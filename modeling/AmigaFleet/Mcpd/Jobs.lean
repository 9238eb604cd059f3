import Mathlib.Logic.Function.Basic
import AmigaFleet.Lib.Framing
import AmigaFleet.Lib.Run

/-!
# The job table of the daemon

`mcpd/src/jobs.c` keeps the commands that `exec.cmd` has started in a table
of `JOB_SLOTS` records.  Every connection worker is a process of its own and
shares the table.  One semaphore guards it, so the unit of interleaving is one
locked section.  This module translates the sections and the events between
them.

* `Job` is `struct job`, `JobInfo` is `struct job_info`.
* `drainLocked`, `findLocked`, `claimSlotLocked` and `fillInfo` are the
  helpers that run with the semaphore held.
* `jobs_start` is cut at the places where it does not hold the semaphore:
  `startClaim` is its first section, `startOpened` and `startOpenFailed` are
  the answer of `Open`, `startKicked` and `startKickFailed` that of
  `SystemTags`, and `startUndo` is the section of its two failure exits.
* A child process runs `job_entry`, writes its output file and ends.  Its end
  fills the death message inside its record and puts the message on the port.
* `jobs_shutdown` is the counting section that its loop repeats, and the free
  that follows.

`Sys` also carries what the C code keeps in local variables: the starts that
are half way through, and the living children with the record their death
message is embedded in.
-/

namespace AmigaFleet.Mcpd.Jobs

open AmigaFleet.Lib

/-! ## Records -/

/-- `JOB_SLOTS` -/
def jobSlots : Nat := 32

theorem jobSlots_pos : 0 < jobSlots := by decide

theorem one_lt_jobSlots : 1 < jobSlots := by decide

abbrev Slot := Fin jobSlots

/-- A C string: the characters before the terminating NUL. -/
abbrev CString := List Char

structure DateStamp where
  days : Int
  minute : Int
  tick : Int
deriving DecidableEq, Repr

/-- What one section reads from the system: `AvailMem` and the clock. -/
structure Env where
  availMem : Nat
  dateStamp : DateStamp
deriving DecidableEq, Repr

/-- `enum job_state`; `cleared` is the zero that the table starts with. -/
inductive JobState where
  | cleared
  | running
  | exited
deriving DecidableEq, Repr

/-- `struct job`.  `returnCode` and `result2` are the fields of the embedded
`dm`, which the system fills when the process ends. -/
structure Job where
  returnCode : Int := 0
  result2 : Int := 0
  inUse : Bool := false
  id : Nat := 0
  state : JobState := .cleared
  pid : Nat := 0
  started : Bool := false
  priority : Int := 0
  signalsSent : Nat := 0
  outputDeleted : Bool := false
  sandboxed : Bool := false
  memFreeBefore : Nat := 0
  memFreeAfter : Nat := 0
  tStart : DateStamp := ⟨0, 0, 0⟩
  tEnd : DateStamp := ⟨0, 0, 0⟩
  outPath : CString := []
  command : CString := []
deriving DecidableEq, Repr

abbrev Table := Slot → Job

/-- `struct job_info`: a snapshot of one job. -/
structure JobInfo where
  id : Nat
  state : JobState
  pid : Nat
  priority : Int
  rc : Int
  result2 : Int
  elapsedMs : Nat
  memFreeBefore : Nat
  memFreeAfter : Nat
  outputDeleted : Bool
  sandboxed : Bool
  signalsSent : Nat
  outPath : CString
  command : CString
deriving DecidableEq, Repr

/-! ## Paths and files -/

/-- `snprintf` and `strncpy` into a zeroed buffer of `size` bytes. -/
def copyInto (size : Nat) (text : CString) : CString := text.take (size - 1)

/-- The output file of the job with this id. -/
def outPathOf (id : Nat) : CString :=
  copyInto 40 ("T:mcpd_job_".toList ++ Nat.toDigits 10 id ++ ".out".toList)

abbrev Files := CString → Option Bytes

/-- `IDOS->Delete` -/
def delete (files : Files) (path : CString) : Files := Function.update files path none

/-! ## Sections with the semaphore held -/

/-- A process or message and the record it points into.  `id` is the job that
it was made for. -/
structure Tenant where
  slot : Slot
  id : Nat
deriving DecidableEq, Repr

/-- How far a `jobs_start` has come outside the semaphore. -/
inductive StartPhase where
  /-- the record is filled; `Delete` and `Open` come next -/
  | claimed
  /-- the output file is open; `SystemTags` comes next -/
  | opened
  /-- a failure exit; `in_use = 0` comes next -/
  | failing
deriving DecidableEq, Repr

/-- A `jobs_start` in progress, with its local variables `j` and `id`. -/
structure Start where
  worker : Nat
  phase : StartPhase
  tenant : Tenant
deriving DecidableEq, Repr

inductive Shutdown where
  | serving
  /-- `jobs_shutdown` has begun and found running jobs -/
  | waiting
  /-- its last count found no running job; the table is about to be freed -/
  | counted
  /-- `g_jobs`, `g_sem` and `g_port` are freed -/
  | released
deriving DecidableEq, Repr

structure Sys where
  jobs : Table
  port : List Tenant
  nextId : Nat
  files : Files
  starts : List Start
  children : List Tenant
  shutdown : Shutdown
  /-- how many starts have been given an id so far -/
  begun : Nat

/-- After `jobs_init`. -/
def init (files : Files) : Sys where
  jobs := fun _ => {}
  port := []
  nextId := 1
  files := files
  starts := []
  children := []
  shutdown := .serving
  begun := 0

def Table.set (jobs : Table) (i : Slot) (j : Job) : Table := Function.update jobs i j

@[simp] theorem Table.set_same (jobs : Table) (i : Slot) (j : Job) : jobs.set i j i = j :=
  Function.update_self ..

theorem Table.set_other (jobs : Table) {i k : Slot} (j : Job) (h : k ≠ i) :
    jobs.set i j k = jobs k := Function.update_of_ne h ..

/-- `_ms_between` -/
def msBetween (a b : DateStamp) : Nat :=
  let ticks := ((b.days - a.days) * 1440 + (b.minute - a.minute)) * 60 * 50 + (b.tick - a.tick)
  (max ticks 0 * 1000 / 50).toNat % 2 ^ 32

/-- What `_drain_locked` writes into the record of one death message. -/
def markExited (env : Env) (j : Job) : Job :=
  { j with state := .exited, memFreeAfter := env.availMem, tEnd := env.dateStamp }

def drainTable (env : Env) (jobs : Table) : List Tenant → Table
  | [] => jobs
  | m :: ms => drainTable env (jobs.set m.slot (markExited env (jobs m.slot))) ms

/-- `_drain_locked` -/
def drainLocked (env : Env) (s : Sys) : Sys :=
  { s with jobs := drainTable env s.jobs s.port, port := [] }

/-- `_find_locked` -/
def findLocked (jobs : Table) (id : Nat) : Option Slot :=
  (List.finRange jobSlots).find? fun i => (jobs i).inUse && (jobs i).id == id

/-- `_fill_info` -/
def fillInfo (env : Env) (j : Job) : JobInfo where
  id := j.id
  state := j.state
  pid := j.pid
  priority := j.priority
  rc := j.returnCode
  result2 := j.result2
  elapsedMs := msBetween j.tStart (if j.state = .exited then j.tEnd else env.dateStamp)
  memFreeBefore := j.memFreeBefore
  memFreeAfter := j.memFreeAfter
  outputDeleted := j.outputDeleted
  sandboxed := j.sandboxed
  signalsSent := j.signalsSent
  outPath := copyInto 40 j.outPath
  command := copyInto 96 j.command

/-- What `_claim_slot_locked` returns: a free record, the finished record it
evicts, or NULL. -/
inductive Claim where
  | free (i : Slot)
  | evict (i : Slot)
  | full
deriving DecidableEq, Repr

/-- `!oldest || j->id < oldest->id` -/
def older (jobs : Table) (i : Slot) : Option Slot → Bool
  | none => true
  | some o => decide ((jobs i).id < (jobs o).id)

def claimScan (jobs : Table) : List Slot → Option Slot → Claim
  | [], none => .full
  | [], some o => .evict o
  | i :: is, oldest =>
    if (jobs i).inUse = false then .free i
    else if (jobs i).state = .exited ∧ older jobs i oldest = true then
      claimScan jobs is (some i)
    else claimScan jobs is oldest

/-- `_claim_slot_locked`, less the `Delete` of an evicted output file. -/
def claimSlotLocked (jobs : Table) : Claim := claimScan jobs (List.finRange jobSlots) none

/-! ## jobs_start -/

/-- `jobs_max_priority` with `WORKER_PRI` 1 -/
def jobsMaxPriority : Int := 0

/-- `JOB_DEFAULT_PRI` -/
def jobDefaultPri : Int := -2

/-- `JOB_MIN_PRI` -/
def jobMinPri : Int := -20

/-- `jobs_default_priority` -/
def jobsDefaultPriority : Int :=
  if jobDefaultPri < jobsMaxPriority then jobDefaultPri else jobsMaxPriority

/-- The arguments of `jobs_start`. -/
structure StartRequest where
  cmd : CString
  priority : Int
  sandboxed : Bool
deriving DecidableEq, Repr

def clampPriority (priority : Int) : Int :=
  let p := if priority > jobsMaxPriority then jobsMaxPriority else priority
  if p < jobMinPri then jobMinPri else p

/-- The record as `jobs_start` fills it. -/
def newJob (env : Env) (id : Nat) (req : StartRequest) : Job where
  returnCode := -1
  result2 := 0
  inUse := true
  id := id
  state := .running
  priority := clampPriority req.priority
  sandboxed := req.sandboxed
  memFreeBefore := env.availMem
  tStart := env.dateStamp
  outPath := outPathOf id
  command := copyInto 96 req.cmd

/-- The `Delete` in `_claim_slot_locked`. -/
def evictOutput (i : Slot) (s : Sys) : Sys :=
  if (s.jobs i).outputDeleted then s else { s with files := delete s.files (s.jobs i).outPath }

/-- Fill the claimed record and leave the semaphore. -/
def fillSlot (env : Env) (worker : Nat) (req : StartRequest) (i : Slot) (s : Sys) : Sys :=
  { s with
    jobs := s.jobs.set i (newJob env s.nextId req)
    nextId := (s.nextId + 1) % 2 ^ 32
    starts := ⟨worker, .claimed, ⟨i, s.nextId⟩⟩ :: s.starts
    begun := s.begun + 1 }

/-- The first section of `jobs_start`.  A full table ends in the BUSY error
and leaves only the drain behind. -/
def startClaim (env : Env) (worker : Nat) (req : StartRequest) (s : Sys) : Sys :=
  let s := drainLocked env s
  match claimSlotLocked s.jobs with
  | .free i => fillSlot env worker req i s
  | .evict i => fillSlot env worker req i (evictOutput i s)
  | .full => s

/-- The start `st` moves on to `phase`. -/
def Sys.startTo (s : Sys) (st : Start) (phase : StartPhase) : Sys :=
  { s with starts := { st with phase := phase } :: s.starts.erase st }

/-- `Delete` the old output file, then `Open` it with MODE_READWRITE. -/
def startOpened (st : Start) (s : Sys) : Sys :=
  { s.startTo st .opened with
    files := Function.update s.files (s.jobs st.tenant.slot).outPath (some []) }

def startOpenFailed (st : Start) (s : Sys) : Sys :=
  { s.startTo st .failing with files := delete s.files (s.jobs st.tenant.slot).outPath }

/-- `SystemTags` returned 0: the child lives and holds the death message. -/
def startKicked (st : Start) (s : Sys) : Sys :=
  { s with starts := s.starts.erase st, children := st.tenant :: s.children }

/-- `SystemTags` failed: `Close` and `Delete` the output file. -/
def startKickFailed (st : Start) (s : Sys) : Sys :=
  { s.startTo st .failing with files := delete s.files (s.jobs st.tenant.slot).outPath }

/-- The locked section of both failure exits: `j->in_use = 0`. -/
def startUndo (st : Start) (s : Sys) : Sys :=
  { s with
    jobs := s.jobs.set st.tenant.slot { s.jobs st.tenant.slot with inUse := false }
    starts := s.starts.erase st }

/-! ## The child -/

/-- `job_entry`, run inside the new process. -/
def jobEntry (c : Tenant) (pid : Nat) (s : Sys) : Sys :=
  { s with jobs := s.jobs.set c.slot { s.jobs c.slot with pid := pid, started := true } }

/-- The command writes through the handle that `jobs_start` opened. -/
def childWrite (c : Tenant) (bytes : Bytes) (s : Sys) : Sys :=
  match s.files (outPathOf c.id) with
  | none => s
  | some old => { s with files := Function.update s.files (outPathOf c.id) (some (old ++ bytes)) }

/-- The process ends: the system fills `dm` and puts the message on the port. -/
def childExit (c : Tenant) (rc result2 : Int) (s : Sys) : Sys :=
  { s with
    jobs := s.jobs.set c.slot { s.jobs c.slot with returnCode := rc, result2 := result2 }
    children := s.children.erase c
    port := s.port ++ [c] }

/-! ## The other sections -/

/-- `jobs_get`: the snapshot, or `none` for an unknown id. -/
def jobsGet (env : Env) (id : Nat) (s : Sys) : Sys × Option JobInfo :=
  let s := drainLocked env s
  (s, (findLocked s.jobs id).map fun i => fillInfo env (s.jobs i))

/-- `jobs_signal`.  `found` is whether `ProcessScan` meets the process id. -/
def jobsSignal (env : Env) (id sigmask : Nat) (found : Bool) (s : Sys) : Sys × Option Bool :=
  let s := drainLocked env s
  match findLocked s.jobs id with
  | none => (s, none)
  | some i =>
    if (s.jobs i).state = .running ∧ (s.jobs i).pid ≠ 0 ∧ found = true then
      let j := { s.jobs i with signalsSent := (s.jobs i).signalsSent ||| sigmask }
      ({ s with jobs := s.jobs.set i j }, some true)
    else (s, some false)

/-- `jobs_drop_output` -/
def jobsDropOutput (id : Nat) (s : Sys) : Sys :=
  match findLocked s.jobs id with
  | none => s
  | some i =>
    if (s.jobs i).outputDeleted = false ∧ (s.jobs i).state = .exited then
      { s with
        files := delete s.files (s.jobs i).outPath
        jobs := s.jobs.set i { s.jobs i with outputDeleted := true } }
    else s

/-- The section of `jobs_list`: the snapshots in table order. -/
def jobsList (env : Env) (s : Sys) : Sys × List JobInfo :=
  let s := drainLocked env s
  (s, (List.finRange jobSlots).filterMap fun i =>
    if (s.jobs i).inUse then some (fillInfo env (s.jobs i)) else none)

/-- `g_jobs[i].in_use && g_jobs[i].state == JOB_RUNNING` -/
def Job.isRunning (j : Job) : Bool := j.inUse && j.state == .running

/-- One round of the loop in `jobs_shutdown`: drain, count, and leave the loop
when nothing runs. -/
def shutdownCount (env : Env) (s : Sys) : Sys :=
  let s := drainLocked env s
  if (List.finRange jobSlots).any fun i => (s.jobs i).isRunning then
    { s with shutdown := .waiting }
  else { s with shutdown := .counted }

def deleteOutputs (jobs : Table) (files : Files) : Files :=
  (List.finRange jobSlots).foldl
    (fun f i => if (jobs i).inUse && !(jobs i).outputDeleted then delete f (jobs i).outPath else f)
    files

/-- The rest of `jobs_shutdown`: delete the output files, free the port, the
semaphore and the table. -/
def shutdownFree (s : Sys) : Sys :=
  { s with files := deleteOutputs s.jobs s.files, shutdown := .released }

/-! ## The system -/

inductive Label where
  | startClaim (env : Env) (worker : Nat) (req : StartRequest)
  | startOpened (st : Start)
  | startOpenFailed (st : Start)
  | startKicked (st : Start)
  | startKickFailed (st : Start)
  | startUndo (st : Start)
  | jobEntry (c : Tenant) (pid : Nat)
  | childWrite (c : Tenant) (bytes : Bytes)
  | childExit (c : Tenant) (rc result2 : Int)
  | get (env : Env) (id : Nat)
  | signal (env : Env) (id sigmask : Nat) (found : Bool)
  | dropOutput (id : Nat)
  | list (env : Env)
  | shutdownCount (env : Env)
  | shutdownFree

/-- A start takes a step of `phase`. -/
def Sys.whenStart (s : Sys) (st : Start) (phase : StartPhase) (s' : Sys) : Option Sys :=
  if st ∈ s.starts ∧ st.phase = phase then some s' else none

/-- A living child takes a step. -/
def Sys.whenChild (s : Sys) (c : Tenant) (s' : Sys) : Option Sys :=
  if c ∈ s.children then some s' else none

/-- The steps on a table that exists. -/
def serve (s : Sys) : Label → Option Sys
  | .startClaim env worker req => some (startClaim env worker req s)
  | .startOpened st => s.whenStart st .claimed (startOpened st s)
  | .startOpenFailed st => s.whenStart st .claimed (startOpenFailed st s)
  | .startKicked st => s.whenStart st .opened (startKicked st s)
  | .startKickFailed st => s.whenStart st .opened (startKickFailed st s)
  | .startUndo st => s.whenStart st .failing (startUndo st s)
  | .jobEntry c pid => s.whenChild c (jobEntry c pid s)
  | .childWrite c bytes => s.whenChild c (childWrite c bytes s)
  | .childExit c rc result2 => s.whenChild c (childExit c rc result2 s)
  | .get env id => some (jobsGet env id s).1
  | .signal env id sigmask found => some (jobsSignal env id sigmask found s).1
  | .dropOutput id => some (jobsDropOutput id s)
  | .list env => some (jobsList env s).1
  | .shutdownCount env =>
    if s.shutdown = .counted then none else some (shutdownCount env s)
  | .shutdownFree => if s.shutdown = .counted then some (shutdownFree s) else none

/-- One step.  Once the table is freed no section runs any more. -/
def step (s : Sys) (a : Label) : Option Sys :=
  if s.shutdown = .released then none else serve s a

end AmigaFleet.Mcpd.Jobs

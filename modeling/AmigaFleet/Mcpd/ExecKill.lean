import AmigaFleet.Mcpd.JobListing
import AmigaFleet.Mcpd.MachineText

/-!
# exec.kill and exec.status

`exec_kill` of `mcpd/src/methods/exec.c` over the job table, in finer steps than
`Jobs.jobsSignal`: `jobs_signal` holds the semaphore while `ProcessScan` walks the
list of the processes, and the list changes without the semaphore.  A job's process
is kicked, runs `job_entry`, leaves the list and has its death message sent at moments
of its own; other processes come and go.

* `killOf`: the parameters of `exec_kill`.
* `Task`: a call that sends a signal, also one of `jobs_shutdown`.
* `turn`: its next step; `step`: the tasks, the processes and the job table together.
* `execStatus`: the other reader of `signals_sent`.

`Sys.requests` and `Sys.signals` are there for the statements; no step reads them.
-/

namespace AmigaFleet.Mcpd.ExecKill

open AmigaFleet.Lib
open AmigaFleet.Mcpd.Jobs (JobInfo Slot StartRequest Tenant Env findLocked drainLocked)
open AmigaFleet.Mcpd.Exec (pJobId jobIdData addJobFields execPollMs)
open AmigaFleet.Mcpd.Fs (mcpdErrNotcapable)

/-! ## Break signals -/

inductive Break where
  | c
  | d
  | e
  | f
deriving DecidableEq, Repr

/-- `SIGBREAKF_CTRL_C` to `SIGBREAKF_CTRL_F` -/
def Break.mask : Break → Nat
  | .c => 0x1000
  | .d => 0x2000
  | .e => 0x4000
  | .f => 0x8000

def Break.letter : Break → String
  | .c => "c"
  | .d => "d"
  | .e => "e"
  | .f => "f"

/-- The `switch` of `exec_kill`, on `valuestring[0]`. -/
def breakOf (first : UInt8) : Option Break :=
  let low := first ||| 0x20
  if low = 0x63 then some .c
  else if low = 0x64 then some .d
  else if low = 0x65 then some .e
  else if low = 0x66 then some .f
  else none

/-! ## Parameters and answers -/

/-- `_p_bool` -/
def pBool (params : Option CJson) (name : String) : Bool :=
  match params.bind (CJson.getItem (ascii name)) with
  | some (.bool b) => b
  | _ => false

inductive Caller where
  /-- `exec_kill` -/
  | kill (force : Bool) (waitMs : Int)
  /-- `jobs_shutdown`, which ignores the answer -/
  | shutdown
deriving DecidableEq, Repr

/-- A call of `jobs_signal`, with what its caller keeps. -/
structure Request where
  id : Nat
  signal : Break
  caller : Caller
deriving DecidableEq, Repr

def Request.forced (r : Request) : Bool :=
  match r.caller with
  | .kill force _ => force
  | .shutdown => false

/-- The signal, when it is not forced. -/
def signalOf (params : Option CJson) : Except CJson Break :=
  match params.bind (CJson.getItem (ascii "signal")) with
  | some (.string text) =>
    match breakOf (text.headD 0) with
    | some signal => .ok signal
    | none => .error (rpcMakeError mcpdErrInvparams "signal must be one of c, d, e, f" none)
  | _ => .ok .c

/-- `wait_ms`, within its bounds. -/
def waitMsOf (params : Option CJson) : Int := min (max (pInt params "wait_ms" 2000) 0) 60000

/-- `exec_kill`, up to `jobs_signal`, less the look at the record of a forced one. -/
def killOf (params : Option CJson) : Except CJson Request := do
  let id ← pJobId params
  let force := pBool params "force"
  let signal ← if force then .ok .f else signalOf params
  .ok ⟨id, signal, .kill force (waitMsOf params)⟩

/-- `_unknown_job` -/
def unknownJob (id : Nat) : CJson :=
  rpcMakeError mcpdErrInvparams "unknown job_id (never started, or its record was evicted)"
    (some (jobIdData id))

def notSandboxed : CJson :=
  rpcMakeError mcpdErrNotcapable "exec.kill: force is only available for sandboxed jobs" none

/-- The result object of `exec_kill`. -/
def killResult (ji : JobInfo) (r : Request) (sent : Bool) : CJson :=
  .object (addJobFields ji ++ [(ascii "signal", cString r.signal.letter),
    (ascii "sent", .bool sent), (ascii "forced", .bool r.forced),
    (ascii "exited", .bool (ji.state = .exited))])

/-! ## exec.status -/

/-- The letters of `signals_sent`. -/
def signalLetters (signalsSent : Nat) : List CJson :=
  ([.c, .d, .e, .f] : List Break).filterMap fun b =>
    if signalsSent &&& b.mask ≠ 0 then some (cString b.letter) else none

/-- The result object of `exec_status`. -/
def statusResult (ji : JobInfo) : CJson :=
  .object (addJobFields ji ++ [(ascii "command", .string (Jobs.cBytes ji.command)),
    (ascii "output_available", .bool (!ji.outputDeleted)),
    (ascii "mem_free_before", cNumber ji.memFreeBefore)] ++
    (if ji.state = .exited then [(ascii "mem_free_after", cNumber ji.memFreeAfter)] else []) ++
    [(ascii "signals_sent", .array (signalLetters ji.signalsSent))])

/-- `exec_status`; `jobsGet` is the answer of `jobs_get`. -/
def execStatus (jobsGet : Nat → Option JobInfo) : Handler := fun params => do
  let id ← pJobId params
  match jobsGet id with
  | none => .error (unknownJob id)
  | some ji => .ok (statusResult ji)

/-! ## Processes and tasks -/

/-- An entry of the list that `ProcessScan` walks. -/
structure Process where
  /-- `pr_ProcessID` -/
  pid : Nat
  /-- the record that it was started with, for a job's process -/
  job : Option Tenant := none
deriving DecidableEq, Repr

inductive Phase where
  /-- `jobs_get` of a forced `exec_kill` comes next -/
  | checking
  /-- `jobs_signal` comes next -/
  | signalling
  /-- `ProcessScan` for the process id of a record, with the semaphore held -/
  | scanning (i : Slot) (pid : Nat)
  /-- the `jobs_get` of the loop comes next -/
  | polling (sent : Bool) (waited : Int)
  | done (o : Outcome)
  /-- the signal of `jobs_shutdown` is over -/
  | ignored

structure Task where
  request : Request
  phase : Phase

def Task.isScanning (t : Task) : Bool :=
  match t.phase with
  | .scanning _ _ => true
  | _ => false

/-- A signal that a process has been sent. -/
structure Signal where
  task : Nat
  request : Request
  process : Process
deriving DecidableEq, Repr

structure Sys where
  table : Jobs.Sys
  processes : List Process
  tasks : List Task
  /-- the starts that were given an id -/
  requests : Nat → Option StartRequest
  /-- the signals so far -/
  signals : List Signal

def init (files : Jobs.Files) : Sys where
  table := Jobs.init files
  processes := []
  tasks := []
  requests := fun _ => none
  signals := []

/-! ## The steps of a task -/

/-- What the loop of `exec_kill` does with the answer of `jobs_get`. -/
def Request.polled (r : Request) (sent : Bool) (waited : Int) : Option JobInfo → Phase
  | none => .done (.error (unknownJob r.id))
  | some ji =>
    match r.caller with
    | .kill _ waitMs =>
      if ji.state = .exited ∨ sent = false ∨ waited ≥ waitMs then
        .done (.ok (killResult ji r sent))
      else .polling sent (waited + execPollMs)
    | .shutdown => .ignored

def Request.checked (r : Request) : Option JobInfo → Phase
  | none => .done (.error (unknownJob r.id))
  | some ji => if ji.sandboxed then .signalling else .done (.error notSandboxed)

/-- `jobs_signal` returns. -/
def Request.signalled (r : Request) (sent : Bool) : Phase :=
  match r.caller with
  | .kill _ _ => .polling sent 0
  | .shutdown => .ignored

/-- `jobs_signal` up to `ProcessScan`, with the table drained. -/
def Request.found (r : Request) (jobs : Jobs.Table) : Phase :=
  match findLocked jobs r.id with
  | none => .done (.error (unknownJob r.id))
  | some i =>
    if (jobs i).state = .running ∧ (jobs i).pid ≠ 0 then .scanning i (jobs i).pid
    else r.signalled false

/-- The record of a signal that was sent. -/
def signalled (jobs : Jobs.Table) (i : Slot) (signal : Break) : Jobs.Table :=
  jobs.set i { jobs i with signalsSent := (jobs i).signalsSent ||| signal.mask }

/-- A task has the semaphore. -/
def Sys.locked (s : Sys) : Bool := s.tasks.any Task.isScanning

def Sys.setPhase (s : Sys) (k : Nat) (t : Task) (phase : Phase) : Sys :=
  { s with tasks := s.tasks.set k { t with phase := phase } }

/-- `_scan_hook` meets the process, or not. -/
def Sys.scan (s : Sys) (k : Nat) (t : Task) (i : Slot) (pid : Nat) : Sys :=
  match s.processes.find? (·.pid = pid) with
  | none => s.setPhase k t (t.request.signalled false)
  | some p =>
    { s.setPhase k t (t.request.signalled true) with
      table := { s.table with jobs := signalled s.table.jobs i t.request.signal }
      signals := ⟨k, t.request, p⟩ :: s.signals }

/-- A section of task `k` that takes and releases the semaphore. -/
def Sys.section (s : Sys) (env : Env) (k : Nat) (t : Task) (phase : Jobs.Table → Phase) :
    Option Sys :=
  if s.locked then none
  else
    let table := drainLocked env s.table
    some ({ s with table := table }.setPhase k t (phase table.jobs))

/-- `jobs_get`, with the table drained. -/
def infoOf (env : Env) (jobs : Jobs.Table) (id : Nat) : Option JobInfo :=
  (findLocked jobs id).map fun i => Jobs.fillInfo env (jobs i)

def turn (s : Sys) (env : Env) (k : Nat) (t : Task) : Option Sys :=
  match t.phase with
  | .checking => s.section env k t fun jobs => t.request.checked (infoOf env jobs t.request.id)
  | .signalling => s.section env k t t.request.found
  | .scanning i pid => some (s.scan k t i pid)
  | .polling sent waited =>
    s.section env k t fun jobs => t.request.polled sent waited (infoOf env jobs t.request.id)
  | .done _ => none
  | .ignored => none

/-! ## The system -/

inductive Label where
  /-- a step of the job table, less those that follow -/
  | table (a : Jobs.Label)
  /-- `SystemTags` returned 0 -/
  | kicked (st : Jobs.Start) (pid : Nat)
  /-- `job_entry` -/
  | entered (p : Process)
  /-- a process of another program -/
  | appears (pid : Nat)
  | leaves (p : Process)
  /-- an `exec_kill`; one that fails at its parameters ends here -/
  | kill (params : Option CJson)
  /-- the first round of `jobs_shutdown` reads the id of a record, without the semaphore -/
  | shutdownSignal (i : Slot)
  | turn (env : Env) (k : Nat)

/-- Whether the label is for `Label.table`, now. -/
def Sys.onTable (s : Sys) : Jobs.Label → Bool
  | .startClaim _ _ _ | .startUndo _ | .get _ _ | .dropOutput _ | .list _ | .shutdownCount _ =>
    !s.locked
  | .startOpened _ | .startOpenFailed _ | .startKickFailed _ | .childWrite _ _ | .childExit _ _ _
  | .shutdownFree => true
  | .startKicked _ | .jobEntry _ _ | .signal _ _ _ _ => false

/-- The starts that were given an id, after a step of the table. -/
def requestsAfter (s : Sys) (table : Jobs.Sys) : Jobs.Label → Nat → Option StartRequest
  | .startClaim _ _ req =>
    if table.begun = s.table.begun then s.requests
    else Function.update s.requests s.table.nextId (some req)
  | _ => s.requests

/-- A new task. -/
def Sys.begin (s : Sys) (r : Request) (phase : Phase) : Sys :=
  { s with tasks := s.tasks ++ [⟨r, phase⟩] }

def Sys.pidUsed (s : Sys) (pid : Nat) : Bool := s.processes.any (·.pid = pid)

def step (s : Sys) : Label → Option Sys
  | .table a =>
    if s.onTable a then
      (Jobs.step s.table a).map fun table =>
        { s with table := table, requests := requestsAfter s table a }
    else none
  | .kicked st pid =>
    if s.pidUsed pid then none
    else
      (Jobs.step s.table (.startKicked st)).map fun table =>
        { s with table := table, processes := ⟨pid, some st.tenant⟩ :: s.processes }
  | .entered p =>
    if p ∈ s.processes then
      p.job.bind fun c =>
        (Jobs.step s.table (.jobEntry c p.pid)).map fun table => { s with table := table }
    else none
  | .appears pid =>
    if s.pidUsed pid then none else some { s with processes := ⟨pid, none⟩ :: s.processes }
  | .leaves p => some { s with processes := s.processes.erase p }
  | .kill params =>
    match killOf params with
    | .error _ => some s
    | .ok r => some (s.begin r (if r.forced then .checking else .signalling))
  | .shutdownSignal i =>
    if s.table.shutdown = .waiting then
      some (s.begin ⟨(s.table.jobs i).id, .c, .shutdown⟩ .signalling)
    else none
  | .turn env k =>
    if s.table.shutdown = .released then none
    else s.tasks[k]?.bind fun t => turn s env k t

end AmigaFleet.Mcpd.ExecKill

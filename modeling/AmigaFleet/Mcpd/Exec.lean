import AmigaFleet.Mcpd.CJson
import AmigaFleet.Mcpd.Jobs

/-!
# exec.cmd

`mcpd/src/methods/exec.c` runs a command as a job of the table and polls the
table until the job has ended or the timeout is over.  This module puts the
calls of `n` connection workers on top of the job table.

* `quoteArg` and `fullCommand` build the command line.
* `amigaLatin1ToUtf8` and `amigaReadOutput` are the reader of the output file
  in `amigautil.c`, here for files below 4 GiB; `amigaReadOutput32` has the
  sizes of the target.  `File` operations on a file that exists succeed, and so
  does `malloc`.
* `Call` holds the local variables of one `exec_cmd`, `Phase` the place where
  it stands.  A call is cut where another process can run: between
  `jobs_start`, each `jobs_get`, each read of the output file and
  `jobs_drop_output`.

`Sys.wrote` and `Sys.death`, and the fields `death` and `content` of a call,
are there for the statements only.  They record what the command wrote and how
it ended, and no step reads them.
-/

namespace AmigaFleet.Mcpd.Exec

open AmigaFleet.Lib AmigaFleet.Mcpd.Jobs

/-! ## The command line -/

/-- The characters that put an argument into quotes. -/
def needsQuote (c : Char) : Bool := c = ' ' || c = '\t' || c = '"' || c = '*' || c = '\n'

/-- `_quote_arg` -/
def quoteArg (a : CString) : CString :=
  let body := a.flatMap fun c => if c = '"' || c = '*' then ['*', c] else [c]
  if a.isEmpty || a.any needsQuote then '"' :: body ++ ['"'] else body

/-- The loop of `exec_cmd` over `args`; `none` for an entry that is no string. -/
def fullCommand (full : CString) : List (Option CString) → Option CString
  | [] => some full
  | none :: _ => none
  | some a :: args => fullCommand (full ++ ' ' :: quoteArg a) args

/-! ## Reading the output file -/

/-- `EXEC_CAP_MAX` -/
def execCapMax : Nat := 2 ^ 20

/-- `EXEC_POLL_TICKS` in milliseconds. -/
def execPollMs : Int := 2 * 1000 / 50

/-- `amiga_latin1_to_utf8` -/
def amigaLatin1ToUtf8 : Bytes → Bytes
  | [] => []
  | c :: src =>
    if c < 0x80 then c :: amigaLatin1ToUtf8 src
    else ((0xC0 : UInt8) ||| (c >>> 6)) :: ((0x80 : UInt8) ||| (c &&& 0x3F)) :: amigaLatin1ToUtf8 src

/-- The results of `amiga_read_output`: the returned buffer, `*raw_n` and
`*total`. -/
structure ReadOutput where
  text : Bytes
  raw : Nat
  total : Nat
deriving DecidableEq, Repr

/-- `amiga_read_output`; `sizeT` is what a `size_t` keeps of a size. -/
def amigaReadOutputWith (sizeT : Nat → Nat) (files : Files) (path : CString) (offset max : Nat) :
    ReadOutput :=
  match files path with
  | none => ⟨amigaLatin1ToUtf8 [], 0, 0⟩
  | some content =>
    let want := if offset < content.length then sizeT (content.length - offset) else 0
    let want := if want > max then max else want
    let buf := (content.drop offset).take want
    ⟨amigaLatin1ToUtf8 buf, buf.length, sizeT content.length⟩

def amigaReadOutput : Files → CString → Nat → Nat → ReadOutput := amigaReadOutputWith id

def amigaReadOutput32 : Files → CString → Nat → Nat → ReadOutput := amigaReadOutputWith (· % 2 ^ 32)

/-! ## Parameters and answers -/

/-- The parameters of `exec.cmd`; `none` for a number that is not given. -/
structure CmdParams where
  command : CString
  timeoutMs : Option Int := none
  timeoutS : Option Int := none
  priority : Option Int := none
  returnRunning : Bool := false
  stream : Bool := false
  sandboxed : Bool := false
  args : List (Option CString) := []
  cwd : Option CString := none
deriving DecidableEq, Repr

/-- `timeout_ms` after its defaults. -/
def CmdParams.timeout (p : CmdParams) : Int :=
  let t := p.timeoutMs.getD 0
  let t := if t ≤ 0 then p.timeoutS.getD 30 * 1000 else t
  if t ≤ 0 then 30000 else t

def CmdParams.pri (p : CmdParams) : Int := p.priority.getD jobsDefaultPriority

/-- A `proc.stdout` notification of `_send_chunk`. -/
structure Chunk where
  jobId : Nat
  chunk : Bytes
  size : Nat
deriving DecidableEq, Repr

structure CmdResult where
  output : Bytes
  /-- the fields of `_add_job_fields` -/
  info : JobInfo
  truncated : Bool
  outputBytes : Nat
  streamed : Bool
  priorityRequested : Option Int
deriving DecidableEq, Repr

inductive CmdError where
  /-- `args[] entries must be strings` -/
  | argsNotStrings
  /-- `exec.cmd: cwd lock failed` -/
  | cwdLockFailed (cwd : CString)
  /-- `exec: every job slot holds a running job` -/
  | busy
  /-- the two failure exits of `jobs_start` -/
  | notStarted
  /-- `exec.cmd: job record lost` -/
  | recordLost
  /-- `exec.cmd: timed out; the command is still running` -/
  | timedOut (jobId : Nat) (timeoutMs : Int)
deriving DecidableEq, Repr

/-! ## Calls -/

/-- How a job ended. -/
structure Death where
  rc : Int
  result2 : Int
deriving DecidableEq, Repr

inductive Phase where
  | idle
  /-- inside `jobs_start` with this record -/
  | starting (t : Tenant)
  /-- `jobs_get` comes next -/
  | polling
  /-- the streaming read comes next -/
  | streaming (ji : JobInfo)
  /-- the loop is over; the read of the whole output comes next -/
  | reading (ji : JobInfo)
  /-- `jobs_drop_output` comes next -/
  | dropping (ji : JobInfo) (out : ReadOutput)
  | failed (e : CmdError)
  | answered (r : CmdResult)
deriving DecidableEq, Repr

/-- The local variables of one `exec_cmd`. -/
structure Call where
  params : CmdParams
  phase : Phase
  id : Nat := 0
  streamedTo : Nat := 0
  waitedMs : Int := 0
  /-- the notifications sent so far -/
  chunks : List Chunk := []
  /-- the end of the job, if it had ended at the last `jobs_get` -/
  death : Option Death := none
  /-- what the job had written when its output was read -/
  content : Bytes := []
deriving DecidableEq, Repr

/-- The poll loop after `jobs_get` and the streaming read. -/
def Call.decide (c : Call) (ji : JobInfo) : Call :=
  if ji.state = .exited ∨ c.waitedMs ≥ c.params.timeout then
    if ji.state = .running ∧ c.params.returnRunning = false then
      { c with phase := .failed (.timedOut c.id c.params.timeout) }
    else { c with phase := .reading ji }
  else { c with phase := .polling, waitedMs := c.waitedMs + execPollMs }

/-- The result object of `exec_cmd`. -/
def Call.result (c : Call) (ji : JobInfo) (out : ReadOutput) : CmdResult where
  output := cText out.text
  info := ji
  truncated := out.raw < out.total
  outputBytes := out.total
  streamed := c.params.stream
  priorityRequested :=
    if clampPriority c.params.pri ≠ c.params.pri then some c.params.pri else none

/-- What a call does with the answer of `jobs_get`. -/
def Call.polled (c : Call) (death : Option Death) : Option JobInfo → Call
  | none => { c with phase := .failed .recordLost, death := death }
  | some ji =>
    if c.params.stream then { c with phase := .streaming ji, death := death }
    else { c with death := death }.decide ji

/-- The streaming read and `_send_chunk`. -/
def Call.streamed (c : Call) (ji : JobInfo) (files : Files) : Call :=
  let out := amigaReadOutput files ji.outPath c.streamedTo 8192
  let sent := if out.raw = 0 then [] else [⟨c.id, cText out.text, out.raw⟩]
  { c with chunks := c.chunks ++ sent, streamedTo := c.streamedTo + out.raw }.decide ji

/-- The read of the whole output. -/
def Call.readAll (c : Call) (ji : JobInfo) (files : Files) (content : Bytes) : Call :=
  let out := amigaReadOutput files ji.outPath 0 execCapMax
  if ji.state = .exited then { c with phase := .dropping ji out, content := content }
  else { c with phase := .answered (c.result ji out), content := content }

/-! ## The system -/

/-- The job table and the calls of `n` workers. -/
structure Sys (n : Nat) where
  table : Jobs.Sys
  calls : Fin n → Call
  /-- what the job with this id has written -/
  wrote : Nat → Bytes
  /-- how the job with this id has ended -/
  death : Nat → Option Death

variable {n : Nat}

def init (n : Nat) (files : Files) : Sys n where
  table := Jobs.init files
  calls := fun _ => { params := { command := [] }, phase := .idle }
  wrote := fun _ => []
  death := fun _ => none

def Sys.setCall (s : Sys n) (w : Fin n) (c : Call) : Sys n :=
  { s with calls := Function.update s.calls w c }

def Call.free (c : Call) : Bool :=
  match c.phase with
  | .idle | .failed _ | .answered _ => true
  | _ => false

/-- The record that `jobs_start` is given, `none` for the BUSY error. -/
def claimed (env : Env) (t : Jobs.Sys) : Option Tenant :=
  match claimSlotLocked (drainLocked env t).jobs with
  | .free i => some ⟨i, t.nextId⟩
  | .evict i => some ⟨i, t.nextId⟩
  | .full => none

/-- The first section of `jobs_start`, called by `exec_cmd` with `full`. -/
def beginStart (env : Env) (w : Fin n) (p : CmdParams) (full : CString) (s : Sys n) : Sys n :=
  let table := startClaim env w ⟨full, p.pri, p.sandboxed⟩ s.table
  match claimed env s.table with
  | none => { s with table := table }.setCall w { params := p, phase := .failed .busy }
  | some t =>
    { table := table
      calls := Function.update s.calls w { params := p, phase := .starting t, id := t.id }
      wrote := Function.update s.wrote t.id []
      death := Function.update s.death t.id none }

/-- What `exec_cmd` does before `jobs_start`: it builds the command line and
locks the directory in `cwd`. -/
def prepare (p : CmdParams) (cwdLocks : Bool) : Except CmdError CString :=
  match fullCommand p.command p.args, p.cwd with
  | none, _ => .error .argsNotStrings
  | some full, some (ch :: cwd) =>
    if cwdLocks then .ok full else .error (.cwdLockFailed (ch :: cwd))
  | some full, _ => .ok full

/-- `exec_cmd` up to the first section of `jobs_start`. -/
def beginCmd (env : Env) (w : Fin n) (p : CmdParams) (cwdLocks : Bool) (s : Sys n) : Sys n :=
  match prepare p cwdLocks with
  | .error e => s.setCall w { params := p, phase := .failed e }
  | .ok full => beginStart env w p full s

inductive Label (n : Nat) where
  /-- worker `w` receives `exec.cmd` -/
  | begin (env : Env) (w : Fin n) (p : CmdParams) (cwdLocks : Bool)
  /-- `SystemTags` has returned 0 and `jobs_start` returns -/
  | kicked (w : Fin n) (st : Start)
  /-- a failure exit of `jobs_start` -/
  | undone (w : Fin n) (st : Start)
  | poll (env : Env) (w : Fin n)
  | stream (w : Fin n)
  | read (w : Fin n)
  | drop (w : Fin n)
  /-- another section, or a child -/
  | table (a : Jobs.Label)

/-- The labels of the table that are not steps of an `exec.cmd` call. -/
def background : Jobs.Label → Bool
  | .startOpened _ | .startOpenFailed _ | .startKickFailed _ | .jobEntry _ _ | .childWrite _ _
  | .childExit _ _ _ | .get _ _ | .signal _ _ _ _ | .list _ => true
  | .startClaim _ _ _ | .startKicked _ | .startUndo _ | .dropOutput _ | .shutdownCount _
  | .shutdownFree => false

/-- A step of the table, with the record of what the children do. -/
def Sys.onTable (s : Sys n) (a : Jobs.Label) (table : Jobs.Sys) : Sys n :=
  match a with
  | .childWrite c bytes =>
    { s with table := table, wrote := Function.update s.wrote c.id (s.wrote c.id ++ bytes) }
  | .childExit c rc result2 =>
    { s with table := table, death := Function.update s.death c.id (some ⟨rc, result2⟩) }
  | _ => { s with table := table }

/-- `jobs_get` of the call of worker `w`. -/
def pollCall (env : Env) (w : Fin n) (s : Sys n) : Sys n :=
  let c := s.calls w
  let got := jobsGet env c.id s.table
  { s with table := got.1 }.setCall w (c.polled (s.death c.id) got.2)

def step (s : Sys n) : Label n → Option (Sys n)
  | .begin env w p cwdLocks =>
    if (s.calls w).free then some (beginCmd env w p cwdLocks s) else none
  | .kicked w st =>
    if (s.calls w).phase = .starting st.tenant then
      (Jobs.step s.table (.startKicked st)).map fun table =>
        { s with table := table }.setCall w { s.calls w with phase := .polling }
    else none
  | .undone w st =>
    if (s.calls w).phase = .starting st.tenant then
      (Jobs.step s.table (.startUndo st)).map fun table =>
        { s with table := table }.setCall w { s.calls w with phase := .failed .notStarted }
    else none
  | .poll env w => if (s.calls w).phase = .polling then some (pollCall env w s) else none
  | .stream w =>
    match (s.calls w).phase with
    | .streaming ji => some (s.setCall w ((s.calls w).streamed ji s.table.files))
    | _ => none
  | .read w =>
    match (s.calls w).phase with
    | .reading ji =>
      some (s.setCall w ((s.calls w).readAll ji s.table.files (s.wrote (s.calls w).id)))
    | _ => none
  | .drop w =>
    match (s.calls w).phase with
    | .dropping ji out =>
      some ({ s with table := jobsDropOutput (s.calls w).id s.table }.setCall w
        { s.calls w with phase := .answered ((s.calls w).result ji out) })
    | _ => none
  | .table a =>
    if background a then (Jobs.step s.table a).map (s.onTable a) else none

end AmigaFleet.Mcpd.Exec

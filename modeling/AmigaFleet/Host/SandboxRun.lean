import AmigaFleet.Host.PyBase64
import AmigaFleet.Host.SandboxBatch
import AmigaFleet.Lib.Around

/-!
# Guests under SandboxVM

`_run_sandboxvm` of `tools/sandbox.py`, which is `sandbox_run_guest` and
`sandbox_run_driver`: any number of calls at a time, and the targets that they run
their guests on.  A guest writes what it prints to two files in `T:` that are named
after it; the calls on one target take turns through a lock, and read and delete the
files before they let the lock go.

A call goes on when an answer is there, or is cancelled.  The daemon starts a guest
once, perhaps when its call has given up already, and the guest lives as long as it
likes.  How `exit_code` 50 is looked up in the debug ring is not here.

* `Call`: a call with its local variables; `started` and `wrote` are not in the source,
  they say what its guest has done.
* `step`: the calls, and the machines of the targets.
-/

namespace AmigaFleet.Host.SandboxRun

open AmigaFleet.Lib
open SandboxCommand (GuestRun buildCommand)
open SandboxBatch (Capture SandboxConfig mergedDeny orElse)

abbrev Text := List Char

abbrev Target := Text

/-! ## Requests -/

/-- The parameters of `_run_sandboxvm`. -/
structure RunRequest where
  target : Target
  guest : Text
  args : Option (List Text) := none
  extmemMb : Option Int := none
  windowMb : Option Int := none
  denyLibs : List Text := []
  name : Option Text := none
  residentDriver : Bool := false
  testElf : Option Text := none
deriving DecidableEq, Repr

/-- `rsplit(sep, 1)[1]`, where `sep` is in the text -/
def behindLast (sep : Char) (text : Text) : Text :=
  (splitLast (fun c => c == sep) text).elim text fun parts => parts.2.2

/-- `rsplit(sep, 1)[0]` -/
def beforeLast (sep : Char) (text : Text) : Text :=
  (splitLast (fun c => c == sep) text).elim text fun parts => parts.1

/-- `_derive_guest_name` -/
def deriveGuestName (guest : Text) : Text :=
  let base := behindLast ':' (behindLast '/' guest)
  let base := beforeLast '.' base
  if base = [] then "guest".toList else base

/-- `run_name` -/
def RunRequest.runName (r : RunRequest) : Text := orElse r.name (deriveGuestName r.guest)

def RunRequest.guestRun (r : RunRequest) (probePath : Text) (cfg : Option SandboxConfig) :
    GuestRun where
  sandboxvmPath := probePath
  guest := r.guest
  args := r.args
  extmemMb := r.extmemMb.getD (cfg.elim 1024 (·.defaultExtmemMb))
  windowMb := r.windowMb.getD (cfg.elim 256 (·.defaultWindowMb))
  denyLibs := mergedDeny cfg r.denyLibs
  name := r.runName
  residentDriver := r.residentDriver
  testElf := r.testElf

inductive Stream where
  | out
  | err
deriving DecidableEq, Repr

/-- `out_path` and `err_path` -/
def capturePath (name : Text) : Stream → Text
  | .out => "T:sandboxvm-".toList ++ name ++ ".out".toList
  | .err => "T:sandboxvm-".toList ++ name ++ ".err".toList

/-- `GuestRunResult`, less the trap and the time. -/
structure RunResult where
  target : Target
  guest : Text
  name : Text
  command : Text
  exitCode : Int
  stdout : Text
  stderr : Text
  capturePaths : List Text
deriving DecidableEq, Repr

/-- The end of `_run_sandboxvm`; `raw` is the exit code and the output of `exec.cmd`. -/
def RunRequest.result (r : RunRequest) (probePath : Text) (cfg : Option SandboxConfig)
    (raw : Int × Text) (capture : Capture) : RunResult where
  target := r.target
  guest := r.guest
  name := r.runName
  command := buildCommand (r.guestRun probePath cfg)
  exitCode := raw.1
  stdout :=
    if raw.2 ≠ [] ∧ ¬ (capture.stdoutPresent ∨ capture.stderrPresent) then raw.2
    else capture.stdout
  stderr := capture.stderr
  capturePaths := (if capture.stdoutPresent then [capturePath r.runName .out] else []) ++
    if capture.stderrPresent then [capturePath r.runName .err] else []

/-! ## Captures -/

/-- What `_read_capture` makes of `content_b64`; `decode` is that of UTF-8, with
`errors="replace"`. -/
def capturedText (decode : Bytes → Text) (contentB64 : Bytes) : Text :=
  if contentB64 = [] then [] else ((PyBase64.b64decode contentB64).map decode).getD []

/-- `_read_capture` of a file that `fs.read` answers, or `TargetError`. -/
def readCapture (decode : Bytes → Text) (file : Option Bytes) : Text × Bool :=
  match file with
  | none => ([], false)
  | some content => (capturedText decode (Base64.encode content), true)

/-! ## The targets -/

/-- A guest that lives. -/
structure Guest where
  /-- the call that it was started for -/
  call : Nat
  name : Text
deriving DecidableEq, Repr

structure Machine where
  /-- the files in `T:`, by the name of the guest -/
  captures : Text → Stream → Option Bytes := fun _ _ => none
  guests : List Guest := []

abbrev Machines := Target → Machine

def Machine.setCapture (m : Machine) (name : Text) (stream : Stream) (file : Option Bytes) :
    Machine :=
  let files := Function.update (m.captures name) stream file
  { m with captures := Function.update m.captures name files }

/-! ## Calls -/

inductive Outcome where
  | returned (r : RunResult)
  | raised
deriving DecidableEq, Repr

/-- The `await` that a call stands at. -/
inductive Phase where
  /-- the lock -/
  | waiting
  /-- `exec.cmd` -/
  | executing
  | readingOut
  | readingErr
  | deletingOut
  | deletingErr
  | done (o : Outcome)
deriving DecidableEq, Repr

def Phase.isDone : Phase → Bool
  | .done _ => true
  | _ => false

/-- The call has the lock of its target. -/
def Phase.locks : Phase → Bool
  | .waiting => false
  | .done _ => false
  | _ => true

structure Call where
  id : Nat
  request : RunRequest
  /-- `probe.path` -/
  probePath : Text
  phase : Phase := .waiting
  /-- the reply of `exec.cmd`; `none` if it raised -/
  raw : Option (Int × Text) := none
  capture : Capture := {}
  started : Bool := false
  wrote : Stream → Option Bytes := fun _ => none

def Call.guest (c : Call) : Guest := ⟨c.id, c.request.runName⟩

structure Sys where
  machines : Machines
  calls : List Call

/-- New machines, and a new host process. -/
def boot : Sys := ⟨fun _ => {}, []⟩

def Sys.setMachine (s : Sys) (t : Target) (m : Machine) : Sys :=
  { s with machines := Function.update s.machines t m }

def Sys.setCall (s : Sys) (i : Nat) (c : Call) : Sys := { s with calls := s.calls.set i c }

/-- `lock.locked()` -/
def Sys.locked (s : Sys) (t : Target) : Bool :=
  s.calls.any fun c => c.request.target = t && c.phase.locks

/-! ## Steps -/

inductive ReadEnd where
  /-- the daemon answers, with an error if there is no file -/
  | answers
  /-- a `TargetError` of the transport -/
  | targetError
  /-- another exception -/
  | raises
deriving DecidableEq, Repr

inductive Label where
  /-- a call, up to the lock -/
  | call (r : RunRequest) (probePath : Text)
  | acquires (i : Nat)
  /-- the daemon executes the `exec.cmd` of a call -/
  | starts (i : Nat)
  /-- a guest prints; `fresh` if it opens its file anew -/
  | writes (t : Target) (g : Guest) (stream : Stream) (fresh : Bool) (bytes : Bytes)
  | ends (t : Target) (g : Guest)
  /-- `exec.cmd` returns, when the guest has ended -/
  | returns (i : Nat) (exitCode : Int) (output : Text)
  | fails (i : Nat)
  | reads (i : Nat) (how : ReadEnd)
  /-- `_delete_capture`; `done` if the file is deleted -/
  | deletes (i : Nat) (done : Bool)
  | cancel (i : Nat)
deriving DecidableEq, Repr

/-- What a guest has written, behind what was in the file or at its start. -/
def appended (fresh : Bool) (old : Option Bytes) (bytes : Bytes) : Option Bytes :=
  some ((if fresh then [] else old.getD []) ++ bytes)

def Call.print (c : Call) (stream : Stream) (fresh : Bool) (bytes : Bytes) : Call :=
  { c with wrote := Function.update c.wrote stream (appended fresh (c.wrote stream) bytes) }

/-- The reading of one of the two files. -/
def Call.read (c : Call) (stream : Stream) (found : Text × Bool) : Call :=
  match stream with
  | .out => { c with
      phase := .readingErr
      capture := { c.capture with stdout := found.1, stdoutPresent := found.2 } }
  | .err => { c with
      phase := .deletingOut
      capture := { c.capture with stderr := found.1, stderrPresent := found.2 } }

/-- The stream whose file a call reads. -/
def Phase.reads? : Phase → Option Stream
  | .readingOut => some .out
  | .readingErr => some .err
  | _ => none

def Phase.deletes? : Phase → Option Stream
  | .deletingOut => some .out
  | .deletingErr => some .err
  | _ => none

variable (decode : Bytes → Text) (cfg : Target → Option SandboxConfig)

/-- The call returns, or raises again what `exec.cmd` has raised. -/
def Call.outcome (c : Call) : Outcome :=
  match c.raw with
  | none => .raised
  | some raw => .returned (c.request.result c.probePath (cfg c.request.target) raw c.capture)

/-- The call behind a deletion. -/
def Call.deleted (c : Call) (stream : Stream) : Call :=
  match stream with
  | .out => { c with phase := .deletingErr }
  | .err => { c with phase := .done (c.outcome cfg) }

def readStep (s : Sys) (i : Nat) (c : Call) (how : ReadEnd) : Option Sys :=
  c.phase.reads?.map fun stream =>
    match how with
    | .answers => s.setCall i (c.read stream
        (readCapture decode ((s.machines c.request.target).captures c.request.runName stream)))
    | .targetError => s.setCall i (c.read stream ([], false))
    | .raises => s.setCall i { c with phase := .done .raised }

def deleteStep (s : Sys) (i : Nat) (c : Call) (done : Bool) : Option Sys :=
  c.phase.deletes?.map fun stream =>
    let s := if done then s.setMachine c.request.target
        ((s.machines c.request.target).setCapture c.request.runName stream none) else s
    s.setCall i (c.deleted cfg stream)

/-- A step of call `i`. -/
def callStep (s : Sys) (i : Nat) (c : Call) : Label → Option Sys
  | .acquires _ =>
    if c.phase = .waiting ∧ s.locked c.request.target = false then
      some (s.setCall i { c with phase := .executing })
    else none
  | .starts _ =>
    if c.started = false ∧ c.phase ≠ .waiting then
      let m := s.machines c.request.target
      some ((s.setMachine c.request.target { m with guests := c.guest :: m.guests }).setCall i
        { c with started := true })
    else none
  | .returns _ exitCode output =>
    if c.phase = .executing ∧ c.started = true ∧
        c.guest ∉ (s.machines c.request.target).guests then
      some (s.setCall i { c with phase := .readingOut, raw := some (exitCode, output) })
    else none
  | .fails _ =>
    if c.phase = .executing then some (s.setCall i { c with phase := .readingOut, raw := none })
    else none
  | .reads _ how => readStep decode s i c how
  | .deletes _ done => deleteStep cfg s i c done
  | .cancel _ =>
    if c.phase.isDone then none else some (s.setCall i { c with phase := .done .raised })
  | _ => none

/-- The call that a label is for. -/
def Label.call? : Label → Option Nat
  | .acquires i | .starts i | .returns i _ _ | .fails i | .reads i _ | .deletes i _
  | .cancel i => some i
  | _ => none

/-- A living guest prints. -/
def writeStep (s : Sys) (t : Target) (g : Guest) (stream : Stream) (fresh : Bool) (bytes : Bytes) :
    Option Sys := do
  let c ← s.calls[g.call]?
  let m := s.machines t
  if g ∈ m.guests then
    some ((s.setMachine t (m.setCapture g.name stream
      (appended fresh (m.captures g.name stream) bytes))).setCall g.call
        (c.print stream fresh bytes))
  else none

def step (s : Sys) (a : Label) : Option Sys :=
  match a with
  | .call r probePath =>
    some { s with calls := s.calls ++
      [{ id := s.calls.length, request := r, probePath := probePath }] }
  | .writes t g stream fresh bytes => writeStep s t g stream fresh bytes
  | .ends t g =>
    let m := s.machines t
    some (s.setMachine t { m with guests := m.guests.erase g })
  | a => do
    let i ← a.call?
    let c ← s.calls[i]?
    callStep decode cfg s i c a

end AmigaFleet.Host.SandboxRun

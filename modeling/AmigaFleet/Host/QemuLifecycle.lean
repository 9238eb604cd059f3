import AmigaFleet.Host.Transport
import AmigaFleet.Lib.Dict

/-!
# Starting and stopping QEMU

`qemu_start`, `qemu_stop` and `qemu_reset` of `tools/qemu.py` and `Fleet.close_all`
of `fleet.py`, any number of them at a time on one event loop.  A label of `step`
is what a coroutine does from one `await` to the next one, with the answers that it
gets; a child exits whenever it likes.

A pid is an index into the list of the children that were ever started.  The cached
transports of a target, the settling before a stop and `system_reset` are not here.

* `qemuStart`, `afterSettle`, `pollLoop`, `closeNext`: the pieces between the awaits.
* `step`: the event loop.
-/

namespace AmigaFleet.Host.QemuLifecycle

open AmigaFleet.Lib
open AmigaFleet.Mcpd (ascii)
open AmigaFleet.Host.Transport (JsonRpcError text)

abbrev Target := Bytes

abbrev Pid := Nat

/-! ## Configuration -/

/-- A channel that is configured. -/
structure Channel where
  host : Bytes
  port : Int
  enabled : Bool := true
deriving DecidableEq, Repr

inductive TargetType where
  | qemu
  | remote
deriving DecidableEq, Repr

def TargetType.name : TargetType → Bytes
  | .qemu => ascii "qemu"
  | .remote => ascii "remote"

structure TargetConfig where
  type : TargetType := .qemu
  /-- `qemu_config is not None` -/
  qemuConfig : Bool := true
  mcpd : Option Channel := none
  qmp : Option Channel := none
deriving DecidableEq, Repr

structure Config where
  targets : Target → Option TargetConfig
  /-- `fleet.list_targets()` -/
  listTargets : List Target
  /-- `paths.qemu_binary is not None` -/
  qemuBinary : Bool := true
  /-- `repr` of a text -/
  repr : Bytes → Bytes

/-- The channel, where it is configured and enabled. -/
def usable (channel : Option Channel) : Option Channel := channel.filter (·.enabled)

/-! ## Errors -/

def unknownTarget (cfg : Config) (t : Target) : JsonRpcError :=
  ⟨.invalidParams, text [ascii "unknown target: ", cfg.repr t],
    .dict [(ascii "available", .list (cfg.listTargets.map .str))]⟩

def onlyQemu (t : Target) (type : TargetType) : JsonRpcError :=
  ⟨.invalidParams, text [ascii "qemu.start only applies to type=qemu targets"],
    .dict [(ascii "target", .str t), (ascii "type", .str type.name)]⟩

def noQemuConfig (t : Target) : JsonRpcError :=
  ⟨.invalidParams, text [ascii "target.qemu_config is required for qemu.start"],
    .dict [(ascii "target", .str t)]⟩

/-- The dash of the text is not an ASCII one. -/
def noQemuBinary : JsonRpcError :=
  ⟨.invalidParams, text [ascii "paths.qemu_binary not set in config ", [0xe2, 0x80, 0x94],
    ascii " see USAGE.md#helper-paths-paths or run `amiga-fleet-mcp --init`"], .null⟩

def alreadyRunning (cfg : Config) (t : Target) (p : Pid) : JsonRpcError :=
  ⟨.targetError,
    text [ascii "target ", cfg.repr t, ascii " is already running (pid ", Json.intText p,
      ascii ")"],
    .dict [(ascii "pid", .int p)]⟩

def listening (cfg : Config) (t : Target) (label : Bytes) (c : Channel) : JsonRpcError :=
  ⟨.targetError,
    text [ascii "target ", cfg.repr t, ascii " already has something listening on its ", label,
      ascii " port (", c.host, ascii ":", Json.intText c.port,
      ascii ") -- a guest is running that this process did not start. Stop it first ",
      ascii "(qemu.stop now handles unowned guests) or check qemu.status, which reports `owned`."],
    .dict [(ascii "target", .str t), (ascii "port", .int c.port), (ascii "channel", .str label)]⟩

def onlyQmp (t : Target) (type : TargetType) : JsonRpcError :=
  ⟨.notCapable, text [ascii "QMP only applies to qemu targets"],
    .dict [(ascii "target", .str t), (ascii "type", .str type.name)]⟩

def unownedData (t : Target) : Json := .dict [(ascii "target", .str t), (ascii "owned", .bool false)]

/-- `reason` is the text of the exception. -/
def quitFailed (cfg : Config) (t : Target) (reason : Bytes) : JsonRpcError :=
  ⟨.targetError,
    text [ascii "guest for ", cfg.repr t,
      ascii " is running but was not started by this process, and QMP quit failed: ", reason],
    unownedData t⟩

def notStoppable (cfg : Config) (t : Target) : JsonRpcError :=
  ⟨.targetError,
    text [ascii "guest for ", cfg.repr t,
      ascii " is running but was not started by this process and has no reachable QMP channel, ",
      ascii "so it cannot be stopped from here. Stop it where it was started, or configure ",
      ascii "[targets.<name>.channels.qmp]."],
    unownedData t⟩

/-- How a coroutine is left by an exception. -/
inductive Exn where
  | error (e : JsonRpcError)
  /-- an exception of the system or of a third-party package -/
  | system
  | timeoutExpired
  | cancelled

/-! ## The children and their registry -/

structure Child where
  target : Target
  /-- `returncode`, once it has exited -/
  exitCode : Option Int := none
deriving DecidableEq, Repr

structure Fleet where
  children : List Child
  /-- `_qemu_processes` -/
  processes : Registry Target Pid

namespace Fleet

/-- `proc.poll()` -/
def poll (f : Fleet) (p : Pid) : Option Int := f.children[p]?.bind Child.exitCode

/-- `register_qemu_process` -/
def register (f : Fleet) (t : Target) (p : Pid) : Fleet :=
  { f with processes := f.processes.set t p }

/-- `drop_qemu_process` -/
def drop (f : Fleet) (t : Target) : Fleet := { f with processes := f.processes.pop t }

/-- `Popen` -/
def spawn (f : Fleet) (t : Target) : Fleet := { f with children := f.children ++ [{ target := t }] }

/-- The child `p` exits. -/
def exits (f : Fleet) (p : Pid) (code : Int) : Fleet :=
  { f with children := f.children.modify p fun c => { c with exitCode := some code } }

/-- `existing is not None and existing.poll() is None` -/
def running (f : Fleet) (t : Target) : Option Pid :=
  (f.processes.get t).filter fun p => (f.poll p).isNone

end Fleet

/-! ## The coroutines -/

inductive Method where
  | qmp
  | qmpUnowned
  | terminate
  | kill
  | alreadyStopped
deriving DecidableEq, Repr

inductive Outcome where
  | started (t : Target) (p : Pid)
  | stopped (t : Target) (method : Method) (exitCode : Option Int)
  | reset (t : Target) (p : Pid)
  | closed
  | raised (e : Exn)

/-- A call of `qemu_stop`; `reset` is one that `qemu_reset` makes. -/
structure StopCall where
  target : Target
  /-- how often the loop behind the quit looks -/
  polls : Nat
  reset : Bool := false
deriving DecidableEq, Repr

/-- What is awaited of a child that has to go. -/
inductive Ending where
  | terminating
  | waiting
  | killing
  | reaping
deriving DecidableEq, Repr

/-- The `await` that a coroutine stands at. -/
inductive Phase where
  /-- `to_thread(Popen)` -/
  | launching (t : Target) (reset : Bool)
  /-- its thread has returned the child -/
  | launched (t : Target) (p : Pid) (reset : Bool)
  /-- a thread in `Popen` that nobody awaits -/
  | stray (t : Target)
  /-- `_settle_before_stop` -/
  | settling (c : StopCall)
  /-- `qmp.quit()` of `_stop_unowned` -/
  | unowned (c : StopCall)
  /-- `qmp.quit()` -/
  | quitting (c : StopCall) (p : Pid)
  /-- `sleep(0.5)`; `left` more looks -/
  | polling (c : StopCall) (p : Pid) (left : Nat) (method : Method)
  | stopping (c : StopCall) (p : Pid) (e : Ending)
  /-- `sleep(2.0)` of `qemu_reset` -/
  | pausing (t : Target)
  /-- the transports in `close_all` -/
  | closing
  /-- a child in `close_all`, with the entries behind it -/
  | ending (t : Target) (p : Pid) (e : Ending) (rest : List (Target × Pid))
  | done (o : Outcome)

def fail (e : JsonRpcError) : Phase := .done (.raised (.error e))

/-- The answers that a start gets. -/
structure StartEnv where
  mcpdConnects : Bool := false
  qmpConnects : Bool := false
  /-- the command line and the log file raise nothing -/
  prepared : Bool := true
deriving DecidableEq, Repr

/-- `qemu_start`, up to `to_thread`. -/
def qemuStart (cfg : Config) (f : Fleet) (t : Target) (env : StartEnv) (reset : Bool) : Phase :=
  match cfg.targets t with
  | none => fail (unknownTarget cfg t)
  | some c =>
    if c.type ≠ .qemu then fail (onlyQemu t c.type)
    else if c.qemuConfig = false then fail (noQemuConfig t)
    else if cfg.qemuBinary = false then fail noQemuBinary
    else
      match f.running t with
      | some p => fail (alreadyRunning cfg t p)
      | none =>
        match (usable c.mcpd).filter fun _ => env.mcpdConnects,
          (usable c.qmp).filter fun _ => env.qmpConnects with
        | some ch, _ => fail (listening cfg t (ascii "mcpd") ch)
        | none, some ch => fail (listening cfg t (ascii "qmp") ch)
        | none, none => if env.prepared then .launching t reset else .done (.raised .system)

/-- `qemu_start`, behind `to_thread`. -/
def startReturns (t : Target) (p : Pid) (reset : Bool) : Phase :=
  .done (if reset then .reset t p else .started t p)

/-- The default of `qmp_timeout_s` -/
def defaultQmpTimeoutS : Rat := 10

/-- `int(qmp_timeout_s * 2)`, as the length of a `range` -/
def pollsOf (qmpTimeoutS : Rat) : Nat := (qmpTimeoutS * 2).floor.toNat

/-- `qemu_stop` returns, to its caller or to `qemu_reset`. -/
def StopCall.returns (c : StopCall) (method : Method) (exitCode : Option Int) : Phase :=
  if c.reset then .pausing c.target else .done (.stopped c.target method exitCode)

/-- Whether the channels of an unowned guest accept connections. -/
structure Ports where
  qmp : Bool := false
  mcpd : Bool := false
deriving DecidableEq, Repr

/-- `_stop_unowned`, up to the quit. -/
def stopUnowned (cfg : Config) (ports : Ports) (c : StopCall) : Phase :=
  match cfg.targets c.target with
  | none => fail (unknownTarget cfg c.target)
  | some tc =>
    if (usable tc.qmp).isSome ∧ ports.qmp then
      if tc.type = .qemu then .unowned c else fail (onlyQmp c.target tc.type)
    else if (usable tc.mcpd).isSome ∧ ports.mcpd then fail (notStoppable cfg c.target)
    else c.returns .alreadyStopped none

/-- The loop behind the quit, up to its next `await`. -/
def pollLoop (f : Fleet) (c : StopCall) (p : Pid) (method : Method) : Nat → Fleet × Phase
  | 0 => (f, .stopping c p .terminating)
  | left + 1 =>
    match f.poll p with
    | some code => (f.drop c.target, c.returns method (some code))
    | none => (f, .polling c p left method)

/-- The part of `qemu_stop` from the `try` on; its `finally` drops the process. -/
def stopOwned (cfg : Config) (f : Fleet) (c : StopCall) (p : Pid) : Fleet × Phase :=
  match cfg.targets c.target with
  | none => (f.drop c.target, fail (unknownTarget cfg c.target))
  | some tc =>
    if (usable tc.qmp).isSome then
      if tc.type = .qemu then (f, .quitting c p)
      else (f.drop c.target, fail (onlyQmp c.target tc.type))
    else pollLoop f c p .terminate c.polls

/-- `qemu_stop`, behind `_settle_before_stop`. -/
def afterSettle (cfg : Config) (f : Fleet) (ports : Ports) (c : StopCall) : Fleet × Phase :=
  match f.processes.get c.target with
  | none => (f, stopUnowned cfg ports c)
  | some p =>
    match f.poll p with
    | some code => (f.drop c.target, c.returns .alreadyStopped (some code))
    | none => stopOwned cfg f c p

/-- The loop of `close_all` over the entries, up to its next `await`. -/
def closeNext (f : Fleet) : List (Target × Pid) → Phase
  | [] => .done .closed
  | (t, p) :: rest =>
    match f.poll p with
    | some _ => closeNext f rest
    | none => .ending t p .terminating rest

/-! ## The event loop -/

structure Sys where
  fleet : Fleet
  tasks : List Phase

/-- A new host process. -/
def boot : Sys := ⟨⟨[], Registry.empty⟩, []⟩

inductive QuitEnd where
  | returns
  /-- a `TimeoutError` or `TargetError`, with its text -/
  | fails (reason : Bytes)
  /-- another exception -/
  | raises
deriving DecidableEq, Repr

inductive Label where
  | start (t : Target) (env : StartEnv)
  | stop (t : Target) (qmpTimeoutS : Rat)
  | reset (t : Target)
  | close
  /-- a child exits -/
  | exits (p : Pid) (code : Int)
  /-- `Popen` returns or raises in its thread -/
  | popen (i : Nat) (ok : Bool)
  | registers (i : Nat)
  /-- the pause of `qemu_reset` is over -/
  | awakes (i : Nat) (env : StartEnv)
  | settled (i : Nat) (ok : Bool) (ports : Ports)
  | quits (i : Nat) (how : QuitEnd)
  | polls (i : Nat)
  /-- `terminate` or `kill` returns or raises -/
  | signals (i : Nat) (ok : Bool)
  /-- `proc.wait` returns, or raises `TimeoutExpired` -/
  | waits (i : Nat) (ok : Bool)
  | transportsClosed (i : Nat) (ok : Bool)
  | cancel (i : Nat)
deriving DecidableEq, Repr

/-- A stop that is left by an exception. -/
def stopRaises (f : Fleet) (t : Target) (e : Exn) : Fleet × Phase := (f.drop t, .done (.raised e))

/-- The child of an entry has ended, or cannot be ended. -/
def closePops (f : Fleet) (t : Target) (rest : List (Target × Pid)) : Fleet × Phase :=
  (f.drop t, closeNext (f.drop t) rest)

/-- `to_thread(Popen)` -/
def onPopen (f : Fleet) (ok : Bool) : Phase → Option (Fleet × Phase)
  | .launching t reset =>
    some (if ok then (f.spawn t, .launched t f.children.length reset)
      else (f, .done (.raised .system)))
  | .stray t => some (if ok then f.spawn t else f, .done (.raised .cancelled))
  | _ => none

def onRegister (f : Fleet) : Phase → Option (Fleet × Phase)
  | .launched t p reset => some (f.register t p, startReturns t p reset)
  | _ => none

def onAwake (cfg : Config) (f : Fleet) (env : StartEnv) : Phase → Option (Fleet × Phase)
  | .pausing t => some (f, qemuStart cfg f t env true)
  | _ => none

def onSettled (cfg : Config) (f : Fleet) (ok : Bool) (ports : Ports) :
    Phase → Option (Fleet × Phase)
  | .settling c => some (if ok then afterSettle cfg f ports c else (f, .done (.raised .system)))
  | _ => none

def unownedQuit (cfg : Config) (c : StopCall) : QuitEnd → Phase
  | .returns => c.returns .qmpUnowned none
  | .fails reason => fail (quitFailed cfg c.target reason)
  | .raises => .done (.raised .system)

def ownedQuit (f : Fleet) (c : StopCall) (p : Pid) : QuitEnd → Fleet × Phase
  | .returns => pollLoop f c p .qmp c.polls
  | .fails _ => pollLoop f c p .terminate c.polls
  | .raises => stopRaises f c.target .system

def onQuit (cfg : Config) (f : Fleet) (how : QuitEnd) : Phase → Option (Fleet × Phase)
  | .unowned c => some (f, unownedQuit cfg c how)
  | .quitting c p => some (ownedQuit f c p how)
  | _ => none

def onPoll (f : Fleet) : Phase → Option (Fleet × Phase)
  | .polling c p left method => some (pollLoop f c p method left)
  | _ => none

/-- `close_all` passes over an `OSError`. -/
def onSignal (f : Fleet) (ok : Bool) : Phase → Option (Fleet × Phase)
  | .stopping c p .terminating =>
    some (if ok then (f, .stopping c p .waiting) else stopRaises f c.target .system)
  | .stopping c p .killing =>
    some (if ok then (f, .stopping c p .reaping) else stopRaises f c.target .system)
  | .ending t p .terminating rest => some (f, .ending t p .waiting rest)
  | .ending t p .killing rest =>
    some (if ok then (f, .ending t p .reaping rest) else closePops f t rest)
  | _ => none

/-- `proc.wait` returns only when the child has exited. -/
def onWait (f : Fleet) (ok : Bool) : Phase → Option (Fleet × Phase)
  | .stopping c p .waiting =>
    if ok then (f.poll p).map fun code => (f.drop c.target, c.returns .terminate (some code))
    else some (f, .stopping c p .killing)
  | .stopping c p .reaping =>
    if ok then (f.poll p).map fun code => (f.drop c.target, c.returns .kill (some code))
    else some (stopRaises f c.target .timeoutExpired)
  | .ending t p .waiting rest =>
    if ok then (f.poll p).map fun _ => closePops f t rest
    else some (f, .ending t p .killing rest)
  | .ending t p .reaping rest =>
    if ok then (f.poll p).map fun _ => closePops f t rest
    else some (closePops f t rest)
  | _ => none

def onTransportsClosed (f : Fleet) (ok : Bool) : Phase → Option (Fleet × Phase)
  | .closing => some (f, if ok then closeNext f f.processes.entries else .done (.raised .system))
  | _ => none

/-- The `CancelledError` at an `await`. -/
def onCancel (f : Fleet) : Phase → Option (Fleet × Phase)
  | .launching t _ => some (f, .stray t)
  | .quitting c _ | .polling c _ _ _ | .stopping c _ _ => some (stopRaises f c.target .cancelled)
  | .launched _ _ _ | .settling _ | .unowned _ | .pausing _ | .closing | .ending _ _ _ _ =>
    some (f, .done (.raised .cancelled))
  | .stray _ | .done _ => none

/-- A coroutine goes on. -/
def resume (cfg : Config) (f : Fleet) (ph : Phase) : Label → Option (Fleet × Phase)
  | .popen _ ok => onPopen f ok ph
  | .registers _ => onRegister f ph
  | .awakes _ env => onAwake cfg f env ph
  | .settled _ ok ports => onSettled cfg f ok ports ph
  | .quits _ how => onQuit cfg f how ph
  | .polls _ => onPoll f ph
  | .signals _ ok => onSignal f ok ph
  | .waits _ ok => onWait f ok ph
  | .transportsClosed _ ok => onTransportsClosed f ok ph
  | .cancel _ => onCancel f ph
  | _ => none

/-- The coroutine that a label is for. -/
def Label.task? : Label → Option Nat
  | .popen i _ | .registers i | .awakes i _ | .settled i _ _ | .quits i _ | .polls i
  | .signals i _ | .waits i _ | .transportsClosed i _ | .cancel i => some i
  | _ => none

/-- A new coroutine, up to its first `await`. -/
def Sys.begin (s : Sys) (ph : Phase) : Sys := { s with tasks := s.tasks ++ [ph] }

def step (cfg : Config) (s : Sys) (a : Label) : Option Sys :=
  match a with
  | .start t env => some (s.begin (qemuStart cfg s.fleet t env false))
  | .stop t qmpTimeoutS => some (s.begin (.settling { target := t, polls := pollsOf qmpTimeoutS }))
  | .reset t => some (s.begin
      (.settling { target := t, polls := pollsOf defaultQmpTimeoutS, reset := true }))
  | .close => some (s.begin .closing)
  | .exits p code =>
    match s.fleet.children[p]? with
    | some ⟨_, none⟩ => some { s with fleet := s.fleet.exits p code }
    | _ => none
  | a => do
    let i ← a.task?
    let ph ← s.tasks[i]?
    let (fleet, ph') ← resume cfg s.fleet ph a
    pure ⟨fleet, s.tasks.set i ph'⟩

end AmigaFleet.Host.QemuLifecycle

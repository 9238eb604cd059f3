import AmigaFleet.Mcpd.FsExamine

/-!
# sys.tasks and sys.mcu_cmd

`sys_tasks` of `mcpd/src/methods/sys.c`, which reports the names of tasks, and
`sys_mcu_cmd` of `mcpd/src/methods/mcu.c`, which sends a command to the
supervisor of the board and reports what comes back on the serial line.

`McuDos` is what exec.library and the two devices answer during one command;
the serial device delivers one byte at a time until the timer fires.
-/

namespace AmigaFleet.Mcpd.Sys

open AmigaFleet.Lib
open AmigaFleet.Mcpd.Fs (mcpdErrNotcapable)

/-! ## sys.tasks -/

/-- One byte in `sanitize`. -/
def sanitizeByte (c : UInt8) : UInt8 := if c ≥ 0x20 ∧ c < 0x7f then c else 63

/-- `sanitize`; `none` is a null pointer. -/
def sanitize (src : Option Bytes) (dstCap : Nat) : Bytes :=
  ((src.getD []).take (dstCap - 1)).map sanitizeByte

inductive TaskState where
  | invalid
  | added
  | run
  | ready
  | wait
  | except
  | removed
  | other
deriving DecidableEq, Repr

/-- `task_state` -/
def TaskState.name : TaskState → String
  | .invalid => "invalid"
  | .added => "added"
  | .run => "running"
  | .ready => "ready"
  | .wait => "waiting"
  | .except => "exception"
  | .removed => "removed"
  | .other => "unknown"

inductive NodeType where
  | task
  | process
  | library
  | device
  | resource
  | msgPort
  | interrupt
  | other
deriving DecidableEq, Repr

/-- `node_type_name` -/
def NodeType.name : NodeType → String
  | .task => "task"
  | .process => "process"
  | .library => "library"
  | .device => "device"
  | .resource => "resource"
  | .msgPort => "port"
  | .interrupt => "interrupt"
  | .other => "other"

/-- `struct Task`, as far as the handler reads it. -/
structure Task where
  name : Option Bytes
  type : NodeType
  pri : Int
  state : TaskState
deriving DecidableEq, Repr

/-- The lists of `ExecBase`. -/
structure TaskLists where
  ready : List Task
  wait : List Task
deriving DecidableEq, Repr

/-- `emit_task` -/
def emitTask (t : Task) : CJson :=
  .object [(ascii "name", .string (sanitize t.name 128)), (ascii "type", cString t.type.name),
    (ascii "priority", cNumber t.pri), (ascii "state", cString t.state.name)]

/-- `sys_tasks` -/
def sysTasks (eb : TaskLists) : Handler := fun _ =>
  .ok (.object [(ascii "ready", .array (eb.ready.map emitTask)),
    (ascii "waiting", .array (eb.wait.map emitTask))])

/-- A name is shown in printable ASCII. -/
theorem sanitize_printable {src : Option Bytes} {dstCap : Nat} {c : UInt8}
    (h : c ∈ sanitize src dstCap) : 32 ≤ c ∧ c < 127 := by
  obtain ⟨b, -, rfl⟩ := List.mem_map.mp h
  unfold sanitizeByte
  split
  · assumption
  · decide

/-! ## sys.mcu_cmd -/

/-- `MCU_BAUD` -/
def mcuBaud : Int := 38400

/-- `MCU_RX_MAX` -/
def mcuRxMax : Nat := 256

/-- How the wait for one byte ends. -/
inductive SerialAnswer where
  | byte (c : UInt8)
  | timer
  | failed
deriving DecidableEq, Repr

/-- The locals `rx`, `timed_out` and `aborted` behind the read loop. -/
structure McuRead where
  rx : Bytes
  timedOut : Bool
  aborted : Bool
deriving DecidableEq, Repr

/-- The read loop, with room for `n` more bytes.  When nothing more arrives the
timer fires. -/
def mcuRead : Nat → List SerialAnswer → McuRead
  | 0, _ => ⟨[], false, false⟩
  | _ + 1, [] => ⟨[], true, false⟩
  | _ + 1, .timer :: _ => ⟨[], true, false⟩
  | _ + 1, .failed :: _ => ⟨[], false, true⟩
  | n + 1, .byte c :: answers =>
    if c = 0x0A then ⟨[c], false, false⟩
    else
      let rest := mcuRead n answers
      { rest with rx := c :: rest.rx }

/-- The answers that one `sys_mcu_cmd` is given. -/
structure McuDos where
  allocatesPorts : Bool := true
  allocatesRequests : Bool := true
  opensSerial : Bool := true
  opensTimer : Bool := true
  setsParams : Bool := true
  writes : Bool := true
  answers : List SerialAnswer
deriving DecidableEq, Repr

/-- The confirm flag. -/
def confirmed (params : Option CJson) : Bool :=
  match params.bind (CJson.getItem (ascii "confirm")) with
  | some (.bool b) => b
  | _ => false

/-- The parameters of `sys_mcu_cmd`. -/
def mcuParams (params : Option CJson) : Except CJson (Bytes × Int) := do
  let cmd ← pStr params "cmd"
  if cmd.length = 0 ∨ cmd.length > 16 then
    .error (rpcMakeError mcpdErrInvparams "cmd must be 1..16 chars (e.g. \"t\", \"v\", \"f\")" none)
  else if cmd = ascii "s" ∧ confirmed params = false then
    .error (rpcMakeError mcpdErrInvparams
      "sys.mcu_cmd cmd=\"s\" (board POWER OFF) requires confirm:true" none)
  else if pInt params "unit" 1 < 0 ∨ pInt params "unit" 1 > 7 then
    .error (rpcMakeError mcpdErrInvparams "unit out of range [0..7]" none)
  else .ok (cmd, pInt params "unit" 1)

/-- The steps in front of the read, in the order of their failure exits. -/
def mcuPrepare (dos : McuDos) (unit : Int) : Except CJson Unit :=
  if dos.allocatesPorts = false then
    .error (rpcMakeError mcpdErrInternal "AllocSysObject(MsgPort) failed" none)
  else if dos.allocatesRequests = false then
    .error (rpcMakeError mcpdErrInternal "AllocSysObject(IORequest) failed" none)
  else if dos.opensSerial = false then
    .error (rpcMakeError mcpdErrNotcapable
      "OpenDevice(serial.device, unit) failed - try different unit"
      (some (.object [(ascii "unit", cNumber unit)])))
  else if dos.opensTimer = false then
    .error (rpcMakeError mcpdErrInternal "OpenDevice(timer.device) failed" none)
  else if dos.setsParams = false then
    .error (rpcMakeError mcpdErrInternal "SDCMD_SETPARAMS failed" none)
  else if dos.writes = false then
    .error (rpcMakeError mcpdErrInternal "serial CMD_WRITE failed" none)
  else .ok ()

/-- The result object; the reply is read as a C string. -/
def mcuResult (cmd : Bytes) (unit : Int) (read : McuRead) : CJson :=
  .object [(ascii "cmd", .string cmd), (ascii "unit", cNumber unit), (ascii "baud", cNumber mcuBaud),
    (ascii "tx_len", cNumber (cmd.length + 2 : Nat)), (ascii "reply", .string (cText read.rx)),
    (ascii "reply_len", cNumber read.rx.length), (ascii "timed_out", .bool read.timedOut),
    (ascii "aborted", .bool read.aborted)]

/-- `sys_mcu_cmd` -/
def sysMcuCmd (dos : McuDos) : Handler := fun params => do
  let (cmd, unit) ← mcuParams params
  mcuPrepare dos unit
  .ok (mcuResult cmd unit (mcuRead (mcuRxMax - 1) dos.answers))

/-- The bytes on the line before the first thing that is no byte. -/
def arrived : List SerialAnswer → Bytes
  | .byte c :: answers => c :: arrived answers
  | _ => []

/-- A text up to its first line end. -/
def firstLine : Bytes → Bytes
  | [] => []
  | c :: rest => if c = 0x0A then [c] else c :: firstLine rest

/-- The loop reads one line, as far as it fits. -/
theorem mcuRead_rx (n : Nat) (answers : List SerialAnswer) :
    (mcuRead n answers).rx = firstLine ((arrived answers).take n) := by
  induction answers generalizing n with
  | nil => cases n <;> rfl
  | cons answer answers ih =>
    cases n with
    | zero => rfl
    | succ n =>
      cases answer with
      | timer => rfl
      | failed => rfl
      | byte c =>
        rw [arrived, List.take_succ_cons, mcuRead, firstLine]
        split
        · rfl
        · show c :: (mcuRead n answers).rx = _
          rw [ih]

end AmigaFleet.Mcpd.Sys

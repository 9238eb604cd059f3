import AmigaFleet.Mcpd.Rpc
import AmigaFleet.Lib.Run
import AmigaFleet.Lib.Changes

/-!
# Pushed events

The subscriptions of `mcpd/src/methods/events.c` and the loop of
`handle_connection` in `mcpd/src/main.c` that serves them.  Every connection
has a worker with an `EvState` of its own; the alert code that they sample,
`ExecBase->LastAlert[0]`, is one for the whole machine.

A worker polls when nothing has come in for a while, and once for each request,
between the call of the method and the response.  The first poll after a
subscribe call takes the baseline and reports nothing.

The alert decoder of `mcpd/src/methods/sys.c` makes a part of the notification
`debug.exception`.
-/

namespace AmigaFleet.Mcpd.Events

open AmigaFleet.Lib

/-! ## The alert decoder -/

/-- `_alert_subsystem_name` -/
def alertSubsystemName : Nat → String
  | 0x01 => "exec.library"
  | 0x02 => "graphics.library"
  | 0x03 => "layers.library"
  | 0x04 => "intuition.library"
  | 0x05 => "math.library"
  | 0x07 => "dos.library"
  | 0x08 => "ramlib"
  | 0x09 => "icon.library"
  | 0x0A => "expansion.library"
  | 0x0B => "diskfont.library"
  | 0x0E => "newlib.library"
  | 0x10 => "audio.device"
  | 0x11 => "console.device"
  | 0x12 => "gameport.device"
  | 0x13 => "keyboard.device"
  | 0x14 => "trackdisk.device"
  | 0x15 => "timer.device"
  | 0x16 => "cybppc.device"
  | 0x20 => "cia.resource"
  | 0x21 => "disk.resource"
  | 0x22 => "misc.resource"
  | 0x30 => "bootstrap"
  | 0x31 => "Workbench"
  | 0x32 => "DiskCopy"
  | 0x33 => "GadTools"
  | 0x34 => "utility.library"
  | _ => "unknown"

/-- `_alert_general_name` -/
def alertGeneralName : Nat → Option String
  | 0x01 => some "NoMemory"
  | 0x02 => some "MakeLib"
  | 0x03 => some "OpenLib"
  | 0x04 => some "OpenDev"
  | 0x05 => some "OpenRes"
  | 0x06 => some "IOError"
  | 0x07 => some "NoSignal"
  | 0x08 => some "BadParm"
  | 0x09 => some "CloseLib"
  | 0x0A => some "CloseDev"
  | 0x0B => some "ProcCreate"
  | 0x0C => some "Obsolete"
  | _ => none

/-- `_alert_specific_name` -/
def alertSpecificName : Nat → Option String
  | 0x81000005 => some "AN_MemCorrupt"
  | 0x81000006 => some "AN_IntrMem"
  | 0x01000007 => some "AN_InitAPtr"
  | 0x01000008 => some "AN_SemCorrupt"
  | 0x01000009 => some "AN_FreeTwice"
  | 0x0100000B => some "AN_IOUsedTwice"
  | 0x0100000C => some "AN_MemoryInsane"
  | 0x0100000D => some "AN_IOAfterClose"
  | 0x0100000E => some "AN_StackProbe"
  | 0x0100000F => some "AN_BadFreeAddr"
  | 0x01000010 => some "AN_BadSemaphore"
  | 0x01000011 => some "AN_BadMemory"
  | 0x01000012 => some "AN_BadHook"
  | 0x07010001 => some "AN_StartMem"
  | 0x07000002 => some "AN_EndTask"
  | 0x07000003 => some "AN_QPktFail"
  | 0x07000005 => some "AN_FreeVec"
  | 0x07000007 => some "AN_BitMap"
  | 0x0700000F => some "AN_NoBootNode"
  | 0x80000002 => some "ACPU_BusErr"
  | 0x80000003 => some "ACPU_AddressErr"
  | 0x80000004 => some "ACPU_InstErr"
  | 0x80000005 => some "ACPU_DivZero"
  | 0x80000008 => some "ACPU_PrivErr"
  | _ => none

/-- The flag of a dead-end alert. -/
def deadEnd (code : UInt32) : Bool := code &&& 0x80000000 ≠ 0

/-- `(double)v` of a 32-bit word. -/
def word (v : UInt32) : CJson := cNumber v.toNat

/-- The member that `_add_decoded_alert` adds. -/
def decodedAlert (code : UInt32) : Bytes × CJson :=
  let subsys := (code >>> 24) &&& 0x7F
  let general := (code >>> 16) &&& 0xFF
  let specific := code &&& 0xFFFF
  (ascii "decoded", .object ([(ascii "code", word code), (ascii "dead_end", .bool (deadEnd code)),
      (ascii "subsystem_id", word subsys),
      (ascii "subsystem", cString (alertSubsystemName subsys.toNat)),
      (ascii "general_id", word general)] ++
    ((alertGeneralName general.toNat).toList.map fun name => (ascii "general", cString name)) ++
    [(ascii "specific", word specific)] ++
    ((alertSpecificName code.toNat).toList.map fun name => (ascii "name", cString name))))

/-! ## What a worker sends -/

/-- `LastAlert[1..3]` -/
structure Payload where
  first : UInt32
  second : UInt32
  third : UInt32
deriving DecidableEq, Repr

inductive Sent where
  | lastalert (change : Change UInt32)
  | exception (code : UInt32) (payload : Payload)
  /-- the notification of `events.test_emit` -/
  | synthetic (env : CJson)
  | response (tree : CJson)

/-- A notification `events.notify`. -/
def notify (topic : Bytes) (data : CJson) : CJson :=
  .object [(ascii "jsonrpc", cString "2.0"), (ascii "method", cString "events.notify"),
    (ascii "params", .object [(ascii "topic", .string topic), (ascii "data", data)])]

def Sent.json : Sent → CJson
  | .lastalert change => notify (ascii "sys.lastalert") (.object
      [(ascii "alert_code", word change.current), (ascii "previous", word change.previous)])
  | .exception code payload => notify (ascii "debug.exception") (.object
      [(ascii "alert_code", word code), decodedAlert code,
        (ascii "payload", .array [word payload.first, word payload.second, word payload.third])])
  | .synthetic env => env
  | .response tree => tree

/-! ## Subscriptions -/

/-- `EV_TOPIC_LASTALERT` -/
def evTopicLastalert : UInt32 := 1

/-- `EV_TOPIC_DEBUG_EXC` -/
def evTopicDebugExc : UInt32 := 2

/-- `struct ev_state` -/
structure EvState where
  topicsMask : UInt32 := 0
  baselineInitialized : Bool := false
  baselineAlertCode : UInt32 := 0
  pendingSynthetic : Option CJson := none

/-- The bit of one entry of `topics`. -/
def topicBit : CJson → UInt32
  | .string text =>
    if text = ascii "sys.lastalert" then evTopicLastalert
    else if text = ascii "debug.exception" then evTopicDebugExc
    else 0
  | _ => 0

/-- The mask that `events_subscribe` makes of its parameters. -/
def topicsMask (params : Option CJson) : UInt32 :=
  match params.bind (CJson.getItem (ascii "topics")) with
  | some (.array items) => items.foldl (fun mask item => mask ||| topicBit item) 0
  | _ => 0

/-- `events_subscribe` -/
def eventsSubscribe (params : Option CJson) (ev : EvState) : Outcome × EvState :=
  let mask := topicsMask params
  (.ok (.object [(ascii "topics_mask", word mask), (ascii "subscribed", .array (
      (if mask &&& evTopicLastalert ≠ 0 then [cString "sys.lastalert"] else []) ++
      (if mask &&& evTopicDebugExc ≠ 0 then [cString "debug.exception"] else [])))]),
    { ev with topicsMask := mask, baselineInitialized := false })

/-- `events_unsubscribe` -/
def eventsUnsubscribe (ev : EvState) : Outcome × EvState :=
  (.ok (.object [(ascii "ok", .bool true)]), { ev with topicsMask := 0, baselineInitialized := false })

/-- `events_test_emit`; a notification that is still pending is replaced. -/
def eventsTestEmit (params : Option CJson) (ev : EvState) : Outcome × EvState :=
  match pStr params "topic" with
  | .error err => (.error err, ev)
  | .ok topic =>
    let data :=
      match params.bind (CJson.getItem (ascii "data")) with
      | some (.object members) => .object members
      | _ => .object []
    (.ok (.object [(ascii "queued", .bool true), (ascii "topic", .string topic)]),
      { ev with pendingSynthetic := some (notify topic data) })

/-! ## A poll -/

/-- `events_drain_synthetic` -/
def eventsDrainSynthetic (ev : EvState) : EvState × List Sent :=
  ({ ev with pendingSynthetic := none }, ev.pendingSynthetic.toList.map Sent.synthetic)

/-- The notifications of a changed code, by the topics. -/
def pushed (mask : UInt32) (change : Change UInt32) (payload : Payload) : List Sent :=
  (if mask &&& evTopicLastalert ≠ 0 then [.lastalert change] else []) ++
    (if mask &&& evTopicDebugExc ≠ 0 ∧ deadEnd change.current = true then
      [.exception change.current payload]
    else [])

/-- `events_emit_pending`; the payload is read behind the code. -/
def eventsEmitPending (lastAlert : UInt32) (payload : Payload) (ev : EvState) : EvState × List Sent :=
  let (ev, out) := eventsDrainSynthetic ev
  if ev.topicsMask = 0 then (ev, out)
  else if ev.baselineInitialized = false then
    ({ ev with baselineAlertCode := lastAlert, baselineInitialized := true }, out)
  else if lastAlert = ev.baselineAlertCode then (ev, out)
  else
    ({ ev with baselineAlertCode := lastAlert },
      out ++ pushed ev.topicsMask ⟨ev.baselineAlertCode, lastAlert⟩ payload)

/-! ## The workers -/

/-- A call of a method.  No other method touches the subscriptions. -/
inductive Call where
  | subscribe (params : Option CJson)
  | unsubscribe
  | testEmit (params : Option CJson)
  | other (out : Outcome)

def Call.dispatch (ev : EvState) : Call → Outcome × EvState
  | .subscribe params => eventsSubscribe params ev
  | .unsubscribe => eventsUnsubscribe ev
  | .testEmit params => eventsTestEmit params ev
  | .other out => (out, ev)

/-- Where a worker stands in `handle_connection`. -/
inductive Stage where
  /-- in `WaitSelect` -/
  | waiting
  /-- behind `rpc_dispatch`, with the response -/
  | dispatched (resp : CJson)
  /-- behind `events_emit_pending` -/
  | drained (resp : CJson)

structure Worker where
  ev : EvState := {}
  stage : Stage := .waiting
  /-- what `frame_write` has got so far -/
  written : List Sent := []

structure Daemon where
  /-- `ExecBase->LastAlert[0]` -/
  lastAlert : UInt32
  /-- the connections -/
  workers : Nat → Option Worker

/-- A daemon without connections. -/
def boot (lastAlert : UInt32) : Daemon := ⟨lastAlert, fun _ => none⟩

/-- The daemon with another worker on connection `i`. -/
def Daemon.setWorker (d : Daemon) (i : Nat) (w : Option Worker) : Daemon :=
  { d with workers := Function.update d.workers i w }

/-- A worker polls. -/
def Worker.poll (lastAlert : UInt32) (payload : Payload) (w : Worker) : Worker :=
  let r := eventsEmitPending lastAlert payload w.ev
  { w with ev := r.1, written := w.written ++ r.2 }

inductive Label where
  | connect (i : Nat)
  | disconnect (i : Nat)
  /-- a request comes in, and its method is called -/
  | request (i : Nat) (id : Option CJson) (call : Call)
  /-- the poll of a request -/
  | drain (i : Nat) (payload : Payload)
  | respond (i : Nat)
  /-- `WaitSelect` times out -/
  | timeout (i : Nat) (payload : Payload)
  /-- the alert code of the machine is set -/
  | alert (code : UInt32)

def step (d : Daemon) : Label → Option Daemon
  | .connect i =>
    match d.workers i with
    | none => some (d.setWorker i (some {}))
    | some _ => none
  | .disconnect i =>
    match d.workers i with
    | some _ => some (d.setWorker i none)
    | none => none
  | .request i id call =>
    match d.workers i with
    | some ⟨ev, .waiting, written⟩ =>
      let r := call.dispatch ev
      some (d.setWorker i (some ⟨r.2, .dispatched (envelope id r.1), written⟩))
    | _ => none
  | .drain i payload =>
    match d.workers i with
    | some ⟨ev, .dispatched resp, written⟩ =>
      some (d.setWorker i (some (Worker.poll d.lastAlert payload ⟨ev, .drained resp, written⟩)))
    | _ => none
  | .respond i =>
    match d.workers i with
    | some ⟨ev, .drained resp, written⟩ =>
      some (d.setWorker i (some ⟨ev, .waiting, written ++ [.response resp]⟩))
    | _ => none
  | .timeout i payload =>
    match d.workers i with
    | some ⟨ev, .waiting, written⟩ =>
      some (d.setWorker i (some (Worker.poll d.lastAlert payload ⟨ev, .waiting, written⟩)))
    | _ => none
  | .alert code => some { d with lastAlert := code }

end AmigaFleet.Mcpd.Events

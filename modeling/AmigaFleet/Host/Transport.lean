import AmigaFleet.Host.Json
import Mathlib.Data.List.Infix

/-!
# The MCPd transport

`McpdTransport` of `transports/mcpd.py`: the calls of `request` on one
transport, one after another under its lock.  A call is a coroutine, so it is
cut at its awaits: `Phase` is the await at which it stands, and a `Label` is
what the event loop hands it there.  Every await may also be cancelled.

* `Conn` is an open connection.  `unread` is what the peer still sends on it
  and `consumed` what the reader has handed out; `Conn.read` is
  `StreamReader.readexactly`.
* `kind` sorts a frame in the order in which the read loop asks.
* The functions from `sendRequest` on are the stretches of `request` and
  `_warmup_locked` between two awaits.
* `delivered`, `used`, `queueBefore`, `earlier` and `fresh` are not in the
  code.  They record what the current call has done: how many of its request
  frames have reached the daemon whole, its ids, the queue before it, and the
  payloads that it has read on earlier connections and on this one.
-/

namespace AmigaFleet.Host.Transport

open AmigaFleet.Lib
open AmigaFleet.Mcpd (ascii)

/-! ## Constants -/

/-- `MAX_FRAME_BYTES` -/
def maxFrameBytes : Nat := 32 * 1024 * 1024

/-- `WARMUP_ID_BASE` -/
def warmupIdBase : Int := -100

/-- `STALE_AFTER_S` -/
def staleAfterS : Rat := 100

/-- `MUTATING_METHODS` -/
def mutatingMethods : List String :=
  ["fs.write", "fs.write_chunk", "fs.delete", "fs.makedir", "fs.rename", "fs.protect", "fs.copy",
    "exec.cmd"]

/-- `IDEMPOTENT_METHODS` -/
def idempotentMethods : List String :=
  ["proto.capabilities", "proto.version", "sys.version", "sys.tasks", "sys.libraries",
    "sys.devices", "sys.modules", "sys.crashhook_status", "sys.ports", "sys.lastalert",
    "sys.uptime", "sys.memory", "sys.volumes", "sys.assigns", "sys.hardware",
    "sys.hardware.perfcounters", "sys.executable.symbols", "sys.applications", "sys.alert_decode",
    "sys.read_ccsr", "sys.tlb_dump", "fs.list", "fs.stat", "fs.read", "fs.hash", "fs.sync",
    "wb.screens", "wb.windows", "wb.publicscreens", "wb.frontmost", "wb.screenshot", "input.state",
    "debug.task_snapshot", "debug.symbol", "debug.stacktrace", "exec.status", "exec.output",
    "exec.list"]

def isMutating (method : Bytes) : Bool := mutatingMethods.any fun m => ascii m == method

def isIdempotent (method : Bytes) : Bool := idempotentMethods.any fun m => ascii m == method

/-! ## Errors -/

/-- The subclasses of `JsonRpcError` that `_ERROR_BY_CODE` names, and the class itself. -/
inductive ErrorClass where
  | parseError
  | invalidParams
  | methodNotFound
  | internalError
  | targetError
  | cancelled
  | notCapable
  | authRequired
  | busy
  | jsonRpcError
deriving DecidableEq, Repr

/-- `_ERROR_BY_CODE.get(code, JsonRpcError)` -/
def errorByCode (code : Int) : ErrorClass :=
  if code = -32700 then .parseError
  else if code = -32600 then .invalidParams
  else if code = -32601 then .methodNotFound
  else if code = -32602 then .invalidParams
  else if code = -32603 then .internalError
  else if code = -32001 then .targetError
  else if code = -32002 then .cancelled
  else if code = -32003 then .notCapable
  else if code = -32004 then .authRequired
  else if code = -32005 then .busy
  else .jsonRpcError

structure JsonRpcError where
  cls : ErrorClass
  message : Json
  data : Json := .null

/-- The other exceptions that leave `request`. -/
inductive PyError where
  | typeError
  | attributeError
  | valueError
  | overflowError
  | recursionError
  | assertionError
deriving DecidableEq, Repr

/-- How `json.loads(body.decode("utf-8"))` fails: with a `UnicodeDecodeError` or
a `JSONDecodeError` and its text, or with an exception that `request` does not
catch, as for a number of more digits than `int` takes or too deep a nesting. -/
inductive LoadsError where
  | undecodable (text : Bytes)
  | raised (e : PyError)
deriving DecidableEq, Repr

/-- How a call of `request` ends. -/
inductive Outcome where
  | value (v : Json)
  | jsonRpc (e : JsonRpcError)
  | raised (e : PyError)
  | cancelled

/-- A text from its parts. -/
def text (parts : List Bytes) : Json := .str parts.flatten

/-- What the code takes from Python's library, and the endpoint. -/
structure Python where
  /-- `json.loads(body.decode("utf-8"))` -/
  loads : Bytes → Except LoadsError Json
  /-- `str(value)` -/
  str : Json → Bytes
  /-- `float.__repr__` -/
  floatText : Option Rat → Bytes
  /-- `int(text)` -/
  intOfText : Bytes → Option Int
  endpoint : Bytes

/-- `int(value)`.  For the infinities the exception is an `OverflowError`; the
model tells them no more from nan than `Json` does. -/
def Python.int (py : Python) : Json → Except PyError Int
  | .int n => .ok n
  | .bool b => .ok (if b then 1 else 0)
  | .float (some value) => .ok (value.num.tdiv value.den)
  | .float none => .error .valueError
  | .str t => (py.intOfText t).elim (.error .valueError) .ok
  | _ => .error .typeError

/-! ## Frames -/

/-- An open connection. -/
structure Conn where
  consumed : Bytes := []
  unread : Bytes
deriving DecidableEq

/-- What happens to a pending read.  `eof got` is the end of the stream after
`got` bytes, `broken` an `OSError` with its description. -/
inductive ReadEvent where
  | ready
  | timeout
  | eof (got : Nat)
  | broken (description : Bytes)
deriving DecidableEq

inductive ReadResult where
  | got (bytes : Bytes)
  | timedOut
  | ioError (description : Bytes)
deriving DecidableEq

/-- The end of the stream after `got` of the bytes asked for. -/
def Conn.endOfStream (c : Conn) (n got : Nat) : Conn × ReadResult :=
  let part := c.unread.take got
  ({ consumed := c.consumed ++ part, unread := [] },
    .ioError ((Json.intText part.length) ++ ascii " bytes read on a total of " ++
      Json.intText n ++ ascii " expected bytes"))

/-- `wait_for(reader.readexactly(n), timeout)` -/
def Conn.read (c : Conn) (n : Nat) : ReadEvent → Conn × ReadResult
  | .ready =>
    if n ≤ c.unread.length then
      ({ consumed := c.consumed ++ c.unread.take n, unread := c.unread.drop n },
        .got (c.unread.take n))
    else c.endOfStream n c.unread.length
  | .timeout => (c, .timedOut)
  | .eof got => c.endOfStream n (min got (n - 1))
  | .broken description => (c, .ioError description)

/-- The check of `_read_frame` on the length of a frame. -/
def badLength (n : Nat) : Prop := n = 0 ∨ maxFrameBytes < n

instance (n : Nat) : Decidable (badLength n) := inferInstanceAs (Decidable (_ ∨ _))

/-- The request envelope. -/
def requestEnv (method : Bytes) (params : Option Json) (rid : Int) : Json :=
  .dict ([(ascii "jsonrpc", .str (ascii "2.0")), (ascii "id", .int rid),
    (ascii "method", .str method)] ++ params.toList.map fun p => (ascii "params", p))

/-- The payload of a request frame. -/
def requestPayload (py : Python) (method : Bytes) (params : Option Json) (rid : Int) : Bytes :=
  Json.dumps py.floatText (requestEnv method params rid)

/-- `obj["id"]` when `"id" in obj`; a string and a list take the operator as well. -/
def idOf (obj : Json) : Except PyError (Option Json) :=
  match obj with
  | .dict _ => .ok (obj.get "id")
  | .list items =>
    if items.any (fun item => match item with
        | .str t => t == ascii "id"
        | _ => false) then .error .typeError
    else .ok none
  | .str t => if ascii "id" <:+: t then .error .typeError else .ok none
  | _ => .error .typeError

/-- `id == rid` -/
def eqId (id : Json) (rid : Int) : Bool :=
  match id with
  | .int n => n = rid
  | .bool b => (if b then 1 else 0) = rid
  | .float (some value) => value = rid
  | _ => false

/-- `_is_warmup_id` -/
def isWarmupId : Json → Bool
  | .int n => n ≤ warmupIdBase
  | _ => false

inductive Kind where
  | reply
  | notification
  | warmup
  | mismatch (id : Json)
  | typeError

/-- How the read loop takes a frame. -/
def kind (obj : Json) (rid : Int) : Kind :=
  match idOf obj with
  | .error _ => .typeError
  | .ok none => .notification
  | .ok (some id) =>
    if eqId id rid then .reply else if isWarmupId id then .warmup else .mismatch id

/-! ## The state of a transport -/

/-- The arguments and local variables of `request`. -/
structure Call where
  method : Bytes
  params : Option Json := none
  /-- `str(timeout_s)` -/
  timeoutText : Bytes := ascii "30.0"
  attempt : Nat := 0
  rid : Int := 0
  sent : Bool := false
  resp : Option Json := none

/-- What `request` does after `_close_locked`. -/
inductive AfterClose where
  | connect
  | warmup (i : Nat)
  | retry
  | fail (e : JsonRpcError)

inductive AfterConnect where
  | request
  | warmup (i : Nat)
deriving DecidableEq

/-- The await at which the call stands. -/
inductive Phase where
  | idle
  | closing (after : AfterClose)
  | connecting (after : AfterConnect)
  | warmDrain (i : Nat)
  | warmHeader (i : Nat)
  | warmBody (i n : Nat)
  | warmSleep (i : Nat)
  | drain
  | header
  | body (n : Nat)
  | handlers
  | done (out : Outcome)

structure Sys where
  conn : Option Conn := none
  nextId : Int := 1
  lastWriteAt : Option Rat := none
  lastIoAt : Option Rat := none
  queue : List Json := []
  call : Call := { method := [] }
  phase : Phase := .idle
  delivered : Nat := 0
  used : List Int := []
  queueBefore : List Json := []
  earlier : List Bytes := []
  fresh : List Bytes := []

/-- A new `McpdTransport`. -/
def init : Sys := {}

/-! ## Between two awaits -/

def Sys.finish (s : Sys) (out : Outcome) : Sys := { s with phase := .done out }

/-- `_close_locked` up to its await. -/
def Sys.closeConn (s : Sys) (after : AfterClose) : Sys :=
  { s with
    conn := none
    lastIoAt := none
    phase := .closing after
    earlier := s.earlier ++ s.fresh
    fresh := [] }

/-- `_is_stale` -/
def Sys.isStale (s : Sys) (atEof : Bool) (now : Rat) : Bool :=
  s.conn.isSome && (atEof || s.lastIoAt.any fun last => staleAfterS < now - last)

/-- A message of the form `text: value`. -/
def internalError (parts : List Bytes) : JsonRpcError := ⟨.internalError, text parts, .null⟩

/-- The data of a transport failure. -/
def failureData (c : Call) : Json :=
  .dict [(ascii "method", .str c.method), (ascii "may_have_run", .bool c.sent)]

def timeoutError (c : Call) : JsonRpcError :=
  ⟨.targetError, text [ascii "MCPd request timed out after ", c.timeoutText, ascii "s"],
    failureData c⟩

def ioFailedError (c : Call) (description : Bytes) : JsonRpcError :=
  ⟨.targetError, text [ascii "MCPd I/O failed: ", description], failureData c⟩

def notReachable (py : Python) (error : Bytes) : JsonRpcError :=
  ⟨.targetError, text [ascii "MCPd not reachable at ", py.endpoint],
    .dict [(ascii "endpoint", .str py.endpoint), (ascii "error", .str error)]⟩

/-- The request goes out. -/
def Sys.sendRequest (py : Python) (now : Rat) (s : Sys) : Sys :=
  let sent : Sys :=
    { s with
      lastWriteAt := if isMutating s.call.method then some now else s.lastWriteAt
      nextId := s.nextId + 1
      used := s.used ++ [s.nextId]
      call := { s.call with rid := s.nextId, sent := false } }
  let size := (requestPayload py s.call.method s.call.params s.nextId).length
  match s.conn with
  | none => sent.finish (.raised .assertionError)
  | some _ =>
    if maxFrameBytes < size then
      sent.finish (.jsonRpc (internalError [ascii "frame too large: ", Json.intText size]))
    else { sent with phase := .drain }

/-- A warm-up probe goes out. -/
def Sys.warmSend (s : Sys) (i : Nat) : Sys :=
  match s.conn with
  | none => s.finish (.raised .assertionError)
  | some _ => { s with phase := .warmDrain i }

def Sys.afterConnect (py : Python) (now : Rat) (s : Sys) : AfterConnect → Sys
  | .request => if s.call.attempt = 1 then s.warmSend 0 else s.sendRequest py now
  | .warmup i => { s with phase := .warmSleep i }

/-- `_ensure_connected` -/
def Sys.ensureConnected (py : Python) (now : Rat) (s : Sys) (after : AfterConnect) : Sys :=
  match s.conn with
  | some _ => s.afterConnect py now after
  | none => { s with phase := .connecting after }

/-- The head of the loop over the attempts. -/
def Sys.beginAttempt (py : Python) (atEof : Bool) (now : Rat) (s : Sys) : Sys :=
  if s.isStale atEof now then s.closeConn .connect else s.ensureConnected py now .request

def Sys.afterClose (py : Python) (now : Rat) (s : Sys) : AfterClose → Sys
  | .connect => s.ensureConnected py now .request
  | .warmup i => s.ensureConnected py now (.warmup i)
  | .retry => { s with call := { s.call with attempt := 1 } }.beginAttempt py false now
  | .fail e => s.finish (.jsonRpc e)

/-- `except TimeoutError` -/
def Sys.timedOut (s : Sys) : Sys := s.closeConn (.fail (timeoutError s.call))

/-- `except (IncompleteReadError, ..., OSError)` -/
def Sys.ioFailed (s : Sys) (description : Bytes) : Sys :=
  if s.call.attempt = 0 ∧ (s.call.sent = false ∨ isIdempotent s.call.method = true) then
    s.closeConn .retry
  else s.closeConn (.fail (ioFailedError s.call description))

/-- What `request` makes of the reply that carries its id. -/
def evaluate (py : Python) (resp : Json) : Outcome :=
  match resp.get "error" with
  | some err =>
    match err with
    | .dict _ =>
      match py.int ((err.get "code").getD (.int (-32603))) with
      | .error e => .raised e
      | .ok code =>
        .jsonRpc ⟨errorByCode code, (err.get "message").getD (text [ascii "MCPd error"]),
          (err.get "data").getD .null⟩
    | _ => .raised .attributeError
  | none =>
    match resp.get "result" with
    | some v => .value v
    | none => .jsonRpc (internalError [ascii "MCPd response had neither result nor error"])

/-- What `request` makes of a frame that is no JSON value. -/
def loadsFailed : LoadsError → Outcome
  | .undecodable e => .jsonRpc (internalError [ascii "MCPd returned non-JSON: ", e])
  | .raised e => .raised e

/-- A whole frame has been read. -/
def Sys.takeFrame (py : Python) (now : Rat) (s : Sys) (payload : Bytes) : Sys :=
  let read : Sys := { s with fresh := s.fresh ++ [payload] }
  match py.loads payload with
  | .error e => read.finish (loadsFailed e)
  | .ok obj =>
    match kind obj s.call.rid with
    | .reply =>
      { read with
        lastIoAt := some now
        call := { s.call with resp := some obj }
        phase := .done (evaluate py obj) }
    | .notification => { read with queue := s.queue ++ [obj], phase := .handlers }
    | .warmup => { read with phase := .header }
    | .mismatch id =>
      read.closeConn (.fail (internalError
        [ascii "MCPd response id=", py.str id, ascii " != ", Json.intText s.call.rid]))
    | .typeError => read.finish (.raised .typeError)

def badLengthError (n : Nat) : JsonRpcError :=
  internalError [ascii "bad frame length: ", Json.intText n]

/-- The header of a frame, where the reader stands at `c`. -/
def Sys.readHeader (s : Sys) (c : Conn) (event : ReadEvent) : Sys :=
  let moved : Sys := { s with conn := some (c.read 4 event).1 }
  match (c.read 4 event).2 with
  | .got hdr =>
    if badLength (be32 hdr) then moved.finish (.jsonRpc (badLengthError (be32 hdr)))
    else { moved with phase := .body (be32 hdr) }
  | .timedOut => moved.timedOut
  | .ioError description => moved.ioFailed description

def Sys.readBody (py : Python) (now : Rat) (s : Sys) (c : Conn) (n : Nat) (event : ReadEvent) :
    Sys :=
  let moved : Sys := { s with conn := some (c.read n event).1 }
  match (c.read n event).2 with
  | .got payload => moved.takeFrame py now payload
  | .timedOut => moved.timedOut
  | .ioError description => moved.ioFailed description

/-- The read of a warm-up probe: its failures are passed over, a bad length is not. -/
def Sys.warmReadHeader (s : Sys) (i : Nat) (c : Conn) (event : ReadEvent) : Sys :=
  let moved : Sys := { s with conn := some (c.read 4 event).1 }
  match (c.read 4 event).2 with
  | .got hdr =>
    if badLength (be32 hdr) then moved.finish (.jsonRpc (badLengthError (be32 hdr)))
    else { moved with phase := .warmBody i (be32 hdr) }
  | _ => { moved with phase := .warmSleep i }

def Sys.warmReadBody (s : Sys) (i : Nat) (c : Conn) (n : Nat) (event : ReadEvent) : Sys :=
  { s with conn := some (c.read n event).1, phase := .warmSleep i }

/-! ## The steps -/

/-- How `drain` ends. -/
inductive Drained where
  | ok
  | timeout
  | broken (description : Bytes)
  | cancelled
deriving DecidableEq

/-- What the event loop hands to the call.  `now` is the clock; `handed` is
how many bytes of the frame reach the peer.  `refused` is an `OSError` of
`open_connection` and `notOpened` any other exception, as for a port above
65535 or a host name that has no encoding. -/
inductive Label where
  | start (method : Bytes) (params : Option Json) (timeoutText : Bytes) (atEof : Bool) (now : Rat)
  | closed (now : Rat)
  | connected (stream : Bytes) (now : Rat)
  | refused (error : Bytes) (now : Rat)
  | notOpened (e : PyError)
  | drained (how : Drained) (handed : Nat)
  | read (event : ReadEvent) (now : Rat)
  | slept (now : Rat)
  | handled
  | cancel

/-- A new call of `request` takes the lock. -/
def Sys.start (py : Python) (s : Sys) (method : Bytes) (params : Option Json) (timeoutText : Bytes)
    (atEof : Bool) (now : Rat) : Sys :=
  { s with
    call := { method := method, params := params, timeoutText := timeoutText }
    delivered := 0
    used := []
    queueBefore := s.queue
    earlier := []
    fresh := [] }.beginAttempt py atEof now

/-- The length of the request frame of the current attempt. -/
def Sys.frameLength (py : Python) (s : Sys) : Nat :=
  4 + (requestPayload py s.call.method s.call.params s.call.rid).length

/-- The drain of the request ends. -/
def Sys.drainEnds (py : Python) (s : Sys) (how : Drained) (handed : Nat) : Sys :=
  let out : Sys :=
    { s with delivered := s.delivered + if s.frameLength py ≤ handed then 1 else 0 }
  match how with
  | .ok => { out with call := { s.call with sent := true }, phase := .header }
  | .timeout => out.timedOut
  | .broken description => out.ioFailed description
  | .cancelled => out.finish .cancelled

def step (py : Python) (s : Sys) : Label → Option Sys
  | .start method params timeoutText atEof now =>
    match s.phase with
    | .idle | .done _ => some (s.start py method params timeoutText atEof now)
    | _ => none
  | .closed now =>
    match s.phase with
    | .closing after => some (s.afterClose py now after)
    | _ => none
  | .connected stream now =>
    match s.phase with
    | .connecting after =>
      some ({ s with conn := some { unread := stream }, lastIoAt := some now }.afterConnect
        py now after)
    | _ => none
  | .refused error now =>
    match s.phase with
    | .connecting .request => some (s.finish (.jsonRpc (notReachable py error)))
    | .connecting (.warmup _) => some (s.sendRequest py now)
    | _ => none
  | .notOpened e =>
    match s.phase with
    | .connecting _ => some (s.finish (.raised e))
    | _ => none
  | .drained how handed =>
    match s.phase with
    | .drain => some (s.drainEnds py how handed)
    | .warmDrain i =>
      match how with
      | .ok => some { s with phase := .warmHeader i }
      | .cancelled => some (s.finish .cancelled)
      | _ => some (s.closeConn (.warmup i))
    | _ => none
  | .read event now =>
    match s.conn, s.phase with
    | some c, .header => some (s.readHeader c event)
    | some c, .body n => some (s.readBody py now c n event)
    | some c, .warmHeader i => some (s.warmReadHeader i c event)
    | some c, .warmBody i n => some (s.warmReadBody i c n event)
    | _, _ => none
  | .slept now =>
    match s.phase with
    | .warmSleep i => some (if i = 0 then s.warmSend 1 else s.sendRequest py now)
    | _ => none
  | .handled =>
    match s.phase with
    | .handlers => some { s with phase := .header }
    | _ => none
  | .cancel =>
    match s.phase with
    | .idle | .done _ | .drain | .warmDrain _ => none
    | _ => some (s.finish .cancelled)

/-! ## A small peer -/

/-- A Python whose `json.loads` is asked for one payload only. -/
def pythonFor (obj : Json) : Python where
  loads payload :=
    if payload = Json.dumps (fun _ => []) obj then .ok obj
    else .error (.undecodable (ascii "Expecting value: line 1 column 1 (char 0)"))
  str _ := []
  floatText _ := []
  intOfText _ := none
  endpoint := ascii "x5000:4322"

/-- A Python whose `json.loads` is asked for these payloads only. -/
def pythonForAll (objs : List Json) : Python :=
  { pythonFor .null with
    loads := fun payload =>
      match objs.find? fun obj => Json.dumps (fun _ => []) obj == payload with
      | some obj => .ok obj
      | none => .error (.undecodable (ascii "Expecting value: line 1 column 1 (char 0)")) }

/-- A reply with this id. -/
def pong (id : Json) : Json :=
  .dict [(ascii "jsonrpc", .str (ascii "2.0")), (ascii "id", id), (ascii "result", .int 5)]

/-- A call on a new connection with this stream, up to the read of the reply. -/
def callOn (method : String) (stream : Bytes) : List Label :=
  [.start (ascii method) none (ascii "30.0") false 0, .connected stream 0, .drained .ok 100]

end AmigaFleet.Host.Transport

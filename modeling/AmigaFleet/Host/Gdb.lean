import AmigaFleet.Host.Transport

/-!
# The GDB transport

`GdbTransport` of `transports/gdb.py`, on one side, and a stub on the other.
An operation is a coroutine, cut at its awaits: `Phase` is the await at which
it stands, and a `Label` is what the event loop hands it there or what the stub
and the network do in the meantime.

* `Conn` is a connection with its stub.  The host writes `Item`s, which the
  stub takes one after another; it accepts a packet or refuses it, and answers
  what it has accepted once and in order.  What it says are `Message`s, and
  the host reads their bytes: `consumed` have been read, `unread` not yet.
* A `Tag` names a packet by the operation that sent it.  Tags, `consumed`,
  `sent` and `accepted` are not in the code; they record what belongs to what.
* `Sys.raised` is what the operations make of an exception, by the place at
  which it comes up.
-/

namespace AmigaFleet.Host.Gdb

open AmigaFleet.Lib
open AmigaFleet.Mcpd (ascii)
open AmigaFleet.Host.Transport (JsonRpcError text internalError)

/-! ## Packets -/

def dollar : UInt8 := 36
def hash : UInt8 := 35
def plus : UInt8 := 43
def minus : UInt8 := 45

/-- `_checksum` -/
def checksum (data : Bytes) : Nat := (data.map UInt8.toNat).sum % 256

def hexDigit (n : Nat) : UInt8 := UInt8.ofNat (if n < 10 then 48 + n else 87 + n)

/-- `f"{n:02x}"` of a byte. -/
def hex2 (n : Nat) : Bytes := [hexDigit (n / 16), hexDigit (n % 16)]

/-- `_frame` -/
def frame (payload : Bytes) : Bytes := dollar :: payload ++ hash :: hex2 (checksum payload)

def hexValue (c : UInt8) : Option Nat :=
  if 48 ≤ c ∧ c ≤ 57 then some (c.toNat - 48)
  else if 97 ≤ c ∧ c ≤ 102 then some (c.toNat - 87)
  else if 65 ≤ c ∧ c ≤ 70 then some (c.toNat - 55)
  else none

/-- `str.isspace` of an ASCII character. -/
def isSpace (c : UInt8) : Bool := (9 ≤ c ∧ c ≤ 13) ∨ (28 ≤ c ∧ c ≤ 32)

/-- `int(cs_bytes.decode("ascii"), 16)` of two bytes; `none` is a `ValueError`. -/
def parseSum (c₁ c₂ : UInt8) : Option Int :=
  match hexValue c₁, hexValue c₂ with
  | some high, some low => some (16 * high + low)
  | some low, none => if isSpace c₂ then some low else none
  | none, some low =>
    if isSpace c₁ ∨ c₁ = plus then some low else if c₁ = minus then some (-low) else none
  | none, none => none

/-- A packet of the stub.  Its checksum need not be right. -/
structure Packet where
  payload : Bytes
  sums : UInt8 × UInt8
  payload_plain : ∀ b ∈ payload, b ≠ dollar ∧ b ≠ hash
  sums_plain : sums.1 ≠ dollar ∧ sums.2 ≠ dollar
deriving DecidableEq

def Packet.bytes (p : Packet) : Bytes := dollar :: p.payload ++ [hash, p.sums.1, p.sums.2]

/-- The packet that an operation sends: the handshake or its own. -/
inductive Which where
  | handshake
  | request
deriving DecidableEq, Repr

structure Tag where
  op : Nat
  which : Which
deriving DecidableEq, Repr

/-! ## The stub -/

/-- What the host writes. -/
inductive Item where
  | packet (tag : Tag) (payload : Bytes)
  | plus
  | minus
  | interrupt
deriving DecidableEq

def Item.bytes : Item → Bytes
  | .packet _ payload => frame payload
  | .plus => [Gdb.plus]
  | .minus => [Gdb.minus]
  | .interrupt => [3]

/-- What the stub says. -/
inductive Message where
  | ack (tag : Tag)
  | nak (tag : Tag)
  | answer (tag : Tag) (p : Packet)
deriving DecidableEq

def Message.bytes : Message → Bytes
  | .ack _ => [plus]
  | .nak _ => [minus]
  | .answer _ p => p.bytes

def wire (messages : List Message) : Bytes := messages.flatMap Message.bytes

/-- A connection.  `closed` says that nothing passes it any more, `broken` that
the host has seen it fail. -/
structure Conn where
  inbox : List Item := []
  owed : List Tag := []
  last : Option (Tag × Packet) := none
  sent : List Message := []
  consumed : Bytes := []
  unread : Bytes := []
  closed : Bool := false
  broken : Bool := false

/-- `writer.write` -/
def Conn.put (item : Item) (c : Conn) : Conn :=
  if c.closed then c else { c with inbox := c.inbox ++ [item] }

/-- The stub sends. -/
def Conn.say (m : Message) (c : Conn) : Conn :=
  if c.closed then c else { c with sent := c.sent ++ [m], unread := c.unread ++ m.bytes }

/-- The items of which every byte is among the first `n`. -/
def wholeItems : Nat → List Item → List Item
  | _, [] => []
  | n, item :: items =>
    if item.bytes.length ≤ n then item :: wholeItems (n - item.bytes.length) items else []

/-- The connection is lost: `delivered` bytes still reach the stub, and `kept`
bytes the host. -/
def Conn.lose (kept delivered : Nat) (c : Conn) : Conn :=
  { c with
    inbox := wholeItems delivered c.inbox
    unread := c.unread.take kept
    closed := true }

inductive StubMove where
  /-- the next packet is good; it is executed -/
  | accept
  /-- the next packet is refused with a nak -/
  | reject
  /-- an ack or an interrupt, which ask for nothing -/
  | skip
  /-- a nak: the last packet goes out again -/
  | resend (p : Packet)
  /-- the answer to the accepted packet that is next -/
  | answer (p : Packet)

/-- A move of the stub, with the packets that it accepts. -/
def Conn.stub (c : Conn) : StubMove → Option (Conn × List Tag)
  | .accept =>
    match c.inbox with
    | .packet tag _ :: rest =>
      some (({ c with inbox := rest, owed := c.owed ++ [tag] } : Conn).say (.ack tag), [tag])
    | _ => none
  | .reject =>
    match c.inbox with
    | .packet tag _ :: rest => some (({ c with inbox := rest } : Conn).say (.nak tag), [])
    | _ => none
  | .skip =>
    match c.inbox with
    | .plus :: rest | .interrupt :: rest => some ({ c with inbox := rest }, [])
    | _ => none
  | .resend p =>
    match c.inbox, c.last with
    | .minus :: rest, some (tag, q) =>
      if p.payload = q.payload then
        some (({ c with inbox := rest, last := some (tag, p) } : Conn).say (.answer tag p), [])
      else none
    | _, _ => none
  | .answer p =>
    match c.owed with
    | tag :: rest =>
      some (({ c with owed := rest, last := some (tag, p) } : Conn).say (.answer tag p), [])
    | [] => none

/-! ## Reads and writes of the host -/

/-- An exception that leaves `_send` or `_recv`. -/
inductive Exn where
  | timeout
  /-- `IncompleteReadError` and the subclasses of `OSError`, with their text -/
  | io (description : Bytes)
  | jsonRpc (e : JsonRpcError)
  | valueError
  | cancelled

/-- An `OSError` of the socket; the one for a timeout is a `TimeoutError`. -/
inductive Fault where
  | timedOut
  | other (description : Bytes)
deriving DecidableEq

def Fault.exn : Fault → Exn
  | .timedOut => .timeout
  | .other description => .io description

inductive ReadEvent where
  | ready
  | timeout
  | eof
  | broken (fault : Fault)
deriving DecidableEq

inductive Drained where
  | ok
  | broken (fault : Fault)
deriving DecidableEq

/-- `wait_for(reader.readexactly(n), timeout_s)` -/
def Conn.read (c : Conn) (n : Nat) : ReadEvent → Option (Conn × Except Exn Bytes)
  | .ready =>
    if c.broken = false ∧ n ≤ c.unread.length then
      some ({ c with consumed := c.consumed ++ c.unread.take n, unread := c.unread.drop n },
        .ok (c.unread.take n))
    else none
  | .timeout => some (c, .error .timeout)
  | .eof =>
    if c.broken = false ∧ c.closed = true ∧ c.unread.length < n then
      some ({ c with consumed := c.consumed ++ c.unread, unread := [] },
        .error (.io (Json.intText c.unread.length ++ ascii " bytes read on a total of " ++
          Json.intText n ++ ascii " expected bytes")))
    else none
  | .broken fault =>
    if c.closed = true then some ({ c with broken := true }, .error fault.exn) else none

/-- `writer.drain()` -/
def Conn.drain (c : Conn) : Drained → Option (Conn × Option Exn)
  | .ok => if c.broken = false then some (c, none) else none
  | .broken fault =>
    if c.closed = true then some ({ c with broken := true }, some fault.exn) else none

/-! ## The state -/

/-- The operations: `_exchange` with a packet and the text of its timeout,
`cont`, `detach` and `close`. -/
inductive Job where
  | exchange (payload timeoutText : Bytes)
  | cont
  | detach
  | close
deriving DecidableEq

def Job.payload : Job → Bytes
  | .exchange payload _ => payload
  | .cont => ascii "c"
  | .detach => ascii "D"
  | .close => []

/-- An operation with the variables of `_exchange`. -/
structure Op where
  id : Nat := 0
  job : Job := .close
  attempt : Nat := 0
  sent : Bool := false

/-- What `_recv` waits for; `interrupted` is the wait behind the Ctrl-C. -/
inductive Wait where
  | handshake
  | reply
  | interrupted
deriving DecidableEq, Repr

/-- Where an exception comes up. -/
inductive Place where
  | sending (which : Which)
  | waiting (wait : Wait)
  | interrupting
deriving DecidableEq, Repr

inductive Outcome where
  /-- what `_exchange` returns -/
  | reply (payload : Bytes)
  /-- the text that `cont` returns -/
  | text (t : Bytes)
  | nothing
  | raised (e : Exn)

inductive AfterClose where
  | retry
  | fail (e : JsonRpcError)
  | finished

inductive Phase where
  | idle
  | connecting
  /-- `_send`; `again` behind a nak -/
  | drain (which : Which) (again : Bool)
  | ack (which : Which) (again : Bool)
  /-- `_recv` up to the dollar sign, up to the hash sign, and the checksum -/
  | lead (wait : Wait)
  | body (wait : Wait) (buf : Bytes)
  | sums (wait : Wait) (buf : Bytes)
  /-- the drain of the ack for a packet -/
  | thanks (wait : Wait) (buf : Bytes)
  /-- the drain of the nak for a packet -/
  | refusal (wait : Wait) (e : JsonRpcError)
  /-- the drain of the Ctrl-C -/
  | interrupt
  | closing (after : AfterClose)
  | done (out : Outcome)

structure Sys where
  conn : Option Conn := none
  /-- the connections that the host has closed -/
  old : List Conn := []
  accepted : List Tag := []
  op : Op := {}
  phase : Phase := .idle

/-- A new `GdbTransport`. -/
def init : Sys := {}

/-! ## Errors -/

/-- `decode("ascii", errors="replace")` -/
def asciiReplace (bytes : Bytes) : Bytes :=
  bytes.flatMap fun b => if b < 128 then [b] else [0xEF, 0xBF, 0xBD]

/-- The data of a failed `_exchange`. -/
def failureData (op : Op) : Json :=
  .dict [(ascii "payload", .str (asciiReplace (op.job.payload.take 80))),
    (ascii "may_have_run", .bool op.sent)]

def timeoutError (op : Op) (timeoutText : Bytes) : JsonRpcError :=
  ⟨.targetError, text [ascii "GDB stub request timed out after ", timeoutText, ascii "s"],
    failureData op⟩

def ioFailedError (op : Op) (description : Bytes) : JsonRpcError :=
  ⟨.targetError, text [ascii "GDB stub I/O failed: ", description], failureData op⟩

def notReachable (endpoint error : Bytes) : JsonRpcError :=
  ⟨.targetError, text [ascii "GDB stub not reachable at ", endpoint],
    .dict [(ascii "endpoint", .str endpoint), (ascii "error", .str error)]⟩

def noInterrupt : JsonRpcError :=
  ⟨.targetError, text [ascii "continue: stub didn't respond to Ctrl-C interrupt"], .null⟩

/-- `repr` of one byte. -/
def byteRepr (b : UInt8) : Bytes :=
  if b = 39 then [98, 34, 39, 34]
  else if b = 92 then ascii "b'\\\\'"
  else if b = 9 then ascii "b'\\t'"
  else if b = 10 then ascii "b'\\n'"
  else if b = 13 then ascii "b'\\r'"
  else if 32 ≤ b ∧ b ≤ 126 then ascii "b'" ++ [b] ++ ascii "'"
  else ascii "b'\\x" ++ hex2 b.toNat ++ ascii "'"

def badAck (ack : UInt8) : JsonRpcError :=
  internalError [ascii "GDB stub returned bad ack: ", byteRepr ack]

def tooLarge : JsonRpcError := internalError [ascii "GDB packet too large"]

/-- `f"{n:02x}"` of what `parseSum` returns. -/
def sumText (n : Int) : Bytes :=
  if n < 0 then minus :: [hexDigit n.natAbs] else hex2 n.toNat

def mismatch (received : Int) (calculated : Nat) : JsonRpcError :=
  internalError [ascii "GDB packet checksum mismatch: got ", sumText received, ascii " expected ",
    hex2 calculated]

/-! ## Between two awaits -/

def Sys.finish (s : Sys) (out : Outcome) : Sys := { s with phase := .done out }

def Sys.write (s : Sys) (item : Item) : Sys := { s with conn := s.conn.map (Conn.put item) }

/-- The packet that goes out. -/
def Sys.payload (s : Sys) : Which → Bytes
  | .handshake => ascii "qSupported:swbreak+;hwbreak+"
  | .request => s.op.job.payload

/-- `_send` up to its first await, and again behind a nak. -/
def Sys.sendPacket (s : Sys) (which : Which) (again : Bool) : Sys :=
  { s.write (.packet ⟨s.op.id, which⟩ (s.payload which)) with phase := .drain which again }

/-- `_close_locked` of an open connection, up to its await. -/
def Sys.closeConn (s : Sys) (after : AfterClose) : Sys :=
  { s with
    conn := none
    old := s.conn.toList.map (fun c => { c with closed := true }) ++ s.old
    phase := .closing after }

/-- `_ensure_connected`, and `_send` where there is nothing to wait for. -/
def Sys.ensureConnected (s : Sys) : Sys :=
  match s.conn with
  | some _ => s.sendPacket .request false
  | none => { s with phase := .connecting }

def Sys.afterClose (s : Sys) : AfterClose → Sys
  | .retry => { s with op := { s.op with attempt := 1, sent := false } }.ensureConnected
  | .fail e => s.finish (.raised (.jsonRpc e))
  | .finished => s.finish .nothing

/-- What an operation does with an exception. -/
def Sys.raised (s : Sys) (place : Place) (e : Exn) : Sys :=
  match s.op.job with
  | .exchange _ timeoutText =>
    match e with
    | .timeout => s.closeConn (.fail (timeoutError s.op timeoutText))
    | .io description =>
      if s.op.attempt = 0 ∧ s.op.sent = false then s.closeConn .retry
      else s.closeConn (.fail (ioFailedError s.op description))
    | _ => s.finish (.raised e)
  | .cont =>
    match place, e with
    | .waiting .reply, .timeout => { s.write .interrupt with phase := .interrupt }
    | .waiting .interrupted, .timeout => s.closeConn (.fail noInterrupt)
    | _, _ => s.finish (.raised e)
  | .detach | .close => s.closeConn .finished

/-- `_send` has its ack.  Only `_exchange` looks at `sent`. -/
def Sys.acked (s : Sys) : Which → Sys
  | .handshake => { s with phase := .lead .handshake }
  | .request => { s with op := { s.op with sent := true }, phase := .lead .reply }

/-- `_recv` has a packet. -/
def Sys.received (s : Sys) (buf : Bytes) : Wait → Sys
  | .handshake => s.sendPacket .request false
  | .reply =>
    match s.op.job with
    | .exchange _ _ => s.finish (.reply buf)
    | .cont => s.finish (.text (asciiReplace buf))
    | .detach | .close => s.closeConn .finished
  | .interrupted => s.finish (.text (asciiReplace buf))

def Sys.readAck (s : Sys) (which : Which) (again : Bool) : Bytes → Sys
  | [b] =>
    if b = minus ∧ again = false then s.sendPacket which true
    else if b = plus then s.acked which
    else s.raised (.sending which) (.jsonRpc (badAck b))
  | _ => s

/-- The leading bytes: acks and everything else are passed over. -/
def Sys.readLead (s : Sys) (wait : Wait) (b : Bytes) : Sys :=
  { s with phase := if b = [dollar] then .body wait [] else .lead wait }

def maxPacket : Nat := 2 * 1024 * 1024

def Sys.readBody (s : Sys) (wait : Wait) (buf b : Bytes) : Sys :=
  if b = [hash] then { s with phase := .sums wait buf }
  else if (buf ++ b).length > maxPacket then s.raised (.waiting wait) (.jsonRpc tooLarge)
  else { s with phase := .body wait (buf ++ b) }

def Sys.readSums (s : Sys) (wait : Wait) (buf : Bytes) : Bytes → Sys
  | [c₁, c₂] =>
    match parseSum c₁ c₂ with
    | none => s.raised (.waiting wait) .valueError
    | some received =>
      if received = checksum buf then { s.write .plus with phase := .thanks wait buf }
      else { s.write .minus with phase := .refusal wait (mismatch received (checksum buf)) }
  | _ => s

/-! ## The steps -/

inductive Label where
  | start (job : Job)
  | connected
  | refused (endpoint error : Bytes)
  | drained (how : Drained)
  | read (event : ReadEvent)
  /-- the `wait_for` around `_recv` in `cont` and `detach` ends -/
  | cutoff
  | closed
  | cancel
  | stub (move : StubMove)
  /-- the stub on a connection that the host has closed -/
  | late (i : Nat) (move : StubMove)
  | lose (kept delivered : Nat)

/-- A new operation takes the lock. -/
def Sys.start (s : Sys) (job : Job) : Sys :=
  let begun : Sys := { s with op := { id := s.op.id + 1, job := job } }
  match job, s.conn with
  | .exchange _ _, _ | .cont, _ => begun.ensureConnected
  | .detach, some _ => begun.sendPacket .request false
  | .close, some _ => begun.closeConn .finished
  | _, none => begun.finish .nothing

/-- The bytes for which a phase waits. -/
def Phase.awaits : Phase → Option Nat
  | .ack _ _ | .lead _ | .body _ _ => some 1
  | .sums _ _ => some 2
  | _ => none

/-- A read has ended. -/
def Sys.readEnds (s : Sys) : Except Exn Bytes → Sys
  | .ok b =>
    match s.phase with
    | .ack which again => s.readAck which again b
    | .lead wait => s.readLead wait b
    | .body wait buf => s.readBody wait buf b
    | .sums wait buf => s.readSums wait buf b
    | _ => s
  | .error e =>
    match s.phase with
    | .ack which _ => s.raised (.sending which) e
    | .lead wait | .body wait _ | .sums wait _ => s.raised (.waiting wait) e
    | _ => s

/-- A drain has ended. -/
def Sys.drainEnds (s : Sys) (e : Option Exn) : Option Sys :=
  match s.phase, e with
  | .drain which again, none => some { s with phase := .ack which again }
  | .drain which _, some e => some (s.raised (.sending which) e)
  | .thanks wait buf, none => some (s.received buf wait)
  | .thanks wait _, some e => some (s.raised (.waiting wait) e)
  | .refusal wait error, none => some (s.raised (.waiting wait) (.jsonRpc error))
  | .refusal wait _, some e => some (s.raised (.waiting wait) e)
  | .interrupt, none => some { s with phase := .lead .interrupted }
  | .interrupt, some e => some (s.raised .interrupting e)
  | _, _ => none

/-- The `_recv` that stands in a phase. -/
def Phase.wait : Phase → Option Wait
  | .lead wait | .body wait _ | .sums wait _ | .thanks wait _ | .refusal wait _ => some wait
  | _ => none

/-- `_recv` runs under a `wait_for` of the operation. -/
def Job.bounds : Job → Wait → Bool
  | .cont, .reply | .cont, .interrupted | .detach, .reply => true
  | _, _ => false

def step (s : Sys) : Label → Option Sys
  | .start job =>
    match s.phase with
    | .idle | .done _ => some (s.start job)
    | _ => none
  | .connected =>
    match s.phase with
    | .connecting => some ({ s with conn := some {} }.sendPacket .handshake false)
    | _ => none
  | .refused endpoint error =>
    match s.phase with
    | .connecting => some (s.finish (.raised (.jsonRpc (notReachable endpoint error))))
    | _ => none
  | .drained how =>
    match s.conn with
    | some c => (c.drain how).bind fun r => { s with conn := some r.1 }.drainEnds r.2
    | none => none
  | .read event =>
    match s.conn, s.phase.awaits with
    | some c, some n => (c.read n event).map fun r => { s with conn := some r.1 }.readEnds r.2
    | _, _ => none
  | .cutoff =>
    match s.phase.wait with
    | some wait => if s.op.job.bounds wait then some (s.raised (.waiting wait) .timeout) else none
    | none => none
  | .closed =>
    match s.phase with
    | .closing after => some (s.afterClose after)
    | _ => none
  | .cancel =>
    match s.phase with
    | .idle | .done _ => none
    | _ => some (s.finish (.raised .cancelled))
  | .stub move =>
    match s.conn with
    | some c =>
      (c.stub move).map fun r => { s with conn := some r.1, accepted := s.accepted ++ r.2 }
    | none => none
  | .late i move =>
    match s.old[i]? with
    | some c =>
      (c.stub move).map fun r => { s with old := s.old.set i r.1, accepted := s.accepted ++ r.2 }
    | none => none
  | .lose kept delivered =>
    match s.conn with
    | some c =>
      if c.closed then none else some { s with conn := some (c.lose kept delivered) }
    | none => none

/-! ## What the stub can do -/

/-- An item that asks the stub for nothing. -/
def Item.idle : Item → Bool
  | .plus | .interrupt => true
  | .packet _ _ | .minus => false

/-- The moves of a stub: a packet accepted, a packet refused, an item passed
over, the last packet again, an answer. -/
theorem Conn.stub_cases {c c' : Conn} {move : StubMove} {tags : List Tag}
    (h : c.stub move = some (c', tags)) :
    (∃ tag payload rest, c.inbox = .packet tag payload :: rest ∧ tags = [tag] ∧
      c' = ({ c with inbox := rest, owed := c.owed ++ [tag] } : Conn).say (.ack tag)) ∨
    (∃ tag payload rest, c.inbox = .packet tag payload :: rest ∧ tags = [] ∧
      c' = ({ c with inbox := rest } : Conn).say (.nak tag)) ∨
    (∃ item rest, c.inbox = item :: rest ∧ item.idle = true ∧ tags = [] ∧
      c' = { c with inbox := rest }) ∨
    (∃ tag p q rest, c.inbox = .minus :: rest ∧ c.last = some (tag, q) ∧ tags = [] ∧
      c' = ({ c with inbox := rest, last := some (tag, p) } : Conn).say (.answer tag p)) ∨
    (∃ tag p rest, c.owed = tag :: rest ∧ tags = [] ∧
      c' = ({ c with owed := rest, last := some (tag, p) } : Conn).say (.answer tag p)) := by
  cases move with
  | accept =>
    rw [Conn.stub] at h
    split at h
    · rename_i tag payload rest hinbox
      cases h
      exact Or.inl ⟨tag, payload, rest, hinbox, rfl, rfl⟩
    · cases h
  | reject =>
    rw [Conn.stub] at h
    split at h
    · rename_i tag payload rest hinbox
      cases h
      exact Or.inr (Or.inl ⟨tag, payload, rest, hinbox, rfl, rfl⟩)
    · cases h
  | skip =>
    rw [Conn.stub] at h
    split at h
    · rename_i rest hinbox
      cases h
      exact Or.inr (Or.inr (Or.inl ⟨.plus, rest, hinbox, rfl, rfl, rfl⟩))
    · rename_i rest hinbox
      cases h
      exact Or.inr (Or.inr (Or.inl ⟨.interrupt, rest, hinbox, rfl, rfl, rfl⟩))
    · cases h
  | resend p =>
    rw [Conn.stub] at h
    split at h
    · rename_i rest tag q hinbox hlast
      split at h
      · cases h
        exact Or.inr (Or.inr (Or.inr (Or.inl ⟨tag, p, q, rest, hinbox, hlast, rfl, rfl⟩)))
      · cases h
    · cases h
  | answer p =>
    rw [Conn.stub] at h
    split at h
    · rename_i tag rest howed
      cases h
      exact Or.inr (Or.inr (Or.inr (Or.inr ⟨tag, p, rest, howed, rfl, rfl⟩)))
    · cases h

end AmigaFleet.Host.Gdb

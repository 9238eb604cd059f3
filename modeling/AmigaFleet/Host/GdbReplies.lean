import Mathlib.Data.Bool.AllAny
import AmigaFleet.Host.GdbStream
import AmigaFleet.Lib.Run

/-!
# Replies of the GDB transport

A reply belongs to the packet that the operation has sent, as long as every
operation that ends leaves nothing behind on its connection.  `Fits` says where
the connection may stand in each phase; every phase allows the moves of the
stub, and the reads of a phase lead to where the next one may stand.

An operation that ends with something still to come strands it, and the next
one takes it for its own: `strands` names the steps, `replies_correlated` holds
in every run without them, and `stale_stop_reply` is a run with one.
-/

namespace AmigaFleet.Host.Gdb

open AmigaFleet.Lib
open AmigaFleet.Mcpd (ascii)
open AmigaFleet.Host.Transport (JsonRpcError)

/-! ## The property -/

/-- The last packet that the host has read off its connection is the stub's
answer to the packet of this operation, and `v` is its payload. -/
def Sys.Took (s : Sys) (which : Which) (v : Bytes) : Prop :=
  ∃ c before p after, s.conn = some c ∧ c.sent = before ++ .answer ⟨s.op.id, which⟩ p :: after ∧
    p.payload = v ∧ c.consumed = wire before ++ p.bytes

/-- What `_exchange` returns is the answer to its packet. -/
def Sys.Correlated (s : Sys) : Prop := ∀ v, s.phase = .done (.reply v) → s.Took .request v

/-! ## The condition -/

/-- The operation ends, or is given up, with its connection open although the
stub has still to answer or the rest of a packet is unread: behind the nak for a
wrong checksum, at a packet that is too large, at a timeout of `cont` outside
its waits for the stop reply, and at a cancellation. -/
def strands (s : Sys) : Label → Bool
  | .drained .ok =>
    match s.phase with
    | .refusal _ _ => s.op.job ≠ .detach
    | _ => false
  | .read .ready =>
    match s.phase, s.conn with
    | .body _ buf, some c =>
      s.op.job ≠ .detach ∧ maxPacket ≤ buf.length ∧ c.unread.head? ≠ some hash
    | _, _ => false
  | .read .timeout =>
    s.op.job = .cont &&
      match s.phase with
      | .ack _ _ | .lead .handshake | .body .handshake _ | .sums .handshake _ => true
      | _ => false
  | .cancel =>
    match s.phase with
    | .drain _ _ | .ack _ _ | .lead _ | .body _ _ | .sums _ _ | .refusal _ _ | .interrupt => true
    | _ => false
  | _ => false

/-- The step strands nothing. -/
def Clears (s : Sys) (a : Label) : Prop := strands s a = false

instance (s : Sys) (a : Label) : Decidable (Clears s a) := inferInstanceAs (Decidable (_ = _))

/-! ## Phases -/

def Wait.which : Wait → Which
  | .handshake => .handshake
  | .reply | .interrupted => .request

/-- Behind a packet: it is on its way, accepted, answered or refused. -/
inductive Asked (tag : Tag) : Due → List Message → Prop
  | waiting : Asked tag (.packet tag) []
  | acked : Asked tag (.answer tag) [.ack tag]
  | answered (p : Packet) : Asked tag .nothing [.ack tag, .answer tag p]
  | refused : Asked tag .nothing [.nak tag]

/-- In front of an answer: it is owed, under way or asked for again. -/
inductive Coming (tag : Tag) : Due → List Message → Prop
  | owed : Coming tag (.answer tag) []
  | sent (p : Packet) : Coming tag .nothing [.answer tag p]
  | again : Coming tag (.again tag) []

/-- No packet starts in what is ahead. -/
def Spent (ms : List Message) (part : Bytes) : Prop := ∃ rest, part ++ rest = wire ms ∧ dollar ∉ rest

/-- Where the connection of operation `id` may stand in a phase. -/
inductive Fits (id : Nat) : Phase → Due → List Message → Bytes → Prop
  | idle : Fits id .idle .nothing [] []
  | done (out : Outcome) : Fits id (.done out) .nothing [] []
  | drain {which : Which} {d : Due} {ms : List Message} (again : Bool) (h : Asked ⟨id, which⟩ d ms) :
      Fits id (.drain which again) d ms []
  | ack {which : Which} {d : Due} {ms : List Message} (again : Bool) (h : Asked ⟨id, which⟩ d ms) :
      Fits id (.ack which again) d ms []
  | lead (wait : Wait) {d : Due} {ms : List Message} (h : Coming ⟨id, wait.which⟩ d ms) :
      Fits id (.lead wait) d ms []
  | skip {ms : List Message} {part : Bytes} (h : Spent ms part) :
      Fits id (.lead .interrupted) .nothing ms part
  | body {wait : Wait} {buf : Bytes} {p : Packet} (h : buf <+: p.payload) :
      Fits id (.body wait buf) .nothing [.answer ⟨id, wait.which⟩ p] (dollar :: buf)
  | sums (wait : Wait) (p : Packet) : Fits id (.sums wait p.payload) .nothing
      [.answer ⟨id, wait.which⟩ p] (dollar :: p.payload ++ [hash])
  | thanks (wait : Wait) (buf : Bytes) : Fits id (.thanks wait buf) .nothing [] []
  | refusal (wait : Wait) {d : Due} {ms : List Message} (e : JsonRpcError)
      (h : Coming ⟨id, wait.which⟩ d ms) : Fits id (.refusal wait e) d ms []
  | interrupt {d : Due} {ms : List Message} (h : Coming ⟨id, .request⟩ d ms) : Fits id .interrupt d ms []
  | interruptSpent {ms : List Message} {part : Bytes} (h : Spent ms part) :
      Fits id .interrupt .nothing ms part

theorem Asked.next {tag : Tag} {d d' : Due} {ms ms' : List Message} (h : Asked tag d ms)
    (hnext : Next d ms d' ms') : Asked tag d' ms' := by
  cases hnext with
  | same => exact h
  | ack => cases h; exact Asked.acked
  | nak => cases h; exact Asked.refused
  | answer t p => cases h; exact Asked.answered p
  | again => cases h

theorem Coming.next {tag : Tag} {d d' : Due} {ms ms' : List Message} (h : Coming tag d ms)
    (hnext : Next d ms d' ms') : Coming tag d' ms' := by
  cases hnext with
  | same => exact h
  | ack => cases h
  | nak => cases h
  | answer t p => cases h; exact Coming.sent p
  | again t p => cases h; exact Coming.sent p

theorem next_nothing {d : Due} {ms ms' : List Message} (h : Next .nothing ms d ms') :
    d = .nothing ∧ ms' = ms := by
  cases h
  exact ⟨rfl, rfl⟩

/-- Every phase allows the moves of the stub. -/
theorem Fits.next {id : Nat} {phase : Phase} {d d' : Due} {ms ms' : List Message} {part : Bytes}
    (h : Fits id phase d ms part) (hnext : Next d ms d' ms') : Fits id phase d' ms' part := by
  cases h with
  | drain again hasked => exact Fits.drain again (hasked.next hnext)
  | ack again hasked => exact Fits.ack again (hasked.next hnext)
  | lead wait hcoming => exact Fits.lead wait (hcoming.next hnext)
  | refusal wait e hcoming => exact Fits.refusal wait e (hcoming.next hnext)
  | interrupt hcoming => exact Fits.interrupt (hcoming.next hnext)
  | idle => obtain ⟨rfl, rfl⟩ := next_nothing hnext; exact Fits.idle
  | done out => obtain ⟨rfl, rfl⟩ := next_nothing hnext; exact Fits.done out
  | skip hspent => obtain ⟨rfl, rfl⟩ := next_nothing hnext; exact Fits.skip hspent
  | body hbuf => obtain ⟨rfl, rfl⟩ := next_nothing hnext; exact Fits.body hbuf
  | sums wait p => obtain ⟨rfl, rfl⟩ := next_nothing hnext; exact Fits.sums wait p
  | thanks wait buf => obtain ⟨rfl, rfl⟩ := next_nothing hnext; exact Fits.thanks wait buf
  | interruptSpent hspent => obtain ⟨rfl, rfl⟩ := next_nothing hnext; exact Fits.interruptSpent hspent

/-! ## The invariant -/

/-- An open connection stands where the phase allows. -/
def Sys.Sound (s : Sys) : Prop :=
  ∀ c, s.conn = some c → c.Dead ∨ ∃ d ms part, Fits s.op.id s.phase d ms part ∧ c.Stands d ms part

structure Inv (s : Sys) : Prop where
  sound : s.Sound
  thanks : ∀ wait buf, s.phase = .thanks wait buf → s.Took wait.which buf
  correlated : s.Correlated

theorem Inv.of_sound {s : Sys} (h : s.Sound) (hthanks : ∀ wait buf, s.phase ≠ .thanks wait buf)
    (hreply : ∀ v, s.phase ≠ .done (.reply v)) : Inv s :=
  ⟨h, fun wait buf hphase => absurd hphase (hthanks wait buf), fun v hphase => absurd hphase (hreply v)⟩

/-- Nothing is to come on the connection. -/
def Sys.Settled (s : Sys) : Prop := ∀ c, s.conn = some c → c.Dead ∨ c.Stands .nothing [] []

theorem init_inv : Inv init := by
  refine Inv.of_sound (fun c hc => ?_) nofun nofun
  cases hc

/-- Another connection with what the host has read, and perhaps more of what
the stub has said. -/
theorem Sys.Took.congr {s s' : Sys} {which : Which} {v : Bytes} {c c' : Conn} (h : s.Took which v)
    (hc : s.conn = some c) (hc' : s'.conn = some c') (hid : s'.op.id = s.op.id)
    (hsent : ∃ more, c'.sent = c.sent ++ more) (hconsumed : c'.consumed = c.consumed) :
    s'.Took which v := by
  obtain ⟨x, before, p, after, hx, hsent', hv, hread⟩ := h
  rw [hc] at hx
  cases hx
  obtain ⟨more, hmore⟩ := hsent
  refine ⟨c', before, p, after ++ more, hc', ?_, hv, by rw [hconsumed]; exact hread⟩
  rw [hmore, hsent', hid, List.append_assoc]
  rfl

/-! ### Where an operation goes on -/

theorem Sys.Settled.finish {s : Sys} (h : s.Settled) {out : Outcome} (hout : ∀ v, out ≠ .reply v) :
    Inv (s.finish out) := by
  refine ⟨fun c hc => ?_, fun wait buf hphase => ?_, fun v hphase => ?_⟩
  · rcases h c hc with hdead | hstands
    · exact Or.inl hdead
    · exact Or.inr ⟨_, _, _, Fits.done out, hstands⟩
  · cases hphase
  · cases hphase
    exact absurd rfl (hout v)

theorem inv_closeConn (s : Sys) (after : AfterClose) : Inv (s.closeConn after) := by
  refine Inv.of_sound (fun c hc => ?_) nofun nofun
  cases hc

theorem Sys.Settled.sendPacket {s : Sys} (h : s.Settled) (which : Which) (again : Bool) :
    Inv (s.sendPacket which again) := by
  refine Inv.of_sound (fun c hc => ?_) nofun nofun
  obtain ⟨x, hx, rfl⟩ := Option.map_eq_some_iff.mp hc
  rcases h x hx with hdead | hstands
  · exact Or.inl (hdead.put _)
  · exact Or.inr ⟨_, _, _, Fits.drain again Asked.waiting, hstands.put_packet _ _⟩

theorem Sys.Settled.ensureConnected {s : Sys} (h : s.Settled) : Inv s.ensureConnected := by
  unfold Sys.ensureConnected
  split
  · exact h.sendPacket .request false
  · rename_i hnone
    refine Inv.of_sound (fun c hc => ?_) nofun nofun
    exact absurd (hnone.symm.trans hc) (by simp)

/-- The operation ends with this exception and does not close. -/
def Sys.LeavesOpen (s : Sys) (place : Place) (e : Exn) : Prop :=
  match s.op.job with
  | .exchange _ _ =>
    match e with
    | .timeout | .io _ => False
    | _ => True
  | .cont =>
    match place, e with
    | .waiting .reply, .timeout | .waiting .interrupted, .timeout => False
    | _, _ => True
  | .detach | .close => False

/-- An exception may come up where it ends an operation with nothing to come,
or where the wait for the stop reply can be interrupted. -/
theorem inv_raised {s : Sys} {place : Place} {e : Exn} (hleaves : s.LeavesOpen place e → s.Settled)
    (hinterrupt : place = .waiting .reply → e = .timeout → ∀ c, s.conn = some c →
      c.Dead ∨ ∃ d ms part, Fits s.op.id .interrupt d ms part ∧ c.Stands d ms part) :
    Inv (s.raised place e) := by
  have hraised : s.LeavesOpen place e → Inv (s.finish (.raised e)) := fun hl =>
    (hleaves hl).finish fun v => nofun
  unfold Sys.LeavesOpen at hraised
  unfold Sys.raised
  cases hjob : s.op.job with
  | detach => exact inv_closeConn s .finished
  | close => exact inv_closeConn s .finished
  | exchange payload timeoutText =>
    rw [hjob] at hraised
    cases e with
    | timeout => exact inv_closeConn s _
    | io description =>
      dsimp only
      split
      · exact inv_closeConn s _
      · exact inv_closeConn s _
    | jsonRpc e => exact hraised trivial
    | valueError => exact hraised trivial
    | cancelled => exact hraised trivial
  | cont =>
    rw [hjob] at hraised
    dsimp only at hraised ⊢
    split
    · refine Inv.of_sound (fun c hc => ?_) nofun nofun
      obtain ⟨x, hx, rfl⟩ := Option.map_eq_some_iff.mp hc
      rcases hinterrupt rfl rfl x hx with hdead | ⟨d, ms, part, hfits, hstands⟩
      · exact Or.inl (hdead.put _)
      · exact Or.inr ⟨d, ms, part, hfits, hstands.put_idle rfl⟩
    · exact inv_closeConn s _
    · refine hraised ?_
      split
      · simp_all
      · simp_all
      · trivial

/-- An exception on a dead connection. -/
theorem inv_raised_dead {s : Sys} {c : Conn} (hc : s.conn = some c) (hdead : c.Dead) (place : Place)
    (e : Exn) : Inv (s.raised place e) := by
  refine inv_raised (fun _ x hx => ?_) fun _ _ x hx => ?_
  · rw [hc] at hx
    cases hx
    exact Or.inl hdead
  · rw [hc] at hx
    cases hx
    exact Or.inl hdead

/-! ### Bytes of a packet -/

/-- The byte behind the first bytes of a payload: the next one, or the hash
sign. -/
theorem body_byte {p : Packet} {buf : Bytes} {b : UInt8} (hbuf : buf <+: p.payload)
    (h : dollar :: buf ++ [b] <+: p.bytes) :
    (b = hash ∧ buf = p.payload) ∨ (b ≠ hash ∧ buf ++ [b] <+: p.payload) := by
  obtain ⟨more, hmore⟩ := hbuf
  obtain ⟨u, hu⟩ := h
  have htail : buf ++ ([b] ++ u) = buf ++ (more ++ [hash, p.sums.1, p.sums.2]) := by
    have heq : dollar :: (buf ++ ([b] ++ u)) = dollar :: (p.payload ++ [hash, p.sums.1, p.sums.2]) := by
      rw [← List.append_assoc]
      exact hu
    rw [← List.append_assoc buf more, hmore]
    exact (List.cons.inj heq).2
  have hnext : b :: u = more ++ [hash, p.sums.1, p.sums.2] := List.append_cancel_left htail
  cases more with
  | nil =>
    rw [List.append_nil] at hmore
    exact Or.inl ⟨(List.cons.inj hnext).1, hmore⟩
  | cons x more =>
    obtain ⟨rfl, -⟩ := List.cons.inj hnext
    refine Or.inr ⟨(p.payload_plain b ?_).2, ⟨more, ?_⟩⟩
    · rw [← hmore]
      exact List.mem_append_right _ (List.mem_cons_self ..)
    · rw [← hmore, List.append_assoc]
      rfl

/-- What is left of a packet of which the dollar sign has been read. -/
theorem spent_packet {tag : Tag} {p : Packet} {part : Bytes}
    (h : dollar :: part <+: p.bytes) : Spent [.answer tag p] (dollar :: part) := by
  obtain ⟨rest, hrest⟩ := h
  refine ⟨rest, by rw [wire_singleton]; exact hrest, fun hmem => ?_⟩
  have htail : part ++ rest = p.payload ++ [hash, p.sums.1, p.sums.2] := (List.cons.inj hrest).2
  have hall : dollar ∈ p.payload ++ [hash, p.sums.1, p.sums.2] := by
    rw [← htail]
    exact List.mem_append_right _ hmem
  rcases List.mem_append.mp hall with hpayload | hsums
  · exact (p.payload_plain dollar hpayload).1 rfl
  · simp only [List.mem_cons, List.not_mem_nil, or_false] at hsums
    rcases hsums with hhash | hfirst | hsecond
    · exact absurd hhash (by decide)
    · exact p.sums_plain.1 hfirst.symm
    · exact p.sums_plain.2 hsecond.symm

/-- The wait for a stop reply may be interrupted wherever it stands. -/
theorem Fits.interrupted {id : Nat} {phase : Phase} {d : Due} {ms : List Message} {part : Bytes}
    (h : Fits id phase d ms part) (hwait : phase.wait = some .reply) : Fits id .interrupt d ms part := by
  cases h with
  | lead wait hcoming =>
    cases hwait
    exact Fits.interrupt hcoming
  | body hbuf =>
    refine Fits.interruptSpent (spent_packet ?_)
    exact (List.prefix_append_right_inj [dollar]).mpr (hbuf.trans (List.prefix_append _ _))
  | sums wait p =>
    refine Fits.interruptSpent (spent_packet ?_)
    exact ⟨[p.sums.1, p.sums.2], by simp [Packet.bytes]⟩
  | thanks wait buf => exact Fits.interruptSpent ⟨[], rfl, List.not_mem_nil⟩
  | refusal wait e hcoming =>
    cases hwait
    exact Fits.interrupt hcoming
  | skip => cases hwait
  | idle => cases hwait
  | done => cases hwait
  | drain => cases hwait
  | ack => cases hwait
  | interrupt => cases hwait
  | interruptSpent => cases hwait

/-! ### The steps -/

/-- In a phase that waits for nothing of the stub everything has been read. -/
theorem Sys.Sound.settled {s : Sys} (h : s.Sound)
    (hphase : ∀ d ms part, Fits s.op.id s.phase d ms part → d = .nothing ∧ ms = [] ∧ part = []) :
    s.Settled := by
  intro c hc
  rcases h c hc with hdead | ⟨d, ms, part, hfits, hstands⟩
  · exact Or.inl hdead
  · obtain ⟨rfl, rfl, rfl⟩ := hphase d ms part hfits
    exact Or.inr hstands

theorem inv_start {s : Sys} (h : s.Settled) (job : Job) : Inv (s.start job) := by
  have hbegun : ({ s with op := { id := s.op.id + 1, job := job } } : Sys).Settled := h
  unfold Sys.start
  dsimp only
  split
  · exact hbegun.ensureConnected
  · exact hbegun.ensureConnected
  · exact hbegun.sendPacket .request false
  · exact inv_closeConn _ _
  · exact hbegun.finish fun v => nofun

theorem inv_afterClose {s : Sys} (h : s.Settled) (after : AfterClose) : Inv (s.afterClose after) := by
  cases after with
  | retry =>
    have hagain : ({ s with op := { s.op with attempt := 1, sent := false } } : Sys).Settled := h
    exact hagain.ensureConnected
  | fail e => exact h.finish fun v => nofun
  | finished => exact h.finish fun v => nofun

/-- A drain ends on a connection that holds. -/
theorem inv_drained {s s' : Sys} (h : Inv s) (hok : Clears s (.drained .ok))
    (hstep : s.drainEnds none = some s') : Inv s' := by
  unfold Sys.drainEnds at hstep
  cases hphase : s.phase with
  | drain which again =>
    rw [hphase] at hstep
    cases hstep
    refine Inv.of_sound (fun c hc => ?_) nofun nofun
    rcases h.sound c hc with hdead | ⟨d, ms, part, hfits, hstands⟩
    · exact Or.inl hdead
    · rw [hphase] at hfits
      cases hfits with
      | drain again hasked => exact Or.inr ⟨d, ms, [], Fits.ack again hasked, hstands⟩
  | thanks wait buf =>
    rw [hphase] at hstep
    cases hstep
    have hsettled : s.Settled := by
      refine h.sound.settled fun d ms part hfits => ?_
      rw [hphase] at hfits
      cases hfits
      exact ⟨rfl, rfl, rfl⟩
    have htook := h.thanks wait buf hphase
    cases wait with
    | handshake => exact hsettled.sendPacket .request false
    | interrupted => exact hsettled.finish nofun
    | reply =>
      unfold Sys.received
      dsimp only
      cases s.op.job with
      | exchange payload timeoutText =>
        refine ⟨fun c hc => ?_, nofun, fun v hp => ?_⟩
        · rcases hsettled c hc with hdead | hstands
          · exact Or.inl hdead
          · exact Or.inr ⟨_, _, _, Fits.done _, hstands⟩
        · cases hp
          exact htook
      | cont => exact hsettled.finish nofun
      | detach => exact inv_closeConn s _
      | close => exact inv_closeConn s _
  | refusal wait error =>
    rw [hphase] at hstep
    cases hstep
    have hdetach : s.op.job = .detach := by
      unfold Clears strands at hok
      rw [hphase] at hok
      simpa using hok
    refine inv_raised (fun hleaves => ?_) fun _ he => nomatch he
    unfold Sys.LeavesOpen at hleaves
    rw [hdetach] at hleaves
    exact hleaves.elim
  | interrupt =>
    rw [hphase] at hstep
    cases hstep
    refine Inv.of_sound (fun c hc => ?_) nofun nofun
    rcases h.sound c hc with hdead | ⟨d, ms, part, hfits, hstands⟩
    · exact Or.inl hdead
    · rw [hphase] at hfits
      cases hfits with
      | interrupt hcoming => exact Or.inr ⟨d, ms, [], Fits.lead .interrupted hcoming, hstands⟩
      | interruptSpent hspent => exact Or.inr ⟨.nothing, ms, part, Fits.skip hspent, hstands⟩
  | _ =>
    rw [hphase] at hstep
    cases hstep

/-- A drain fails: the connection is dead. -/
theorem inv_drain_fails {s s' : Sys} {c : Conn} (hc : s.conn = some c) (hdead : c.Dead) (e : Exn)
    (hstep : s.drainEnds (some e) = some s') : Inv s' := by
  have hraised := inv_raised_dead hc hdead
  unfold Sys.drainEnds at hstep
  cases hphase : s.phase with
  | drain which again =>
    rw [hphase] at hstep
    cases hstep
    exact hraised _ _
  | thanks wait buf =>
    rw [hphase] at hstep
    cases hstep
    exact hraised _ _
  | refusal wait error =>
    rw [hphase] at hstep
    cases hstep
    exact hraised _ _
  | interrupt =>
    rw [hphase] at hstep
    cases hstep
    exact hraised _ _
  | _ =>
    rw [hphase] at hstep
    cases hstep

/-- A wait of `_recv` runs into a timeout. -/
theorem inv_wait_timeout {s : Sys} {wait : Wait} (h : Inv s) (hwait : s.phase.wait = some wait)
    (hcont : s.op.job = .cont → wait ≠ .handshake) : Inv (s.raised (.waiting wait) .timeout) := by
  refine inv_raised (fun hleaves => ?_) fun hplace _ c hc => ?_
  · unfold Sys.LeavesOpen at hleaves
    cases hjob : s.op.job with
    | exchange payload timeoutText =>
      rw [hjob] at hleaves
      exact hleaves.elim
    | detach =>
      rw [hjob] at hleaves
      exact hleaves.elim
    | close =>
      rw [hjob] at hleaves
      exact hleaves.elim
    | cont =>
      rw [hjob] at hleaves
      cases wait with
      | handshake => exact absurd rfl (hcont hjob)
      | reply => exact hleaves.elim
      | interrupted => exact hleaves.elim
  · cases hplace
    rcases h.sound c hc with hdead | ⟨d, ms, part, hfits, hstands⟩
    · exact Or.inl hdead
    · exact Or.inr ⟨d, ms, part, hfits.interrupted hwait, hstands⟩

theorem inv_read_timeout {s : Sys} (h : Inv s) (hok : Clears s (.read .timeout)) {n : Nat}
    (hawaits : s.phase.awaits = some n) : Inv (s.readEnds (.error .timeout)) := by
  unfold Sys.readEnds
  unfold Clears strands at hok
  cases hphase : s.phase with
  | ack which again =>
    rw [hphase] at hok
    refine inv_raised (fun hleaves => ?_) fun hplace => nomatch hplace
    have hcont : s.op.job ≠ .cont := by simpa using hok
    unfold Sys.LeavesOpen at hleaves
    cases hjob : s.op.job with
    | cont => exact absurd hjob hcont
    | _ =>
      rw [hjob] at hleaves
      exact hleaves.elim
  | lead wait =>
    refine inv_wait_timeout h (by rw [hphase]; rfl) ?_
    rintro hjob rfl
    rw [hphase, hjob] at hok
    cases hok
  | body wait buf =>
    refine inv_wait_timeout h (by rw [hphase]; rfl) ?_
    rintro hjob rfl
    rw [hphase, hjob] at hok
    cases hok
  | sums wait buf =>
    refine inv_wait_timeout h (by rw [hphase]; rfl) ?_
    rintro hjob rfl
    rw [hphase, hjob] at hok
    cases hok
  | _ =>
    rw [hphase] at hawaits
    cases hawaits

theorem inv_read_fails {s : Sys} {c : Conn} (hc : s.conn = some c) (hdead : c.Dead) {n : Nat}
    (hawaits : s.phase.awaits = some n) (e : Exn) : Inv (s.readEnds (.error e)) := by
  have hraised := inv_raised_dead hc hdead
  unfold Sys.readEnds
  cases hphase : s.phase with
  | ack which again => exact hraised _ _
  | lead wait => exact hraised _ _
  | body wait buf => exact hraised _ _
  | sums wait buf => exact hraised _ _
  | _ =>
    rw [hphase] at hawaits
    cases hawaits

/-- The ack or nak of a packet has been read. -/
theorem asked_byte {tag : Tag} {c : Conn} {d : Due} {ms : List Message} {b : UInt8}
    (hasked : Asked tag d ms) (hstands : c.Stands d ms []) (hb : c.unread.take 1 = [b]) :
    (b = plus ∧ ∃ d' ms', Coming tag d' ms' ∧ (c.took 1).Stands d' ms' []) ∨
      (b = minus ∧ (c.took 1).Stands .nothing [] []) := by
  obtain ⟨htaken, hprefix⟩ := hstands.take 1
  rw [hb] at htaken hprefix
  cases hasked with
  | waiting => exact absurd (List.prefix_nil.mp hprefix) (by simp)
  | acked =>
    have hplus : b = plus := by
      obtain ⟨u, hu⟩ := hprefix
      exact (List.cons.inj hu).1
    subst hplus
    refine Or.inl ⟨rfl, .answer tag, [], Coming.owed, ?_⟩
    exact Conn.Stands.shift (m := .ack tag) htaken (by simp)
  | answered p =>
    have hplus : b = plus := by
      obtain ⟨u, hu⟩ := hprefix
      exact (List.cons.inj hu).1
    subst hplus
    refine Or.inl ⟨rfl, .nothing, [.answer tag p], Coming.sent p, ?_⟩
    exact Conn.Stands.shift (m := .ack tag) htaken (by simp)
  | refused =>
    have hminus : b = minus := by
      obtain ⟨u, hu⟩ := hprefix
      exact (List.cons.inj hu).1
    subst hminus
    refine Or.inr ⟨rfl, ?_⟩
    exact Conn.Stands.shift (m := .nak tag) htaken (by simp)

theorem inv_readAck {s : Sys} {c : Conn} {which : Which} {again : Bool} {b : UInt8}
    (hphase : s.phase = .ack which again) (hc : s.conn = some (c.took 1)) {d : Due} {ms : List Message}
    {part : Bytes} (hfits : Fits s.op.id s.phase d ms part) (hstands : c.Stands d ms part)
    (hb : c.unread.take 1 = [b]) : Inv (s.readAck which again [b]) := by
  rw [hphase] at hfits
  cases hfits with
  | ack again hasked =>
    rcases asked_byte hasked hstands hb with ⟨rfl, d', ms', hcoming, hahead⟩ | ⟨rfl, hrest⟩
    · rw [Sys.readAck, if_neg (fun h => absurd h.1 (by decide)), if_pos rfl]
      cases which with
      | handshake =>
        refine Inv.of_sound (fun x hx => ?_) nofun nofun
        cases hc.symm.trans hx
        exact Or.inr ⟨d', ms', [], Fits.lead .handshake hcoming, hahead⟩
      | request =>
        refine Inv.of_sound (fun x hx => ?_) nofun nofun
        cases hc.symm.trans hx
        exact Or.inr ⟨d', ms', [], Fits.lead .reply hcoming, hahead⟩
    · have hsettled : s.Settled := by
        intro x hx
        cases hc.symm.trans hx
        exact Or.inr hrest
      rw [Sys.readAck]
      split
      · exact hsettled.sendPacket which true
      · rw [if_neg (by decide)]
        exact inv_raised (fun _ => hsettled) fun hplace => nomatch hplace

theorem inv_readLead {s : Sys} {c : Conn} {wait : Wait} {b : UInt8} (hphase : s.phase = .lead wait)
    (hc : s.conn = some (c.took 1)) {d : Due} {ms : List Message} {part : Bytes}
    (hfits : Fits s.op.id s.phase d ms part) (hstands : c.Stands d ms part)
    (hb : c.unread.take 1 = [b]) : Inv (s.readLead wait [b]) := by
  obtain ⟨htaken, hprefix⟩ := hstands.take 1
  rw [hb] at htaken hprefix
  rw [hphase] at hfits
  unfold Sys.readLead
  cases hfits with
  | lead wait hcoming =>
    cases hcoming with
    | owed => exact absurd (List.prefix_nil.mp hprefix) (by simp)
    | again => exact absurd (List.prefix_nil.mp hprefix) (by simp)
    | sent p =>
      have hdollar : b = dollar := by
        obtain ⟨u, hu⟩ := hprefix
        exact (List.cons.inj hu).1
      subst hdollar
      rw [if_pos rfl]
      refine Inv.of_sound (fun x hx => ?_) nofun nofun
      cases hc.symm.trans hx
      exact Or.inr ⟨_, _, _, Fits.body List.nil_prefix, htaken⟩
  | skip hspent =>
    -- the rest of a packet that was given up
    obtain ⟨rest, hrest, hplain⟩ := hspent
    obtain ⟨u, hu⟩ := hprefix
    have hboth : part ++ rest = part ++ b :: u := by
      rw [hrest, ← hu, List.append_assoc]
      rfl
    have hcut : rest = b :: u := List.append_cancel_left hboth
    have hskip : ¬ [b] = [dollar] := by
      intro heq
      cases heq
      exact hplain (by rw [hcut]; exact List.mem_cons_self ..)
    rw [if_neg hskip]
    refine Inv.of_sound (fun x hx => ?_) nofun nofun
    cases hc.symm.trans hx
    refine Or.inr ⟨_, _, _, Fits.skip ⟨u, hu, fun hmem => hplain ?_⟩, htaken⟩
    rw [hcut]
    exact List.mem_cons_of_mem _ hmem

theorem inv_readBody {s : Sys} {c : Conn} {wait : Wait} {buf : Bytes} {b : UInt8}
    (hphase : s.phase = .body wait buf) (hc : s.conn = some (c.took 1))
    (hok : maxPacket ≤ buf.length → b ≠ hash → s.op.job = .detach) {d : Due} {ms : List Message}
    {part : Bytes} (hfits : Fits s.op.id s.phase d ms part) (hstands : c.Stands d ms part)
    (hb : c.unread.take 1 = [b]) : Inv (s.readBody wait buf [b]) := by
  obtain ⟨htaken, hprefix⟩ := hstands.take 1
  rw [hb] at htaken hprefix
  rw [hphase] at hfits
  unfold Sys.readBody
  cases hfits with
  | body hbuf =>
    rw [wire_singleton] at hprefix
    rcases body_byte hbuf hprefix with ⟨rfl, rfl⟩ | ⟨hne, hlonger⟩
    · rw [if_pos rfl]
      refine Inv.of_sound (fun x hx => ?_) nofun nofun
      cases hc.symm.trans hx
      exact Or.inr ⟨_, _, _, Fits.sums wait _, htaken⟩
    · rw [if_neg fun heq => hne (List.cons.inj heq).1]
      split
      · rename_i hlarge
        refine inv_raised (fun hleaves => ?_) fun _ he => nomatch he
        have hdetach : s.op.job = .detach := by
          refine hok ?_ hne
          rw [List.length_append] at hlarge
          simp only [List.length_singleton] at hlarge
          omega
        unfold Sys.LeavesOpen at hleaves
        rw [hdetach] at hleaves
        exact hleaves.elim
      · refine Inv.of_sound (fun x hx => ?_) nofun nofun
        cases hc.symm.trans hx
        exact Or.inr ⟨_, _, _, Fits.body hlonger, htaken⟩

/-- The checksum has been read, and with it the whole packet. -/
theorem inv_readSums {s : Sys} {c : Conn} {wait : Wait} {buf : Bytes} {b₁ b₂ : UInt8}
    (hphase : s.phase = .sums wait buf) (hc : s.conn = some (c.took 2)) {d : Due} {ms : List Message}
    {part : Bytes} (hfits : Fits s.op.id s.phase d ms part) (hstands : c.Stands d ms part)
    (hb : c.unread.take 2 = [b₁, b₂]) : Inv (s.readSums wait buf [b₁, b₂]) := by
  obtain ⟨htaken, hprefix⟩ := hstands.take 2
  rw [hb] at htaken hprefix
  rw [hphase] at hfits
  cases hfits with
  | sums wait p =>
    have hwhole : dollar :: p.payload ++ [hash] ++ [b₁, b₂] = p.bytes := by
      rw [wire_singleton] at hprefix
      exact hprefix.eq_of_length (by simp [Packet.bytes, Message.bytes])
    rw [hwhole] at htaken
    have hrest : (c.took 2).Stands .nothing [] [] :=
      Conn.Stands.shift (m := .answer ⟨s.op.id, wait.which⟩ p)
        (by rw [Message.bytes, List.append_nil]; exact htaken) (by simp)
    have hsettled : s.Settled := by
      intro x hx
      cases hc.symm.trans hx
      exact Or.inr hrest
    unfold Sys.readSums
    dsimp only
    split
    · exact inv_raised (fun _ => hsettled) fun _ he => nomatch he
    · split
      · refine ⟨fun x hx => ?_, fun w v hp => ?_, nofun⟩
        · rw [Sys.write] at hx
          dsimp only at hx
          rw [hc] at hx
          cases hx
          exact Or.inr ⟨_, _, _, Fits.thanks wait _, hrest.put_idle rfl⟩
        · cases hp
          obtain ⟨before, rest, hsent, hconsumed, -⟩ := htaken.ahead
          have hread : s.Took wait.which p.payload :=
            ⟨c.took 2, before, p, [], hc, hsent, rfl, hconsumed⟩
          have hwritten : (s.write .plus).conn = some ((c.took 2).put .plus) := by
            rw [Sys.write, hc]
            rfl
          obtain ⟨hsame, hsame'⟩ := Conn.put_stream (c.took 2) .plus
          exact hread.congr hc hwritten rfl ⟨[], by rw [hsame, List.append_nil]⟩ hsame'
      · refine Inv.of_sound (fun x hx => ?_) nofun nofun
        rw [Sys.write] at hx
        dsimp only at hx
        rw [hc] at hx
        cases hx
        refine Or.inr ⟨_, _, _, Fits.refusal wait _ Coming.again, ?_⟩
        exact hrest.put_minus fun hopen => hstands.last hopen _ p rfl

/-! ## Runs -/

/-- What the host has read stays read while the stub and the network go on. -/
theorem Inv.congr {s s' : Sys} {c c' : Conn} (h : Inv s) (hc : s.conn = some c)
    (hc' : s'.conn = some c') (hop : s'.op = s.op) (hphase : s'.phase = s.phase)
    (hsent : ∃ more, c'.sent = c.sent ++ more) (hconsumed : c'.consumed = c.consumed)
    (hstands : c'.Dead ∨ ∃ d ms part, Fits s.op.id s.phase d ms part ∧ c'.Stands d ms part) :
    Inv s' := by
  refine ⟨fun x hx => ?_, fun wait buf hp => ?_, fun v hp => ?_⟩
  · cases hc'.symm.trans hx
    rw [hop, hphase]
    exact hstands
  · rw [hphase] at hp
    exact (h.thanks wait buf hp).congr hc hc' (by rw [hop]) hsent hconsumed
  · rw [hphase] at hp
    exact (h.correlated v hp).congr hc hc' (by rw [hop]) hsent hconsumed

theorem Inv.read {s s' : Sys} {event : ReadEvent} (h : Inv s) (hok : Clears s (.read event))
    (hstep : step s (.read event) = some s') : Inv s' := by
  rw [step] at hstep
  split at hstep
  · rename_i c n hc hawaits
    obtain ⟨r, hr, rfl⟩ := Option.map_eq_some_iff.mp hstep
    obtain ⟨c', r⟩ := r
    have hpos : 0 < n := by
      unfold Phase.awaits at hawaits
      split at hawaits <;> cases hawaits <;> decide
    rcases Conn.read_cases hpos hr with ⟨rfl, hlength, halive, rfl, rfl⟩ | ⟨rfl, rfl, rfl⟩ | ⟨hdead, e, rfl⟩
    · obtain ⟨d, ms, part, hfits, hstands⟩ := (h.sound c hc).resolve_left halive
      unfold Sys.readEnds
      cases hphase : s.phase with
      | ack which again =>
        rw [hphase] at hawaits hfits
        cases hawaits
        obtain ⟨b, hb⟩ := take_one hlength
        dsimp only
        rw [hb]
        exact inv_readAck (c := c) rfl rfl hfits hstands hb
      | lead wait =>
        rw [hphase] at hawaits hfits
        cases hawaits
        obtain ⟨b, hb⟩ := take_one hlength
        dsimp only
        rw [hb]
        exact inv_readLead (c := c) rfl rfl hfits hstands hb
      | body wait buf =>
        rw [hphase] at hawaits hfits
        cases hawaits
        obtain ⟨b, hb⟩ := take_one hlength
        dsimp only
        rw [hb]
        refine inv_readBody (c := c) rfl rfl (fun hlarge hne => ?_) hfits hstands hb
        have hhead : c.unread.head? = some b := by
          have htake : (c.unread.take 1).head? = c.unread.head? := by
            rw [List.head?_take]
            exact if_neg (by decide)
          rw [← htake, hb]
          rfl
        have hnext : ¬ c.unread.head? = some hash := by
          rw [hhead]
          exact fun heq => hne (Option.some.inj heq)
        unfold Clears strands at hok
        rw [hphase, hc] at hok
        by_contra hjob
        have hall : s.op.job ≠ .detach ∧ maxPacket ≤ buf.length ∧ c.unread.head? ≠ some hash :=
          ⟨hjob, hlarge, hnext⟩
        exact of_decide_eq_false hok hall
      | sums wait buf =>
        rw [hphase] at hawaits hfits
        cases hawaits
        obtain ⟨b₁, b₂, hb⟩ := take_two hlength
        dsimp only
        rw [hb]
        exact inv_readSums (c := c) rfl rfl hfits hstands hb
      | _ =>
        rw [hphase] at hawaits
        cases hawaits
    · have hsame : ({ s with conn := some c' } : Sys) = s := by
        rw [← hc]
      dsimp only
      rw [hsame]
      exact inv_read_timeout h hok hawaits
    · exact inv_read_fails (s := { s with conn := some c' }) rfl hdead hawaits e
  · cases hstep

theorem Inv.drain {s s' : Sys} {how : Drained} (h : Inv s) (hok : Clears s (.drained how))
    (hstep : step s (.drained how) = some s') : Inv s' := by
  rw [step] at hstep
  split at hstep
  · rename_i c hc
    obtain ⟨r, hr, hends⟩ := Option.bind_eq_some_iff.mp hstep
    cases how with
    | ok =>
      rw [Conn.drain] at hr
      split at hr
      · cases hr
        have hsame : ({ s with conn := some c } : Sys) = s := by
          rw [← hc]
        dsimp only at hends
        rw [hsame] at hends
        exact inv_drained h hok hends
      · cases hr
    | broken fault =>
      rw [Conn.drain] at hr
      split at hr
      · cases hr
        exact inv_drain_fails (s := { s with conn := some { c with broken := true } }) rfl (Or.inl rfl)
          fault.exn hends
      · cases hr
  · cases hstep

theorem Inv.step {s s' : Sys} {a : Label} (h : Inv s) (hok : Clears s a) (hstep : step s a = some s') :
    Inv s' := by
  cases a with
  | read event => exact h.read hok hstep
  | drained how => exact h.drain hok hstep
  | start job =>
    have hsettled : s.phase = .idle ∨ (∃ out, s.phase = .done out) → s.Settled := by
      refine fun hphase => h.sound.settled fun d ms part hfits => ?_
      rcases hphase with hphase | ⟨out, hphase⟩
      · rw [hphase] at hfits
        cases hfits
        exact ⟨rfl, rfl, rfl⟩
      · rw [hphase] at hfits
        cases hfits
        exact ⟨rfl, rfl, rfl⟩
    rw [Gdb.step] at hstep
    split at hstep
    · rename_i hphase
      cases hstep
      exact inv_start (hsettled (Or.inl hphase)) job
    · rename_i out hphase
      cases hstep
      exact inv_start (hsettled (Or.inr ⟨out, hphase⟩)) job
    · cases hstep
  | connected =>
    rw [Gdb.step] at hstep
    split at hstep
    · cases hstep
      refine Sys.Settled.sendPacket (fun c hc => ?_) .handshake false
      cases hc
      refine Or.inr ⟨rfl, fun _ => ⟨rfl, quiet_nil⟩, ⟨[], [], rfl, rfl, rfl, List.nil_prefix,
        fun _ => rfl⟩, fun _ tag p hget => ?_⟩
      cases hget
    · cases hstep
  | refused endpoint error =>
    rw [Gdb.step] at hstep
    split at hstep
    · rename_i hphase
      cases hstep
      refine Sys.Settled.finish (h.sound.settled fun d ms part hfits => ?_) nofun
      rw [hphase] at hfits
      cases hfits
    · cases hstep
  | cutoff =>
    rw [Gdb.step] at hstep
    split at hstep
    · rename_i wait hwait
      split at hstep
      · rename_i hbounds
        cases hstep
        refine inv_wait_timeout h hwait fun hjob hsame => ?_
        rw [hjob, hsame] at hbounds
        cases hbounds
      · cases hstep
    · cases hstep
  | closed =>
    rw [Gdb.step] at hstep
    split at hstep
    · rename_i after hphase
      cases hstep
      refine inv_afterClose (h.sound.settled fun d ms part hfits => ?_) after
      rw [hphase] at hfits
      cases hfits
    · cases hstep
  | cancel =>
    have hsettled : s.Settled := by
      refine h.sound.settled fun d ms part hfits => ?_
      unfold Clears strands at hok
      generalize s.phase = phase at hfits hok
      cases hfits with
      | idle => exact ⟨rfl, rfl, rfl⟩
      | done out => exact ⟨rfl, rfl, rfl⟩
      | thanks wait buf => exact ⟨rfl, rfl, rfl⟩
      | _ => cases hok
    rw [Gdb.step] at hstep
    split at hstep
    · cases hstep
    · cases hstep
    · cases hstep
      exact hsettled.finish nofun
  | stub move =>
    rw [Gdb.step] at hstep
    split at hstep
    · rename_i c hc
      obtain ⟨⟨c', tags⟩, hmove, rfl⟩ := Option.map_eq_some_iff.mp hstep
      obtain ⟨hsent, hconsumed, -⟩ := stub_stream hmove
      refine h.congr hc rfl rfl rfl hsent hconsumed ?_
      rcases h.sound c hc with hdead | ⟨d, ms, part, hfits, hstands⟩
      · exact Or.inl (hdead.stub hmove)
      · obtain ⟨d', ms', hnext, hstands'⟩ := hstands.stub hmove
        exact Or.inr ⟨d', ms', part, hfits.next hnext, hstands'⟩
    · cases hstep
  | late i move =>
    rw [Gdb.step] at hstep
    split at hstep
    · obtain ⟨r, -, rfl⟩ := Option.map_eq_some_iff.mp hstep
      exact ⟨h.sound, h.thanks, h.correlated⟩
    · cases hstep
  | lose kept delivered =>
    rw [Gdb.step] at hstep
    split at hstep
    · rename_i c hc
      split at hstep
      · cases hstep
      · cases hstep
        refine h.congr hc rfl rfl rfl ⟨[], (List.append_nil _).symm⟩ rfl ?_
        rcases h.sound c hc with hdead | ⟨d, ms, part, hfits, hstands⟩
        · exact Or.inl (hdead.lose kept delivered)
        · exact Or.inr ⟨d, ms, part, hfits, hstands.lose kept delivered⟩
    · cases hstep

/-- What `_exchange` returns is the stub's answer to its own packet, in every
run that strands nothing. -/
theorem replies_correlated {as : List Label} {s : Sys} (hok : Along step Clears init as)
    (hrun : run step init as = some s) : s.Correlated :=
  (run_invariant (fun _ _ _ hinv hmeets hstep => Inv.step hinv hmeets hstep) init_inv hok hrun).correlated

/-- The stub's packet with this payload. -/
def packet (payload : Bytes) (hplain : ∀ b ∈ payload, b ≠ dollar ∧ b ≠ hash) : Packet :=
  ⟨payload, (hexDigit (checksum payload / 16), hexDigit (checksum payload % 16)), hplain, by
    have hdigit : ∀ n < 16, hexDigit n ≠ dollar := by decide
    have hsum : checksum payload < 256 := Nat.mod_lt _ (by decide)
    exact ⟨hdigit _ (by omega), hdigit _ (by omega)⟩⟩

/-- The host reads an answer with a payload of `n` bytes and thanks for it. -/
def readPacket (n : Nat) : List Label := List.replicate (n + 3) (.read .ready) ++ [.drained .ok]

/-- A connection is made, and the stub answers the handshake with nothing. -/
def handshake : List Label :=
  [.connected, .drained .ok, .stub .accept, .read .ready,
    .stub (.answer (packet [] (by simp)))] ++ readPacket 0 ++ [.stub .skip]

/-- The stop reply `T05`, and registers. -/
def stopReply : Packet := packet (ascii "T05") (List.all_iff_forall_prop.mp rfl)

def registers : Packet := packet (ascii "00000001") (List.all_iff_forall_prop.mp rfl)

/-- `cont` interrupts the machine, and the registers are read after it. -/
def interruptedRun : List Label :=
  .start .cont :: handshake ++
    [.drained .ok, .stub .accept, .read .ready, .cutoff, .drained .ok, .stub .skip,
      .stub (.answer stopReply)] ++ readPacket 3 ++
    [.stub .skip, .start (.exchange (ascii "g") (ascii "5.0")), .drained .ok, .stub .accept,
      .read .ready, .stub (.answer registers)] ++ readPacket 8

theorem replies_correlated_sample : ∃ s, run step init interruptedRun = some s ∧
    s.phase = .done (.reply (ascii "00000001")) ∧ s.Correlated := by
  have hok : Along step Clears init interruptedRun := by decide +kernel
  have hdone : (run step init interruptedRun).any (fun s => match s.phase with
      | .done (.reply v) => v = ascii "00000001"
      | _ => false) = true := by
    decide +kernel
  obtain ⟨s, hrun, hphase⟩ := (Option.any_eq_true ..).mp hdone
  refine ⟨s, hrun, ?_, replies_correlated hok hrun⟩
  split at hphase
  · rename_i v hv
    rw [hv, of_decide_eq_true hphase]
  · cases hphase

/-- `cont` runs into its timeout behind the packet, and the stop reply comes
when the registers are asked for. -/
def staleRun : List Label :=
  .start .cont :: handshake ++
    [.drained .ok, .read .timeout, .start (.exchange (ascii "g") (ascii "5.0")), .drained .ok,
      .stub .accept, .stub (.answer stopReply), .read .ready] ++ readPacket 3

/-- The operation has ended with the stop reply, and nothing was answered to its request. -/
def tookStopReply (s : Sys) : Bool :=
  match s.phase, s.conn with
  | .done (.reply v), some c => v = ascii "T05" ∧ c.sent.all (fun m => match m with
      | .answer tag _ => tag ≠ ⟨s.op.id, .request⟩
      | _ => true) = true
  | _, _ => false

theorem stale_stop_reply : ∃ s, run step init staleRun = some s ∧
    s.phase = .done (.reply (ascii "T05")) ∧ ¬ s.Correlated := by
  have hdone : (run step init staleRun).any tookStopReply = true := by decide +kernel
  obtain ⟨s, hrun, hphase⟩ := (Option.any_eq_true ..).mp hdone
  unfold tookStopReply at hphase
  split at hphase
  · rename_i v c hv hc
    obtain ⟨rfl, hnone⟩ := of_decide_eq_true hphase
    refine ⟨s, hrun, hv, fun hcorrelated => ?_⟩
    obtain ⟨x, before, p, after, hx, hsent, -⟩ := hcorrelated _ hv
    cases hc.symm.trans hx
    have hanswer := List.all_eq_true.mp hnone (.answer ⟨s.op.id, .request⟩ p)
      (by rw [hsent]; exact List.mem_append_right _ (List.mem_cons_self ..))
    exact absurd rfl (of_decide_eq_true hanswer)
  · cases hphase

end AmigaFleet.Host.Gdb

import AmigaFleet.Host.GdbReplies

/-!
# At-most-once packets

A packet that the stub accepts is executed, so an operation must not send it
again where the stub has it already.  `_exchange` decides this by `sent`, which
is set when the ack has been read: a connection that fails between the packet
and its ack counts as a packet that the stub never received.

`Sys.heard` counts the copies of a packet that the stub has accepted or may
still accept.  `repeats` names the steps that send a packet again although it
has a copy; `packets_once` holds in every run without them, and
`stepped_twice` is a run in which the machine steps twice.
-/

namespace AmigaFleet.Host.Gdb

open AmigaFleet.Lib
open AmigaFleet.Mcpd (ascii)

/-! ## Copies -/

/-- The item is a packet with this tag. -/
def Item.carries (tag : Tag) : Item → Bool
  | .packet t _ => t = tag
  | _ => false

/-- The copies of a packet that are on their way to the stub. -/
def Conn.copies (c : Conn) (tag : Tag) : Nat := c.inbox.countP (Item.carries tag)

def Sys.heard (s : Sys) (tag : Tag) : Nat :=
  s.accepted.count tag + (s.conn.elim 0 fun c => c.copies tag) +
    (s.old.map fun c => c.copies tag).sum

/-- The packet of the current operation. -/
def Sys.tag (s : Sys) : Tag := ⟨s.op.id, .request⟩

/-- The stub accepts the packet of an operation once at most. -/
def Sys.AtMostOnce (s : Sys) : Prop := ∀ op, s.accepted.count ⟨op, .request⟩ ≤ 1

/-! ## The condition -/

def Job.isExchange : Job → Bool
  | .exchange _ _ => true
  | _ => false

/-- The stub has a copy of the packet, and it goes out again: on a new
connection, where the first attempt fails before the ack has been read, or
behind a byte that is taken for a nak. -/
def repeats (s : Sys) : Label → Bool
  | .drained (.broken (.other _)) =>
    match s.phase with
    | .drain .request _ => s.op.job.isExchange && s.op.attempt = 0 && 0 < s.heard s.tag
    | _ => false
  | .read .eof | .read (.broken (.other _)) =>
    match s.phase with
    | .ack .request _ => s.op.job.isExchange && s.op.attempt = 0 && 0 < s.heard s.tag
    | _ => false
  | .read .ready =>
    match s.phase, s.conn with
    | .ack .request false, some c => c.unread.head? = some minus ∧ 0 < s.heard s.tag
    | _, _ => false
  | _ => false

/-- The step repeats nothing. -/
def Unrepeated (s : Sys) (a : Label) : Prop := repeats s a = false

instance (s : Sys) (a : Label) : Decidable (Unrepeated s a) := inferInstanceAs (Decidable (_ = _))

/-! ## How the copies move -/

theorem copies_put_le (c : Conn) (item : Item) (tag : Tag) :
    (c.put item).copies tag ≤ c.copies tag + if item.carries tag = true then 1 else 0 := by
  unfold Conn.put
  split
  · exact Nat.le_add_right ..
  · show (c.inbox ++ [item]).countP _ ≤ _
    rw [List.countP_append, List.countP_singleton]
    exact Nat.le_refl _

theorem wholeItems_sublist (n : Nat) (items : List Item) : (wholeItems n items).Sublist items := by
  induction items generalizing n with
  | nil => exact List.Sublist.refl _
  | cons item items ih =>
    rw [wholeItems]
    split
    · exact (ih _).cons_cons item
    · exact List.nil_sublist _

theorem copies_lose_le (c : Conn) (kept delivered : Nat) (tag : Tag) :
    (c.lose kept delivered).copies tag ≤ c.copies tag :=
  (wholeItems_sublist delivered c.inbox).countP_le

/-- The stub takes a copy to accept it, or drops it. -/
theorem copies_stub_le {c c' : Conn} {move : StubMove} {tags : List Tag}
    (h : c.stub move = some (c', tags)) (tag : Tag) :
    tags.count tag + c'.copies tag ≤ c.copies tag := by
  have hsay : ∀ (x : Conn) (m : Message), (x.say m).copies tag = x.copies tag := by
    intro x m
    unfold Conn.say
    split <;> rfl
  rcases Conn.stub_cases h with ⟨t, payload, rest, hinbox, rfl, rfl⟩ |
    ⟨t, payload, rest, hinbox, rfl, rfl⟩ | ⟨item, rest, hinbox, -, rfl, rfl⟩ |
    ⟨t, p, q, rest, hinbox, -, rfl, rfl⟩ | ⟨t, p, rest, -, rfl, rfl⟩
  · rw [hsay]
    unfold Conn.copies
    rw [hinbox, List.countP_cons, List.count_singleton]
    simp only [Item.carries, beq_iff_eq, decide_eq_true_eq]
    omega
  · rw [hsay]
    unfold Conn.copies
    rw [hinbox, List.countP_cons, List.count_nil]
    dsimp only
    omega
  · unfold Conn.copies
    rw [hinbox, List.countP_cons, List.count_nil]
    dsimp only
    omega
  · rw [hsay]
    unfold Conn.copies
    rw [hinbox, List.countP_cons, List.count_nil]
    dsimp only
    omega
  · rw [hsay, List.count_nil, Nat.zero_add]
    exact Nat.le_refl _

/-! ### Copies of a transport -/

/-- Another state with the same copies at most. -/
def Sys.NoMore (s' s : Sys) : Prop := ∀ op, s'.heard ⟨op, .request⟩ ≤ s.heard ⟨op, .request⟩

theorem heard_write_le (s : Sys) (item : Item) (tag : Tag) :
    (s.write item).heard tag ≤ s.heard tag + if item.carries tag = true then 1 else 0 := by
  unfold Sys.heard Sys.write
  cases s.conn with
  | none => exact Nat.le_add_right ..
  | some c =>
    have hput := copies_put_le c item tag
    simp only [Option.map_some, Option.elim_some]
    omega

theorem heard_closeConn (s : Sys) (after : AfterClose) (tag : Tag) :
    (s.closeConn after).heard tag = s.heard tag := by
  unfold Sys.heard Sys.closeConn
  cases s.conn with
  | none => rfl
  | some c =>
    have hsame : ({ c with closed := true } : Conn).copies tag = c.copies tag := rfl
    simp only [Option.elim_none, Option.elim_some, Option.toList_some, List.map_cons, List.map_nil,
      List.cons_append, List.nil_append, List.sum_cons, hsame]
    omega

/-- The stub moves on a connection that the host has closed. -/
theorem sum_set_le {old : List Conn} {i : Nat} {c c' : Conn} {tags : List Tag} {tag : Tag}
    (hi : old[i]? = some c) (h : tags.count tag + c'.copies tag ≤ c.copies tag) :
    tags.count tag + ((old.set i c').map fun c => c.copies tag).sum ≤
      (old.map fun c => c.copies tag).sum := by
  induction old generalizing i with
  | nil => cases hi
  | cons x old ih =>
    cases i with
    | zero =>
      cases hi
      simp only [List.set_cons_zero, List.map_cons, List.sum_cons]
      omega
    | succ i =>
      have hrest := ih hi
      simp only [List.set_cons_succ, List.map_cons, List.sum_cons]
      omega

/-! ## The invariant -/

/-- The packet of the current attempt has not gone out. -/
def Phase.Unsent : Phase → Prop
  | .connecting | .closing .retry => True
  | .drain which _ | .ack which _ => which = .handshake
  | .lead wait | .body wait _ | .sums wait _ | .thanks wait _ | .refusal wait _ => wait = .handshake
  | _ => False

/-- The packet of the current attempt has its ack. -/
def Phase.Waits : Phase → Prop
  | .lead wait | .body wait _ | .sums wait _ | .thanks wait _ | .refusal wait _ => wait ≠ .handshake
  | .interrupt => True
  | _ => False

structure Once (s : Sys) : Prop where
  bound : ∀ op, s.heard ⟨op, .request⟩ ≤ 1
  future : ∀ op, s.op.id < op → s.heard ⟨op, .request⟩ = 0
  unsent : s.phase.Unsent → s.heard s.tag = 0
  sent : s.phase.Waits → s.op.sent = true

theorem init_once : Once init :=
  ⟨fun _ => Nat.zero_le 1, fun _ _ => rfl, fun _ => rfl, fun h => h.elim⟩

theorem Sys.NoMore.refl (s : Sys) : s.NoMore s := fun _ => Nat.le_refl _

/-- No copy more, and the same operation. -/
theorem Once.of_noMore {s s' : Sys} (h : Once s) (hless : s'.NoMore s) (hid : s'.op.id = s.op.id)
    (hunsent : s'.phase.Unsent → s.heard s.tag = 0) (hsent : s'.phase.Waits → s'.op.sent = true) :
    Once s' := by
  refine ⟨fun op => Nat.le_trans (hless op) (h.bound op), fun op hop => ?_, fun hphase => ?_, hsent⟩
  · rw [hid] at hop
    have hle := hless op
    rw [h.future op hop] at hle
    exact Nat.le_zero.mp hle
  · have hle := hless s'.op.id
    rw [hid] at hle
    have hzero : s.heard ⟨s.op.id, .request⟩ = 0 := hunsent hphase
    rw [hzero] at hle
    show s'.heard ⟨s'.op.id, .request⟩ = 0
    rw [hid]
    exact Nat.le_zero.mp hle

/-- The packet of an operation goes out where the stub has no copy of it. -/
theorem Once.sendRequest {s : Sys} (h : Once s) (hnone : s.heard s.tag = 0) (again : Bool) :
    Once (s.sendPacket .request again) := by
  have hle : ∀ op, (s.sendPacket .request again).heard ⟨op, .request⟩ ≤
      s.heard ⟨op, .request⟩ + if op = s.op.id then 1 else 0 := by
    intro op
    have hwrite := heard_write_le s (.packet ⟨s.op.id, .request⟩ (s.payload .request)) ⟨op, .request⟩
    have hcarries : (Item.packet ⟨s.op.id, .request⟩ (s.payload .request)).carries ⟨op, .request⟩ =
        decide (op = s.op.id) := by
      simp only [Item.carries, Tag.mk.injEq, and_true]
      exact decide_eq_decide.mpr eq_comm
    rw [hcarries] at hwrite
    simp only [decide_eq_true_eq] at hwrite
    exact hwrite
  have hsame : (s.sendPacket .request again).op.id = s.op.id := rfl
  have hgone : ¬ (s.sendPacket .request again).phase.Unsent := by
    show ¬ Which.request = .handshake
    decide
  refine ⟨fun op => ?_, fun op hop => ?_, fun hphase => absurd hphase hgone, fun hphase => hphase.elim⟩
  · by_cases hop : op = s.op.id
    · subst hop
      have hcurrent := hle s.op.id
      have hzero : s.heard ⟨s.op.id, .request⟩ = 0 := hnone
      rw [hzero, if_pos rfl] at hcurrent
      exact hcurrent
    · have hother := hle op
      rw [if_neg hop] at hother
      exact Nat.le_trans hother (h.bound op)
  · rw [hsame] at hop
    have hother := hle op
    rw [if_neg (Nat.ne_of_gt hop), h.future op hop] at hother
    exact Nat.le_zero.mp hother

theorem noMore_write {s : Sys} {item : Item} (h : ∀ op, item.carries ⟨op, .request⟩ = false) :
    (s.write item).NoMore s := by
  intro op
  have hle := heard_write_le s item ⟨op, .request⟩
  rw [h op] at hle
  exact hle

theorem Once.sendHandshake {s : Sys} (h : Once s) (hnone : s.heard s.tag = 0) (again : Bool) :
    Once (s.sendPacket .handshake again) := by
  have hless : (s.write (.packet ⟨s.op.id, .handshake⟩ (s.payload .handshake))).NoMore s := by
    apply noMore_write
    intro op
    simp [Item.carries]
  exact h.of_noMore (fun op => hless op) rfl (fun _ => hnone) fun hphase => hphase.elim

theorem Once.closeConn {s : Sys} (h : Once s) {after : AfterClose}
    (hretry : after = .retry → s.heard s.tag = 0) : Once (s.closeConn after) := by
  refine h.of_noMore (fun op => Nat.le_of_eq (heard_closeConn s after _)) rfl (fun hphase => ?_)
    fun hphase => hphase.elim
  cases after with
  | retry => exact hretry rfl
  | fail e => exact hphase.elim
  | finished => exact hphase.elim

theorem Once.finish {s : Sys} (h : Once s) (out : Outcome) : Once (s.finish out) :=
  h.of_noMore (Sys.NoMore.refl s) rfl (fun hphase => hphase.elim) fun hphase => hphase.elim

theorem Once.ensureConnected {s : Sys} (h : Once s) (hnone : s.heard s.tag = 0) :
    Once s.ensureConnected := by
  unfold Sys.ensureConnected
  split
  · exact h.sendRequest hnone false
  · exact h.of_noMore (Sys.NoMore.refl s) rfl (fun _ => hnone) fun hphase => hphase.elim

/-- An exception is no reason to send a packet again of which the stub has a
copy. -/
theorem Once.raised {s : Sys} {place : Place} {e : Exn} (h : Once s)
    (hretry : ∀ description, e = .io description → s.op.job.isExchange = true → s.op.attempt = 0 →
      s.op.sent = false → s.heard s.tag = 0)
    (hsent : place = .waiting .reply → s.op.sent = true) : Once (s.raised place e) := by
  unfold Sys.raised
  cases hjob : s.op.job with
  | exchange payload timeoutText =>
    cases e with
    | timeout => exact h.closeConn fun heq => nomatch heq
    | io description =>
      dsimp only
      split
      · rename_i hagain
        exact h.closeConn fun _ => hretry description rfl (by rw [hjob]; rfl) hagain.1 hagain.2
      · exact h.closeConn fun heq => nomatch heq
    | jsonRpc e => exact h.finish _
    | valueError => exact h.finish _
    | cancelled => exact h.finish _
  | cont =>
    dsimp only
    split
    · have hless : (s.write .interrupt).NoMore s := noMore_write fun _ => rfl
      exact h.of_noMore (fun op => hless op) rfl (fun hphase => hphase.elim) fun _ => hsent rfl
    · exact h.closeConn fun heq => nomatch heq
    · exact h.finish _
  | detach => exact h.closeConn fun heq => nomatch heq
  | close => exact h.closeConn fun heq => nomatch heq

/-! ### The steps -/

theorem Once.start {s : Sys} (h : Once s) (job : Job) : Once (s.start job) := by
  have hfresh : s.heard ⟨s.op.id + 1, .request⟩ = 0 := h.future _ (Nat.lt_succ_self _)
  have hbegun : ∀ phase, ¬ phase.Unsent → ¬ phase.Waits →
      Once { s with op := { id := s.op.id + 1, job := job }, phase := phase } := by
    intro phase hunsent hwaits
    exact ⟨h.bound, fun op hop => h.future op (Nat.lt_of_succ_lt hop), fun hp => absurd hp hunsent,
      fun hp => absurd hp hwaits⟩
  -- the phase that is left is that of the operation before
  have hidle := hbegun .idle id id
  unfold Sys.start
  dsimp only
  split
  · exact hidle.ensureConnected hfresh
  · exact hidle.ensureConnected hfresh
  · exact hidle.sendRequest hfresh false
  · exact hidle.closeConn fun heq => nomatch heq
  · exact hidle.finish _

theorem Once.afterClose {s : Sys} {after : AfterClose} (h : Once s) (hphase : s.phase = .closing after) :
    Once (s.afterClose after) := by
  cases after with
  | retry =>
    have hnone : s.heard s.tag = 0 := h.unsent (by rw [hphase]; trivial)
    have hagain : Once { s with op := { s.op with attempt := 1, sent := false } } := by
      refine h.of_noMore (Sys.NoMore.refl s) rfl (fun _ => hnone) fun hwaits => ?_
      rw [hphase] at hwaits
      exact hwaits.elim
    exact hagain.ensureConnected hnone
  | fail e => exact h.finish _
  | finished => exact h.finish _

/-- An exception in `_recv`: either no packet is out, or it has its ack. -/
theorem Once.raised_waiting {s : Sys} {wait : Wait} (h : Once s) (hwait : s.phase.wait = some wait)
    (e : Exn) : Once (s.raised (.waiting wait) e) := by
  have hunsent : wait = .handshake → s.phase.Unsent := by
    intro hhandshake
    cases hphase : s.phase with
    | lead w | body w _ | sums w _ | thanks w _ | refusal w _ =>
      rw [hphase] at hwait
      cases hwait
      exact hhandshake
    | _ =>
      rw [hphase] at hwait
      cases hwait
  have hwaits : wait ≠ .handshake → s.op.sent = true := by
    intro hreply
    refine h.sent ?_
    cases hphase : s.phase with
    | lead w | body w _ | sums w _ | thanks w _ | refusal w _ =>
      rw [hphase] at hwait
      cases hwait
      exact hreply
    | _ =>
      rw [hphase] at hwait
      cases hwait
  refine h.raised (fun description _ _ _ hsent => ?_) fun hplace => ?_
  · by_cases hhandshake : wait = .handshake
    · exact h.unsent (hunsent hhandshake)
    · rw [hwaits hhandshake] at hsent
      cases hsent
  · cases hplace
    exact hwaits (by decide)

theorem Once.received {s : Sys} {wait : Wait} {buf : Bytes} (h : Once s)
    (hphase : s.phase = .thanks wait buf) : Once (s.received buf wait) := by
  cases wait with
  | handshake => exact h.sendRequest (h.unsent (by rw [hphase]; rfl)) false
  | interrupted => exact h.finish _
  | reply =>
    unfold Sys.received
    dsimp only
    split
    · exact h.finish _
    · exact h.finish _
    · exact h.closeConn fun heq => nomatch heq
    · exact h.closeConn fun heq => nomatch heq

/-- A phase of the same wait. -/
theorem Once.goesOn {s s' : Sys} (wait : Wait) (h : Once s) (hwait : s.phase.wait = some wait)
    (hless : s'.NoMore s) (hop : s'.op = s.op) (hwait' : s'.phase.wait = some wait) : Once s' := by
  have hkind : ∀ {phase : Phase}, phase.wait = some wait →
      (phase.Unsent ↔ wait = .handshake) ∧ (phase.Waits ↔ wait ≠ .handshake) := by
    intro phase hphase
    cases phase with
    | lead w | body w _ | sums w _ | thanks w _ | refusal w _ =>
      cases hphase
      exact ⟨Iff.rfl, Iff.rfl⟩
    | _ => cases hphase
  refine h.of_noMore hless (by rw [hop]) (fun hunsent => h.unsent ?_) fun hwaits => ?_
  · exact (hkind hwait).1.mpr ((hkind hwait').1.mp hunsent)
  · rw [hop]
    exact h.sent ((hkind hwait).2.mpr ((hkind hwait').2.mp hwaits))

/-- An exception in `_send`. -/
theorem Once.raised_sending {s : Sys} {which : Which} {again : Bool} (h : Once s)
    (hphase : s.phase = .drain which again ∨ s.phase = .ack which again) {e : Exn}
    (hok : which = .request → ∀ description, e = .io description → s.op.job.isExchange = true →
      s.op.attempt = 0 → s.heard s.tag = 0) : Once (s.raised (.sending which) e) := by
  refine h.raised (fun description he hjob hattempt _ => ?_) fun hplace => nomatch hplace
  cases which with
  | request => exact hok rfl description he hjob hattempt
  | handshake =>
    refine h.unsent ?_
    rcases hphase with hphase | hphase
    · rw [hphase]
      exact rfl
    · rw [hphase]
      exact rfl

/-- The same inbox on the connection of the host. -/
theorem heard_conn {s : Sys} {c c' : Conn} (hc : s.conn = some c) (hinbox : c'.inbox = c.inbox)
    (tag : Tag) : ({ s with conn := some c' } : Sys).heard tag = s.heard tag := by
  unfold Sys.heard Conn.copies
  simp only [hc, Option.elim_some, hinbox]

theorem Once.conn {s : Sys} {c c' : Conn} (h : Once s) (hc : s.conn = some c)
    (hinbox : c'.inbox = c.inbox) : Once { s with conn := some c' } :=
  h.of_noMore (fun _ => Nat.le_of_eq (heard_conn hc hinbox _)) rfl h.unsent h.sent

theorem Once.readAck {s : Sys} {which : Which} {again : Bool} (h : Once s)
    (hphase : s.phase = .ack which again) (bytes : Bytes)
    (hok : bytes = [minus] → again = false → which = .request → s.heard s.tag = 0) :
    Once (s.readAck which again bytes) := by
  unfold Sys.readAck
  split
  · rename_i b
    split
    · rename_i hnak
      obtain ⟨rfl, rfl⟩ := hnak
      cases which with
      | request => exact h.sendRequest (hok rfl rfl rfl) true
      | handshake => exact h.sendHandshake (h.unsent (by rw [hphase]; rfl)) true
    · split
      · cases which with
        | handshake =>
          refine h.of_noMore (Sys.NoMore.refl s) rfl (fun _ => h.unsent (by rw [hphase]; rfl)) ?_
          exact fun hwaits => absurd rfl hwaits
        | request =>
          have hwaits : ¬ Phase.Unsent (.lead .reply) := by
            show ¬ Wait.reply = .handshake
            decide
          exact h.of_noMore (Sys.NoMore.refl s) rfl (fun hunsent => absurd hunsent hwaits) fun _ => rfl
      · exact h.raised_sending (Or.inr hphase) fun _ _ he => nomatch he
  · exact h

theorem Once.readSums {s : Sys} {wait : Wait} {buf bytes : Bytes} (h : Once s)
    (hphase : s.phase = .sums wait buf) : Once (s.readSums wait buf bytes) := by
  have hwait : s.phase.wait = some wait := by
    rw [hphase]
    rfl
  unfold Sys.readSums
  split
  · split
    · exact h.raised_waiting hwait _
    · split
      · have hless : (s.write .plus).NoMore s := noMore_write fun _ => rfl
        exact h.goesOn wait hwait (fun op => hless op) rfl rfl
      · have hless : (s.write .minus).NoMore s := noMore_write fun _ => rfl
        exact h.goesOn wait hwait (fun op => hless op) rfl rfl
  · exact h

/-- A read of the ack that fails with the packet in the hands of the stub is
excluded, where the packet would go out again. -/
theorem unheard_of_fails {s : Sys} {c c' : Conn} {again : Bool} {event : ReadEvent}
    {description : Bytes} (hok : Unrepeated s (.read event)) (hphase : s.phase = .ack .request again)
    (hread : c.read 1 event = some (c', .error (.io description)))
    (hjob : s.op.job.isExchange = true) (hattempt : s.op.attempt = 0) : s.heard s.tag = 0 := by
  unfold Unrepeated repeats at hok
  rw [hphase] at hok
  refine Nat.eq_zero_of_not_pos ?_
  cases event with
  | ready =>
    rw [Conn.read] at hread
    split at hread <;> cases hread
  | timeout => cases hread
  | eof => simpa [hjob, hattempt] using hok
  | broken fault =>
    cases fault with
    | timedOut =>
      rw [Conn.read] at hread
      split at hread <;> cases hread
    | other d => simpa [hjob, hattempt] using hok

/-- So is a nak that the stub has not sent for this packet. -/
theorem unheard_of_nak {s : Sys} {c c' : Conn} {event : ReadEvent} (hok : Unrepeated s (.read event))
    (hphase : s.phase = .ack .request false) (hc : s.conn = some c)
    (hread : c.read 1 event = some (c', .ok [minus])) : s.heard s.tag = 0 := by
  unfold Unrepeated repeats at hok
  rw [hphase] at hok
  refine Nat.eq_zero_of_not_pos ?_
  cases event with
  | ready =>
    rw [Conn.read] at hread
    split at hread
    · injection hread with hpair
      injection hpair with _ htake
      injection htake with htake
      have hhead : c.unread.head? = some minus := by
        have hboth : (c.unread.take 1).head? = c.unread.head? := by
          rw [List.head?_take]
          exact if_neg (by decide)
        rw [← hboth, htake]
        rfl
      simp only [hc, hhead, true_and] at hok
      exact of_decide_eq_false hok
    · cases hread
  | timeout => cases hread
  | eof =>
    rw [Conn.read] at hread
    split at hread <;> cases hread
  | broken fault =>
    rw [Conn.read] at hread
    split at hread <;> cases hread

theorem read_inbox {c c' : Conn} {n : Nat} {event : ReadEvent} {r : Except Exn Bytes}
    (h : c.read n event = some (c', r)) : c'.inbox = c.inbox := by
  cases event <;> (rw [Conn.read] at h; try split at h) <;> cases h <;> rfl

theorem Once.read {s s' : Sys} {event : ReadEvent} (h : Once s) (hok : Unrepeated s (.read event))
    (hstep : step s (.read event) = some s') : Once s' := by
  rw [step] at hstep
  split at hstep
  · rename_i c n hc hawaits
    obtain ⟨⟨c', r⟩, hr, rfl⟩ := Option.map_eq_some_iff.mp hstep
    have hinbox := read_inbox hr
    have hconn := h.conn hc hinbox
    have hheard := heard_conn hc hinbox s.tag
    cases hphase : s.phase with
    | ack which again =>
      rw [hphase] at hawaits hconn
      cases hawaits
      cases r with
      | error e =>
        refine Once.raised_sending hconn (Or.inr rfl) fun hwhich description he hjob hattempt => ?_
        subst hwhich he
        exact hheard.trans (unheard_of_fails hok hphase hr hjob hattempt)
      | ok bytes =>
        refine Once.readAck hconn rfl bytes fun hbytes hagain hwhich => ?_
        subst hbytes hagain hwhich
        exact hheard.trans (unheard_of_nak hok hphase hc hr)
    | lead wait =>
      rw [hphase] at hconn
      cases r with
      | error e => exact hconn.raised_waiting rfl e
      | ok bytes =>
        refine Once.goesOn wait hconn rfl (Sys.NoMore.refl _) rfl ?_
        dsimp only [Sys.readEnds, Sys.readLead]
        split <;> rfl
    | body wait buf =>
      rw [hphase] at hconn
      cases r with
      | error e => exact hconn.raised_waiting rfl e
      | ok bytes =>
        dsimp only [Sys.readEnds]
        unfold Sys.readBody
        split
        · exact Once.goesOn wait hconn rfl (Sys.NoMore.refl _) rfl rfl
        · split
          · exact hconn.raised_waiting rfl _
          · exact Once.goesOn wait hconn rfl (Sys.NoMore.refl _) rfl rfl
    | sums wait buf =>
      rw [hphase] at hconn
      cases r with
      | error e => exact hconn.raised_waiting rfl e
      | ok bytes => exact hconn.readSums rfl
    | _ =>
      rw [hphase] at hawaits
      cases hawaits
  · cases hstep

/-- A drain that fails with the packet in the hands of the stub is excluded as
well. -/
theorem unheard_of_drain {s : Sys} {again : Bool} {fault : Fault} {description : Bytes}
    (hok : Unrepeated s (.drained (.broken fault))) (hphase : s.phase = .drain .request again)
    (he : fault.exn = .io description) (hjob : s.op.job.isExchange = true)
    (hattempt : s.op.attempt = 0) : s.heard s.tag = 0 := by
  unfold Unrepeated repeats at hok
  rw [hphase] at hok
  refine Nat.eq_zero_of_not_pos ?_
  cases fault with
  | timedOut => cases he
  | other d => simpa [hjob, hattempt] using hok

/-- A drain has ended without an exception. -/
theorem Once.drained {s s' : Sys} (h : Once s) (hstep : s.drainEnds none = some s') : Once s' := by
  unfold Sys.drainEnds at hstep
  cases hphase : s.phase with
  | drain which again =>
    rw [hphase] at hstep
    cases hstep
    refine h.of_noMore (Sys.NoMore.refl s) rfl (fun hunsent => h.unsent ?_) fun hwaits => hwaits.elim
    rw [hphase]
    exact hunsent
  | thanks wait buf =>
    rw [hphase] at hstep
    cases hstep
    exact h.received hphase
  | refusal wait error =>
    rw [hphase] at hstep
    cases hstep
    exact h.raised_waiting (by rw [hphase]; rfl) _
  | interrupt =>
    rw [hphase] at hstep
    cases hstep
    have hreply : ¬ Phase.Unsent (.lead .interrupted) := by
      show ¬ Wait.interrupted = .handshake
      decide
    exact h.of_noMore (Sys.NoMore.refl s) rfl (fun hunsent => absurd hunsent hreply) fun _ =>
      h.sent (by rw [hphase]; trivial)
  | _ =>
    rw [hphase] at hstep
    cases hstep

/-- A drain has failed. -/
theorem Once.drain_fails {s s' : Sys} {e : Exn} (h : Once s)
    (hok : ∀ again, s.phase = .drain .request again → ∀ description, e = .io description →
      s.op.job.isExchange = true → s.op.attempt = 0 → s.heard s.tag = 0)
    (hstep : s.drainEnds (some e) = some s') : Once s' := by
  unfold Sys.drainEnds at hstep
  cases hphase : s.phase with
  | drain which again =>
    rw [hphase] at hstep
    cases hstep
    refine h.raised_sending (Or.inl hphase) fun hwhich => ?_
    subst hwhich
    exact hok again hphase
  | thanks wait buf =>
    rw [hphase] at hstep
    cases hstep
    exact h.raised_waiting (by rw [hphase]; rfl) _
  | refusal wait error =>
    rw [hphase] at hstep
    cases hstep
    exact h.raised_waiting (by rw [hphase]; rfl) _
  | interrupt =>
    rw [hphase] at hstep
    cases hstep
    have hsent : s.op.sent = true := h.sent (by rw [hphase]; trivial)
    refine h.raised (fun _ _ _ _ hnot => ?_) fun hplace => nomatch hplace
    rw [hsent] at hnot
    cases hnot
  | _ =>
    rw [hphase] at hstep
    cases hstep

theorem Once.drain {s s' : Sys} {how : Drained} (h : Once s) (hok : Unrepeated s (.drained how))
    (hstep : step s (.drained how) = some s') : Once s' := by
  rw [step] at hstep
  split at hstep
  · rename_i c hc
    obtain ⟨⟨c', e⟩, hr, hends⟩ := Option.bind_eq_some_iff.mp hstep
    cases how with
    | ok =>
      rw [Conn.drain] at hr
      split at hr
      · cases hr
        exact (h.conn hc rfl).drained hends
      · cases hr
    | broken fault =>
      rw [Conn.drain] at hr
      split at hr
      · cases hr
        have hinbox : ({ c with broken := true } : Conn).inbox = c.inbox := rfl
        refine Once.drain_fails (h.conn hc hinbox) ?_ hends
        intro again hphase description he hjob hattempt
        have hheard := heard_conn hc hinbox s.tag
        exact hheard.trans (unheard_of_drain hok hphase he hjob hattempt)
      · cases hr
  · cases hstep

/-- A new connection has no copy of anything. -/
theorem Once.connected {s : Sys} (h : Once s) (hphase : s.phase = .connecting) :
    Once (({ s with conn := some {} } : Sys).sendPacket .handshake false) := by
  have hless : ({ s with conn := some {} } : Sys).NoMore s := by
    intro op
    exact Nat.add_le_add_right (Nat.add_le_add_left (Nat.zero_le _) _) _
  have hnone : s.heard s.tag = 0 := h.unsent (by rw [hphase]; trivial)
  have hfresh : ({ s with conn := some {} } : Sys).heard s.tag = 0 := by
    have hle := hless s.op.id
    have hzero : s.heard ⟨s.op.id, .request⟩ = 0 := hnone
    rw [hzero] at hle
    exact Nat.le_zero.mp hle
  exact (h.of_noMore hless rfl h.unsent h.sent).sendHandshake hfresh false

/-- The stub accepts copies that are counted already. -/
theorem Once.stub {s : Sys} {c c' : Conn} {move : StubMove} {tags : List Tag} (h : Once s)
    (hc : s.conn = some c) (hmove : c.stub move = some (c', tags)) :
    Once { s with conn := some c', accepted := s.accepted ++ tags } := by
  refine h.of_noMore (fun op => ?_) rfl h.unsent h.sent
  have hle := copies_stub_le hmove ⟨op, .request⟩
  unfold Sys.heard
  rw [hc, List.count_append]
  simp only [Option.elim_some]
  omega

theorem Once.late {s : Sys} {i : Nat} {c c' : Conn} {move : StubMove} {tags : List Tag} (h : Once s)
    (hi : s.old[i]? = some c) (hmove : c.stub move = some (c', tags)) :
    Once { s with old := s.old.set i c', accepted := s.accepted ++ tags } := by
  refine h.of_noMore (fun op => ?_) rfl h.unsent h.sent
  have hle := sum_set_le hi (copies_stub_le hmove ⟨op, .request⟩)
  unfold Sys.heard
  rw [List.count_append]
  dsimp only
  omega

theorem Once.lose {s : Sys} {c : Conn} (h : Once s) (hc : s.conn = some c) (kept delivered : Nat) :
    Once { s with conn := some (c.lose kept delivered) } := by
  refine h.of_noMore (fun op => ?_) rfl h.unsent h.sent
  have hle := copies_lose_le c kept delivered ⟨op, .request⟩
  unfold Sys.heard
  rw [hc]
  simp only [Option.elim_some]
  omega

theorem Once.step {s s' : Sys} {a : Label} (h : Once s) (hok : Unrepeated s a)
    (hstep : step s a = some s') : Once s' := by
  cases a with
  | read event => exact h.read hok hstep
  | drained how => exact h.drain hok hstep
  | start job =>
    rw [Gdb.step] at hstep
    split at hstep
    · cases hstep
      exact h.start job
    · cases hstep
      exact h.start job
    · cases hstep
  | connected =>
    rw [Gdb.step] at hstep
    split at hstep
    · rename_i hphase
      cases hstep
      exact h.connected hphase
    · cases hstep
  | refused endpoint error =>
    rw [Gdb.step] at hstep
    split at hstep
    · cases hstep
      exact h.finish _
    · cases hstep
  | cutoff =>
    rw [Gdb.step] at hstep
    split at hstep
    · rename_i wait hwait
      split at hstep
      · cases hstep
        exact h.raised_waiting hwait _
      · cases hstep
    · cases hstep
  | closed =>
    rw [Gdb.step] at hstep
    split at hstep
    · rename_i after hphase
      cases hstep
      exact h.afterClose hphase
    · cases hstep
  | cancel =>
    rw [Gdb.step] at hstep
    split at hstep
    · cases hstep
    · cases hstep
    · cases hstep
      exact h.finish _
  | stub move =>
    rw [Gdb.step] at hstep
    split at hstep
    · rename_i c hc
      obtain ⟨⟨c', tags⟩, hmove, rfl⟩ := Option.map_eq_some_iff.mp hstep
      exact h.stub hc hmove
    · cases hstep
  | late i move =>
    rw [Gdb.step] at hstep
    split at hstep
    · rename_i c hi
      obtain ⟨⟨c', tags⟩, hmove, rfl⟩ := Option.map_eq_some_iff.mp hstep
      exact h.late hi hmove
    · cases hstep
  | lose kept delivered =>
    rw [Gdb.step] at hstep
    split at hstep
    · rename_i c hc
      split at hstep
      · cases hstep
      · cases hstep
        exact h.lose hc kept delivered
    · cases hstep

/-- What the stub has accepted is among the copies. -/
theorem Once.atMostOnce {s : Sys} (h : Once s) : s.AtMostOnce := by
  intro op
  refine Nat.le_trans ?_ (h.bound op)
  unfold Sys.heard
  omega

/-- The stub accepts the packet of an operation once at most, in every run that
sends no packet again of which the stub has a copy. -/
theorem packets_once {as : List Label} {s : Sys} (hok : Along step Unrepeated init as)
    (hrun : run step init as = some s) : s.AtMostOnce :=
  (run_invariant (fun _ _ _ hinv hmeets hstep => Once.step hinv hmeets hstep) init_once hok
    hrun).atMostOnce

/-- A step.  The stub refuses the packet and accepts it the second time; the
connection fails before the reply. -/
def steppedRun : List Label :=
  .start (.exchange (ascii "s") (ascii "5.0")) :: handshake ++
    [.drained .ok, .stub .reject, .read .ready, .drained .ok, .stub .accept, .read .ready, .lose 0 0,
      .read .eof, .closed]

theorem packets_once_sample : ∃ s, run step init steppedRun = some s ∧
    s.accepted.count ⟨1, .request⟩ = 1 ∧ s.AtMostOnce := by
  have hok : Along step Unrepeated init steppedRun := by decide +kernel
  have hdone : (run step init steppedRun).any
      (fun s => s.accepted.count ⟨1, .request⟩ = 1) = true := by
    decide +kernel
  obtain ⟨s, hrun, hcount⟩ := (Option.any_eq_true ..).mp hdone
  exact ⟨s, hrun, of_decide_eq_true hcount, packets_once hok hrun⟩

/-- The stub has accepted the step, and the connection fails before its ack has
been read. -/
def steppedTwiceRun : List Label :=
  .start (.exchange (ascii "s") (ascii "5.0")) :: handshake ++
    [.drained .ok, .stub .accept, .lose 0 0, .read .eof, .closed] ++ handshake ++
    [.drained .ok, .stub .accept]

theorem stepped_twice : ∃ s, run step init steppedTwiceRun = some s ∧
    s.op.id = 1 ∧ s.accepted.count ⟨1, .request⟩ = 2 ∧ ¬ s.AtMostOnce := by
  have hdone : (run step init steppedTwiceRun).any
      (fun s => s.op.id = 1 ∧ s.accepted.count ⟨1, .request⟩ = 2) = true := by
    decide +kernel
  obtain ⟨s, hrun, htwice⟩ := (Option.any_eq_true ..).mp hdone
  obtain ⟨hop, hcount⟩ := of_decide_eq_true htwice
  refine ⟨s, hrun, hop, hcount, fun honce => ?_⟩
  have hle := honce 1
  omega

end AmigaFleet.Host.Gdb

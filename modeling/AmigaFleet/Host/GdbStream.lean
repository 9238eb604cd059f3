import AmigaFleet.Host.Gdb

/-!
# The stream of a GDB connection

`Conn.Stands` says where a connection stands: what the stub is still to do
(`Due`), the messages that are ahead in the stream, and how much of the first
of them the host has read.  The stub moves it on by `Next` (`Conn.Stands.stub`),
a read takes bytes that are ahead (`Conn.Stands.take`), and a write gives the
stub something to do.  Nothing is read off a connection that is `Dead`.
-/

namespace AmigaFleet.Host.Gdb

open AmigaFleet.Lib

/-! ## Where a connection stands -/

/-- Nothing in the inbox asks the stub for a message. -/
def Quiet (items : List Item) : Prop := ∀ i ∈ items, i.idle = true

/-- What the stub is still to do. -/
inductive Due where
  | nothing
  | packet (tag : Tag)
  | answer (tag : Tag)
  | again (tag : Tag)

def Conn.Owes (c : Conn) : Due → Prop
  | .nothing => c.owed = [] ∧ Quiet c.inbox
  | .packet tag => c.owed = [] ∧ ∃ q payload q', Quiet q ∧ Quiet q' ∧
      c.inbox = q ++ .packet tag payload :: q'
  | .answer tag => c.owed = [tag] ∧ Quiet c.inbox
  | .again tag => c.owed = [] ∧ (∃ p, c.last = some (tag, p)) ∧ ∃ q q', Quiet q ∧ Quiet q' ∧
      c.inbox = q ++ .minus :: q'

/-- The messages `ms` are ahead, and `part` of them has been read. -/
def Conn.Ahead (c : Conn) (ms : List Message) (part : Bytes) : Prop :=
  ∃ before rest, c.sent = before ++ ms ∧ c.consumed = wire before ++ part ∧ part ++ rest = wire ms ∧
    c.unread <+: rest ∧ (c.closed = false → c.unread = rest)

structure Conn.Stands (c : Conn) (d : Due) (ms : List Message) (part : Bytes) : Prop where
  whole : c.broken = false
  owes : c.closed = false → c.Owes d
  ahead : c.Ahead ms part
  last : c.closed = false → ∀ tag p, ms.getLast? = some (.answer tag p) → c.last = some (tag, p)

/-- Nothing will be read off the connection any more. -/
def Conn.Dead (c : Conn) : Prop := c.broken = true ∨ (c.closed = true ∧ c.unread = [])

/-! ### Moves of the stub -/

/-- What a move of the stub makes of its duties and of the messages ahead. -/
inductive Next : Due → List Message → Due → List Message → Prop
  | same (d : Due) (ms : List Message) : Next d ms d ms
  | ack (tag : Tag) (ms : List Message) : Next (.packet tag) ms (.answer tag) (ms ++ [.ack tag])
  | nak (tag : Tag) (ms : List Message) : Next (.packet tag) ms .nothing (ms ++ [.nak tag])
  | answer (tag : Tag) (p : Packet) (ms : List Message) :
      Next (.answer tag) ms .nothing (ms ++ [.answer tag p])
  | again (tag : Tag) (p : Packet) (ms : List Message) :
      Next (.again tag) ms .nothing (ms ++ [.answer tag p])

@[simp] theorem wire_nil : wire [] = [] := rfl

theorem wire_append (as bs : List Message) : wire (as ++ bs) = wire as ++ wire bs :=
  List.flatMap_append

theorem wire_cons (m : Message) (ms : List Message) : wire (m :: ms) = m.bytes ++ wire ms := rfl

theorem wire_singleton (m : Message) : wire [m] = m.bytes := List.append_nil _

theorem Conn.say_closed {c : Conn} {m : Message} (h : c.closed = true) : c.say m = c := if_pos h

theorem Conn.say_open {c : Conn} {m : Message} (h : c.closed = false) :
    c.say m = { c with sent := c.sent ++ [m], unread := c.unread ++ m.bytes } :=
  if_neg (by rw [h]; exact Bool.false_ne_true)

/-- The stub sends on an open connection. -/
theorem Conn.Ahead.say {c : Conn} {ms : List Message} {part : Bytes} {m : Message}
    (h : c.Ahead ms part) (hopen : c.closed = false) : (c.say m).Ahead (ms ++ [m]) part := by
  obtain ⟨before, rest, hsent, hconsumed, hwire, -, hunread⟩ := h
  rw [Conn.say_open hopen]
  refine ⟨before, rest ++ m.bytes, ?_, hconsumed, ?_, ?_, fun _ => ?_⟩
  · show c.sent ++ [m] = _
    rw [hsent, List.append_assoc]
  · rw [← List.append_assoc, hwire, wire_append, wire_singleton]
  · show c.unread ++ m.bytes <+: _
    exact ⟨[], by rw [hunread hopen, List.append_nil]⟩
  · show c.unread ++ m.bytes = _
    rw [hunread hopen]

/-- Another connection with the same stream. -/
theorem Conn.Ahead.congr {c c' : Conn} {ms : List Message} {part : Bytes} (h : c.Ahead ms part)
    (hsent : c'.sent = c.sent) (hconsumed : c'.consumed = c.consumed) (hunread : c'.unread = c.unread)
    (hclosed : c'.closed = c.closed) : c'.Ahead ms part := by
  unfold Conn.Ahead
  rw [hsent, hconsumed, hunread, hclosed]
  exact h

theorem Quiet.tail {i : Item} {items : List Item} (h : Quiet (i :: items)) : Quiet items :=
  fun j hj => h j (List.mem_cons_of_mem _ hj)

theorem Quiet.head {i : Item} {items : List Item} (h : Quiet (i :: items)) : i.idle = true :=
  h i (List.mem_cons_self ..)

theorem Quiet.append {as bs : List Item} (ha : Quiet as) (hb : Quiet bs) : Quiet (as ++ bs) := by
  intro i hi
  rcases List.mem_append.mp hi with hmem | hmem
  · exact ha i hmem
  · exact hb i hmem

theorem quiet_nil : Quiet [] := List.forall_mem_nil _

/-- The first item of an inbox with one item that is not idle. -/
theorem quiet_split {q q' rest : List Item} {i j : Item} (hq : Quiet q)
    (h : q ++ i :: q' = j :: rest) :
    (j = i ∧ rest = q' ∧ q = []) ∨ (j.idle = true ∧ ∃ q₁, Quiet q₁ ∧ rest = q₁ ++ i :: q') := by
  cases q with
  | nil =>
    obtain ⟨hj, hrest⟩ := List.cons.inj h
    exact Or.inl ⟨hj.symm, hrest.symm, rfl⟩
  | cons k q =>
    obtain ⟨rfl, hrest⟩ := List.cons.inj h
    exact Or.inr ⟨hq.head, q, hq.tail, hrest.symm⟩

/-- A packet at the head of the inbox is the one that is due. -/
theorem Conn.Owes.of_packet {c : Conn} {d : Due} {tag : Tag} {payload : Bytes} {rest : List Item}
    (h : c.Owes d) (hinbox : c.inbox = .packet tag payload :: rest) :
    d = .packet tag ∧ c.owed = [] ∧ Quiet rest := by
  have hloud : ∀ items, Quiet items → items ≠ .packet tag payload :: rest := by
    rintro items hquiet rfl
    exact Bool.noConfusion hquiet.head
  cases d with
  | nothing => exact absurd hinbox (hloud _ h.2)
  | answer t => exact absurd hinbox (hloud _ h.2)
  | packet t =>
    obtain ⟨howed, q, payload', q', hq, hq', hitems⟩ := h
    rw [hitems] at hinbox
    rcases quiet_split hq hinbox with ⟨hsame, rfl, -⟩ | ⟨hidle, -⟩
    · cases hsame
      exact ⟨rfl, howed, hq'⟩
    · cases hidle
  | again t =>
    obtain ⟨howed, -, q, q', hq, hq', hitems⟩ := h
    rw [hitems] at hinbox
    rcases quiet_split hq hinbox with ⟨hsame, -⟩ | ⟨hidle, -⟩
    · cases hsame
    · cases hidle

/-- A nak at the head of the inbox asks for the last packet. -/
theorem Conn.Owes.of_minus {c : Conn} {d : Due} {tag : Tag} {p : Packet} {rest : List Item}
    (h : c.Owes d) (hinbox : c.inbox = .minus :: rest) (hlast : c.last = some (tag, p)) :
    d = .again tag ∧ c.owed = [] ∧ Quiet rest := by
  have hloud : ∀ items, Quiet items → items ≠ .minus :: rest := by
    rintro items hquiet rfl
    exact Bool.noConfusion hquiet.head
  cases d with
  | nothing => exact absurd hinbox (hloud _ h.2)
  | answer t => exact absurd hinbox (hloud _ h.2)
  | packet t =>
    obtain ⟨howed, q, payload', q', hq, hq', hitems⟩ := h
    rw [hitems] at hinbox
    rcases quiet_split hq hinbox with ⟨hsame, -⟩ | ⟨hidle, -⟩
    · cases hsame
    · cases hidle
  | again t =>
    obtain ⟨howed, ⟨p', hlast'⟩, q, q', hq, hq', hitems⟩ := h
    rw [hitems] at hinbox
    rcases quiet_split hq hinbox with ⟨-, rfl, -⟩ | ⟨hidle, -⟩
    · rw [hlast] at hlast'
      cases hlast'
      exact ⟨rfl, howed, hq'⟩
    · cases hidle

/-- What the stub owes is the answer that is due. -/
theorem Conn.Owes.of_owed {c : Conn} {d : Due} {tag : Tag} {rest : List Tag} (h : c.Owes d)
    (howed : c.owed = tag :: rest) : d = .answer tag ∧ rest = [] ∧ Quiet c.inbox := by
  cases d with
  | answer t =>
    have heq := h.1
    rw [howed] at heq
    cases heq
    exact ⟨rfl, rfl, h.2⟩
  | nothing => exact absurd (howed.symm.trans h.1) (List.cons_ne_nil _ _)
  | packet t => exact absurd (howed.symm.trans h.1) (List.cons_ne_nil _ _)
  | again t => exact absurd (howed.symm.trans h.1) (List.cons_ne_nil _ _)

/-- The stub passes over an item. -/
theorem Conn.Owes.skip {c : Conn} {d : Due} {item : Item} {rest : List Item} (h : c.Owes d)
    (hinbox : c.inbox = item :: rest) (hidle : item.idle = true) :
    ({ c with inbox := rest } : Conn).Owes d := by
  cases d with
  | nothing =>
    have hquiet := h.2
    rw [hinbox] at hquiet
    exact ⟨h.1, hquiet.tail⟩
  | answer t =>
    have hquiet := h.2
    rw [hinbox] at hquiet
    exact ⟨h.1, hquiet.tail⟩
  | packet t =>
    obtain ⟨howed, q, payload', q', hq, hq', hitems⟩ := h
    rw [hitems] at hinbox
    rcases quiet_split hq hinbox with ⟨rfl, -⟩ | ⟨-, q₁, hq₁, hrest⟩
    · cases hidle
    · exact ⟨howed, q₁, payload', q', hq₁, hq', hrest⟩
  | again t =>
    obtain ⟨howed, hlast, q, q', hq, hq', hitems⟩ := h
    rw [hitems] at hinbox
    rcases quiet_split hq hinbox with ⟨rfl, -⟩ | ⟨-, q₁, hq₁, hrest⟩
    · cases hidle
    · exact ⟨howed, hlast, q₁, q', hq₁, hq', hrest⟩

/-- The same stream on a connection that is lost, whatever the stub does. -/
theorem Conn.Stands.of_closed {c c' : Conn} {d : Due} {ms : List Message} {part : Bytes}
    (h : c.Stands d ms part) (hclosed : c.closed = true) (hwhole : c'.broken = c.broken)
    (hsent : c'.sent = c.sent) (hconsumed : c'.consumed = c.consumed)
    (hunread : c'.unread = c.unread) (hclosed' : c'.closed = c.closed) : c'.Stands d ms part := by
  have hnot : ¬ c'.closed = false := by
    rw [hclosed', hclosed]
    exact Bool.noConfusion
  exact ⟨by rw [hwhole]; exact h.whole, fun hopen => absurd hopen hnot,
    h.ahead.congr hsent hconsumed hunread hclosed', fun hopen => absurd hopen hnot⟩

theorem Conn.Stands.unheard {c c' : Conn} {d : Due} {ms : List Message} {part : Bytes}
    (h : c.Stands d ms part) (hclosed : c.closed = true) (m : Message) (hwhole : c'.broken = c.broken)
    (hsent : c'.sent = c.sent) (hconsumed : c'.consumed = c.consumed)
    (hunread : c'.unread = c.unread) (hclosed' : c'.closed = c.closed) :
    (c'.say m).Stands d ms part := by
  rw [Conn.say_closed (by rw [hclosed', hclosed])]
  exact h.of_closed hclosed hwhole hsent hconsumed hunread hclosed'

theorem Conn.say_books (c : Conn) (m : Message) :
    (c.say m).inbox = c.inbox ∧ (c.say m).owed = c.owed ∧ (c.say m).last = c.last := by
  unfold Conn.say
  split <;> exact ⟨rfl, rfl, rfl⟩

theorem Conn.Owes.say {c : Conn} {d : Due} (h : c.Owes d) (m : Message) : (c.say m).Owes d := by
  obtain ⟨hinbox, howed, hlast⟩ := c.say_books m
  cases d <;> (unfold Conn.Owes at h ⊢; rw [hinbox, howed])
  case nothing => exact h
  case packet => exact h
  case answer => exact h
  case again =>
    rw [hlast]
    exact h

/-- The stub sends on an open connection what it has become due to send. -/
theorem Conn.Stands.said {c c' : Conn} {d d' : Due} {ms : List Message} {part : Bytes} {m : Message}
    (h : c.Stands d ms part) (hopen : c.closed = false) (hwhole : c'.broken = c.broken)
    (hsent : c'.sent = c.sent) (hconsumed : c'.consumed = c.consumed)
    (hunread : c'.unread = c.unread) (hclosed : c'.closed = c.closed)
    (howes : c'.Owes d') (hlast : ∀ tag p, m = .answer tag p → c'.last = some (tag, p)) :
    (c'.say m).Stands d' (ms ++ [m]) part := by
  have hopen' : c'.closed = false := by rw [hclosed, hopen]
  refine ⟨?_, fun _ => howes.say m, (h.ahead.congr hsent hconsumed hunread hclosed).say hopen',
    fun _ tag p hget => ?_⟩
  · rw [Conn.say_open hopen']
    show c'.broken = false
    rw [hwhole]
    exact h.whole
  · rw [List.getLast?_append, List.getLast?_singleton] at hget
    rw [(c'.say_books m).2.2]
    exact hlast tag p (Option.some.inj hget)

/-- A move of the stub goes on from where the connection stands. -/
theorem Conn.Stands.stub {c c' : Conn} {d : Due} {ms : List Message} {part : Bytes} {move : StubMove}
    {tags : List Tag} (h : c.Stands d ms part) (hmove : c.stub move = some (c', tags)) :
    ∃ d' ms', Next d ms d' ms' ∧ c'.Stands d' ms' part := by
  by_cases hclosed : c.closed = true
  · -- nobody hears what the stub says
    refine ⟨d, ms, Next.same d ms, ?_⟩
    rcases Conn.stub_cases hmove with ⟨tag, payload, rest, -, -, rfl⟩ | ⟨tag, payload, rest, -, -, rfl⟩ |
      ⟨item, rest, -, -, -, rfl⟩ | ⟨tag, p, q, rest, -, -, -, rfl⟩ | ⟨tag, p, rest, -, -, rfl⟩
    · exact h.unheard hclosed _ rfl rfl rfl rfl rfl
    · exact h.unheard hclosed _ rfl rfl rfl rfl rfl
    · exact h.of_closed hclosed rfl rfl rfl rfl rfl
    · exact h.unheard hclosed _ rfl rfl rfl rfl rfl
    · exact h.unheard hclosed _ rfl rfl rfl rfl rfl
  · have hopen : c.closed = false := Bool.eq_false_iff.mpr hclosed
    have howes := h.owes hopen
    rcases Conn.stub_cases hmove with ⟨tag, payload, rest, hinbox, -, rfl⟩ |
      ⟨tag, payload, rest, hinbox, -, rfl⟩ | ⟨item, rest, hinbox, hidle, -, rfl⟩ |
      ⟨tag, p, q, rest, hinbox, hlast, -, rfl⟩ | ⟨tag, p, rest, howed, -, rfl⟩
    · obtain ⟨rfl, howed, hquiet⟩ := howes.of_packet hinbox
      refine ⟨.answer tag, ms ++ [.ack tag], Next.ack tag ms, ?_⟩
      refine h.said hopen rfl rfl rfl rfl rfl ⟨?_, hquiet⟩ fun _ _ heq => nomatch heq
      show c.owed ++ [tag] = [tag]
      rw [howed]
      rfl
    · obtain ⟨rfl, howed, hquiet⟩ := howes.of_packet hinbox
      refine ⟨.nothing, ms ++ [.nak tag], Next.nak tag ms, ?_⟩
      exact h.said hopen rfl rfl rfl rfl rfl ⟨howed, hquiet⟩ fun _ _ heq => nomatch heq
    · exact ⟨d, ms, Next.same d ms, h.whole, fun _ => howes.skip hinbox hidle,
        h.ahead.congr rfl rfl rfl rfl, h.last⟩
    · obtain ⟨rfl, howed, hquiet⟩ := howes.of_minus hinbox hlast
      refine ⟨.nothing, ms ++ [.answer tag p], Next.again tag p ms, ?_⟩
      refine h.said hopen rfl rfl rfl rfl rfl ⟨howed, hquiet⟩ fun t p' heq => ?_
      cases heq
      rfl
    · obtain ⟨rfl, rfl, hquiet⟩ := howes.of_owed howed
      refine ⟨.nothing, ms ++ [.answer tag p], Next.answer tag p ms, ?_⟩
      refine h.said hopen rfl rfl rfl rfl rfl ⟨rfl, hquiet⟩ fun t p' heq => ?_
      cases heq
      rfl

/-! ### Reads -/

/-- One byte that has been read. -/
theorem take_one {bytes : Bytes} (h : 1 ≤ bytes.length) : ∃ b, bytes.take 1 = [b] := by
  cases bytes with
  | nil => exact absurd h (by decide)
  | cons b rest => exact ⟨b, rfl⟩

theorem take_two {bytes : Bytes} (h : 2 ≤ bytes.length) : ∃ b₁ b₂, bytes.take 2 = [b₁, b₂] := by
  match bytes, h with
  | b₁ :: b₂ :: rest, _ => exact ⟨b₁, b₂, rfl⟩


/-- The connection behind a read of `n` bytes. -/
def Conn.took (c : Conn) (n : Nat) : Conn :=
  { c with consumed := c.consumed ++ c.unread.take n, unread := c.unread.drop n }

/-- Bytes that are ahead are read. -/
theorem Conn.Stands.take {c : Conn} {d : Due} {ms : List Message} {part : Bytes} (n : Nat)
    (h : c.Stands d ms part) :
    (c.took n).Stands d ms (part ++ c.unread.take n) ∧ part ++ c.unread.take n <+: wire ms := by
  obtain ⟨before, rest, hsent, hconsumed, hwire, hprefix, hunread⟩ := h.ahead
  obtain ⟨u, hu⟩ := hprefix
  have hrest : rest = c.unread.take n ++ (c.unread.drop n ++ u) := by
    rw [← List.append_assoc, List.take_append_drop, hu]
  have hwire' : part ++ c.unread.take n ++ (c.unread.drop n ++ u) = wire ms := by
    rw [List.append_assoc, ← hrest, hwire]
  refine ⟨⟨h.whole, h.owes, ⟨before, c.unread.drop n ++ u, hsent, ?_, hwire', ?_, fun hopen => ?_⟩,
    h.last⟩, ⟨_, hwire'⟩⟩
  · show c.consumed ++ c.unread.take n = _
    rw [hconsumed, List.append_assoc]
  · exact List.prefix_append _ _
  · have hempty : u = [] := by
      have heq : c.unread ++ [] = c.unread ++ u := by
        rw [List.append_nil, hu]
        exact hunread hopen
      exact (List.append_cancel_left heq).symm
    rw [hempty, List.append_nil]
    rfl

/-- A whole message has been read. -/
theorem Conn.Stands.shift {c : Conn} {d : Due} {m : Message} {ms : List Message} {part : Bytes}
    (h : c.Stands d (m :: ms) (m.bytes ++ part)) (hms : ∀ tag p, ms.getLast? = some (.answer tag p) →
      (m :: ms).getLast? = some (.answer tag p)) : c.Stands d ms part := by
  obtain ⟨before, rest, hsent, hconsumed, hwire, hprefix, hunread⟩ := h.ahead
  refine ⟨h.whole, h.owes, ⟨before ++ [m], rest, ?_, ?_, ?_, hprefix, hunread⟩,
    fun hopen tag p hget => h.last hopen tag p (hms tag p hget)⟩
  · rw [hsent, List.append_assoc]
    rfl
  · rw [hconsumed, wire_append, wire_singleton, List.append_assoc]
  · rw [List.append_assoc, wire_cons] at hwire
    exact List.append_cancel_left hwire

/-- The connection is lost, and with it some of what is under way. -/
theorem Conn.Stands.lose {c : Conn} {d : Due} {ms : List Message} {part : Bytes} (h : c.Stands d ms part)
    (kept delivered : Nat) : (c.lose kept delivered).Stands d ms part := by
  obtain ⟨before, rest, hsent, hconsumed, hwire, hprefix, -⟩ := h.ahead
  have hnot : ¬ (c.lose kept delivered).closed = false := Bool.noConfusion
  refine ⟨h.whole, fun hopen => absurd hopen hnot, ⟨before, rest, hsent, hconsumed, hwire, ?_,
    fun hopen => absurd hopen hnot⟩, fun hopen => absurd hopen hnot⟩
  exact (List.take_prefix _ _).trans hprefix

/-- A read gets its bytes, runs into its timeout, or finds the end of the
connection. -/
theorem Conn.read_cases {c c' : Conn} {n : Nat} {event : ReadEvent} {r : Except Exn Bytes}
    (hn : 0 < n) (h : c.read n event = some (c', r)) :
    (event = .ready ∧ n ≤ c.unread.length ∧ ¬ c.Dead ∧ c' = c.took n ∧ r = .ok (c.unread.take n)) ∨
      (event = .timeout ∧ c' = c ∧ r = .error .timeout) ∨ (c'.Dead ∧ ∃ e, r = .error e) := by
  cases event with
  | ready =>
    rw [Conn.read] at h
    split at h
    · rename_i hready
      cases h
      refine Or.inl ⟨rfl, hready.2, ?_, rfl, rfl⟩
      rintro (hbroken | ⟨-, hunread⟩)
      · rw [hready.1] at hbroken
        cases hbroken
      · rw [hunread] at hready
        exact absurd hready.2 (Nat.not_le.mpr hn)
    · cases h
  | timeout =>
    cases h
    exact Or.inr (Or.inl ⟨rfl, rfl, rfl⟩)
  | eof =>
    rw [Conn.read] at h
    split at h
    · rename_i heof
      cases h
      exact Or.inr (Or.inr ⟨Or.inr ⟨heof.2.1, rfl⟩, _, rfl⟩)
    · cases h
  | broken fault =>
    rw [Conn.read] at h
    split at h
    · cases h
      exact Or.inr (Or.inr ⟨Or.inl rfl, _, rfl⟩)
    · cases h

/-! ### Writes -/

theorem Conn.put_closed {c : Conn} {item : Item} (h : c.closed = true) : c.put item = c := if_pos h

theorem Conn.put_open {c : Conn} {item : Item} (h : c.closed = false) :
    c.put item = { c with inbox := c.inbox ++ [item] } :=
  if_neg (by rw [h]; exact Bool.false_ne_true)

theorem Conn.put_stream (c : Conn) (item : Item) :
    (c.put item).sent = c.sent ∧ (c.put item).consumed = c.consumed := by
  unfold Conn.put
  split <;> exact ⟨rfl, rfl⟩

theorem Conn.Stands.put {c : Conn} {d d' : Due} {ms : List Message} {part : Bytes} {item : Item}
    (h : c.Stands d ms part)
    (howes : c.closed = false → ({ c with inbox := c.inbox ++ [item] } : Conn).Owes d') :
    (c.put item).Stands d' ms part := by
  by_cases hclosed : c.closed = true
  · rw [Conn.put_closed hclosed]
    refine ⟨h.whole, fun hopen => ?_, h.ahead, h.last⟩
    rw [hclosed] at hopen
    cases hopen
  · have hopen : c.closed = false := Bool.eq_false_iff.mpr hclosed
    rw [Conn.put_open hopen]
    exact ⟨h.whole, fun _ => howes hopen, h.ahead.congr rfl rfl rfl rfl, h.last⟩

/-- A packet goes out where nothing is due. -/
theorem Conn.Stands.put_packet {c : Conn} {ms : List Message} {part : Bytes} (tag : Tag)
    (payload : Bytes) (h : c.Stands .nothing ms part) :
    (c.put (.packet tag payload)).Stands (.packet tag) ms part := by
  refine h.put fun hopen => ?_
  obtain ⟨howed, hquiet⟩ := h.owes hopen
  exact ⟨howed, c.inbox, payload, [], hquiet, quiet_nil, rfl⟩

/-- An ack or a Ctrl-C changes nothing of what is due. -/
theorem Conn.Stands.put_idle {c : Conn} {d : Due} {ms : List Message} {part : Bytes} {item : Item}
    (h : c.Stands d ms part) (hidle : item.idle = true) : (c.put item).Stands d ms part := by
  refine h.put fun hopen => ?_
  have hone : Quiet [item] := by
    intro i hi
    rw [List.mem_singleton.mp hi]
    exact hidle
  have howes := h.owes hopen
  cases d with
  | nothing => exact ⟨howes.1, howes.2.append hone⟩
  | answer t => exact ⟨howes.1, howes.2.append hone⟩
  | packet t =>
    obtain ⟨howed, q, payload, q', hq, hq', hinbox⟩ := howes
    refine ⟨howed, q, payload, q' ++ [item], hq, hq'.append hone, ?_⟩
    show c.inbox ++ [item] = _
    rw [hinbox, List.append_assoc]
    rfl
  | again t =>
    obtain ⟨howed, hlast, q, q', hq, hq', hinbox⟩ := howes
    refine ⟨howed, hlast, q, q' ++ [item], hq, hq'.append hone, ?_⟩
    show c.inbox ++ [item] = _
    rw [hinbox, List.append_assoc]
    rfl

/-- A nak asks for the last packet again. -/
theorem Conn.Stands.put_minus {c : Conn} {ms : List Message} {part : Bytes} {tag : Tag} {p : Packet}
    (h : c.Stands .nothing ms part) (hlast : c.closed = false → c.last = some (tag, p)) :
    (c.put .minus).Stands (.again tag) ms part := by
  refine h.put fun hopen => ?_
  obtain ⟨howed, hquiet⟩ := h.owes hopen
  exact ⟨howed, ⟨p, hlast hopen⟩, c.inbox, [], hquiet, quiet_nil, rfl⟩

/-! ### Dead connections -/

theorem Conn.Dead.put {c : Conn} (h : c.Dead) (item : Item) : (c.put item).Dead := by
  unfold Conn.put
  split
  · exact h
  · exact h

theorem Conn.Dead.lose {c : Conn} (h : c.Dead) (kept delivered : Nat) : (c.lose kept delivered).Dead := by
  rcases h with hbroken | ⟨-, hunread⟩
  · exact Or.inl hbroken
  · refine Or.inr ⟨rfl, ?_⟩
    show c.unread.take kept = []
    rw [hunread, List.take_nil]

/-- What a move of the stub leaves of the stream. -/
theorem stub_stream {c c' : Conn} {move : StubMove} {tags : List Tag}
    (h : c.stub move = some (c', tags)) :
    (∃ more, c'.sent = c.sent ++ more) ∧ c'.consumed = c.consumed ∧ c'.broken = c.broken ∧
      c'.closed = c.closed ∧ (c.closed = true → c'.unread = c.unread) := by
  have hsay : ∀ (x : Conn) (m : Message), (∃ more, (x.say m).sent = x.sent ++ more) ∧
      (x.say m).consumed = x.consumed ∧ (x.say m).broken = x.broken ∧ (x.say m).closed = x.closed ∧
      (x.closed = true → (x.say m).unread = x.unread) := by
    intro x m
    unfold Conn.say
    split
    · exact ⟨⟨[], (List.append_nil _).symm⟩, rfl, rfl, rfl, fun _ => rfl⟩
    · rename_i hopen
      exact ⟨⟨[m], rfl⟩, rfl, rfl, rfl, fun hclosed => absurd hclosed hopen⟩
  rcases Conn.stub_cases h with ⟨tag, payload, rest, -, -, rfl⟩ | ⟨tag, payload, rest, -, -, rfl⟩ |
    ⟨item, rest, -, -, -, rfl⟩ | ⟨tag, p, q, rest, -, -, -, rfl⟩ | ⟨tag, p, rest, -, -, rfl⟩
  · exact hsay _ _
  · exact hsay _ _
  · exact ⟨⟨[], (List.append_nil _).symm⟩, rfl, rfl, rfl, fun _ => rfl⟩
  · exact hsay _ _
  · exact hsay _ _

theorem Conn.Dead.stub {c c' : Conn} {move : StubMove} {tags : List Tag} (h : c.Dead)
    (hmove : c.stub move = some (c', tags)) : c'.Dead := by
  obtain ⟨-, -, hbroken, hclosed, hunread⟩ := stub_stream hmove
  rcases h with hb | ⟨hc, hu⟩
  · exact Or.inl (by rw [hbroken]; exact hb)
  · exact Or.inr ⟨by rw [hclosed]; exact hc, by rw [hunread hc]; exact hu⟩

end AmigaFleet.Host.Gdb

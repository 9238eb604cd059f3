import AmigaFleet.Host.TransportSteps
import AmigaFleet.Lib.Run

/-!
# Frame alignment

The reader of an open connection stands at a frame boundary, or between the
header and the body of a frame that the call is reading (`Aligned`).  A call
may end only at a boundary, for the next call reads a header first.

Most exits close the connection or end at a boundary.  The exceptions are the
labels of `cutsFrame`: a header with a bad length, which raises and leaves the
connection open; a call that is cancelled while it waits for a body; and a
warm-up probe that gives up on a body, or on a header that has begun.
`calls_settled` is the alignment in every run without them, and `cut_frame` a
run with one of them.
-/

namespace AmigaFleet.Host.Transport

open AmigaFleet.Lib

/-! ## Places in the stream -/

/-- What has been consumed is a sequence of whole frames, the last of which
are `fresh`. -/
def Boundary (fresh : List Bytes) (consumed : Bytes) : Prop :=
  ∃ old, (∀ p ∈ old ++ fresh, Announced maxFrameBytes p) ∧ consumed = frames (old ++ fresh)

/-- After the frames, the header of a body of `n` bytes has been consumed. -/
def MidFrame (fresh : List Bytes) (n : Nat) (consumed : Bytes) : Prop :=
  ∃ whole hdr, Boundary fresh whole ∧ hdr.length = 4 ∧ be32 hdr = n ∧ ¬ badLength n ∧
    consumed = whole ++ hdr

theorem boundary_nil : Boundary [] [] := ⟨[], fun _ hp => (nomatch hp), rfl⟩

theorem Boundary.wholeFrames {fresh : List Bytes} {consumed : Bytes}
    (h : Boundary fresh consumed) : WholeFrames maxFrameBytes consumed := by
  obtain ⟨old, hall, heq⟩ := h
  exact ⟨old ++ fresh, hall, heq⟩

theorem Boundary.forget {fresh : List Bytes} {consumed : Bytes} (h : Boundary fresh consumed) :
    Boundary [] consumed := by
  obtain ⟨old, hall, heq⟩ := h
  exact ⟨old ++ fresh, by rwa [List.append_nil], by rwa [List.append_nil]⟩

theorem Boundary.header {fresh : List Bytes} {consumed hdr : Bytes} (h : Boundary fresh consumed)
    (hlen : hdr.length = 4) (hgood : ¬ badLength (be32 hdr)) :
    MidFrame fresh (be32 hdr) (consumed ++ hdr) := ⟨consumed, hdr, h, hlen, rfl, hgood, rfl⟩

/-- The body completes the frame. -/
theorem MidFrame.body {fresh : List Bytes} {n : Nat} {consumed payload : Bytes}
    (h : MidFrame fresh n consumed) (hlen : payload.length = n) :
    Boundary (fresh ++ [payload]) (consumed ++ payload) := by
  obtain ⟨whole, hdr, ⟨old, hall, rfl⟩, hhdr, hn, hgood, rfl⟩ := h
  have hrange : 0 < n ∧ n ≤ maxFrameBytes := by
    unfold badLength at hgood
    omega
  refine ⟨old, ?_, ?_⟩
  · intro p hp
    rw [← List.append_assoc] at hp
    rcases List.mem_append.mp hp with hp | hp
    · exact hall p hp
    · rw [List.mem_singleton.mp hp, Announced, hlen]
      exact hrange
  · have hframe : hdr ++ payload = frame payload := by
      rw [frame, hlen, ← hn, header_be32 hhdr]
    rw [List.append_assoc, hframe, ← List.append_assoc, frames_append (old ++ fresh), frames_cons,
      frames_nil, List.append_nil]

/-! ## Reads -/

/-- A read hands out the next bytes of the stream. -/
theorem Conn.read_got {c : Conn} {n : Nat} {event : ReadEvent} {bytes : Bytes}
    (h : (c.read n event).2 = .got bytes) :
    bytes.length = n ∧ (c.read n event).1.consumed = c.consumed ++ bytes := by
  cases event with
  | ready =>
    simp only [Conn.read] at h ⊢
    split at h
    · rename_i hle
      rw [if_pos hle]
      cases h
      exact ⟨List.length_take_of_le hle, rfl⟩
    · cases h
  | timeout => cases h
  | eof got => cases h
  | broken description => cases h

/-! ## The invariant -/

/-- The reader stands where the phase says. -/
def Sys.Placed (s : Sys) (consumed : Bytes) : Prop :=
  match s.phase.expects with
  | some n => MidFrame s.fresh n consumed
  | none => Boundary s.fresh consumed

structure Aligned (s : Sys) : Prop where
  opening : s.phase.Before → s.fresh = []
  placed : ∀ c, s.conn = some c → s.Placed c.consumed
  ids : ∀ rid ∈ s.used, rid < s.nextId

/-- The label leaves the reader inside a frame. -/
def cutsFrame (s : Sys) (a : Label) : Bool :=
  match s.conn, s.phase, a with
  | some c, .header, .read event _ =>
    match (c.read 4 event).2 with
    | .got hdr => badLength (be32 hdr)
    | _ => false
  | some c, .warmHeader _, .read event _ =>
    match (c.read 4 event).2 with
    | .got hdr => badLength (be32 hdr)
    | _ => (c.read 4 event).1.consumed ≠ c.consumed
  | some c, .warmBody _ n, .read event _ =>
    match (c.read n event).2 with
    | .got _ => false
    | _ => true
  | _, .body _, .cancel => true
  | _, .warmBody _ _, .cancel => true
  | _, _, _ => false

/-- No read of the call is cut off inside a frame. -/
def Uncut (s : Sys) (a : Label) : Prop := cutsFrame s a = false

instance (s : Sys) (a : Label) : Decidable (Uncut s a) := inferInstanceAs (Decidable (_ = _))

theorem init_aligned : Aligned init :=
  ⟨fun _ => rfl, fun _ hc => (nomatch hc), fun _ hr => (nomatch hr)⟩

/-- At a boundary the invariant does not depend on the phase. -/
theorem Aligned.boundary {s : Sys} (h : Aligned s) (hnone : s.phase.expects = none) {c : Conn}
    (hc : s.conn = some c) : Boundary s.fresh c.consumed := by
  have hplaced := h.placed c hc
  unfold Sys.Placed at hplaced
  rw [hnone] at hplaced
  exact hplaced

theorem Aligned.midFrame {s : Sys} (h : Aligned s) {n : Nat} (hn : s.phase.expects = some n)
    {c : Conn} (hc : s.conn = some c) : MidFrame s.fresh n c.consumed := by
  have hplaced := h.placed c hc
  unfold Sys.Placed at hplaced
  rw [hn] at hplaced
  exact hplaced

/-- A stretch before the request frame. -/
theorem Aligned.opens {s s' : Sys} (hfresh : s.fresh = [])
    (hconn : ∀ c, s.conn = some c → Boundary [] c.consumed) (hids : ∀ rid ∈ s.used, rid < s.nextId)
    (h : Opens s s') : Aligned s' := by
  have hfresh' : s'.fresh = [] := h.fresh.elim (fun heq => heq.trans hfresh) id
  refine ⟨fun _ => hfresh', ?_, ?_⟩
  · intro c hc
    unfold Sys.Placed
    rw [h.expects, hfresh']
    rcases h.conn with hsame | hnew
    · exact hconn c (hsame ▸ hc)
    · rw [hnew c hc]
      exact boundary_nil
  · intro rid hrid
    rcases h.ids with ⟨hnext, hused⟩ | ⟨hnext, hused⟩
    · rw [hused] at hrid
      rw [hnext]
      exact hids rid hrid
    · rw [hused] at hrid
      rw [hnext]
      rcases List.mem_append.mp hrid with hrid | hrid
      · have hlt := hids rid hrid
        omega
      · rw [List.mem_singleton.mp hrid]
        omega

/-- A closed connection stands nowhere. -/
theorem aligned_closeConn {s : Sys} (hids : ∀ rid ∈ s.used, rid < s.nextId) (after : AfterClose) :
    Aligned (s.closeConn after) :=
  ⟨fun _ => rfl, fun _ hc => (nomatch hc), hids⟩

theorem aligned_ioFailed {s : Sys} (hids : ∀ rid ∈ s.used, rid < s.nextId) (description : Bytes) :
    Aligned (s.ioFailed description) := by
  unfold Sys.ioFailed
  split
  · exact aligned_closeConn hids .retry
  · exact aligned_closeConn hids (.fail (ioFailedError s.call description))

/-- A step that leaves the connection alone. -/
theorem Aligned.rest {s s' : Sys} (h : Aligned s) (hnone : s.phase.expects = none)
    (hconn : s'.conn = s.conn) (hfresh : s'.fresh = s.fresh) (hused : s'.used = s.used)
    (hnext : s'.nextId = s.nextId) (hbefore : s'.phase.Before → s.phase.Before)
    (hnone' : s'.phase.expects = none) : Aligned s' := by
  refine ⟨fun hb => hfresh.trans (h.opening (hbefore hb)), ?_, ?_⟩
  · intro c hc
    unfold Sys.Placed
    rw [hnone', hfresh]
    exact h.boundary hnone (hconn ▸ hc)
  · rw [hused, hnext]
    exact h.ids

theorem Aligned.start {s : Sys} (py : Python) (h : Aligned s) (hnone : s.phase.expects = none)
    (method : Bytes) (params : Option Json) (timeoutText : Bytes) (atEof : Bool) (now : Rat) :
    Aligned (s.start py method params timeoutText atEof now) := by
  refine Aligned.opens rfl ?_ ?_ (opens_beginAttempt py atEof now _)
  · intro c hc
    exact (h.boundary hnone hc).forget
  · intro rid hr
    cases hr

theorem Aligned.drainEnds {s : Sys} (py : Python) (h : Aligned s) (hphase : s.phase = .drain)
    (how : Drained) (handed : Nat) : Aligned (s.drainEnds py how handed) := by
  have hnone : s.phase.expects = none := by rw [hphase]; rfl
  cases how with
  | ok => exact h.rest hnone rfl rfl rfl rfl (fun hb => hb.elim) rfl
  | timeout =>
    refine aligned_closeConn ?_ _
    exact h.ids
  | broken description =>
    refine aligned_ioFailed ?_ description
    exact h.ids
  | cancelled => exact h.rest hnone rfl rfl rfl rfl (fun hb => hb.elim) rfl

theorem Aligned.readHeader {s : Sys} (h : Aligned s) (hphase : s.phase = .header) {c : Conn}
    (hc : s.conn = some c) {event : ReadEvent}
    (hgood : ∀ hdr, (c.read 4 event).2 = .got hdr → ¬ badLength (be32 hdr)) :
    Aligned (s.readHeader c event) := by
  unfold Sys.readHeader
  dsimp only
  split
  · rename_i hdr hgot
    rw [if_neg (hgood hdr hgot)]
    obtain ⟨hlen, hconsumed⟩ := Conn.read_got hgot
    refine ⟨fun hb => hb.elim, ?_, h.ids⟩
    intro c' hc'
    cases hc'
    show MidFrame s.fresh (be32 hdr) (c.read 4 event).1.consumed
    rw [hconsumed]
    exact (h.boundary (by rw [hphase]; rfl) hc).header hlen (hgood hdr hgot)
  · exact aligned_closeConn h.ids _
  · exact aligned_ioFailed h.ids _

theorem aligned_takeFrame {s : Sys} (py : Python) (now : Rat) {payload : Bytes}
    (hids : ∀ rid ∈ s.used, rid < s.nextId)
    (hplaced : ∀ c, s.conn = some c → Boundary (s.fresh ++ [payload]) c.consumed) :
    Aligned (s.takeFrame py now payload) := by
  unfold Sys.takeFrame
  dsimp only
  split
  · exact ⟨fun hb => hb.elim, hplaced, hids⟩
  · split
    · exact ⟨fun hb => hb.elim, hplaced, hids⟩
    · exact ⟨fun hb => hb.elim, hplaced, hids⟩
    · exact ⟨fun hb => hb.elim, hplaced, hids⟩
    · refine aligned_closeConn ?_ _
      exact hids
    · exact ⟨fun hb => hb.elim, hplaced, hids⟩

theorem Aligned.readBody {s : Sys} (py : Python) (now : Rat) (h : Aligned s) {n : Nat}
    (hphase : s.phase = .body n) {c : Conn} (hc : s.conn = some c) (event : ReadEvent) :
    Aligned (s.readBody py now c n event) := by
  unfold Sys.readBody
  dsimp only
  split
  · rename_i payload hgot
    obtain ⟨hlen, hconsumed⟩ := Conn.read_got hgot
    refine aligned_takeFrame py now h.ids ?_
    intro c' hc'
    cases hc'
    rw [hconsumed]
    exact (h.midFrame (by rw [hphase]; rfl) hc).body hlen
  · exact aligned_closeConn h.ids _
  · exact aligned_ioFailed h.ids _

theorem Aligned.warmReadHeader {s : Sys} (h : Aligned s) {i : Nat} (hphase : s.phase = .warmHeader i)
    {c : Conn} (hc : s.conn = some c) {event : ReadEvent} {now : Rat}
    (hok : Uncut s (.read event now)) : Aligned (s.warmReadHeader i c event) := by
  have hfresh := h.opening (by rw [hphase]; trivial)
  have hbound := h.boundary (by rw [hphase]; rfl) hc
  unfold Uncut cutsFrame at hok
  rw [hc, hphase] at hok
  dsimp only at hok
  unfold Sys.warmReadHeader
  dsimp only
  split
  · rename_i hdr hgot
    rw [hgot] at hok
    have hgood : ¬ badLength (be32 hdr) := of_decide_eq_false hok
    rw [if_neg hgood]
    obtain ⟨hlen, hconsumed⟩ := Conn.read_got hgot
    refine ⟨fun _ => hfresh, ?_, h.ids⟩
    intro c' hc'
    cases hc'
    show MidFrame s.fresh (be32 hdr) (c.read 4 event).1.consumed
    rw [hconsumed]
    exact hbound.header hlen hgood
  · rename_i hnot
    have hsame : (c.read 4 event).1.consumed = c.consumed := by
      split at hok
      · rename_i hdr hgot
        exact absurd hgot (hnot hdr)
      · exact not_not.mp (of_decide_eq_false hok)
    refine ⟨fun _ => hfresh, ?_, h.ids⟩
    intro c' hc'
    cases hc'
    show Boundary s.fresh (c.read 4 event).1.consumed
    rw [hsame]
    exact hbound

theorem Aligned.warmReadBody {s : Sys} (h : Aligned s) {i n : Nat} (hphase : s.phase = .warmBody i n)
    {c : Conn} (hc : s.conn = some c) {event : ReadEvent} {now : Rat}
    (hok : Uncut s (.read event now)) : Aligned (s.warmReadBody i c n event) := by
  have hfresh := h.opening (by rw [hphase]; trivial)
  have hmid := h.midFrame (by rw [hphase]; rfl) hc
  unfold Uncut cutsFrame at hok
  rw [hc, hphase] at hok
  dsimp only at hok
  split at hok
  · rename_i bytes hgot
    obtain ⟨hlen, hconsumed⟩ := Conn.read_got hgot
    refine ⟨fun _ => hfresh, ?_, h.ids⟩
    intro c' hc'
    cases hc'
    show Boundary s.fresh (c.read n event).1.consumed
    rw [hconsumed, hfresh]
    exact (hmid.body hlen).forget
  · cases hok

/-- Every step that cuts no frame keeps the alignment. -/
theorem Aligned.step {py : Python} {s s' : Sys} {a : Label} (h : Aligned s) (hok : Uncut s a)
    (hstep : step py s a = some s') : Aligned s' := by
  cases step_cases hstep with
  | start method params timeoutText atEof now hphase =>
    refine h.start py ?_ method params timeoutText atEof now
    rcases hphase with hphase | ⟨out, hphase⟩ <;> rw [hphase] <;> rfl
  | opens _ _ hbefore hnone hopens =>
    have hfresh := h.opening hbefore
    refine Aligned.opens hfresh (fun c hc => ?_) h.ids hopens
    exact hfresh ▸ h.boundary hnone hc
  | warmHeader i _ hphase =>
    refine h.rest (by rw [hphase]; rfl) rfl rfl rfl rfl (fun _ => ?_) rfl
    rw [hphase]
    trivial
  | warmReadHeader i c event now hphase hc => exact h.warmReadHeader hphase hc hok
  | warmReadBody i n c event now hphase hc => exact h.warmReadBody hphase hc hok
  | drained how handed hphase => exact h.drainEnds py hphase how handed
  | readHeader c event now hphase hc =>
    refine h.readHeader hphase hc fun hdr hgot => ?_
    unfold Uncut cutsFrame at hok
    rw [hc, hphase] at hok
    dsimp only at hok
    rw [hgot] at hok
    exact of_decide_eq_false hok
  | readBody n c event now hphase hc => exact h.readBody py now hphase hc event
  | handled hphase =>
    exact h.rest (by rw [hphase]; rfl) rfl rfl rfl rfl (fun hb => hb.elim) rfl
  | failed e now hphase =>
    exact h.rest (by rw [hphase]; rfl) rfl rfl rfl rfl (fun hb => hb.elim) rfl
  | cancel hdone hidle hdrain =>
    have hnone : s.phase.expects = none := by
      unfold Uncut cutsFrame at hok
      cases hphase : s.phase with
      | body n => rw [hphase] at hok; cases hconn : s.conn <;> rw [hconn] at hok <;> cases hok
      | warmBody i n => rw [hphase] at hok; cases hconn : s.conn <;> rw [hconn] at hok <;> cases hok
      | _ => rfl
    exact h.rest hnone rfl rfl rfl rfl (fun hb => hb.elim) rfl

/-! ## Calls -/

/-- The frame is a reply to the request `rid`. -/
def Answers (obj : Json) (rid : Int) : Prop := ∃ id, idOf obj = .ok (some id) ∧ eqId id rid = true

theorem eqId_unique {id : Json} {rid rid' : Int} (h : eqId id rid = true)
    (h' : eqId id rid' = true) : rid = rid' := by
  cases id with
  | int n =>
    have hn := of_decide_eq_true h
    have hn' := of_decide_eq_true h'
    omega
  | bool b =>
    have hn := of_decide_eq_true h
    have hn' := of_decide_eq_true h'
    omega
  | float value =>
    cases value with
    | none => cases h
    | some q =>
      have hn : q = rid := of_decide_eq_true h
      have hn' : q = rid' := of_decide_eq_true h'
      exact Rat.intCast_inj.mp (hn.symm.trans hn')
  | null => cases h
  | str t => cases h
  | list items => cases h
  | dict members => cases h

/-- After a call the transport is closed, or the reader stands at a frame
boundary and no reply to the call is a reply to a later one. -/
def Settled (s : Sys) : Prop :=
  ∀ out, s.phase = .done out → ∀ c, s.conn = some c → WholeFrames maxFrameBytes c.consumed ∧
    ∀ obj, (∃ rid ∈ s.used, Answers obj rid) → ∀ rid, s.nextId ≤ rid → ¬ Answers obj rid

theorem Aligned.settled {s : Sys} (h : Aligned s) : Settled s := by
  intro out hphase c hc
  refine ⟨(h.boundary (by rw [hphase]; rfl) hc).wholeFrames, ?_⟩
  rintro obj ⟨rid, hused, id, hid, heq⟩ rid' hlater ⟨id', hid', heq'⟩
  rw [hid] at hid'
  cases hid'
  have hsame := eqId_unique heq heq'
  have hlt := h.ids rid hused
  omega

/-- In every run of calls in which no read is cut off inside a frame, every
call leaves the transport settled. -/
theorem calls_settled (py : Python) (as : List Label) (s : Sys)
    (hok : Along (step py) Uncut init as) (hrun : run (step py) init as = some s) : Settled s := by
  have hinv : Aligned s :=
    run_invariant (fun _ _ _ h hok hstep => h.step hok hstep) init_aligned hok hrun
  exact hinv.settled

/-- One call that is answered. -/
theorem calls_settled_sample : ∃ s, run (step (pythonFor (pong (.int 1)))) init
      (callOn "sys.uptime" (frame (Json.dumps (fun _ => []) (pong (.int 1)))) ++
        [.read .ready 0, .read .ready 0]) = some s ∧
    s.phase = .done (.value (.int 5)) ∧ Settled s :=
  ⟨_, rfl, rfl, calls_settled (pythonFor (pong (.int 1)))
    (callOn "sys.uptime" (frame (Json.dumps (fun _ => []) (pong (.int 1)))) ++
      [.read .ready 0, .read .ready 0]) _ (by decide +kernel) rfl⟩

/-- A header that announces no byte is consumed, the call raises, and the
connection stays open behind the header. -/
theorem cut_frame : ∃ as s, run (step (pythonFor .null)) init as = some s ∧ ¬ Settled s := by
  refine ⟨callOn "sys.uptime" [0, 0, 0, 0, 7] ++ [.read .ready 0], _, rfl, ?_⟩
  intro hsettled
  have hfirst := (hsettled _ rfl _ rfl).1.first (by decide) (by decide)
  exact absurd hfirst.1 (by decide)

end AmigaFleet.Host.Transport

import AmigaFleet.Host.Alignment

/-!
# Reply correlation

Warm-up replies, notifications and replies share one stream.  In a run that
keeps the alignment, each payload that a call reads is a frame that the peer
has sent, and `Correlated` says what becomes of it: the value of a call is the
result of the frame with its id, notifications go on the queue once and in
order, and a late warm-up reply is passed over.

Alignment is needed: a warm-up probe that gives up between the header and the
body of its reply leaves the body to be read as a header (`late_reply_cut`).
The other exception is Python's equality: `True == 1`, so a frame with the id
`true` answers the first request of a transport.
-/

namespace AmigaFleet.Host.Transport

open AmigaFleet.Lib
open AmigaFleet.Mcpd (ascii)

/-- The object that a payload puts on the notification queue. -/
def notification (py : Python) (payload : Bytes) : Option Json :=
  match py.loads payload with
  | .error _ => none
  | .ok obj =>
    match idOf obj with
    | .ok none => some obj
    | _ => none

/-- The object carries exactly this id; JSON does not tell `1` from `1.0`. -/
def Carries (obj : Json) (rid : Int) : Prop :=
  obj.get "id" = some (.int rid) ∨ obj.get "id" = some (.float (some rid))

/-- The frame that the call takes next is a late reply to a warm-up probe. -/
def LateWarmup (py : Python) (s : Sys) (event : ReadEvent) : Prop :=
  ∃ n c payload obj id, s.phase = .body n ∧ s.conn = some c ∧ (c.read n event).2 = .got payload ∧
    py.loads payload = .ok obj ∧ idOf obj = .ok (some id) ∧ isWarmupId id = true

structure Correlated (py : Python) (s : Sys) : Prop where
  value : ∀ v, s.phase = .done (.value v) → ∃ c old payload obj, s.conn = some c ∧
    Boundary (old ++ [payload]) c.consumed ∧ py.loads payload = .ok obj ∧
    Carries obj s.call.rid ∧ obj.get "result" = some v
  warmup : ∀ event now s', LateWarmup py s event → step py s (.read event now) = some s' →
    s'.phase = .header ∧ s'.call = s.call ∧ s'.queue = s.queue
  queue : s.queue = s.queueBefore ++ (s.earlier ++ s.fresh).filterMap (notification py)
  stream : ∀ c, s.conn = some c → s.phase.expects = none → Boundary s.fresh c.consumed

/-! ## The condition -/

/-- The frame that the call takes next has the id `true`, and the call is the
first of its transport. -/
def takesTrue (py : Python) (s : Sys) (a : Label) : Bool :=
  match s.conn, s.phase, a with
  | some c, .body n, .read event _ =>
    match (c.read n event).2 with
    | .got payload =>
      match py.loads payload with
      | .ok obj =>
        match obj.get "id" with
        | some (.bool true) => s.call.rid = 1
        | _ => false
      | .error _ => false
    | _ => false
  | _, _, _ => false

/-- No read is cut off inside a frame, and no frame with the id `true` is
taken for the reply to request 1. -/
def Orderly (py : Python) (s : Sys) (a : Label) : Prop :=
  Uncut s a ∧ takesTrue py s a = false

instance (py : Python) (s : Sys) (a : Label) : Decidable (Orderly py s a) :=
  inferInstanceAs (Decidable (_ ∧ _))

/-! ## The invariant -/

/-- The request frame of the current attempt has its id. -/
def Phase.Asked : Phase → Prop
  | .drain | .header | .body _ | .handlers => True
  | _ => False

structure Tracked (py : Python) (s : Sys) : Prop where
  aligned : Aligned s
  nextId : 0 < s.nextId
  rid : s.phase.Asked → 0 < s.call.rid
  queue : s.queue = s.queueBefore ++ (s.earlier ++ s.fresh).filterMap (notification py)
  value : ∀ v, s.phase = .done (.value v) → ∃ c old payload obj, s.conn = some c ∧
    Boundary (old ++ [payload]) c.consumed ∧ py.loads payload = .ok obj ∧
    Carries obj s.call.rid ∧ obj.get "result" = some v

theorem init_tracked (py : Python) : Tracked py init :=
  ⟨init_aligned, by decide, fun h => h.elim, rfl, fun _ h => (nomatch h)⟩

theorem Phase.Before.not_value {phase : Phase} (h : phase.Before ∨ phase.Failed) (v : Json) :
    phase ≠ .done (.value v) := by
  rintro rfl
  exact h.elim (fun hb => hb) (fun hf => hf)

theorem Phase.asked_before {phase : Phase} (h : phase.Before ∨ phase.Failed) (ha : phase.Asked) :
    phase = .drain := by
  cases phase with
  | drain => rfl
  | header => exact (h.elim (fun hb => hb) (fun hf => hf)).elim
  | body n => exact (h.elim (fun hb => hb) (fun hf => hf)).elim
  | handlers => exact (h.elim (fun hb => hb) (fun hf => hf)).elim
  | _ => exact ha.elim

/-- A stretch before the request frame. -/
theorem Tracked.opens {py : Python} {s s' : Sys} (haligned : Aligned s') (hnext : 0 < s.nextId)
    (hqueue : s.queue = s.queueBefore ++ (s.earlier ++ s.fresh).filterMap (notification py))
    (h : Opens s s') : Tracked py s' := by
  refine ⟨haligned, ?_, ?_, ?_, fun v hv => absurd hv (Phase.Before.not_value h.phase v)⟩
  · rcases h.ids with ⟨heq, _⟩ | ⟨heq, _⟩
    · omega
    · omega
  · intro hasked
    rw [h.asked (Phase.asked_before h.phase hasked)]
    exact hnext
  · rw [h.queue, h.queueBefore, h.read]
    exact hqueue

/-- A step that reads no payload. -/
theorem Tracked.rest {py : Python} {s s' : Sys} (h : Tracked py s) (haligned : Aligned s')
    (hnext : s'.nextId = s.nextId) (hrid : s'.phase.Asked → s.phase.Asked)
    (hcall : s'.call.rid = s.call.rid) (hqueue : s'.queue = s.queue)
    (hbefore : s'.queueBefore = s.queueBefore)
    (hread : s'.earlier ++ s'.fresh = s.earlier ++ s.fresh)
    (hvalue : ∀ v, s'.phase ≠ .done (.value v)) : Tracked py s' := by
  refine ⟨haligned, hnext ▸ h.nextId, fun ha => hcall ▸ h.rid (hrid ha), ?_,
    fun v hv => absurd hv (hvalue v)⟩
  rw [hqueue, hbefore, hread]
  exact h.queue

/-- Closing moves the payloads of this connection to the earlier ones. -/
theorem Tracked.closeConn {py : Python} {s t : Sys} (h : Tracked py s)
    (hsame : t.nextId = s.nextId ∧ t.used = s.used ∧ t.call.rid = s.call.rid ∧
      t.queue = s.queue ∧ t.queueBefore = s.queueBefore ∧ t.earlier = s.earlier ∧
      t.fresh = s.fresh) (after : AfterClose) : Tracked py (t.closeConn after) := by
  obtain ⟨hnext, hused, hrid, hqueue, hbefore, hearlier, hfresh⟩ := hsame
  refine h.rest (aligned_closeConn ?_ after) hnext (fun ha => ha.elim) hrid hqueue hbefore ?_
    (fun _ hv => nomatch hv)
  · rw [hused, hnext]
    exact h.aligned.ids
  · show t.earlier ++ t.fresh ++ [] = s.earlier ++ s.fresh
    rw [List.append_nil, hearlier, hfresh]

theorem Tracked.ioFailed {py : Python} {s t : Sys} (h : Tracked py s)
    (hsame : t.nextId = s.nextId ∧ t.used = s.used ∧ t.call.rid = s.call.rid ∧
      t.queue = s.queue ∧ t.queueBefore = s.queueBefore ∧ t.earlier = s.earlier ∧
      t.fresh = s.fresh) (description : Bytes) : Tracked py (t.ioFailed description) := by
  unfold Sys.ioFailed
  split
  · exact h.closeConn hsame .retry
  · exact h.closeConn hsame (.fail (ioFailedError t.call description))

/-- A payload that is no notification leaves the queue as it is. -/
theorem queue_skip {py : Python} {s : Sys} (h : Tracked py s) {payload : Bytes}
    (hnone : notification py payload = none) : s.queue =
      s.queueBefore ++ (s.earlier ++ (s.fresh ++ [payload])).filterMap (notification py) := by
  rw [← List.append_assoc, List.filterMap_append]
  simp only [List.filterMap_cons, hnone, List.filterMap_nil, List.append_nil]
  exact h.queue

theorem queue_put {py : Python} {s : Sys} (h : Tracked py s) {payload : Bytes} {obj : Json}
    (hsome : notification py payload = some obj) : s.queue ++ [obj] =
      s.queueBefore ++ (s.earlier ++ (s.fresh ++ [payload])).filterMap (notification py) := by
  rw [← List.append_assoc, List.filterMap_append, ← List.append_assoc, ← h.queue]
  simp only [List.filterMap_cons, hsome, List.filterMap_nil]

/-- The sorts of frames by the id that they carry. -/
theorem kind_cases {py : Python} {payload : Bytes} {obj : Json} (hloads : py.loads payload = .ok obj)
    (rid : Int) :
    (kind obj rid = .typeError ∧ notification py payload = none) ∨
    (kind obj rid = .notification ∧ notification py payload = some obj) ∨
    (∃ id, idOf obj = .ok (some id) ∧ notification py payload = none ∧
      ((kind obj rid = .reply ∧ eqId id rid = true) ∨
        (kind obj rid = .warmup ∧ eqId id rid = false ∧ isWarmupId id = true) ∨
        (kind obj rid = .mismatch id ∧ eqId id rid = false ∧ isWarmupId id = false))) := by
  unfold kind notification
  rw [hloads]
  dsimp only
  cases hid : idOf obj with
  | error e => exact Or.inl ⟨rfl, rfl⟩
  | ok id =>
    cases id with
    | none => exact Or.inr (Or.inl ⟨rfl, rfl⟩)
    | some id =>
      refine Or.inr (Or.inr ⟨id, rfl, rfl, ?_⟩)
      dsimp only
      cases heq : eqId id rid with
      | true => exact Or.inl ⟨rfl, rfl⟩
      | false =>
        cases hw : isWarmupId id with
        | true => exact Or.inr (Or.inl ⟨rfl, rfl, rfl⟩)
        | false => exact Or.inr (Or.inr ⟨rfl, rfl, rfl⟩)

/-- An object with an id in it is a dictionary. -/
theorem get_of_idOf {obj id : Json} (h : idOf obj = .ok (some id)) : obj.get "id" = some id := by
  cases obj with
  | dict members => exact Except.ok.inj h
  | list items =>
    unfold idOf at h
    dsimp only at h
    split at h <;> cases h
  | str t =>
    unfold idOf at h
    dsimp only at h
    split at h <;> cases h
  | null => cases h
  | bool b => cases h
  | int n => cases h
  | float value => cases h

theorem carries_of_eqId {obj id : Json} {rid : Int} (hid : obj.get "id" = some id)
    (heq : eqId id rid = true) (hpos : 0 < rid) (htrue : ¬ (id = .bool true ∧ rid = 1)) :
    Carries obj rid := by
  unfold Carries
  rw [hid]
  cases id with
  | int n =>
    have hn : n = rid := of_decide_eq_true heq
    exact Or.inl (by rw [hn])
  | float value =>
    cases value with
    | none => cases heq
    | some q =>
      have hq : q = rid := of_decide_eq_true heq
      exact Or.inr (by rw [hq])
  | bool b =>
    have hb : (if b then 1 else 0) = rid := of_decide_eq_true heq
    cases b with
    | true => exact absurd ⟨rfl, hb.symm⟩ htrue
    | false =>
      have hzero : (0 : Int) = rid := hb
      omega
  | null => cases heq
  | str t => cases heq
  | list items => cases heq
  | dict members => cases heq

/-- A value is the result of a reply. -/
theorem evaluate_value {py : Python} {resp v : Json} (h : evaluate py resp = .value v) :
    resp.get "result" = some v := by
  unfold evaluate at h
  split at h
  · split at h
    · split at h <;> cases h
    · cases h
  · split at h
    · rename_i w hw
      cases h
      exact hw
    · cases h

/-- A whole frame has been read. -/
theorem Tracked.takeFrame {py : Python} {s : Sys} (h : Tracked py s) (now : Rat) {n : Nat}
    (hphase : s.phase = .body n) {c : Conn} {payload : Bytes}
    (hplaced : Boundary (s.fresh ++ [payload]) c.consumed)
    (htrue : ∀ obj, py.loads payload = .ok obj →
      ¬ (obj.get "id" = some (.bool true) ∧ s.call.rid = 1)) :
    Tracked py ({ s with conn := some c }.takeFrame py now payload) := by
  have hrid : 0 < s.call.rid := h.rid (by rw [hphase]; trivial)
  have haligned : Aligned ({ s with conn := some c }.takeFrame py now payload) := by
    refine aligned_takeFrame py now h.aligned.ids ?_
    intro c' hc'
    cases hc'
    exact hplaced
  have hkeep : ∀ s' : Sys, Aligned s' → s'.nextId = s.nextId → s'.call.rid = s.call.rid →
      s'.queueBefore = s.queueBefore → s'.earlier ++ s'.fresh = s.earlier ++ (s.fresh ++ [payload]) →
      s'.queue =
        s.queueBefore ++ (s.earlier ++ (s.fresh ++ [payload])).filterMap (notification py) →
      (∀ v, s'.phase = .done (.value v) → ∃ c old payload obj, s'.conn = some c ∧
        Boundary (old ++ [payload]) c.consumed ∧ py.loads payload = .ok obj ∧
        Carries obj s.call.rid ∧ obj.get "result" = some v) → Tracked py s' := by
    intro s' ha hnext hcall hbefore hread hqueue hvalue
    refine ⟨ha, hnext ▸ h.nextId, fun _ => hcall ▸ hrid, ?_, ?_⟩
    · rw [hbefore, hread]
      exact hqueue
    · rw [hcall]
      exact hvalue
  unfold Sys.takeFrame at haligned ⊢
  dsimp only at haligned ⊢
  cases hloads : py.loads payload with
  | error e =>
    rw [hloads] at haligned
    have hnone : notification py payload = none := by unfold notification; rw [hloads]
    refine hkeep _ haligned rfl rfl rfl rfl (queue_skip h hnone) ?_
    intro v hv
    cases e with
    | undecodable text => cases hv
    | raised e => cases hv
  | ok obj =>
    rw [hloads] at haligned
    dsimp only at haligned ⊢
    rcases kind_cases hloads s.call.rid with ⟨hk, hnone⟩ | ⟨hk, hsome⟩ | ⟨id, hid, hnone, hsort⟩
    · rw [hk] at haligned ⊢
      exact hkeep _ haligned rfl rfl rfl rfl (queue_skip h hnone) (fun _ hv => nomatch hv)
    · rw [hk] at haligned ⊢
      exact hkeep _ haligned rfl rfl rfl rfl (queue_put h hsome) (fun _ hv => nomatch hv)
    · rcases hsort with ⟨hk, heq⟩ | ⟨hk, _⟩ | ⟨hk, _⟩
      · rw [hk] at haligned ⊢
        refine hkeep _ haligned rfl rfl rfl rfl (queue_skip h hnone) ?_
        intro v hv
        have hget := get_of_idOf hid
        have hnot : ¬ (id = .bool true ∧ s.call.rid = 1) := by
          rintro ⟨rfl, hone⟩
          exact htrue obj hloads ⟨hget, hone⟩
        exact ⟨c, s.fresh, payload, obj, rfl, hplaced, hloads,
          carries_of_eqId hget heq hrid hnot, evaluate_value (Phase.done.inj hv)⟩
      · rw [hk] at haligned ⊢
        exact hkeep _ haligned rfl rfl rfl rfl (queue_skip h hnone) (fun _ hv => nomatch hv)
      · rw [hk] at haligned ⊢
        refine hkeep _ haligned rfl rfl rfl ?_ (queue_skip h hnone) (fun _ hv => nomatch hv)
        exact List.append_nil _

theorem Tracked.readHeader {py : Python} {s : Sys} (h : Tracked py s) (hphase : s.phase = .header)
    {c : Conn} {event : ReadEvent} (haligned : Aligned (s.readHeader c event)) :
    Tracked py (s.readHeader c event) := by
  unfold Sys.readHeader at haligned ⊢
  dsimp only at haligned ⊢
  cases hres : (c.read 4 event).2 with
  | got hdr =>
    rw [hres] at haligned
    dsimp only at haligned ⊢
    split at haligned
    · rename_i hbad
      rw [if_pos hbad]
      exact h.rest haligned rfl (fun ha => ha.elim) rfl rfl rfl rfl (fun _ hv => nomatch hv)
    · rename_i hgood
      rw [if_neg hgood]
      refine h.rest haligned rfl (fun _ => ?_) rfl rfl rfl rfl (fun _ hv => nomatch hv)
      rw [hphase]
      trivial
  | timedOut => exact h.closeConn ⟨rfl, rfl, rfl, rfl, rfl, rfl, rfl⟩ _
  | ioError description => exact h.ioFailed ⟨rfl, rfl, rfl, rfl, rfl, rfl, rfl⟩ description

theorem Tracked.readBody {py : Python} {s : Sys} (h : Tracked py s) {n : Nat}
    (hphase : s.phase = .body n) {c : Conn} (hc : s.conn = some c) {event : ReadEvent} {now : Rat}
    (hok : Orderly py s (.read event now)) : Tracked py (s.readBody py now c n event) := by
  have htakes := hok.2
  unfold takesTrue at htakes
  rw [hc, hphase] at htakes
  dsimp only at htakes
  unfold Sys.readBody
  dsimp only
  cases hres : (c.read n event).2 with
  | got payload =>
    rw [hres] at htakes
    dsimp only at htakes
    obtain ⟨hlen, hconsumed⟩ := Conn.read_got hres
    refine h.takeFrame now hphase ?_ ?_
    · rw [hconsumed]
      exact (h.aligned.midFrame (by rw [hphase]; rfl) hc).body hlen
    · rintro obj hloads ⟨hid, hone⟩
      rw [hloads] at htakes
      dsimp only at htakes
      rw [hid] at htakes
      exact of_decide_eq_false htakes hone
  | timedOut => exact h.closeConn ⟨rfl, rfl, rfl, rfl, rfl, rfl, rfl⟩ _
  | ioError description => exact h.ioFailed ⟨rfl, rfl, rfl, rfl, rfl, rfl, rfl⟩ description

theorem Tracked.warmReadHeader {py : Python} {s : Sys} (h : Tracked py s) {i : Nat} {c : Conn}
    {event : ReadEvent} (haligned : Aligned (s.warmReadHeader i c event)) :
    Tracked py (s.warmReadHeader i c event) := by
  unfold Sys.warmReadHeader at haligned ⊢
  dsimp only at haligned ⊢
  cases hres : (c.read 4 event).2 with
  | got hdr =>
    rw [hres] at haligned
    dsimp only at haligned ⊢
    split at haligned
    · rename_i hbad
      rw [if_pos hbad]
      exact h.rest haligned rfl (fun ha => ha.elim) rfl rfl rfl rfl (fun _ hv => nomatch hv)
    · rename_i hgood
      rw [if_neg hgood]
      exact h.rest haligned rfl (fun ha => ha.elim) rfl rfl rfl rfl (fun _ hv => nomatch hv)
  | timedOut =>
    rw [hres] at haligned
    exact h.rest haligned rfl (fun ha => ha.elim) rfl rfl rfl rfl (fun _ hv => nomatch hv)
  | ioError description =>
    rw [hres] at haligned
    exact h.rest haligned rfl (fun ha => ha.elim) rfl rfl rfl rfl (fun _ hv => nomatch hv)

theorem Tracked.drainEnds {py : Python} {s : Sys} (h : Tracked py s) (hphase : s.phase = .drain)
    (how : Drained) {handed : Nat} (haligned : Aligned (s.drainEnds py how handed)) :
    Tracked py (s.drainEnds py how handed) := by
  cases how with
  | ok =>
    refine h.rest haligned rfl (fun _ => ?_) rfl rfl rfl rfl (fun _ hv => nomatch hv)
    rw [hphase]
    trivial
  | timeout =>
    refine h.closeConn ?_ _
    exact ⟨rfl, rfl, rfl, rfl, rfl, rfl, rfl⟩
  | broken description =>
    refine h.ioFailed ?_ description
    exact ⟨rfl, rfl, rfl, rfl, rfl, rfl, rfl⟩
  | cancelled =>
    exact h.rest haligned rfl (fun ha => ha.elim) rfl rfl rfl rfl (fun _ hv => nomatch hv)

/-- Every orderly step keeps track of the payloads. -/
theorem Tracked.step {py : Python} {s s' : Sys} {a : Label} (h : Tracked py s)
    (hok : Orderly py s a) (hstep : step py s a = some s') : Tracked py s' := by
  have haligned := h.aligned.step hok.1 hstep
  cases step_cases hstep with
  | start method params timeoutText atEof now hphase =>
    refine Tracked.opens haligned ?_ ?_ (opens_beginAttempt py atEof now _)
    · exact h.nextId
    · exact (List.append_nil _).symm
  | opens _ _ hbefore hnone hopens => exact Tracked.opens haligned h.nextId h.queue hopens
  | warmHeader i _ hphase =>
    exact h.rest haligned rfl (fun ha => ha.elim) rfl rfl rfl rfl (fun _ hv => nomatch hv)
  | warmReadHeader i c event now hphase hc => exact h.warmReadHeader haligned
  | warmReadBody i n c event now hphase hc =>
    exact h.rest haligned rfl (fun ha => ha.elim) rfl rfl rfl rfl (fun _ hv => nomatch hv)
  | drained how handed hphase => exact h.drainEnds hphase how haligned
  | readHeader c event now hphase hc => exact h.readHeader hphase haligned
  | readBody n c event now hphase hc => exact h.readBody hphase hc hok
  | handled hphase =>
    refine h.rest haligned rfl (fun _ => ?_) rfl rfl rfl rfl (fun _ hv => nomatch hv)
    rw [hphase]
    trivial
  | failed e now hphase =>
    exact h.rest haligned rfl (fun ha => ha.elim) rfl rfl rfl rfl (fun _ hv => nomatch hv)
  | cancel hdone hidle hdrain =>
    exact h.rest haligned rfl (fun ha => ha.elim) rfl rfl rfl rfl (fun _ hv => nomatch hv)

/-! ## Calls -/

/-- The ids of requests are positive, those of warm-up probes are not. -/
theorem eqId_warmup {id : Json} {rid : Int} (hw : isWarmupId id = true) (hpos : 0 < rid) :
    eqId id rid = false := by
  cases id with
  | int n =>
    have hle : n ≤ warmupIdBase := of_decide_eq_true hw
    apply decide_eq_false
    unfold warmupIdBase at hle
    omega
  | null => cases hw
  | bool b => cases hw
  | float value => cases hw
  | str t => cases hw
  | list items => cases hw
  | dict members => cases hw

/-- A late reply to a warm-up probe is passed over. -/
theorem Tracked.skips {py : Python} {s s' : Sys} {event : ReadEvent} {now : Rat}
    (h : Tracked py s) (hlate : LateWarmup py s event)
    (hstep : AmigaFleet.Host.Transport.step py s (.read event now) = some s') :
    s'.phase = .header ∧ s'.call = s.call ∧ s'.queue = s.queue := by
  obtain ⟨n, c, payload, obj, id, hphase, hc, hgot, hloads, hid, hw⟩ := hlate
  have hne := eqId_warmup hw (h.rid (by rw [hphase]; trivial))
  have hkind : kind obj s.call.rid = .warmup := by
    unfold kind
    rw [hid]
    dsimp only
    rw [hne, hw]
    rfl
  unfold AmigaFleet.Host.Transport.step at hstep
  rw [hc, hphase] at hstep
  dsimp only at hstep
  cases hstep
  unfold Sys.readBody Sys.takeFrame
  dsimp only
  rw [hgot]
  dsimp only
  rw [hloads]
  dsimp only
  rw [hkind]
  exact ⟨rfl, rfl, rfl⟩

theorem Tracked.correlated {py : Python} {s : Sys} (h : Tracked py s) : Correlated py s :=
  ⟨h.value, fun _ _ _ hlate hstep => h.skips hlate hstep, h.queue,
    fun _ hc hnone => h.aligned.boundary hnone hc⟩

/-- In every orderly run, values, notifications and late warm-up replies are
told apart. -/
theorem calls_correlated (py : Python) (as : List Label) (s : Sys)
    (hok : Along (step py) (Orderly py) init as) (hrun : run (step py) init as = some s) :
    Correlated py s := by
  have hinv : Tracked py s :=
    run_invariant (fun _ _ _ h hok hstep => h.step hok hstep) (init_tracked py) hok hrun
  exact hinv.correlated

def alertNote : Json :=
  .dict [(ascii "jsonrpc", .str (ascii "2.0")), (ascii "method", .str (ascii "events.notify"))]

/-- The frames behind a reconnect: the replies to the two warm-up probes, late, with a
notification between them, and then the reply to request 2. -/
def lateFrames : List Json := [pong (.int (-100)), alertNote, pong (.int (-101)), pong (.int 2)]

/-- The first attempt ends with a reset; on the new connection no probe is answered
in time, and the frames come behind the request. -/
def retriedCall : List Label :=
  callOn "sys.uptime" [] ++ [.read (.broken (ascii "reset")) 0, .closed 0,
    .connected (lateFrames.flatMap fun obj => frame (Json.dumps (fun _ => []) obj)) 0,
    .drained .ok 100, .read .timeout 0, .slept 0, .drained .ok 100, .read .timeout 0, .slept 0,
    .drained .ok 100, .read .ready 0, .read .ready 0, .read .ready 0, .read .ready 0, .handled,
    .read .ready 0, .read .ready 0, .read .ready 0, .read .ready 0]

set_option maxRecDepth 4000 in
theorem calls_correlated_sample : ∃ s, run (step (pythonForAll lateFrames)) init retriedCall = some s ∧
    s.phase = .done (.value (.int 5)) ∧ s.queue = [alertNote] ∧
      Correlated (pythonForAll lateFrames) s :=
  ⟨_, rfl, rfl, rfl, calls_correlated (pythonForAll lateFrames) retriedCall _ (by decide +kernel) rfl⟩

/-- The first attempt ends with a reset; on the new connection the peer sends
a late reply to the first warm-up probe, and the probe gives up before its
body. -/
def lateReply : List Label :=
  callOn "sys.uptime" [] ++ [.read (.broken (ascii "reset")) 0, .closed 0,
    .connected (frame (Json.dumps (fun _ => []) (pong (.int (-100))))) 0, .drained .ok 100,
    .read .ready 0, .read .timeout 0, .slept 0, .drained .ok 100, .read .ready 0]

/-- The second probe reads the body of the late reply as a header, and the
call fails. -/
theorem late_reply_cut : ∃ s n,
    run (step (pythonFor (pong (.int (-100))))) init lateReply = some s ∧
    s.phase = .done (.jsonRpc (badLengthError n)) ∧
    ¬ Correlated (pythonFor (pong (.int (-100)))) s := by
  refine ⟨_, _, rfl, rfl, ?_⟩
  intro hcor
  have hfirst := (hcor.stream _ rfl rfl).wholeFrames.first (by decide) (by decide)
  exact absurd hfirst.2.2 (by decide)

end AmigaFleet.Host.Transport

import AmigaFleet.Host.TransportSteps
import AmigaFleet.Lib.Run

/-!
# At-most-once delivery

A call of a method outside `IDEMPOTENT_METHODS` may reach the daemon once, and
when it may have, its error has to say so.  The code decides both from `sent`,
which it sets after `drain` has returned.

`sent` is too small when `drain` raises although the daemon has the whole
frame: the frame is sent again, or the error says that the call has not run.
And an error that the reply stream itself causes (a bad length, a payload that
is not JSON, another id, neither result nor error) says nothing at all.
`hidesDelivery` names these steps; `call_at_most_once` holds in every run
without them, and `sent_twice` is a run in which `sys.reboot` goes out twice.
-/

namespace AmigaFleet.Host.Transport

open AmigaFleet.Lib
open AmigaFleet.Mcpd (ascii)

/-- The error tells the caller that the call may have run: in its data, or by
being the daemon's own answer to the call. -/
def Reports (s : Sys) (e : JsonRpcError) : Prop :=
  e.data.get "may_have_run" = some (.bool true) ∨
    ∃ resp, s.call.resp = some resp ∧ (resp.get "error").isSome = true

/-- What the daemon and the caller know of a call. -/
structure AtMostOnce (s : Sys) : Prop where
  once : s.delivered ≤ 1
  reported : ∀ e, s.phase = .done (.jsonRpc e) → 0 < s.delivered → Reports s e

/-! ## The condition -/

/-- The frame makes `request` raise an error without data. -/
def silentFrame (py : Python) (rid : Int) (payload : Bytes) : Bool :=
  match py.loads payload with
  | .error (.undecodable _) => true
  | .error (.raised _) => false
  | .ok obj =>
    match kind obj rid with
    | .mismatch _ => true
    | .reply => (obj.get "error").isNone && (obj.get "result").isNone
    | _ => false

/-- `drain` raises although the peer has the whole frame, or a frame of the
peer makes a call fail whose request the peer has. -/
def hidesDelivery (py : Python) (s : Sys) (a : Label) : Bool :=
  match s.phase, a with
  | .drain, .drained .timeout handed => s.frameLength py ≤ handed
  | .drain, .drained (.broken _) handed => s.frameLength py ≤ handed
  | .header, .read event _ =>
    match s.conn with
    | some c =>
      match (c.read 4 event).2 with
      | .got hdr => 0 < s.delivered ∧ badLength (be32 hdr)
      | _ => false
    | none => false
  | .body n, .read event _ =>
    match s.conn with
    | some c =>
      match (c.read n event).2 with
      | .got payload => 0 < s.delivered ∧ silentFrame py s.call.rid payload = true
      | _ => false
    | none => false
  | _, _ => false

/-- A step of an idempotent call, or one after which `sent` and the error say
what the daemon has. -/
def Candid (py : Python) (s : Sys) (a : Label) : Prop :=
  isIdempotent s.call.method = true ∨ hidesDelivery py s a = false

instance (py : Python) (s : Sys) (a : Label) : Decidable (Candid py s a) :=
  inferInstanceAs (Decidable (_ ∨ _))

/-! ## The invariant -/

/-- What is known of the delivery at each await. -/
def Told (s : Sys) : Prop :=
  match s.phase with
  | .header | .body _ | .handlers => s.delivered ≤ 1 ∧ s.call.sent = true
  | .closing (.fail e) =>
    s.delivered ≤ 1 ∧ (0 < s.delivered → e.data.get "may_have_run" = some (.bool true))
  | .done out => s.delivered ≤ 1 ∧ ∀ e, out = .jsonRpc e → 0 < s.delivered → Reports s e
  | _ => s.delivered = 0

/-- The invariant speaks of calls that may run once only. -/
def Safe (s : Sys) : Prop := isIdempotent s.call.method = false → Told s

theorem init_safe : Safe init := fun _ => rfl

theorem Told.once {s : Sys} (h : Told s) : s.delivered ≤ 1 := by
  unfold Told at h
  split at h
  · exact h.1
  · exact h.1
  · exact h.1
  · exact h.1
  · exact h.1
  · omega

/-- Before the request frame is out the daemon has nothing. -/
theorem Told.before {s : Sys} (h : Told s) (hbefore : s.phase.Before) : s.delivered = 0 := by
  unfold Told at h
  cases hphase : s.phase with
  | closing after =>
    rw [hphase] at h hbefore
    cases after with
    | fail e => exact hbefore.elim
    | connect => exact h
    | warmup i => exact h
    | retry => exact h
  | idle => rw [hphase] at hbefore; exact hbefore.elim
  | header => rw [hphase] at hbefore; exact hbefore.elim
  | body n => rw [hphase] at hbefore; exact hbefore.elim
  | handlers => rw [hphase] at hbefore; exact hbefore.elim
  | done out => rw [hphase] at hbefore; exact hbefore.elim
  | _ => rw [hphase] at h; exact h

/-- With nothing delivered there is nothing to report. -/
theorem told_of_none {s : Sys} (hphase : s.phase.Before ∨ s.phase.Failed)
    (hnone : s.delivered = 0) : Told s := by
  have hle : s.delivered ≤ 1 := by omega
  unfold Told
  cases hcase : s.phase with
  | done out => exact ⟨hle, fun e _ hpos => absurd hpos (by omega)⟩
  | closing after =>
    cases after with
    | fail e => exact ⟨hle, fun hpos => absurd hpos (by omega)⟩
    | connect => exact hnone
    | warmup i => exact hnone
    | retry => exact hnone
  | header => rw [hcase] at hphase; exact (hphase.elim id id).elim
  | body n => rw [hcase] at hphase; exact (hphase.elim id id).elim
  | handlers => rw [hcase] at hphase; exact (hphase.elim id id).elim
  | _ => exact hnone

/-- The data of a failure tells what `sent` is. -/
theorem failureData_get (c : Call) :
    (failureData c).get "may_have_run" = some (.bool c.sent) := rfl

/-- A timeout tells the caller what `sent` is. -/
theorem told_timedOut {s : Sys} (h : s.delivered ≤ 1) (hsent : 0 < s.delivered → s.call.sent = true) :
    Told s.timedOut := by
  refine ⟨h, fun hpos => ?_⟩
  show (failureData s.call).get "may_have_run" = some (.bool true)
  rw [failureData_get, hsent hpos]

/-- A broken connection is retried only when nothing has been delivered. -/
theorem told_ioFailed {s : Sys} (hmethod : isIdempotent s.call.method = false)
    (h : s.delivered ≤ 1) (hsent : 0 < s.delivered → s.call.sent = true) (description : Bytes) :
    Told (s.ioFailed description) := by
  unfold Sys.ioFailed
  split
  · rename_i hretry
    have hunsent : s.call.sent = false :=
      hretry.2.resolve_right (by rw [hmethod]; exact Bool.false_ne_true)
    show s.delivered = 0
    rcases Nat.eq_zero_or_pos s.delivered with hzero | hpos
    · exact hzero
    · have htrue := hsent hpos
      rw [hunsent] at htrue
      cases htrue
  · refine ⟨h, fun hpos => ?_⟩
    show (failureData s.call).get "may_have_run" = some (.bool true)
    rw [failureData_get, hsent hpos]

theorem told_drainEnds {py : Python} {s : Sys} (hmethod : isIdempotent s.call.method = false)
    (hnone : s.delivered = 0) {how : Drained} {handed : Nat}
    (hok : how = .timeout ∨ (∃ description, how = .broken description) →
      ¬ s.frameLength py ≤ handed) : Told (s.drainEnds py how handed) := by
  have hle : s.delivered + (if s.frameLength py ≤ handed then 1 else 0) ≤ 1 := by
    split <;> omega
  have hkept : ¬ s.frameLength py ≤ handed →
      s.delivered + (if s.frameLength py ≤ handed then 1 else 0) = 0 := by
    intro hshort
    rw [if_neg hshort, hnone]
  cases how with
  | ok => exact ⟨hle, rfl⟩
  | timeout =>
    refine told_timedOut hle fun hpos => ?_
    have hzero := hkept (hok (Or.inl rfl))
    exact absurd hpos (by rw [hzero]; exact Nat.lt_irrefl 0)
  | broken description =>
    refine told_ioFailed ?_ ?_ (fun hpos => ?_) description
    · exact hmethod
    · exact hle
    have hzero := hkept (hok (Or.inr ⟨description, rfl⟩))
    exact absurd hpos (by rw [hzero]; exact Nat.lt_irrefl 0)
  | cancelled => exact ⟨hle, fun e he => nomatch he⟩

theorem told_readHeader {s : Sys} (hmethod : isIdempotent s.call.method = false)
    (hle : s.delivered ≤ 1) (hsent : s.call.sent = true) {c : Conn} {event : ReadEvent}
    (hok : ∀ hdr, (c.read 4 event).2 = .got hdr → ¬ (0 < s.delivered ∧ badLength (be32 hdr))) :
    Told (s.readHeader c event) := by
  unfold Sys.readHeader
  dsimp only
  split
  · rename_i hdr hgot
    split
    · rename_i hbad
      refine ⟨hle, fun e _ hpos => ?_⟩
      exact absurd ⟨hpos, hbad⟩ (hok hdr hgot)
    · exact ⟨hle, hsent⟩
  · exact told_timedOut hle fun _ => hsent
  · exact told_ioFailed hmethod hle (fun _ => hsent) _

/-- An error from a reply that has a result or an error is the daemon's own. -/
theorem evaluate_jsonRpc {py : Python} {resp : Json} {e : JsonRpcError}
    (h : evaluate py resp = .jsonRpc e)
    (hsome : ((resp.get "error").isNone && (resp.get "result").isNone) = false) :
    (resp.get "error").isSome = true := by
  cases herr : resp.get "error" with
  | some err => rfl
  | none =>
    unfold evaluate at h
    rw [herr] at h hsome
    dsimp only at h
    cases hres : resp.get "result" with
    | some v =>
      rw [hres] at h
      cases h
    | none =>
      rw [hres] at hsome
      cases hsome

theorem told_takeFrame {py : Python} {s : Sys} (now : Rat) (hle : s.delivered ≤ 1)
    (hsent : s.call.sent = true) {payload : Bytes}
    (hok : ¬ (0 < s.delivered ∧ silentFrame py s.call.rid payload = true)) :
    Told (s.takeFrame py now payload) := by
  have hloud : 0 < s.delivered → silentFrame py s.call.rid payload = false :=
    fun hpos => Bool.eq_false_iff.mpr fun hs => hok ⟨hpos, hs⟩
  unfold silentFrame at hloud
  unfold Sys.takeFrame
  dsimp only
  cases hloads : py.loads payload with
  | error e =>
    rw [hloads] at hloud
    cases e with
    | undecodable text => exact ⟨hle, fun _ _ hpos => nomatch hloud hpos⟩
    | raised e => exact ⟨hle, fun _ he => nomatch he⟩
  | ok obj =>
    rw [hloads] at hloud
    dsimp only at hloud ⊢
    cases hkind : kind obj s.call.rid with
    | reply =>
      rw [hkind] at hloud
      refine ⟨hle, fun e he hpos => Or.inr ⟨obj, rfl, ?_⟩⟩
      exact evaluate_jsonRpc he (hloud hpos)
    | notification => exact ⟨hle, hsent⟩
    | warmup => exact ⟨hle, hsent⟩
    | mismatch id =>
      rw [hkind] at hloud
      exact ⟨hle, fun hpos => nomatch hloud hpos⟩
    | typeError => exact ⟨hle, fun e he => nomatch he⟩

theorem told_readBody {py : Python} {s : Sys} (now : Rat)
    (hmethod : isIdempotent s.call.method = false) (hle : s.delivered ≤ 1)
    (hsent : s.call.sent = true) {c : Conn} {n : Nat} {event : ReadEvent}
    (hok : ∀ payload, (c.read n event).2 = .got payload →
      ¬ (0 < s.delivered ∧ silentFrame py s.call.rid payload = true)) :
    Told (s.readBody py now c n event) := by
  unfold Sys.readBody
  dsimp only
  split
  · rename_i payload hgot
    refine told_takeFrame now ?_ ?_ ?_
    · exact hle
    · exact hsent
    · exact hok payload hgot
  · exact told_timedOut hle fun _ => hsent
  · exact told_ioFailed hmethod hle (fun _ => hsent) _

/-- A read for a warm-up probe comes before the request frame. -/
theorem told_warmReadHeader {s : Sys} (hnone : s.delivered = 0) (i : Nat) (c : Conn)
    (event : ReadEvent) : Told (s.warmReadHeader i c event) := by
  unfold Sys.warmReadHeader
  dsimp only
  split
  · split
    · exact told_of_none (Or.inr trivial) hnone
    · exact told_of_none (Or.inl trivial) hnone
  · exact told_of_none (Or.inl trivial) hnone

/-- While the reply is awaited, the frame is out. -/
theorem Told.awaiting {s : Sys} (h : Told s)
    (hphase : s.phase = .header ∨ (∃ n, s.phase = .body n) ∨ s.phase = .handlers) :
    s.delivered ≤ 1 ∧ s.call.sent = true := by
  unfold Told at h
  rcases hphase with hphase | ⟨n, hphase⟩ | hphase <;> rw [hphase] at h <;> exact h

/-- Every candid step keeps what is told. -/
theorem Safe.step {py : Python} {s s' : Sys} {a : Label} (h : Safe s) (hok : Candid py s a)
    (hstep : step py s a = some s') : Safe s' := by
  have hcandid : isIdempotent s.call.method = false → hidesDelivery py s a = false :=
    fun hmethod => hok.resolve_left (by rw [hmethod]; exact Bool.false_ne_true)
  unfold hidesDelivery at hcandid
  cases step_cases hstep with
  | start method params timeoutText atEof now hphase =>
    intro _
    have hopens := opens_beginAttempt py atEof now
      { s with
        call := { method := method, params := params, timeoutText := timeoutText }
        delivered := 0
        used := []
        queueBefore := s.queue
        earlier := []
        fresh := [] }
    exact told_of_none hopens.phase hopens.delivered
  | opens _ _ hbefore hnone hopens =>
    intro hmethod
    rw [hopens.method] at hmethod
    exact told_of_none hopens.phase (hopens.delivered.trans ((h hmethod).before hbefore))
  | warmHeader i _ hphase =>
    intro hmethod
    exact (h hmethod).before (by rw [hphase]; trivial)
  | warmReadHeader i c event now hphase hc =>
    intro hmethod
    rw [warmReadHeader_method] at hmethod
    exact told_warmReadHeader ((h hmethod).before (by rw [hphase]; trivial)) i c event
  | warmReadBody i n c event now hphase hc =>
    intro hmethod
    exact (h hmethod).before (by rw [hphase]; trivial)
  | drained how handed hphase =>
    intro hmethod
    rw [drainEnds_method] at hmethod
    refine told_drainEnds hmethod ((h hmethod).before (by rw [hphase]; trivial)) ?_
    have hsent := hcandid hmethod
    rw [hphase] at hsent
    rintro (rfl | ⟨description, rfl⟩)
    · exact of_decide_eq_false hsent
    · exact of_decide_eq_false hsent
  | readHeader c event now hphase hc =>
    intro hmethod
    rw [readHeader_method] at hmethod
    obtain ⟨hle, hsent⟩ := (h hmethod).awaiting (Or.inl hphase)
    refine told_readHeader hmethod hle hsent fun hdr hgot => ?_
    have hread := hcandid hmethod
    rw [hphase, hc] at hread
    dsimp only at hread
    rw [hgot] at hread
    exact of_decide_eq_false hread
  | readBody n c event now hphase hc =>
    intro hmethod
    rw [readBody_method] at hmethod
    obtain ⟨hle, hsent⟩ := (h hmethod).awaiting (Or.inr (Or.inl ⟨n, hphase⟩))
    refine told_readBody now hmethod hle hsent fun payload hgot => ?_
    have hread := hcandid hmethod
    rw [hphase, hc] at hread
    dsimp only at hread
    rw [hgot] at hread
    exact of_decide_eq_false hread
  | handled hphase =>
    intro hmethod
    exact (h hmethod).awaiting (Or.inr (Or.inr hphase))
  | failed e now hphase =>
    intro hmethod
    have htold := h hmethod
    unfold Told at htold
    rw [hphase] at htold
    refine ⟨htold.1, fun e' he' hpos => Or.inl ?_⟩
    cases he'
    exact htold.2 hpos
  | cancel hdone hidle hdrain =>
    intro hmethod
    exact ⟨(h hmethod).once, fun e he => nomatch he⟩

/-! ## Calls -/

theorem Told.atMostOnce {s : Sys} (h : Told s) : AtMostOnce s := by
  refine ⟨h.once, fun e hphase hpos => ?_⟩
  unfold Told at h
  rw [hphase] at h
  exact h.2 e rfl hpos

/-- In every candid run, a call that is not idempotent reaches the daemon once
at most, and its error reports it when it may have. -/
theorem call_at_most_once (py : Python) (as : List Label) (s : Sys)
    (hok : Along (step py) (Candid py) init as) (hrun : run (step py) init as = some s)
    (hmethod : isIdempotent s.call.method = false) : AtMostOnce s := by
  have hinv : Safe s :=
    run_invariant (fun _ _ _ h hok hstep => h.step hok hstep) init_safe hok hrun
  exact (hinv hmethod).atMostOnce

/-- A reply that does not come. -/
theorem call_at_most_once_sample : ∃ s e, run (step (pythonFor .null)) init
      (callOn "sys.reboot" [] ++ [.read .timeout 0, .closed 0]) = some s ∧
    s.delivered = 1 ∧ s.phase = .done (.jsonRpc e) ∧ AtMostOnce s :=
  ⟨_, _, rfl, rfl, rfl, call_at_most_once (pythonFor .null)
    (callOn "sys.reboot" [] ++ [.read .timeout 0, .closed 0]) _ (by decide +kernel) rfl
    (by decide +kernel)⟩

/-- The drain of the first attempt is reset after the peer has the whole
frame. -/
def lostDrain : List Label :=
  [.start (ascii "sys.reboot") none (ascii "30.0") false 0, .connected [] 0,
    .drained (.broken (ascii "Connection reset by peer")) 100, .closed 0, .connected [] 0,
    .drained .ok 100, .read .timeout 0, .slept 0, .drained .ok 100, .read .timeout 0, .slept 0,
    .drained .ok 100]

/-- The request is sent again, and the daemon has it twice. -/
theorem sent_twice : ∃ s, run (step (pythonFor .null)) init lostDrain = some s ∧
    isIdempotent s.call.method = false ∧ s.delivered = 2 ∧ ¬ AtMostOnce s := by
  refine ⟨_, rfl, by decide +kernel, by decide +kernel, ?_⟩
  intro h
  exact absurd h.once (by decide +kernel)

end AmigaFleet.Host.Transport

import AmigaFleet.Mcpd.Events

/-!
# Alert notifications are complete and chained

From each of its subscribe calls to the next one, a client gets exactly one
notification `sys.lastalert` for each change of the codes that its polls
sample.  Each starts at the code that the one before it has reported, and the
first one at the baseline, which is the code of the first poll.

A subscribe call starts over even where the client has been subscribed before.
A change that comes up between the last poll before the call and the first one
behind it is reported to nobody: `missed_change`.
-/

namespace AmigaFleet.Mcpd.Events

open AmigaFleet.Lib

/-! ## What a client sees -/

def Sent.change : Sent → Option (Change UInt32)
  | .lastalert change => some change
  | _ => none

def Worker.alerts (w : Worker) : List (Change UInt32) := w.written.filterMap Sent.change

/-- The alert notifications on connection `i`. -/
def Daemon.alerts (d : Daemon) (i : Nat) : List (Change UInt32) :=
  (d.workers i).elim [] Worker.alerts

/-- `topics` of a subscribe call lists `sys.lastalert`. -/
def wantsLastalert (params : Option CJson) : Bool :=
  match params.bind (CJson.getItem (ascii "topics")) with
  | some (.array items) => items.any fun
    | .string text => text = ascii "sys.lastalert"
    | _ => false
  | _ => false

/-- Client `i` stays subscribed to `sys.lastalert`. -/
def Label.keeps (i : Nat) : Label → Bool
  | .request j _ (.subscribe params) => j ≠ i || wantsLastalert params
  | .request j _ .unsubscribe => j ≠ i
  | .disconnect j => j ≠ i
  | _ => true

/-- What client `i` notices of a step: its subscribe call, or the code that its
poll samples. -/
inductive Seen where
  | subscribed
  | sampled (code : UInt32)
deriving DecidableEq, Repr

def Daemon.seen (d : Daemon) (i : Nat) : Label → Option Seen
  | .request j _ (.subscribe _) => if j = i then some .subscribed else none
  | .drain j _ | .timeout j _ => if j = i then some (.sampled d.lastAlert) else none
  | _ => none

/-- What client `i` notices along a run. -/
def history (i : Nat) (d : Daemon) : List Label → List Seen
  | [] => []
  | a :: as =>
    match step d a with
    | none => []
    | some d' => (d.seen i a).toList ++ history i d' as

def Seen.code : Seen → Option UInt32
  | .subscribed => none
  | .sampled code => some code

/-- The codes that the polls of client `i` sample, in one list for each
subscription. -/
def periods (i : Nat) (d : Daemon) (as : List Label) : List (List UInt32) :=
  ((history i d as).splitOn .subscribed).map fun seen => seen.filterMap Seen.code

/-- The reports of a row of samples: one for each change, and linked to one
another from the first sample on. -/
structure Reports (samples : List UInt32) (reports : List (Change UInt32)) : Prop where
  complete : reports = changes samples
  starts : ∀ c ∈ reports.head?, samples.head? = some c.previous
  chained : reports.IsChain fun c d => d.previous = c.current

theorem reports_changes (samples : List UInt32) : Reports samples (changes samples) := by
  refine ⟨rfl, ?_, changes_chained samples⟩
  intro c hc
  cases samples with
  | nil => simp at hc
  | cons x samples =>
    rw [List.head?_cons, previous_head_changes hc]

/-! ## Topics -/

theorem or_and_eq_zero_iff (a b c : UInt32) :
    (a ||| b) &&& c = 0 ↔ a &&& c = 0 ∧ b &&& c = 0 := by
  have hdistrib : (a ||| b) &&& c = (a &&& c) ||| (b &&& c) := by
    apply UInt32.toBitVec_inj.mp
    ext i
    simp [Bool.and_or_distrib_right]
  rw [hdistrib, UInt32.or_eq_zero_iff]

/-- A bit of the mask comes from one of the entries. -/
theorem foldl_topicBit_eq_zero_iff (bit mask : UInt32) (items : List CJson) :
    items.foldl (fun mask item => mask ||| topicBit item) mask &&& bit = 0 ↔
      mask &&& bit = 0 ∧ ∀ item ∈ items, topicBit item &&& bit = 0 := by
  induction items generalizing mask with
  | nil => simp
  | cons item items ih =>
    rw [List.foldl_cons, ih, or_and_eq_zero_iff, List.forall_mem_cons]
    constructor
    · rintro ⟨⟨hmask, hitem⟩, hitems⟩
      exact ⟨hmask, hitem, hitems⟩
    · rintro ⟨hmask, hitem, hitems⟩
      exact ⟨⟨hmask, hitem⟩, hitems⟩

/-- The subscription is to `sys.lastalert`. -/
def EvState.Wants (ev : EvState) : Prop := ev.topicsMask &&& evTopicLastalert ≠ 0

theorem topicsMask_wants {params : Option CJson} (h : wantsLastalert params = true) :
    topicsMask params &&& evTopicLastalert ≠ 0 := by
  unfold wantsLastalert at h
  split at h
  · rename_i items htopics
    intro hzero
    rw [topicsMask, htopics] at hzero
    obtain ⟨item, hitem, htopic⟩ := List.any_eq_true.mp h
    have hbit := ((foldl_topicBit_eq_zero_iff _ _ _).mp hzero).2 item hitem
    split at htopic
    · rw [topicBit, if_pos (of_decide_eq_true htopic)] at hbit
      exact absurd hbit (by decide)
    · cases htopic
  · cases h

/-! ## One step -/

/-- The code that the next poll compares with. -/
def EvState.baseline (ev : EvState) : Option UInt32 :=
  if ev.baselineInitialized then some ev.baselineAlertCode else none

theorem filterMap_pushed {mask : UInt32} (hmask : mask &&& evTopicLastalert ≠ 0)
    (change : Change UInt32) (payload : Payload) :
    (pushed mask change payload).filterMap Sent.change = [change] := by
  unfold pushed
  rw [if_pos hmask]
  split
  · rfl
  · rfl

/-- A poll takes its sample for the baseline and reports the change from the
baseline before it. -/
theorem emitPending_spec {ev : EvState} (h : ev.Wants) (lastAlert : UInt32) (payload : Payload) :
    (eventsEmitPending lastAlert payload ev).1.Wants ∧
      (eventsEmitPending lastAlert payload ev).1.baseline = some lastAlert ∧
      (eventsEmitPending lastAlert payload ev).2.filterMap Sent.change =
        changes (ev.baseline.toList ++ [lastAlert]) := by
  have hmask : ev.topicsMask ≠ 0 := by
    intro hzero
    apply h
    rw [hzero]
    rfl
  have hsynthetic : (ev.pendingSynthetic.toList.map Sent.synthetic).filterMap Sent.change = [] := by
    cases ev.pendingSynthetic <;> rfl
  unfold eventsEmitPending eventsDrainSynthetic
  dsimp only
  rw [if_neg hmask]
  split
  · rename_i hfresh
    refine ⟨h, rfl, ?_⟩
    rw [hsynthetic, EvState.baseline, hfresh]
    rfl
  · rename_i hinitialized
    have hbaseline : ev.baseline = some ev.baselineAlertCode := by
      simp [EvState.baseline, hinitialized]
    rw [hbaseline]
    show _ ∧ _ ∧ _ = changes [ev.baselineAlertCode, lastAlert]
    split
    · rename_i hsame
      refine ⟨h, ?_, ?_⟩
      · rw [hsame]
        exact hbaseline
      · rw [hsynthetic, hsame, changes_cons_same, changes_singleton]
    · rename_i hchanged
      refine ⟨h, ?_, ?_⟩
      · simp [EvState.baseline, hinitialized]
      · rw [List.filterMap_append, hsynthetic, filterMap_pushed h,
          changes_cons_change (Ne.symm hchanged), changes_singleton]
        rfl

/-- What a step makes of the worker of a subscribed client. -/
def Worker.Moves (w w' : Worker) : Option Seen → Prop
  | none => w'.ev.baseline = w.ev.baseline ∧ w'.alerts = w.alerts
  | some .subscribed => w'.ev.baseline = none ∧ w'.alerts = w.alerts
  | some (.sampled code) => w'.ev.baseline = some code ∧
      w'.alerts = w.alerts ++ changes (w.ev.baseline.toList ++ [code])

/-- The connection of a step. -/
def Label.on (i : Nat) : Label → Bool
  | .connect j | .disconnect j | .request j _ _ | .drain j _ | .respond j | .timeout j _ => j = i
  | .alert _ => false

theorem setWorker_same (d : Daemon) (i : Nat) (w : Option Worker) :
    (d.setWorker i w).workers i = w := by
  simp [Daemon.setWorker]

theorem setWorker_other {i j : Nat} (h : i ≠ j) (d : Daemon) (w : Option Worker) :
    (d.setWorker j w).workers i = d.workers i := by
  simp [Daemon.setWorker, h]

/-- The connections do not see one another. -/
theorem step_other {d d' : Daemon} {i : Nat} {a : Label} (ha : a.on i = false)
    (hstep : step d a = some d') : d'.workers i = d.workers i := by
  have hother : ∀ {j : Nat}, decide (j = i) = false → i ≠ j := by
    intro j hj heq
    exact of_decide_eq_false hj heq.symm
  cases a with
  | alert code =>
    cases hstep
    rfl
  | connect j | disconnect j | request j id call | drain j payload | respond j | timeout j payload =>
    have hne : i ≠ j := hother ha
    rw [step] at hstep
    split at hstep
    · cases hstep
      exact setWorker_other hne d _
    · cases hstep

/-- A call on the connection of a subscribed client. -/
theorem dispatch_spec {ev : EvState} {i : Nat} {id : Option CJson} {call : Call} (h : ev.Wants)
    (hkeeps : (Label.request i id call).keeps i = true) :
    (call.dispatch ev).2.Wants ∧
      (call.dispatch ev).2.baseline =
        match call with
        | .subscribe _ => none
        | _ => ev.baseline := by
  cases call with
  | subscribe params =>
    have hwants : wantsLastalert params = true := by
      simpa [Label.keeps] using hkeeps
    exact ⟨topicsMask_wants hwants, rfl⟩
  | unsubscribe => simp [Label.keeps] at hkeeps
  | testEmit params =>
    show (eventsTestEmit params ev).2.Wants ∧ (eventsTestEmit params ev).2.baseline = ev.baseline
    unfold eventsTestEmit
    split
    · exact ⟨h, rfl⟩
    · exact ⟨h, rfl⟩
  | other out => exact ⟨h, rfl⟩

theorem poll_moves {ev : EvState} {stage : Stage} {written : List Sent} (h : ev.Wants)
    (stage' : Stage) (lastAlert : UInt32) (payload : Payload) :
    (Worker.poll lastAlert payload ⟨ev, stage', written⟩).ev.Wants ∧
      Worker.Moves ⟨ev, stage, written⟩ (Worker.poll lastAlert payload ⟨ev, stage', written⟩)
        (some (.sampled lastAlert)) := by
  obtain ⟨hwants, hbaseline, hout⟩ := emitPending_spec h lastAlert payload
  refine ⟨hwants, hbaseline, ?_⟩
  show (written ++ (eventsEmitPending lastAlert payload ev).2).filterMap Sent.change =
    written.filterMap Sent.change ++ _
  rw [List.filterMap_append, hout]

/-- One step of the daemon and a client that stays subscribed. -/
theorem step_moves {d d' : Daemon} {i : Nat} {w : Worker} {a : Label} (hw : d.workers i = some w)
    (hwants : w.ev.Wants) (hkeeps : a.keeps i = true) (hstep : step d a = some d') :
    ∃ w', d'.workers i = some w' ∧ w'.ev.Wants ∧ w.Moves w' (d.seen i a) := by
  by_cases ha : a.on i = true
  · cases a with
    | alert code => cases ha
    | connect j =>
      obtain rfl := of_decide_eq_true ha
      simp [step, hw] at hstep
    | disconnect j =>
      obtain rfl := of_decide_eq_true ha
      simp [Label.keeps] at hkeeps
    | request j id call =>
      obtain rfl := of_decide_eq_true ha
      rw [step] at hstep
      split at hstep
      · rename_i ev written hworker
        cases hw.symm.trans hworker
        cases hstep
        obtain ⟨hwants', hbaseline⟩ := dispatch_spec hwants hkeeps
        refine ⟨_, setWorker_same d j _, hwants', ?_⟩
        cases call with
        | subscribe params =>
          rw [Daemon.seen, if_pos rfl]
          exact ⟨hbaseline, rfl⟩
        | unsubscribe => simp [Label.keeps] at hkeeps
        | testEmit params => exact ⟨hbaseline, rfl⟩
        | other out => exact ⟨hbaseline, rfl⟩
      · cases hstep
    | drain j payload =>
      obtain rfl := of_decide_eq_true ha
      rw [step] at hstep
      split at hstep
      · rename_i ev resp written hworker
        cases hw.symm.trans hworker
        cases hstep
        rw [Daemon.seen, if_pos rfl]
        obtain ⟨hwants', hmoves⟩ := poll_moves hwants (.drained resp) d.lastAlert payload
        exact ⟨_, setWorker_same d j _, hwants', hmoves⟩
      · cases hstep
    | respond j =>
      obtain rfl := of_decide_eq_true ha
      rw [step] at hstep
      split at hstep
      · rename_i ev resp written hworker
        cases hw.symm.trans hworker
        cases hstep
        refine ⟨_, setWorker_same d j _, hwants, rfl, ?_⟩
        show (written ++ [Sent.response resp]).filterMap Sent.change = written.filterMap Sent.change
        simp [Sent.change]
      · cases hstep
    | timeout j payload =>
      obtain rfl := of_decide_eq_true ha
      rw [step] at hstep
      split at hstep
      · rename_i ev written hworker
        cases hw.symm.trans hworker
        cases hstep
        rw [Daemon.seen, if_pos rfl]
        obtain ⟨hwants', hmoves⟩ := poll_moves hwants .waiting d.lastAlert payload
        exact ⟨_, setWorker_same d j _, hwants', hmoves⟩
      · cases hstep
  · have hoff : a.on i = false := by simpa using ha
    have hunseen : d.seen i a = none := by
      unfold Daemon.seen
      split
      · exact if_neg (of_decide_eq_false hoff)
      · exact if_neg (of_decide_eq_false hoff)
      · exact if_neg (of_decide_eq_false hoff)
      · rfl
    rw [hunseen]
    exact ⟨w, (step_other hoff hstep).trans hw, hwants, rfl, rfl⟩

/-! ## Runs -/

theorem periods_nil (i : Nat) (d : Daemon) : periods i d [] = [[]] := rfl

/-- A step that the client does not notice, its subscribe call, and its poll. -/
theorem periods_cons {d d' : Daemon} {i : Nat} {a : Label} (hstep : step d a = some d')
    (as : List Label) :
    periods i d (a :: as) =
      match d.seen i a with
      | none => periods i d' as
      | some .subscribed => [] :: periods i d' as
      | some (.sampled code) => (periods i d' as).modifyHead (code :: ·) := by
  unfold periods
  rw [history, hstep]
  dsimp only
  cases d.seen i a with
  | none => rfl
  | some seen =>
    rw [Option.toList_some, List.singleton_append, List.splitOn_cons_eq_if_modifyHead]
    cases seen with
    | subscribed => rfl
    | sampled code =>
      show (((history i d' as).splitOn .subscribed).modifyHead (Seen.sampled code :: ·)).map _ = _
      cases (history i d' as).splitOn .subscribed <;> rfl

theorem periods_ne_nil (i : Nat) (d : Daemon) (as : List Label) : periods i d as ≠ [] := by
  unfold periods
  rw [Ne, List.map_eq_nil_iff]
  exact List.splitOn_ne_nil _ _

/-- A client that stays subscribed gets the changes of its samples, the first
ones counted from the baseline. -/
theorem run_alerts {d t : Daemon} {i : Nat} {w : Worker} {as : List Label}
    (hw : d.workers i = some w) (hwants : w.ev.Wants) (hkeeps : ∀ a ∈ as, a.keeps i = true)
    (hrun : run step d as = some t) :
    t.alerts i = w.alerts ++
      ((periods i d as).modifyHead (w.ev.baseline.toList ++ ·)).flatMap changes := by
  induction as generalizing d w with
  | nil =>
    cases hrun
    rw [periods_nil, Daemon.alerts, hw]
    show w.alerts = w.alerts ++ (changes (w.ev.baseline.toList ++ []) ++ [])
    cases w.ev.baseline <;> simp
  | cons a as ih =>
    obtain ⟨d', hstep, hrest⟩ := run_cons_some hrun
    rw [List.forall_mem_cons] at hkeeps
    obtain ⟨w', hw', hwants', hmoves⟩ := step_moves hw hwants hkeeps.1 hstep
    rw [ih hw' hwants' hkeeps.2 hrest, periods_cons hstep]
    obtain ⟨first, rest, hperiods⟩ := List.exists_cons_of_ne_nil (periods_ne_nil i d' as)
    rw [hperiods]
    cases hseen : d.seen i a with
    | none =>
      rw [hseen] at hmoves
      rw [hmoves.1, hmoves.2]
    | some seen =>
      rw [hseen] at hmoves
      cases seen with
      | subscribed =>
        rw [hmoves.1, hmoves.2]
        cases w.ev.baseline <;> simp
      | sampled code =>
        rw [hmoves.1, hmoves.2]
        simp only [List.modifyHead_cons, List.flatMap_cons, Option.toList_some,
          List.singleton_append, List.append_assoc, List.append_cancel_left_eq]
        rw [← List.append_assoc]
        congr 1
        -- the sample is the last one of the reports so far and the first of those to come
        cases w.ev.baseline with
        | none => simp
        | some base =>
          simp only [Option.toList_some, List.singleton_append]
          by_cases hsame : base = code
          · subst hsame
            simp [changes_cons_same]
          · simp [changes_cons_change hsame]

/-- From each subscribe call of a client to the next one, the alert notifications
are complete and chained. -/
theorem alerts_reported {d s t : Daemon} {i : Nat} {id params : Option CJson} {as : List Label}
    (hsubscribe : step d (.request i id (.subscribe params)) = some s)
    (hwants : wantsLastalert params = true) (hkeeps : ∀ a ∈ as, a.keeps i = true)
    (hrun : run step s as = some t) :
    ∃ reports, t.alerts i = d.alerts i ++ reports.flatten ∧
      List.Forall₂ Reports (periods i s as) reports := by
  obtain ⟨w, hw, hwants', hbaseline, halerts⟩ : ∃ w, s.workers i = some w ∧ w.ev.Wants ∧
      w.ev.baseline = none ∧ w.alerts = d.alerts i := by
    rw [step] at hsubscribe
    split at hsubscribe
    · rename_i ev written hworker
      cases hsubscribe
      refine ⟨_, setWorker_same d i _, topicsMask_wants hwants, rfl, ?_⟩
      rw [Daemon.alerts, hworker]
      rfl
    · cases hsubscribe
  refine ⟨(periods i s as).map changes, ?_, ?_⟩
  · rw [run_alerts hw hwants' hkeeps hrun, hbaseline, halerts, ← List.flatMap_def]
    obtain ⟨first, rest, hperiods⟩ := List.exists_cons_of_ne_nil (periods_ne_nil i s as)
    rw [hperiods]
    rfl
  · rw [List.forall₂_map_right_iff, List.forall₂_same]
    exact fun samples _ => reports_changes samples

/-- The parameters of a subscribe call for `sys.lastalert`. -/
def lastalertOnly : Option CJson :=
  some (.object [(ascii "topics", .array [cString "sys.lastalert"])])

def noPayload : Payload := ⟨0, 0, 0⟩

/-- The poll and the response behind a call on connection `i`. -/
def served (i : Nat) : List Label := [.drain i noPayload, .respond i]

/-- Two alerts, with another client that subscribes in between. -/
def twoAlerts : List Label :=
  served 0 ++ [.alert 1, .timeout 0 noPayload, .connect 1, .request 1 none (.subscribe lastalertOnly)] ++
    served 1 ++ [.alert 2, .timeout 1 noPayload, .timeout 0 noPayload]

theorem alerts_reported_sample : ∃ d s t reports, step d (.request 0 none (.subscribe lastalertOnly)) = some s ∧
    run step s twoAlerts = some t ∧ t.alerts 0 = [⟨0, 1⟩, ⟨1, 2⟩] ∧
    t.alerts 0 = d.alerts 0 ++ reports.flatten ∧ List.Forall₂ Reports (periods 0 s twoAlerts) reports := by
  have hdone : ((run step (boot 0) [.connect 0, .request 0 none (.subscribe lastalertOnly)]).bind
      (run step · twoAlerts)).any (fun t => t.alerts 0 = [⟨0, 1⟩, ⟨1, 2⟩]) = true := by
    decide +kernel
  obtain ⟨t, hruns, halerts⟩ := (Option.any_eq_true ..).mp hdone
  obtain ⟨s, hs, hrun⟩ := Option.bind_eq_some_iff.mp hruns
  obtain ⟨d, hconnect, hrest⟩ := run_cons_some hs
  obtain ⟨s', hsubscribe, hnil⟩ := run_cons_some hrest
  cases hnil
  obtain ⟨reports, hreports, hcomplete⟩ :=
    alerts_reported hsubscribe (by decide) (by decide) hrun
  exact ⟨d, s, t, reports, hsubscribe, hrun, of_decide_eq_true halerts, hreports, hcomplete⟩

/-- Three alerts on one connection, and a second subscribe call between the
second of them and its poll. -/
def subscribedTwice : List Label :=
  served 0 ++ [.alert 1, .timeout 0 noPayload, .alert 2, .request 0 none (.subscribe lastalertOnly)] ++
    served 0 ++ [.alert 3, .timeout 0 noPayload]

/-- The polls sample three changes, and two are reported, which are not linked. -/
theorem missed_change : ∃ s t,
    run step (boot 0) [.connect 0, .request 0 none (.subscribe lastalertOnly)] = some s ∧
    run step s subscribedTwice = some t ∧ (∀ a ∈ subscribedTwice, a.keeps 0 = true) ∧
    (history 0 s subscribedTwice).filterMap Seen.code = [0, 1, 2, 3] ∧
    t.alerts 0 = [⟨0, 1⟩, ⟨2, 3⟩] ∧ ¬ Reports [0, 1, 2, 3] (t.alerts 0) := by
  have hdone : (run step (boot 0) [.connect 0, .request 0 none (.subscribe lastalertOnly)]).any (fun s =>
      (run step s subscribedTwice).any fun t => t.alerts 0 = [⟨0, 1⟩, ⟨2, 3⟩] ∧
        (history 0 s subscribedTwice).filterMap Seen.code = [0, 1, 2, 3]) = true := by
    decide +kernel
  obtain ⟨s, hs, hany⟩ := (Option.any_eq_true ..).mp hdone
  obtain ⟨t, hrun, hseen⟩ := (Option.any_eq_true ..).mp hany
  obtain ⟨halerts, hhistory⟩ := of_decide_eq_true hseen
  refine ⟨s, t, hs, hrun, by decide, hhistory, halerts, fun hreports => ?_⟩
  have hchanges := hreports.complete
  rw [halerts] at hchanges
  exact absurd hchanges (by decide)

end AmigaFleet.Mcpd.Events

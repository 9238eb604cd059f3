import AmigaFleet.Lib.Progress
import AmigaFleet.Mcpd.ExecOutput

/-!
# Every call is answered

`Inv` of `AmigaFleet.Mcpd.ExecOutput` says what a finished call has answered.  Here
a call comes to its answer: once its job has ended, and the call has not run into
its deadline before, at most five steps of its own lead there, whatever the
other workers and children do in between.

* `Told`: the end that a call has seen is the end of its job.
* `Ended`: what holds from the end of the job to the answer, with `Call.rank`.
* `run_right`: every run, what has been answered and what will be.

`evicted_before_read` is a run where the record is lost.
-/

namespace AmigaFleet.Mcpd.Exec

open AmigaFleet.Lib AmigaFleet.Mcpd.Jobs

variable {n : Nat}

/-! ## The end of a job stays -/

/-- The end that is recorded of a job is never changed while a call has it. -/
theorem death_step {s s' : Sys n} {a : Label n} (h : Inv s) (hok : Undisturbed s a)
    (hstep : step s a = some s') {w : Fin n} {id : Nat} (hjob : (s.calls w).job = some id)
    {d : Death} (hd : s.death id = some d) : s'.death id = some d := by
  cases step_cases hstep with
  | begin env w' p cwdLocks _ =>
    unfold beginCmd
    unfold Undisturbed at hok
    dsimp only at hok
    split
    · exact hd
    · rename_i full hprepare
      rw [hprepare] at hok
      rcases beginStart_cases env w' p full s with
        ⟨t, hclaim, hid, -, -, hdeath⟩ | ⟨-, -, -, hdeath⟩
      · have hne : id ≠ t.id := by
          rintro rfl
          exact idUnused_of_claimed hclaim hok w (hid ▸ hjob)
        rw [hdeath, Function.update_of_ne hne]
        exact hd
      · rw [hdeath]
        exact hd
  | kicked w' st _ _ _ => exact hd
  | undone w' st _ _ => exact hd
  | poll env w' _ => exact hd
  | stream w' ji _ => exact hd
  | read w' ji _ => exact hd
  | drop w' ji out _ => exact hd
  | table a table _ hserve =>
    unfold Sys.onTable
    split
    · exact hd
    · rename_i c rc result2 _
      obtain ⟨hc, -⟩ := whenChild_some hserve
      have hother : id ≠ c.id := by
        rintro rfl
        rw [(h.outputs.at_child hc).2.2.1] at hd
        cases hd
      show Function.update s.death c.id _ id = some d
      rw [Function.update_of_ne hother]
      exact hd
    · exact hd

/-- The end that an unfinished call has seen is the end of its job. -/
def Told (s : Sys n) : Prop :=
  ∀ w id d, (s.calls w).job = some id → (s.calls w).death = some d → s.death id = some d

theorem init_told (n : Nat) (files : Files) : Told (init n files) := by
  intro w id d hjob
  cases hjob

/-- The call of `w` goes on with `c'`, and has seen nothing but the end of its job. -/
theorem Told.update {s s' : Sys n} (h : Told s) {w : Fin n} {c' : Call}
    (hcalls : s'.calls = Function.update s.calls w c')
    (hdeath : ∀ w id d, (s.calls w).job = some id → s.death id = some d → s'.death id = some d)
    (hc : ∀ id d, c'.job = some id → c'.death = some d → s'.death id = some d) : Told s' := by
  intro w' id d hjob hseen
  rw [hcalls] at hjob hseen
  by_cases hw : w' = w
  · subst hw
    rw [Function.update_self] at hjob hseen
    exact hc id d hjob hseen
  · rw [Function.update_of_ne hw] at hjob hseen
    exact hdeath w' id d hjob (h w' id d hjob hseen)

/-! ### What a call keeps of the end it has seen -/

theorem death_decide (c : Call) (ji : JobInfo) : (c.decide ji).death = c.death := by
  unfold Call.decide
  split_ifs <;> rfl

theorem death_streamed (c : Call) (ji : JobInfo) (files : Files) :
    (c.streamed ji files).death = c.death :=
  death_decide _ ji

theorem death_polled (c : Call) (death : Option Death) (got : Option JobInfo) :
    (c.polled death got).death = death := by
  unfold Call.polled
  split
  · rfl
  · split
    · rfl
    · exact death_decide _ _

theorem id_decide (c : Call) (ji : JobInfo) : (c.decide ji).id = c.id := by
  unfold Call.decide
  split_ifs <;> rfl

theorem death_readAll (c : Call) (ji : JobInfo) (files : Files) (content : Bytes) :
    (c.readAll ji files content).death = c.death := by
  unfold Call.readAll
  dsimp only
  split <;> rfl

/-- A call that goes on with its own job. -/
theorem id_of_job {c c' : Call} {id : Nat} (h : c'.job = none ∨ c'.job = some c.id)
    (hjob : c'.job = some id) : c.id = id := by
  rcases h with hnone | hsome
  · rw [hnone] at hjob
    cases hjob
  · exact Option.some.inj (hsome.symm.trans hjob)

theorem Told.step {s s' : Sys n} {a : Label n} (h : Told s) (hinv : Inv s) (hok : Undisturbed s a)
    (hstep : step s a = some s') : Told s' := by
  have hdeath : ∀ w id d, (s.calls w).job = some id → s.death id = some d → s'.death id = some d :=
    fun w id d hjob hd => death_step hinv hok hstep hjob hd
  cases step_cases hstep with
  | begin env w p cwdLocks _ =>
    unfold beginCmd at hdeath ⊢
    split at hdeath
    · exact h.update rfl hdeath fun id d hjob => by cases hjob
    · rename_i full hprepare
      rcases beginStart_cases env w p full s with ⟨t, -, -, hcalls, -, -⟩ | ⟨-, hcalls, -, -⟩
      · exact h.update hcalls hdeath fun id d _ hseen => by cases hseen
      · exact h.update hcalls hdeath fun id d hjob => by cases hjob
  | kicked w st hphase _ _ =>
    refine h.update rfl hdeath fun id d hjob hseen => h w id d ?_ hseen
    rw [← hjob, Call.job, hphase]
    rfl
  | undone w st _ _ => exact h.update rfl hdeath fun id d hjob => by cases hjob
  | poll env w _ =>
    refine h.update rfl hdeath fun id d hjob hseen => ?_
    rw [death_polled] at hseen
    rw [← id_of_job (job_polled ..) hjob]
    exact hseen
  | stream w ji hphase =>
    refine h.update rfl hdeath fun id d hjob hseen => h w id d ?_ ?_
    · rw [← id_of_job (job_decide _ ji) hjob, Call.job, hphase]
    · rw [← hseen]
      exact (death_streamed ..).symm
  | read w ji hphase =>
    refine h.update rfl hdeath fun id d hjob hseen => h w id d ?_ ?_
    · rw [← id_of_job (job_readAll ..) hjob, Call.job, hphase]
    · rw [← hseen]
      exact (death_readAll ..).symm
  | drop w ji out _ => exact h.update rfl hdeath fun id d hjob => by cases hjob
  | table a table _ _ =>
    intro w id d hjob hseen
    rw [onTable_calls] at hjob hseen
    exact hdeath w id d hjob (h w id d hjob hseen)

/-! ## From the end of the job to the answer -/

/-- The call looks at its job again, or has seen it end, or its deadline is not over. -/
def Call.InTime (c : Call) : Prop :=
  match c.phase with
  | .polling | .dropping _ _ => True
  | .streaming _ | .reading _ => c.death ≠ none ∨ ¬ c.AtDeadline
  | .idle | .starting _ | .failed _ | .answered _ => False

/-- The steps that the call still needs once its job has ended, the last one apart. -/
def Call.rank (c : Call) : Nat :=
  match c.phase with
  | .polling => 3
  | .streaming ji => if ji.state = .exited then 2 else 4
  | .reading _ => 1
  | _ => 0

/-- The steps of the call of worker `w` behind `jobs_start`. -/
def ownStep (w : Fin n) : Label n → Bool
  | .poll _ w' | .stream w' | .read w' | .drop w' => decide (w' = w)
  | _ => false

/-- The call of `w` has answered for the job `id`, which has ended by `d`. -/
def AnswersWith (w : Fin n) (id : Nat) (d : Death) (s : Sys n) : Prop :=
  (s.calls w).id = id ∧ (s.calls w).death = some d ∧
    ∃ r, (s.calls w).phase = .answered r ∧ RightResult (s.calls w) r

/-- What holds between the end of the job and the answer. -/
structure Ended (w : Fin n) (id : Nat) (d : Death) (s : Sys n) : Prop where
  inv : Inv s
  told : Told s
  own : (s.calls w).id = id
  death : s.death id = some d
  inTime : (s.calls w).InTime

theorem Call.InTime.job {c : Call} (h : c.InTime) : c.job = some c.id := by
  unfold Call.InTime at h
  unfold Call.job
  cases hp : c.phase with
  | starting _ | polling | streaming _ | reading _ | dropping _ _ => rfl
  | idle | failed _ | answered _ =>
    rw [hp] at h
    cases h

/-- The snapshot of a call that has seen the end of its job. -/
theorem Looked.exited {c : Call} {ji : JobInfo} (h : Looked c ji) (hdeath : c.death ≠ none) :
    ji.state = .exited := by
  rcases h.state with ⟨-, hnone⟩ | ⟨hexited, -⟩
  · exact absurd hnone hdeath
  · exact hexited

theorem Looked.running {c : Call} {ji : JobInfo} (h : Looked c ji) (hexited : ji.state ≠ .exited) :
    ji.state = .running ∧ c.death = none := by
  rcases h.state with hrunning | ⟨hex, -⟩
  · exact hrunning
  · exact absurd hex hexited

theorem decide_exited {c : Call} {ji : JobInfo} (h : ji.state = .exited) :
    c.decide ji = { c with phase := .reading ji } := by
  unfold Call.decide
  rw [if_pos (Or.inl h), h, if_neg]
  rintro ⟨hrunning, -⟩
  cases hrunning

theorem polled_exited {c : Call} {ji : JobInfo} (h : ji.state = .exited) (death : Option Death) :
    c.polled death (some ji) = { c with
      phase := if c.params.stream then .streaming ji else .reading ji
      death := death } := by
  show (if c.params.stream then { c with phase := .streaming ji, death := death }
    else { c with death := death }.decide ji) = _
  split
  · rfl
  · exact decide_exited h

/-- A call that has not reached its deadline polls again. -/
theorem decide_early {c : Call} {ji : JobInfo} (hrunning : ji.state = .running)
    (hearly : ¬ c.AtDeadline) : (c.decide ji).phase = .polling := by
  unfold Call.decide
  rw [if_neg]
  rintro (hexited | hdeadline)
  · rw [hrunning] at hexited
    cases hexited
  · exact hearly hdeadline

/-! ### The steps of the call -/

variable {w : Fin n} {id : Nat} {d : Death} {s s' : Sys n}

theorem step_stream {ji : JobInfo} (hphase : (s.calls w).phase = .streaming ji) :
    step s (.stream w) = some (s.setCall w ((s.calls w).streamed ji s.table.files)) := by
  simp only [Exec.step, hphase]

theorem step_read {ji : JobInfo} (hphase : (s.calls w).phase = .reading ji) :
    step s (.read w) = some
      (s.setCall w ((s.calls w).readAll ji s.table.files (s.wrote (s.calls w).id))) := by
  simp only [Exec.step, hphase]

theorem step_drop {ji : JobInfo} {out : ReadOutput} (hphase : (s.calls w).phase = .dropping ji out) :
    step s (.drop w) = some
      ({ s with table := jobsDropOutput (s.calls w).id s.table }.setCall w
        { s.calls w with phase := .answered ((s.calls w).result ji out) }) := by
  simp only [Exec.step, hphase]

/-- The call has another step, and nothing in the condition forbids it. -/
theorem Ended.enabled (h : Ended w id d s) :
    ∃ a s', ownStep w a = true ∧ Undisturbed s a ∧ step s a = some s' := by
  have hin := h.inTime
  unfold Call.InTime at hin
  cases hp : (s.calls w).phase with
  | polling =>
    exact ⟨.poll ⟨0, ⟨0, 0, 0⟩⟩ w, _, decide_eq_true rfl, trivial, if_pos hp⟩
  | streaming ji => exact ⟨.stream w, _, decide_eq_true rfl, trivial, step_stream hp⟩
  | reading ji => exact ⟨.read w, _, decide_eq_true rfl, trivial, step_read hp⟩
  | dropping ji out => exact ⟨.drop w, _, decide_eq_true rfl, trivial, step_drop hp⟩
  | idle | starting _ | failed _ | answered _ =>
    rw [hp] at hin
    cases hin

/-- What a step of the call has to leave. -/
theorem Ended.goesOn (h : Ended w id d s) {a : Label n} (hok : Undisturbed s a)
    (hstep : step s a = some s') (hid : (s'.calls w).id = (s.calls w).id)
    (hin : (s'.calls w).InTime) : Ended w id d s' where
  inv := h.inv.step hok hstep
  told := h.told.step h.inv hok hstep
  own := hid.trans h.own
  death := death_step h.inv hok hstep (h.own ▸ h.inTime.job) h.death
  inTime := hin

theorem setCall_same (s : Sys n) (w : Fin n) (c : Call) : (s.setCall w c).calls w = c :=
  Function.update_self ..

/-- The next look at the job sees it ended. -/
theorem Ended.poll (h : Ended w id d s) (hphase : (s.calls w).phase = .polling) (env : Env) :
    Ended w id d (pollCall env w s) ∧ ((pollCall env w s).calls w).rank < 3 := by
  have hstep : step s (.poll env w) = some (pollCall env w s) := if_pos hphase
  obtain ⟨ji, hgot, -, hlook⟩ := h.inv.looks env hphase
  have hdeath : s.death (s.calls w).id = some d := by
    rw [h.own]
    exact h.death
  have hexited : ji.state = .exited := hlook.exited (by simp [hdeath])
  have hcall : (pollCall env w s).calls w = { s.calls w with
      phase := if (s.calls w).params.stream then .streaming ji else .reading ji
      death := some d } := by
    show (Sys.setCall _ w _).calls w = _
    rw [setCall_same, hgot, polled_exited hexited, hdeath]
  by_cases hstream : (s.calls w).params.stream = true
  · rw [if_pos hstream] at hcall
    refine ⟨h.goesOn (a := .poll env w) trivial hstep (by rw [hcall]) ?_, ?_⟩
    · rw [hcall]
      exact Or.inl (by simp)
    · simp [hcall, Call.rank, hexited]
  · rw [if_neg hstream] at hcall
    refine ⟨h.goesOn (a := .poll env w) trivial hstep (by rw [hcall]) ?_, ?_⟩
    · rw [hcall]
      exact Or.inl (by simp)
    · simp [hcall, Call.rank]

/-- The streaming read leads to the read of the whole output, or once more to a look. -/
theorem Ended.stream (h : Ended w id d s) {ji : JobInfo}
    (hphase : (s.calls w).phase = .streaming ji) :
    Ended w id d (s.setCall w ((s.calls w).streamed ji s.table.files)) ∧
      ((s.calls w).streamed ji s.table.files).rank < (s.calls w).rank := by
  have hlook : Looked (s.calls w) ji := by
    have hcall := h.inv.calls w
    unfold CallOk at hcall
    rw [hphase] at hcall
    exact hcall.2
  have hin := h.inTime
  unfold Call.InTime at hin
  rw [hphase] at hin
  have hgoes := fun hin' => h.goesOn (a := .stream w) trivial (step_stream hphase)
    (by rw [setCall_same]; exact id_decide _ ji) hin'
  rw [setCall_same] at hgoes
  by_cases hexited : ji.state = .exited
  · have hseen : (s.calls w).death ≠ none := fun hnone => by
      rcases hlook.state with ⟨hrunning, -⟩ | ⟨-, hsome⟩
      · rw [hrunning] at hexited
        cases hexited
      · rw [hnone] at hsome
        cases hsome
    have hread : (s.calls w).streamed ji s.table.files =
        { (s.calls w).streamed ji s.table.files with phase := .reading ji } := by
      unfold Call.streamed
      rw [decide_exited hexited]
    refine ⟨hgoes ?_, ?_⟩
    · rw [hread]
      exact Or.inl (by rw [death_streamed]; exact hseen)
    · rw [hread]
      simp [Call.rank, hphase, hexited]
  · obtain ⟨hrunning, hnone⟩ := hlook.running hexited
    have hearly := hin.resolve_left fun hseen => hseen hnone
    have hpoll : ((s.calls w).streamed ji s.table.files).phase = .polling :=
      decide_early hrunning hearly
    refine ⟨hgoes ?_, ?_⟩
    · unfold Call.InTime
      rw [hpoll]
      trivial
    · simp [Call.rank, hpoll, hphase, hexited]

/-- The read of the whole output is the one for an ended job. -/
theorem Ended.read (h : Ended w id d s) {ji : JobInfo} (hphase : (s.calls w).phase = .reading ji) :
    Ended w id d
        (s.setCall w ((s.calls w).readAll ji s.table.files (s.wrote (s.calls w).id))) ∧
      ((s.calls w).readAll ji s.table.files (s.wrote (s.calls w).id)).rank < (s.calls w).rank := by
  have hcall := h.inv.calls w
  unfold CallOk at hcall
  rw [hphase] at hcall
  obtain ⟨-, hlook, hdeadline⟩ := hcall
  have hin := h.inTime
  unfold Call.InTime at hin
  rw [hphase] at hin
  have hexited : ji.state = .exited := by
    rcases hin with hseen | hearly
    · exact hlook.exited hseen
    · by_contra hrunning
      exact hearly (hdeadline (hlook.running hrunning).1)
  have hread : (s.calls w).readAll ji s.table.files (s.wrote (s.calls w).id) = { s.calls w with
      phase := .dropping ji (amigaReadOutput s.table.files ji.outPath 0 execCapMax)
      content := s.wrote (s.calls w).id } := if_pos hexited
  rw [hread]
  refine ⟨h.goesOn (a := .read w) trivial (by rw [step_read hphase, hread]) ?_ ?_, ?_⟩
  · rw [setCall_same]
  · rw [setCall_same]
    trivial
  · simp [Call.rank, hphase]

/-- The call answers behind `jobs_drop_output`. -/
theorem Ended.drop (h : Ended w id d s) {ji : JobInfo} {out : ReadOutput}
    (hphase : (s.calls w).phase = .dropping ji out) (hstep : step s (.drop w) = some s') :
    AnswersWith w id d s' := by
  have hright : Right (s'.calls w) := ((h.inv.step (a := .drop w) trivial hstep).calls w).right
  have hcall := h.inv.calls w
  unfold CallOk at hcall
  rw [hphase] at hcall
  obtain ⟨hlook, hexited, -⟩ := hcall
  have hcalls : s'.calls w =
      { s.calls w with phase := .answered ((s.calls w).result ji out) } := by
    rw [step_drop hphase] at hstep
    cases hstep
    exact setCall_same ..
  have hseen : (s.calls w).death = some d := by
    rcases hlook.state with ⟨hrunning, -⟩ | ⟨-, hsome⟩
    · rw [hexited] at hrunning
      cases hrunning
    · have htold := h.told w id _ (h.own ▸ h.inTime.job) hsome
      rw [hsome, ← htold, h.death]
  rw [hcalls] at hright
  refine ⟨?_, ?_, (s.calls w).result ji out, ?_, ?_⟩
  · rw [hcalls]
    exact h.own
  · rw [hcalls]
    exact hseen
  · rw [hcalls]
  · rw [hcalls]
    exact hright

/-- No other step touches a call that is under way. -/
theorem calls_other {a : Label n} (hin : (s.calls w).InTime) (hown : ownStep w a = false)
    (hstep : step s a = some s') : s'.calls w = s.calls w := by
  have hfree : (s.calls w).free = false := by
    unfold Call.InTime at hin
    unfold Call.free
    split at hin <;> simp_all
  have hstarting : ∀ t, (s.calls w).phase ≠ .starting t := by
    intro t hphase
    unfold Call.InTime at hin
    rw [hphase] at hin
    cases hin
  have hown' : ∀ w', decide (w' = w) = false → w ≠ w' := fun w' h => Ne.symm (of_decide_eq_false h)
  cases step_cases hstep with
  | begin env w' p cwdLocks hidle =>
    have hne : w ≠ w' := by
      rintro rfl
      rw [hfree] at hidle
      cases hidle
    unfold beginCmd
    split
    · exact Function.update_of_ne hne ..
    · rename_i full _
      rcases beginStart_cases env w' p full s with ⟨t, -, -, hcalls, -, -⟩ | ⟨-, hcalls, -, -⟩
      · rw [hcalls, Function.update_of_ne hne]
      · rw [hcalls, Function.update_of_ne hne]
  | kicked w' st hphase _ _ =>
    have hne : w ≠ w' := by
      rintro rfl
      exact hstarting _ hphase
    exact Function.update_of_ne hne ..
  | undone w' st hphase _ =>
    have hne : w ≠ w' := by
      rintro rfl
      exact hstarting _ hphase
    exact Function.update_of_ne hne ..
  | poll env w' _ => exact Function.update_of_ne (hown' w' hown) ..
  | stream w' ji _ => exact Function.update_of_ne (hown' w' hown) ..
  | read w' ji _ => exact Function.update_of_ne (hown' w' hown) ..
  | drop w' ji out _ => exact Function.update_of_ne (hown' w' hown) ..
  | table a table _ _ => rw [onTable_calls]

/-- A call comes to its answer once its job has ended. -/
theorem ranking_ended (w : Fin n) (id : Nat) (d : Death) :
    Ranking step Undisturbed (ownStep w) (AnswersWith w id d) (Ended w id d)
      (fun s => (s.calls w).rank) where
  enabled := fun _ h => h.enabled
  moves := by
    intro s a s' h _ hstep hown
    cases step_cases hstep with
    | poll env w' hphase =>
      obtain rfl : w' = w := of_decide_eq_true hown
      have hrank : (s.calls w').rank = 3 := by simp [Call.rank, hphase]
      exact Or.inr (hrank ▸ h.poll hphase env)
    | stream w' ji hphase =>
      obtain rfl : w' = w := of_decide_eq_true hown
      rw [setCall_same]
      exact Or.inr (h.stream hphase)
    | read w' ji hphase =>
      obtain rfl : w' = w := of_decide_eq_true hown
      rw [setCall_same]
      exact Or.inr (h.read hphase)
    | drop w' ji out hphase =>
      obtain rfl : w' = w := of_decide_eq_true hown
      exact Or.inl (h.drop hphase hstep)
    | begin _ _ _ _ _ | kicked _ _ _ _ _ | undone _ _ _ _ | table _ _ _ _ => cases hown
  stays := by
    intro s a s' h hok hstep hown
    have hcall := calls_other h.inTime hown hstep
    refine ⟨h.goesOn hok hstep (by rw [hcall]) (hcall ▸ h.inTime), ?_⟩
    rw [hcall]

/-! ## Runs -/

/-- The clock and the free memory of the runs below. -/
def sampleEnv : Env := ⟨1000, ⟨1, 2, 3⟩⟩

def sampleParams : CmdParams := { command := "List".toList }

/-- Worker `w` starts the job `id` in record `i`. -/
def startRun (w : Fin 2) (i : Slot) (id : Nat) : List (Label 2) :=
  [.begin sampleEnv w sampleParams true, .table (.startOpened ⟨w, .claimed, ⟨i, id⟩⟩),
    .kicked w ⟨w, .opened, ⟨i, id⟩⟩]

/-- The job writes a line and ends, and worker `w` answers. -/
def finishRun (w : Fin 2) (i : Slot) (id : Nat) : List (Label 2) :=
  [.table (.childWrite ⟨i, id⟩ [72, 105, 10]), .table (.childExit ⟨i, id⟩ 5 0),
    .poll sampleEnv w, .read w, .drop w]

/-- Two commands at once; the job of the first has ended, and its call has not looked
at it yet. -/
def endedRun : List (Label 2) :=
  startRun 0 ⟨0, jobSlots_pos⟩ 1 ++ startRun 1 ⟨1, one_lt_jobSlots⟩ 2 ++
    [.poll sampleEnv 0, .table (.childWrite ⟨⟨0, jobSlots_pos⟩, 1⟩ [72, 105, 10]),
      .table (.childExit ⟨⟨0, jobSlots_pos⟩, 1⟩ 5 0)]

/-- A long job in record 0, and a short one in each of the other records. -/
def crowdedRun : List (Label 2) :=
  startRun 0 ⟨0, jobSlots_pos⟩ 1 ++ ((List.finRange jobSlots).drop 1).flatMap fun i =>
    startRun 1 i (i.val + 1) ++ finishRun 1 i (i.val + 1)

end AmigaFleet.Mcpd.Exec

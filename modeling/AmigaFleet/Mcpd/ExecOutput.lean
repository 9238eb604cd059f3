import AmigaFleet.Mcpd.Outputs

/-!
# The answer of exec.cmd

`Right` says what a finished call must have answered: a job that had ended by
the last `jobs_get` is answered with its own exit code and with everything it
wrote, up to `execCapMax`, and a call gives up only at its deadline.

A call that has left `jobs_start` needs the record and the output file of its
job until it has read them, which is `Waits`; `Calm` is what a step has to
leave alone for that.  `CallOk` is the invariant of one call and `Inv` that of
the system: the records, the calls, and no job with two calls.

The condition is `Undisturbed`: a start must not evict the finished record of
a call that has not read its output yet.  `Inv.step` says that every such step
keeps the invariant.
-/

namespace AmigaFleet.Mcpd.Exec

open AmigaFleet.Lib AmigaFleet.Mcpd.Jobs

variable {n : Nat}

/-! ## Reading -/

theorem cText_append_of_ne {a : UInt8} {buf : Bytes} (h : a ≠ 0) :
    cText (a :: buf) = a :: cText buf := by
  rw [cText, List.takeWhile_cons_of_pos (by simpa using h)]
  rfl

theorem amigaLatin1ToUtf8_append (as bs : Bytes) :
    amigaLatin1ToUtf8 (as ++ bs) = amigaLatin1ToUtf8 as ++ amigaLatin1ToUtf8 bs := by
  induction as with
  | nil => rfl
  | cons a as ih =>
    rw [List.cons_append, amigaLatin1ToUtf8, amigaLatin1ToUtf8, ih]
    split <;> rfl

/-- A text without NUL is read to its end. -/
theorem cText_latin1 {buf : Bytes} (h : (0 : UInt8) ∉ buf) :
    cText (amigaLatin1ToUtf8 buf) = amigaLatin1ToUtf8 buf := by
  induction buf with
  | nil => rfl
  | cons c src ih =>
    rw [List.mem_cons, not_or] at h
    have hrest := ih h.2
    rw [amigaLatin1ToUtf8]
    split
    · rw [cText_append_of_ne (Ne.symm h.1), hrest]
    · have hhi : ((0xC0 : UInt8) ||| (c >>> 6)) ≠ 0 := by
        intro hz
        have hzero := (UInt8.or_eq_zero_iff.mp hz).1
        cases hzero
      have hlo : ((0x80 : UInt8) ||| (c &&& 0x3F)) ≠ 0 := by
        intro hz
        have hzero := (UInt8.or_eq_zero_iff.mp hz).1
        cases hzero
      rw [cText_append_of_ne hhi, cText_append_of_ne hlo, hrest]

/-- The read of a whole file, with the cap. -/
theorem amigaReadOutput_all {files : Files} {path : CString} {content : Bytes}
    (h : files path = some content) (max : Nat) :
    amigaReadOutput files path 0 max =
      ⟨amigaLatin1ToUtf8 (content.take max), min max content.length, content.length⟩ := by
  have hwant : (if 0 < content.length then content.length - 0 else 0) = content.length := by
    split <;> omega
  have hcut : (if content.length > max then max else content.length) = min max content.length := by
    split <;> omega
  have htake : content.take (min max content.length) = content.take max := by
    rw [List.take_eq_take_iff]
    omega
  rw [amigaReadOutput, amigaReadOutputWith, h]
  simp only [id, hwant, hcut, List.drop_zero, htake, List.length_take]

/-! ## What a waiting call needs -/

/-- The job `id` has left `jobs_start`, and its record and its file are there. -/
def Waits (t : Jobs.Sys) (id : Nat) : Prop :=
  ∃ i, (t.jobs i).inUse = true ∧ (t.jobs i).id = id ∧ (t.jobs i).outputDeleted = false ∧
    ∀ st ∈ t.starts, st.tenant.slot ≠ i

/-- A step leaves the record at slot `i` to those who wait for it. -/
structure Calm (t t' : Jobs.Sys) (i : Slot) : Prop where
  inUse : (t'.jobs i).inUse = (t.jobs i).inUse
  id : (t'.jobs i).id = (t.jobs i).id
  outputDeleted : (t'.jobs i).outputDeleted = (t.jobs i).outputDeleted
  starts : ∀ st' ∈ t'.starts, st'.tenant.slot = i → ∃ st ∈ t.starts, st.tenant.slot = i

theorem Waits.calm {t t' : Jobs.Sys} {id : Nat} (h : Waits t id)
    (hc : ∀ i, (t.jobs i).inUse = true → (t.jobs i).id = id →
      (∀ st ∈ t.starts, st.tenant.slot ≠ i) → Calm t t' i) : Waits t' id := by
  obtain ⟨i, huse, hid, hdel, hst⟩ := h
  have hi := hc i huse hid hst
  refine ⟨i, hi.inUse.trans huse, hi.id.trans hid, hi.outputDeleted.trans hdel, ?_⟩
  intro st' hst' hslot
  obtain ⟨st, hmem, hsti⟩ := hi.starts st' hst' hslot
  exact hst st hmem hsti

theorem calm_of_view {t t' : Jobs.Sys} {i : Slot} (hv : SameView (t'.jobs i) (t.jobs i))
    (hs : t'.starts = t.starts) : Calm t t' i where
  inUse := hv.inUse
  id := hv.id
  outputDeleted := hv.outputDeleted
  starts := by
    intro st hst hslot
    rw [hs] at hst
    exact ⟨st, hst, hslot⟩

theorem calm_drain (env : Env) (t : Jobs.Sys) (i : Slot) : Calm t (drainLocked env t) i := by
  have hsame := drainTable_sameJob env t.port t.jobs i
  refine ⟨hsame.inUse, hsame.id, ?_, fun st hst hslot => ⟨st, hst, hslot⟩⟩
  show (drainTable env t.jobs t.port i).outputDeleted = (t.jobs i).outputDeleted
  rw [drainTable_apply]
  split <;> rfl

theorem Calm.trans {t t' t'' : Jobs.Sys} {i : Slot} (h : Calm t t' i) (h' : Calm t' t'' i) :
    Calm t t'' i where
  inUse := h'.inUse.trans h.inUse
  id := h'.id.trans h.id
  outputDeleted := h'.outputDeleted.trans h.outputDeleted
  starts := by
    intro st'' hst'' hslot
    obtain ⟨st', hst', hslot'⟩ := h'.starts st'' hst'' hslot
    exact h.starts st' hst' hslot'

theorem calm_startTo {t : Jobs.Sys} {st : Start} (hst : st ∈ t.starts) (phase : StartPhase)
    (i : Slot) : ∀ st' ∈ (t.startTo st phase).starts, st'.tenant.slot = i →
      ∃ st ∈ t.starts, st.tenant.slot = i := by
  intro st' hst' hslot
  rcases List.mem_cons.mp hst' with rfl | hmem
  · exact ⟨st, hst, hslot⟩
  · exact ⟨st', List.mem_of_mem_erase hmem, hslot⟩

theorem calm_erase {t : Jobs.Sys} (st : Start) (i : Slot) :
    ∀ st' ∈ t.starts.erase st, st'.tenant.slot = i → ∃ st ∈ t.starts, st.tenant.slot = i := by
  intro st' hst' hslot
  exact ⟨st', List.mem_of_mem_erase hst', hslot⟩

/-- No background step disturbs a waiting call. -/
theorem calm_background {t t' : Jobs.Sys} {a : Jobs.Label} (hb : background a = true)
    (h : Jobs.serve t a = some t') (i : Slot) : Calm t t' i := by
  cases a with
  | startOpened st =>
    obtain ⟨hst, _, rfl⟩ := whenStart_some h
    exact ⟨rfl, rfl, rfl, calm_startTo hst .opened i⟩
  | startOpenFailed st =>
    obtain ⟨hst, _, rfl⟩ := whenStart_some h
    exact ⟨rfl, rfl, rfl, calm_startTo hst .failing i⟩
  | startKickFailed st =>
    obtain ⟨hst, _, rfl⟩ := whenStart_some h
    exact ⟨rfl, rfl, rfl, calm_startTo hst .failing i⟩
  | jobEntry c pid =>
    obtain ⟨_, rfl⟩ := whenChild_some h
    exact calm_of_view (SameView.set _ c.slot i ⟨rfl, rfl, rfl, rfl, rfl⟩) rfl
  | childWrite c bytes =>
    obtain ⟨_, rfl⟩ := whenChild_some h
    rw [childWrite]
    split
    · exact calm_of_view (SameView.refl _) rfl
    · exact calm_of_view (SameView.refl _) rfl
  | childExit c rc result2 =>
    obtain ⟨_, rfl⟩ := whenChild_some h
    refine ⟨?_, ?_, ?_, fun st hst hslot => ⟨st, hst, hslot⟩⟩ <;>
    · show _ = _
      by_cases hi : i = c.slot
      · subst hi
        simp [childExit]
      · simp [childExit, Table.set_other _ _ hi]
  | get env id =>
    cases h
    exact calm_drain env t i
  | signal env id sigmask found =>
    cases h
    rcases jobsSignal_cases env id sigmask found t with heq | ⟨k, j, hj, heq⟩
    · rw [heq]
      exact calm_drain env t i
    · rw [heq]
      exact (calm_drain env t i).trans (calm_of_view (SameView.set _ k i hj) rfl)
  | list env =>
    cases h
    exact calm_drain env t i
  | startClaim env worker req => cases hb
  | startKicked st => cases hb
  | startUndo st => cases hb
  | dropOutput id => cases hb
  | shutdownCount env => cases hb
  | shutdownFree => cases hb

/-! ## The invariant of a call -/

/-- The job whose record or file the call still needs. -/
def Call.waitsFor (c : Call) : Option Nat :=
  match c.phase with
  | .polling | .streaming _ | .reading _ => some c.id
  | _ => none

/-- The job of a call that has not answered yet. -/
def Call.job (c : Call) : Option Nat :=
  match c.phase with
  | .starting _ | .polling | .streaming _ | .reading _ | .dropping _ _ => some c.id
  | .idle | .failed _ | .answered _ => none

/-- The call has waited for as long as it was asked to. -/
def Call.AtDeadline (c : Call) : Prop := c.params.timeout ≤ c.waitedMs

/-- The last snapshot tells the truth about the job of the call. -/
structure Looked (c : Call) (ji : JobInfo) : Prop where
  id : ji.id = c.id
  path : ji.outPath = outPathOf c.id
  state : (ji.state = .running ∧ c.death = none) ∨
    (ji.state = .exited ∧ c.death = some ⟨ji.rc, ji.result2⟩)

/-- The call has read all of the output file. -/
def ReadWhole (c : Call) (out : ReadOutput) : Prop :=
  out = ⟨amigaLatin1ToUtf8 (c.content.take execCapMax), min execCapMax c.content.length,
    c.content.length⟩

/-- A result that is right: the call's own job, all of its output unless that has a
NUL byte, and its own exit code unless the call is at its deadline and the job has not
ended. -/
structure RightResult (c : Call) (r : CmdResult) : Prop where
  own : r.info.id = c.id
  output : (0 : UInt8) ∉ c.content → r.output = amigaLatin1ToUtf8 (c.content.take execCapMax)
  outputBytes : r.outputBytes = c.content.length
  truncated : r.truncated = true ↔ execCapMax < c.content.length
  ended : ∀ d, c.death = some d →
    r.info.state = .exited ∧ r.info.rc = d.rc ∧ r.info.result2 = d.result2
  running : c.death = none → r.info.state = .running ∧ c.AtDeadline

/-- What a finished call must have answered. -/
def Right (c : Call) : Prop :=
  match c.phase with
  | .failed e => e ≠ .recordLost ∧ c.death = none ∧ ∀ id ms, e = .timedOut id ms → c.AtDeadline
  | .answered r => RightResult c r
  | _ => True

def CallOk (t : Jobs.Sys) (c : Call) : Prop :=
  match c.phase with
  | .idle => True
  | .starting u => c.id = u.id ∧ c.death = none
  | .polling => Waits t c.id
  | .streaming ji => Waits t c.id ∧ Looked c ji
  | .reading ji => Waits t c.id ∧ Looked c ji ∧ (ji.state = .running → c.AtDeadline)
  | .dropping ji out => Looked c ji ∧ ji.state = .exited ∧ ReadWhole c out
  | .failed _ | .answered _ => Right c

theorem CallOk.frame {t t' : Jobs.Sys} {c : Call} (h : CallOk t c)
    (hw : ∀ id, c.waitsFor = some id → Waits t id → Waits t' id) : CallOk t' c := by
  unfold CallOk at h ⊢
  unfold Call.waitsFor at hw
  cases hp : c.phase with
  | polling =>
    rw [hp] at h hw
    exact hw c.id rfl h
  | streaming ji =>
    rw [hp] at h hw
    exact ⟨hw c.id rfl h.1, h.2⟩
  | reading ji =>
    rw [hp] at h hw
    exact ⟨hw c.id rfl h.1, h.2⟩
  | idle | starting _ | dropping _ _ | failed _ | answered _ =>
    rw [hp] at h
    exact h

theorem CallOk.right {t : Jobs.Sys} {c : Call} (h : CallOk t c) : Right c := by
  unfold CallOk at h
  cases hp : c.phase with
  | failed _ | answered _ =>
    rw [hp] at h
    exact h
  | idle | starting _ | polling | streaming _ | reading _ | dropping _ _ =>
    unfold Right
    rw [hp]
    trivial

/-! ### What a call does with what it sees -/

/-- A record that is in use and not held by a start shows whether the job has
ended, once the port is drained. -/
theorem looked_of_drained {s : Sys n} (h : Outputs s) (hport : s.table.port = []) {i : Slot}
    (huse : (s.table.jobs i).inUse = true) (hst : ∀ st ∈ s.table.starts, st.tenant.slot ≠ i)
    (env : Env) {c : Call} (hid : (s.table.jobs i).id = c.id) (hdeath : c.death = s.death c.id) :
    Looked c (fillInfo env (s.table.jobs i)) where
  id := hid
  path := by
    show copyInto 40 (s.table.jobs i).outPath = outPathOf c.id
    rw [h.table.path i huse, hid, outPathOf, copyInto, copyInto, List.take_take, Nat.min_self]
  state := by
    have hrec := h.records i huse
    rw [hdeath, ← hid]
    rcases hrec.state with hrun | hex
    · obtain ⟨t, ht, hti⟩ := hrec.held hrun
      refine Or.inl ⟨hrun, ?_⟩
      rcases List.mem_append.mp ht with ht | ht
      · rcases List.mem_append.mp ht with ht | ht
        · obtain ⟨st, hmem, rfl⟩ := List.mem_map.mp ht
          exact absurd hti (hst st hmem)
        · exact (hrec.child t ht hti).1
      · rw [hport] at ht
        cases ht
    · exact Or.inr ⟨hex, (hrec.ended hex).1⟩

theorem callOk_decide {t : Jobs.Sys} {c : Call} {ji : JobInfo} (hw : Waits t c.id)
    (hl : Looked c ji) : CallOk t (c.decide ji) := by
  unfold Call.decide
  split
  · rename_i hover
    split
    · rename_i hrun
      rcases hl.state with ⟨_, hd⟩ | ⟨hex, _⟩
      · refine ⟨by simp, hd, ?_⟩
        intro _ _ _
        rcases hover with hex | hdl
        · rw [hrun.1] at hex
          cases hex
        · exact hdl
      · rw [hrun.1] at hex
        cases hex
    · refine ⟨hw, ⟨hl.id, hl.path, hl.state⟩, ?_⟩
      intro hrun
      rcases hover with hex | hdl
      · rw [hrun] at hex
        cases hex
      · exact hdl
  · exact hw

theorem job_decide (c : Call) (ji : JobInfo) :
    (c.decide ji).job = none ∨ (c.decide ji).job = some c.id := by
  unfold Call.decide
  split
  · split
    · exact Or.inl rfl
    · exact Or.inr rfl
  · exact Or.inr rfl

theorem job_polled (c : Call) (death : Option Death) (got : Option JobInfo) :
    (c.polled death got).job = none ∨ (c.polled death got).job = some c.id := by
  unfold Call.polled
  split
  · exact Or.inl rfl
  · split
    · exact Or.inr rfl
    · exact job_decide { c with death := death } _

theorem job_readAll (c : Call) (ji : JobInfo) (files : Files) (content : Bytes) :
    (c.readAll ji files content).job = none ∨ (c.readAll ji files content).job = some c.id := by
  unfold Call.readAll
  dsimp only
  split
  · exact Or.inr rfl
  · exact Or.inl rfl

theorem callOk_polled {t : Jobs.Sys} {c : Call} {ji : JobInfo} {death : Option Death}
    (hw : Waits t c.id) (hl : Looked { c with death := death } ji) :
    CallOk t (c.polled death (some ji)) := by
  show CallOk t (if c.params.stream then { c with phase := .streaming ji, death := death }
    else { c with death := death }.decide ji)
  split
  · exact ⟨hw, hl.id, hl.path, hl.state⟩
  · exact callOk_decide (c := { c with death := death }) hw hl

theorem callOk_streamed {t : Jobs.Sys} {c : Call} {ji : JobInfo} (files : Files)
    (hw : Waits t c.id) (hl : Looked c ji) : CallOk t (c.streamed ji files) := by
  unfold Call.streamed
  exact callOk_decide hw ⟨hl.id, hl.path, hl.state⟩

/-- A call that waits for a job finds the whole output in its file. -/
theorem Outputs.kept_of_waits {s : Sys n} (h : Outputs s) {id : Nat} (hw : Waits s.table id) :
    Kept s id := by
  obtain ⟨i, huse, rfl, hdel, hst⟩ := hw
  have hrec := h.records i huse
  rcases hrec.state with hrun | hex
  · obtain ⟨t, ht, hti⟩ := hrec.held hrun
    rcases List.mem_append.mp ht with ht | ht
    · rcases List.mem_append.mp ht with ht | ht
      · obtain ⟨st, hmem, rfl⟩ := List.mem_map.mp ht
        exact absurd hti (hst st hmem)
      · exact (hrec.child t ht hti).2
    · exact (hrec.message t ht hti).2
  · exact (hrec.ended hex).2 hdel

theorem rightResult_of {c : Call} {ji : JobInfo} {out : ReadOutput} (hl : Looked c ji)
    (hdl : ji.state = .running → c.AtDeadline) (hout : ReadWhole c out) :
    RightResult c (c.result ji out) := by
  refine ⟨hl.id, fun hclean => ?_, ?_, ?_, ?_, ?_⟩
  · show cText out.text = _
    rw [hout]
    exact cText_latin1 fun hmem => hclean (List.mem_of_mem_take hmem)
  · show out.total = _
    rw [hout]
  · show decide (out.raw < out.total) = true ↔ _
    rw [hout, decide_eq_true_iff]
    show min execCapMax c.content.length < c.content.length ↔ _
    omega
  · intro d hd
    rcases hl.state with ⟨_, hnone⟩ | ⟨hex, hsome⟩
    · rw [hd] at hnone
      cases hnone
    · rw [hd] at hsome
      cases hsome
      exact ⟨hex, rfl, rfl⟩
  · intro hd
    rcases hl.state with ⟨hrun, _⟩ | ⟨_, hsome⟩
    · exact ⟨hrun, hdl hrun⟩
    · rw [hd] at hsome
      cases hsome

theorem callOk_readAll {s : Sys n} (h : Outputs s) {c : Call} {ji : JobInfo}
    (hw : Waits s.table c.id) (hl : Looked c ji) (hdl : ji.state = .running → c.AtDeadline) :
    CallOk s.table (c.readAll ji s.table.files (s.wrote c.id)) := by
  have hfile : s.table.files ji.outPath = some (s.wrote c.id) := by
    rw [hl.path]
    exact h.kept_of_waits hw
  unfold Call.readAll
  dsimp only
  rw [amigaReadOutput_all hfile]
  split
  · rename_i hex
    exact ⟨⟨hl.id, hl.path, hl.state⟩, hex, rfl⟩
  · exact rightResult_of (c := { c with phase := _, content := s.wrote c.id })
      ⟨hl.id, hl.path, hl.state⟩ hdl rfl

/-! ## The condition -/

/-- Neither a record in use nor an unfinished call has the id that the next
start is given. -/
def IdUnused (s : Sys n) : Prop :=
  FreshId s.table ∧ ∀ w, (s.calls w).job ≠ some s.table.nextId

/-- A start evicts no record that a call still waits for. -/
def StartAllowed (env : Env) (s : Sys n) : Prop :=
  match claimSlotLocked (drainLocked env s.table).jobs with
  | .free _ => IdUnused s
  | .evict i => IdUnused s ∧ ∀ w, (s.calls w).waitsFor ≠ some (s.table.jobs i).id
  | .full => True

/-- The steps that leave every call its result. -/
def Undisturbed (s : Sys n) : Label n → Prop
  | .begin env _ p cwdLocks =>
    match prepare p cwdLocks with
    | .ok _ => StartAllowed env s
    | .error _ => True
  | _ => True

instance (t : Jobs.Sys) : Decidable (FreshId t) := by
  unfold FreshId
  infer_instance

instance (s : Sys n) : Decidable (IdUnused s) := by
  unfold IdUnused
  infer_instance

instance (env : Env) (s : Sys n) : Decidable (StartAllowed env s) := by
  unfold StartAllowed
  split <;> infer_instance

instance (s : Sys n) (a : Label n) : Decidable (Undisturbed s a) := by
  unfold Undisturbed
  split
  · split <;> infer_instance
  · infer_instance

/-! ## The invariant of the system -/

structure Inv (s : Sys n) : Prop where
  outputs : Outputs s
  calls : ∀ w, CallOk s.table (s.calls w)
  /-- no two unfinished calls have the same job -/
  jobs : ∀ w w' k, (s.calls w).job = some k → (s.calls w').job = some k → w = w'

theorem job_of_waitsFor {c : Call} {id : Nat} (h : c.waitsFor = some id) : c.job = some id := by
  unfold Call.waitsFor at h
  unfold Call.job
  cases hp : c.phase <;> rw [hp] at h <;> first | exact h | cases h

/-- Worker `w` goes on with `c'` and nobody who waits is disturbed. -/
theorem Inv.update {s s' : Sys n} (h : Inv s) {w : Fin n} {c' : Call} (hout : Outputs s')
    (hcalls : s'.calls = Function.update s.calls w c')
    (hwaits : ∀ w', w' ≠ w → ∀ id, (s.calls w').waitsFor = some id → Waits s.table id →
      Waits s'.table id)
    (hc : CallOk s'.table c')
    (hjob : ∀ k, c'.job = some k → ∀ w', w' ≠ w → (s.calls w').job ≠ some k) : Inv s' where
  outputs := hout
  calls := by
    intro w'
    rw [hcalls]
    by_cases hw : w' = w
    · subst hw
      rw [Function.update_self]
      exact hc
    · rw [Function.update_of_ne hw]
      exact (h.calls w').frame (hwaits w' hw)
  jobs := by
    intro a b k ha hb
    rw [hcalls] at ha hb
    by_cases haw : a = w
    · subst haw
      rw [Function.update_self] at ha
      by_contra hba
      rw [Function.update_of_ne (Ne.symm hba)] at hb
      exact hjob k ha b (Ne.symm hba) hb
    · rw [Function.update_of_ne haw] at ha
      by_cases hbw : b = w
      · subst hbw
        rw [Function.update_self] at hb
        exact absurd ha (hjob k hb a haw)
      · rw [Function.update_of_ne hbw] at hb
        exact h.jobs a b k ha hb

/-- The call of `w` goes on with the job it has, or without one. -/
theorem Inv.same_job {s : Sys n} (h : Inv s) {w : Fin n} {c' : Call}
    (hjob : c'.job = none ∨ c'.job = (s.calls w).job) :
    ∀ k, c'.job = some k → ∀ w', w' ≠ w → (s.calls w').job ≠ some k := by
  intro k hk w' hw' hother
  rcases hjob with hnone | hsame
  · rw [hnone] at hk
    cases hk
  · rw [hsame] at hk
    exact hw' (h.jobs w' w k hother hk)

theorem init_inv (n : Nat) (files : Files) : Inv (init n files) where
  outputs := {
    table := init_tableInv files
    records := by
      intro i hi
      cases hi }
  calls := fun _ => trivial
  jobs := by
    intro _ _ _ h
    cases h

/-! ### Starts -/

theorem evictOutput_eq (i : Slot) (t : Jobs.Sys) :
    evictOutput i t = { t with files := (evictOutput i t).files } := by
  unfold evictOutput
  split <;> rfl

/-- The eviction of record `i` leaves the files of the other records. -/
theorem evictOutput_files {t : Jobs.Sys} (h : TableInv t) {i k : Slot} (hki : k ≠ i)
    (hi : (t.jobs i).inUse = true) (hk : (t.jobs k).inUse = true) :
    (evictOutput i t).files (outPathOf (t.jobs k).id) = t.files (outPathOf (t.jobs k).id) := by
  unfold evictOutput
  split
  · rfl
  · have hpath := path_ne h hk hi hki
    rw [← h.path i hi] at hpath
    exact Function.update_of_ne hpath _ _

theorem beginStart_cases (env : Env) (w : Fin n) (p : CmdParams) (full : CString) (s : Sys n) :
    (∃ t, claimed env s.table = some t ∧ t.id = s.table.nextId ∧
      (beginStart env w p full s).calls =
        Function.update s.calls w { params := p, phase := .starting t, id := t.id } ∧
      (beginStart env w p full s).wrote = Function.update s.wrote t.id [] ∧
      (beginStart env w p full s).death = Function.update s.death t.id none) ∨
    (claimed env s.table = none ∧
      (beginStart env w p full s).calls =
        Function.update s.calls w { params := p, phase := .failed .busy } ∧
      (beginStart env w p full s).wrote = s.wrote ∧ (beginStart env w p full s).death = s.death) := by
  unfold beginStart
  cases hclaim : claimed env s.table with
  | none => exact Or.inr ⟨rfl, rfl, rfl, rfl⟩
  | some t =>
    refine Or.inl ⟨t, rfl, ?_, rfl, rfl, rfl⟩
    unfold claimed at hclaim
    split at hclaim <;> cases hclaim <;> rfl

theorem idUnused_of_claimed {env : Env} {s : Sys n} {t : Tenant} (h : claimed env s.table = some t)
    (hok : StartAllowed env s) : ∀ w, (s.calls w).job ≠ some s.table.nextId := by
  unfold claimed at h
  unfold StartAllowed at hok
  split at h
  · rename_i i hclaim
    rw [hclaim] at hok
    exact hok.2
  · rename_i i hclaim
    rw [hclaim] at hok
    exact hok.1.2
  · cases h

theorem calm_fillSlot (env : Env) (worker : Nat) (req : StartRequest) {i k : Slot} (hki : k ≠ i)
    (t : Jobs.Sys) (files : Files) : Calm t (fillSlot env worker req i { t with files := files }) k := by
  have hjob : (fillSlot env worker req i { t with files := files }).jobs k = t.jobs k :=
    Table.set_other _ _ hki
  refine ⟨by rw [hjob], by rw [hjob], by rw [hjob], ?_⟩
  intro st hst hslot
  rcases List.mem_cons.mp hst with rfl | hmem
  · exact absurd hslot.symm hki
  · exact ⟨st, hmem, hslot⟩

/-- What a start does to the system, once its record is claimed. -/
structure Begun (env : Env) (w : Fin n) (p : CmdParams) (s s' : Sys n) (i : Slot) : Prop where
  outputs : Outputs s'
  calls : s'.calls = Function.update s.calls w
    { params := p, phase := .starting ⟨i, s.table.nextId⟩, id := s.table.nextId }
  calm : ∀ k, k ≠ i → Calm s.table s'.table k

theorem beginStart_begun {s : Sys n} (h : Outputs s) (hfresh : FreshId s.table) {env : Env}
    {w : Fin n} {p : CmdParams} {full : CString} {i : Slot}
    (hclaim : claimSlotLocked (drainLocked env s.table).jobs = .free i ∨
      claimSlotLocked (drainLocked env s.table).jobs = .evict i) :
    Begun env w p s (beginStart env w p full s) i := by
  have hd := h.drain env
  have hf : FreshId (s.drained env).table := hfresh.drain env
  have ht := h.table.startClaim (hfresh.apart env) w ⟨full, p.pri, p.sandboxed⟩
  have hdrain := fun k => calm_drain env s.table k
  rcases hclaim with hclaim | hclaim
  · have hstart : startClaim env w ⟨full, p.pri, p.sandboxed⟩ s.table =
        fillSlot env w ⟨full, p.pri, p.sandboxed⟩ i (drainLocked env s.table) := by
      rw [startClaim, hclaim]
    rw [hstart] at ht
    unfold beginStart claimed
    rw [hstart, hclaim]
    refine ⟨?_, rfl, ?_⟩
    · exact (hd.fillSlot env w ⟨full, p.pri, p.sandboxed⟩ ht hf fun _ _ _ => rfl).withCalls _
    · intro k hki
      exact (hdrain k).trans (calm_fillSlot env w _ hki _ (drainLocked env s.table).files)
  · have huse := (claimSlotLocked_evict hclaim).1
    have hstart : startClaim env w ⟨full, p.pri, p.sandboxed⟩ s.table =
        fillSlot env w ⟨full, p.pri, p.sandboxed⟩ i
          { drainLocked env s.table with files := (evictOutput i (drainLocked env s.table)).files } := by
      rw [startClaim, hclaim, ← evictOutput_eq]
    rw [hstart] at ht
    unfold beginStart claimed
    rw [hstart, hclaim]
    refine ⟨?_, rfl, ?_⟩
    · exact (hd.fillSlot env w ⟨full, p.pri, p.sandboxed⟩ ht hf fun k hki hk =>
        evictOutput_files hd.table hki huse hk).withCalls _
    · intro k hki
      exact (hdrain k).trans (calm_fillSlot env w _ hki _ _)

theorem Inv.begun {s s' : Sys n} (h : Inv s) {env : Env} {w : Fin n} {p : CmdParams} {i : Slot}
    (hb : Begun env w p s s' i) (hunused : ∀ w', (s.calls w').job ≠ some s.table.nextId)
    (hwaits : ∀ w', (s.table.jobs i).inUse = true →
      (s.calls w').waitsFor ≠ some (s.table.jobs i).id) : Inv s' := by
  refine h.update hb.outputs hb.calls ?_ ⟨rfl, rfl⟩ ?_
  · intro w' _ id hid hw
    refine hw.calm fun k huse hk _ => ?_
    refine hb.calm k fun hki => ?_
    subst hki
    exact hwaits w' huse (by rw [hid, hk])
  · intro k hk w' _
    cases hk
    exact hunused w'

theorem Inv.beginStart {s : Sys n} (h : Inv s) {env : Env} (hok : StartAllowed env s) (w : Fin n)
    (p : CmdParams) (full : CString) : Inv (beginStart env w p full s) := by
  unfold StartAllowed at hok
  split at hok
  · rename_i i hclaim
    have huse : (s.table.jobs i).inUse = false := by
      rw [← (calm_drain env s.table i).inUse]
      exact claimSlotLocked_free hclaim
    refine h.begun (beginStart_begun h.outputs hok.1 (Or.inl hclaim)) hok.2 ?_
    intro _ hin
    rw [huse] at hin
    cases hin
  · rename_i i hclaim
    exact h.begun (beginStart_begun h.outputs hok.1.1 (Or.inr hclaim)) hok.1.2 fun w' _ => hok.2 w'
  · rename_i hclaim
    have hstart : startClaim env w ⟨full, p.pri, p.sandboxed⟩ s.table = drainLocked env s.table := by
      rw [startClaim, hclaim]
    unfold Exec.beginStart claimed
    rw [hstart, hclaim]
    refine h.update ((h.outputs.drain env).withCalls _) rfl ?_ ⟨by simp, rfl, by simp⟩ ?_
    · intro w' _ id _ hw
      exact hw.calm fun k _ _ _ => calm_drain env s.table k
    · intro k hk
      cases hk

/-! ### Steps -/

/-- The checks before `jobs_start` have errors of their own. -/
theorem prepare_error {p : CmdParams} {cwdLocks : Bool} {e : CmdError}
    (h : prepare p cwdLocks = .error e) : e = .argsNotStrings ∨ ∃ cwd, e = .cwdLockFailed cwd := by
  unfold prepare at h
  split at h
  · cases h
    exact Or.inl rfl
  · split at h
    · cases h
    · cases h
      exact Or.inr ⟨_, rfl⟩
  · cases h

theorem Inv.begin {s : Sys n} (h : Inv s) {env : Env} {w : Fin n} {p : CmdParams}
    {cwdLocks : Bool} (hok : Undisturbed s (.begin env w p cwdLocks)) :
    Inv (beginCmd env w p cwdLocks s) := by
  unfold Undisturbed at hok
  unfold beginCmd
  dsimp only at hok
  split
  · rename_i e he
    refine h.update (h.outputs.withCalls _) rfl (fun _ _ _ _ hw => hw) ?_ ?_
    · rcases prepare_error he with rfl | ⟨cwd, rfl⟩
      · exact ⟨by simp, rfl, by simp⟩
      · exact ⟨by simp, rfl, by simp⟩
    · intro k hk
      cases hk
  · rename_i full he
    rw [he] at hok
    exact h.beginStart hok w p full

theorem Inv.kicked {s : Sys n} (h : Inv s) {w : Fin n} {st : Start}
    (hphase : (s.calls w).phase = .starting st.tenant) (hst : st ∈ s.table.starts)
    (hopen : st.phase = .opened) :
    Inv ({ s with table := startKicked st s.table }.setCall w
      { s.calls w with phase := .polling }) := by
  have hcall := h.calls w
  unfold CallOk at hcall
  rw [hphase] at hcall
  have hjob : (s.calls w).job = some (s.calls w).id := by
    unfold Call.job
    rw [hphase]
  refine h.update ((h.outputs.startKicked hst hopen).withCalls _) rfl ?_ ?_ (h.same_job (Or.inr hjob.symm))
  · intro w' _ id _ hw
    exact hw.calm fun k _ _ _ => ⟨rfl, rfl, rfl, calm_erase st k⟩
  · obtain ⟨hocc, hdel, _⟩ := h.outputs.at_start hst
    refine ⟨st.tenant.slot, hocc.1, hocc.2.1.trans hcall.1.symm, hdel, ?_⟩
    intro st' hst' hslot
    have hmem := List.mem_of_mem_erase hst'
    have heq := start_unique h.outputs.table hst hmem hslot
    subst heq
    have hn := (h.outputs.table.tenancy.sublist (List.sublist_append_left ..)).nodup
    rw [List.map_append, List.map_map] at hn
    exact (List.Nodup.of_map _ (List.nodup_append.mp hn).1).not_mem_erase hst'

theorem Inv.undone {s : Sys n} (h : Inv s) {w : Fin n} {st : Start}
    (hphase : (s.calls w).phase = .starting st.tenant) (hst : st ∈ s.table.starts) :
    Inv ({ s with table := startUndo st s.table }.setCall w
      { s.calls w with phase := .failed .notStarted }) := by
  have hcall := h.calls w
  unfold CallOk at hcall
  rw [hphase] at hcall
  refine h.update ((h.outputs.startUndo hst).withCalls _) rfl ?_ ⟨by simp, hcall.2, by simp⟩
    (h.same_job (Or.inl rfl))
  intro w' _ id _ hw
  refine hw.calm fun k _ _ hoff => ?_
  have hne : k ≠ st.tenant.slot := fun heq => hoff st hst heq.symm
  have hself : (startUndo st s.table).jobs k = s.table.jobs k := Table.set_other _ _ hne
  exact ⟨by rw [← hself]; rfl, by rw [← hself]; rfl, by rw [← hself]; rfl, calm_erase st k⟩

/-- A call that polls finds its record, and sees what is true of the job. -/
theorem Inv.looks {s : Sys n} (h : Inv s) (env : Env) {w : Fin n}
    (hphase : (s.calls w).phase = .polling) :
    ∃ ji, (jobsGet env (s.calls w).id s.table).2 = some ji ∧
      Waits (drainLocked env s.table) (s.calls w).id ∧
      Looked { s.calls w with death := s.death (s.calls w).id } ji := by
  have hcall := h.calls w
  unfold CallOk at hcall
  rw [hphase] at hcall
  have hd := h.outputs.drain env
  have hwaits : Waits (drainLocked env s.table) (s.calls w).id :=
    Waits.calm hcall fun k _ _ _ => calm_drain env s.table k
  obtain ⟨i, huse, hid, hdel, hst⟩ := hwaits
  have hfind : findLocked (drainLocked env s.table).jobs (s.calls w).id = some i := by
    rw [← hid]
    exact findLocked_of_inUse hd.table huse
  refine ⟨fillInfo env ((drainLocked env s.table).jobs i), ?_, ⟨i, huse, hid, hdel, hst⟩, ?_⟩
  · rw [jobsGet, hfind]
    rfl
  · exact looked_of_drained hd rfl huse hst env hid rfl

theorem Inv.poll {s : Sys n} (h : Inv s) (env : Env) {w : Fin n}
    (hphase : (s.calls w).phase = .polling) : Inv (pollCall env w s) := by
  have hjob : (s.calls w).job = some (s.calls w).id := by
    unfold Call.job
    rw [hphase]
  obtain ⟨ji, hgot, hwaits, hlook⟩ := h.looks env hphase
  unfold pollCall
  dsimp only
  rw [hgot]
  refine h.update ((h.outputs.drain env).withCalls _) rfl ?_ ?_ (h.same_job ?_)
  · intro w' _ id _ hw
    exact hw.calm fun k _ _ _ => calm_drain env s.table k
  · exact callOk_polled hwaits hlook
  · rw [hjob]
    exact job_polled _ _ _

theorem Inv.stream {s : Sys n} (h : Inv s) {w : Fin n} {ji : JobInfo}
    (hphase : (s.calls w).phase = .streaming ji) :
    Inv (s.setCall w ((s.calls w).streamed ji s.table.files)) := by
  have hcall := h.calls w
  unfold CallOk at hcall
  rw [hphase] at hcall
  have hjob : (s.calls w).job = some (s.calls w).id := by
    unfold Call.job
    rw [hphase]
  refine h.update (h.outputs.withCalls _) rfl (fun _ _ _ _ hw => hw)
    (callOk_streamed _ hcall.1 hcall.2) (h.same_job ?_)
  rw [hjob]
  exact job_decide _ _

theorem Inv.read {s : Sys n} (h : Inv s) {w : Fin n} {ji : JobInfo}
    (hphase : (s.calls w).phase = .reading ji) :
    Inv (s.setCall w ((s.calls w).readAll ji s.table.files (s.wrote (s.calls w).id))) := by
  have hcall := h.calls w
  unfold CallOk at hcall
  rw [hphase] at hcall
  have hjob : (s.calls w).job = some (s.calls w).id := by
    unfold Call.job
    rw [hphase]
  refine h.update (h.outputs.withCalls _) rfl (fun _ _ _ _ hw => hw)
    (callOk_readAll h.outputs hcall.1 hcall.2.1 hcall.2.2) (h.same_job ?_)
  rw [hjob]
  exact job_readAll _ _ _ _

/-- `jobs_drop_output` touches no record but that of its own job. -/
theorem calm_dropOutput {t : Jobs.Sys} (id : Nat) {k : Slot} (hk : (t.jobs k).id ≠ id) :
    Calm t (jobsDropOutput id t) k := by
  unfold jobsDropOutput
  split
  · exact calm_of_view (SameView.refl _) rfl
  · rename_i i hfind
    have hid := (findLocked_some hfind).2
    have hki : k ≠ i := by
      rintro rfl
      exact hk hid
    split
    · exact calm_of_view (SameView.set_other _ _ hki) rfl
    · exact calm_of_view (SameView.refl _) rfl

theorem Inv.drop {s : Sys n} (h : Inv s) {w : Fin n} {ji : JobInfo} {out : ReadOutput}
    (hphase : (s.calls w).phase = .dropping ji out) :
    Inv ({ s with table := jobsDropOutput (s.calls w).id s.table }.setCall w
      { s.calls w with phase := .answered ((s.calls w).result ji out) }) := by
  have hcall := h.calls w
  unfold CallOk at hcall
  rw [hphase] at hcall
  obtain ⟨hlook, hex, hout⟩ := hcall
  have hjob : (s.calls w).job = some (s.calls w).id := by
    unfold Call.job
    rw [hphase]
  refine h.update ((h.outputs.jobsDropOutput _).withCalls _) rfl ?_ ?_ (h.same_job (Or.inl rfl))
  · intro w' hw' id hid hw
    refine hw.calm fun k _ hk _ => calm_dropOutput _ ?_
    intro heq
    refine hw' (h.jobs w' w id (job_of_waitsFor hid) ?_)
    rw [hjob, ← heq, hk]
  · have hright : RightResult (s.calls w) ((s.calls w).result ji out) := by
      refine rightResult_of hlook ?_ hout
      intro hrun
      rw [hrun] at hex
      cases hex
    exact ⟨hright.own, hright.output, hright.outputBytes, hright.truncated, hright.ended,
      hright.running⟩

theorem Outputs.background {s : Sys n} (h : Outputs s) {a : Jobs.Label} {t' : Jobs.Sys}
    (hb : Exec.background a = true) (hs : Jobs.serve s.table a = some t') :
    Outputs (s.onTable a t') := by
  cases a with
  | startOpened st =>
    obtain ⟨hst, _, rfl⟩ := whenStart_some hs
    exact h.startOpened hst
  | startOpenFailed st =>
    obtain ⟨hst, _, rfl⟩ := whenStart_some hs
    exact h.startOpenFailed hst
  | startKickFailed st =>
    obtain ⟨hst, _, rfl⟩ := whenStart_some hs
    exact h.startOpenFailed hst
  | jobEntry c pid =>
    obtain ⟨_, rfl⟩ := whenChild_some hs
    exact h.jobEntry c pid
  | childWrite c bytes =>
    obtain ⟨hc, rfl⟩ := whenChild_some hs
    exact h.childWrite hc bytes
  | childExit c rc result2 =>
    obtain ⟨hc, rfl⟩ := whenChild_some hs
    exact h.childExit hc rc result2
  | get env id =>
    cases hs
    exact h.drain env
  | signal env id sigmask found =>
    cases hs
    exact h.jobsSignal env id sigmask found
  | list env =>
    cases hs
    exact h.drain env
  | startClaim env worker req => cases hb
  | startKicked st => cases hb
  | startUndo st => cases hb
  | dropOutput id => cases hb
  | shutdownCount env => cases hb
  | shutdownFree => cases hb

theorem onTable_table (s : Sys n) (a : Jobs.Label) (t : Jobs.Sys) : (s.onTable a t).table = t := by
  unfold Sys.onTable
  split <;> rfl

theorem onTable_calls (s : Sys n) (a : Jobs.Label) (t : Jobs.Sys) :
    (s.onTable a t).calls = s.calls := by
  unfold Sys.onTable
  split <;> rfl

theorem Inv.background {s : Sys n} (h : Inv s) {a : Jobs.Label} {t' : Jobs.Sys}
    (hb : Exec.background a = true) (hs : Jobs.serve s.table a = some t') :
    Inv (s.onTable a t') where
  outputs := h.outputs.background hb hs
  calls := by
    intro w
    rw [onTable_calls, onTable_table]
    refine (h.calls w).frame fun id _ hw => ?_
    exact hw.calm fun i _ _ _ => calm_background hb hs i
  jobs := by
    rw [onTable_calls]
    exact h.jobs

/-- What a step does. -/
inductive Stepped (s : Sys n) : Label n → Sys n → Prop where
  | begin (env : Env) (w : Fin n) (p : CmdParams) (cwdLocks : Bool)
      (hfree : (s.calls w).free = true) :
      Stepped s (.begin env w p cwdLocks) (beginCmd env w p cwdLocks s)
  | kicked (w : Fin n) (st : Start) (hphase : (s.calls w).phase = .starting st.tenant)
      (hst : st ∈ s.table.starts) (hopen : st.phase = .opened) :
      Stepped s (.kicked w st) ({ s with table := startKicked st s.table }.setCall w
        { s.calls w with phase := .polling })
  | undone (w : Fin n) (st : Start) (hphase : (s.calls w).phase = .starting st.tenant)
      (hst : st ∈ s.table.starts) :
      Stepped s (.undone w st) ({ s with table := startUndo st s.table }.setCall w
        { s.calls w with phase := .failed .notStarted })
  | poll (env : Env) (w : Fin n) (hphase : (s.calls w).phase = .polling) :
      Stepped s (.poll env w) (pollCall env w s)
  | stream (w : Fin n) (ji : JobInfo) (hphase : (s.calls w).phase = .streaming ji) :
      Stepped s (.stream w) (s.setCall w ((s.calls w).streamed ji s.table.files))
  | read (w : Fin n) (ji : JobInfo) (hphase : (s.calls w).phase = .reading ji) :
      Stepped s (.read w)
        (s.setCall w ((s.calls w).readAll ji s.table.files (s.wrote (s.calls w).id)))
  | drop (w : Fin n) (ji : JobInfo) (out : ReadOutput)
      (hphase : (s.calls w).phase = .dropping ji out) :
      Stepped s (.drop w) ({ s with table := jobsDropOutput (s.calls w).id s.table }.setCall w
        { s.calls w with phase := .answered ((s.calls w).result ji out) })
  | table (a : Jobs.Label) (table : Jobs.Sys) (hback : background a = true)
      (hserve : serve s.table a = some table) : Stepped s (.table a) (s.onTable a table)

theorem step_cases {s s' : Sys n} {a : Label n} (h : step s a = some s') : Stepped s a s' := by
  cases a with
  | begin env w p cwdLocks =>
    obtain ⟨hfree, heq⟩ := Option.ite_none_right_eq_some.mp h
    cases heq
    exact .begin env w p cwdLocks hfree
  | kicked w st =>
    obtain ⟨hphase, hmap⟩ := Option.ite_none_right_eq_some.mp h
    obtain ⟨table, htable, rfl⟩ := Option.map_eq_some_iff.mp hmap
    obtain ⟨hst, hopen, rfl⟩ := whenStart_some (step_serve htable).2
    exact .kicked w st hphase hst hopen
  | undone w st =>
    obtain ⟨hphase, hmap⟩ := Option.ite_none_right_eq_some.mp h
    obtain ⟨table, htable, rfl⟩ := Option.map_eq_some_iff.mp hmap
    obtain ⟨hst, -, rfl⟩ := whenStart_some (step_serve htable).2
    exact .undone w st hphase hst
  | poll env w =>
    obtain ⟨hphase, heq⟩ := Option.ite_none_right_eq_some.mp h
    cases heq
    exact .poll env w hphase
  | stream w =>
    simp only [step] at h
    split at h
    · rename_i ji hphase
      cases h
      exact .stream w ji hphase
    · cases h
  | read w =>
    simp only [step] at h
    split at h
    · rename_i ji hphase
      cases h
      exact .read w ji hphase
    · cases h
  | drop w =>
    simp only [step] at h
    split at h
    · rename_i ji out hphase
      cases h
      exact .drop w ji out hphase
    · cases h
  | table a =>
    obtain ⟨hback, hmap⟩ := Option.ite_none_right_eq_some.mp h
    obtain ⟨table, htable, rfl⟩ := Option.map_eq_some_iff.mp hmap
    exact .table a table hback (step_serve htable).2

theorem Inv.step {s s' : Sys n} {a : Label n} (h : Inv s) (hok : Undisturbed s a)
    (hstep : step s a = some s') : Inv s' := by
  cases step_cases hstep with
  | begin env w p cwdLocks hfree => exact h.begin hok
  | kicked w st hphase hst hopen => exact h.kicked hphase hst hopen
  | undone w st hphase hst => exact h.undone hphase hst
  | poll env w hphase => exact h.poll env hphase
  | stream w ji hphase => exact h.stream hphase
  | read w ji hphase => exact h.read hphase
  | drop w ji out hphase => exact h.drop hphase
  | table a table hback hserve => exact h.background hback hserve

end AmigaFleet.Mcpd.Exec

import Mathlib.Algebra.Ring.Int.Defs
import Mathlib.Algebra.Ring.Nat
import Mathlib.Data.List.Basic

/-!
# Runs of a partial step function

A system is a function `step : σ → α → Option σ`.  The label `a : α` carries
everything the environment decides: which process moves, and what the outside
world answers.  `none` means that the label is not enabled in that state.

* `run` folds `step` over a list of labels.
* `Along step ok s as` says that every label of the run `as` from `s` meets
  the condition `ok` in the state it is taken from.
* `run_invariant` is the induction that every safety proof of this
  development uses: what one step keeps, a whole run keeps.
* `along_iff_prefix` is the rule for a condition that is exact at every step,
  and `along_iff_snoc` says the condition of each label at its place.
-/

namespace AmigaFleet.Lib

variable {σ α : Type}

/-- Take the labels one after another; `none` when one is not enabled. -/
def run (step : σ → α → Option σ) (s : σ) : List α → Option σ
  | [] => some s
  | a :: as =>
    match step s a with
    | none => none
    | some s' => run step s' as

@[simp] theorem run_nil (step : σ → α → Option σ) (s : σ) : run step s [] = some s := rfl

theorem run_cons (step : σ → α → Option σ) (s : σ) (a : α) (as : List α) :
    run step s (a :: as) = (step s a).bind fun s' => run step s' as := by
  rw [run]
  cases step s a <;> rfl

theorem run_cons_some {step : σ → α → Option σ} {s t : σ} {a : α} {as : List α}
    (h : run step s (a :: as) = some t) : ∃ s', step s a = some s' ∧ run step s' as = some t := by
  rw [run_cons] at h
  exact Option.bind_eq_some_iff.mp h

theorem run_append_bind (step : σ → α → Option σ) (s : σ) (as bs : List α) :
    run step s (as ++ bs) = (run step s as).bind fun t => run step t bs := by
  induction as generalizing s with
  | nil => rfl
  | cons a as ih =>
    rw [List.cons_append, run_cons, run_cons]
    cases step s a with
    | none => rfl
    | some s' => exact ih s'

theorem run_append {step : σ → α → Option σ} {s t : σ} {as bs : List α}
    (h : run step s as = some t) : run step s (as ++ bs) = run step t bs := by
  rw [run_append_bind, h, Option.bind_some]

theorem run_append_some {step : σ → α → Option σ} {s t : σ} {as bs : List α}
    (h : run step s (as ++ bs) = some t) :
    ∃ m, run step s as = some m ∧ run step m bs = some t := by
  rw [run_append_bind] at h
  exact Option.bind_eq_some_iff.mp h

/-- A label that no state enables is on no run. -/
theorem run_not_mem {step : σ → α → Option σ} {a : α} (ha : ∀ s, step s a = none) {s t : σ}
    {as : List α} (h : run step s as = some t) : a ∉ as := by
  induction as generalizing s with
  | nil => exact List.not_mem_nil
  | cons b as ih =>
    obtain ⟨s', hs', hrest⟩ := run_cons_some h
    intro hmem
    rcases List.mem_cons.mp hmem with rfl | hmem
    · rw [ha s] at hs'
      cases hs'
    · exact ih hrest hmem

/-- Every label of the run meets `ok` in the state it is taken from. -/
def Along (step : σ → α → Option σ) (ok : σ → α → Prop) (s : σ) : List α → Prop
  | [] => True
  | a :: as =>
    ok s a ∧
      match step s a with
      | none => True
      | some s' => Along step ok s' as

instance Along.decidable (step : σ → α → Option σ) (ok : σ → α → Prop)
    [∀ s a, Decidable (ok s a)] : ∀ (as : List α) (s : σ), Decidable (Along step ok s as)
  | [], _ => isTrue trivial
  | a :: as, s =>
    match hstep : step s a with
    | none => decidable_of_iff (ok s a) (by simp [Along, hstep])
    | some s' =>
      have : Decidable (Along step ok s' as) := Along.decidable step ok as s'
      decidable_of_iff (ok s a ∧ Along step ok s' as) (by simp [Along, hstep])

theorem Along.head {step : σ → α → Option σ} {ok : σ → α → Prop} {s : σ} {a : α} {as : List α}
    (h : Along step ok s (a :: as)) : ok s a := h.1

theorem Along.tail {step : σ → α → Option σ} {ok : σ → α → Prop} {s s' : σ} {a : α}
    {as : List α} (h : Along step ok s (a :: as)) (hs : step s a = some s') :
    Along step ok s' as := by
  have htail := h.2
  rw [hs] at htail
  exact htail

theorem Along.cons {step : σ → α → Option σ} {ok : σ → α → Prop} {s : σ} {a : α} {as : List α}
    (h : ok s a) (hrest : ∀ s', step s a = some s' → Along step ok s' as) :
    Along step ok s (a :: as) := by
  refine ⟨h, ?_⟩
  cases hs : step s a with
  | none => trivial
  | some s' => exact hrest s' hs

/-- A condition that the labels of the run meet in every state. -/
theorem along_of_forall {step : σ → α → Option σ} {ok : σ → α → Prop} {as : List α}
    (h : ∀ a ∈ as, ∀ s, ok s a) (s : σ) : Along step ok s as := by
  induction as generalizing s with
  | nil => trivial
  | cons a as ih =>
    exact Along.cons (h a (List.mem_cons_self ..) s) fun s' _ =>
      ih (fun b hb => h b (List.mem_cons_of_mem _ hb)) s'

theorem along_true (step : σ → α → Option σ) (s : σ) (as : List α) :
    Along step (fun _ _ => True) s as := by
  induction as generalizing s with
  | nil => trivial
  | cons a as ih =>
    refine ⟨trivial, ?_⟩
    cases step s a with
    | none => trivial
    | some s' => exact ih s'

/-- The invariant rule.  An invariant that every step meeting `ok` keeps holds
at the end of every run whose steps all meet `ok`. -/
theorem run_invariant {step : σ → α → Option σ} {ok : σ → α → Prop} {Inv : σ → Prop}
    (hstep : ∀ s a s', Inv s → ok s a → step s a = some s' → Inv s')
    {s t : σ} {as : List α} (hs : Inv s) (hok : Along step ok s as)
    (hrun : run step s as = some t) : Inv t := by
  induction as generalizing s with
  | nil =>
    cases hrun
    exact hs
  | cons a as ih =>
    obtain ⟨s', hs', hrest⟩ := run_cons_some hrun
    exact ih (hstep s a s' hs hok.head hs') (hok.tail hs') hrest

/-- The invariant rule without a condition on the steps. -/
theorem run_invariant_all {step : σ → α → Option σ} {Inv : σ → Prop}
    (hstep : ∀ s a s', Inv s → step s a = some s' → Inv s')
    {s t : σ} {as : List α} (hs : Inv s) (hrun : run step s as = some t) : Inv t := by
  induction as generalizing s with
  | nil =>
    cases hrun
    exact hs
  | cons a as ih =>
    obtain ⟨s', hs', hrest⟩ := run_cons_some hrun
    exact ih (hstep s a s' hs hs') hrest

/-- The rule for an exact condition.  When a step from an invariant state leads
to a bad one exactly if it does not meet `ok`, the steps of a run all meet `ok`
exactly if no state on the way is bad. -/
theorem along_iff_prefix {step : σ → α → Option σ} {ok : σ → α → Prop} {Inv Bad : σ → Prop}
    (hkeep : ∀ s a s', Inv s → step s a = some s' → Inv s')
    (hbad : ∀ s a s', Inv s → step s a = some s' → (Bad s' ↔ ¬ ok s a))
    {s t : σ} {as : List α} (hs : Inv s) (hstart : ¬ Bad s) (hrun : run step s as = some t) :
    Along step ok s as ↔ ∀ bs m, bs <+: as → run step s bs = some m → ¬ Bad m := by
  induction as generalizing s with
  | nil =>
    constructor
    · intro _ bs m hbs hm
      rw [List.prefix_nil.mp hbs] at hm
      cases hm
      exact hstart
    · intro _
      trivial
  | cons a as ih =>
    obtain ⟨s', hs', hrest⟩ := run_cons_some hrun
    have hinv := hkeep s a s' hs hs'
    have hexact := hbad s a s' hs hs'
    constructor
    · intro halong bs m hbs hm
      have hgood : ¬ Bad s' := fun h => hexact.mp h halong.head
      cases bs with
      | nil =>
        cases hm
        exact hstart
      | cons b bs =>
        obtain ⟨rfl, htail⟩ := List.cons_prefix_cons.mp hbs
        rw [run, hs'] at hm
        exact (ih hinv hgood hrest).mp (halong.tail hs') bs m htail hm
    · intro hall
      have hgood : ¬ Bad s' := by
        refine hall [a] s' ?_ ?_
        · simp
        · rw [run, hs']
          rfl
      apply Along.cons (not_not.mp fun h => hgood (hexact.mpr h))
      intro s'' hs''
      rw [hs'] at hs''
      cases hs''
      refine (ih hinv hgood hrest).mpr ?_
      intro bs m hbs hm
      refine hall (a :: bs) m (List.cons_prefix_cons.mpr ⟨rfl, hbs⟩) ?_
      rw [run, hs']
      exact hm

/-- A run that gets stuck, up to the label that is not enabled. -/
theorem run_none_split {step : σ → α → Option σ} {s : σ} {as : List α} (h : run step s as = none) :
    ∃ bs a cs m, as = bs ++ a :: cs ∧ run step s bs = some m ∧ step m a = none := by
  induction as generalizing s with
  | nil => cases h
  | cons a as ih =>
    rw [run] at h
    cases hs : step s a with
    | none => exact ⟨[], a, as, s, rfl, rfl, hs⟩
    | some s' =>
      rw [hs] at h
      obtain ⟨bs, b, cs, m, rfl, hbs, hm⟩ := ih h
      exact ⟨a :: bs, b, cs, m, rfl, by rw [run, hs]; exact hbs, hm⟩

/-- The condition along a run, label by label. -/
theorem along_iff_snoc {step : σ → α → Option σ} {ok : σ → α → Prop} {s : σ} {as : List α} :
    Along step ok s as ↔ ∀ bs a m, bs ++ [a] <+: as → run step s bs = some m → ok m a := by
  induction as generalizing s with
  | nil => simp [Along]
  | cons b as ih =>
    constructor
    · rintro halong (_ | ⟨c, bs⟩) a m hpre hrun
      · obtain ⟨rfl, _⟩ := List.cons_prefix_cons.mp hpre
        cases hrun
        exact halong.head
      · obtain ⟨rfl, htail⟩ := List.cons_prefix_cons.mp hpre
        obtain ⟨s', hs', hrest⟩ := run_cons_some hrun
        exact ih.mp (halong.tail hs') bs a m htail hrest
    · intro hall
      refine Along.cons (hall [] b s (by simp) rfl) fun s' hs' => ih.mpr ?_
      intro bs a m hpre hrun
      refine hall (b :: bs) a m (List.cons_prefix_cons.mpr ⟨rfl, hpre⟩) ?_
      rw [run, hs']
      exact hrun

/-- A condition that holds along a run holds along its first part, and along
its second. -/
theorem Along.append_left {step : σ → α → Option σ} {ok : σ → α → Prop} {s : σ} {as bs : List α}
    (h : Along step ok s (as ++ bs)) : Along step ok s as := by
  induction as generalizing s with
  | nil => trivial
  | cons a as ih =>
    refine ⟨h.head, ?_⟩
    cases hs : step s a with
    | none => trivial
    | some s' => exact ih (h.tail hs)

theorem Along.append_right {step : σ → α → Option σ} {ok : σ → α → Prop} {s t : σ}
    {as bs : List α} (h : Along step ok s (as ++ bs)) (hrun : run step s as = some t) :
    Along step ok t bs := by
  induction as generalizing s with
  | nil =>
    cases hrun
    exact h
  | cons a as ih =>
    obtain ⟨s', hs', hrest⟩ := run_cons_some hrun
    exact ih (h.tail hs') hrest

theorem Along.append {step : σ → α → Option σ} {ok : σ → α → Prop} {s : σ} {as bs : List α}
    (h : Along step ok s as) (hrest : ∀ t, run step s as = some t → Along step ok t bs) :
    Along step ok s (as ++ bs) := by
  induction as generalizing s with
  | nil => exact hrest s rfl
  | cons a as ih =>
    refine Along.cons h.head fun s' hs' => ih (h.tail hs') fun t ht => hrest t ?_
    rw [run, hs']
    exact ht

/-- A condition on the labels alone joins a condition along the run. -/
theorem Along.and_forall {step : σ → α → Option σ} {ok : σ → α → Prop} {P : α → Prop} {s : σ}
    {as : List α} (h : Along step ok s as) (hP : ∀ a ∈ as, P a) :
    Along step (fun s a => ok s a ∧ P a) s as := by
  induction as generalizing s with
  | nil => trivial
  | cons a as ih =>
    refine ⟨⟨h.head, hP a (List.mem_cons_self ..)⟩, ?_⟩
    cases hs : step s a with
    | none => trivial
    | some s' => exact ih (h.tail hs) fun b hb => hP b (List.mem_cons_of_mem _ hb)

end AmigaFleet.Lib

import Mathlib.Data.List.Chain

/-!
# Changes of a sampled value

Somebody looks at a value from time to time and reports every change that he
sees.  `changes` are the reports that belong to a row of samples: one for each
sample that differs from the one before it.  Each report starts where the one
before it ended (`changes_chained`), and the first one at the first sample.
-/

namespace AmigaFleet.Lib

variable {α : Type} [DecidableEq α]

/-- A value before and after a change. -/
structure Change (α : Type) where
  previous : α
  current : α
deriving DecidableEq, Repr

/-- The changes in a row of samples. -/
def changes (samples : List α) : List (Change α) :=
  (List.zipWith Change.mk samples samples.tail).filter fun c => c.previous ≠ c.current

@[simp] theorem changes_nil : changes ([] : List α) = [] := rfl

@[simp] theorem changes_singleton (x : α) : changes [x] = [] := rfl

theorem changes_cons_same (x : α) (samples : List α) :
    changes (x :: x :: samples) = changes (x :: samples) := by
  unfold changes
  rw [List.tail_cons, List.zipWith_cons_cons, List.filter_cons_of_neg (by simp)]
  rfl

theorem changes_cons_change {x y : α} (h : x ≠ y) (samples : List α) :
    changes (x :: y :: samples) = ⟨x, y⟩ :: changes (y :: samples) := by
  unfold changes
  rw [List.tail_cons, List.zipWith_cons_cons, List.filter_cons_of_pos (by simpa using h)]
  rfl

/-- The first report starts at the first sample. -/
theorem previous_head_changes {c : Change α} {x : α} {samples : List α}
    (h : (changes (x :: samples)).head? = some c) : c.previous = x := by
  induction samples with
  | nil => cases h
  | cons y samples ih =>
    by_cases hsame : x = y
    · subst hsame
      rw [changes_cons_same] at h
      exact ih h
    · rw [changes_cons_change hsame] at h
      cases h
      rfl

/-- Every report starts where the one before it ended. -/
theorem changes_chained (samples : List α) :
    (changes samples).IsChain fun c d => d.previous = c.current := by
  induction samples with
  | nil => exact List.isChain_nil
  | cons x samples ih =>
    cases samples with
    | nil => exact List.isChain_nil
    | cons y samples =>
      by_cases hsame : x = y
      · subst hsame
        rw [changes_cons_same]
        exact ih
      · rw [changes_cons_change hsame]
        exact List.isChain_cons.mpr ⟨fun d hd => previous_head_changes hd, ih⟩

end AmigaFleet.Lib

import Mathlib.Data.List.Pairwise
import Mathlib.Order.Basic

/-!
# Walking along a chain

`next` says where a place of the chain leads and what is found on the way; `none`
is the end.  `walk` takes at most `n` steps.

* `walk_stops`: a walk that is shorter than it may be ends where the chain does.
* `walk_sim`: a chain that is simulated by another one is walked in the same way.
* `walk_increasing`: on a chain that leads upwards no place comes twice.
-/

namespace AmigaFleet.Lib.Chain

variable {α α' β β' : Type} (next : α → Option (α × β)) (next' : α' → Option (α' × β'))

def walk : Nat → α → List (α × β)
  | 0, _ => []
  | n + 1, a =>
    match next a with
    | none => []
    | some l => l :: walk n l.1

/-- The places from which a walk looks for a step. -/
def sources : Nat → α → List α
  | 0, _ => []
  | n + 1, a =>
    a :: match next a with
      | none => []
      | some l => sources n l.1

theorem walk_end {a : α} (h : next a = none) (n : Nat) : walk next n a = [] := by
  cases n with
  | zero => rfl
  | succ n => rw [walk, h]

theorem walk_step {a : α} {l : α × β} (h : next a = some l) (n : Nat) :
    walk next (n + 1) a = l :: walk next n l.1 := by
  rw [walk, h]

theorem length_walk_le (n : Nat) (a : α) : (walk next n a).length ≤ n := by
  induction n generalizing a with
  | zero => exact Nat.le_refl 0
  | succ n ih =>
    cases hnext : next a with
    | none =>
      rw [walk_end next hnext]
      exact Nat.zero_le _
    | some l =>
      rw [walk_step next hnext, List.length_cons]
      exact Nat.succ_le_succ (ih l.1)

/-- A walk that is shorter than it may be stops where the chain ends. -/
theorem walk_stops {n : Nat} {a : α} (h : (walk next n a).length < n) :
    next (((walk next n a).getLast?.map Prod.fst).getD a) = none := by
  induction n generalizing a with
  | zero => exact absurd h (Nat.not_lt_zero _)
  | succ n ih =>
    cases hnext : next a with
    | none =>
      rw [walk_end next hnext]
      exact hnext
    | some l =>
      rw [walk_step next hnext, List.length_cons, Nat.succ_lt_succ_iff] at h
      have hlast := ih h
      rw [Option.getD_map] at hlast
      rw [walk_step next hnext, List.getLast?_cons, Option.map_some, Option.getD_some]
      exact hlast

/-- The steps of one chain are those of another one, as far as the walk looks. -/
theorem walk_sim {f : α → α'} {g : β → β'} {n : Nat} {a : α}
    (h : ∀ x ∈ sources next n a, next' (f x) = (next x).map (Prod.map f g)) :
    walk next' n (f a) = (walk next n a).map (Prod.map f g) := by
  induction n generalizing a with
  | zero => rfl
  | succ n ih =>
    rw [sources, List.forall_mem_cons] at h
    obtain ⟨hstep, hrest⟩ := h
    cases hnext : next a with
    | none =>
      rw [hnext, Option.map_none] at hstep
      rw [walk_end next hnext, walk_end next' hstep, List.map_nil]
    | some l =>
      rw [hnext] at hrest
      rw [hnext, Option.map_some] at hstep
      rw [walk_step next hnext, walk_step next' hstep, List.map_cons, Prod.map_fst, ih hrest]

/-- The places of a walk on a chain that leads upwards, in the order of `f`. -/
theorem walk_increasing {γ : Type} [Preorder γ] (f : α → γ)
    (hup : ∀ a l, next a = some l → f a < f l.1) (n : Nat) (a : α) :
    (f a :: (walk next n a).map fun l => f l.1).Pairwise (· < ·) := by
  induction n generalizing a with
  | zero => exact List.pairwise_singleton _ (f a)
  | succ n ih =>
    cases hnext : next a with
    | none =>
      rw [walk_end next hnext]
      exact List.pairwise_singleton _ (f a)
    | some l =>
      have hrest := ih l.1
      have hlt := hup a l hnext
      rw [walk_step next hnext, List.map_cons]
      refine List.pairwise_cons.mpr ⟨fun x hx => ?_, hrest⟩
      apply (List.mem_cons.mp hx).elim
      · intro heq
        rw [heq]
        exact hlt
      · intro hmem
        exact lt_trans hlt ((List.pairwise_cons.mp hrest).1 x hmem)

end AmigaFleet.Lib.Chain

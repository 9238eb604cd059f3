import Mathlib.Algebra.BigOperators.Group.List.Basic
import Mathlib.Order.Interval.Set.UnorderedInterval
import Mathlib.Algebra.Order.Group.Int

/-!
# Approaching a target in steps

A point is moved by one displacement after another.  `Approaches target x ds`
says that from `x` on every displacement leads towards the target and none past
it, and that the last one ends there.

`interpolate d n i` is the way to go after `i` of `n` equal steps, rounded
towards zero.  `interpolate_mem_uIcc`: it moves towards `d` whatever its sign,
also when there are more steps than units, and the last step ends at `d`
(`interpolate_self`).
-/

namespace AmigaFleet.Lib

/-! ## Displacements -/

section Approaches

variable {α : Type*} [AddGroup α] [LinearOrder α]

def Approaches (target : α) : α → List α → Prop
  | x, [] => x = target
  | x, d :: ds => x + d ∈ Set.uIcc x target ∧ Approaches target (x + d) ds

/-- The displacements add up to the way. -/
theorem Approaches.add_sum {target x : α} {ds : List α} (h : Approaches target x ds) :
    x + ds.sum = target := by
  induction ds generalizing x with
  | nil => exact (add_zero x).trans h
  | cons d ds ih =>
    rw [List.sum_cons, ← add_assoc]
    exact ih h.2

/-- No displacement goes back or too far. -/
theorem Approaches.step {target x : α} {ds : List α} (h : Approaches target x ds) {i : Nat}
    (hi : i < ds.length) :
    x + (ds.take (i + 1)).sum ∈ Set.uIcc (x + (ds.take i).sum) target := by
  induction ds generalizing x i with
  | nil => cases hi
  | cons d ds ih =>
    cases i with
    | zero => simpa using h.1
    | succ i =>
      have hrest := ih h.2 (Nat.lt_of_succ_lt_succ hi)
      simpa [add_assoc] using hrest

/-- On the way the point is between the start and the target. -/
theorem Approaches.mem_uIcc {target x : α} {ds : List α} (h : Approaches target x ds) (i : Nat) :
    x + (ds.take i).sum ∈ Set.uIcc x target := by
  induction ds generalizing x i with
  | nil => simp
  | cons d ds ih =>
    cases i with
    | zero => simp
    | succ i =>
      have hrest := Set.uIcc_subset_uIcc_right h.1 (ih h.2 i)
      simpa [add_assoc] using hrest

end Approaches

/-! ## Interpolation -/

def interpolate (d : Int) (n i : Nat) : Int := (d * i).tdiv n

@[simp] theorem interpolate_zero (d : Int) (n : Nat) : interpolate d n 0 = 0 := by
  simp [interpolate]

@[simp] theorem interpolate_self (d : Int) {n : Nat} (hn : n ≠ 0) : interpolate d n n = d :=
  Int.mul_tdiv_cancel d (Int.natCast_ne_zero.mpr hn)

theorem interpolate_neg (d : Int) (n i : Nat) : interpolate (-d) n i = -interpolate d n i := by
  rw [interpolate, Int.neg_mul, Int.neg_tdiv]
  rfl

theorem interpolate_mono {d : Int} (hd : 0 ≤ d) (n : Nat) {i j : Nat} (hij : i ≤ j) :
    interpolate d n i ≤ interpolate d n j := by
  have hnonneg : ∀ k : Nat, 0 ≤ d * k := fun k => Int.mul_nonneg hd (Int.natCast_nonneg k)
  have hmul : d * i ≤ d * j := Int.mul_le_mul_of_nonneg_left (Int.ofNat_le.mpr hij) hd
  rcases Nat.eq_zero_or_pos n with rfl | hn
  · simp [interpolate]
  · rw [interpolate, interpolate, Int.tdiv_eq_ediv_of_nonneg (hnonneg i),
      Int.tdiv_eq_ediv_of_nonneg (hnonneg j)]
    exact Int.ediv_le_ediv (Int.natCast_pos.mpr hn) hmul

theorem interpolate_mem_uIcc (d : Int) {n i j : Nat} (hij : i ≤ j) (hjn : j ≤ n) :
    interpolate d n j ∈ Set.uIcc (interpolate d n i) d := by
  have hup : ∀ e : Int, 0 ≤ e → interpolate e n i ≤ interpolate e n j ∧ interpolate e n j ≤ e := by
    intro e he
    refine ⟨interpolate_mono he n hij, ?_⟩
    rcases Nat.eq_zero_or_pos n with rfl | hn
    · simpa [interpolate] using he
    · calc interpolate e n j ≤ interpolate e n n := interpolate_mono he n hjn
        _ = e := interpolate_self e hn.ne'
  rw [Set.mem_uIcc]
  rcases Int.le_total 0 d with hd | hd
  · exact Or.inl (hup d hd)
  · have hneg := hup (-d) (by omega)
    rw [interpolate_neg, interpolate_neg] at hneg
    exact Or.inr (by omega)

end AmigaFleet.Lib

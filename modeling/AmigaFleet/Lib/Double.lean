import Mathlib.Algebra.Ring.Int.Defs
import Mathlib.Algebra.Ring.Nat
import Mathlib.Data.Nat.Log

/-!
# Integers as doubles

An IEEE double keeps 53 significant bits.  `round53` is the nearest such
integer, ties to even, and `double` extends it to negative integers; both
stay below the range where a double overflows.

Up to `2 ^ 53` nothing is lost: `double_of_le`.
-/

namespace AmigaFleet.Lib

/-- The nearest integer to `a / b`, ties to even. -/
def nearestEven (a b : Nat) : Nat :=
  let q := a / b
  let r := a % b
  if 2 * r < b then q else if b < 2 * r then q + 1 else q + q % 2

/-- The nearest integer with 53 significant bits. -/
def round53 (n : Nat) : Nat :=
  let ulp := 2 ^ (n.log2 - 52)
  nearestEven n ulp * ulp

/-- The double nearest to an integer. -/
def double (n : Int) : Int := n.sign * round53 n.natAbs

theorem nearestEven_mul {a b : Nat} (hb : 0 < b) : nearestEven (a * b) b = a := by
  unfold nearestEven
  rw [Nat.mul_mod_left, Nat.mul_div_cancel a hb]
  exact if_pos (by omega)

theorem round53_of_le {n : Nat} (h : n ≤ 2 ^ 53) : round53 n = n := by
  rcases Nat.eq_or_lt_of_le h with rfl | hlt
  · decide
  · have hlog : n.log2 - 52 = 0 := by
      rcases Nat.eq_zero_or_pos n with rfl | hpos
      · decide
      · have hlt' : n.log2 < 53 := (Nat.log2_lt (by omega)).mpr hlt
        omega
    have hself := nearestEven_mul (a := n) Nat.one_pos
    rw [Nat.mul_one] at hself
    unfold round53
    rw [hlog, Nat.pow_zero]
    show nearestEven n 1 * 1 = n
    rw [hself, Nat.mul_one]

/-- A whole number of at most `2 ^ 53` is a double. -/
theorem double_of_le {n : Nat} (h : n ≤ 2 ^ 53) : double n = n := by
  have hsign : (n : Int).sign * ((n : Int).natAbs : Int) = n := Int.sign_mul_natAbs n
  rw [Int.natAbs_natCast] at hsign
  rw [double, Int.natAbs_natCast, round53_of_le h]
  exact hsign

theorem le_nearestEven (a b : Nat) : a / b ≤ nearestEven a b := by
  unfold nearestEven
  dsimp only
  split
  · exact Nat.le_refl _
  · split
    · exact Nat.le_succ _
    · exact Nat.le_add_right ..

theorem round53_pos {n : Nat} (h : 0 < n) : 0 < round53 n := by
  have hulp : 2 ^ (n.log2 - 52) ≤ n :=
    Nat.le_trans (Nat.pow_le_pow_right (by decide) (Nat.sub_le ..)) (Nat.log2_self_le (by omega))
  have hpos : 0 < 2 ^ (n.log2 - 52) := Nat.two_pow_pos _
  have hquotient : 0 < n / 2 ^ (n.log2 - 52) := Nat.div_pos hulp hpos
  exact Nat.mul_pos (Nat.lt_of_lt_of_le hquotient (le_nearestEven ..)) hpos

/-- Rounding keeps the sign. -/
theorem double_neg {n : Int} (h : n < 0) : double n < 0 := by
  have hpos := round53_pos (n := n.natAbs) (by omega)
  rw [double, Int.sign_eq_neg_one_of_neg h]
  omega

end AmigaFleet.Lib

import Mathlib.Data.List.Basic

/-!
# Readers of a growing log

A reader asks for the log from an offset on, and asks again from the end of what
it was given, while the log only grows.  `Follows log first next got` says that
it has got all of the log from `first` up to `next`.

* `Follows.grow`: the log grows.
* `Follows.read`: the reader is given the next piece.
* `Follows.complete`: it has come to the end.
-/

namespace AmigaFleet.Lib

variable {β : Type} {log : List β} {first next : Nat} {got : List β}

structure Follows (log : List β) (first next : Nat) (got : List β) : Prop where
  got_eq : got = (log.take next).drop first
  reached : first ≤ next
  within : next ≤ max first log.length

theorem drop_take_of_le (log : List β) (h : next ≤ first) : (log.take next).drop first = [] := by
  apply List.drop_eq_nil_of_le
  rw [List.length_take]
  omega

namespace Follows

/-- A new reader; it may begin behind the end of the log. -/
theorem start (log : List β) (first : Nat) : Follows log first first [] where
  got_eq := (drop_take_of_le log (Nat.le_refl first)).symm
  reached := Nat.le_refl first
  within := Nat.le_max_left first log.length

theorem grow (h : Follows log first next got) {log' : List β} (hlog : log <+: log') :
    Follows log' first next got where
  got_eq := by
    obtain ⟨new, rfl⟩ := hlog
    have hreached := h.reached
    have hwithin := h.within
    rcases Nat.lt_or_ge log.length next with hbehind | hin
    · -- the reader has begun behind the end, and has got nothing yet
      have hfirst : next ≤ first := by omega
      rw [h.got_eq, drop_take_of_le log hfirst, drop_take_of_le _ hfirst]
    · rw [List.take_append_of_le_length hin]
      exact h.got_eq
  reached := h.reached
  within := by
    have hlength := hlog.length_le
    have hwithin := h.within
    omega

/-- The next piece of the log, of any length. -/
theorem read (h : Follows log first next got) (n : Nat) :
    Follows log first (next + ((log.drop next).take n).length) (got ++ (log.drop next).take n) where
  got_eq := by
    have hreached := h.reached
    have hlength : ((log.drop next).take n).length = min n (log.length - next) := by
      rw [List.length_take, List.length_drop]
    rcases Nat.lt_or_ge log.length next with hbehind | hin
    · have hnil : log.drop next = [] := List.drop_eq_nil_of_le (Nat.le_of_lt hbehind)
      rw [hnil, List.take_nil, List.append_nil, List.length_nil, Nat.add_zero]
      exact h.got_eq
    · have hdrop : first - (log.take next).length = 0 := by
        rw [List.length_take]
        omega
      rw [List.take_add, List.drop_append, hdrop, List.drop_zero, ← h.got_eq]
      congr 1
      rw [hlength, ← List.length_drop, ← List.take_take, List.take_length]
  reached := by
    have hreached := h.reached
    omega
  within := by
    have hwithin := h.within
    rw [List.length_take, List.length_drop]
    omega

/-- At the end of the log the reader has all of it. -/
theorem complete (h : Follows log first next got) (hend : log.length ≤ next) :
    got = log.drop first := by
  rw [h.got_eq, List.take_of_length_le hend]

end Follows

end AmigaFleet.Lib

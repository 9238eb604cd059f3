import AmigaFleet.Lib.Run

/-!
# Budgets over runs

A system spends tokens while time goes by.  `cost` is what one step spends and
`wait` how much time passes before it.  `worth` is a potential: what the system
could spend at this moment.

* `spent` adds up the costs of a run.
* `spent_le`: when a step raises the worth by at most `rate` for each unit of
  time, and lowers it by what it spends, a run spends at most its worth at the
  start and `rate` for each unit of time.
* `window_le`: a window of a run starts with a step whose wait lies before the
  window, so it spends at most the ceiling `cap` of the worth and `rate` for
  each unit of time within the window.
-/

namespace AmigaFleet.Lib

variable {σ α : Type}

/-- What the steps of a run spend together. -/
def spent (step : σ → α → Option σ) (cost : σ → α → Nat) (s : σ) : List α → Nat
  | [] => 0
  | a :: as =>
    match step s a with
    | none => 0
    | some s' => cost s a + spent step cost s' as

theorem spent_cons {step : σ → α → Option σ} {cost : σ → α → Nat} {s s' : σ} {a : α}
    {as : List α} (h : step s a = some s') :
    spent step cost s (a :: as) = cost s a + spent step cost s' as := by
  rw [spent, h]

section Rules

variable {step : σ → α → Option σ} (ok : σ → α → Prop) (Inv : σ → Prop) (worth : σ → Nat)
  {cost : σ → α → Nat} {wait : α → Nat} {rate : Nat}

/-- The budget rule. -/
theorem spent_le (hinv : ∀ s a s', Inv s → ok s a → step s a = some s' → Inv s')
    (hworth : ∀ s a s', Inv s → ok s a → step s a = some s' →
      worth s' + cost s a ≤ worth s + rate * wait a)
    {s : σ} {as : List α} (hs : Inv s) (hok : Along step ok s as) :
    spent step cost s as ≤ worth s + rate * (as.map wait).sum := by
  induction as generalizing s with
  | nil => exact Nat.zero_le _
  | cons a as ih =>
    cases hstep : step s a with
    | none =>
      rw [spent, hstep]
      exact Nat.zero_le _
    | some s' =>
      have hone := hworth s a s' hs hok.head hstep
      have hrest := ih (hinv s a s' hs hok.head hstep) (hok.tail hstep)
      rw [spent_cons hstep, List.map_cons, List.sum_cons, Nat.mul_add]
      omega

/-- The budget of a window. -/
theorem window_le (hinv : ∀ s a s', Inv s → ok s a → step s a = some s' → Inv s')
    (hworth : ∀ s a s', Inv s → ok s a → step s a = some s' →
      worth s' + cost s a ≤ worth s + rate * wait a)
    {cap : Nat} (hcap : ∀ s a s', Inv s → ok s a → step s a = some s' →
      worth s' + cost s a ≤ cap)
    {s : σ} {a : α} {as : List α} (hs : Inv s) (hok : Along step ok s (a :: as)) :
    spent step cost s (a :: as) ≤ cap + rate * (as.map wait).sum := by
  cases hstep : step s a with
  | none =>
    rw [spent, hstep]
    exact Nat.zero_le _
  | some s' =>
    have hone := hcap s a s' hs hok.head hstep
    have hrest := spent_le ok Inv worth hinv hworth (hinv s a s' hs hok.head hstep) (hok.tail hstep)
    rw [spent_cons hstep]
    omega

end Rules

end AmigaFleet.Lib

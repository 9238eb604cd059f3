import AmigaFleet.Lib.Run

/-!
# Progress of one process among others

A process takes some of the labels of a system, `own`, and other processes take
the rest.  `Reaches step ok own goal k s` says that from `s` the process gets to
`goal` by fewer than `k` labels of its own, whatever the others do in between:
until then one more of its labels is enabled.

* `Ranking`: an invariant, and a rank that the labels of the process lower and
  the others do not raise.
* `Ranking.reaches`: the rule.
-/

namespace AmigaFleet.Lib

variable {σ α : Type}

/-- Every continuation has come to the goal, or has fewer than `k` labels of the process,
and another one is enabled. -/
def Reaches (step : σ → α → Option σ) (ok : σ → α → Prop) (own : α → Bool) (goal : σ → Prop)
    (k : Nat) (s : σ) : Prop :=
  ∀ as t, Along step ok s as → run step s as = some t →
    (∃ bs m, bs <+: as ∧ run step s bs = some m ∧ goal m) ∨
      as.countP own < k ∧ ∃ a t', own a = true ∧ ok t a ∧ step t a = some t'

theorem Reaches.mono {step : σ → α → Option σ} {ok : σ → α → Prop} {own : α → Bool}
    {goal : σ → Prop} {k k' : Nat} {s : σ} (h : Reaches step ok own goal k s) (hk : k ≤ k') :
    Reaches step ok own goal k' s := by
  intro as t hok hrun
  rcases h as t hok hrun with hgoal | ⟨hcount, henabled⟩
  · exact Or.inl hgoal
  · exact Or.inr ⟨Nat.lt_of_lt_of_le hcount hk, henabled⟩

/-- `Inv` holds on the way, and `rank` is the number of labels that the process still
needs, the last one apart. -/
structure Ranking (step : σ → α → Option σ) (ok : σ → α → Prop) (own : α → Bool)
    (goal Inv : σ → Prop) (rank : σ → Nat) : Prop where
  enabled : ∀ s, Inv s → ∃ a t, own a = true ∧ ok s a ∧ step s a = some t
  moves : ∀ s a t, Inv s → ok s a → step s a = some t → own a = true →
    goal t ∨ Inv t ∧ rank t < rank s
  stays : ∀ s a t, Inv s → ok s a → step s a = some t → own a = false →
    Inv t ∧ rank t ≤ rank s

theorem Ranking.reaches {step : σ → α → Option σ} {ok : σ → α → Prop} {own : α → Bool}
    {goal Inv : σ → Prop} {rank : σ → Nat} (h : Ranking step ok own goal Inv rank) {s : σ}
    (hs : Inv s) : Reaches step ok own goal (rank s + 1) s := by
  intro as t hok hrun
  induction as generalizing s with
  | nil =>
    cases hrun
    exact Or.inr ⟨Nat.succ_pos _, h.enabled _ hs⟩
  | cons a as ih =>
    obtain ⟨s', hs', hrest⟩ := run_cons_some hrun
    -- the goal of the rest is a goal of the whole
    have hlater : (∃ bs m, bs <+: as ∧ run step s' bs = some m ∧ goal m) →
        ∃ bs m, bs <+: a :: as ∧ run step s bs = some m ∧ goal m := by
      rintro ⟨bs, m, hbs, hm, hgoal⟩
      refine ⟨a :: bs, m, List.cons_prefix_cons.mpr ⟨rfl, hbs⟩, ?_, hgoal⟩
      rw [run, hs']
      exact hm
    cases hown : own a with
    | true =>
      rcases h.moves s a s' hs hok.head hs' hown with hgoal | ⟨hinv, hlt⟩
      · exact Or.inl (hlater ⟨[], s', List.nil_prefix, rfl, hgoal⟩)
      · rcases ih hinv (hok.tail hs') hrest with hgoal | ⟨hcount, henabled⟩
        · exact Or.inl (hlater hgoal)
        · refine Or.inr ⟨?_, henabled⟩
          rw [List.countP_cons_of_pos hown]
          omega
    | false =>
      obtain ⟨hinv, hle⟩ := h.stays s a s' hs hok.head hs' hown
      rcases ih hinv (hok.tail hs') hrest with hgoal | ⟨hcount, henabled⟩
      · exact Or.inl (hlater hgoal)
      · refine Or.inr ⟨?_, henabled⟩
        rw [List.countP_cons_of_neg (by simp [hown])]
        omega

end AmigaFleet.Lib

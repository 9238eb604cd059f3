import Mathlib.Data.List.Basic

/-!
# Tasks with keys of their own

Tasks share a state that is divided by keys.  A task works on some keys, two
tasks never on the same one, and a step of a task changes the part of its own
keys only.

`Keyed works Rest Busy g tasks` is the invariant of such a system: `Rest g k`
holds of a key that no task works on, and `Busy g a k` of one that the task `a`
works on.

* `Keyed.start`: a new task takes keys that nobody works on.
* `Keyed.take`: a task that worked on no key takes some.
* `Keyed.move`: a task goes on, and may let keys go.
* `Keyed.change`: the state changes by itself.
-/

namespace AmigaFleet.Lib

variable {κ γ φ : Type} {works : φ → κ → Prop} {Rest : γ → κ → Prop} {Busy : γ → φ → κ → Prop}

structure Keyed (works : φ → κ → Prop) (Rest : γ → κ → Prop) (Busy : γ → φ → κ → Prop) (g : γ)
    (tasks : List φ) : Prop where
  apart : ∀ (i j : Nat) (a b : φ), tasks[i]? = some a → tasks[j]? = some b → i ≠ j →
    ∀ k, works a k → ¬ works b k
  rest : ∀ k, (∀ a ∈ tasks, ¬ works a k) → Rest g k
  busy : ∀ a ∈ tasks, ∀ k, works a k → Busy g a k

/-- Nothing that is known of the key is lost. -/
structure KeepsKey (Rest : γ → κ → Prop) (Busy : γ → φ → κ → Prop) (g g' : γ) (k : κ) : Prop where
  rest : Rest g k → Rest g' k
  busy : ∀ a, Busy g a k → Busy g' a k

namespace Keyed

theorem nil {g : γ} (h : ∀ k, Rest g k) : Keyed works Rest Busy g [] :=
  ⟨by simp, fun k _ => h k, by simp⟩

/-- The state changes without a task. -/
theorem change {g g' : γ} {tasks : List φ} (h : Keyed works Rest Busy g tasks)
    (hkeeps : ∀ k, KeepsKey Rest Busy g g' k) : Keyed works Rest Busy g' tasks where
  apart := h.apart
  rest k hfree := (hkeeps k).rest (h.rest k hfree)
  busy a ha k hk := (hkeeps k).busy a (h.busy a ha k hk)

theorem getElem?_snoc_cases {tasks : List φ} {a b : φ} {i : Nat}
    (h : (tasks ++ [a])[i]? = some b) : tasks[i]? = some b ∨ i = tasks.length ∧ b = a := by
  rcases Nat.lt_or_ge i tasks.length with hlt | hge
  · rw [List.getElem?_append_left hlt] at h
    exact .inl h
  · rw [List.getElem?_append_right hge, List.getElem?_singleton] at h
    split at h
    · exact .inr ⟨by omega, (Option.some.inj h).symm⟩
    · cases h

theorem getElem?_set_cases {tasks : List φ} {i j : Nat} {b c : φ}
    (h : (tasks.set i b)[j]? = some c) : j = i ∧ c = b ∨ j ≠ i ∧ tasks[j]? = some c := by
  by_cases hij : i = j
  · subst hij
    rw [List.getElem?_set_self'] at h
    cases hold : tasks[i]? with
    | none => simp [hold] at h
    | some a => exact .inl ⟨rfl, by simpa [hold] using h.symm⟩
  · rw [List.getElem?_set_ne hij] at h
    exact .inr ⟨Ne.symm hij, h⟩

/-- A new task, on keys that nobody works on. -/
theorem start {g g' : γ} {tasks : List φ} {a : φ} (h : Keyed works Rest Busy g tasks)
    (hfree : ∀ b ∈ tasks, ∀ k, works b k → ¬ works a k)
    (hkeeps : ∀ k, ¬ works a k → KeepsKey Rest Busy g g' k)
    (hbusy : ∀ k, works a k → Rest g k → Busy g' a k) :
    Keyed works Rest Busy g' (tasks ++ [a]) where
  apart i j b c hb hc hij k hbk hck := by
    rcases getElem?_snoc_cases hb with hbold | ⟨hi, hbnew⟩
    · rcases getElem?_snoc_cases hc with hcold | ⟨-, hcnew⟩
      · exact h.apart i j b c hbold hcold hij k hbk hck
      · exact hfree b (List.mem_of_getElem? hbold) k hbk (hcnew ▸ hck)
    · rcases getElem?_snoc_cases hc with hcold | ⟨hj, -⟩
      · exact hfree c (List.mem_of_getElem? hcold) k hck (hbnew ▸ hbk)
      · exact hij (hi.trans hj.symm)
  rest k hnone :=
    (hkeeps k (hnone a (by simp))).rest (h.rest k fun b hb => hnone b (by simp [hb]))
  busy b hb k hk := by
    rcases List.mem_append.mp hb with hold | hnew
    · exact (hkeeps k (hfree b hold k hk)).busy b (h.busy b hold k hk)
    · obtain rfl := List.mem_singleton.mp hnew
      exact hbusy k hk (h.rest k fun c hc hck => hfree c hc k hck hk)

/-- The task at index `i` worked on no key, and goes on as `b` with keys that nobody works on. -/
theorem take {g g' : γ} {tasks : List φ} {i : Nat} {a b : φ} (h : Keyed works Rest Busy g tasks)
    (ha : tasks[i]? = some a) (hnone : ∀ k, ¬ works a k)
    (hfree : ∀ c ∈ tasks, ∀ k, works c k → ¬ works b k)
    (hkeeps : ∀ k, ¬ works b k → KeepsKey Rest Busy g g' k)
    (hbusy : ∀ k, works b k → Rest g k → Busy g' b k) :
    Keyed works Rest Busy g' (tasks.set i b) where
  apart j l c d hc hd hjl k hck hdk := by
    rcases getElem?_set_cases hc with ⟨rfl, rfl⟩ | ⟨-, hcold⟩
    · rcases getElem?_set_cases hd with ⟨rfl, -⟩ | ⟨-, hdold⟩
      · exact hjl rfl
      · exact hfree d (List.mem_of_getElem? hdold) k hdk hck
    · rcases getElem?_set_cases hd with ⟨-, rfl⟩ | ⟨-, hdold⟩
      · exact hfree c (List.mem_of_getElem? hcold) k hck hdk
      · exact h.apart _ _ _ _ hcold hdold hjl k hck hdk
  rest k hfreed := by
    have hself : ¬ works b k := hfreed b (List.mem_set (List.getElem?_eq_some_iff.mp ha).1 b)
    refine (hkeeps k hself).rest (h.rest k fun c hc hck => ?_)
    obtain ⟨j, hj⟩ := List.mem_iff_getElem?.mp hc
    by_cases hij : i = j
    · subst hij
      exact hnone k (Option.some.inj (ha.symm.trans hj) ▸ hck)
    · refine hfreed c (List.mem_of_getElem? (i := j) ?_) hck
      rw [List.getElem?_set_ne hij, hj]
  busy c hc k hk := by
    obtain ⟨j, hj⟩ := List.mem_iff_getElem?.mp hc
    rcases getElem?_set_cases hj with ⟨-, rfl⟩ | ⟨-, hj⟩
    · exact hbusy k hk (h.rest k fun d hd hdk => hfree d hd k hdk hk)
    · have hc := List.mem_of_getElem? hj
      exact (hkeeps k (hfree c hc k hk)).busy c (h.busy c hc k hk)

/-- The task `a` at index `i` goes on as `b`. -/
theorem move {g g' : γ} {tasks : List φ} {i : Nat} {a b : φ} (h : Keyed works Rest Busy g tasks)
    (ha : tasks[i]? = some a) (hworks : ∀ k, works b k → works a k)
    (hkeeps : ∀ k, ¬ works a k → KeepsKey Rest Busy g g' k)
    (hbusy : ∀ k, works b k → Busy g a k → Busy g' b k)
    (hfrees : ∀ k, works a k → ¬ works b k → Busy g a k → Rest g' k) :
    Keyed works Rest Busy g' (tasks.set i b) where
  apart j l c d hc hd hjl k hck hdk := by
    rcases getElem?_set_cases hc with ⟨rfl, rfl⟩ | ⟨hji, hcold⟩
    · rcases getElem?_set_cases hd with ⟨rfl, -⟩ | ⟨-, hdold⟩
      · exact hjl rfl
      · exact h.apart _ _ _ _ ha hdold hjl k (hworks k hck) hdk
    · rcases getElem?_set_cases hd with ⟨rfl, rfl⟩ | ⟨-, hdold⟩
      · exact h.apart _ _ _ _ ha hcold (Ne.symm hji) k (hworks k hdk) hck
      · exact h.apart _ _ _ _ hcold hdold hjl k hck hdk
  rest k hnone := by
    have hself : ¬ works b k := hnone b (List.mem_set (List.getElem?_eq_some_iff.mp ha).1 b)
    by_cases hk : works a k
    · exact hfrees k hk hself (h.busy a (List.mem_of_getElem? ha) k hk)
    · refine (hkeeps k hk).rest (h.rest k fun c hc hck => ?_)
      obtain ⟨j, hj⟩ := List.mem_iff_getElem?.mp hc
      by_cases hij : i = j
      · subst hij
        exact hk (Option.some.inj (ha.symm.trans hj) ▸ hck)
      · refine hnone c (List.mem_of_getElem? (i := j) ?_) hck
        rw [List.getElem?_set_ne hij, hj]
  busy c hc k hk := by
    obtain ⟨j, hj⟩ := List.mem_iff_getElem?.mp hc
    rcases getElem?_set_cases hj with ⟨rfl, rfl⟩ | ⟨hji, hj⟩
    · exact hbusy k hk (h.busy a (List.mem_of_getElem? ha) k (hworks k hk))
    · have hnot : ¬ works a k := fun hak => h.apart _ _ _ _ ha hj (Ne.symm hji) k hak hk
      exact (hkeeps k hnot).busy c (h.busy c (List.mem_of_getElem? hj) k hk)

end Keyed

end AmigaFleet.Lib

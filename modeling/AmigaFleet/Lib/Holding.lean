import Mathlib.Data.List.Basic

/-!
# Presses and releases

The events of a stream press and release controls: `press e` is the control
that an event presses, `release e` the one that it lets go.

* `Released`: every press is followed by a release of the same control.
* `Held es k`: the last that the stream says about `k` is a press.  A stream is
  released when it holds nothing (`released_iff`), and `held_snoc` follows a
  stream event by event.
* `Owned mine`: the controls that count as `mine` are let go only behind a
  press of their own.
-/

namespace AmigaFleet.Lib

variable {ε κ : Type} (press release : ε → Option κ)

/-- Every press has a release behind it. -/
def Released (es : List ε) : Prop :=
  ∀ before e after k, es = before ++ e :: after → press e = some k →
    ∃ e' ∈ after, release e' = some k

/-- Some event presses the control. -/
def Pressed (es : List ε) (k : κ) : Prop := ∃ e ∈ es, press e = some k

/-- The last press of the control has no release behind it. -/
def Held (es : List ε) (k : κ) : Prop :=
  ∃ before e after, es = before ++ e :: after ∧ press e = some k ∧
    ∀ e' ∈ after, release e' ≠ some k

/-- A control of `mine` is let go only behind a press of it. -/
def Owned (mine : κ → Prop) (es : List ε) : Prop :=
  ∀ before e after k, es = before ++ e :: after → release e = some k → mine k →
    Pressed press before k

variable {press release}

theorem released_iff {es : List ε} : Released press release es ↔ ∀ k, ¬ Held press release es k := by
  constructor
  · rintro h k ⟨before, e, after, heq, hpress, hnone⟩
    obtain ⟨e', hmem, hrel⟩ := h before e after k heq hpress
    exact hnone e' hmem hrel
  · intro h before e after k heq hpress
    by_contra hnone
    exact h k ⟨before, e, after, heq, hpress, fun e' hmem hrel => hnone ⟨e', hmem, hrel⟩⟩

theorem not_held_nil (k : κ) : ¬ Held press release [] k := by
  rintro ⟨before, e, after, heq, -⟩
  cases before <;> cases heq

/-- A list that ends with `e`, cut at one of its elements. -/
theorem snoc_split {es before after : List ε} {e x : ε} (h : es ++ [e] = before ++ x :: after) :
    (es = before ∧ e = x ∧ after = []) ∨ ∃ rest, after = rest ++ [e] ∧ es = before ++ x :: rest := by
  rcases List.eq_nil_or_concat after with rfl | ⟨rest, y, rfl⟩
  · obtain ⟨hes, hx⟩ := List.append_inj' h rfl
    exact Or.inl ⟨hes, (List.cons.inj hx).1, rfl⟩
  · rw [List.concat_eq_append] at h ⊢
    have h' : es ++ [e] = (before ++ x :: rest) ++ [y] := by
      rw [h, List.append_assoc, List.cons_append]
    obtain ⟨hes, hy⟩ := List.append_inj' h' rfl
    exact Or.inr ⟨rest, by rw [(List.cons.inj hy).1], hes⟩

theorem held_snoc {es : List ε} {e : ε} {k : κ} :
    Held press release (es ++ [e]) k ↔
      press e = some k ∨ (Held press release es k ∧ release e ≠ some k) := by
  constructor
  · rintro ⟨before, x, after, heq, hpress, hnone⟩
    rcases snoc_split heq with ⟨-, rfl, -⟩ | ⟨rest, rfl, hes⟩
    · exact Or.inl hpress
    · refine Or.inr ⟨⟨before, x, rest, hes, hpress, fun e' he' => ?_⟩, ?_⟩
      · exact hnone e' (List.mem_append_left _ he')
      · exact hnone e (List.mem_append_right _ (List.mem_cons_self ..))
  · rintro (hpress | ⟨⟨before, x, after, rfl, hpress, hnone⟩, hrel⟩)
    · exact ⟨es, e, [], rfl, hpress, fun e' he' => absurd he' List.not_mem_nil⟩
    · refine ⟨before, x, after ++ [e], by rw [List.append_assoc, List.cons_append], hpress, ?_⟩
      intro e' he'
      rcases List.mem_append.mp he' with hmem | hlast
      · exact hnone e' hmem
      · rw [List.mem_singleton.mp hlast]
        exact hrel

theorem Pressed.append {es more : List ε} {k : κ} (h : Pressed press es k) :
    Pressed press (es ++ more) k := by
  obtain ⟨e, he, hpress⟩ := h
  exact ⟨e, List.mem_append_left _ he, hpress⟩

theorem pressed_snoc {es : List ε} {e : ε} {k : κ} :
    Pressed press (es ++ [e]) k ↔ Pressed press es k ∨ press e = some k := by
  constructor
  · rintro ⟨x, hx, hpress⟩
    rcases List.mem_append.mp hx with hmem | hlast
    · exact Or.inl ⟨x, hmem, hpress⟩
    · exact Or.inr (List.mem_singleton.mp hlast ▸ hpress)
  · rintro (h | h)
    · exact h.append
    · exact ⟨e, List.mem_append_right _ (List.mem_cons_self ..), h⟩

theorem owned_nil (mine : κ → Prop) : Owned press release mine [] := by
  intro before e after k heq
  cases before <;> cases heq

theorem owned_snoc {mine : κ → Prop} {es : List ε} {e : ε} :
    Owned press release mine (es ++ [e]) ↔
      Owned press release mine es ∧ ∀ k, release e = some k → mine k → Pressed press es k := by
  constructor
  · intro h
    refine ⟨fun before x after k heq hrel hmine => ?_, fun k hrel hmine => h es e [] k rfl hrel hmine⟩
    exact h before x (after ++ [e]) k (by rw [heq, List.append_assoc, List.cons_append]) hrel hmine
  · rintro ⟨hes, he⟩ before x after k heq hrel hmine
    rcases snoc_split heq with ⟨rfl, rfl, -⟩ | ⟨rest, -, hrest⟩
    · exact he k hrel hmine
    · exact hes before x rest k hrest hrel hmine

theorem released_cons {e : ε} {es : List ε} :
    Released press release (e :: es) ↔
      (∀ k, press e = some k → ∃ e' ∈ es, release e' = some k) ∧ Released press release es := by
  constructor
  · intro h
    refine ⟨fun k hpress => h [] e es k rfl hpress, fun before x after k heq hpress => ?_⟩
    exact h (e :: before) x after k (by rw [heq, List.cons_append]) hpress
  · rintro ⟨hhead, htail⟩ before x after k heq hpress
    cases before with
    | nil =>
      cases heq
      exact hhead k hpress
    | cons b before =>
      obtain ⟨-, hes⟩ := List.cons.inj heq
      exact htail before x after k hes hpress

theorem released_nil : Released press release [] := by
  intro before e after k heq
  cases before <;> cases heq

end AmigaFleet.Lib

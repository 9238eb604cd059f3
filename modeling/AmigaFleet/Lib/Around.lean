import Mathlib.Data.List.DropRight

/-!
# The run around the last element of a kind

`splitLast q l` cuts a list at its last element with `q`; `around q p l` is the
longest run of elements with `p` in which this element stands, and `IsRun` says so
without computing it.  `around_eq` says when two kinds of elements have the same
run.
-/

namespace AmigaFleet.Lib

universe u

variable {α : Type u}

/-- A list, cut at its last element with `q`. -/
def splitLast (q : α → Bool) : List α → Option (List α × α × List α)
  | [] => none
  | x :: l =>
    match splitLast q l with
    | some (before, y, after) => some (x :: before, y, after)
    | none => if q x then some ([], x, l) else none

theorem splitLast_eq_none {q : α → Bool} {l : List α} :
    splitLast q l = none ↔ ∀ x ∈ l, q x = false := by
  induction l with
  | nil => simp [splitLast]
  | cons x l ih =>
    rw [splitLast, List.forall_mem_cons, ← ih]
    cases splitLast q l with
    | none => simp
    | some m => simp

theorem eq_of_splitLast {q : α → Bool} {l before after : List α} {y : α}
    (h : splitLast q l = some (before, y, after)) :
    l = before ++ y :: after ∧ q y = true ∧ ∀ x ∈ after, q x = false := by
  induction l generalizing before with
  | nil => cases h
  | cons x l ih =>
    rw [splitLast] at h
    cases hl : splitLast q l with
    | some m =>
      rw [hl] at h
      cases h
      obtain ⟨rfl, hy, hafter⟩ := ih hl
      exact ⟨rfl, hy, hafter⟩
    | none =>
      rw [hl] at h
      dsimp only at h
      split at h
      · rename_i hx
        cases h
        exact ⟨rfl, hx, splitLast_eq_none.mp hl⟩
      · cases h

theorem splitLast_append {q : α → Bool} {y : α} {after : List α} (hy : q y = true)
    (hafter : ∀ x ∈ after, q x = false) (before : List α) :
    splitLast q (before ++ y :: after) = some (before, y, after) := by
  induction before with
  | nil => rw [List.nil_append, splitLast, splitLast_eq_none.mpr hafter, if_pos hy]
  | cons x before ih => rw [List.cons_append, splitLast, ih]

/-- The run of elements with `p` around the last element with `q`. -/
def around (q p : α → Bool) (l : List α) : List α :=
  match splitLast q l with
  | none => []
  | some (before, y, after) => before.rtakeWhile p ++ y :: after.takeWhile p

theorem around_append {q p : α → Bool} {y : α} {after : List α} (hy : q y = true)
    (hafter : ∀ x ∈ after, q x = false) (before : List α) :
    around q p (before ++ y :: after) = before.rtakeWhile p ++ y :: after.takeWhile p := by
  rw [around, splitLast_append hy hafter]

theorem rtakeWhile_append_of_all {p : α → Bool} {u : List α} (hu : ∀ x ∈ u, p x = true)
    (l : List α) : (l ++ u).rtakeWhile p = l.rtakeWhile p ++ u := by
  rw [List.rtakeWhile, List.rtakeWhile, List.reverse_append,
    List.takeWhile_append_of_pos fun x hx => hu x (List.mem_reverse.mp hx), List.reverse_append,
    List.reverse_reverse]

theorem rtakeWhile_append_stop {p : α → Bool} {x : α} (hx : p x = false) (w u : List α) :
    (w ++ x :: u).rtakeWhile p = u.rtakeWhile p := by
  induction u using List.reverseRecOn with
  | nil => rw [List.rtakeWhile_concat_neg _ _ _ (by simp [hx]), List.rtakeWhile_nil]
  | append_singleton u y ih =>
    rw [← List.cons_append, ← List.append_assoc, List.rtakeWhile_concat, List.rtakeWhile_concat, ih]

theorem mem_of_mem_around {q p : α → Bool} {l : List α} {x : α} (hx : x ∈ around q p l) : x ∈ l := by
  unfold around at hx
  cases hsplit : splitLast q l with
  | none =>
    rw [hsplit] at hx
    cases hx
  | some m =>
    obtain ⟨before, y, after⟩ := m
    rw [hsplit] at hx
    obtain ⟨rfl, -, -⟩ := eq_of_splitLast hsplit
    rcases List.mem_append.mp hx with hx | hx
    · exact List.mem_append_left _ ((List.rtakeWhile_suffix p before).subset hx)
    · refine List.mem_append_right _ (List.mem_cons.mpr ?_)
      exact (List.mem_cons.mp hx).imp_right fun hx => (List.takeWhile_prefix p).subset hx

theorem of_mem_around {q p : α → Bool} (hp : ∀ x, q x = true → p x = true) {l : List α} {x : α}
    (hx : x ∈ around q p l) : p x = true := by
  unfold around at hx
  cases hsplit : splitLast q l with
  | none =>
    rw [hsplit] at hx
    cases hx
  | some m =>
    obtain ⟨before, y, after⟩ := m
    rw [hsplit] at hx
    obtain ⟨-, hy, -⟩ := eq_of_splitLast hsplit
    rcases List.mem_append.mp hx with hx | hx
    · exact List.mem_rtakeWhile_imp hx
    · rcases List.mem_cons.mp hx with rfl | hx
      · exact hp _ hy
      · exact List.mem_takeWhile_imp hx

/-- The run does not reach over an element without `p`. -/
theorem around_append_stop {q p : α → Bool} {x : α} {rest : List α} (hx : p x = false)
    (hrest : ∃ y ∈ rest, q y = true) (w : List α) :
    around q p (w ++ x :: rest) = around q p rest := by
  cases hsplit : splitLast q rest with
  | none =>
    obtain ⟨y, hy, hqy⟩ := hrest
    rw [splitLast_eq_none.mp hsplit y hy] at hqy
    cases hqy
  | some m =>
    obtain ⟨before, y, after⟩ := m
    obtain ⟨rfl, hy, hafter⟩ := eq_of_splitLast hsplit
    rw [← List.cons_append, ← List.append_assoc, around_append hy hafter, around_append hy hafter,
      rtakeWhile_append_stop hx]

/-- If no element with `q` stands behind the run around the last element with
`q'`, it is the run around the last element with `q`. -/
theorem around_eq {q q' p : α → Bool} {before after : List α} {y : α} (hq : q y = true)
    (hp : ∀ x, q x = true → p x = true) (hq' : q' y = true) (hafter : ∀ x ∈ after, q' x = false)
    (hbehind : ∀ x ∈ after.dropWhile p, q x = false) :
    around q p (before ++ y :: after) = around q' p (before ++ y :: after) := by
  have hrun : ∀ x ∈ y :: after.takeWhile p, p x = true := by
    refine List.forall_mem_cons.mpr ⟨hp y hq, fun x hx => ?_⟩
    exact List.mem_takeWhile_imp hx
  cases hlast : splitLast q (y :: after.takeWhile p) with
  | none =>
    rw [splitLast_eq_none.mp hlast y List.mem_cons_self] at hq
    cases hq
  | some m =>
    obtain ⟨u, z, v⟩ := m
    obtain ⟨hsplit, hz, hv⟩ := eq_of_splitLast hlast
    have hu : ∀ x ∈ u, p x = true := fun x hx =>
      hrun x (hsplit ▸ List.mem_append_left _ hx)
    have hvp : ∀ x ∈ v, p x = true := fun x hx =>
      hrun x (hsplit ▸ List.mem_append_right _ (List.mem_cons_of_mem _ hx))
    have hlist : before ++ y :: after = (before ++ u) ++ z :: (v ++ after.dropWhile p) := by
      calc before ++ y :: after
          = before ++ ((y :: after.takeWhile p) ++ after.dropWhile p) := by
            rw [List.cons_append, List.takeWhile_append_dropWhile]
        _ = (before ++ u) ++ z :: (v ++ after.dropWhile p) := by
            rw [hsplit]
            simp only [List.append_assoc, List.cons_append]
    have hstop : (after.dropWhile p).takeWhile p = [] := by
      cases hdrop : after.dropWhile p with
      | nil => rfl
      | cons x rest =>
        have hx := List.head?_dropWhile_not p after
        rw [hdrop] at hx
        rw [List.takeWhile_cons, if_neg (by simpa using hx)]
    have hnone : ∀ x ∈ v ++ after.dropWhile p, q x = false := by
      intro x hx
      rcases List.mem_append.mp hx with hx | hx
      · exact hv x hx
      · exact hbehind x hx
    calc around q p (before ++ y :: after)
        = (before ++ u).rtakeWhile p ++ z :: (v ++ after.dropWhile p).takeWhile p := by
          rw [hlist, around_append hz hnone]
      _ = before.rtakeWhile p ++ (u ++ z :: v) := by
          rw [rtakeWhile_append_of_all hu, List.takeWhile_append_of_pos hvp, hstop, List.append_nil,
            List.append_assoc]
      _ = around q' p (before ++ y :: after) := by rw [← hsplit, around_append hq' hafter]

/-- `run` is the longest run of elements with `p` in which the last element with `q`
stands. -/
structure IsRun (q p : α → Bool) (l run : List α) : Prop where
  placed : ∃ before after, l = before ++ run ++ after ∧ (∀ x ∈ before.getLast?, p x = false) ∧
    (∀ x ∈ after.head?, p x = false) ∧ ∀ x ∈ after, q x = false
  all : ∀ x ∈ run, p x = true
  has : ∃ x ∈ run, q x = true

theorem IsRun.eq_around {q p : α → Bool} {l run : List α} (h : IsRun q p l run) :
    run = around q p l := by
  obtain ⟨⟨before, after, rfl, hbefore, hhead, hafter⟩, hall, x, hx, hqx⟩ := h
  cases hlast : splitLast q run with
  | none =>
    rw [splitLast_eq_none.mp hlast x hx] at hqx
    cases hqx
  | some m =>
    obtain ⟨u, z, v⟩ := m
    obtain ⟨rfl, hz, hv⟩ := eq_of_splitLast hlast
    obtain ⟨hu, hzv⟩ := List.forall_mem_append.mp hall
    have hlist : before ++ (u ++ z :: v) ++ after = (before ++ u) ++ z :: (v ++ after) := by
      simp only [List.append_assoc, List.cons_append]
    have hfront : before.rtakeWhile p = [] := by
      refine List.rtakeWhile_eq_nil_iff.mpr fun hne => ?_
      rw [hbefore _ (List.getLast?_eq_some_getLast hne)]
      exact Bool.false_ne_true
    have hback : after.takeWhile p = [] := by
      cases after with
      | nil => rfl
      | cons y after => rw [List.takeWhile_cons, hhead y rfl, if_neg Bool.false_ne_true]
    have hnone : ∀ x ∈ v ++ after, q x = false := List.forall_mem_append.mpr ⟨hv, hafter⟩
    rw [hlist, around_append hz hnone, rtakeWhile_append_of_all hu, hfront, List.nil_append,
      List.takeWhile_append_of_pos (List.forall_mem_cons.mp hzv).2, hback, List.append_nil]

theorem isRun_around {q p : α → Bool} (hp : ∀ x, q x = true → p x = true) {l : List α}
    (hq : ∃ x ∈ l, q x = true) : IsRun q p l (around q p l) := by
  cases hsplit : splitLast q l with
  | none =>
    obtain ⟨x, hx, hqx⟩ := hq
    rw [splitLast_eq_none.mp hsplit x hx] at hqx
    cases hqx
  | some m =>
    obtain ⟨before, y, after⟩ := m
    obtain ⟨rfl, hy, hafter⟩ := eq_of_splitLast hsplit
    rw [around_append hy hafter]
    refine ⟨⟨before.rdropWhile p, after.dropWhile p, ?_, ?_, ?_, ?_⟩, fun x hx => ?_, y, by simp, hy⟩
    · calc before ++ y :: after
          = (before.rdropWhile p ++ before.rtakeWhile p) ++
              y :: (after.takeWhile p ++ after.dropWhile p) := by
            rw [List.rdropWhile_append_rtakeWhile, List.takeWhile_append_dropWhile]
        _ = before.rdropWhile p ++ (before.rtakeWhile p ++ y :: after.takeWhile p) ++
              after.dropWhile p := by
            simp only [List.append_assoc, List.cons_append]
    · intro x hx
      have hne : before.rdropWhile p ≠ [] := by
        intro hnil
        rw [hnil] at hx
        cases hx
      have hlast := List.rdropWhile_last_not p before hne
      rw [List.getLast?_eq_some_getLast hne] at hx
      rw [← Option.some.inj hx]
      exact eq_false_of_ne_true hlast
    · intro x hx
      have hhead := List.head?_dropWhile_not p after
      rw [hx] at hhead
      simpa using hhead
    · exact fun x hx => hafter x ((List.dropWhile_suffix p).subset hx)
    · exact of_mem_around hp (by rw [around_append hy hafter]; exact hx)

end AmigaFleet.Lib

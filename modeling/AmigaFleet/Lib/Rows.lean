import Mathlib.Data.List.Basic

/-!
# Rows in one buffer

A buffer that holds `n` rows of `stride` items each, and a loop over the rows that
changes the `i`-th one in its turn.

* `exists_rows` splits a buffer into its rows.
* `foldl_rows`: the loop changes every row once, and the rows stay apart.
-/

namespace AmigaFleet.Lib.Rows

variable {α : Type} {stride : Nat}

/-- `f` changes the `i`-th row of a buffer as `op i` does. -/
def Rowwise (stride : Nat) (f : List α → Nat → List α) (op : Nat → List α → List α) : Prop :=
  ∀ i front row back, front.length = i * stride → row.length = stride →
    f (front ++ (row ++ back)) i = front ++ (op i row ++ back)

theorem exists_rows {n : Nat} {buf : List α} (h : buf.length = n * stride) :
    ∃ rows : List (List α), rows.length = n ∧ (∀ row ∈ rows, row.length = stride) ∧
      buf = rows.flatten := by
  induction n generalizing buf with
  | zero =>
    rw [Nat.zero_mul, List.length_eq_zero_iff] at h
    exact ⟨[], rfl, by simp, h⟩
  | succ n ih =>
    rw [Nat.succ_mul] at h
    have hrest : (buf.drop stride).length = n * stride := by
      rw [List.length_drop]
      omega
    obtain ⟨rows, hcount, hrows, hbuf⟩ := ih hrest
    refine ⟨buf.take stride :: rows, by rw [List.length_cons, hcount], ?_, ?_⟩
    · rw [List.forall_mem_cons, List.length_take]
      exact ⟨by omega, hrows⟩
    · rw [List.flatten_cons, ← hbuf, List.take_append_drop]

/-- The rows from the `start`-th on, behind what is in front of them. -/
theorem foldl_rows_from {f : List α → Nat → List α} {op : Nat → List α → List α}
    (hf : Rowwise stride f op) (hop : ∀ i row, row.length = stride → (op i row).length = stride)
    (rows : List (List α)) (hrows : ∀ row ∈ rows, row.length = stride) (start : Nat)
    (front : List α) (hfront : front.length = start * stride) :
    (List.range' start rows.length).foldl f (front ++ rows.flatten) =
      front ++ (rows.mapIdx fun i => op (start + i)).flatten := by
  induction rows generalizing start front with
  | nil => rfl
  | cons row rows ih =>
    rw [List.forall_mem_cons] at hrows
    have hlen : (front ++ op start row).length = (start + 1) * stride := by
      rw [List.length_append, hfront, hop start row hrows.1, Nat.succ_mul]
    rw [List.length_cons, List.range'_succ, List.foldl_cons, List.flatten_cons,
      hf start front row rows.flatten hfront hrows.1, ← List.append_assoc,
      ih hrows.2 (start + 1) _ hlen, List.mapIdx_cons, List.flatten_cons, List.append_assoc]
    simp only [Nat.add_zero, Nat.add_assoc, Nat.add_comm 1]

/-- A loop over all rows. -/
theorem foldl_rows {f : List α → Nat → List α} {op : Nat → List α → List α}
    (hf : Rowwise stride f op) (hop : ∀ i row, row.length = stride → (op i row).length = stride)
    {rows : List (List α)} (hrows : ∀ row ∈ rows, row.length = stride) :
    (List.range rows.length).foldl f rows.flatten = (rows.mapIdx op).flatten := by
  have hall := foldl_rows_from hf hop rows hrows 0 [] (Nat.zero_mul stride).symm
  simp only [Nat.zero_add, List.nil_append] at hall
  rw [List.range_eq_range', hall]

/-- Rows that are replaced without regard to what they were. -/
theorem mapIdx_eq_map_range {β : Type} {f : Nat → List α → β} {g : Nat → β} {rows : List (List α)}
    (h : ∀ i, ∀ row ∈ rows, f i row = g i) : rows.mapIdx f = (List.range rows.length).map g := by
  apply List.ext_getElem
  · rw [List.length_mapIdx, List.length_map, List.length_range]
  · intro i hi _
    rw [List.getElem_mapIdx, List.getElem_map, List.getElem_range]
    exact h i _ (List.getElem_mem _)

end AmigaFleet.Lib.Rows

import Mathlib.Data.List.Basic
import Mathlib.Data.List.Range

/-!
# A text taken in blocks

A function that digests blocks of `n` items is applied to the complete blocks
of a text, and what is left waits in a buffer.

* `blocks` are the complete blocks of a text, `rest` is what is behind them.
* `absorb f s text` is the state behind the complete blocks.
* `absorb_short` and `absorb_full` are the two cases of a text that is
  continued by a piece that fits into the buffer; with them any splitting of a
  text leads to the same state.
-/

namespace AmigaFleet.Lib.Blocks

variable {α σ : Type} {n : Nat}

/-- The complete blocks of `n` items, one after another. -/
def blocks (n : Nat) (text : List α) : List (List α) :=
  (List.range (text.length / n)).map fun i => (text.drop (n * i)).take n

/-- What is behind the complete blocks. -/
def rest (n : Nat) (text : List α) : List α := text.drop (n * (text.length / n))

def absorb (n : Nat) (f : σ → List α → σ) (s : σ) (text : List α) : σ := (blocks n text).foldl f s

@[simp] theorem blocks_nil : blocks n ([] : List α) = [] := by simp [blocks]

@[simp] theorem rest_nil : rest n ([] : List α) = [] := by simp [rest]

@[simp] theorem absorb_nil (f : σ → List α → σ) (s : σ) : absorb n f s [] = s := by simp [absorb]

/-- No block is complete. -/
theorem blocks_short {text : List α} (h : text.length < n) : blocks n text = [] := by
  simp [blocks, Nat.div_eq_of_lt h]

theorem rest_short {text : List α} (h : text.length < n) : rest n text = text := by
  simp [rest, Nat.div_eq_of_lt h]

/-- Exactly one block. -/
theorem blocks_single (hn : 0 < n) {text : List α} (h : text.length = n) : blocks n text = [text] := by
  subst h
  simp [blocks, Nat.div_self hn]

theorem length_rest (text : List α) : (rest n text).length = text.length % n := by
  have hdiv := Nat.div_add_mod text.length n
  rw [rest, List.length_drop]
  omega

/-- A text that begins with complete blocks. -/
theorem blocks_append (hn : 0 < n) {whole : List α} (h : n ∣ whole.length) (text : List α) :
    blocks n (whole ++ text) = blocks n whole ++ blocks n text ∧
      rest n (whole ++ text) = rest n text := by
  obtain ⟨k, hk⟩ := h
  have hcount : (whole ++ text).length / n = k + text.length / n := by
    rw [List.length_append, hk, Nat.mul_add_div hn]
  have hwhole : whole.length / n = k := by rw [hk, Nat.mul_div_cancel_left k hn]
  constructor
  · rw [blocks, hcount, List.range_add, List.map_append, blocks, hwhole, List.map_map]
    congr 1
    · refine List.map_congr_left fun i hi => ?_
      have hlt : n * (i + 1) ≤ n * k := Nat.mul_le_mul_left n (List.mem_range.mp hi)
      rw [Nat.mul_add, Nat.mul_one] at hlt
      rw [List.drop_append_of_le_length (by omega), List.take_append_of_le_length]
      rw [List.length_drop]
      omega
    · refine List.map_congr_left fun i _ => ?_
      show ((whole ++ text).drop (n * (k + i))).take n = _
      rw [Nat.mul_add, ← hk, List.drop_length_add_append]
  · rw [rest, hcount, Nat.mul_add, ← hk, List.drop_length_add_append, rest]

/-- A text splits into its complete blocks and the rest. -/
theorem exists_whole (text : List α) :
    ∃ whole, text = whole ++ rest n text ∧ n ∣ whole.length := by
  refine ⟨text.take (n * (text.length / n)), (List.take_append_drop _ _).symm, ?_⟩
  rw [List.length_take, Nat.min_eq_left (Nat.mul_div_le ..)]
  exact Nat.dvd_mul_right ..

/-- The blocks of a text that is continued: those of the text, and those of its
rest with the continuation. -/
theorem blocks_continue (hn : 0 < n) (text piece : List α) :
    blocks n (text ++ piece) = blocks n text ++ blocks n (rest n text ++ piece) ∧
      rest n (text ++ piece) = rest n (rest n text ++ piece) := by
  obtain ⟨whole, htext, hwhole⟩ := exists_whole (n := n) text
  have hshort : blocks n (rest n text) = [] := by
    apply blocks_short
    rw [length_rest]
    exact Nat.mod_lt _ hn
  have hself : blocks n text = blocks n whole := by
    conv_lhs => rw [htext]
    rw [(blocks_append hn hwhole _).1, hshort, List.append_nil]
  have hboth : text ++ piece = whole ++ (rest n text ++ piece) := by
    rw [← List.append_assoc, ← htext]
  obtain ⟨hblocks, hrest⟩ := blocks_append hn hwhole (rest n text ++ piece)
  rw [hboth, hblocks, hrest, hself]
  exact ⟨rfl, rfl⟩

theorem absorb_continue (hn : 0 < n) (f : σ → List α → σ) (s : σ) (text piece : List α) :
    absorb n f s (text ++ piece) = absorb n f (absorb n f s text) (rest n text ++ piece) := by
  rw [absorb, (blocks_continue hn text piece).1, List.foldl_append]
  rfl

/-- The piece leaves room in the buffer. -/
theorem absorb_short {text piece : List α} (f : σ → List α → σ) (s : σ)
    (h : (rest n text).length + piece.length < n) :
    absorb n f s (text ++ piece) = absorb n f s text ∧
      rest n (text ++ piece) = rest n text ++ piece := by
  have hn : 0 < n := by omega
  have hshort : (rest n text ++ piece).length < n := by rwa [List.length_append]
  rw [absorb_continue hn, (blocks_continue hn text piece).2, rest_short hshort, absorb,
    blocks_short hshort]
  exact ⟨rfl, rfl⟩

/-- The piece fills the buffer. -/
theorem absorb_full (hn : 0 < n) {text piece : List α} (f : σ → List α → σ) (s : σ)
    (h : (rest n text).length + piece.length = n) :
    absorb n f s (text ++ piece) = f (absorb n f s text) (rest n text ++ piece) ∧
      rest n (text ++ piece) = [] := by
  have hfull : (rest n text ++ piece).length = n := by rwa [List.length_append]
  rw [absorb_continue hn, (blocks_continue hn text piece).2, absorb, blocks_single hn hfull]
  refine ⟨rfl, List.length_eq_zero_iff.mp ?_⟩
  rw [length_rest, hfull, Nat.mod_self]

end AmigaFleet.Lib.Blocks

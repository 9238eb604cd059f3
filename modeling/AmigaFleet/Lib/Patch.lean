import Mathlib.Data.List.Basic

/-!
# Writing at a position of a file

`patch pad base pos data` is a file `base` after `data` was written at `pos`.
Where `pos` is past the end, the gap is filled with `pad`.

`piece whole pos n` is the piece of `whole` from `pos` on, and
`Holds whole file pos n` says that a file has this piece in its place.  Pieces
of one file can be written in any order and more than once:

* writing a piece puts it in its place (`holds_patch_self`);
* no piece that is in its place is lost by it (`Holds.patch`);
* a file that holds every piece is the whole (`eq_of_holds`).
-/

namespace AmigaFleet.Lib

variable {α : Type}

/-- Write `data` at `pos`. -/
def patch (pad : α) (base : List α) (pos : Nat) (data : List α) : List α :=
  base.take pos ++ List.replicate (pos - base.length) pad ++ data ++
    base.drop (pos + data.length)

@[simp] theorem patch_nil (pad : α) (data : List α) : patch pad [] 0 data = data := by
  simp [patch]

/-- At most `n` items of a list from position `pos` on. -/
def piece (whole : List α) (pos n : Nat) : List α := (whole.drop pos).take n

theorem length_piece (whole : List α) (pos n : Nat) :
    (piece whole pos n).length = min n (whole.length - pos) := by
  rw [piece, List.length_take, List.length_drop]

theorem getElem?_piece {whole : List α} {pos n i : Nat} (hi : i < n) :
    (piece whole pos n)[i]? = whole[pos + i]? := by
  rw [piece, List.getElem?_take_of_lt hi, List.getElem?_drop]

/-- Two pieces, the second where the first ends. -/
theorem piece_append (whole : List α) (pos m n : Nat) :
    piece whole pos (m + n) = piece whole pos m ++ piece whole (pos + m) n := by
  rw [piece, piece, piece, List.take_add, List.drop_drop]

theorem length_patch (pad : α) (base : List α) (pos : Nat) (data : List α) :
    (patch pad base pos data).length = max base.length (pos + data.length) := by
  simp only [patch, List.length_append, List.length_take, List.length_replicate, List.length_drop]
  omega

/-- No data changes nothing, up to the end of the file. -/
theorem patch_empty (pad : α) {base : List α} {pos : Nat} (hpos : pos ≤ base.length) :
    patch pad base pos [] = base := by
  have hgap : pos - base.length = 0 := by omega
  simp [patch, hgap]

/-- The bytes in front of the position stay in front. -/
theorem patch_append_left (pad : α) (front base : List α) (pos : Nat) (data : List α) :
    patch pad (front ++ base) (front.length + pos) data = front ++ patch pad base pos data := by
  have hgap : front.length + pos - (front ++ base).length = pos - base.length := by
    rw [List.length_append]
    omega
  simp only [patch, hgap, List.take_length_add_append, Nat.add_assoc, List.drop_length_add_append,
    List.append_assoc]

/-- The bytes behind the data stay behind. -/
theorem patch_append_right (pad : α) {base : List α} {pos : Nat} {data : List α}
    (h : pos + data.length ≤ base.length) (back : List α) :
    patch pad (base ++ back) pos data = patch pad base pos data ++ back := by
  have hgap : pos - (base ++ back).length = pos - base.length := by
    rw [List.length_append]
    omega
  rw [patch, hgap, List.take_append_of_le_length (by omega), List.drop_append_of_le_length h, patch]
  exact (List.append_assoc _ _ _).symm

/-! ## Reading a patched file -/

/-- Before the data the old bytes stand. -/
theorem getElem?_patch_before {pad : α} {base data : List α} {pos i : Nat} (hi : i < pos)
    (hbase : i < base.length) : (patch pad base pos data)[i]? = base[i]? := by
  have htake : i < (base.take pos).length := by
    rw [List.length_take]
    omega
  rw [patch, List.append_assoc, List.append_assoc, List.getElem?_append_left htake,
    List.getElem?_take_of_lt hi]

/-- Inside the data there is the data. -/
theorem getElem?_patch_inside {pad : α} {base data : List α} {pos i : Nat} (hi : pos ≤ i)
    (hdata : i < pos + data.length) : (patch pad base pos data)[i]? = data[i - pos]? := by
  have hfront : (base.take pos ++ List.replicate (pos - base.length) pad).length = pos := by
    rw [List.length_append, List.length_take, List.length_replicate]
    omega
  rw [patch, List.append_assoc, List.getElem?_append_right (by omega), hfront,
    List.getElem?_append_left (by omega)]

/-- After the data the old bytes stand. -/
theorem getElem?_patch_after {pad : α} {base data : List α} {pos i : Nat}
    (hi : pos + data.length ≤ i) : (patch pad base pos data)[i]? = base[i]? := by
  have hfront : (base.take pos ++ List.replicate (pos - base.length) pad ++ data).length =
      pos + data.length := by
    rw [List.length_append, List.length_append, List.length_take, List.length_replicate]
    omega
  rw [patch, List.getElem?_append_right (by omega), hfront, List.getElem?_drop]
  congr 1
  omega

/-! ## Putting a file together from its pieces -/

/-- From `pos` on, `n` items of the file are those of `whole`. -/
def Holds (whole file : List α) (pos n : Nat) : Prop :=
  ∀ i, pos ≤ i → i < pos + n → i < whole.length → file[i]? = whole[i]?

/-- A piece that is written is there. -/
theorem holds_patch_self (pad : α) (whole file : List α) (pos n : Nat) :
    Holds whole (patch pad file pos (piece whole pos n)) pos n := by
  intro i hpos hn hlen
  have hseg := length_piece whole pos n
  rw [getElem?_patch_inside hpos (by omega), getElem?_piece (by omega)]
  congr 1
  omega

/-- A piece that was there is still there after another one is written. -/
theorem Holds.patch {whole file : List α} {pos n : Nat} (h : Holds whole file pos n) (pad : α)
    (pos' n' : Nat) : Holds whole (patch pad file pos' (piece whole pos' n')) pos n := by
  intro i hpos hn hlen
  have hseg := length_piece whole pos' n'
  have hfile := h i hpos hn hlen
  rcases Nat.lt_or_ge i pos' with hbefore | hge
  · have hbase : i < file.length := by
      have hsome := List.getElem?_eq_getElem hlen
      rw [← hfile] at hsome
      exact (List.getElem?_eq_some_iff.mp hsome).1
    rw [getElem?_patch_before hbefore hbase, hfile]
  · rcases Nat.lt_or_ge i (pos' + n') with hinside | hafter
    · exact holds_patch_self pad whole file pos' n' i hge hinside hlen
    · rw [getElem?_patch_after (by omega), hfile]

/-- A file that is no longer than the whole and holds all of it is the whole. -/
theorem eq_of_holds {whole file : List α} (hlen : file.length ≤ whole.length)
    (h : ∀ i, i < whole.length → ∃ pos n, pos ≤ i ∧ i < pos + n ∧ Holds whole file pos n) :
    file = whole := by
  apply List.ext_getElem?
  intro i
  rcases Nat.lt_or_ge i whole.length with hi | hi
  · obtain ⟨pos, n, hpos, hn, hholds⟩ := h i hi
    exact hholds i hpos hn hi
  · rw [List.getElem?_eq_none hi, List.getElem?_eq_none (Nat.le_trans hlen hi)]

end AmigaFleet.Lib

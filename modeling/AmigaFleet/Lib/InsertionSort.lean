import Mathlib.Algebra.Ring.Int.Defs
import Mathlib.Algebra.Ring.Nat
import Mathlib.Data.List.Basic
import Mathlib.Data.List.Induction
import Mathlib.Data.List.Perm.Basic
import Mathlib.Order.Basic
import Mathlib.Order.Lattice

/-!
# Insertion sort in place

`sort` takes the cells of an array one after another, moves the cells in front
of each up by one as long as their key is smaller, and puts the cell into the
gap, so that the largest key comes first.  Every access is checked: `none` is
an access outside the array.

* `insertAt_spec` is one turn of the outer loop, on a sorted front.
* `sort_spec`: the sort stays inside the array and leaves the same items, with
  their keys in descending order.
-/

namespace AmigaFleet.Lib.InsertionSort

variable {α κ : Type} [LinearOrder κ] (key : α → κ)

def read (cells : List α) (i : Nat) : Option α := cells[i]?

def write (cells : List α) (i : Nat) (x : α) : Option (List α) :=
  if i < cells.length then some (cells.set i x) else none

/-- The inner loop.  The number is one more than the index of the cell that is
looked at, so the loop ends at 0 when this index would be -1. -/
def shift (t : α) : Nat → List α → Option (Nat × List α)
  | 0, cells => some (0, cells)
  | k + 1, cells => do
    let e ← read cells k
    if key e < key t then
      let cells ← write cells (k + 1) e
      shift t k cells
    else some (k + 1, cells)

/-- One turn of the outer loop. -/
def insertAt (cells : List α) (i : Nat) : Option (List α) := do
  let t ← read cells i
  let (k, cells) ← shift key t i cells
  write cells k t

def sort (cells : List α) : Option (List α) :=
  (List.range' 1 (cells.length - 1)).foldlM (insertAt key) cells

/-- Larger keys come first. -/
def Descending (cells : List α) : Prop := cells.Pairwise fun a b => key b ≤ key a

omit [LinearOrder κ] in
theorem read_middle (front rest : List α) (x : α) :
    read (front ++ x :: rest) front.length = some x := by
  rw [read, List.getElem?_append_right (Nat.le_refl _), Nat.sub_self]
  rfl

omit [LinearOrder κ] in
theorem write_middle (front rest : List α) (x y : α) :
    write (front ++ x :: rest) front.length y = some (front ++ y :: rest) := by
  rw [write, if_pos (by simp), List.set_append_right _ _ (Nat.le_refl _), Nat.sub_self]
  rfl

variable {key}

/-- The item `t` goes into a sorted front, behind the keys that are not
smaller.  `hole` is the cell that `t` was taken from, or the last that has been
moved up. -/
theorem shift_spec (t : α) {front : List α} (hfront : Descending key front) (hole : α)
    (rest : List α) :
    ∃ before behind, front = before ++ behind ∧ (∀ y ∈ before, key t ≤ key y) ∧
      (∀ z ∈ behind, key z < key t) ∧
      ((shift key t front.length (front ++ hole :: rest)).bind fun r => write r.2 r.1 t) =
        some (before ++ t :: (behind ++ rest)) := by
  induction front using List.reverseRecOn generalizing hole rest with
  | nil => exact ⟨[], [], rfl, by simp, by simp, write_middle [] rest hole t⟩
  | append_singleton front x ih =>
    have hlength : (front ++ [x]).length = front.length + 1 := by simp
    have hread : read (front ++ [x] ++ hole :: rest) front.length = some x := by
      rw [List.append_assoc]
      exact read_middle front (hole :: rest) x
    have hsorted := List.pairwise_append.mp hfront
    rw [hlength, shift, hread]
    by_cases hx : key x < key t
    · have hwrite : write (front ++ [x] ++ hole :: rest) (front.length + 1) x =
          some (front ++ x :: (x :: rest)) := by
        rw [← hlength, write_middle]
        simp
      obtain ⟨before, behind, hsplit, hbefore, hbehind, heq⟩ := ih hsorted.1 x (x :: rest)
      refine ⟨before, behind ++ [x], by rw [hsplit, List.append_assoc], hbefore, ?_, ?_⟩
      · intro z hz
        rcases List.mem_append.mp hz with hz | hz
        · exact hbehind z hz
        · rwa [List.mem_singleton.mp hz]
      · simp only [Option.bind_eq_bind, Option.bind_some, if_pos hx, hwrite]
        rw [heq]
        simp
    · -- the keys further in front are larger still
      have hlast : key t ≤ key x := not_lt.mp hx
      refine ⟨front ++ [x], [], by simp, ?_, by simp, ?_⟩
      · intro y hy
        rcases List.mem_append.mp hy with hy | hy
        · exact le_trans hlast (hsorted.2.2 y hy x (List.mem_singleton_self x))
        · rwa [List.mem_singleton.mp hy]
      · simp only [Option.bind_eq_bind, Option.bind_some, if_neg hx]
        rw [← hlength, write_middle, List.nil_append]

/-- One turn: the sorted front grows by one item, and the rest stays. -/
theorem insertAt_spec {front : List α} (hfront : Descending key front) (t : α) (rest : List α) :
    ∃ front', insertAt key (front ++ t :: rest) front.length = some (front' ++ rest) ∧
      front'.Perm (front ++ [t]) ∧ Descending key front' := by
  obtain ⟨before, behind, rfl, hbefore, hbehind, heq⟩ := shift_spec t hfront t rest
  refine ⟨before ++ t :: behind, ?_, ?_, ?_⟩
  · rw [insertAt, read_middle]
    simp only [Option.bind_eq_bind, Option.bind_some]
    refine heq.trans ?_
    simp
  · rw [List.append_assoc]
    exact (List.perm_append_singleton t behind).symm.append_left before
  · have hsorted := List.pairwise_append.mp hfront
    refine List.pairwise_append.mpr ⟨hsorted.1, ?_, ?_⟩
    · exact List.pairwise_cons.mpr ⟨fun z hz => le_of_lt (hbehind z hz), hsorted.2.1⟩
    · intro y hy z hz
      rcases List.mem_cons.mp hz with rfl | hz
      · exact hbefore y hy
      · exact hsorted.2.2 y hy z hz

/-- The outer loop from the end of a sorted front on. -/
theorem sort_loop {front : List α} (hfront : Descending key front) (rest : List α) :
    ∃ out, (List.range' front.length rest.length).foldlM (insertAt key) (front ++ rest) =
        some out ∧ out.Perm (front ++ rest) ∧ Descending key out := by
  induction rest generalizing front with
  | nil => exact ⟨front, by simp, by simp, hfront⟩
  | cons t rest ih =>
    obtain ⟨front', hturn, hperm, hfront'⟩ := insertAt_spec hfront t rest
    obtain ⟨out, hloop, hout, hsorted⟩ := ih hfront'
    have hlength : front'.length = front.length + 1 := by
      rw [hperm.length_eq]
      simp
    refine ⟨out, ?_, ?_, hsorted⟩
    · rw [List.length_cons, List.range'_succ, List.foldlM_cons, hturn]
      rw [hlength] at hloop
      exact hloop
    · refine hout.trans ((hperm.append_right rest).trans ?_)
      rw [List.append_assoc, List.singleton_append]

/-- The sort stays inside the array, keeps the items and puts their keys into
descending order. -/
theorem sort_spec (cells : List α) :
    ∃ out, sort key cells = some out ∧ out.Perm cells ∧ Descending key out := by
  cases cells with
  | nil => exact ⟨[], rfl, .refl _, .nil⟩
  | cons t rest => exact sort_loop (List.pairwise_singleton _ t) rest

/-- A sort of images is a sort of the items that they are the images of. -/
theorem sort_map {β : Type} (f : β → α) (items : List β) :
    ∃ out, sort key (items.map f) = some (out.map f) ∧ out.Perm items ∧
      Descending (key ∘ f) out := by
  obtain ⟨sorted, hsort, hperm, hdesc⟩ := @sort_spec _ _ _ key (items.map f)
  have himage : Relation.Comp (· = List.map f ·) List.Perm sorted items := by
    rw [List.eq_map_comp_perm]
    exact hperm
  obtain ⟨out, rfl, hout⟩ := himage
  exact ⟨out, hsort, hout, List.pairwise_map.mp hdesc⟩

/-- Items with different keys are strictly descending. -/
theorem Descending.strict {cells : List α} (h : Descending key cells)
    (hkeys : cells.Pairwise fun a b => key a ≠ key b) :
    cells.Pairwise fun a b => key b < key a :=
  (h.and hkeys).imp fun hab => lt_of_le_of_ne hab.1 hab.2.symm

end AmigaFleet.Lib.InsertionSort

import Mathlib.Data.List.Basic

/-!
# Blocks of memory that are filled from their start

A program allocates a block and writes through a pointer that it moves on by
one with every write.  A `Region` carries that it holds no more cells than were
allocated; a write behind the end is no region but `none`.

* `put` is one write and `puts` a row of them; `puts_eq` says when they stay
  inside.
* `seek` sets the pointer back and `realloc` changes the size.
-/

namespace AmigaFleet.Lib

/-- A block of `size` cells, of which the first ones hold `data`. -/
@[ext] structure Region (α : Type) where
  size : Nat
  data : List α
  fits : data.length ≤ size

namespace Region

variable {α : Type}

def alloc (n : Nat) : Region α := ⟨n, [], Nat.zero_le n⟩

@[simp] theorem alloc_size (n : Nat) : (alloc n : Region α).size = n := rfl

@[simp] theorem alloc_data (n : Nat) : (alloc n : Region α).data = [] := rfl

/-- `*p++ = a` -/
def put (a : α) (r : Region α) : Option (Region α) :=
  if h : r.data.length < r.size then
    some ⟨r.size, r.data ++ [a], by simp only [List.length_append, List.length_singleton]; omega⟩
  else none

/-- The writes of `as`, one after another. -/
def puts : List α → Region α → Option (Region α)
  | [], r => some r
  | a :: as, r => (r.put a).bind (puts as)

/-- `p = block + n`, for a cell that has been written to or the first one behind
them. -/
def seek (n : Nat) (r : Region α) : Option (Region α) :=
  if n ≤ r.data.length then
    some ⟨r.size, r.data.take n, Nat.le_trans (List.length_take_le' ..) r.fits⟩
  else none

/-- `realloc(block, n)` -/
def realloc (n : Nat) (r : Region α) : Region α := ⟨n, r.data.take n, List.length_take_le ..⟩

@[simp] theorem realloc_size (n : Nat) (r : Region α) : (r.realloc n).size = n := rfl

@[simp] theorem realloc_data (n : Nat) (r : Region α) : (r.realloc n).data = r.data.take n := rfl

theorem seek_eq {n : Nat} {r : Region α} (h : n ≤ r.data.length) :
    r.seek n =
      some ⟨r.size, r.data.take n, Nat.le_trans (List.length_take_le' ..) r.fits⟩ :=
  if_pos h

theorem put_eq {r : Region α} (a : α) (h : r.data.length < r.size) :
    r.put a =
      some ⟨r.size, r.data ++ [a], by simp only [List.length_append, List.length_singleton]; omega⟩ :=
  dif_pos h

@[simp] theorem puts_nil (r : Region α) : r.puts [] = some r := rfl

theorem puts_singleton (a : α) (r : Region α) : r.puts [a] = r.put a := Option.bind_fun_some _

theorem puts_singleton_fun (a : α) : puts [a] = put a := funext (puts_singleton a)

/-- Writes that find room. -/
theorem puts_eq {as : List α} {r : Region α} (h : (r.data ++ as).length ≤ r.size) :
    r.puts as = some ⟨r.size, r.data ++ as, h⟩ := by
  induction as generalizing r with
  | nil => simp [puts]
  | cons a as ih =>
    have hroom : r.data.length < r.size := by
      simp only [List.length_append, List.length_cons] at h
      omega
    have hrest : ((r.data ++ [a]) ++ as).length ≤ r.size := by simpa using h
    rw [puts, put_eq a hroom, Option.bind_some, ih hrest]
    simp

theorem exists_puts {as : List α} {r : Region α} (h : r.data.length + as.length ≤ r.size) :
    ∃ r', r.puts as = some r' ∧ r'.size = r.size ∧ r'.data = r.data ++ as :=
  ⟨_, puts_eq (by rwa [List.length_append]), rfl, rfl⟩

theorem puts_append (as bs : List α) (r : Region α) :
    r.puts (as ++ bs) = (r.puts as).bind (puts bs) := by
  induction as generalizing r with
  | nil => rfl
  | cons a as ih =>
    show (r.put a).bind (puts (as ++ bs)) = ((r.put a).bind (puts as)).bind (puts bs)
    rw [Option.bind_assoc]
    exact congrArg _ (funext ih)

theorem alloc_puts {as : List α} {n : Nat} (h : as.length ≤ n) :
    (alloc n).puts as = some ⟨n, as, h⟩ :=
  puts_eq (r := alloc n) h

end Region

end AmigaFleet.Lib

import Mathlib.Algebra.Ring.Int.Defs
import Mathlib.Algebra.Ring.Nat
import Mathlib.Data.List.Forall2

/-!
# Paragraphs

A list in blocks that are separated by blank elements, and a loop that writes
every block anew and leaves the blank elements.

* `blocks` are the blocks of a list, `mapBlocks f` is the loop.
* `blockInduction`: a list is a block, or a block and a blank element in front
  of a list.
* `Woven P l l'`: the list `l'` is `l` with elements put in that satisfy `P`.
* `InOrder pieces out`: the pieces stand in `out`, one behind the other.
-/

namespace AmigaFleet.Lib

variable {α : Type}

section Loop

variable (blank : α → Bool)

/-- The blocks of a list; `block` is what stands in front of it since the last
blank element. -/
def blocks (block : List α) : List α → List (List α)
  | [] => if block = [] then [] else [block]
  | x :: l =>
    if blank x then (if block = [] then [] else [block]) ++ blocks [] l else blocks (block ++ [x]) l

/-- The list with `f` applied to its blocks. -/
def mapBlocks (f : List α → List α) (block : List α) : List α → List α
  | [] => if block = [] then [] else f block
  | x :: l =>
    if blank x then (if block = [] then [] else f block) ++ x :: mapBlocks f [] l
    else mapBlocks f (block ++ [x]) l

end Loop

section

variable {blank : α → Bool} {f : List α → List α} {b block l : List α} {x : α}

/-! ## One block -/

theorem blocks_nonblank (h : ∀ y ∈ b, blank y = false) :
    blocks blank block b = if block ++ b = [] then [] else [block ++ b] := by
  induction b generalizing block with
  | nil => rw [blocks, List.append_nil]
  | cons y b ih =>
    obtain ⟨hy, hb⟩ := List.forall_mem_cons.mp h
    rw [blocks, if_neg (by simp [hy]), ih hb]
    simp

theorem mapBlocks_nonblank (h : ∀ y ∈ b, blank y = false) :
    mapBlocks blank f block b = if block ++ b = [] then [] else f (block ++ b) := by
  induction b generalizing block with
  | nil => rw [mapBlocks, List.append_nil]
  | cons y b ih =>
    obtain ⟨hy, hb⟩ := List.forall_mem_cons.mp h
    rw [mapBlocks, if_neg (by simp [hy]), ih hb]
    simp

theorem blocks_cut (h : ∀ y ∈ b, blank y = false) (hx : blank x = true) :
    blocks blank block (b ++ x :: l) =
      (if block ++ b = [] then [] else [block ++ b]) ++ blocks blank [] l := by
  induction b generalizing block with
  | nil => rw [List.nil_append, blocks, if_pos hx, List.append_nil]
  | cons y b ih =>
    obtain ⟨hy, hb⟩ := List.forall_mem_cons.mp h
    rw [List.cons_append, blocks, if_neg (by simp [hy]), ih hb]
    simp

theorem mapBlocks_cut (h : ∀ y ∈ b, blank y = false) (hx : blank x = true) :
    mapBlocks blank f block (b ++ x :: l) =
      (if block ++ b = [] then [] else f (block ++ b)) ++ x :: mapBlocks blank f [] l := by
  induction b generalizing block with
  | nil => rw [List.nil_append, mapBlocks, if_pos hx, List.append_nil]
  | cons y b ih =>
    obtain ⟨hy, hb⟩ := List.forall_mem_cons.mp h
    rw [List.cons_append, mapBlocks, if_neg (by simp [hy]), ih hb]
    simp

/-! ## Block by block -/

/-- A list is a block, or a block and a blank element in front of a list. -/
theorem blockInduction (blank : α → Bool) {P : List α → Prop}
    (last : ∀ b, (∀ y ∈ b, blank y = false) → P b)
    (cut : ∀ b x l, (∀ y ∈ b, blank y = false) → blank x = true → P l → P (b ++ x :: l))
    (l : List α) : P l := by
  suffices hblock : ∀ b : List α, (∀ y ∈ b, blank y = false) → P (b ++ l) by
    simpa using hblock [] (by simp)
  induction l with
  | nil =>
    intro b hb
    rw [List.append_nil]
    exact last b hb
  | cons x l ih =>
    intro b hb
    cases hx : blank x with
    | true => exact cut b x l hb hx (by simpa using ih [] (by simp))
    | false =>
      have hnext := ih (b ++ [x]) (by
        intro y hy
        rcases List.mem_append.mp hy with hy | hy
        · exact hb y hy
        · rw [List.mem_singleton.mp hy]
          exact hx)
      simpa using hnext

theorem mem_blocks_cut {c : List α} (h : ∀ y ∈ b, blank y = false) (hx : blank x = true) :
    c ∈ blocks blank [] (b ++ x :: l) ↔ (c = b ∧ b ≠ []) ∨ c ∈ blocks blank [] l := by
  rw [blocks_cut h hx, List.nil_append, List.mem_append]
  split
  · rename_i hnil
    simp [hnil]
  · rename_i hne
    simp [hne]

theorem mem_blocks_nonblank {c : List α} (h : ∀ y ∈ b, blank y = false) :
    c ∈ blocks blank [] b ↔ c = b ∧ b ≠ [] := by
  rw [blocks_nonblank h, List.nil_append]
  split
  · rename_i hnil
    simp [hnil]
  · rename_i hne
    simp [hne]

/-- A block is not empty, and none of its elements is blank. -/
theorem of_mem_blocks {c : List α} (hc : c ∈ blocks blank [] l) :
    c ≠ [] ∧ (∀ y ∈ c, blank y = false) ∧ ∀ y ∈ c, y ∈ l := by
  induction l using blockInduction blank with
  | last b hb =>
    obtain ⟨rfl, hne⟩ := (mem_blocks_nonblank hb).mp hc
    exact ⟨hne, hb, fun y hy => hy⟩
  | cut b x l hb hx ih =>
    rcases (mem_blocks_cut hb hx).mp hc with ⟨rfl, hne⟩ | hc
    · exact ⟨hne, hb, fun y hy => List.mem_append_left _ hy⟩
    · obtain ⟨hne, hblank, hmem⟩ := ih hc
      exact ⟨hne, hblank, fun y hy => List.mem_append_right _ (List.mem_cons_of_mem _ (hmem y hy))⟩

/-! ## The loop -/

/-- Blocks stay blocks. -/
theorem blocks_mapBlocks
    (hf : ∀ c ∈ blocks blank [] l, f c ≠ [] ∧ ∀ y ∈ f c, blank y = false) :
    blocks blank [] (mapBlocks blank f [] l) = (blocks blank [] l).map f := by
  induction l using blockInduction blank with
  | last b hb =>
    rw [mapBlocks_nonblank hb, blocks_nonblank hb, List.nil_append]
    split
    · rfl
    · rename_i hne
      obtain ⟨hfne, hfblank⟩ := hf b ((mem_blocks_nonblank hb).mpr ⟨rfl, hne⟩)
      rw [blocks_nonblank hfblank, List.nil_append, if_neg hfne]
      rfl
  | cut b x l hb hx ih =>
    have hrest := ih fun c hc => hf c ((mem_blocks_cut hb hx).mpr (Or.inr hc))
    rw [mapBlocks_cut hb hx, blocks_cut hb hx, List.nil_append, List.map_append, ← hrest]
    split
    · rw [blocks_cut (by simp) hx]
      rfl
    · rename_i hne
      obtain ⟨hfne, hfblank⟩ := hf b ((mem_blocks_cut hb hx).mpr (Or.inl ⟨rfl, hne⟩))
      rw [blocks_cut hfblank hx, List.nil_append, if_neg hfne]
      rfl

/-- What holds of the images of every block under two functions holds of the
whole lists. -/
theorem mapBlocks_rel {g : List α → List α} {R : List α → List α → Prop} (hnil : R [] [])
    (hone : ∀ x, R [x] [x]) (happ : ∀ {k k' m m'}, R k k' → R m m' → R (k ++ m) (k' ++ m'))
    (h : ∀ c ∈ blocks blank [] l, R (f c) (g c)) :
    R (mapBlocks blank f [] l) (mapBlocks blank g [] l) := by
  have hblock : ∀ b : List α, (b ≠ [] → R (f b) (g b)) →
      R (if b = [] then [] else f b) (if b = [] then [] else g b) := by
    intro b hb
    split
    · exact hnil
    · rename_i hne
      exact hb hne
  induction l using blockInduction blank with
  | last b hb =>
    rw [mapBlocks_nonblank hb, mapBlocks_nonblank hb, List.nil_append]
    exact hblock b fun hne => h b ((mem_blocks_nonblank hb).mpr ⟨rfl, hne⟩)
  | cut b x l hb hx ih =>
    have hrest := ih fun c hc => h c ((mem_blocks_cut hb hx).mpr (Or.inr hc))
    rw [mapBlocks_cut hb hx, mapBlocks_cut hb hx, List.nil_append]
    exact happ (hblock b fun hne => h b ((mem_blocks_cut hb hx).mpr (Or.inl ⟨rfl, hne⟩)))
      (happ (hone x) hrest)

theorem mapBlocks_id (l : List α) : mapBlocks blank (fun c => c) [] l = l := by
  induction l using blockInduction blank with
  | last b hb =>
    rw [mapBlocks_nonblank hb, List.nil_append]
    split
    · rename_i hnil
      exact hnil.symm
    · rfl
  | cut b x l hb hx ih =>
    rw [mapBlocks_cut hb hx, ih, List.nil_append]
    split
    · rename_i hnil
      rw [hnil]
    · rfl

/-- What holds of every block and its image holds of the whole lists. -/
theorem rel_mapBlocks {R : List α → List α → Prop} (hnil : R [] []) (hone : ∀ x, R [x] [x])
    (happ : ∀ {k k' m m'}, R k k' → R m m' → R (k ++ m) (k' ++ m'))
    (h : ∀ c ∈ blocks blank [] l, R c (f c)) : R l (mapBlocks blank f [] l) := by
  have hrel := mapBlocks_rel (f := fun c => c) hnil hone happ h
  rwa [mapBlocks_id] at hrel

/-- Where no block changes the list stays. -/
theorem mapBlocks_eq_self (h : ∀ c ∈ blocks blank [] l, f c = c) : mapBlocks blank f [] l = l :=
  (rel_mapBlocks rfl (fun _ => rfl) (congrArg₂ (· ++ ·)) fun c hc => (h c hc).symm).symm

/-- If no block gets lighter and the list keeps its weight, every block does. -/
theorem weight_mapBlocks (w : α → Nat) (h : ∀ c, (c.map w).sum ≤ ((f c).map w).sum) :
    (l.map w).sum ≤ ((mapBlocks blank f [] l).map w).sum ∧
      (((mapBlocks blank f [] l).map w).sum ≤ (l.map w).sum →
        ∀ c ∈ blocks blank [] l, ((f c).map w).sum = (c.map w).sum) := by
  have hblock : ∀ b : List α, (b.map w).sum ≤ ((if b = [] then [] else f b).map w).sum := by
    intro b
    split
    · rename_i hempty
      simp [hempty]
    · exact h b
  induction l using blockInduction blank with
  | last b hb =>
    have hgrow := hblock b
    rw [mapBlocks_nonblank hb, List.nil_append]
    refine ⟨hgrow, fun hle c hc => ?_⟩
    obtain ⟨rfl, hne⟩ := (mem_blocks_nonblank hb).mp hc
    rw [if_neg hne] at hle
    exact Nat.le_antisymm hle (h c)
  | cut b x l hb hx ih =>
    have hgrow := hblock b
    rw [mapBlocks_cut hb hx, List.nil_append]
    simp only [List.map_append, List.map_cons, List.sum_append, List.sum_cons]
    refine ⟨by omega, fun hle c hc => ?_⟩
    rcases (mem_blocks_cut hb hx).mp hc with ⟨rfl, hne⟩ | hc
    · rw [if_neg hne] at hle
      have hc := h c
      omega
    · exact ih.2 (by omega) c hc

end

/-! ## Lists with elements put in -/

/-- The second list is the first with elements put in that satisfy `P`. -/
inductive Woven (P : α → Prop) : List α → List α → Prop
  | nil : Woven P [] []
  | keep (x : α) {l l' : List α} : Woven P l l' → Woven P (x :: l) (x :: l')
  | insert {x : α} {l l' : List α} : P x → Woven P l l' → Woven P l (x :: l')

namespace Woven

variable {P : α → Prop} {k k' l l' : List α}

theorem refl (P : α → Prop) (l : List α) : Woven P l l := by
  induction l with
  | nil => exact nil
  | cons x l ih => exact keep x ih

theorem append (hk : Woven P k k') (hl : Woven P l l') : Woven P (k ++ l) (k' ++ l') := by
  induction hk with
  | nil => exact hl
  | keep x _ ih => exact keep x ih
  | insert hx _ ih => exact insert hx ih

/-- Elements put in at the end. -/
theorem of_append (l : List α) {m : List α} (hm : ∀ x ∈ m, P x) : Woven P l (l ++ m) := by
  induction l with
  | nil =>
    induction m with
    | nil => exact nil
    | cons x m ih =>
      obtain ⟨hx, hm⟩ := List.forall_mem_cons.mp hm
      exact insert hx (ih hm)
  | cons x l ih => exact keep x ih

/-- What was there is there. -/
theorem mem (h : Woven P l l') {x : α} (hx : x ∈ l) : x ∈ l' := by
  induction h with
  | nil => exact hx
  | keep y _ ih =>
    rcases List.mem_cons.mp hx with rfl | hx
    · exact List.mem_cons_self
    · exact List.mem_cons_of_mem _ (ih hx)
  | insert _ _ ih => exact List.mem_cons_of_mem _ (ih hx)

end Woven

/-! ## Pieces in order -/

/-- The pieces stand in `out`, one behind the other. -/
def InOrder : List (List α) → List α → Prop
  | [], _ => True
  | piece :: pieces, out => ∃ before rest, out = before ++ (piece ++ rest) ∧ InOrder pieces rest

theorem InOrder.append_left {pieces : List (List α)} {out : List α} (h : InOrder pieces out)
    (before : List α) : InOrder pieces (before ++ out) := by
  cases pieces with
  | nil => trivial
  | cons piece pieces =>
    obtain ⟨between, rest, rfl, hrest⟩ := h
    exact ⟨before ++ between, rest, by rw [List.append_assoc], hrest⟩

/-- Pieces that are the beginnings of other pieces. -/
theorem inOrder_of_prefixes {pieces pieces' : List (List α)}
    (h : List.SublistForall₂ (· <+: ·) pieces pieces') : InOrder pieces pieces'.flatten := by
  induction h with
  | nil => trivial
  | cons hpiece _ ih =>
    obtain ⟨rest, rfl⟩ := hpiece
    exact ⟨[], rest ++ _, by simp, ih.append_left rest⟩
  | cons_right _ ih => exact ih.append_left _

theorem InOrder.map {β : Type} (f : α → β) {pieces : List (List α)} {out : List α}
    (h : InOrder pieces out) : InOrder (pieces.map (List.map f)) (out.map f) := by
  induction pieces generalizing out with
  | nil => trivial
  | cons piece pieces ih =>
    obtain ⟨before, rest, rfl, hrest⟩ := h
    exact ⟨before.map f, rest.map f, by simp, ih hrest⟩

/-- What the pieces are made of is a part of `out`. -/
theorem InOrder.sublist {pieces : List (List α)} {out : List α} (h : InOrder pieces out) :
    pieces.flatten.Sublist out := by
  induction pieces generalizing out with
  | nil => exact List.nil_sublist out
  | cons piece pieces ih =>
    obtain ⟨before, rest, rfl, hrest⟩ := h
    rw [List.flatten_cons]
    exact ((List.Sublist.refl piece).append (ih hrest)).trans (List.sublist_append_right _ _)

theorem prefixes_refl (pieces : List (List α)) : List.SublistForall₂ (· <+: ·) pieces pieces := by
  induction pieces with
  | nil => exact .nil
  | cons piece pieces ih => exact .cons (List.prefix_refl piece) ih

theorem prefixes_append {p p' q q' : List (List α)} (hp : List.SublistForall₂ (· <+: ·) p p')
    (hq : List.SublistForall₂ (· <+: ·) q q') :
    List.SublistForall₂ (· <+: ·) (p ++ q) (p' ++ q') := by
  induction hp with
  | @nil l =>
    induction l with
    | nil => exact hq
    | cons x l ih => exact .cons_right ih
  | cons hpiece _ ih => exact .cons hpiece ih
  | cons_right _ ih => exact .cons_right ih

end AmigaFleet.Lib

import Mathlib.Data.List.Nodup
import Mathlib.Data.List.Perm.Basic

/-!
# Exclusive tenants of slots

A pool of slots is shared by tenants: running programs, pending messages,
requests half way through.  `Tenancy slot Holds ts` says that the tenants in
`ts` sit in pairwise different slots and that each of them `Holds` its slot.
The rules below are the moves a pool makes.

* `Tenancy.perm`: a tenant changes its role, the list is only rearranged.
* `Tenancy.sublist`: some tenants leave.
* `Tenancy.cons`: one tenant enters a slot that nobody holds.
* `Tenancy.leave`: the head tenant leaves, and every other tenant sits in
  another slot than it.
* `Tenancy.imp`: `Holds` changes, but not for the tenants at hand.
-/

namespace AmigaFleet.Lib

variable {S T : Type} {slot : T → S} {Holds Holds' : T → Prop}

/-- Pairwise different slots, each held by its tenant. -/
structure Tenancy (slot : T → S) (Holds : T → Prop) (ts : List T) : Prop where
  nodup : (ts.map slot).Nodup
  holds : ∀ t ∈ ts, Holds t

theorem Tenancy.nil : Tenancy slot Holds [] := ⟨List.nodup_nil, by simp⟩

theorem Tenancy.perm {ts us : List T} (h : Tenancy slot Holds ts) (hp : us.Perm ts) :
    Tenancy slot Holds us where
  nodup := (hp.map slot).nodup_iff.mpr h.nodup
  holds := fun t ht => h.holds t (hp.mem_iff.mp ht)

theorem Tenancy.sublist {ts us : List T} (h : Tenancy slot Holds ts) (hs : us.Sublist ts) :
    Tenancy slot Holds us where
  nodup := h.nodup.sublist (hs.map slot)
  holds := fun t ht => h.holds t (hs.subset ht)

theorem Tenancy.imp {ts : List T} (h : Tenancy slot Holds ts)
    (hi : ∀ t ∈ ts, Holds t → Holds' t) : Tenancy slot Holds' ts where
  nodup := h.nodup
  holds := fun t ht => hi t ht (h.holds t ht)

theorem Tenancy.cons {t : T} {ts : List T} (h : Tenancy slot Holds ts)
    (hfree : ∀ u ∈ ts, slot u ≠ slot t) (ht : Holds t) : Tenancy slot Holds (t :: ts) where
  nodup := by
    rw [List.map_cons, List.nodup_cons]
    refine ⟨?_, h.nodup⟩
    rintro hmem
    obtain ⟨u, hu, hus⟩ := List.mem_map.mp hmem
    exact hfree u hu hus
  holds := by
    intro u hu
    rcases List.mem_cons.mp hu with rfl | hu
    · exact ht
    · exact h.holds u hu

/-- When the head tenant leaves, nobody else sits in its slot. -/
theorem Tenancy.leave {t : T} {ts : List T} (h : Tenancy slot Holds (t :: ts)) :
    Tenancy slot Holds ts ∧ ∀ u ∈ ts, slot u ≠ slot t := by
  have hn := h.nodup
  rw [List.map_cons, List.nodup_cons] at hn
  refine ⟨⟨hn.2, fun u hu => h.holds u (List.mem_cons_of_mem _ hu)⟩, ?_⟩
  intro u hu hut
  exact hn.1 (List.mem_map.mpr ⟨u, hu, hut⟩)

/-- The tenants of a prefix sit in other slots than those of the rest. -/
theorem Tenancy.ne_of_append {ts us : List T} (h : Tenancy slot Holds (ts ++ us)) {t u : T}
    (ht : t ∈ ts) (hu : u ∈ us) : slot t ≠ slot u := by
  have hn := h.nodup
  rw [List.map_append, List.nodup_append] at hn
  exact hn.2.2 _ (List.mem_map_of_mem ht) _ (List.mem_map_of_mem hu)

/-- When no slot is held, there are no tenants. -/
theorem Tenancy.eq_nil {ts : List T} (h : Tenancy slot Holds ts) (hnone : ∀ t, ¬ Holds t) :
    ts = [] := by
  cases ts with
  | nil => rfl
  | cons t ts => exact absurd (h.holds t (List.mem_cons_self ..)) (hnone t)

end AmigaFleet.Lib

import Mathlib.Data.List.Nodup

/-!
# Dictionaries in insertion order

A dictionary as a list of pairs, in the order in which its keys first came in.
`Dict.set` replaces the value of a key that is there and appends one that is
not.

* The keys of a dictionary built by `set` are distinct (`nodup_keys_set`).
* `mem_keys_set`, `mem_set` and `length_set_le` say what a `set` adds.

`Registry` is a dictionary together with the fact that its keys are distinct;
`Registry.get_set` and `Registry.get_pop` say what a look-up finds in it.
-/

namespace AmigaFleet.Lib

variable {κ β : Type} [DecidableEq κ]

abbrev Dict (κ β : Type) : Type := List (κ × β)

namespace Dict

def keys (d : Dict κ β) : List κ := d.map Prod.fst

/-- `d[k] = v` -/
def set (d : Dict κ β) (k : κ) (v : β) : Dict κ β :=
  match d with
  | [] => [(k, v)]
  | (k', v') :: rest => if k' = k then (k, v) :: rest else (k', v') :: set rest k v

/-- `k in d` -/
def has (d : Dict κ β) (k : κ) : Bool := k ∈ keys d

theorem has_iff {d : Dict κ β} {k : κ} : has d k = true ↔ k ∈ keys d := by
  simp [has]

theorem mem_keys_set {d : Dict κ β} {k k' : κ} {v : β} :
    k' ∈ keys (set d k v) ↔ k' = k ∨ k' ∈ keys d := by
  induction d with
  | nil => simp [set, keys]
  | cons entry rest ih =>
    obtain ⟨key, value⟩ := entry
    unfold set
    split
    · rename_i hkey
      simp [keys, hkey]
    · simp only [keys, List.map_cons, List.mem_cons] at ih ⊢
      rw [ih]
      simp only [or_left_comm]

theorem nodup_keys_set {d : Dict κ β} (h : (keys d).Nodup) (k : κ) (v : β) :
    (keys (set d k v)).Nodup := by
  induction d with
  | nil => simp [set, keys]
  | cons entry rest ih =>
    obtain ⟨key, value⟩ := entry
    simp only [keys, List.map_cons, List.nodup_cons] at h
    unfold set
    split
    · rename_i hkey
      subst hkey
      simpa [keys] using h
    · rename_i hkey
      simp only [keys, List.map_cons, List.nodup_cons]
      refine ⟨fun hmem => ?_, ih h.2⟩
      rcases mem_keys_set.mp hmem with hsame | hold
      · exact hkey hsame
      · exact h.1 hold

theorem mem_set {d : Dict κ β} {k : κ} {v : β} {e : κ × β} (h : e ∈ set d k v) :
    e = (k, v) ∨ e ∈ d := by
  induction d with
  | nil => exact .inl (List.mem_singleton.mp h)
  | cons entry rest ih =>
    obtain ⟨key, value⟩ := entry
    unfold set at h
    split at h
    · rcases List.mem_cons.mp h with heq | hrest
      · exact .inl heq
      · exact .inr (List.mem_cons_of_mem _ hrest)
    · rcases List.mem_cons.mp h with heq | hset
      · exact .inr (heq ▸ List.mem_cons_self)
      · exact (ih hset).imp_right (List.mem_cons_of_mem _)

theorem length_set_le (d : Dict κ β) (k : κ) (v : β) : (set d k v).length ≤ d.length + 1 := by
  induction d with
  | nil => simp [set]
  | cons entry rest ih =>
    obtain ⟨key, value⟩ := entry
    unfold set
    split
    · simp
    · simp only [List.length_cons]
      omega

/-- A new key comes last. -/
theorem set_of_not_mem {d : Dict κ β} {k : κ} (h : k ∉ keys d) (v : β) :
    set d k v = d ++ [(k, v)] := by
  induction d with
  | nil => rfl
  | cons entry rest ih =>
    obtain ⟨key, value⟩ := entry
    simp only [keys, List.map_cons, List.mem_cons, not_or] at h
    unfold set
    rw [if_neg (Ne.symm h.1), ih h.2]
    rfl

/-- `d.get(k)` -/
def get (d : Dict κ β) (k : κ) : Option β := (d.find? fun e => e.1 = k).map Prod.snd

/-- `d.pop(k, None)`, where the keys are distinct. -/
def pop (d : Dict κ β) (k : κ) : Dict κ β := d.filter fun e => e.1 ≠ k

theorem nodup_keys_pop {d : Dict κ β} (h : (keys d).Nodup) (k : κ) : (keys (pop d k)).Nodup :=
  h.sublist (List.filter_sublist.map _)

theorem get_set (d : Dict κ β) (k k' : κ) (v : β) :
    get (set d k v) k' = if k = k' then some v else get d k' := by
  induction d with
  | nil => by_cases h : k = k' <;> simp [set, get, h]
  | cons entry rest ih =>
    obtain ⟨key, value⟩ := entry
    unfold set
    by_cases hkey : key = k
    · subst hkey
      by_cases h : key = k' <;> simp [get, h]
    · rw [if_neg hkey]
      by_cases h : key = k'
      · subst h
        simp [get, Ne.symm hkey]
      · simpa [get, h] using ih

theorem get_pop (d : Dict κ β) (k k' : κ) :
    get (pop d k) k' = if k = k' then none else get d k' := by
  unfold get pop
  rw [List.find?_filter]
  by_cases h : k = k'
  · subst h
    rw [if_pos rfl, List.find?_eq_none.mpr (by simp)]
    rfl
  · rw [if_neg h]
    refine congrArg (fun f => (d.find? f).map Prod.snd) (funext fun e => ?_)
    by_cases he : e.1 = k'
    · simp [he, Ne.symm h]
    · simp [he]

theorem mem_of_get {d : Dict κ β} {k : κ} {v : β} (h : get d k = some v) : (k, v) ∈ d := by
  obtain ⟨e, he, rfl⟩ := Option.map_eq_some_iff.mp h
  obtain rfl : e.1 = k := by simpa using List.find?_some he
  exact List.mem_of_find?_eq_some he

end Dict

/-- A dictionary with distinct keys. -/
structure Registry (κ β : Type) [DecidableEq κ] where
  entries : Dict κ β
  nodup : (Dict.keys entries).Nodup

namespace Registry

def empty : Registry κ β := ⟨[], List.nodup_nil⟩

def get (r : Registry κ β) (k : κ) : Option β := Dict.get r.entries k

def set (r : Registry κ β) (k : κ) (v : β) : Registry κ β :=
  ⟨Dict.set r.entries k v, Dict.nodup_keys_set r.nodup k v⟩

def pop (r : Registry κ β) (k : κ) : Registry κ β :=
  ⟨Dict.pop r.entries k, Dict.nodup_keys_pop r.nodup k⟩

theorem get_set (r : Registry κ β) (k k' : κ) (v : β) :
    (r.set k v).get k' = if k = k' then some v else r.get k' := Dict.get_set r.entries k k' v

theorem get_pop (r : Registry κ β) (k k' : κ) :
    (r.pop k).get k' = if k = k' then none else r.get k' := Dict.get_pop r.entries k k'

theorem mem_of_get {r : Registry κ β} {k : κ} {v : β} (h : r.get k = some v) :
    (k, v) ∈ r.entries := Dict.mem_of_get h

end Registry

end AmigaFleet.Lib

import Mathlib.Data.List.Basic

/-!
# Regular expressions with backtracking

A pattern lists the ways in which it matches in front of a text, the one that a
backtracking matcher finds first in front.  A search takes the first of them at
the first place that has one.

`Leads` are the rules for the question whether there is a match at all; the
`hits_seq` lemmas give the first match where a run of characters can only be
taken as a whole.  `Stays` says that what stands behind a text makes no
difference, and `searchIn` are the matches that begin in a part of a text.
-/

namespace AmigaFleet.Lib

universe u

variable {α : Type u}

/-- A regular expression. -/
inductive Pattern (α : Type u) where
  | empty
  /-- one character of a class -/
  | one (p : α → Bool)
  /-- the characters of a class, as many as there are, or fewer -/
  | many (p : α → Bool)
  | seq (a b : Pattern α)
  /-- `a|b` -/
  | alt (a b : Pattern α)
  /-- `\b` -/
  | boundary (word : α → Bool)
  | group (a : Pattern α)

namespace Pattern

/-- The patterns one after another. -/
def all (as : List (Pattern α)) : Pattern α := as.foldr seq empty

def lit [DecidableEq α] (w : List α) : Pattern α := all (w.map fun c => one (· = c))

/-- `p+` -/
def plus (p : α → Bool) : Pattern α := seq (one p) (many p)

/-- `a?` -/
def opt (a : Pattern α) : Pattern α := alt a empty

/-- A match: what it takes, what its groups take, and the text behind it. -/
structure Hit (α : Type u) where
  text : List α
  groups : List (List α)
  rest : List α
deriving DecidableEq, Repr

/-- A match with another one behind it. -/
def Hit.append (g h : Hit α) : Hit α := ⟨g.text ++ h.text, g.groups ++ h.groups, h.rest⟩

def manyHits (p : α → Bool) : List α → List (Hit α)
  | [] => [⟨[], [], []⟩]
  | c :: s =>
    (if p c then (manyHits p s).map (Hit.append ⟨[c], [], s⟩) else []) ++ [⟨[], [], c :: s⟩]

/-- The character in front of what comes behind `text`. -/
def last (prev : Option α) (text : List α) : Option α := text.getLast?.or prev

/-- The matches in front of a text; `prev` is the character before it. -/
def hits : Pattern α → Option α → List α → List (Hit α)
  | .empty, _, s => [⟨[], [], s⟩]
  | .one _, _, [] => []
  | .one p, _, c :: s => if p c then [⟨[c], [], s⟩] else []
  | .many p, _, s => manyHits p s
  | .seq a b, prev, s =>
    (a.hits prev s).flatMap fun h => (b.hits (last prev h.text) h.rest).map h.append
  | .alt a b, prev, s => a.hits prev s ++ b.hits prev s
  | .boundary word, prev, s => if prev.any word != s.head?.any word then [⟨[], [], s⟩] else []
  | .group a, prev, s => (a.hits prev s).map fun h => { h with groups := h.text :: h.groups }

section Hits

variable (prev : Option α) (s : List α)

theorem hits_empty : (empty : Pattern α).hits prev s = [⟨[], [], s⟩] := rfl

theorem hits_one_nil (p : α → Bool) : (one p).hits prev [] = [] := rfl

theorem hits_one_cons (p : α → Bool) (c : α) :
    (one p).hits prev (c :: s) = if p c then [⟨[c], [], s⟩] else [] := rfl

theorem hits_many (p : α → Bool) : (many p).hits prev s = manyHits p s := rfl

theorem hits_boundary (word : α → Bool) : (boundary word).hits prev s =
    if prev.any word != s.head?.any word then [⟨[], [], s⟩] else [] := rfl

theorem hits_seq (a b : Pattern α) : (seq a b).hits prev s =
    (a.hits prev s).flatMap fun h => (b.hits (last prev h.text) h.rest).map h.append := rfl

theorem hits_alt (a b : Pattern α) : (alt a b).hits prev s = a.hits prev s ++ b.hits prev s := rfl

theorem hits_group (a : Pattern α) : (group a).hits prev s =
    (a.hits prev s).map fun h => { h with groups := h.text :: h.groups } := rfl

end Hits

/-- The first match in a text, with the character before it. -/
def searchFrom (a : Pattern α) (prev : Option α) : List α → Option (Hit α)
  | [] => (a.hits prev []).head?
  | c :: s =>
    match (a.hits prev (c :: s)).head? with
    | some h => some h
    | none => a.searchFrom (some c) s

def search (a : Pattern α) (s : List α) : Option (Hit α) := a.searchFrom none s

/-! ## Whether there is a match -/

@[simp] theorem last_nil (prev : Option α) : last prev [] = prev := rfl

@[simp] theorem last_append (prev : Option α) (s t : List α) :
    last prev (s ++ t) = last (last prev s) t := by
  unfold last
  rw [List.getLast?_append]
  cases t.getLast? <;> rfl

@[simp] theorem last_cons (prev : Option α) (c : α) (t : List α) :
    last prev (c :: t) = last (some c) t := last_append prev [c] t

/-- Some match leads to a place where `P` holds. -/
def Leads (a : Pattern α) (prev : Option α) (s : List α) (P : Option α → List α → Prop) : Prop :=
  ∃ h ∈ a.hits prev s, P (last prev h.text) h.rest

@[simp] theorem leads_empty {prev : Option α} {s : List α} {P : Option α → List α → Prop} :
    Leads empty prev s P ↔ P prev s := by
  simp [Leads, hits_empty]

@[simp] theorem leads_one {p : α → Bool} {prev : Option α} {s : List α}
    {P : Option α → List α → Prop} :
    Leads (one p) prev s P ↔ ∃ c r, s = c :: r ∧ p c = true ∧ P (some c) r := by
  cases s with
  | nil => simp [Leads, hits_one_nil]
  | cons c s =>
    by_cases hc : p c = true
    · simp [Leads, hits_one_cons, hc, last]
    · simp [Leads, hits_one_cons, hc]

@[simp] theorem leads_seq {a b : Pattern α} {prev : Option α} {s : List α}
    {P : Option α → List α → Prop} :
    Leads (seq a b) prev s P ↔ Leads a prev s fun prev' s' => Leads b prev' s' P := by
  simp only [Leads, hits_seq, List.mem_flatMap, List.mem_map]
  constructor
  · rintro ⟨_, ⟨h, ha, g, hb, rfl⟩, hP⟩
    exact ⟨h, ha, g, hb, by simpa [Hit.append] using hP⟩
  · rintro ⟨h, ha, g, hb, hP⟩
    exact ⟨_, ⟨h, ha, g, hb, rfl⟩, by simpa [Hit.append] using hP⟩

@[simp] theorem leads_alt {a b : Pattern α} {prev : Option α} {s : List α}
    {P : Option α → List α → Prop} :
    Leads (alt a b) prev s P ↔ Leads a prev s P ∨ Leads b prev s P := by
  simp only [Leads, hits_alt, List.mem_append, or_and_right, exists_or]

@[simp] theorem leads_group {a : Pattern α} {prev : Option α} {s : List α}
    {P : Option α → List α → Prop} : Leads (group a) prev s P ↔ Leads a prev s P := by
  simp [Leads, hits_group]

@[simp] theorem leads_boundary {word : α → Bool} {prev : Option α} {s : List α}
    {P : Option α → List α → Prop} :
    Leads (boundary word) prev s P ↔ (prev.any word != s.head?.any word) = true ∧ P prev s := by
  unfold Leads
  rw [hits_boundary]
  split <;> simp_all

theorem leads_many {p : α → Bool} {prev : Option α} {s : List α} {P : Option α → List α → Prop} :
    Leads (many p) prev s P ↔
      ∃ t r, s = t ++ r ∧ (∀ c ∈ t, p c = true) ∧ P (last prev t) r := by
  simp only [Leads, hits_many]
  induction s generalizing prev with
  | nil => simp [manyHits]
  | cons c s ih =>
    rw [manyHits]
    constructor
    · rintro ⟨h, hh, hP⟩
      rcases List.mem_append.mp hh with hmore | hstop
      · split at hmore
        · rename_i hc
          obtain ⟨g, hg, rfl⟩ := List.mem_map.mp hmore
          obtain ⟨t, r, rfl, ht, hr⟩ := ih.mp ⟨g, hg, by simpa [Hit.append] using hP⟩
          exact ⟨c :: t, r, rfl, List.forall_mem_cons.mpr ⟨hc, ht⟩, by simpa using hr⟩
        · cases hmore
      · obtain rfl := List.mem_singleton.mp hstop
        exact ⟨[], c :: s, rfl, by simp, hP⟩
    · rintro ⟨t, r, hs, ht, hP⟩
      cases t with
      | nil =>
        obtain rfl : c :: s = r := hs
        exact ⟨⟨[], [], c :: s⟩, by simp, hP⟩
      | cons d t =>
        obtain ⟨rfl, rfl⟩ := List.cons_eq_cons.mp hs
        obtain ⟨hc, ht⟩ := List.forall_mem_cons.mp ht
        obtain ⟨g, hg, hr⟩ := ih.mpr ⟨t, r, rfl, ht, by simpa using hP⟩
        refine ⟨Hit.append ⟨[c], [], t ++ r⟩ g, ?_, by simpa [Hit.append] using hr⟩
        rw [if_pos hc]
        exact List.mem_append_left _ (List.mem_map_of_mem hg)

theorem leads_plus {p : α → Bool} {prev : Option α} {s : List α} {P : Option α → List α → Prop} :
    Leads (plus p) prev s P ↔
      ∃ t r, s = t ++ r ∧ t ≠ [] ∧ (∀ c ∈ t, p c = true) ∧ P (last prev t) r := by
  simp only [plus, leads_seq, leads_one, leads_many]
  constructor
  · rintro ⟨c, _, rfl, hc, t, r, rfl, ht, hP⟩
    exact ⟨c :: t, r, rfl, by simp, List.forall_mem_cons.mpr ⟨hc, ht⟩, by simpa using hP⟩
  · rintro ⟨t, r, rfl, hne, ht, hP⟩
    cases t with
    | nil => exact absurd rfl hne
    | cons c t =>
      obtain ⟨hc, ht⟩ := List.forall_mem_cons.mp ht
      exact ⟨c, t ++ r, rfl, hc, t, r, rfl, ht, by simpa using hP⟩

theorem leads_lit [DecidableEq α] {w : List α} {prev : Option α} {s : List α}
    {P : Option α → List α → Prop} :
    Leads (lit w) prev s P ↔ ∃ r, s = w ++ r ∧ P (last prev w) r := by
  induction w generalizing prev s with
  | nil => simp [lit, all]
  | cons c w ih =>
    have hcons : lit (c :: w) = seq (one (· = c)) (lit w) := rfl
    simp only [hcons, leads_seq, leads_one, ih, decide_eq_true_eq]
    constructor
    · rintro ⟨_, _, rfl, rfl, r, rfl, hP⟩
      exact ⟨r, rfl, by simpa using hP⟩
    · rintro ⟨r, rfl, hP⟩
      exact ⟨c, w ++ r, rfl, rfl, r, rfl, by simpa using hP⟩

/-- A search finds a match exactly if there is one somewhere. -/
theorem searchFrom_isSome (a : Pattern α) (prev : Option α) (s : List α) :
    (a.searchFrom prev s).isSome = true ↔
      ∃ t r, s = t ++ r ∧ Leads a (last prev t) r fun _ _ => True := by
  induction s generalizing prev with
  | nil =>
    simp only [searchFrom, Leads, List.nil_eq, List.append_eq_nil_iff, and_true]
    constructor
    · intro h
      obtain ⟨hit, hhit⟩ := Option.isSome_iff_exists.mp h
      exact ⟨[], [], ⟨rfl, rfl⟩, hit, List.mem_of_mem_head? hhit⟩
    · rintro ⟨t, r, ⟨rfl, rfl⟩, hit, hhit⟩
      rw [List.isSome_head?]
      exact List.ne_nil_of_mem hhit
  | cons c s ih =>
    have hhere : (a.hits prev (c :: s)).head?.isSome = true ↔
        Leads a prev (c :: s) fun _ _ => True := by
      simp only [Leads, List.isSome_head?, and_true]
      exact ⟨fun hne => List.exists_mem_of_ne_nil _ hne, fun ⟨_, h⟩ => List.ne_nil_of_mem h⟩
    rw [searchFrom]
    cases hhead : (a.hits prev (c :: s)).head? with
    | some h =>
      rw [hhead] at hhere
      exact iff_of_true rfl ⟨[], c :: s, rfl, hhere.mp rfl⟩
    | none =>
      rw [hhead] at hhere
      refine (ih (some c)).trans ⟨?_, ?_⟩
      · rintro ⟨t, r, rfl, hleads⟩
        exact ⟨c :: t, r, rfl, by simpa using hleads⟩
      · rintro ⟨t, r, hs, hleads⟩
        cases t with
        | nil =>
          obtain rfl : c :: s = r := hs
          cases hhere.mpr hleads
        | cons d t =>
          obtain ⟨rfl, rfl⟩ := List.cons_eq_cons.mp hs
          exact ⟨t, r, rfl, by simpa using hleads⟩

/-! ## What a match takes -/

theorem mem_hits_seq {a b : Pattern α} {prev : Option α} {s : List α} {h : Hit α} :
    h ∈ (seq a b).hits prev s ↔ ∃ g ∈ a.hits prev s, ∃ k ∈ b.hits (last prev g.text) g.rest,
      g.append k = h := by
  simp only [hits_seq, List.mem_flatMap, List.mem_map]

theorem mem_manyHits {p : α → Bool} {s : List α} {h : Hit α} (hh : h ∈ manyHits p s) :
    s = h.text ++ h.rest ∧ h.groups = [] ∧ ∀ c ∈ h.text, p c = true := by
  induction s generalizing h with
  | nil =>
    obtain rfl := List.mem_singleton.mp hh
    simp
  | cons c s ih =>
    rw [manyHits] at hh
    rcases List.mem_append.mp hh with hmore | hstop
    · split at hmore
      · rename_i hc
        obtain ⟨g, hg, rfl⟩ := List.mem_map.mp hmore
        obtain ⟨hs, hgroups, htext⟩ := ih hg
        refine ⟨congrArg (c :: ·) hs, hgroups, ?_⟩
        exact List.forall_mem_cons.mpr ⟨hc, htext⟩
      · cases hmore
    · obtain rfl := List.mem_singleton.mp hstop
      simp

theorem mem_hits_plus {p : α → Bool} {prev : Option α} {s : List α} {h : Hit α}
    (hh : h ∈ (plus p).hits prev s) :
    s = h.text ++ h.rest ∧ h.groups = [] ∧ h.text ≠ [] ∧ ∀ c ∈ h.text, p c = true := by
  cases s with
  | nil => cases hh
  | cons c s =>
    obtain ⟨g, hg, k, hk, rfl⟩ := mem_hits_seq.mp hh
    rw [hits_one_cons] at hg
    split at hg
    · rename_i hc
      obtain rfl := List.mem_singleton.mp hg
      obtain ⟨hs, hgroups, htext⟩ := mem_manyHits hk
      refine ⟨congrArg (c :: ·) hs, hgroups, List.cons_ne_nil _ _, ?_⟩
      exact List.forall_mem_cons.mpr ⟨hc, htext⟩
    · cases hg

theorem mem_hits_group_plus {p : α → Bool} {prev : Option α} {s : List α} {h : Hit α}
    (hh : h ∈ (group (plus p)).hits prev s) :
    s = h.text ++ h.rest ∧ h.groups = [h.text] ∧ h.text ≠ [] ∧ ∀ c ∈ h.text, p c = true := by
  obtain ⟨g, hg, rfl⟩ := List.mem_map.mp hh
  obtain ⟨hs, hgroups, hne, htext⟩ := mem_hits_plus hg
  refine ⟨hs, ?_, hne, htext⟩
  show g.text :: g.groups = [g.text]
  rw [hgroups]

/-! ## The first match -/

/-- `b` has no match in front of a character of `t`. -/
def Bars (b : Pattern α) (t : List α) : Prop := ∀ c ∈ t, ∀ prev s, b.hits prev (c :: s) = []

theorem bars_one {q : α → Bool} {t : List α} (h : ∀ c ∈ t, q c = false) : (one q).Bars t := by
  intro c hc prev s
  simp [hits_one_cons, h c hc]

theorem Bars.seq {a : Pattern α} {t : List α} (h : a.Bars t) (b : Pattern α) :
    (Pattern.seq a b).Bars t := by
  intro c hc prev s
  simp [hits_seq, h c hc prev s]

theorem Bars.boundary_seq {a : Pattern α} {t : List α} (h : a.Bars t) (word : α → Bool) :
    (Pattern.seq (boundary word) a).Bars t := by
  intro c hc prev s
  rw [hits_seq, hits_boundary]
  split
  · rw [List.flatMap_singleton, h c hc]
    rfl
  · rfl

theorem Bars.group {a : Pattern α} {t : List α} (h : a.Bars t) : (Pattern.group a).Bars t := by
  intro c hc prev s
  simp [hits_group, h c hc prev s]

theorem Bars.opt_seq {a b : Pattern α} {t : List α} (ha : a.Bars t) (hb : b.Bars t) :
    (Pattern.seq (opt a) b).Bars t := by
  intro c hc prev s
  simp [opt, hits_seq, hits_alt, hits_empty, ha c hc prev s, hb c hc prev s]

theorem bars_plus {q : α → Bool} {t : List α} (h : ∀ c ∈ t, q c = false) : (plus q).Bars t :=
  (bars_one h).seq _

theorem bars_lit [DecidableEq α] {w t : List α} (hw : w ≠ []) (h : ∀ c ∈ t, w.head? ≠ some c) :
    (lit w).Bars t := by
  cases w with
  | nil => exact absurd rfl hw
  | cons d w =>
    refine (bars_one fun c hc => ?_).seq _
    have hne : c ≠ d := by
      rintro rfl
      exact h c hc rfl
    simp [hne]

/-- A run of characters is taken as a whole first; every other match stops in
front of one of them. -/
theorem manyHits_append {p : α → Bool} {t r : List α} (ht : ∀ c ∈ t, p c = true)
    (hr : ∀ c ∈ r.head?, p c = false) :
    ∃ shorter, manyHits p (t ++ r) = ⟨t, [], r⟩ :: shorter ∧
      ∀ g ∈ shorter, ∃ c s, g.rest = c :: s ∧ c ∈ t := by
  induction t with
  | nil =>
    refine ⟨[], ?_, by simp⟩
    cases r with
    | nil => rfl
    | cons c r => simp [manyHits, hr c rfl]
  | cons c t ih =>
    obtain ⟨hc, ht⟩ := List.forall_mem_cons.mp ht
    obtain ⟨shorter, heq, hshorter⟩ := ih ht
    refine ⟨shorter.map (Hit.append ⟨[c], [], t ++ r⟩) ++ [⟨[], [], c :: (t ++ r)⟩], ?_, ?_⟩
    · rw [List.cons_append, manyHits, if_pos hc, heq]
      rfl
    · intro g hg
      rcases List.mem_append.mp hg with hmore | hstop
      · obtain ⟨g, hshort, rfl⟩ := List.mem_map.mp hmore
        obtain ⟨d, s, hrest, hd⟩ := hshorter g hshort
        exact ⟨d, s, hrest, List.mem_cons_of_mem _ hd⟩
      · obtain rfl := List.mem_singleton.mp hstop
        exact ⟨c, t ++ r, rfl, List.mem_cons_self⟩

theorem hits_plus_append {p : α → Bool} {t r : List α} (hne : t ≠ []) (ht : ∀ c ∈ t, p c = true)
    (hr : ∀ c ∈ r.head?, p c = false) (prev : Option α) :
    ∃ shorter, (plus p).hits prev (t ++ r) = ⟨t, [], r⟩ :: shorter ∧
      ∀ g ∈ shorter, ∃ c s, g.rest = c :: s ∧ c ∈ t := by
  cases t with
  | nil => exact absurd rfl hne
  | cons c t =>
    obtain ⟨hc, ht⟩ := List.forall_mem_cons.mp ht
    obtain ⟨shorter, heq, hshorter⟩ := manyHits_append ht hr
    refine ⟨shorter.map (Hit.append ⟨[c], [], t ++ r⟩), ?_, ?_⟩
    · simp only [plus, hits_seq, hits_one_cons, hits_many, List.cons_append, if_pos hc,
        List.flatMap_singleton, heq]
      rfl
    · intro g hg
      obtain ⟨g, hshort, rfl⟩ := List.mem_map.mp hg
      obtain ⟨d, s, hrest, hd⟩ := hshorter g hshort
      exact ⟨d, s, hrest, List.mem_cons_of_mem _ hd⟩

theorem head?_plus {p : α → Bool} {t r : List α} (hne : t ≠ []) (ht : ∀ c ∈ t, p c = true)
    (hr : ∀ c ∈ r.head?, p c = false) (prev : Option α) :
    ((plus p).hits prev (t ++ r)).head? = some ⟨t, [], r⟩ := by
  obtain ⟨shorter, heq, -⟩ := hits_plus_append hne ht hr prev
  rw [heq]
  rfl

theorem head?_seq {a b : Pattern α} {prev : Option α} {s : List α} {g h : Hit α}
    {l : List (Hit α)} (ha : a.hits prev s = g :: l)
    (hb : (b.hits (last prev g.text) g.rest).head? = some h) :
    ((seq a b).hits prev s).head? = some (g.append h) := by
  rw [hits_seq, ha, List.flatMap_cons, List.head?_append, List.head?_map, hb]
  rfl

/-- If only the first match of `a` can go on, the others count for nothing. -/
theorem hits_seq_of_first {a b : Pattern α} {prev : Option α} {s : List α} {h : Hit α}
    {others : List (Hit α)} (ha : a.hits prev s = h :: others)
    (hb : ∀ g ∈ others, ∀ prev', b.hits prev' g.rest = []) :
    (seq a b).hits prev s = (b.hits (last prev h.text) h.rest).map h.append := by
  rw [hits_seq, ha, List.flatMap_cons, List.flatMap_eq_nil_iff.mpr, List.append_nil]
  intro g hg
  rw [hb g hg, List.map_nil]

theorem hits_seq_plus {p : α → Bool} {b : Pattern α} {t r : List α} (hb : b.Bars t) (hne : t ≠ [])
    (ht : ∀ c ∈ t, p c = true) (hr : ∀ c ∈ r.head?, p c = false) (prev : Option α) :
    (seq (plus p) b).hits prev (t ++ r) =
      (b.hits (last prev t) r).map (Hit.append ⟨t, [], r⟩) := by
  obtain ⟨shorter, heq, hshorter⟩ := hits_plus_append hne ht hr prev
  refine hits_seq_of_first heq fun g hg prev' => ?_
  obtain ⟨c, s, hrest, hc⟩ := hshorter g hg
  rw [hrest]
  exact hb c hc prev' s

theorem hits_seq_group_plus {p : α → Bool} {b : Pattern α} {t r : List α} (hb : b.Bars t)
    (hne : t ≠ []) (ht : ∀ c ∈ t, p c = true) (hr : ∀ c ∈ r.head?, p c = false)
    (prev : Option α) :
    (seq (group (plus p)) b).hits prev (t ++ r) =
      (b.hits (last prev t) r).map (Hit.append ⟨t, [t], r⟩) := by
  obtain ⟨shorter, heq, hshorter⟩ := hits_plus_append hne ht hr prev
  have hgroup : (group (plus p)).hits prev (t ++ r) =
      ⟨t, [t], r⟩ :: shorter.map fun h => { h with groups := h.text :: h.groups } := by
    rw [hits_group, heq]
    rfl
  refine hits_seq_of_first hgroup fun g hg prev' => ?_
  obtain ⟨g, hshort, rfl⟩ := List.mem_map.mp hg
  obtain ⟨c, s, hrest, hc⟩ := hshorter g hshort
  rw [hrest]
  exact hb c hc prev' s

theorem hits_lit [DecidableEq α] (w : List α) (prev : Option α) (s : List α) :
    (lit w).hits prev (w ++ s) = [⟨w, [], s⟩] := by
  induction w generalizing prev with
  | nil => rfl
  | cons c w ih =>
    have hcons : lit (c :: w) = seq (one (· = c)) (lit w) := rfl
    rw [hcons, hits_seq, List.cons_append, hits_one_cons, if_pos (by simp),
      List.flatMap_singleton, ih]
    rfl

theorem hits_seq_lit [DecidableEq α] (w : List α) (b : Pattern α) (prev : Option α) (s : List α) :
    (seq (lit w) b).hits prev (w ++ s) =
      (b.hits (last prev w) s).map (Hit.append ⟨w, [], s⟩) :=
  hits_seq_of_first (hits_lit w prev s) (by simp)

/-- A match in front of the whole text is the one a search finds. -/
theorem search_of_head? {a : Pattern α} {s : List α} {h : Hit α}
    (hhead : (a.hits none s).head? = some h) : a.search s = some h := by
  unfold search
  cases s with
  | nil => exact hhead
  | cons c s => rw [searchFrom, hhead]

/-! ## Texts that go on -/

/-- Every character that the pattern takes has `P`. -/
def Takes (a : Pattern α) (P : α → Prop) : Prop :=
  ∀ prev s, ∀ h ∈ a.hits prev s, s = h.text ++ h.rest ∧ ∀ c ∈ h.text, P c

section Takes

variable {P : α → Prop}

theorem takes_empty : (empty : Pattern α).Takes P := by
  intro prev s h hh
  obtain rfl := List.mem_singleton.mp hh
  simp

theorem takes_one {p : α → Bool} (hp : ∀ c, p c = true → P c) : (one p).Takes P := by
  intro prev s h hh
  cases s with
  | nil => cases hh
  | cons c s =>
    rw [hits_one_cons] at hh
    split at hh
    · rename_i hc
      obtain rfl := List.mem_singleton.mp hh
      simpa using hp c hc
    · cases hh

theorem takes_boundary (word : α → Bool) : (boundary word).Takes P := by
  intro prev s h hh
  rw [hits_boundary] at hh
  split at hh
  · obtain rfl := List.mem_singleton.mp hh
    simp
  · cases hh

theorem takes_many {p : α → Bool} (hp : ∀ c, p c = true → P c) : (many p).Takes P := by
  intro prev s h hh
  obtain ⟨hs, -, htext⟩ := mem_manyHits hh
  exact ⟨hs, fun c hc => hp c (htext c hc)⟩

theorem Takes.seq {a b : Pattern α} (ha : a.Takes P) (hb : b.Takes P) :
    (Pattern.seq a b).Takes P := by
  intro prev s h hh
  obtain ⟨g, hg, k, hk, rfl⟩ := mem_hits_seq.mp hh
  obtain ⟨hs, htext⟩ := ha prev s g hg
  obtain ⟨hrest, hmore⟩ := hb _ _ k hk
  refine ⟨?_, List.forall_mem_append.mpr ⟨htext, hmore⟩⟩
  show s = (g.text ++ k.text) ++ k.rest
  rw [hs, hrest, List.append_assoc, ← hrest]

theorem Takes.alt {a b : Pattern α} (ha : a.Takes P) (hb : b.Takes P) :
    (Pattern.alt a b).Takes P := by
  intro prev s h hh
  rw [hits_alt] at hh
  exact (List.mem_append.mp hh).elim (ha prev s h) (hb prev s h)

theorem takes_all {as : List (Pattern α)} (h : ∀ a ∈ as, a.Takes P) : (all as).Takes P := by
  induction as with
  | nil => exact takes_empty
  | cons a as ih =>
    rw [List.forall_mem_cons] at h
    exact h.1.seq (ih h.2)

/-- What the pattern does not take stays behind the match. -/
theorem Takes.keeps {a : Pattern α} (ha : a.Takes P) {x : α} (hx : ¬ P x) {prev : Option α}
    {t r : List α} {h : Hit α} (hh : h ∈ a.hits prev (t ++ x :: r)) : ∃ t', h.rest = t' ++ x :: r := by
  obtain ⟨hs, htext⟩ := ha _ _ h hh
  rcases List.append_eq_append_iff.mp hs with ⟨w, htext', hr⟩ | ⟨w, -, hrest⟩
  · cases w with
    | nil => exact ⟨[], hr.symm⟩
    | cons c w =>
      obtain ⟨rfl, -⟩ := List.cons_eq_cons.mp hr
      exact absurd (htext x (htext' ▸ List.mem_append_right _ List.mem_cons_self)) hx
  · exact ⟨w, hrest⟩

end Takes

/-- The matches in front of `s` are the same with `more` behind it. -/
def Stays (a : Pattern α) (more : List α) (prev : Option α) (s : List α) : Prop :=
  a.hits prev (s ++ more) = (a.hits prev s).map fun h => { h with rest := h.rest ++ more }

section Stays

variable {more : List α} {prev : Option α} {s : List α}

theorem stays_empty : (empty : Pattern α).Stays more prev s := rfl

theorem stays_boundary (word : α → Bool) (hs : s ≠ []) : (boundary word).Stays more prev s := by
  obtain ⟨c, s, rfl⟩ := List.exists_cons_of_ne_nil hs
  show (if (prev.any word != word c) = true then _ else _) =
    List.map _ (if (prev.any word != word c) = true then _ else _)
  split <;> rfl

/-- `more` does not begin with a character of the class. -/
theorem stays_one {p : α → Bool} (hmore : ∀ c ∈ more.head?, p c = false) :
    (one p).Stays more prev s := by
  unfold Stays
  cases s with
  | nil =>
    cases more with
    | nil => rfl
    | cons c more =>
      rw [List.nil_append, hits_one_cons, hmore c rfl]
      rfl
  | cons c s =>
    rw [List.cons_append, hits_one_cons, hits_one_cons]
    split <;> rfl

theorem stays_many {p : α → Bool}
    (h : (∃ c ∈ s, p c = false) ∨ ∀ c ∈ more.head?, p c = false) : (many p).Stays more prev s := by
  show manyHits p (s ++ more) = (manyHits p s).map _
  induction s with
  | nil =>
    have hmore : ∀ c ∈ more.head?, p c = false := h.resolve_left (by simp)
    cases more with
    | nil => rfl
    | cons c more =>
      have hc : p c = false := hmore c rfl
      simp [manyHits, hc]
  | cons c s ih =>
    rw [List.cons_append, manyHits, manyHits, List.map_append]
    congr 1
    split
    · rename_i hc
      have hrest : (∃ c ∈ s, p c = false) ∨ ∀ c ∈ more.head?, p c = false := by
        refine h.imp_left fun ⟨d, hd, hpd⟩ => ⟨d, (List.mem_cons.mp hd).resolve_left ?_, hpd⟩
        rintro rfl
        rw [hc] at hpd
        cases hpd
      rw [ih hrest, List.map_map, List.map_map]
      rfl
    · rfl

theorem stays_seq {a b : Pattern α} (ha : a.Stays more prev s)
    (hb : ∀ h ∈ a.hits prev s, b.Stays more (last prev h.text) h.rest) :
    (seq a b).Stays more prev s := by
  unfold Stays
  rw [hits_seq, hits_seq, ha, List.flatMap_map, List.map_flatMap]
  refine List.flatMap_congr fun h hh => ?_
  rw [hb h hh, List.map_map, List.map_map]
  rfl

/-- `x` stays behind what `a` takes. -/
theorem Takes.stays_seq {P : α → Prop} {a b : Pattern α} (ha : a.Takes P) {x : α} (hx : ¬ P x)
    {t r : List α} (hstays : a.Stays more prev (t ++ x :: r))
    (hb : ∀ prev' t', b.Stays more prev' (t' ++ x :: r)) :
    (Pattern.seq a b).Stays more prev (t ++ x :: r) := by
  refine Pattern.stays_seq hstays fun h hh => ?_
  obtain ⟨t', hrest⟩ := ha.keeps hx hh
  rw [hrest]
  exact hb _ t'

theorem stays_alt {a b : Pattern α} (ha : a.Stays more prev s) (hb : b.Stays more prev s) :
    (alt a b).Stays more prev s := by
  unfold Stays
  rw [hits_alt, hits_alt, ha, hb, List.map_append]

theorem stays_group {a : Pattern α} (ha : a.Stays more prev s) : (group a).Stays more prev s := by
  unfold Stays
  rw [hits_group, hits_group, ha, List.map_map, List.map_map]
  rfl

theorem stays_all {as : List (Pattern α)} (h : ∀ a ∈ as, ∀ prev s, a.Stays more prev s) :
    (all as).Stays more prev s := by
  induction as generalizing prev s with
  | nil => exact stays_empty
  | cons a as ih =>
    rw [List.forall_mem_cons] at h
    exact stays_seq (h.1 prev s) fun _ _ => ih h.2

end Stays

/-- The first match that begins in `s`, with `rest` behind it. -/
def searchIn (a : Pattern α) (prev : Option α) : List α → List α → Option (Hit α)
  | [], _ => none
  | c :: s, rest => ((a.hits prev (c :: s ++ rest)).head?).or (a.searchIn (some c) s rest)

theorem searchFrom_append (a : Pattern α) (prev : Option α) (s rest : List α) :
    a.searchFrom prev (s ++ rest) = (a.searchIn prev s rest).or (a.searchFrom (last prev s) rest) := by
  induction s generalizing prev with
  | nil => rfl
  | cons c s ih =>
    rw [List.cons_append, searchFrom, searchIn, Option.or_assoc, last_cons, ← ih (some c)]
    rw [List.cons_append]
    cases (a.hits prev (c :: (s ++ rest))).head? <;> rfl

theorem searchIn_stays {a : Pattern α} {more rest : List α} (prev : Option α) {s : List α}
    (h : ∀ prev t, a.Stays more prev (t ++ rest)) :
    a.searchIn prev s (rest ++ more) =
      (a.searchIn prev s rest).map fun h => { h with rest := h.rest ++ more } := by
  induction s generalizing prev with
  | nil => rfl
  | cons c s ih =>
    rw [searchIn, searchIn, ← List.append_assoc, h prev (c :: s), List.head?_map, ih,
      Option.map_or]

/-- The pattern does not tell the two characters in front of it apart. -/
def Blind (prev prev' : Option α) : Pattern α → Prop
  | .empty => True
  | .one _ => True
  | .many _ => True
  | .seq a b => a.Blind prev prev' ∧ b.Blind prev prev'
  | .alt a b => a.Blind prev prev' ∧ b.Blind prev prev'
  | .boundary word => prev.any word = prev'.any word
  | .group a => a.Blind prev prev'

theorem Blind.hits_eq {prev prev' : Option α} {a : Pattern α} (h : a.Blind prev prev')
    (s : List α) : a.hits prev s = a.hits prev' s := by
  induction a generalizing s with
  | empty => rfl
  | one p => cases s <;> rfl
  | many p => rfl
  | seq a b iha ihb =>
    rw [hits_seq, hits_seq, iha h.1]
    refine List.flatMap_congr fun g _ => ?_
    cases htext : g.text with
    | nil => rw [last_nil, last_nil, ihb h.2]
    | cons c text => rw [last_cons, last_cons]
  | alt a b iha ihb => rw [hits_alt, hits_alt, iha h.1, ihb h.2]
  | boundary word =>
    show (if _ then _ else _) = if _ then _ else _
    rw [show prev.any word = prev'.any word from h]
  | group a ih => rw [hits_group, hits_group, ih h]

theorem Blind.searchFrom_eq {prev prev' : Option α} {a : Pattern α} (h : a.Blind prev prev')
    (s : List α) : a.searchFrom prev s = a.searchFrom prev' s := by
  cases s with
  | nil => rw [searchFrom, searchFrom, h.hits_eq]
  | cons c s => rw [searchFrom, searchFrom, h.hits_eq]

end Pattern

end AmigaFleet.Lib

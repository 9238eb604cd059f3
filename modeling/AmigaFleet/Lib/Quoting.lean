import Mathlib.Algebra.Ring.Int.Defs
import Mathlib.Algebra.Ring.Nat
import Mathlib.Data.List.Basic
import Mathlib.Data.List.Count

/-!
# Quoted words on a line

A line is split at blanks that stand outside quotes.  Inside quotes an escape
character stands for a quote or for itself together with the character behind
it; in front of anything else it is a character like the others.

* `tokens` splits a line.  `Mode` says where in the quoting a place of the line
  lies.
* `wrap` puts a word into quotes, with an escape in front of the characters
  that `e` picks.  `tokensFrom_wrap` reads it back.
* A `Piece` is a word as it stands on a line: bare, in quotes, or in quotes
  with its quotes escaped.  `tokens_joined_iff` says when all words of a line
  are read back.  That one misread word could make up for another is excluded
  by `cost`: what the tokens and the quotes of a line cost in characters.
* `commands` also ends a line where a character stops it outside quotes.
  `commands_joined_iff` says when a line is one command with all its words.
-/

namespace AmigaFleet.Lib

/-- The special characters of a line. -/
structure Quoting (α : Type) where
  quote : α
  escape : α
  blank : α → Bool
  quote_ne_escape : quote ≠ escape
  blank_quote : blank quote = false

namespace Quoting

/-- A place on a line; `escaped` is inside quotes, right behind an escape. -/
inductive Mode where
  | outside
  | inside
  | escaped
deriving DecidableEq, Repr

variable {α : Type} [DecidableEq α] (q : Quoting α)

/-! ## Splitting a line -/

def next : Mode → α → Mode
  | .outside, c => if c = q.quote then .inside else .outside
  | .inside, c => if c = q.quote then .outside else if c = q.escape then .escaped else .inside
  | .escaped, _ => .inside

def modeAfter (m : Mode) (text : List α) : Mode := text.foldl q.next m

/-- What a character adds to the token that is being read. -/
def emits : Mode → α → List α
  | .outside, c => if c = q.quote then [] else [c]
  | .inside, c => if c = q.quote ∨ c = q.escape then [] else [c]
  | .escaped, c => if c = q.quote ∨ c = q.escape then [c] else [q.escape, c]

/-- An escape that has been read and not yet added. -/
def pending : Mode → List α
  | .escaped => [q.escape]
  | _ => []

def separates (m : Mode) (c : α) : Bool := m = .outside && q.blank c

/-- `cur` is the token that is being read, `none` between two tokens. -/
def tokensFrom : Mode → Option (List α) → List α → List (List α)
  | m, cur, [] => (cur.map (· ++ q.pending m)).toList
  | m, cur, c :: text =>
    if q.separates m c then cur.toList ++ tokensFrom .outside none text
    else tokensFrom (q.next m c) (some (cur.getD [] ++ q.emits m c)) text

def tokens (text : List α) : List (List α) := q.tokensFrom .outside none text

@[simp] theorem modeAfter_nil (m : Mode) : q.modeAfter m [] = m := rfl

@[simp] theorem modeAfter_cons (m : Mode) (c : α) (text : List α) :
    q.modeAfter m (c :: text) = q.modeAfter (q.next m c) text := rfl

@[simp] theorem modeAfter_append (m : Mode) (as bs : List α) :
    q.modeAfter m (as ++ bs) = q.modeAfter (q.modeAfter m as) bs := List.foldl_append

omit [DecidableEq α] in
theorem separates_of_ne {m : Mode} (h : m ≠ .outside) (c : α) : q.separates m c = false := by
  simp [separates, h]

theorem tokensFrom_cons {m : Mode} {c : α} (h : q.separates m c = false) (cur : Option (List α))
    (text : List α) :
    q.tokensFrom m cur (c :: text) =
      q.tokensFrom (q.next m c) (some (cur.getD [] ++ q.emits m c)) text := by
  rw [tokensFrom, if_neg (by simp [h])]

theorem tokensFrom_blank {c : α} (h : q.blank c = true) (t text : List α) :
    q.tokensFrom .outside (some t) (c :: text) = t :: q.tokensFrom .outside none text := by
  rw [tokensFrom, if_pos (by simp [separates, h])]
  rfl

@[simp] theorem next_open : q.next .outside q.quote = .inside := if_pos rfl

@[simp] theorem next_escape : q.next .inside q.escape = .escaped := by
  rw [next, if_neg q.quote_ne_escape.symm, if_pos rfl]

@[simp] theorem next_escaped (c : α) : q.next .escaped c = .inside := rfl

theorem next_ne_outside {m : Mode} (hm : m ≠ .outside) {c : α} (hc : c ≠ q.quote) :
    q.next m c ≠ .outside := by
  cases m with
  | outside => exact absurd rfl hm
  | inside =>
    rw [next, if_neg hc]
    split <;> simp
  | escaped => simp [next]

/-- The token that is being read is the beginning of the first one. -/
theorem tokensFrom_prefix (m : Mode) (t text : List α) :
    ∃ s ts, q.tokensFrom m (some t) text = (t ++ s) :: ts := by
  induction text generalizing m t with
  | nil => exact ⟨q.pending m, [], rfl⟩
  | cons c text ih =>
    rw [tokensFrom]
    split
    · exact ⟨[], q.tokensFrom .outside none text, by simp⟩
    · obtain ⟨s, ts, h⟩ := ih (q.next m c) (t ++ q.emits m c)
      exact ⟨q.emits m c ++ s, ts, by simpa using h⟩

/-! ## Writing words -/

/-- A word that needs no quotes. -/
def Bare (word : List α) : Prop := word ≠ [] ∧ ∀ c ∈ word, c ≠ q.quote ∧ q.blank c = false

/-- The word with an escape in front of the characters that `e` picks. -/
def escapeBy (e : α → Bool) (word : List α) : List α :=
  word.flatMap fun c => if e c then [q.escape, c] else [c]

def wrap (e : α → Bool) (word : List α) : List α := q.quote :: (q.escapeBy e word ++ [q.quote])

omit [DecidableEq α] in
@[simp] theorem escapeBy_nil (e : α → Bool) : q.escapeBy e [] = [] := rfl

omit [DecidableEq α] in
theorem escapeBy_cons (e : α → Bool) (c : α) (word : List α) :
    q.escapeBy e (c :: word) = (if e c then [q.escape, c] else [c]) ++ q.escapeBy e word := rfl

/-- A quote that opens. -/
theorem tokensFrom_open (text : List α) :
    q.tokensFrom .outside none (q.quote :: text) = q.tokensFrom .inside (some []) text := by
  rw [tokensFrom_cons q (by simp [separates, q.blank_quote])]
  simp [next, emits]

/-- A quote that closes. -/
theorem tokensFrom_close (t text : List α) :
    q.tokensFrom .inside (some t) (q.quote :: text) = q.tokensFrom .outside (some t) text := by
  rw [tokensFrom_cons q (q.separates_of_ne (by decide) _)]
  simp [next, emits]

theorem tokensFrom_bare {word : List α} (h : q.Bare word) (rest : List α) :
    q.tokensFrom .outside none (word ++ rest) = q.tokensFrom .outside (some word) rest := by
  have hgoes : ∀ {w : List α}, (∀ c ∈ w, c ≠ q.quote ∧ q.blank c = false) → ∀ t : List α,
      q.tokensFrom .outside (some t) (w ++ rest) = q.tokensFrom .outside (some (t ++ w)) rest := by
    intro w
    induction w with
    | nil => simp
    | cons c w ih =>
      intro hw t
      rw [List.forall_mem_cons] at hw
      rw [List.cons_append, tokensFrom_cons q (by simp [separates, hw.1.2])]
      simp [next, emits, hw.1.1, ih hw.2]
  obtain ⟨hne, hword⟩ := h
  cases word with
  | nil => exact absurd rfl hne
  | cons c word =>
    rw [List.forall_mem_cons] at hword
    rw [List.cons_append, tokensFrom_cons q (by simp [separates, hword.1.2])]
    simp [next, emits, hword.1.1, hgoes hword.2]

/-! ### Escapes for quotes and for escapes -/

theorem tokensFrom_escapeBy {e : α → Bool} (he : ∀ c, e c = true ↔ c = q.quote ∨ c = q.escape)
    (word t rest : List α) :
    q.tokensFrom .inside (some t) (q.escapeBy e word ++ rest) =
      q.tokensFrom .inside (some (t ++ word)) rest := by
  induction word generalizing t with
  | nil => simp
  | cons c word ih =>
    rw [escapeBy_cons, List.append_assoc]
    by_cases hc : c = q.quote ∨ c = q.escape
    · rw [if_pos ((he c).mpr hc)]
      show q.tokensFrom .inside (some t) (q.escape :: c :: (q.escapeBy e word ++ rest)) = _
      rw [tokensFrom_cons q (q.separates_of_ne (by decide) _), next_escape,
        tokensFrom_cons q (q.separates_of_ne (by decide) _)]
      simp [next, emits, hc, ih]
    · rw [if_neg (by simpa using mt (he c).mp hc)]
      show q.tokensFrom .inside (some t) (c :: (q.escapeBy e word ++ rest)) = _
      rw [tokensFrom_cons q (q.separates_of_ne (by decide) _)]
      rw [not_or] at hc
      simp [next, emits, hc, ih]

/-- A word whose quotes and escapes are escaped is read back. -/
theorem tokensFrom_wrap {e : α → Bool} (he : ∀ c, e c = true ↔ c = q.quote ∨ c = q.escape)
    (word rest : List α) :
    q.tokensFrom .outside none (q.wrap e word ++ rest) =
      q.tokensFrom .outside (some word) rest := by
  rw [wrap, List.cons_append, tokensFrom_open, List.append_assoc, tokensFrom_escapeBy q he,
    List.singleton_append, tokensFrom_close, List.nil_append]

/-! ### Escapes for quotes only -/

/-- No escape of the word stands in front of an escape or a quote, or at its
end. -/
def Inert : List α → Prop
  | [] => True
  | c :: word =>
    (c = q.escape → word.head?.any (fun d => d ≠ q.quote && d ≠ q.escape) = true) ∧ Inert word

instance decidableInert : ∀ word : List α, Decidable (q.Inert word)
  | [] => inferInstanceAs (Decidable True)
  | c :: word =>
    have := decidableInert word
    inferInstanceAs (Decidable ((c = q.escape → _) ∧ q.Inert word))

/-- How often an escape is read as the character behind an escape. -/
def doubled : Mode → List α → Nat
  | _, [] => 0
  | m, c :: text => (if m = .escaped ∧ c = q.escape then 1 else 0) + doubled (q.next m c) text

theorem doubled_append (m : Mode) (as bs : List α) :
    q.doubled m (as ++ bs) = q.doubled m as + q.doubled (q.modeAfter m as) bs := by
  induction as generalizing m with
  | nil => simp [doubled]
  | cons a as ih => simp [doubled, ih, Nat.add_assoc]

section QuotesOnly

variable {e : α → Bool} (he : ∀ c, e c = true → c = q.quote)

include he

/-- A word whose escapes are not escaped, read up to its end: as long as no
escape is doubled it comes out as it is, but for an escape that still waits for
the character behind it. -/
theorem tokensFrom_quotesOnly {word : List α} (hquote : ∀ c ∈ word, c = q.quote → e c = true)
    {m : Mode} (hm : m ≠ .outside) (hdoubled : q.doubled m (q.escapeBy e word) = 0) :
    q.modeAfter m (q.escapeBy e word) ≠ .outside ∧
      ∃ u, u ++ q.pending (q.modeAfter m (q.escapeBy e word)) = q.pending m ++ word ∧
        ∀ t rest, q.tokensFrom m (some t) (q.escapeBy e word ++ rest) =
          q.tokensFrom (q.modeAfter m (q.escapeBy e word)) (some (t ++ u)) rest := by
  induction word generalizing m with
  | nil => exact ⟨hm, [], by simp, by simp⟩
  | cons c word ih =>
    rw [List.forall_mem_cons] at hquote
    have hne := q.quote_ne_escape
    rw [escapeBy_cons] at hdoubled ⊢
    by_cases hc : c = q.quote
    · rw [if_pos (hquote.1 hc)] at hdoubled ⊢
      subst hc
      cases m with
      | outside => exact absurd rfl hm
      | escaped => simp [doubled] at hdoubled
      | inside =>
        simp only [List.cons_append, List.nil_append, doubled, next_escape] at hdoubled
        obtain ⟨hmode, u, hu, hread⟩ := ih hquote.2 (m := .inside) (by decide) (by
          simp only [next] at hdoubled
          omega)
        refine ⟨by simpa [next, hne.symm] using hmode, q.quote :: u, ?_, fun t rest => ?_⟩
        · simpa [next, hne.symm, pending] using hu
        · show q.tokensFrom .inside (some t) (q.escape :: q.quote :: (q.escapeBy e word ++ rest)) = _
          rw [tokensFrom_cons q (q.separates_of_ne (by decide) _), next_escape,
            tokensFrom_cons q (q.separates_of_ne (by decide) _)]
          simp [next, emits, hne.symm, hread]
    · have hplain : e c = false := by simpa using mt (he c) hc
      rw [hplain] at hdoubled ⊢
      simp only [Bool.false_eq_true, if_false, List.cons_append, List.nil_append, doubled] at hdoubled ⊢
      have hsep := q.separates_of_ne hm c
      obtain ⟨hmode, u, hu, hread⟩ := ih hquote.2 (m := q.next m c)
        (q.next_ne_outside hm hc) (by omega)
      refine ⟨hmode, q.emits m c ++ u, ?_, fun t rest => ?_⟩
      · rw [modeAfter_cons, List.append_assoc, hu]
        cases m with
        | outside => exact absurd rfl hm
        | inside =>
          by_cases hesc : c = q.escape <;> simp [emits, next, pending, hc, hesc, hne.symm]
        | escaped =>
          have hesc : c ≠ q.escape := by
            rintro rfl
            simp at hdoubled
          simp [emits, next, pending, hc, hesc]
      · rw [tokensFrom_cons q hsep]
        simp [hread]

theorem inert_iff {word : List α} (hquote : ∀ c ∈ word, c = q.quote → e c = true) {m : Mode}
    (hm : m ≠ .outside) :
    (q.doubled m (q.escapeBy e word) = 0 ∧ q.modeAfter m (q.escapeBy e word) = .inside) ↔
      (m = .escaped → word.head?.any (fun d => d ≠ q.quote && d ≠ q.escape) = true) ∧
        q.Inert word := by
  induction word generalizing m with
  | nil => cases m <;> simp [doubled, Inert] at hm ⊢
  | cons c word ih =>
    rw [List.forall_mem_cons] at hquote
    have hne := q.quote_ne_escape
    rw [escapeBy_cons]
    by_cases hc : c = q.quote
    · have hinside := ih hquote.2 (m := .inside) (by decide)
      rw [if_pos (hquote.1 hc)]
      subst hc
      cases m with
      | outside => exact absurd rfl hm
      | inside => simpa [doubled, Inert, hne] using hinside
      | escaped => simp [doubled]
    · have hplain : e c = false := by simpa using mt (he c) hc
      have hgoes := ih hquote.2 (q.next_ne_outside hm hc)
      simp only [hplain, Bool.false_eq_true, if_false, List.cons_append, List.nil_append, doubled,
        modeAfter_cons]
      by_cases hesc : c = q.escape
      · subst hesc
        cases m with
        | outside => exact absurd rfl hm
        | inside => simpa [Inert] using hgoes
        | escaped => simp
      · cases m with
        | outside => exact absurd rfl hm
        | inside => simpa [next, hc, hesc, Inert] using hgoes
        | escaped => simpa [next, hc, hesc, Inert] using hgoes

/-- A word in quotes that has its quotes escaped is read back if and only if it
is inert, as far as no escape is doubled. -/
theorem tokensFrom_wrap_inert {word : List α} (hquote : ∀ c ∈ word, c = q.quote → e c = true)
    (h : q.Inert word) (rest : List α) :
    q.tokensFrom .outside none (q.wrap e word ++ rest) =
      q.tokensFrom .outside (some word) rest := by
  obtain ⟨hdoubled, hmode⟩ :=
    (inert_iff q he hquote (m := .inside) (by decide)).mpr ⟨by simp, h⟩
  obtain ⟨_, u, hu, hread⟩ := tokensFrom_quotesOnly q he hquote (by decide) hdoubled
  rw [hmode] at hu hread
  have hword : u = word := by simpa [pending] using hu
  rw [wrap, List.cons_append, tokensFrom_open, List.append_assoc, hread, hword,
    List.singleton_append, tokensFrom_close, List.nil_append]

theorem inert_of_read {word : List α} (hquote : ∀ c ∈ word, c = q.quote → e c = true)
    (hdoubled : q.doubled .outside (q.wrap e word) = 0) {rest : List α} {ts : List (List α)}
    (hread : q.tokensFrom .outside none (q.wrap e word ++ rest) = word :: ts) : q.Inert word := by
  have hbody : q.doubled .inside (q.escapeBy e word) = 0 := by
    rw [wrap, doubled, next_open, doubled_append] at hdoubled
    omega
  obtain ⟨hmode, u, hu, hgoes⟩ := tokensFrom_quotesOnly q he hquote (by decide) hbody
  have hinside : q.modeAfter .inside (q.escapeBy e word) = .inside := by
    cases hm : q.modeAfter .inside (q.escapeBy e word) with
    | outside => exact absurd hm hmode
    | inside => rfl
    | escaped =>
      -- the closing quote is taken for an escaped one and gets into the token
      rw [wrap, List.cons_append, tokensFrom_open, List.append_assoc, hgoes, hm,
        List.singleton_append, tokensFrom_cons q (q.separates_of_ne (by decide) _)] at hread
      obtain ⟨s, ts', hs⟩ := q.tokensFrom_prefix (q.next .escaped q.quote)
        ((some ([] ++ u)).getD [] ++ q.emits .escaped q.quote) rest
      rw [hs] at hread
      have htoken := (List.cons.inj hread).1
      rw [hm] at hu
      simp only [pending, List.nil_append] at hu
      rw [← hu] at htoken
      simp [emits, q.quote_ne_escape] at htoken
  exact ((inert_iff q he hquote (by decide)).mp ⟨hbody, hinside⟩).2

end QuotesOnly

/-! ## What the tokens of a line cost -/

/-- Each token with the blank behind it. -/
def size (ts : List (List α)) : Nat := (ts.map fun t => t.length + 1).sum

omit [DecidableEq α] in
theorem size_cons (t : List α) (ts : List (List α)) : size (t :: ts) = t.length + 1 + size ts := rfl

/-- A quote of the line adds no character to the tokens that is not paid for
by an escape, and neither does a doubled escape. -/
theorem cost (m : Mode) (cur : Option (List α)) (text : List α) :
    size (q.tokensFrom m cur text) + text.count q.quote + q.doubled m text ≤
      text.length + (cur.getD []).length + (q.pending m).length + 1 := by
  induction text generalizing m cur with
  | nil => cases cur <;> simp [tokensFrom, size, doubled]
  | cons c text ih =>
    rw [tokensFrom, List.count_cons, List.length_cons, doubled]
    split
    · have hrest := ih .outside none
      have hm : m = .outside := by
        rename_i hsep
        simp only [separates, Bool.and_eq_true, decide_eq_true_eq] at hsep
        exact hsep.1
      have hc : c ≠ q.quote := by
        rintro rfl
        rename_i hsep
        simp [separates, q.blank_quote] at hsep
      subst hm
      cases cur with
      | none => simp [pending, next, hc, size] at hrest ⊢; omega
      | some t => simp [pending, next, hc, size_cons] at hrest ⊢; omega
    · have hrest := ih (q.next m c) (some (cur.getD [] ++ q.emits m c))
      have hne := q.quote_ne_escape
      cases m with
      | outside =>
        by_cases hc : c = q.quote <;> simp [next, emits, pending, hc] at hrest ⊢ <;> omega
      | inside =>
        by_cases hc : c = q.quote
        · simp [next, emits, pending, hc] at hrest ⊢
          omega
        · by_cases hesc : c = q.escape <;>
            simp [next, emits, pending, hc, hesc, hne.symm] at hrest ⊢ <;> omega
      | escaped =>
        by_cases hc : c = q.quote
        · simp [next, emits, pending, hc, hne] at hrest ⊢
          omega
        · by_cases hesc : c = q.escape <;>
            simp [next, emits, pending, hc, hesc, hne.symm] at hrest ⊢ <;> omega

/-! ## What stands outside quotes -/

/-- The characters that are read outside quotes. -/
def outsideOf : Mode → List α → List α
  | _, [] => []
  | m, c :: text => (if m = .outside then [c] else []) ++ outsideOf (q.next m c) text

theorem outsideOf_append (m : Mode) (as bs : List α) :
    q.outsideOf m (as ++ bs) = q.outsideOf m as ++ q.outsideOf (q.modeAfter m as) bs := by
  induction as generalizing m with
  | nil => rfl
  | cons a as ih => simp [outsideOf, ih]

theorem mem_outsideOf_iff {m : Mode} {text : List α} {c : α} :
    c ∈ q.outsideOf m text ↔
      ∃ before after, text = before ++ c :: after ∧ q.modeAfter m before = .outside := by
  induction text generalizing m with
  | nil => simp [outsideOf]
  | cons d text ih =>
    rw [outsideOf, List.mem_append, ih]
    constructor
    · rintro (hd | ⟨before, after, rfl, hmode⟩)
      · split at hd
        · rename_i hm
          rw [List.mem_singleton] at hd
          exact ⟨[], text, by rw [hd]; rfl, hm⟩
        · simp at hd
      · exact ⟨d :: before, after, rfl, hmode⟩
    · rintro ⟨before, after, heq, hmode⟩
      cases before with
      | nil =>
        obtain ⟨rfl, -⟩ := List.cons.inj heq
        exact Or.inl (by simpa using hmode)
      | cons b before =>
        obtain ⟨rfl, rfl⟩ := List.cons.inj heq
        exact Or.inr ⟨before, after, rfl, hmode⟩

/-- Without quotes and escapes the place stays where it is. -/
theorem outsideOf_plain {m : Mode} (hm : m ≠ .escaped) {text : List α}
    (h : ∀ c ∈ text, c ≠ q.quote ∧ c ≠ q.escape) :
    q.modeAfter m text = m ∧ q.outsideOf m text = if m = .outside then text else [] := by
  induction text with
  | nil => simp [outsideOf]
  | cons c text ih =>
    rw [List.forall_mem_cons] at h
    have hnext : q.next m c = m := by
      cases m with
      | outside => simp [next, h.1.1]
      | inside => simp [next, h.1]
      | escaped => exact absurd rfl hm
    obtain ⟨hmode, hout⟩ := ih h.2
    rw [modeAfter_cons, outsideOf, hnext, hmode, hout]
    exact ⟨rfl, by split <;> simp⟩

/-- Inside quotes a word with escaped quotes shows nothing. -/
theorem outsideOf_quotesOnly {e : α → Bool} (he : ∀ c, e c = true → c = q.quote) {word : List α}
    (hquote : ∀ c ∈ word, c = q.quote → e c = true) {m : Mode} (hm : m ≠ .outside)
    (hdoubled : q.doubled m (q.escapeBy e word) = 0) :
    q.outsideOf m (q.escapeBy e word) = [] := by
  induction word generalizing m with
  | nil => rfl
  | cons c word ih =>
    rw [List.forall_mem_cons] at hquote
    rw [escapeBy_cons] at hdoubled ⊢
    by_cases hc : c = q.quote
    · rw [if_pos (hquote.1 hc)] at hdoubled ⊢
      subst hc
      cases m with
      | outside => exact absurd rfl hm
      | escaped => simp [doubled] at hdoubled
      | inside =>
        simp only [List.cons_append, List.nil_append, doubled, next_escape, next_escaped] at hdoubled
        have hrest := ih hquote.2 (m := .inside) (by decide) (by omega)
        simpa [outsideOf] using hrest
    · have hplain : e c = false := by simpa using mt (he c) hc
      rw [hplain] at hdoubled ⊢
      simp only [Bool.false_eq_true, if_false, List.cons_append, List.nil_append, doubled] at hdoubled ⊢
      rw [outsideOf, if_neg hm, List.nil_append]
      exact ih hquote.2 (q.next_ne_outside hm hc) (by omega)

section Escaped

variable {e : α → Bool} (he : ∀ c, e c = true ↔ c = q.quote ∨ c = q.escape)

include he

theorem outsideOf_escapeBy (word : List α) :
    q.modeAfter .inside (q.escapeBy e word) = .inside ∧
      q.outsideOf .inside (q.escapeBy e word) = [] := by
  induction word with
  | nil => exact ⟨rfl, rfl⟩
  | cons c word ih =>
    rw [escapeBy_cons]
    by_cases hc : c = q.quote ∨ c = q.escape
    · rw [if_pos ((he c).mpr hc)]
      simpa [outsideOf] using ih
    · rw [if_neg (by simpa using mt (he c).mp hc)]
      rw [not_or] at hc
      simpa [outsideOf, next, hc] using ih

/-- A word in quotes whose quotes and escapes are escaped shows nothing but its
opening quote. -/
theorem outsideOf_wrap (word : List α) :
    q.modeAfter .outside (q.wrap e word) = .outside ∧
      q.outsideOf .outside (q.wrap e word) = [q.quote] := by
  obtain ⟨hmode, hout⟩ := q.outsideOf_escapeBy he word
  simp [wrap, outsideOf, outsideOf_append, hmode, hout, next]

theorem outsideOf_escapeBy_outside (word : List α) :
    q.modeAfter .outside (q.escapeBy e word) = (if q.quote ∈ word then .inside else .outside) ∧
      ∀ c, c ≠ q.quote → c ≠ q.escape →
        (c ∈ q.outsideOf .outside (q.escapeBy e word) ↔ c ∈ word.takeWhile (· ≠ q.quote)) := by
  induction word with
  | nil => exact ⟨rfl, by simp [outsideOf]⟩
  | cons d word ih =>
    have hne := q.quote_ne_escape
    rw [escapeBy_cons]
    by_cases hquote : d = q.quote
    · obtain ⟨hmode, hout⟩ := q.outsideOf_escapeBy he word
      rw [if_pos ((he d).mpr (Or.inl hquote))]
      subst hquote
      refine ⟨by simp [next, hne.symm, hmode], fun c hcq hce => ?_⟩
      simp [outsideOf, next, hne.symm, hout, hcq, hce]
    · by_cases hesc : d = q.escape
      · rw [if_pos ((he d).mpr (Or.inr hesc))]
        subst hesc
        refine ⟨by simp [next, hne, hne.symm, ih.1], fun c hcq hce => ?_⟩
        simpa [outsideOf, next, hne.symm, hce] using ih.2 c hcq hce
      · have hplain : e d = false := by simpa [hquote, hesc] using he d
        rw [hplain]
        refine ⟨by simp [next, hquote, Ne.symm hquote, ih.1], fun c hcq hce => ?_⟩
        simpa [outsideOf, next, hquote] using or_congr_right (ih.2 c hcq hce)

/-- The same word on a line that is inside quotes already: it shows what stands
in front of its first quote. -/
theorem outsideOf_wrap_inside (word : List α) :
    q.modeAfter .inside (q.wrap e word) = (if q.quote ∈ word then .outside else .inside) ∧
      ∀ c, c ≠ q.quote → c ≠ q.escape →
        (c ∈ q.outsideOf .inside (q.wrap e word) ↔ c ∈ word.takeWhile (· ≠ q.quote)) := by
  obtain ⟨hmode, hout⟩ := q.outsideOf_escapeBy_outside he word
  have hclose : q.next .inside q.quote = .outside := by simp [next]
  constructor
  · rw [wrap, modeAfter_cons, hclose, modeAfter_append, hmode]
    split <;> simp [next]
  · intro c hcq hce
    rw [wrap, outsideOf, hclose, outsideOf_append, ← hout c hcq hce]
    simp [outsideOf, hcq]

end Escaped

/-! ## Commands -/

section Commands

variable (stop : α → Bool)

/-- `line` is the line that is being read; `stop` ends it outside quotes. -/
def linesFrom : Mode → List α → List α → List (List α)
  | _, line, [] => [line]
  | m, line, c :: text =>
    if m = .outside && stop c then line :: linesFrom .outside [] text
    else linesFrom (q.next m c) (line ++ [c]) text

/-- The commands that a text gives, each as its words. -/
def commands (text : List α) : List (List (List α)) := (q.linesFrom stop .outside [] text).map q.tokens

theorem linesFrom_ne_nil (m : Mode) (line text : List α) : q.linesFrom stop m line text ≠ [] := by
  induction text generalizing m line with
  | nil => exact List.cons_ne_nil line []
  | cons c text ih =>
    rw [linesFrom]
    split
    · exact List.cons_ne_nil line _
    · exact ih (q.next m c) (line ++ [c])

theorem linesFrom_eq_singleton_iff (m : Mode) (line text whole : List α) :
    q.linesFrom stop m line text = [whole] ↔
      (∀ c ∈ q.outsideOf m text, stop c = false) ∧ line ++ text = whole := by
  induction text generalizing m line with
  | nil => simp [linesFrom, outsideOf]
  | cons c text ih =>
    rw [linesFrom, outsideOf, List.forall_mem_append]
    by_cases hends : m = .outside ∧ stop c = true
    · obtain ⟨rfl, hc⟩ := hends
      have hrest := q.linesFrom_ne_nil stop .outside [] text
      simp [hc, hrest]
    · have hgoes : ∀ d ∈ (if m = .outside then [c] else []), stop d = false := by
        by_cases hm : m = .outside
        · simpa [hm] using hends
        · simp [hm]
      rw [if_neg (by simpa using hends), ih (q.next m c) (line ++ [c]), and_iff_right hgoes,
        List.append_assoc, List.singleton_append]

/-- A text is one command when nothing outside quotes stops it. -/
theorem commands_eq_singleton_iff (text : List α) (words : List (List α)) :
    q.commands stop text = [words] ↔
      (∀ c ∈ q.outsideOf .outside text, stop c = false) ∧ q.tokens text = words := by
  rw [commands, List.map_eq_singleton_iff]
  constructor
  · rintro ⟨whole, hlines, htokens⟩
    obtain ⟨hout, rfl⟩ := (q.linesFrom_eq_singleton_iff stop .outside [] text whole).mp hlines
    exact ⟨hout, htokens⟩
  · rintro ⟨hout, htokens⟩
    exact ⟨text, (q.linesFrom_eq_singleton_iff stop .outside [] text text).mpr ⟨hout, rfl⟩, htokens⟩

end Commands

/-! ## Lines of words -/

/-- How a word stands on a line. -/
inductive Form where
  | bare
  /-- in quotes -/
  | raw
  /-- in quotes, with its quotes escaped -/
  | safe
deriving DecidableEq, Repr

/-- A word on a line; a bare word needs no quotes. -/
structure Piece where
  form : Form
  word : List α
  valid : form = .bare → q.Bare word

variable {q}

def Piece.text (p : q.Piece) : List α :=
  match p.form with
  | .bare => p.word
  | .raw => q.wrap (fun _ => false) p.word
  | .safe => q.wrap (fun c => c = q.quote) p.word

/-- The quoting leaves the word as it is. -/
def Piece.Reads (p : q.Piece) : Prop :=
  match p.form with
  | .bare => True
  | .raw => q.quote ∉ p.word ∧ q.Inert p.word
  | .safe => q.Inert p.word

theorem Piece.Reads.read {p : q.Piece} (h : p.Reads) (rest : List α) :
    q.tokensFrom .outside none (p.text ++ rest) = q.tokensFrom .outside (some p.word) rest := by
  obtain ⟨form, word, valid⟩ := p
  cases form with
  | bare => exact q.tokensFrom_bare (valid rfl) rest
  | raw =>
    exact q.tokensFrom_wrap_inert (by simp) (fun c hc heq => absurd (heq ▸ hc) h.1) h.2 rest
  | safe => exact q.tokensFrom_wrap_inert (by simp) (by simp) h rest

theorem modeAfter_wrap {e : α → Bool} (he : ∀ c, e c = true → c = q.quote) {word : List α}
    (hquote : ∀ c ∈ word, c = q.quote → e c = true) (h : q.Inert word) :
    q.modeAfter .outside (q.wrap e word) = .outside := by
  obtain ⟨_, hmode⟩ := (q.inert_iff he hquote (m := .inside) (by decide)).mpr ⟨by simp, h⟩
  rw [wrap, modeAfter_cons, next_open, modeAfter_append, hmode]
  simp [next]

/-- Behind a word that is read back the line is outside quotes. -/
theorem Piece.Reads.mode {p : q.Piece} (h : p.Reads) : q.modeAfter .outside p.text = .outside := by
  obtain ⟨form, word, valid⟩ := p
  cases form with
  | bare =>
    have hword := (valid rfl).2
    show q.modeAfter .outside word = .outside
    clear valid h
    induction word with
    | nil => rfl
    | cons c word ih =>
      rw [List.forall_mem_cons] at hword
      rw [modeAfter_cons, next, if_neg hword.1.1]
      exact ih hword.2
  | raw => exact modeAfter_wrap (by simp) (fun c hc heq => absurd (heq ▸ hc) h.1) h.2
  | safe => exact modeAfter_wrap (by simp) (by simp) h

/-- The words with one blank between them. -/
def joined (sp : α) : List (List α) → List α
  | [] => []
  | t :: ts => t ++ ts.flatMap (sp :: ·)

variable {sp : α} (hsp : q.blank sp = true)

include hsp

theorem tokens_joined {ps : List q.Piece} (h : ∀ p ∈ ps, p.Reads) :
    q.tokens (joined sp (ps.map Piece.text)) = ps.map Piece.word := by
  have hrest : ∀ {ps : List q.Piece}, (∀ p ∈ ps, p.Reads) → ∀ t : List α,
      q.tokensFrom .outside (some t) ((ps.map Piece.text).flatMap (sp :: ·)) =
        t :: ps.map Piece.word := by
    intro ps
    induction ps with
    | nil => simp [tokensFrom, pending]
    | cons p ps ih =>
      intro h t
      rw [List.forall_mem_cons] at h
      rw [List.map_cons, List.flatMap_cons, List.cons_append, tokensFrom_blank q hsp, h.1.read,
        ih h.2, List.map_cons]
  cases ps with
  | nil => rfl
  | cons p ps =>
    rw [List.forall_mem_cons] at h
    rw [List.map_cons, joined, tokens, h.1.read, hrest h.2, List.map_cons]

/-! ### Words that are misread -/

/-- The quotes of a word in quotes that nothing escapes. -/
def Piece.naked (p : q.Piece) : Nat := if p.form = .raw then p.word.count q.quote else 0

omit hsp in
theorem count_wrap (e : α → Bool) (word : List α) :
    (q.wrap e word).count q.quote = word.count q.quote + 2 := by
  have hbody : (q.escapeBy e word).count q.quote = word.count q.quote := by
    induction word with
    | nil => rfl
    | cons c word ih =>
      rw [escapeBy_cons, List.count_append, ih, List.count_cons]
      split <;> simp [List.count_cons, q.quote_ne_escape.symm, Nat.add_comm]
  simp [wrap, hbody]

omit hsp [DecidableEq α] in
theorem length_wrap_raw (word : List α) : (q.wrap (fun _ => false) word).length = word.length + 2 := by
  have hbody : q.escapeBy (fun _ => false) word = word := by simp [escapeBy]
  simp [wrap, hbody]

omit hsp in
theorem length_wrap_safe (word : List α) :
    (q.wrap (fun c => c = q.quote) word).length = word.length + word.count q.quote + 2 := by
  have hbody : (q.escapeBy (fun c => c = q.quote) word).length =
      word.length + word.count q.quote := by
    induction word with
    | nil => rfl
    | cons c word ih =>
      rw [escapeBy_cons, List.length_append, ih, List.count_cons, List.length_cons]
      by_cases hc : c = q.quote <;> simp [hc] <;> omega
  simp [wrap, hbody]

omit hsp in
theorem Piece.length_text (p : q.Piece) :
    p.text.length + p.naked = p.word.length + p.text.count q.quote := by
  obtain ⟨form, word, valid⟩ := p
  cases form with
  | bare =>
    have hcount : word.count q.quote = 0 :=
      List.count_eq_zero.mpr fun hmem => ((valid rfl).2 _ hmem).1 rfl
    simp [text, naked, hcount]
  | raw => simp [text, naked, length_wrap_raw, count_wrap]; omega
  | safe => simp [text, naked, length_wrap_safe, count_wrap]; omega

/-- What the words of a line leave for quotes that are not escaped and for
doubled escapes: nothing. -/
theorem naked_of_tokens {ps : List q.Piece}
    (h : q.tokens (joined sp (ps.map Piece.text)) = ps.map Piece.word) :
    (∀ p ∈ ps, p.naked = 0) ∧ q.doubled .outside (joined sp (ps.map Piece.text)) = 0 := by
  have hne : sp ≠ q.quote := by
    rintro rfl
    rw [q.blank_quote] at hsp
    cases hsp
  have hlength : ∀ ps : List q.Piece,
      ((ps.map Piece.text).flatMap (sp :: ·)).length + (ps.map Piece.naked).sum =
        size (ps.map Piece.word) + ((ps.map Piece.text).flatMap (sp :: ·)).count q.quote := by
    intro ps
    induction ps with
    | nil => rfl
    | cons p ps ih =>
      have hp := p.length_text
      simp only [List.map_cons, List.flatMap_cons, List.length_append, List.length_cons,
        List.sum_cons, List.count_append, List.count_cons_of_ne hne, size_cons]
      omega
  cases ps with
  | nil => simp [joined, doubled]
  | cons p ps =>
    have hcost := q.cost .outside none (joined sp ((p :: ps).map Piece.text))
    have hp := p.length_text
    have hps := hlength ps
    rw [← tokens, h] at hcost
    simp only [List.map_cons, joined, List.length_append, List.count_append, size_cons, pending,
      Option.getD_none, List.length_nil] at hcost ⊢
    have hnaked : p.naked = 0 ∧ (ps.map Piece.naked).sum = 0 := by omega
    refine ⟨List.forall_mem_cons.mpr ⟨hnaked.1, ?_⟩, by omega⟩
    intro p' hp'
    exact List.sum_eq_zero_iff_forall_eq_nat.mp hnaked.2 _ (List.mem_map_of_mem hp')

omit hsp in
theorem Piece.reads_of_read {p : q.Piece} (hnaked : p.naked = 0)
    (hdoubled : q.doubled .outside p.text = 0) {rest : List α} {ts : List (List α)}
    (hread : q.tokensFrom .outside none (p.text ++ rest) = p.word :: ts) : p.Reads := by
  obtain ⟨form, word, valid⟩ := p
  cases form with
  | bare => trivial
  | raw =>
    have hquote : q.quote ∉ word := List.count_eq_zero.mp (by simpa [naked] using hnaked)
    exact ⟨hquote, q.inert_of_read (by simp) (fun c hc heq => absurd (heq ▸ hc) hquote) hdoubled hread⟩
  | safe => exact q.inert_of_read (by simp) (by simp) hdoubled hread

omit hsp in
/-- The first word of a line that comes out right, and the line behind it. -/
theorem Piece.read_first {p : q.Piece} (hnaked : p.naked = 0) {rest : List α}
    (hdoubled : q.doubled .outside (p.text ++ rest) = 0) {ts : List (List α)}
    (hread : q.tokensFrom .outside none (p.text ++ rest) = p.word :: ts) :
    p.Reads ∧ q.doubled .outside rest = 0 ∧
      q.tokensFrom .outside (some p.word) rest = p.word :: ts := by
  rw [doubled_append] at hdoubled
  have hreads : p.Reads := reads_of_read hnaked (by omega) hread
  rw [hreads.mode] at hdoubled
  exact ⟨hreads, by omega, by rw [← hreads.read, hread]⟩

/-- All words of a line are read back exactly if the quoting leaves each of
them as it is. -/
theorem tokens_joined_iff (ps : List q.Piece) :
    q.tokens (joined sp (ps.map Piece.text)) = ps.map Piece.word ↔ ∀ p ∈ ps, p.Reads := by
  refine ⟨fun h => ?_, tokens_joined hsp⟩
  obtain ⟨hnaked, hdoubled⟩ := naked_of_tokens hsp h
  have hne : sp ≠ q.quote := by
    rintro rfl
    simp [q.blank_quote] at hsp
  have hrest : ∀ {ps : List q.Piece} {t : List α}, (∀ p ∈ ps, p.naked = 0) →
      q.doubled .outside ((ps.map Piece.text).flatMap (sp :: ·)) = 0 →
      q.tokensFrom .outside (some t) ((ps.map Piece.text).flatMap (sp :: ·)) =
        t :: ps.map Piece.word → ∀ p ∈ ps, p.Reads := by
    intro ps
    induction ps with
    | nil => simp
    | cons p ps ih =>
      intro t hnaked hdoubled hread
      rw [List.forall_mem_cons] at hnaked
      rw [List.map_cons, List.flatMap_cons, List.cons_append] at hdoubled hread
      rw [tokensFrom_blank q hsp, List.map_cons, List.cons.injEq] at hread
      simp only [doubled, next, if_neg hne] at hdoubled
      obtain ⟨hreads, hdoubled', hread'⟩ := Piece.read_first hnaked.1 (by omega) hread.2
      exact List.forall_mem_cons.mpr ⟨hreads, ih hnaked.2 hdoubled' hread'⟩
  cases ps with
  | nil => simp
  | cons p ps =>
    rw [List.forall_mem_cons] at hnaked
    rw [List.map_cons, joined] at hdoubled
    rw [List.map_cons, joined, tokens, List.map_cons] at h
    obtain ⟨hreads, hdoubled', hread'⟩ := Piece.read_first hnaked.1 hdoubled h
    exact List.forall_mem_cons.mpr ⟨hreads, hrest hnaked.2 hdoubled' hread'⟩

/-! ### Lines that are one command -/

omit hsp

theorem outsideOf_wrap_inert {e : α → Bool} (he : ∀ c, e c = true → c = q.quote) {word : List α}
    (hquote : ∀ c ∈ word, c = q.quote → e c = true) (h : q.Inert word) :
    q.outsideOf .outside (q.wrap e word) = [q.quote] := by
  obtain ⟨hdoubled, hmode⟩ := (q.inert_iff he hquote (m := .inside) (by decide)).mpr ⟨by simp, h⟩
  have hbody := q.outsideOf_quotesOnly he hquote (m := .inside) (by decide) hdoubled
  rw [wrap, outsideOf, next_open, outsideOf_append, hbody, hmode]
  simp [outsideOf]

/-- A bare word does not stop the line. -/
def Piece.OneLine (stop : α → Bool) (p : q.Piece) : Prop :=
  p.form = .bare → ∀ c ∈ p.word, stop c = false

variable {stop : α → Bool}

theorem Piece.Reads.outside {p : q.Piece} (h : p.Reads) (hquote : stop q.quote = false) :
    (∀ c ∈ q.outsideOf .outside p.text, stop c = false) ↔ p.OneLine stop := by
  obtain ⟨form, word, valid⟩ := p
  cases form with
  | bare =>
    have hout : q.outsideOf .outside word = word := by
      have hword := (valid rfl).2
      clear valid h
      induction word with
      | nil => rfl
      | cons c word ih =>
        rw [List.forall_mem_cons] at hword
        rw [outsideOf, if_pos rfl, next, if_neg hword.1.1, ih hword.2, List.singleton_append]
    show (∀ c ∈ q.outsideOf .outside word, stop c = false) ↔ (_ → _)
    rw [hout]
    exact ⟨fun hall _ => hall, fun hall => hall rfl⟩
  | raw =>
    have hout := outsideOf_wrap_inert (e := fun _ => false) (by simp)
      (fun c hc heq => absurd (heq ▸ hc) h.1) h.2
    show (∀ c ∈ q.outsideOf .outside (q.wrap _ word), stop c = false) ↔ (_ → _)
    rw [hout]
    simp [hquote]
  | safe =>
    have hout := outsideOf_wrap_inert (e := fun c => c = q.quote) (by simp) (by simp) h
    show (∀ c ∈ q.outsideOf .outside (q.wrap _ word), stop c = false) ↔ (_ → _)
    rw [hout]
    simp [hquote]

theorem outsideOf_joined (hquote : stop q.quote = false) (hsp : q.blank sp = true)
    (hstop : stop sp = false) {ps : List q.Piece} (h : ∀ p ∈ ps, p.Reads) :
    (∀ c ∈ q.outsideOf .outside (joined sp (ps.map Piece.text)), stop c = false) ↔
      ∀ p ∈ ps, p.OneLine stop := by
  have hne : sp ≠ q.quote := by
    rintro rfl
    simp [q.blank_quote] at hsp
  have hrest : ∀ {ps : List q.Piece}, (∀ p ∈ ps, p.Reads) →
      ((∀ c ∈ q.outsideOf .outside ((ps.map Piece.text).flatMap (sp :: ·)), stop c = false) ↔
        ∀ p ∈ ps, p.OneLine stop) := by
    intro ps
    induction ps with
    | nil => simp [outsideOf]
    | cons p ps ih =>
      intro h
      rw [List.forall_mem_cons] at h
      rw [List.map_cons, List.flatMap_cons, List.cons_append, outsideOf, if_pos rfl, next, if_neg hne,
        outsideOf_append, h.1.mode, List.forall_mem_append, List.forall_mem_append,
        h.1.outside hquote, ih h.2, List.forall_mem_cons]
      simp [hstop]
  cases ps with
  | nil => simp [joined, outsideOf]
  | cons p ps =>
    rw [List.forall_mem_cons] at h
    rw [List.map_cons, joined, outsideOf_append, h.1.mode, List.forall_mem_append,
      h.1.outside hquote, hrest h.2, List.forall_mem_cons]

/-- A line is one command with all its words exactly if the quoting leaves each
of them as it is and no bare one stops the line. -/
theorem commands_joined_iff (hquote : stop q.quote = false) (hsp : q.blank sp = true)
    (hstop : stop sp = false) (ps : List q.Piece) :
    q.commands stop (joined sp (ps.map Piece.text)) = [ps.map Piece.word] ↔
      ∀ p ∈ ps, p.Reads ∧ p.OneLine stop := by
  rw [commands_eq_singleton_iff, tokens_joined_iff hsp, and_comm, forall₂_and]
  exact and_congr_right fun h => outsideOf_joined hquote hsp hstop h

end Quoting

end AmigaFleet.Lib

import AmigaFleet.Host.PyStr

/-!
# The words of a text

`words` cuts a text at every blank character (`words_append_space`).  A stripped
text begins with its first word: `strip_of_words`, `prefix_strip_iff`.

With a separator, `split` cuts as `List.splitOn` does: `split_eq_splitOn`.
-/

namespace AmigaFleet.Host.PyStr

theorem wordsGo_append_space {c : Char} (hc : isSpace c = true) (word x y : List Char) :
    wordsGo word (x ++ c :: y) = wordsGo word x ++ words y := by
  induction x generalizing word with
  | nil =>
    show (if isSpace c = true then _ else _) = (if word = [] then [] else [word]) ++ words y
    rw [if_pos hc]
    split <;> rfl
  | cons d x ih =>
    rw [List.cons_append, wordsGo, wordsGo, ih, ih]
    split
    · split <;> rfl
    · rfl

theorem words_append_space {c : Char} (hc : isSpace c = true) (x y : List Char) :
    words (x ++ c :: y) = words x ++ words y := wordsGo_append_space hc [] x y

theorem words_cons_space {c : Char} (hc : isSpace c = true) (y : List Char) :
    words (c :: y) = words y := words_append_space hc [] y

theorem wordsGo_word {w : List Char} (h : ∀ c ∈ w, isSpace c = false) (word : List Char) :
    wordsGo word w = if word ++ w = [] then [] else [word ++ w] := by
  induction w generalizing word with
  | nil => rw [wordsGo, List.append_nil]
  | cons c w ih =>
    obtain ⟨hc, hrest⟩ := List.forall_mem_cons.mp h
    show (if isSpace c = true then _ else wordsGo (word ++ [c]) w) = _
    rw [hc, if_neg Bool.false_ne_true, ih hrest, List.append_assoc]
    rfl

/-- A text without blanks is one word. -/
theorem words_of_word {w : List Char} (hne : w ≠ []) (h : ∀ c ∈ w, isSpace c = false) :
    words w = [w] := by
  rw [words, wordsGo_word h, List.nil_append, if_neg hne]

theorem words_spaces_append {t : List Char} (h : ∀ c ∈ t, isSpace c = true) (y : List Char) :
    words (t ++ y) = words y := by
  induction t with
  | nil => rfl
  | cons c t ih =>
    obtain ⟨hc, hrest⟩ := List.forall_mem_cons.mp h
    rw [List.cons_append, words_cons_space hc, ih hrest]

theorem words_append_spaces {t : List Char} (h : ∀ c ∈ t, isSpace c = true) (x : List Char) :
    words (x ++ t) = words x := by
  cases t with
  | nil => rw [List.append_nil]
  | cons c t =>
    obtain ⟨hc, hrest⟩ := List.forall_mem_cons.mp h
    have hnil : words t = [] := by
      have happ := words_spaces_append hrest []
      rwa [List.append_nil] at happ
    rw [words_append_space hc, hnil, List.append_nil]

/-- A word in front, with blanks behind it. -/
theorem words_word_append {w t : List Char} (hne : w ≠ []) (h : ∀ c ∈ w, isSpace c = false)
    (ht : ∀ c ∈ t.head?, isSpace c = true) : words (w ++ t) = w :: words t := by
  cases t with
  | nil => rw [List.append_nil, words_of_word hne h]; rfl
  | cons c t =>
    have hc := ht c rfl
    rw [words_append_space hc, words_of_word hne h, words_cons_space hc]
    rfl

/-- A text begins with blanks, and behind them with a word or not at all. -/
theorem spaces_word (s : List Char) :
    ∃ t w r, s = t ++ (w ++ r) ∧ (∀ c ∈ t, isSpace c = true) ∧ (∀ c ∈ w, isSpace c = false) ∧
      (∀ c ∈ r.head?, isSpace c = true) ∧ (w = [] → r = []) := by
  refine ⟨s.takeWhile isSpace, (s.dropWhile isSpace).takeWhile fun c => !isSpace c,
    (s.dropWhile isSpace).dropWhile fun c => !isSpace c, ?_, ?_, ?_, ?_, ?_⟩
  · rw [List.takeWhile_append_dropWhile, List.takeWhile_append_dropWhile]
  · exact fun c hc => List.mem_takeWhile_imp hc
  · intro c hc
    simpa using List.mem_takeWhile_imp hc
  · intro c hc
    have hnot := List.head?_dropWhile_not (fun c => !isSpace c) (s.dropWhile isSpace)
    rw [Option.mem_def.mp hc] at hnot
    simpa using hnot
  · intro hnil
    cases hdrop : s.dropWhile isSpace with
    | nil => rfl
    | cons c rest =>
      have hnot := List.head?_dropWhile_not isSpace s
      rw [hdrop] at hnot hnil
      dsimp only [List.head?_cons] at hnot
      rw [List.takeWhile_cons, if_pos (by simpa using hnot)] at hnil
      cases hnil

/-- Word by word. -/
theorem by_words {motive : List Char → Prop} (spaces : ∀ t, (∀ c ∈ t, isSpace c = true) → motive t)
    (word : ∀ t w r, (∀ c ∈ t, isSpace c = true) → w ≠ [] → (∀ c ∈ w, isSpace c = false) →
      (∀ c ∈ r.head?, isSpace c = true) → motive r → motive (t ++ (w ++ r)))
    (s : List Char) : motive s := by
  induction hn : s.length using Nat.strong_induction_on generalizing s with
  | _ n ih =>
    obtain ⟨t, w, r, rfl, ht, hw, hr, hnil⟩ := spaces_word s
    by_cases hempty : w = []
    · rw [hempty, hnil hempty, List.append_nil, List.append_nil]
      exact spaces t ht
    · refine word t w r ht hempty hw hr (ih r.length ?_ r rfl)
      have hpos := List.length_pos_iff.mpr hempty
      rw [List.length_append, List.length_append] at hn
      omega

theorem words_spaces {t : List Char} (h : ∀ c ∈ t, isSpace c = true) : words t = [] :=
  words_append_spaces h []

theorem mem_words {s w : List Char} (h : w ∈ words s) : w ≠ [] ∧ ∀ c ∈ w, isSpace c = false := by
  induction s using by_words with
  | spaces t ht =>
    rw [words_spaces ht] at h
    cases h
  | word t w' r ht hne hw hr ih =>
    rw [words_spaces_append ht, words_word_append hne hw hr] at h
    rcases List.mem_cons.mp h with rfl | hrest
    · exact ⟨hne, hw⟩
    · exact ih hrest

/-! ## Stripped texts -/

theorem strip_spec (s : List Char) :
    ∃ t r, s = t ++ (strip s ++ r) ∧ (∀ c ∈ t, isSpace c = true) ∧ ∀ c ∈ r, isSpace c = true := by
  refine ⟨s.takeWhile isSpace, (s.dropWhile isSpace).rtakeWhile isSpace, ?_, ?_, ?_⟩
  · rw [strip, List.rdropWhile_append_rtakeWhile, List.takeWhile_append_dropWhile]
  · exact fun c hc => List.mem_takeWhile_imp hc
  · exact fun c hc => List.mem_rtakeWhile_imp hc

theorem words_strip (s : List Char) : words (strip s) = words s := by
  obtain ⟨t, r, heq, ht, hr⟩ := strip_spec s
  have hwords : words s = words (t ++ (strip s ++ r)) := by rw [← heq]
  rw [hwords, words_spaces_append ht, words_append_spaces hr]

/-- A stripped text begins with its first word. -/
theorem strip_of_words {s w : List Char} {ws : List (List Char)} (h : words s = w :: ws) :
    ∃ r, strip s = w ++ r ∧ (∀ c ∈ r.head?, isSpace c = true) ∧ words r = ws := by
  rw [← words_strip] at h
  obtain ⟨t, w', r, heq, ht, hw, hr, hnil⟩ := spaces_word (strip s)
  have hblank : t = [] := by
    cases t with
    | nil => rfl
    | cons c t =>
      have hnot := head_strip (s := s) (c := c) (by rw [heq]; rfl)
      rw [ht c List.mem_cons_self] at hnot
      cases hnot
  rw [heq, hblank, List.nil_append] at h ⊢
  have hne : w' ≠ [] := by
    rintro rfl
    rw [hnil rfl] at h
    cases h
  rw [words_word_append hne hw hr] at h
  obtain ⟨rfl, rfl⟩ := List.cons.inj h
  exact ⟨r, rfl, hr, rfl⟩

theorem strip_eq_nil_iff (s : List Char) : strip s = [] ↔ words s = [] := by
  constructor
  · intro h
    rw [← words_strip, h]
    rfl
  · intro h
    rw [← words_strip] at h
    obtain ⟨t, w, r, heq, ht, hw, hr, hnil⟩ := spaces_word (strip s)
    have hw' : w = [] := by
      by_contra hne
      rw [heq, words_spaces_append ht, words_word_append hne hw hr] at h
      cases h
    rw [heq, hw', hnil hw', List.append_nil, List.append_nil]
    cases t with
    | nil => rfl
    | cons c t =>
      have hnot := head_strip (s := s) (c := c) (by rw [heq]; rfl)
      rw [ht c List.mem_cons_self] at hnot
      cases hnot

/-- What a stripped text begins with, its first word begins with. -/
theorem prefix_strip_iff {p : List Char} (hp : ∀ c ∈ p, isSpace c = false) {s w : List Char}
    {ws : List (List Char)} (h : words s = w :: ws) : p <+: strip s ↔ p <+: w := by
  obtain ⟨r, heq, hr, -⟩ := strip_of_words h
  rw [heq]
  constructor
  · intro hprefix
    rcases List.prefix_or_prefix_of_prefix hprefix (List.prefix_append w r) with hshort | ⟨q, rfl⟩
    · exact hshort
    · -- what `p` has behind the word would be blank
      cases q with
      | nil => simp
      | cons c q =>
        obtain ⟨q', hq⟩ := (List.prefix_append_right_inj w).mp hprefix
        have hblank := hr c (by rw [← hq]; rfl)
        rw [hp c (by simp)] at hblank
        cases hblank
  · exact fun hprefix => hprefix.trans (List.prefix_append w r)

/-! ## Splitting at a separator -/

theorem splitGo_eq (sep : Char) (part s : List Char) :
    splitGo sep part s = (s.splitOn sep).modifyHead (part ++ ·) := by
  induction s generalizing part with
  | nil => simp [splitGo]
  | cons c s ih =>
    rw [splitGo, List.splitOn_cons_eq_if_modifyHead]
    by_cases hc : c = sep
    · rw [if_pos hc, if_pos (beq_iff_eq.mpr hc), ih]
      cases s.splitOn sep <;> simp
    · rw [if_neg hc, if_neg (by simpa using hc), ih, List.modifyHead_modifyHead]
      congr 1
      funext rest
      simp

theorem split_eq_splitOn (sep : Char) (s : List Char) : split sep s = s.splitOn sep := by
  rw [split, splitGo_eq]
  cases s.splitOn sep <;> simp

end AmigaFleet.Host.PyStr

import AmigaFleet.Host.PyStr

/-!
# The lines of a text

`splitLines` gives each line with its line break; only the last one may have
none.  `Lined` says which lists of lines come from a text: `splitLines_flatten`
and `lined_splitLines`.  A line that ends in a return may not stand in front of
one that begins with a newline, for the two make one break.
-/

namespace AmigaFleet.Host.PyStr

/-- A line with its line break. -/
def Closed (ln : List Char) : Prop :=
  ∃ body brk, ln = body ++ brk ∧ (∀ c ∈ body, isLineBreak c = false) ∧
    ((∃ c, brk = [c] ∧ isLineBreak c = true) ∨ brk = ['\r', '\n'])

/-- A line without a line break. -/
def Open (ln : List Char) : Prop := ln ≠ [] ∧ ∀ c ∈ ln, isLineBreak c = false

/-- A line that stays one in front of the text `t`. -/
def Joins (ln t : List Char) : Prop := Closed ln ∧ ¬ (ln.getLast? = some '\r' ∧ t.head? = some '\n')

/-- Lines that stay lines in front of the text `t`. -/
def Joined (t : List Char) : List (List Char) → Prop
  | [] => True
  | ln :: lines => Joins ln (lines.flatten ++ t) ∧ Joined t lines

/-- The lines of a text. -/
def Lined : List (List Char) → Prop
  | [] => True
  | ln :: lines => (Joins ln lines.flatten ∨ lines = [] ∧ Open ln) ∧ Lined lines

/-! ## One line -/

theorem Closed.ne_nil {ln : List Char} (h : Closed ln) : ln ≠ [] := by
  obtain ⟨body, brk, rfl, -, ⟨c, rfl, -⟩ | rfl⟩ := h <;> simp

theorem Closed.getLast? {ln : List Char} (h : Closed ln) : ln.getLast?.any isLineBreak = true := by
  obtain ⟨body, brk, rfl, -, ⟨c, rfl, hc⟩ | rfl⟩ := h
  · simpa using hc
  · rw [List.getLast?_append]
    rfl

theorem Open.getLast? {ln : List Char} (h : Open ln) : ln.getLast?.any isLineBreak = false := by
  cases hlast : ln.getLast? with
  | none => rfl
  | some c => exact h.2 c (List.mem_of_getLast? hlast)

/-- A line that ends in a newline. -/
theorem closed_newline {body : List Char} (h : ∀ c ∈ body, isLineBreak c = false) :
    Closed (body ++ ['\n']) := ⟨body, ['\n'], rfl, h, Or.inl ⟨'\n', rfl, by decide⟩⟩

theorem joins_newline {body : List Char} (h : ∀ c ∈ body, isLineBreak c = false) (t : List Char) :
    Joins (body ++ ['\n']) t := by
  refine ⟨closed_newline h, fun hreturn => ?_⟩
  rw [List.getLast?_concat] at hreturn
  exact absurd hreturn.1 (by decide)

/-! ## Reading lines -/

theorem splitLinesGo_open {ln : List Char} (h : ∀ c ∈ ln, isLineBreak c = false)
    (line : List Char) : splitLinesGo line ln = if line ++ ln = [] then [] else [line ++ ln] := by
  induction ln generalizing line with
  | nil => rw [splitLinesGo, List.append_nil]
  | cons c ln ih =>
    obtain ⟨hc, hrest⟩ := List.forall_mem_cons.mp h
    rw [splitLinesGo, if_neg (by simp [hc]), ih hrest]
    · simp
    · rintro _ rfl
      exact absurd hc (by decide)

theorem splitLinesGo_joins {ln t : List Char} (h : Joins ln t) (line : List Char) :
    splitLinesGo line (ln ++ t) = (line ++ ln) :: splitLinesGo [] t := by
  obtain ⟨⟨body, brk, rfl, hbody, hbrk⟩, hreturn⟩ := h
  induction body generalizing line with
  | nil =>
    rw [List.nil_append] at hreturn ⊢
    rcases hbrk with ⟨c, rfl, hc⟩ | rfl
    · rw [List.singleton_append, splitLinesGo, if_pos hc]
      rintro rest rfl rfl
      exact hreturn ⟨rfl, rfl⟩
    · rw [List.cons_append, List.cons_append, splitLinesGo]
      rfl
  | cons c body ih =>
    obtain ⟨hc, hrest⟩ := List.forall_mem_cons.mp hbody
    have hlast : (c :: body ++ brk).getLast? = (body ++ brk).getLast? := by
      rw [List.cons_append, List.getLast?_cons]
      rcases hbrk with ⟨d, rfl, -⟩ | rfl <;> simp
    rw [hlast] at hreturn
    rw [List.cons_append, List.cons_append, splitLinesGo, if_neg (by simp [hc]), ih _ hreturn hrest]
    · simp
    · rintro _ rfl
      exact absurd hc (by decide)

/-- The lines of a text are read back. -/
theorem splitLines_flatten {lines : List (List Char)} (h : Lined lines) :
    splitLines lines.flatten = lines := by
  induction lines with
  | nil => rfl
  | cons ln lines ih =>
    obtain ⟨hjoins | ⟨rfl, hopen⟩, hrest⟩ := h
    · have hread := ih hrest
      unfold splitLines at hread ⊢
      rw [List.flatten_cons, splitLinesGo_joins hjoins, hread, List.nil_append]
    · rw [List.flatten_singleton, splitLines, splitLinesGo_open hopen.2, List.nil_append,
        if_neg hopen.1]

theorem splitLinesGo_spec (line s : List Char) (h : ∀ c ∈ line, isLineBreak c = false) :
    Lined (splitLinesGo line s) ∧ (splitLinesGo line s).flatten = line ++ s := by
  induction line, s using splitLinesGo.induct with
  | case1 => exact ⟨trivial, rfl⟩
  | case2 line hne =>
    rw [splitLinesGo, if_neg hne]
    exact ⟨⟨Or.inr ⟨rfl, hne, h⟩, trivial⟩, by simp⟩
  | case3 line rest ih =>
    obtain ⟨hlined, hflat⟩ := ih (by simp)
    rw [splitLinesGo]
    refine ⟨⟨Or.inl ⟨⟨line, ['\r', '\n'], rfl, h, Or.inr rfl⟩, fun hreturn => ?_⟩, hlined⟩, ?_⟩
    · rw [List.getLast?_append] at hreturn
      have hlast : '\n' = '\r' := Option.some.inj hreturn.1
      exact absurd hlast (by decide)
    · rw [List.flatten_cons, hflat]
      simp
  | case4 line c rest hpair hc ih =>
    obtain ⟨hlined, hflat⟩ := ih (by simp)
    rw [splitLinesGo, if_pos hc]
    case case4.x_1 => exact hpair
    refine ⟨⟨Or.inl ⟨⟨line, [c], rfl, h, Or.inl ⟨c, rfl, hc⟩⟩, fun hreturn => ?_⟩, hlined⟩, ?_⟩
    · rw [hflat, List.nil_append, List.getLast?_concat] at hreturn
      obtain ⟨hlast, hhead⟩ := hreturn
      obtain ⟨tail, rfl⟩ := List.head?_eq_some_iff.mp hhead
      exact hpair tail (Option.some.inj hlast) rfl
    · rw [List.flatten_cons, hflat]
      simp
  | case5 line c rest hpair hc ih =>
    rw [splitLinesGo, if_neg hc]
    case case5.x_1 => exact hpair
    obtain ⟨hlined, hflat⟩ := ih (by
      intro d hd
      rcases List.mem_append.mp hd with hd | hd
      · exact h d hd
      · rw [List.mem_singleton.mp hd]
        simpa using hc)
    exact ⟨hlined, by rw [hflat]; simp⟩

theorem lined_splitLines (s : List Char) : Lined (splitLines s) :=
  (splitLinesGo_spec [] s (by simp)).1

@[simp] theorem flatten_splitLines (s : List Char) : (splitLines s).flatten = s :=
  (splitLinesGo_spec [] s (by simp)).2

/-! ## Lists of lines -/

variable {t t' : List Char} {lines lines' : List (List Char)}

theorem joined_append : Joined t (lines ++ lines') ↔ Joined (lines'.flatten ++ t) lines ∧
    Joined t lines' := by
  induction lines with
  | nil => simp [Joined]
  | cons ln lines ih =>
    simp only [List.cons_append, Joined, ih, List.flatten_append, List.append_assoc, and_assoc]

/-- What follows matters by its first character. -/
theorem Joined.congr (h : Joined t lines) (ht : t'.head? = some '\n' → t.head? = some '\n') :
    Joined t' lines := by
  induction lines with
  | nil => trivial
  | cons ln lines ih =>
    obtain ⟨⟨hclosed, hreturn⟩, hrest⟩ := h
    refine ⟨⟨hclosed, fun hbad => hreturn ⟨hbad.1, ?_⟩⟩, ih hrest⟩
    have hhead := hbad.2
    rw [List.head?_append] at hhead ⊢
    cases hflat : lines.flatten.head? with
    | none =>
      rw [hflat] at hhead
      exact ht hhead
    | some c =>
      rw [hflat] at hhead
      exact hhead

theorem Joined.closed (h : Joined t lines) : ∀ ln ∈ lines, Closed ln := by
  induction lines with
  | nil => simp
  | cons ln lines ih => exact List.forall_mem_cons.mpr ⟨h.1.1, ih h.2⟩

/-- Lines that end in newlines. -/
theorem joined_newlines (t : List Char)
    (h : ∀ ln ∈ lines, ∃ body, ln = body ++ ['\n'] ∧ ∀ c ∈ body, isLineBreak c = false) :
    Joined t lines := by
  induction lines with
  | nil => trivial
  | cons ln lines ih =>
    obtain ⟨⟨body, rfl, hbody⟩, hrest⟩ := List.forall_mem_cons.mp h
    exact ⟨joins_newline hbody _, ih hrest⟩

/-- Lines that end in returns and newlines. -/
theorem joined_returns (t : List Char) (h : ∀ body ∈ lines, ∀ c ∈ body, isLineBreak c = false) :
    Joined t (lines.map (· ++ ['\r', '\n'])) := by
  induction lines with
  | nil => trivial
  | cons body lines ih =>
    obtain ⟨hbody, hrest⟩ := List.forall_mem_cons.mp h
    refine ⟨⟨⟨body, ['\r', '\n'], rfl, hbody, .inr rfl⟩, fun hreturn => ?_⟩, ih hrest⟩
    simp at hreturn

theorem Lined.of_joined (h : Joined [] lines) : Lined lines := by
  induction lines with
  | nil => trivial
  | cons ln lines ih =>
    have hjoins := h.1
    rw [List.append_nil] at hjoins
    exact ⟨Or.inl hjoins, ih h.2⟩

/-- The lines in front of others have their line breaks. -/
theorem lined_append (hne : lines' ≠ []) :
    Lined (lines ++ lines') ↔ Joined lines'.flatten lines ∧ Lined lines' := by
  induction lines with
  | nil => simp [Joined]
  | cons ln lines ih =>
    have happ : lines ++ lines' ≠ [] := fun h => hne (List.append_eq_nil_iff.mp h).2
    simp only [List.cons_append, Lined, Joined, ih, List.flatten_append, happ, false_and, or_false,
      and_assoc]

theorem Lined.ne_nil (h : Lined lines) : ∀ ln ∈ lines, ln ≠ [] := by
  induction lines with
  | nil => simp
  | cons ln lines ih =>
    refine List.forall_mem_cons.mpr ⟨?_, ih h.2⟩
    rcases h.1 with hjoins | ⟨-, hopen⟩
    · exact hjoins.1.ne_nil
    · exact hopen.1

theorem Lined.closed_or_open (h : Lined lines) : ∀ ln ∈ lines, Closed ln ∨ Open ln := by
  induction lines with
  | nil => simp
  | cons ln lines ih =>
    exact List.forall_mem_cons.mpr ⟨h.1.imp (fun hjoins => hjoins.1) fun hlast => hlast.2, ih h.2⟩

/-- A text is made of closed lines, or of closed lines and an open one. -/
theorem Lined.cases (h : Lined lines) :
    Joined [] lines ∨ ∃ front last, lines = front ++ [last] ∧ Joined last front ∧ Open last := by
  induction lines with
  | nil => exact Or.inl trivial
  | cons ln lines ih =>
    rcases h.1 with hjoins | ⟨rfl, hopen⟩
    · rcases ih h.2 with hall | ⟨front, last, rfl, hfront, hlast⟩
      · exact Or.inl ⟨by rwa [List.append_nil], hall⟩
      · refine Or.inr ⟨ln :: front, last, rfl, ⟨?_, hfront⟩, hlast⟩
        simpa using hjoins
    · exact Or.inr ⟨[], ln, rfl, trivial, hopen⟩

end AmigaFleet.Host.PyStr

import AmigaFleet.Host.Kicklayout
import AmigaFleet.Host.PyLines
import AmigaFleet.Lib.Paragraphs

/-!
# What `add_modules` makes of a text

`add_modules` puts lines behind the blocks of a text.  `lines_addModules` says
which lines the result has: those of the blocks as `reread` gives them.  The
two differ from what was put in only where the last line of the text has no
line break, for the first new line is then read as a part of it.

`preserved_iff` says when every line of the text is still there.
-/

namespace AmigaFleet.Host.Kicklayout

open AmigaFleet.Lib PyStr

/-! ## The lines that are put in -/

/-- `ln.strip() == ""` -/
def isBlank (ln : List Char) : Bool := strip ln = []

/-- A text without line breaks. -/
def Unbroken (s : List Char) : Prop := ∀ c ∈ s, isLineBreak c = false

theorem unbroken_of_all {s : List Char} (h : (s.all fun c => !isLineBreak c) = true) :
    Unbroken s := by
  intro c hc
  simpa using List.all_eq_true.mp h c hc

/-- `MODULE <name>` -/
def moduleText (m : List Char) : List Char := "MODULE ".toList ++ m ++ "\n".toList

/-- `; <label>` -/
def labelText (label : List Char) : List Char := "; ".toList ++ label ++ "\n".toList

section

variable (alnum : Char → Bool) (modules : List (List Char)) (label : List Char)

/-- The modules that the code misses in a block. -/
def missing (block : List (List Char)) : List (List Char) :=
  modules.filter fun m => !blockHasModule alnum block m

/-- The lines that are put behind a block. -/
def addition (block : List (List Char)) : List (List Char) :=
  if blockIsConfig block && missing alnum modules block ≠ [] then
    ";\n".toList :: labelText label :: (missing alnum modules block).map moduleText
  else []

/-- The last line of a block has no line break. -/
def endsOpen (block : List (List Char)) : Bool :=
  !block.getLast?.any fun ln => ln.getLast?.any isLineBreak

/-- A block and what is put behind it, as lines of the text that results. -/
def reread (block : List (List Char)) : List (List Char) :=
  if addition alnum modules label block ≠ [] && endsOpen block then
    block.dropLast ++ (block.getLast?.getD [] ++ ";\n".toList) ::
      (addition alnum modules label block).tail
  else block ++ addition alnum modules label block

end

variable {alnum : Char → Bool} {modules : List (List Char)} {label : List Char}
  {block : List (List Char)}

theorem flushBlock_eq (block : List (List Char)) :
    flushBlock alnum modules label block = block ++ addition alnum modules label block := by
  unfold flushBlock addition labelText moduleText missing
  cases blockIsConfig block with
  | false => simp
  | true =>
    by_cases hmissing : modules.filter (fun m => !blockHasModule alnum block m) = []
    · simp [hmissing]
    · simp [hmissing]

theorem addModulesLoop_eq (block lines : List (List Char)) :
    addModulesLoop alnum modules label block lines =
      mapBlocks isBlank (flushBlock alnum modules label) block lines := by
  induction lines generalizing block with
  | nil => rfl
  | cons ln lines ih =>
    rw [addModulesLoop, mapBlocks, ih, ih]
    simp [isBlank]

theorem addModules_eq (hne : modules ≠ []) (text : List Char) :
    addModules alnum text modules label =
      (mapBlocks isBlank (flushBlock alnum modules label) [] (splitLines text)).flatten := by
  rw [addModules, if_neg hne, addModulesLoop_eq]

theorem addition_eq_nil (h : missing alnum modules block = []) :
    addition alnum modules label block = [] := by
  simp [addition, h]

theorem addition_of_config (hconfig : blockIsConfig block = true)
    (h : missing alnum modules block ≠ []) :
    addition alnum modules label block =
      ";\n".toList :: labelText label :: (missing alnum modules block).map moduleText := by
  simp [addition, hconfig, h]

theorem addition_ne_nil : addition alnum modules label block ≠ [] ↔
    blockIsConfig block = true ∧ missing alnum modules block ≠ [] := by
  unfold addition
  cases blockIsConfig block <;> simp

/-- The lines that are put in end in newlines. -/
theorem addition_newline (hmodules : ∀ m ∈ modules, Unbroken m) (hlabel : Unbroken label)
    {ln : List Char} (h : ln ∈ addition alnum modules label block) :
    ∃ body, ln = body ++ ['\n'] ∧ Unbroken body := by
  have hkeyword : Unbroken "MODULE ".toList := unbroken_of_all rfl
  have hcomment : Unbroken "; ".toList := unbroken_of_all rfl
  by_cases hne : addition alnum modules label block = []
  · rw [hne] at h
    cases h
  · obtain ⟨hconfig, hmissing⟩ := addition_ne_nil.mp hne
    rw [addition_of_config hconfig hmissing] at h
    rcases List.mem_cons.mp h with rfl | h
    · exact ⟨[';'], rfl, unbroken_of_all rfl⟩
    · rcases List.mem_cons.mp h with rfl | h
      · exact ⟨"; ".toList ++ label, rfl, List.forall_mem_append.mpr ⟨hcomment, hlabel⟩⟩
      · obtain ⟨m, hm, rfl⟩ := List.mem_map.mp h
        exact ⟨"MODULE ".toList ++ m, rfl,
          List.forall_mem_append.mpr ⟨hkeyword, hmodules m (List.mem_of_mem_filter hm)⟩⟩

theorem addition_head (h : addition alnum modules label block ≠ []) (t : List Char) :
    ((addition alnum modules label block).flatten ++ t).head? = some ';' := by
  obtain ⟨hconfig, hmissing⟩ := addition_ne_nil.mp h
  rw [addition_of_config hconfig hmissing]
  rfl

/-! ## Reading the result -/

theorem endsOpen_of_joined {t : List Char} (hne : block ≠ []) (h : Joined t block) :
    endsOpen block = false := by
  have hlast := (h.closed _ (List.getLast_mem hne)).getLast?
  simp [endsOpen, List.getLast?_eq_some_getLast hne, hlast]

theorem endsOpen_concat {front : List (List Char)} {last : List Char} (h : Open last) :
    endsOpen (front ++ [last]) = true := by
  simp [endsOpen, h.getLast?]

theorem reread_of_joined {t : List Char} (hne : block ≠ []) (h : Joined t block) :
    reread alnum modules label block = block ++ addition alnum modules label block := by
  simp [reread, endsOpen_of_joined hne h]

theorem reread_of_nil (h : addition alnum modules label block = []) :
    reread alnum modules label block = block := by
  simp [reread, h]

theorem reread_concat {front : List (List Char)} {last : List Char} (hopen : Open last)
    (h : addition alnum modules label (front ++ [last]) ≠ []) :
    reread alnum modules label (front ++ [last]) =
      front ++ (last ++ ";\n".toList) :: (addition alnum modules label (front ++ [last])).tail := by
  simp [reread, endsOpen_concat hopen, h]

theorem flatten_reread (block : List (List Char)) :
    (reread alnum modules label block).flatten =
      (flushBlock alnum modules label block).flatten := by
  rw [flushBlock_eq]
  by_cases hadd : addition alnum modules label block = []
  · rw [reread_of_nil hadd, hadd, List.append_nil]
  · obtain ⟨hconfig, hmissing⟩ := addition_ne_nil.mp hadd
    unfold reread
    split
    · have hne : block ≠ [] := by
        rintro rfl
        cases hconfig
      have hflat : block.flatten = block.dropLast.flatten ++ block.getLast hne := by
        conv_lhs => rw [← List.dropLast_append_getLast hne]
        rw [List.flatten_append, List.flatten_singleton]
      rw [addition_of_config hconfig hmissing, List.getLast?_eq_some_getLast hne, Option.getD_some]
      simp [hflat]
    · rfl

/-- The lines of a block in front of the text `t`. -/
theorem joined_reread (hmodules : ∀ m ∈ modules, Unbroken m) (hlabel : Unbroken label)
    {t t' : List Char} (hne : block ≠ []) (h : Joined t block)
    (ht : t'.head? = some '\n' → t.head? = some '\n') :
    Joined t' (reread alnum modules label block) := by
  rw [reread_of_joined hne h]
  by_cases hadd : addition alnum modules label block = []
  · rw [hadd, List.append_nil]
    exact h.congr ht
  · refine joined_append.mpr ⟨h.congr fun hhead => ?_,
      joined_newlines _ fun ln hln => addition_newline hmodules hlabel hln⟩
    rw [addition_head hadd] at hhead
    exact absurd (Option.some.inj hhead) (by decide)

/-- The lines of the last block. -/
theorem lined_reread (hmodules : ∀ m ∈ modules, Unbroken m) (hlabel : Unbroken label)
    (hne : block ≠ []) (h : Lined block) : Lined (reread alnum modules label block) := by
  rcases h.cases with hjoined | ⟨front, last, rfl, hfront, hopen⟩
  · exact Lined.of_joined (joined_reread hmodules hlabel hne hjoined fun hnil => hnil)
  · by_cases hadd : addition alnum modules label (front ++ [last]) = []
    · rw [reread_of_nil hadd]
      exact h
    · rw [reread_concat hopen hadd]
      have hclosed : Joined [] ((last ++ ";\n".toList) ::
          (addition alnum modules label (front ++ [last])).tail) := by
        refine joined_newlines _ fun ln hln => ?_
        rcases List.mem_cons.mp hln with rfl | hln
        · refine ⟨last ++ [';'], by simp, List.forall_mem_append.mpr ⟨hopen.2, unbroken_of_all rfl⟩⟩
        · exact addition_newline hmodules hlabel (List.mem_of_mem_tail hln)
      refine Lined.of_joined (joined_append.mpr ⟨hfront.congr fun hhead => ?_, hclosed⟩)
      obtain ⟨c, rest, rfl⟩ := List.exists_cons_of_ne_nil hopen.1
      exact hhead

/-- The lines that the blocks are read back as. -/
theorem lined_mapBlocks (hmodules : ∀ m ∈ modules, Unbroken m) (hlabel : Unbroken label)
    {lines : List (List Char)} (h : Lined lines) :
    Lined (mapBlocks isBlank (reread alnum modules label) [] lines) ∧
      (mapBlocks isBlank (reread alnum modules label) [] lines).flatten.head? =
        lines.flatten.head? := by
  have hhead : ∀ b : List (List Char), (∀ ln ∈ b, ln ≠ []) → b ≠ [] → ∀ t t' : List Char,
      ((reread alnum modules label b).flatten ++ t).head? = (b.flatten ++ t').head? := by
    intro b hb hne t t'
    obtain ⟨ln, rest, rfl⟩ := List.exists_cons_of_ne_nil hne
    obtain ⟨c, cs, rfl⟩ := List.exists_cons_of_ne_nil (hb ln List.mem_cons_self)
    rw [flatten_reread, flushBlock_eq]
    rfl
  induction lines using blockInduction isBlank with
  | last b hb =>
    rw [mapBlocks_nonblank hb, List.nil_append]
    split
    · rename_i hnil
      rw [hnil]
      exact ⟨trivial, rfl⟩
    · rename_i hne
      refine ⟨lined_reread hmodules hlabel hne h, ?_⟩
      simpa using hhead b h.ne_nil hne [] []
  | cut b x l hb hx ih =>
    obtain ⟨hjoined, hrest⟩ := (lined_append (List.cons_ne_nil x l)).mp h
    obtain ⟨hlined, hsame⟩ := ih hrest.2
    have hxne : x ≠ [] := hrest.ne_nil x List.mem_cons_self
    have hcut : Lined (x :: mapBlocks isBlank (reread alnum modules label) [] l) := by
      refine ⟨?_, hlined⟩
      rcases hrest.1 with ⟨hclosed, hreturn⟩ | ⟨rfl, hopen⟩
      · exact Or.inl ⟨hclosed, by rwa [hsame]⟩
      · exact Or.inr ⟨rfl, hopen⟩
    rw [mapBlocks_cut hb hx, List.nil_append]
    split
    · rename_i hnil
      obtain ⟨c, cs, rfl⟩ := List.exists_cons_of_ne_nil hxne
      rw [hnil]
      exact ⟨hcut, rfl⟩
    · rename_i hne
      refine ⟨(lined_append (List.cons_ne_nil _ _)).mpr
        ⟨joined_reread hmodules hlabel hne hjoined fun hnl => ?_, hcut⟩, ?_⟩
      · obtain ⟨c, cs, rfl⟩ := List.exists_cons_of_ne_nil hxne
        exact hnl
      · rw [List.flatten_append, List.flatten_append]
        exact hhead b (fun ln hln => (hjoined.closed ln hln).ne_nil) hne _ _

/-- The lines of the text that results. -/
theorem lines_addModules (hmodules : ∀ m ∈ modules, Unbroken m) (hlabel : Unbroken label)
    (hne : modules ≠ []) (text : List Char) :
    splitLines (addModules alnum text modules label) =
      mapBlocks isBlank (reread alnum modules label) [] (splitLines text) := by
  have hflat : (mapBlocks isBlank (flushBlock alnum modules label) [] (splitLines text)).flatten =
      (mapBlocks isBlank (reread alnum modules label) [] (splitLines text)).flatten := by
    refine mapBlocks_rel (R := fun k k' => k.flatten = k'.flatten) rfl (fun _ => rfl) ?_ ?_
    · intro k k' m m' hk hm
      rw [List.flatten_append, List.flatten_append, hk, hm]
    · exact fun b _ => (flatten_reread b).symm
  rw [addModules_eq hne, hflat]
  exact splitLines_flatten (lined_mapBlocks hmodules hlabel (lined_splitLines text)).1

/-! ## What is still there -/

/-- A line that `add_modules` puts in. -/
def Inserted (modules : List (List Char)) (label ln : List Char) : Prop :=
  ln = ";\n".toList ∨ ln = labelText label ∨ ∃ m ∈ modules, ln = moduleText m

/-- The lines of the result are those of the text, with lines put in. -/
def Preserved (alnum : Char → Bool) (text : List Char) (modules : List (List Char))
    (label : List Char) : Prop :=
  Woven (Inserted modules label) (splitLines text)
    (splitLines (addModules alnum text modules label))

/-- The last line of the text has no line break, and a module is missing in the
block that it ends. -/
def MergesLast (alnum : Char → Bool) (text : List Char) (modules : List (List Char)) : Prop :=
  ∃ block ∈ blocks isBlank [] (splitLines text), endsOpen block = true ∧
    blockIsConfig block = true ∧ ∃ m ∈ modules, blockHasModule alnum block m = false

theorem missing_ne_nil : missing alnum modules block ≠ [] ↔
    ∃ m ∈ modules, blockHasModule alnum block m = false := by
  simp [missing]

theorem inserted_of_addition {ln : List Char} (h : ln ∈ addition alnum modules label block) :
    Inserted modules label ln := by
  have hne : addition alnum modules label block ≠ [] := List.ne_nil_of_mem h
  obtain ⟨hconfig, hmissing⟩ := addition_ne_nil.mp hne
  rw [addition_of_config hconfig hmissing] at h
  rcases List.mem_cons.mp h with rfl | h
  · exact Or.inl rfl
  · rcases List.mem_cons.mp h with rfl | h
    · exact Or.inr (Or.inl rfl)
    · obtain ⟨m, hm, rfl⟩ := List.mem_map.mp h
      exact Or.inr (Or.inr ⟨m, List.mem_of_mem_filter hm, rfl⟩)

theorem woven_reread (h : addition alnum modules label block = [] ∨ endsOpen block = false) :
    Woven (Inserted modules label) block (reread alnum modules label block) := by
  have hreread : reread alnum modules label block =
      block ++ addition alnum modules label block := by
    rcases h with hnil | hclosed
    · rw [reread_of_nil hnil, hnil, List.append_nil]
    · simp [reread, hclosed]
  rw [hreread]
  exact Woven.of_append block fun ln hln => inserted_of_addition hln

/-- If lines are put behind an open line, no line of the result is open. -/
theorem closed_mapBlocks (hmodules : ∀ m ∈ modules, Unbroken m) (hlabel : Unbroken label)
    {lines : List (List Char)} (hlined : Lined lines) (hblock : block ∈ blocks isBlank [] lines)
    (hopen : endsOpen block = true) (hadd : addition alnum modules label block ≠ []) :
    ∀ ln ∈ mapBlocks isBlank (reread alnum modules label) [] lines, Closed ln := by
  have hclosed : ∀ {b : List (List Char)}, ∀ ln ∈ addition alnum modules label b, Closed ln := by
    intro b ln hln
    obtain ⟨body, rfl, hbody⟩ := addition_newline hmodules hlabel hln
    exact closed_newline hbody
  have hne := (of_mem_blocks hblock).1
  induction lines using blockInduction isBlank with
  | last b hb =>
    obtain ⟨rfl, -⟩ := (mem_blocks_nonblank hb).mp hblock
    rw [mapBlocks_nonblank hb, List.nil_append, if_neg hne]
    rcases hlined.cases with hjoined | ⟨front, last, rfl, hfront, hlast⟩
    · rw [endsOpen_of_joined hne hjoined] at hopen
      cases hopen
    · rw [reread_concat hlast hadd]
      refine List.forall_mem_append.mpr ⟨hfront.closed, List.forall_mem_cons.mpr ⟨?_, ?_⟩⟩
      · have hbody : Unbroken (last ++ [';']) :=
          List.forall_mem_append.mpr ⟨hlast.2, unbroken_of_all rfl⟩
        simpa using closed_newline hbody
      · exact fun ln hln => hclosed ln (List.mem_of_mem_tail hln)
  | cut b x l hb hx ih =>
    obtain ⟨hjoined, hrest⟩ := (lined_append (List.cons_ne_nil x l)).mp hlined
    rcases (mem_blocks_cut hb hx).mp hblock with ⟨rfl, -⟩ | hblock
    · rw [endsOpen_of_joined hne hjoined] at hopen
      cases hopen
    · have hxclosed : Closed x := by
        rcases hrest.1 with hjoins | ⟨rfl, -⟩
        · exact hjoins.1
        · cases hblock
      rw [mapBlocks_cut hb hx, List.nil_append]
      refine List.forall_mem_append.mpr
        ⟨?_, List.forall_mem_cons.mpr ⟨hxclosed, ih hrest.2 hblock⟩⟩
      split
      · exact fun ln hln => absurd hln List.not_mem_nil
      · rename_i hbne
        rw [reread_of_joined hbne hjoined]
        exact List.forall_mem_append.mpr ⟨hjoined.closed, hclosed⟩

/-- Every line of the text is still there as a line of its own exactly if
nothing is put behind a last line that has no line break. -/
theorem preserved_iff (alnum : Char → Bool) (text : List Char) (modules : List (List Char))
    (label : List Char) (hmodules : ∀ m ∈ modules, Unbroken m) (hlabel : Unbroken label) :
    Preserved alnum text modules label ↔ ¬ MergesLast alnum text modules := by
  unfold Preserved MergesLast
  by_cases hne : modules = []
  · subst hne
    rw [addModules, if_pos rfl]
    exact iff_of_true (Woven.refl _ _) (by simp)
  rw [lines_addModules hmodules hlabel hne]
  constructor
  · rintro hwoven ⟨block, hblock, hopen, hconfig, hmissing⟩
    obtain ⟨hbne, -, hmem⟩ := of_mem_blocks hblock
    have hadd : addition alnum modules label block ≠ [] :=
      addition_ne_nil.mpr ⟨hconfig, missing_ne_nil.mpr hmissing⟩
    have hclosed := closed_mapBlocks hmodules hlabel (lined_splitLines text) hblock hopen hadd
    -- the last line is open, but all lines of the result are closed
    have hlast := (hclosed _ (hwoven.mem (hmem _ (List.getLast_mem hbne)))).getLast?
    rw [endsOpen, List.getLast?_eq_some_getLast hbne, Option.any_some, hlast] at hopen
    cases hopen
  · intro hfine
    refine rel_mapBlocks Woven.nil (fun x => Woven.refl _ [x]) Woven.append fun block hblock => ?_
    refine woven_reread ?_
    by_cases hadd : addition alnum modules label block = []
    · exact Or.inl hadd
    · obtain ⟨hconfig, hmissing⟩ := addition_ne_nil.mp hadd
      refine Or.inr (Bool.eq_false_iff.mpr fun hopen => ?_)
      exact hfine ⟨block, hblock, hopen, hconfig, missing_ne_nil.mp hmissing⟩

instance (alnum : Char → Bool) (text : List Char) (modules : List (List Char)) :
    Decidable (MergesLast alnum text modules) :=
  inferInstanceAs (Decidable (∃ block ∈ blocks isBlank [] (splitLines text), _))

/-- A text that ends in a newline. -/
theorem preserved_newline :
    Preserved (fun _ => false) "LABEL A\nMODULE a\n".toList ["b".toList] "L".toList :=
  (preserved_iff (fun _ => false) "LABEL A\nMODULE a\n".toList ["b".toList] "L".toList
    (fun m hm => by
      rw [List.mem_singleton.mp hm]
      exact unbroken_of_all rfl)
    (unbroken_of_all rfl)).mpr (by decide +kernel)

/-- A text that does not: its last line becomes `MODULE a;`. -/
theorem last_line_merged :
    ¬ Preserved (fun _ => false) "LABEL A\nMODULE a".toList ["b".toList] "L".toList := by
  intro hwoven
  have hline : "MODULE a".toList ∈ splitLines
      (addModules (fun _ => false) "LABEL A\nMODULE a".toList ["b".toList] "L".toList) :=
    hwoven.mem (by decide +kernel)
  exact absurd hline (by decide +kernel)

/-! ## Blocks of the result -/

/-- `ln` makes its block a config block. -/
def isConfigLine (ln : List Char) : Bool :=
  let s := ln.dropWhile isSpace
  !(s.head? = some ';' || s = []) &&
    ("LABEL".toList.isPrefixOf (upper s) || "EXEC".toList.isPrefixOf (upper s))

theorem blockIsConfig_eq (block : List (List Char)) :
    blockIsConfig block = block.any isConfigLine :=
  rfl

theorem isBlank_eq_false {ln : List Char} : isBlank ln = false ↔ ∃ c ∈ ln, isSpace c = false := by
  unfold isBlank strip
  rw [decide_eq_false_iff_not, List.rdropWhile_eq_nil_iff]
  constructor
  · intro h
    by_contra hall
    push Not at hall
    refine h fun c hc => ?_
    have hspace := hall c ((List.dropWhile_sublist _).mem hc)
    simpa using hspace
  · rintro ⟨c, hc, hspace⟩ hall
    have hdrop : ln.dropWhile isSpace ≠ [] := by
      intro hnil
      rw [List.dropWhile_eq_nil_iff] at hnil
      rw [hnil c hc] at hspace
      cases hspace
    have hhead := List.head_dropWhile_not isSpace hdrop
    rw [hall _ (List.head_mem hdrop)] at hhead
    cases hhead

/-- The blanks in front of a line that is not blank. -/
theorem dropWhile_append_of_nonblank {ln : List Char} (h : isBlank ln = false) (u : List Char) :
    (ln ++ u).dropWhile isSpace = ln.dropWhile isSpace ++ u := by
  obtain ⟨c, hc, hspace⟩ := isBlank_eq_false.mp h
  rw [List.dropWhile_append, if_neg]
  intro hnil
  rw [List.isEmpty_iff, List.dropWhile_eq_nil_iff] at hnil
  rw [hnil c hc] at hspace
  cases hspace

theorem nonblank_addition {ln : List Char} (h : ln ∈ addition alnum modules label block) :
    isBlank ln = false := by
  refine isBlank_eq_false.mpr ?_
  rcases inserted_of_addition h with rfl | rfl | ⟨m, -, rfl⟩
  · exact ⟨';', by decide, by decide⟩
  · exact ⟨';', List.mem_append_left _ (List.mem_append_left _ (by decide)), by decide⟩
  · exact ⟨'M', List.mem_append_left _ (List.mem_append_left _ (by decide)), by decide⟩

/-- A block as it is read back, from its last line on. -/
theorem reread_cases (alnum : Char → Bool) (modules : List (List Char)) (label : List Char)
    (block : List (List Char)) :
    reread alnum modules label block = block ++ addition alnum modules label block ∨
      ∃ front last, block = front ++ [last] ∧ endsOpen block = true ∧
        blockIsConfig block = true ∧ missing alnum modules block ≠ [] ∧
        reread alnum modules label block = front ++ (last ++ ";\n".toList) ::
          labelText label :: (missing alnum modules block).map moduleText := by
  unfold reread
  split
  · rename_i h
    rw [Bool.and_eq_true, decide_eq_true_eq] at h
    obtain ⟨hconfig, hmissing⟩ := addition_ne_nil.mp h.1
    have hne : block ≠ [] := by
      rintro rfl
      cases hconfig
    refine Or.inr ⟨block.dropLast, block.getLast hne, (List.dropLast_append_getLast hne).symm, h.2,
      hconfig, hmissing, ?_⟩
    rw [addition_of_config hconfig hmissing, List.getLast?_eq_some_getLast hne]
    rfl
  · exact Or.inl rfl

/-- A block stays a block. -/
theorem nonblank_reread {lines : List (List Char)} (h : block ∈ blocks isBlank [] lines) :
    reread alnum modules label block ≠ [] ∧
      ∀ ln ∈ reread alnum modules label block, isBlank ln = false := by
  obtain ⟨hne, hblank, -⟩ := of_mem_blocks h
  rcases reread_cases alnum modules label block with
    hreread | ⟨front, last, rfl, -, hconfig, hmissing, hreread⟩
  · rw [hreread]
    exact ⟨fun hnil => hne (List.append_eq_nil_iff.mp hnil).1,
      List.forall_mem_append.mpr ⟨hblank, fun ln hln => nonblank_addition hln⟩⟩
  · rw [hreread]
    have hadd : addition alnum modules label (front ++ [last]) = _ :=
      addition_of_config hconfig hmissing
    refine ⟨by simp, List.forall_mem_append.mpr
      ⟨fun ln hln => hblank ln (List.mem_append_left _ hln), List.forall_mem_cons.mpr ⟨?_, ?_⟩⟩⟩
    · exact isBlank_eq_false.mpr ⟨';', List.mem_append_right _ (by decide), by decide⟩
    · intro ln hln
      have hmem : ln ∈ addition alnum modules label (front ++ [last]) := by
        rw [hadd]
        exact List.mem_cons_of_mem _ hln
      exact nonblank_addition hmem

theorem blocks_reread (lines : List (List Char)) :
    blocks isBlank [] (mapBlocks isBlank (reread alnum modules label) [] lines) =
      (blocks isBlank [] lines).map (reread alnum modules label) :=
  blocks_mapBlocks fun _ h => nonblank_reread h

theorem isConfigLine_append {ln : List Char} (h : isConfigLine ln = true) (u : List Char) :
    isConfigLine (ln ++ u) = true := by
  unfold isConfigLine at h ⊢
  have hblank : isBlank ln = false := by
    by_contra hblank
    rw [Bool.not_eq_false, isBlank, decide_eq_true_eq, strip, List.rdropWhile_eq_nil_iff] at hblank
    cases hs : ln.dropWhile isSpace with
    | nil => simp [hs] at h
    | cons c rest =>
      have hne : ln.dropWhile isSpace ≠ [] := by simp [hs]
      have hhead := List.head_dropWhile_not isSpace hne
      rw [hblank _ (List.head_mem hne)] at hhead
      cases hhead
  rw [dropWhile_append_of_nonblank hblank]
  cases hs : ln.dropWhile isSpace with
  | nil => simp [hs] at h
  | cons c rest =>
    simp only [hs, Bool.and_eq_true, Bool.or_eq_true, List.isPrefixOf_iff_prefix] at h ⊢
    refine ⟨by simpa using h.1, h.2.imp ?_ ?_⟩
    · intro hpre
      rw [upper_append]
      exact hpre.trans (List.prefix_append _ _)
    · intro hpre
      rw [upper_append]
      exact hpre.trans (List.prefix_append _ _)

/-- What is put behind a block does not change what it is. -/
theorem config_reread (block : List (List Char)) :
    blockIsConfig (reread alnum modules label block) = blockIsConfig block := by
  rcases reread_cases alnum modules label block with
    hreread | ⟨front, last, rfl, -, hconfig, -, hreread⟩
  · rw [hreread]
    by_cases hadd : addition alnum modules label block = []
    · rw [hadd, List.append_nil]
    · have hconfig := (addition_ne_nil.mp hadd).1
      rw [hconfig, blockIsConfig_eq, List.any_append, ← blockIsConfig_eq, hconfig, Bool.true_or]
  · rw [hreread, hconfig, blockIsConfig_eq]
    rw [blockIsConfig_eq, List.any_append, Bool.or_eq_true] at hconfig
    rw [List.any_append, List.any_cons]
    rcases hconfig with hfront | hlast
    · rw [hfront, Bool.true_or]
    · rw [isConfigLine_append (by simpa using hlast), Bool.true_or, Bool.or_true]

end AmigaFleet.Host.Kicklayout

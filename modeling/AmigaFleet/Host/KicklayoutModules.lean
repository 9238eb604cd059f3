import AmigaFleet.Host.KicklayoutEdit

/-!
# Which modules `add_modules` finds

A module counts as present in a block if some line of the block matches
`^\s*MODULE\b.*tail\b`, where `tail` is the base name of the module.  So a longer
name that ends in `tail` counts too, and a name that ends in something else than
a letter or a digit is not found where it stands at the end of its line.

* `idempotent_iff`: when a second call changes nothing.
* `complete_iff`: when every config block has a line for every module.
-/

namespace AmigaFleet.Host.Kicklayout

open AmigaFleet.Lib PyStr

variable {alnum : Char → Bool} {text : List Char} {modules : List (List Char)} {label : List Char}
  {block : List (List Char)}

/-! ## Base names -/

/-- The name that the code looks for. -/
def tailOf (m : List Char) : List Char := (split '/' m).getLast?.getD []

theorem blockHasModule_eq (block : List (List Char)) (m : List Char) :
    blockHasModule alnum block m = block.any (moduleLine alnum (tailOf m)) := rfl

theorem rtakeWhile_cons {p : Char → Bool} (c : Char) (s : List Char) :
    (c :: s).rtakeWhile p =
      if s.all p then (if p c then c :: s else s) else s.rtakeWhile p := by
  unfold List.rtakeWhile
  rw [List.reverse_cons, List.takeWhile_append]
  cases hall : s.all p with
  | true =>
    have hrev : s.reverse.takeWhile p = s.reverse :=
      List.takeWhile_eq_self_iff.mpr fun d hd =>
        List.all_eq_true.mp hall d (List.mem_reverse.mp hd)
    cases hc : p c <;> simp [hrev, hc]
  | false =>
    have hlen : ¬ (s.reverse.takeWhile p).length = s.reverse.length := by
      intro hlen
      have heq := (List.takeWhile_prefix p).eq_of_length hlen
      rw [← Bool.not_eq_true, List.all_eq_true] at hall
      exact hall fun d hd => List.takeWhile_eq_self_iff.mp heq d (List.mem_reverse.mpr hd)
    rw [if_neg hlen, if_neg Bool.false_ne_true]

theorem splitGo_ne_nil (sep : Char) (part s : List Char) : splitGo sep part s ≠ [] := by
  induction s generalizing part with
  | nil => simp [splitGo]
  | cons c s ih =>
    rw [splitGo]
    split
    · simp
    · exact ih _

theorem getLast?_splitGo (sep : Char) (part s : List Char) :
    (splitGo sep part s).getLast?.getD [] =
      if sep ∈ s then s.rtakeWhile (· ≠ sep) else part ++ s := by
  induction s generalizing part with
  | nil => simp [splitGo]
  | cons c s ih =>
    have hall : (s.all fun d => decide (d ≠ sep)) = true ↔ sep ∉ s := by
      rw [List.all_eq_true]
      simp only [decide_eq_true_eq]
      exact ⟨fun h hmem => h sep hmem rfl, fun h d hd heq => h (heq ▸ hd)⟩
    rw [splitGo, rtakeWhile_cons]
    simp only [hall]
    by_cases hc : c = sep
    · subst hc
      obtain ⟨d, rest, hcons⟩ := List.exists_cons_of_ne_nil (splitGo_ne_nil c [] s)
      have hsplit := ih []
      rw [hcons] at hsplit
      rw [if_pos rfl, hcons, List.getLast?_cons_cons, hsplit]
      by_cases hmem : c ∈ s <;> simp [hmem]
    · rw [if_neg hc, ih]
      by_cases hmem : sep ∈ s
      · simp [hmem]
      · simp [hmem, Ne.symm hc]

/-- The base name of a path is what stands behind its last slash. -/
theorem tailOf_eq (m : List Char) : tailOf m = m.rtakeWhile (· ≠ '/') := by
  rw [tailOf, split, getLast?_splitGo]
  split
  · rfl
  · rename_i hmem
    rw [List.nil_append, eq_comm, List.rtakeWhile_eq_self_iff]
    intro c hc
    rw [decide_eq_true_eq]
    rintro rfl
    exact hmem hc

theorem unbroken_tailOf {m : List Char} (h : Unbroken m) : Unbroken (tailOf m) := by
  rw [tailOf_eq]
  exact fun c hc => h c ((List.rtakeWhile_suffix _ _).mem hc)

/-! ## A line with a comment sign behind it -/

/-- `tail` and `\b` at a place of the line. -/
def tailHere (alnum : Char → Bool) (tail : List Char) (prev : Char) (s : List Char) : Bool :=
  tail.isPrefixOf s && wordBoundary alnum (tail.getLast?.getD prev) (s.drop tail.length)

theorem searchTail_nil (tail : List Char) (prev : Char) :
    searchTail alnum tail prev [] = tailHere alnum tail prev [] := by
  cases tail <;> simp [searchTail, tailHere]

theorem searchTail_cons (tail : List Char) (prev c : Char) (s : List Char) :
    searchTail alnum tail prev (c :: s) =
      (tailHere alnum tail prev (c :: s) || (c ≠ '\n' && searchTail alnum tail c s)) := rfl

theorem wordBoundary_append (prev : Char) (s : List Char) :
    wordBoundary alnum prev (s ++ ";\n".toList) = wordBoundary alnum prev s := by
  cases s <;> rfl

theorem not_wordBoundary : wordBoundary alnum ';' ['\n'] = false := rfl

/-- The sign adds no place and takes none away. -/
theorem tailHere_append (alnum : Char → Bool) {tail : List Char} (htail : Unbroken tail)
    (prev : Char) (s : List Char) :
    tailHere alnum tail prev (s ++ ";\n".toList) = tailHere alnum tail prev s := by
  unfold tailHere
  by_cases hle : tail.length ≤ s.length
  · have hpre : tail.isPrefixOf (s ++ ";\n".toList) = tail.isPrefixOf s := by
      rw [Bool.eq_iff_iff, List.isPrefixOf_iff_prefix, List.isPrefixOf_iff_prefix]
      exact ⟨fun h => List.prefix_of_prefix_length_le h (List.prefix_append _ _) hle,
        fun h => h.trans (List.prefix_append _ _)⟩
    rw [hpre, List.drop_append_of_le_length hle, wordBoundary_append]
  · have hnot : tail.isPrefixOf s = false := by
      rw [Bool.eq_false_iff, Ne, List.isPrefixOf_iff_prefix]
      exact fun h => hle h.length_le
    rw [hnot, Bool.false_and, Bool.and_eq_false_iff]
    by_contra hboth
    push Not at hboth
    obtain ⟨hpre, hboundary⟩ := hboth
    rw [Bool.ne_false_iff, List.isPrefixOf_iff_prefix] at hpre
    -- the name would end in the sign itself, with the line break behind it
    have htake := List.prefix_iff_eq_take.mp hpre
    rw [List.take_append, List.take_of_length_le (by omega)] at htake
    have hsign : tail.length - s.length = 1 := by
      by_contra hmore
      have hlong : 2 ≤ tail.length - s.length := by omega
      rw [List.take_of_length_le hlong] at htake
      have hbreak : '\n' ∈ tail := by
        rw [htake]
        exact List.mem_append_right _ (by decide)
      exact absurd (htail _ hbreak) (by decide)
    rw [hsign] at htake
    have hlast : tail.getLast?.getD prev = ';' := by
      rw [htake]
      simp
    have hdrop : (s ++ ";\n".toList).drop tail.length = ['\n'] := by
      rw [List.drop_append, List.drop_of_length_le (by omega), hsign]
      rfl
    rw [hlast, hdrop] at hboundary
    exact hboundary not_wordBoundary

theorem searchTail_append {tail : List Char} (htail : Unbroken tail) {s : List Char}
    (hs : '\n' ∉ s) (prev : Char) :
    searchTail alnum tail prev (s ++ ";\n".toList) = searchTail alnum tail prev s := by
  induction s generalizing prev with
  | nil =>
    have hsign : searchTail alnum tail ';' ['\n'] = false := by
      rw [searchTail_cons]
      cases tail with
      | nil => rfl
      | cons d tail =>
        have hd : d ≠ '\n' := by
          rintro rfl
          exact absurd (htail _ List.mem_cons_self) (by decide)
        simp [tailHere, hd]
    have hhere := tailHere_append alnum htail prev []
    rw [List.nil_append] at hhere ⊢
    rw [searchTail_nil, ← hhere]
    show searchTail alnum tail prev [';', '\n'] = tailHere alnum tail prev [';', '\n']
    rw [searchTail_cons, hsign, Bool.and_false, Bool.or_false]
  | cons c s ih =>
    obtain ⟨-, hrest⟩ := not_or.mp (List.mem_cons.not.mp hs)
    have hhere := tailHere_append alnum htail prev (c :: s)
    rw [List.cons_append] at hhere ⊢
    rw [searchTail_cons, searchTail_cons, hhere, ih hrest]

/-- A word that stands in front of the sign. -/
theorem isPrefixOf_append {w : List Char} (hw : ';' ∉ w) (s : List Char) :
    w.isPrefixOf (s ++ ";\n".toList) = w.isPrefixOf s := by
  rw [Bool.eq_iff_iff, List.isPrefixOf_iff_prefix, List.isPrefixOf_iff_prefix]
  refine ⟨fun h => ?_, fun h => h.trans (List.prefix_append _ _)⟩
  by_cases hle : w.length ≤ s.length
  · exact List.prefix_of_prefix_length_le h (List.prefix_append _ _) hle
  · refine absurd ?_ hw
    rw [List.prefix_iff_eq_take.mp h, List.take_append]
    refine List.mem_append_right _ ?_
    obtain ⟨n, hn⟩ : ∃ n, w.length - s.length = n + 1 := ⟨w.length - s.length - 1, by omega⟩
    rw [hn]
    exact List.mem_cons_self

/-- A comment sign behind the last line hides no module and adds none. -/
theorem moduleLine_append {tail ln : List Char} (htail : Unbroken tail) (hopen : Open ln)
    (hblank : isBlank ln = false) :
    moduleLine alnum tail (ln ++ ";\n".toList) = moduleLine alnum tail ln := by
  unfold moduleLine
  rw [dropWhile_append_of_nonblank hblank]
  have hs : '\n' ∉ ln.dropWhile isSpace := fun hmem =>
    absurd (hopen.2 _ ((List.dropWhile_sublist _).mem hmem)) (by decide)
  generalize ln.dropWhile isSpace = s at hs
  show ("MODULE".toList.isPrefixOf (s ++ ";\n".toList) && _) = ("MODULE".toList.isPrefixOf s && _)
  rw [isPrefixOf_append (by decide)]
  cases hkeyword : "MODULE".toList.isPrefixOf s with
  | false => rfl
  | true =>
    have hle : 6 ≤ s.length := (List.isPrefixOf_iff_prefix.mp hkeyword).length_le
    rw [List.drop_append_of_le_length hle, wordBoundary_append, searchTail_append htail]
    exact fun hmem => hs ((List.drop_sublist _ _).mem hmem)

/-! ## The lines of a block of the result -/

/-- The lines of the block that are lines of the result, the last one with the
comment sign that stands behind it. -/
def kept (alnum : Char → Bool) (modules block : List (List Char)) : List (List Char) :=
  if blockIsConfig block && missing alnum modules block ≠ [] && endsOpen block then
    block.dropLast ++ [block.getLast?.getD [] ++ ";\n".toList]
  else block

/-- What some line of the block is: one of its old lines, or one that was put in. -/
theorem any_reread (alnum : Char → Bool) (modules : List (List Char)) {p : List Char → Bool}
    (hsign : p ";\n".toList = false) (hlabel : p (labelText label) = false)
    (block : List (List Char)) :
    (reread alnum modules label block).any p = ((kept alnum modules block).any p ||
      blockIsConfig block && (missing alnum modules block).any fun m => p (moduleText m)) := by
  by_cases hadd : addition alnum modules label block = []
  · have hnone : (blockIsConfig block &&
        (missing alnum modules block).any fun m => p (moduleText m)) = false := by
      cases hconfig : blockIsConfig block with
      | false => rfl
      | true =>
        have hmissing : missing alnum modules block = [] := by
          by_contra hne
          exact addition_ne_nil.mpr ⟨hconfig, hne⟩ hadd
        rw [hmissing]
        rfl
    have hkept : kept alnum modules block = block := by
      rw [kept, if_neg]
      intro h
      simp only [Bool.and_eq_true, decide_eq_true_eq] at h
      exact addition_ne_nil.mpr h.1 hadd
    rw [reread_of_nil hadd, hnone, hkept, Bool.or_false]
  · obtain ⟨hconfig, hmissing⟩ := addition_ne_nil.mp hadd
    have hnew : (labelText label :: (missing alnum modules block).map moduleText).any p =
        (missing alnum modules block).any fun m => p (moduleText m) := by
      rw [List.any_cons, hlabel, Bool.false_or, List.any_map]
      rfl
    rw [reread, kept, hconfig, decide_eq_true hadd, decide_eq_true hmissing]
    cases hopen : endsOpen block with
    | false =>
      rw [if_neg (by simp), if_neg (by simp), List.any_append,
        addition_of_config hconfig hmissing, List.any_cons, hsign, Bool.false_or, hnew]
      rfl
    | true =>
      rw [if_pos (by simp), if_pos (by simp), addition_of_config hconfig hmissing, List.tail_cons,
        List.any_append, List.any_cons, hnew, List.any_append, List.any_cons, List.any_nil,
        Bool.or_false, Bool.or_assoc]
      rfl

/-- The old lines are what they were before, where the sign makes no difference. -/
theorem any_kept {p : List Char → Bool}
    (hp : ∀ ln, Open ln → isBlank ln = false → p (ln ++ ";\n".toList) = p ln)
    {lines : List (List Char)} (hlined : Lined lines) (hblock : block ∈ blocks isBlank [] lines) :
    (kept alnum modules block).any p = block.any p := by
  obtain ⟨hne, hblank, hmem⟩ := of_mem_blocks hblock
  unfold kept
  split
  · rename_i h
    rw [Bool.and_eq_true] at h
    have hlast : block.getLast hne ∈ block := List.getLast_mem hne
    have hopen : Open (block.getLast hne) := by
      refine (hlined.closed_or_open _ (hmem _ hlast)).resolve_left fun hclosed => ?_
      have hends := h.2
      rw [endsOpen, List.getLast?_eq_some_getLast hne, Option.any_some, hclosed.getLast?] at hends
      cases hends
    rw [List.getLast?_eq_some_getLast hne, Option.getD_some, List.any_append, List.any_cons,
      hp _ hopen (hblank _ hlast)]
    conv_rhs => rw [← List.dropLast_append_getLast hne]
    rw [List.any_append, List.any_cons]
  · rfl

/-! ## Applying the edit twice -/

theorem addModules_eq_self : addModules alnum text modules label = text ↔
    ∀ block ∈ blocks isBlank [] (splitLines text), addition alnum modules label block = [] := by
  by_cases hne : modules = []
  · subst hne
    simp [addModules, addition, missing]
  have hgrow : ∀ b : List (List Char), ((flushBlock alnum modules label b).map List.length).sum =
      (b.map List.length).sum + ((addition alnum modules label b).map List.length).sum := by
    intro b
    rw [flushBlock_eq, List.map_append, List.sum_append]
  rw [addModules_eq hne]
  constructor
  · intro hsame block hblock
    -- the text has grown by what was put in
    have hlen := congrArg List.length hsame
    rw [List.length_flatten] at hlen
    have htext : (((splitLines text).map List.length)).sum = text.length := by
      rw [← List.length_flatten, flatten_splitLines]
    have hweight := (weight_mapBlocks List.length
      (fun b => by rw [hgrow]; exact Nat.le_add_right _ _)).2
        (by rw [hlen, htext]) block hblock
    rw [hgrow] at hweight
    by_contra hadd
    obtain ⟨hconfig, hmissing⟩ := addition_ne_nil.mp hadd
    rw [addition_of_config hconfig hmissing, List.map_cons, List.sum_cons] at hweight
    have hsign : (";\n".toList).length = 2 := rfl
    omega
  · intro hnone
    rw [mapBlocks_eq_self fun block hblock => ?_, flatten_splitLines]
    rw [flushBlock_eq, hnone block hblock, List.append_nil]

/-- Each module that is put into a block is found there by a line that is put in. -/
def Recognised (alnum : Char → Bool) (text : List Char) (modules : List (List Char)) : Prop :=
  ∀ block ∈ blocks isBlank [] (splitLines text), blockIsConfig block = true →
    ∀ m ∈ missing alnum modules block, ∃ m' ∈ missing alnum modules block,
      moduleLine alnum (tailOf m) (moduleText m') = true

/-- The edit does not change its own result exactly if each module is found in
what was put in. -/
theorem idempotent_iff (alnum : Char → Bool) (text : List Char) (modules : List (List Char))
    (label : List Char) (hmodules : ∀ m ∈ modules, Unbroken m) (hlabel : Unbroken label) :
    addModules alnum (addModules alnum text modules label) modules label =
        addModules alnum text modules label ↔
      Recognised alnum text modules := by
  rw [addModules_eq_self]
  by_cases hne : modules = []
  · subst hne
    exact iff_of_true (fun block _ => addition_eq_nil rfl) (by simp [Recognised, missing])
  rw [lines_addModules hmodules hlabel hne, blocks_reread, List.forall_mem_map]
  refine forall₂_congr fun block hblock => ?_
  rw [← not_iff_not, ← Ne, addition_ne_nil, config_reread, missing_ne_nil]
  simp only [Classical.not_imp, not_forall, not_exists, not_and, Bool.not_eq_true]
  refine and_congr_right fun hconfig => ?_
  have hfound : ∀ m ∈ modules, blockHasModule alnum (reread alnum modules label block) m =
      (blockHasModule alnum block m || (missing alnum modules block).any fun m' =>
        moduleLine alnum (tailOf m) (moduleText m')) := by
    intro m hm
    rw [blockHasModule_eq, any_reread alnum modules rfl rfl,
      any_kept (fun ln => moduleLine_append (unbroken_tailOf (hmodules m hm)))
      (lined_splitLines text) hblock, ← blockHasModule_eq, hconfig, Bool.true_and]
  constructor
  · rintro ⟨m, hm, habsent⟩
    rw [hfound m hm, Bool.or_eq_false_iff] at habsent
    exact ⟨m, by simp [missing, hm, habsent.1], by simpa using habsent.2⟩
  · rintro ⟨m, hmissing, habsent⟩
    obtain ⟨hm, hold⟩ := List.mem_filter.mp hmissing
    refine ⟨m, hm, ?_⟩
    rw [hfound m hm, Bool.or_eq_false_iff]
    exact ⟨by simpa using hold, by simpa using habsent⟩

instance (alnum : Char → Bool) (text : List Char) (modules : List (List Char)) :
    Decidable (Recognised alnum text modules) :=
  inferInstanceAs (Decidable (∀ block ∈ blocks isBlank [] (splitLines text), _))

/-- A module that is found where it is put in. -/
theorem idempotent_word :
    addModules (fun _ => false) (addModules (fun _ => false) "LABEL A\n".toList
        ["Kickstart/b.kmod".toList] "L".toList) ["Kickstart/b.kmod".toList] "L".toList =
      addModules (fun _ => false) "LABEL A\n".toList ["Kickstart/b.kmod".toList] "L".toList :=
  (idempotent_iff (fun _ => false) "LABEL A\n".toList ["Kickstart/b.kmod".toList] "L".toList
    (fun m hm => by
      rw [List.mem_singleton.mp hm]
      exact unbroken_of_all rfl)
    (unbroken_of_all rfl)).mpr (by decide +kernel)

/-- A module whose name ends in a sign is put in again and again. -/
theorem added_again :
    addModules (fun _ => false) (addModules (fun _ => false) "LABEL A\n".toList
        ["b+".toList] "L".toList) ["b+".toList] "L".toList ≠
      addModules (fun _ => false) "LABEL A\n".toList ["b+".toList] "L".toList := by
  decide +kernel

/-- The search finds `tail` behind `u`. -/
theorem searchTail_of_tailHere {tail u s : List Char} (prev : Char) (hu : '\n' ∉ u)
    (h : tailHere alnum tail (u.getLast?.getD prev) s = true) :
    searchTail alnum tail prev (u ++ s) = true := by
  induction u generalizing prev with
  | nil =>
    rw [List.nil_append]
    cases s with
    | nil => rwa [searchTail_nil]
    | cons c s => rw [searchTail_cons, show tailHere alnum tail prev (c :: s) = true from h,
        Bool.true_or]
  | cons c u ih =>
    obtain ⟨hc, hu⟩ := not_or.mp (List.mem_cons.not.mp hu)
    rw [List.getLast?_cons, Option.getD_some] at h
    rw [List.cons_append, searchTail_cons, ih c hu h]
    simp [Ne.symm hc]

/-- A name is found where it is put in if its base name is empty or ends in a
letter, a digit or an underscore. -/
theorem moduleLine_moduleText {m : List Char} (hm : Unbroken m)
    (hword : (tailOf m).getLast?.all (isWord alnum) = true) :
    moduleLine alnum (tailOf m) (moduleText m) = true := by
  have hsearch : searchTail alnum (tailOf m) 'E' (' ' :: (m ++ ['\n'])) = true := by
    by_cases htail : tailOf m = []
    · rw [htail]
      rfl
    · obtain ⟨u, hu⟩ : ∃ u, u ++ tailOf m = m := by
        rw [tailOf_eq]
        exact List.rtakeWhile_suffix _ _
      have hline : '\n' ∉ ' ' :: u := by
        intro hmem
        rcases List.mem_cons.mp hmem with hblank | hmem
        · exact absurd hblank (by decide)
        · exact absurd (hm '\n' (hu ▸ List.mem_append_left _ hmem)) (by decide)
      have hpre : (tailOf m).isPrefixOf (tailOf m ++ ['\n']) = true :=
        List.isPrefixOf_iff_prefix.mpr (List.prefix_append _ _)
      rw [List.getLast?_eq_some_getLast htail, Option.all_some] at hword
      have hhere : tailHere alnum (tailOf m) ((' ' :: u).getLast?.getD 'E') (tailOf m ++ ['\n']) =
          true := by
        rw [tailHere, hpre, List.drop_left, List.getLast?_eq_some_getLast htail,
          Option.getD_some, wordBoundary, hword]
        rfl
      have hfound := searchTail_of_tailHere 'E' hline hhere
      rwa [List.cons_append, ← List.append_assoc, hu] at hfound
  exact hsearch

/-- The edit is idempotent for modules whose base names end in letters, digits
or underscores. -/
theorem recognised_of_word (hmodules : ∀ m ∈ modules, Unbroken m)
    (hword : ∀ m ∈ modules, (tailOf m).getLast?.all (isWord alnum) = true) :
    Recognised alnum text modules := by
  intro block _ _ m hmissing
  have hm := List.mem_of_mem_filter hmissing
  exact ⟨m, hmissing, moduleLine_moduleText (hmodules m hm) (hword m hm)⟩

/-! ## Completeness -/

/-- The file that a path names. -/
def fileOf (path : List Char) : List Char := strip (tailOf path)

/-- A line without its comment. -/
def uncommented (s : List Char) : List Char := s.takeWhile (· ≠ ';')

/-- The file that a line names if it is an active `MODULE` line. -/
def namedFile (ln : List Char) : Option (List Char) :=
  let s := ln.dropWhile isSpace
  if "MODULE".toList.isPrefixOf s && (s.drop 6).head?.any isSpace then
    some (fileOf (uncommented (s.drop 6)))
  else none

/-- Every config block of the result names every module. -/
def Complete (alnum : Char → Bool) (text : List Char) (modules : List (List Char))
    (label : List Char) : Prop :=
  ∀ block ∈ blocks isBlank [] (splitLines (addModules alnum text modules label)),
    blockIsConfig block = true → ∀ m ∈ modules, ∃ ln ∈ block, namedFile ln = some (fileOf m)

/-- A module that is taken for present, or that has a comment sign in its name,
is named by the block or by a line that is put in. -/
def NamedWhereFound (alnum : Char → Bool) (text : List Char) (modules : List (List Char)) : Prop :=
  ∀ block ∈ blocks isBlank [] (splitLines text), blockIsConfig block = true →
    ∀ m ∈ modules, blockHasModule alnum block m = true ∨ ';' ∈ m →
      (∃ ln ∈ block, namedFile ln = some (fileOf m)) ∨
        ∃ m' ∈ missing alnum modules block, fileOf (uncommented m') = fileOf m

theorem strip_concat (s : List Char) {c : Char} (hc : isSpace c = true) :
    strip (s ++ [c]) = strip s := by
  unfold strip
  rw [List.dropWhile_append]
  split
  · rename_i hnil
    rw [List.isEmpty_iff.mp hnil, List.dropWhile_cons, if_pos hc]
    rfl
  · exact List.rdropWhile_concat_pos _ _ _ hc

theorem strip_cons (s : List Char) {c : Char} (hc : isSpace c = true) :
    strip (c :: s) = strip s := by
  rw [strip, List.dropWhile_cons, if_pos hc, strip]

theorem fileOf_concat (m : List Char) : fileOf (m ++ ['\n']) = fileOf m := by
  rw [fileOf, tailOf_eq, List.rtakeWhile_concat_pos _ _ _ (by decide), strip_concat _ rfl, fileOf,
    tailOf_eq]

theorem fileOf_cons (m : List Char) : fileOf (' ' :: m) = fileOf m := by
  unfold fileOf
  rw [tailOf_eq, rtakeWhile_cons, tailOf_eq]
  cases hall : m.all fun c => decide (c ≠ '/') with
  | false => rfl
  | true =>
    have hself : m.rtakeWhile (· ≠ '/') = m :=
      List.rtakeWhile_eq_self_iff.mpr fun c hc => List.all_eq_true.mp hall c hc
    rw [if_pos rfl, if_pos (by decide), hself, strip_cons _ rfl]

theorem uncommented_of_notMem {s : List Char} (h : ';' ∉ s) : uncommented s = s := by
  refine List.takeWhile_eq_self_iff.mpr fun c hc => decide_eq_true ?_
  rintro rfl
  exact h hc

theorem uncommented_append {s : List Char} (h : ';' ∈ s) (t : List Char) :
    uncommented (s ++ t) = uncommented s := by
  unfold uncommented
  rw [List.takeWhile_append, if_neg]
  intro hlen
  have hself := (List.takeWhile_prefix (· ≠ ';')).eq_of_length hlen
  exact absurd (List.takeWhile_eq_self_iff.mp hself ';' h) (by decide)

theorem uncommented_sign (s : List Char) : uncommented (s ++ ";\n".toList) = uncommented s := by
  by_cases h : ';' ∈ s
  · exact uncommented_append h _
  · have hself := uncommented_of_notMem h
    unfold uncommented at hself ⊢
    rw [List.takeWhile_append, if_pos (by rw [hself]), hself]
    exact List.append_nil s

/-- A line that is put in names its module up to a comment sign. -/
theorem namedFile_moduleText (m : List Char) :
    namedFile (moduleText m) = some (fileOf (uncommented m)) := by
  have hline : namedFile (moduleText m) = some (fileOf (uncommented (' ' :: (m ++ ['\n'])))) := rfl
  have hblank : uncommented (' ' :: (m ++ ['\n'])) = ' ' :: uncommented (m ++ ['\n']) := rfl
  rw [hline, hblank, fileOf_cons]
  by_cases h : ';' ∈ m
  · rw [uncommented_append h]
  · have hplain : ';' ∉ m ++ ['\n'] := by simp [h]
    rw [uncommented_of_notMem hplain, uncommented_of_notMem h, fileOf_concat]

/-- A comment sign behind the last line does not change what it names. -/
theorem namedFile_append {ln : List Char} (hblank : isBlank ln = false) :
    namedFile (ln ++ ";\n".toList) = namedFile ln := by
  unfold namedFile
  rw [dropWhile_append_of_nonblank hblank]
  generalize ln.dropWhile isSpace = s
  dsimp only
  rw [isPrefixOf_append (by decide)]
  cases hkeyword : "MODULE".toList.isPrefixOf s with
  | false => rfl
  | true =>
    have hle : 6 ≤ s.length := (List.isPrefixOf_iff_prefix.mp hkeyword).length_le
    rw [List.drop_append_of_le_length hle, uncommented_sign]
    cases s.drop 6 <;> rfl

/-- Every config block has a line for every module exactly if each module that
is taken for present, or has a comment sign in its name, is named. -/
theorem complete_iff (alnum : Char → Bool) (text : List Char) (modules : List (List Char))
    (label : List Char) (hmodules : ∀ m ∈ modules, Unbroken m) (hlabel : Unbroken label) :
    Complete alnum text modules label ↔ NamedWhereFound alnum text modules := by
  unfold Complete NamedWhereFound
  by_cases hne : modules = []
  · subst hne
    simp
  rw [lines_addModules hmodules hlabel hne, blocks_reread, List.forall_mem_map]
  refine forall₂_congr fun block hblock => ?_
  rw [config_reread]
  refine forall_congr' fun hconfig => forall₂_congr fun m hm => ?_
  have hlines : (∃ ln ∈ reread alnum modules label block, namedFile ln = some (fileOf m)) ↔
      (∃ ln ∈ block, namedFile ln = some (fileOf m)) ∨
        ∃ m' ∈ missing alnum modules block, fileOf (uncommented m') = fileOf m := by
    have hany := any_reread alnum modules (p := fun ln => namedFile ln = some (fileOf m))
      (show decide (namedFile ";\n".toList = _) = false from rfl)
      (show decide (namedFile (labelText label) = _) = false from rfl) block
    rw [any_kept (fun ln _ hblank => by rw [namedFile_append hblank]) (lined_splitLines text) hblock,
      hconfig, Bool.true_and, Bool.eq_iff_iff] at hany
    simpa [namedFile_moduleText] using hany
  rw [hlines]
  constructor
  · exact fun hnamed _ => hnamed
  · intro hnamed
    by_cases hfound : blockHasModule alnum block m = true ∨ ';' ∈ m
    · exact hnamed hfound
    · -- the module is put in, and its line names it
      obtain ⟨habsent, hplain⟩ := not_or.mp hfound
      exact Or.inr ⟨m, by simp [missing, hm, habsent], by rw [uncommented_of_notMem hplain]⟩

instance (alnum : Char → Bool) (text : List Char) (modules : List (List Char))
    (label : List Char) : Decidable (Complete alnum text modules label) :=
  inferInstanceAs (Decidable (∀ block ∈ blocks isBlank [] (splitLines _), _))

instance (alnum : Char → Bool) (text : List Char) (modules : List (List Char)) :
    Decidable (NamedWhereFound alnum text modules) :=
  inferInstanceAs (Decidable (∀ block ∈ blocks isBlank [] (splitLines text), _))

/-- A block with one of two modules, in a line with a comment. -/
theorem complete_commented :
    Complete (fun _ => false) "LABEL A\nMODULE Kickstart/b.kmod ; SATA driver\n".toList
      ["b.kmod".toList, "Kickstart/c.kmod".toList] "L".toList :=
  (complete_iff (fun _ => false) "LABEL A\nMODULE Kickstart/b.kmod ; SATA driver\n".toList
    ["b.kmod".toList, "Kickstart/c.kmod".toList] "L".toList
    (by simp [Unbroken, isLineBreak])
    (unbroken_of_all rfl)).mpr (by decide +kernel)

/-- A block with a longer name that ends in the module's name. -/
theorem longer_name_found :
    ¬ Complete (fun _ => false) "LABEL A\nMODULE Kickstart/ab.kmod\n".toList ["b.kmod".toList]
      "L".toList := by
  decide +kernel

end AmigaFleet.Host.Kicklayout

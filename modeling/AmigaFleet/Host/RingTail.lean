import AmigaFleet.Host.DebugRing
import AmigaFleet.Host.PyLines
import AmigaFleet.Mcpd.OutputPaging

/-!
# The newest lines of the debug ring

`sys_debug_ring` from the bytes that `C:DumpDebugBuffer` prints to the lines that
it returns.  On the way `exec_cmd` reads the first MiB of them, the C string ends
at a NUL, and the host splits at all the line breaks that Python knows.

* `ExactTail` is what should come out for the lines of the ring.
* `ringTail_iff_seen`: the result in the lines that the host sees of the ring's
  lines in front of the cut.
* `lost_inexact`: a ring of which more than the last newline is lost is never
  returned as a whole.
* `ringTail_exact_iff`: the lines that are returned must have no line break but
  their newlines, and a ring that does not get through as a whole must be cut
  behind lines that are the same.
-/

namespace AmigaFleet.Host.DebugRing

open AmigaFleet.Lib PyStr
open Mcpd (cText)
open Mcpd.Exec (amigaReadOutput32 amigaLatin1ToUtf8 execCapMax latin1Char cText_latin1_cut
  amigaLatin1ToUtf8_eq)

/-! ## From the ring to the host -/

/-- What a command prints that prints these lines. -/
def printed (lines : List Bytes) : Bytes := lines.flatMap (· ++ [10])

/-- The `output` of exec.cmd when the command has ended and printed `content`. -/
def execText (content : Bytes) : Bytes :=
  cText (amigaReadOutput32 (fun _ => some content) [] 0 execCapMax).text

/-- `sys_debug_ring` for a ring with this content. -/
def ringTail (content : Bytes) (maxLines : Int) : Option DebugRingResult :=
  (utf8Decode (execText content)).map fun output => sysDebugRing output maxLines

/-- The bytes of the content that get through. -/
def handedOn (content : Bytes) : Bytes :=
  (content.take (min (content.length % 2 ^ 32) execCapMax)).takeWhile (· ≠ 0)

/-- All of the content gets through. -/
def Whole (content : Bytes) : Prop := content.length ≤ execCapMax ∧ (0 : UInt8) ∉ content

/-- A text in Latin-1. -/
def latin1 (text : Bytes) : List Char := text.map latin1Char

theorem ringTail_eq (content : Bytes) (maxLines : Int) :
    ringTail content maxLines = some (sysDebugRing (latin1 (handedOn content)) maxLines) := by
  have hread : (amigaReadOutput32 (fun _ => some content) [] 0 execCapMax).text =
      amigaLatin1ToUtf8 (content.take (min (content.length % 2 ^ 32) execCapMax)) := by
    have hwant : (if 0 < content.length then (content.length - 0) % 2 ^ 32 else 0) =
        content.length % 2 ^ 32 := by
      split
      · rw [Nat.sub_zero]
      · omega
    have hcap : (if content.length % 2 ^ 32 > execCapMax then execCapMax
        else content.length % 2 ^ 32) = min (content.length % 2 ^ 32) execCapMax := by
      split <;> omega
    simp only [amigaReadOutput32, Mcpd.Exec.amigaReadOutputWith, hwant, hcap, List.drop_zero]
  rw [ringTail, execText, hread, cText_latin1_cut, amigaLatin1ToUtf8_eq, utf8Decode_encode]
  rfl

theorem Whole.handedOn {content : Bytes} (h : Whole content) : handedOn content = content := by
  have hcap : execCapMax < 2 ^ 32 := by decide
  have hlen := h.1
  rw [DebugRing.handedOn, Nat.mod_eq_of_lt (by omega), Nat.min_eq_left hlen, List.take_length,
    List.takeWhile_eq_self_iff]
  intro b hb
  rw [decide_eq_true_iff]
  exact ne_of_mem_of_not_mem hb h.2

/-! ## The lines of a text -/

/-- The last `k` of the lines, or all of them. -/
def lastLines {α : Type} (k : Nat) (lines : List α) : List α := lines.drop (lines.length - k)

/-- The result is the last `k` of the lines, and says whether there are more. -/
structure ExactTail (lines : List Bytes) (k : Nat) (r : DebugRingResult) : Prop where
  shown : r.lines = (lastLines k lines).map latin1
  truncated : r.truncated = true ↔ k < lines.length

/-- The text ends with these lines, and there are lines in front of them exactly
if there are `more`. -/
def Shows (text : List Char) (shown : List (List Char)) (more : Prop) : Prop :=
  ∃ front back, (front ++ back).flatten = text ∧ Lined (front ++ back) ∧
    back.map (·.rdropWhile isLineBreak) = shown ∧ (front ≠ [] ↔ more)

theorem sysDebugRing_spec (output : List Char) {k : Nat} (hk : 1 ≤ k) :
    (sysDebugRing output k).lines = lastLines k (plainLines output) ∧
      ((sysDebugRing output k).truncated = true ↔ k < (plainLines output).length) := by
  have hclamp : (if (k : Int) < 1 then 1 else (k : Int)).toNat = k := by
    split <;> omega
  simp only [sysDebugRing, hclamp, decide_eq_true_eq]
  apply And.intro
  · split
    · rfl
    · rename_i hfew
      rw [lastLines, Nat.sub_eq_zero_of_le (by omega), List.drop_zero]
  · trivial

theorem shows_iff {text : List Char} {shown : List (List Char)} {k n : Nat}
    (hshown : shown.length = min k n) :
    (lastLines k (plainLines text) = shown ∧ (k < (plainLines text).length ↔ k < n)) ↔
      Shows text shown (k < n) := by
  apply Iff.intro
  · intro ⟨hlines, hmore⟩
    rw [plainLines, List.length_map] at hmore
    refine ⟨(splitLines text).take ((splitLines text).length - k), lastLines k (splitLines text),
      ?_, ?_, ?_, ?_⟩
    · rw [lastLines, List.take_append_drop, flatten_splitLines]
    · rw [lastLines, List.take_append_drop]
      exact lined_splitLines text
    · rw [← hlines, plainLines, lastLines, lastLines, List.map_drop, List.length_map]
    · rw [← hmore, ← List.length_pos_iff, List.length_take]
      omega
  · intro ⟨front, back, hflat, hlined, hback, hmore⟩
    have hsplit : splitLines text = front ++ back := by
      rw [← hflat]
      exact splitLines_flatten hlined
    have hlength : back.length = min k n := by
      rw [← hshown, ← hback, List.length_map]
    rw [← List.length_pos_iff] at hmore
    rw [lastLines, plainLines, hsplit, List.map_append, hback, List.length_append,
      List.length_map, hshown]
    apply And.intro
    · rw [List.drop_append, List.length_map]
      have hfront : (front.map (·.rdropWhile isLineBreak)).drop
          (front.length + min k n - k) = [] := by
        apply List.drop_eq_nil_of_le
        rw [List.length_map]
        omega
      have hall : front.length + min k n - k - front.length = 0 := by omega
      rw [hfront, hall, List.nil_append, List.drop_zero]
    · omega

/-- The host returns the right lines exactly if the bytes that get through end
with them. -/
theorem ringTail_iff_shows (lines : List Bytes) {k : Nat} (hk : 1 ≤ k) :
    (∃ r, ringTail (printed lines) k = some r ∧ ExactTail lines k r) ↔
      Shows (latin1 (handedOn (printed lines))) ((lastLines k lines).map latin1)
        (k < lines.length) := by
  have hlength : ((lastLines k lines).map latin1).length = min k lines.length := by
    rw [List.length_map, lastLines, List.length_drop]
    omega
  obtain ⟨hlines, htruncated⟩ := sysDebugRing_spec (latin1 (handedOn (printed lines))) hk
  rw [ringTail_eq, ← shows_iff hlength, ← hlines, ← htruncated]
  apply Iff.intro
  · intro ⟨r, hr, hexact⟩
    rw [← Option.some.inj hr] at hexact
    exact ⟨hexact.shown, hexact.truncated⟩
  · intro ⟨hshown, hmore⟩
    exact ⟨_, rfl, hshown, hmore⟩

/-! ### A line and its break -/

/-- Without its break a line has none. -/
theorem strip_closed {ln : List Char} (h : Closed ln) :
    (∀ c ∈ ln.rdropWhile isLineBreak, isLineBreak c = false) ∧
      (ln.rdropWhile isLineBreak).length < ln.length := by
  obtain ⟨body, brk, rfl, hbody, hbrk⟩ := h
  have hbreaks : brk ≠ [] ∧ ∀ c ∈ brk.reverse, isLineBreak c = true := by
    rcases hbrk with ⟨c, rfl, hc⟩ | rfl
    · simpa using hc
    · exact ⟨by decide, List.all_eq_true.mp rfl⟩
  have hstrip : (body ++ brk).rdropWhile isLineBreak = body := by
    rw [List.rdropWhile, List.reverse_append, List.dropWhile_append_of_pos hbreaks.2]
    have hself := List.rdropWhile_eq_self_iff (p := isLineBreak) (l := body)
    refine hself.mpr fun hne hlast => ?_
    rw [hbody _ (List.getLast_mem hne)] at hlast
    cases hlast
  have hpos := List.length_pos_of_ne_nil hbreaks.1
  rw [hstrip, List.length_append]
  exact ⟨hbody, by omega⟩

theorem strip_open {ln : List Char} (h : Open ln) : ln.rdropWhile isLineBreak = ln := by
  refine List.rdropWhile_eq_self_iff.mpr fun hne hlast => ?_
  rw [h.2 _ (List.getLast_mem hne)] at hlast
  cases hlast

theorem strip_newline {body : List Char} (h : ∀ c ∈ body, isLineBreak c = false) :
    (body ++ ['\n']).rdropWhile isLineBreak = body := by
  rw [List.rdropWhile_concat_pos _ _ _ (by decide)]
  refine List.rdropWhile_eq_self_iff.mpr fun hne hlast => ?_
  rw [h _ (List.getLast_mem hne)] at hlast
  cases hlast

/-- A shown line has no line break, and its characters are in the text. -/
theorem Shows.line {text : List Char} {shown : List (List Char)} {more : Prop}
    (h : Shows text shown more) {l : List Char} (hl : l ∈ shown) {c : Char} (hc : c ∈ l) :
    isLineBreak c = false ∧ c ∈ text := by
  obtain ⟨front, back, hflat, hlined, hback, -⟩ := h
  rw [← hback] at hl
  obtain ⟨ln, hln, rfl⟩ := List.mem_map.mp hl
  have hmem : ln ∈ front ++ back := List.mem_append.mpr (Or.inr hln)
  refine ⟨?_, ?_⟩
  · rcases hlined.closed_or_open ln hmem with hclosed | hopen
    · exact (strip_closed hclosed).1 c hc
    · rw [strip_open hopen] at hc
      exact hopen.2 c hc
  · rw [← hflat]
    exact List.mem_flatten.mpr ⟨ln, hmem, (List.rdropWhile_prefix _ ln).subset hc⟩

/-- What lines need with a newline each, they need in the text too, but for the
newline of an open line. -/
theorem length_le_of_lined {lines : List (List Char)} (h : Lined lines) :
    ((lines.map (·.rdropWhile isLineBreak)).map fun l => l.length + 1).sum ≤
      lines.flatten.length + 1 := by
  induction lines with
  | nil => exact Nat.zero_le _
  | cons ln lines ih =>
    have hrest := ih h.2
    simp only [List.map_cons, List.sum_cons, List.flatten_cons, List.length_append] at hrest ⊢
    apply h.1.elim
    · intro hjoins
      have hline := (strip_closed hjoins.1).2
      omega
    · intro ⟨hnil, hopen⟩
      subst hnil
      rw [strip_open hopen]
      simp

/-! ## Rings that get through -/

theorem latin1_printed (lines : List Bytes) :
    latin1 (printed lines) = joinLines (lines.map latin1) := by
  simp only [latin1, printed, joinLines, List.map_flatMap, List.flatMap_map, List.map_append]
  rfl

theorem joinLines_append (lines lines' : List (List Char)) :
    joinLines (lines ++ lines') = joinLines lines ++ joinLines lines' := List.flatMap_append

/-- The lines of a text that does not end in a return stay in front of any other. -/
theorem joined_of_end {lines : List (List Char)} (h : Joined [] lines)
    (hend : lines.flatten.getLast? ≠ some '\r') (t : List Char) : Joined t lines := by
  induction lines with
  | nil => trivial
  | cons ln lines ih =>
    obtain ⟨⟨hclosed, hreturn⟩, hrest⟩ := h
    cases hlines : lines with
    | nil =>
      subst hlines
      rw [List.flatten_singleton] at hend
      exact ⟨⟨hclosed, fun hbad => hend hbad.1⟩, trivial⟩
    | cons ln' lines' =>
      have hne : lines.flatten ≠ [] := by
        rw [hlines, List.flatten_cons]
        rw [hlines] at hrest
        exact List.append_ne_nil_of_left_ne_nil hrest.1.1.ne_nil _
      have hlast : lines.flatten.getLast? ≠ some '\r' := by
        rwa [List.flatten_cons, List.getLast?_append_of_ne_nil _ hne] at hend
      rw [← hlines]
      refine ⟨⟨hclosed, fun hbad => hreturn ⟨hbad.1, ?_⟩⟩, ih hrest hlast⟩
      rw [List.append_nil]
      rw [List.head?_append_of_ne_nil _ hne] at hbad
      exact hbad.2

/-- A text of lines with newlines, whatever other line breaks they have, stands in
front of other lines. -/
theorem joined_splitLines_joinLines (lines : List (List Char)) (t : List Char) :
    Joined t (splitLines (joinLines lines)) := by
  have hend : (joinLines lines).getLast? = none ∨ (joinLines lines).getLast? = some '\n' := by
    cases hlast : lines.getLast? with
    | none =>
      rw [List.getLast?_eq_none_iff.mp hlast]
      exact Or.inl rfl
    | some l =>
      obtain ⟨front, rfl⟩ := List.getLast?_eq_some_iff.mp hlast
      rw [joinLines_append]
      refine Or.inr ?_
      simp [joinLines]
  have hflat := flatten_splitLines (joinLines lines)
  rcases (lined_splitLines (joinLines lines)).cases with hall | ⟨front, last, heq, -, hopen⟩
  · refine joined_of_end hall ?_ t
    rw [hflat]
    rcases hend with hnone | hnewline
    · simp [hnone]
    · simp [hnewline]
  · have hlast := hopen.getLast?
    rw [heq, List.flatten_append, List.flatten_singleton] at hflat
    rw [← hflat, List.getLast?_append_of_ne_nil _ hopen.1] at hend
    rcases hend with hnone | hnewline
    · exact absurd (List.getLast?_eq_none_iff.mp hnone) hopen.1
    · rw [hnewline] at hlast
      exact absurd hlast (by decide)

theorem joinLines_eq_nil {lines : List (List Char)} (h : joinLines lines = []) : lines = [] := by
  cases lines with
  | nil => rfl
  | cons l lines => simp [joinLines] at h

/-- The last lines of a ring that gets through are shown if they have no other
line breaks. -/
theorem shows_printed (lines : List Bytes) (k : Nat)
    (hclean : ∀ l ∈ lastLines k lines, ∀ b ∈ l, isLineBreak (latin1Char b) = false) :
    Shows (latin1 (printed lines)) ((lastLines k lines).map latin1) (k < lines.length) := by
  have hplain : ∀ l ∈ (lastLines k lines).map latin1, ∀ c ∈ l, isLineBreak c = false := by
    intro l hl c hc
    obtain ⟨l, hmem, rfl⟩ := List.mem_map.mp hl
    obtain ⟨b, hb, rfl⟩ := List.mem_map.mp hc
    exact hclean l hmem b hb
  have htext : joinLines ((lines.take (lines.length - k)).map latin1) ++
      joinLines ((lastLines k lines).map latin1) = latin1 (printed lines) := by
    rw [latin1_printed, ← joinLines_append, ← List.map_append, lastLines, List.take_append_drop]
  refine ⟨splitLines (joinLines ((lines.take (lines.length - k)).map latin1)),
    ((lastLines k lines).map latin1).map (· ++ ['\n']), ?_, ?_, ?_, ?_⟩
  · rw [List.flatten_append, flatten_splitLines, ← htext]
    rfl
  · apply Lined.of_joined
    refine joined_append.mpr ⟨joined_splitLines_joinLines _ _, joined_newlines _ fun ln hln => ?_⟩
    obtain ⟨body, hbody, rfl⟩ := List.mem_map.mp hln
    exact ⟨body, rfl, hplain body hbody⟩
  · have hstrip : ∀ l ∈ (lastLines k lines).map latin1,
        ((·.rdropWhile isLineBreak) ∘ (· ++ ['\n'])) l = id l := fun l hl =>
      strip_newline (hplain l hl)
    rw [List.map_map, List.map_congr_left hstrip, List.map_id]
  · have hfront : splitLines (joinLines ((lines.take (lines.length - k)).map latin1)) = [] ↔
        lines.length - k = 0 := by
      apply Iff.intro
      · intro hnil
        have hflat := flatten_splitLines (joinLines ((lines.take (lines.length - k)).map latin1))
        rw [hnil] at hflat
        have hnone := joinLines_eq_nil hflat.symm
        rw [List.map_eq_nil_iff, List.take_eq_nil_iff] at hnone
        rcases hnone with hzero | hnil
        · exact hzero
        · rw [hnil]
          exact Nat.zero_sub k
      · intro hzero
        rw [hzero]
        rfl
    rw [ne_eq, hfront]
    omega

/-! ## Rings that do not -/

theorem splitLines_append {t : List Char} {lines : List (List Char)} (h : Joined t lines) :
    splitLines (lines.flatten ++ t) = lines ++ splitLines t := by
  have hlined : Lined (lines ++ splitLines t) := by
    by_cases hnil : splitLines t = []
    · have ht := flatten_splitLines t
      rw [hnil] at ht
      rw [hnil, List.append_nil]
      rw [← ht] at h
      exact Lined.of_joined h
    · refine (lined_append hnil).mpr ⟨?_, lined_splitLines t⟩
      rw [flatten_splitLines]
      exact h
  have hsplit := splitLines_flatten hlined
  rwa [List.flatten_append, flatten_splitLines] at hsplit

/-- Each line with its newline is split on its own. -/
theorem plainLines_append (lines : List (List Char)) (t : List Char) :
    plainLines (joinLines lines ++ t) =
      lines.flatMap (fun l => plainLines (l ++ ['\n'])) ++ plainLines t := by
  induction lines with
  | nil => rfl
  | cons l lines ih =>
    have hjoin : joinLines (l :: lines) ++ t = (l ++ ['\n']) ++ (joinLines lines ++ t) :=
      List.append_assoc ..
    have hline : joinLines [l] = l ++ ['\n'] := List.append_nil _
    have hsplit := splitLines_append (joined_splitLines_joinLines [l] (joinLines lines ++ t))
    rw [flatten_splitLines, hline] at hsplit
    rw [hjoin, plainLines, hsplit, List.map_append, List.flatMap_cons, List.append_assoc, ← ih]
    rfl

/-- The lines in front of byte `c` of a ring, and what there is of the next one. -/
def linesBefore (c : Nat) : List Bytes → List Bytes × Bytes
  | [] => ([], [])
  | l :: lines =>
    if l.length < c then
      (l :: (linesBefore (c - l.length - 1) lines).1, (linesBefore (c - l.length - 1) lines).2)
    else ([], l.take c)

theorem printed_linesBefore (c : Nat) (lines : List Bytes) :
    printed (linesBefore c lines).1 ++ (linesBefore c lines).2 = (printed lines).take c := by
  induction lines generalizing c with
  | nil => simp [linesBefore, printed]
  | cons l lines ih =>
    have hprinted : ∀ ls, printed (l :: ls) = (l ++ [10]) ++ printed ls := fun _ => rfl
    unfold linesBefore
    split
    · rename_i hlt
      have hlength : (l ++ [10]).length = l.length + 1 := List.length_append
      have hline : (l ++ [10]).take c = l ++ [10] := List.take_of_length_le (by omega)
      rw [hprinted, hprinted, List.append_assoc, ih (c - l.length - 1), List.take_append, hline,
        hlength, Nat.sub_sub]
    · rename_i hge
      rw [hprinted, List.append_assoc, List.take_append_of_le_length (by omega)]
      rfl

/-- Where a ring is cut: at its first NUL, at one MiB, or at its size in 32 bits. -/
def cutAt (content : Bytes) : Nat := min (content.idxOf 0) (min (content.length % 2 ^ 32) execCapMax)

/-- What the host sees of the ring's lines in front of the cut. -/
def seen (lines : List Bytes) : List (List Char) :=
  let cut := linesBefore (cutAt (printed lines)) lines
  cut.1.flatMap (fun l => plainLines (latin1 l ++ ['\n'])) ++ plainLines (latin1 cut.2)

theorem length_handedOn (content : Bytes) : (handedOn content).length = cutAt content := by
  have hcut : ∀ m, ((content.take m).takeWhile (· ≠ 0)).length = min (content.idxOf 0) m := by
    induction content with
    | nil => simp
    | cons b content ih =>
      intro m
      cases m with
      | zero => simp
      | succ m =>
        by_cases hb : b = 0
        · simp [hb]
        · have hidx : (b :: content).idxOf 0 = content.idxOf 0 + 1 :=
            List.idxOf_cons_ne content hb
          rw [List.take_succ_cons, List.takeWhile_cons_of_pos (by simpa using hb), List.length_cons,
            ih m, hidx]
          omega
  exact hcut _

theorem handedOn_begins (content : Bytes) : handedOn content <+: content :=
  (List.takeWhile_prefix _).trans (List.take_prefix _ _)

theorem plainLines_handedOn (lines : List Bytes) :
    plainLines (latin1 (handedOn (printed lines))) = seen lines := by
  have hcut := printed_linesBefore (cutAt (printed lines)) lines
  rw [← length_handedOn, ← List.prefix_iff_eq_take.mp (handedOn_begins _), length_handedOn] at hcut
  have htext : latin1 (handedOn (printed lines)) =
      joinLines ((linesBefore (cutAt (printed lines)) lines).1.map latin1) ++
        latin1 (linesBefore (cutAt (printed lines)) lines).2 := by
    rw [← latin1_printed, latin1, latin1, latin1, ← List.map_append, hcut]
  rw [htext, plainLines_append, List.flatMap_map]
  rfl

theorem ringTail_iff_seen (lines : List Bytes) {k : Nat} (hk : 1 ≤ k) :
    (∃ r, ringTail (printed lines) k = some r ∧ ExactTail lines k r) ↔
      lastLines k (seen lines) = (lastLines k lines).map latin1 ∧
        (k < (seen lines).length ↔ k < lines.length) := by
  have hlength : ((lastLines k lines).map latin1).length = min k lines.length := by
    rw [List.length_map, lastLines, List.length_drop]
    omega
  rw [ringTail_iff_shows lines hk, ← shows_iff hlength, plainLines_handedOn]

/-- When all lines of a ring are asked for and more than its last newline is lost,
the result is wrong. -/
theorem lost_inexact {lines : List Bytes} {k : Nat} (hk : 1 ≤ k) (hall : lines.length ≤ k)
    (hlost : (handedOn (printed lines)).length + 1 < (printed lines).length) :
    ¬ ∃ r, ringTail (printed lines) k = some r ∧ ExactTail lines k r := by
  rw [ringTail_iff_shows lines hk]
  intro ⟨front, back, hflat, hlined, hback, hmore⟩
  have hfront : front = [] := by
    by_contra hne
    have hfew := hmore.mp hne
    omega
  subst hfront
  have hlines : lastLines k lines = lines := by
    rw [lastLines, Nat.sub_eq_zero_of_le hall, List.drop_zero]
  have hlength := length_le_of_lined hlined
  rw [hflat, List.nil_append, hback, hlines, latin1, List.length_map] at hlength
  have hprinted : (printed lines).length = ((lines.map latin1).map fun l => l.length + 1).sum := by
    simp [printed, latin1, Function.comp_def]
  omega

/-- Only the newline of the last line, which is not empty, is behind the cut. -/
def NewlineLost (lines : List Bytes) : Prop :=
  (printed lines).length = execCapMax + 1 ∧ (0 : UInt8) ∉ printed lines ∧ lines.getLast? ≠ some []

theorem printed_concat (front : List Bytes) (last : Bytes) :
    printed (front ++ [last]) = printed front ++ last ++ [10] := by
  rw [printed, List.flatMap_append, List.flatMap_singleton, List.append_assoc]
  rfl

theorem length_handedOn_le (content : Bytes) : (handedOn content).length ≤ execCapMax := by
  rw [length_handedOn, cutAt]
  omega

theorem zero_not_mem_handedOn (content : Bytes) : (0 : UInt8) ∉ handedOn content := by
  intro hzero
  have hne := List.mem_takeWhile_imp (p := fun b : UInt8 => decide (b ≠ 0)) hzero
  cases hne

/-- A cut that loses one byte loses the last newline. -/
theorem cut_of_length {body : Bytes}
    (hone : (handedOn (body ++ [10])).length + 1 = (body ++ [10]).length) :
    (body ++ [10]).length = execCapMax + 1 ∧ (0 : UInt8) ∉ body ++ [10] := by
  have hlength : (body ++ [10]).length = body.length + 1 := List.length_append
  have hbody : handedOn (body ++ [10]) = body := by
    have hprefix := List.prefix_iff_eq_take.mp (handedOn_begins (body ++ [10]))
    rwa [show (handedOn (body ++ [10])).length = body.length by omega, List.take_left] at hprefix
  have hzero : (0 : UInt8) ∉ body ++ [10] := by
    have hclean := zero_not_mem_handedOn (body ++ [10])
    rw [hbody] at hclean
    simp [hclean]
  have hlost : ¬ (body ++ [10]).length ≤ execCapMax := by
    intro hle
    have hwhole : Whole (body ++ [10]) := ⟨hle, hzero⟩
    rw [hwhole.handedOn] at hone
    omega
  have hcap := length_handedOn_le (body ++ [10])
  exact ⟨by omega, hzero⟩

theorem handedOn_of_cut {body : Bytes} (hlength : (body ++ [10]).length = execCapMax + 1)
    (hzero : (0 : UInt8) ∉ body ++ [10]) : handedOn (body ++ [10]) = body := by
  have hcap : (execCapMax + 1) % 2 ^ 32 = execCapMax + 1 := Nat.mod_eq_of_lt (by decide)
  have hbody : execCapMax = body.length := by
    rw [List.length_append, List.length_singleton] at hlength
    omega
  have hclean : ∀ b ∈ body, decide (b ≠ 0) = true := fun b hb => by
    simpa using ne_of_mem_of_not_mem (List.mem_append_left [10] hb) hzero
  rw [handedOn, hlength, hcap, Nat.min_eq_right (Nat.le_succ _), hbody, List.take_left]
  exact List.takeWhile_eq_self_iff.mpr hclean

/-- Lines of which only the last newline is lost, where the others have no other
breaks. -/
theorem seen_of_cut {front : List Bytes} {last : Bytes}
    (hlength : (printed (front ++ [last])).length = execCapMax + 1)
    (hzero : (0 : UInt8) ∉ printed (front ++ [last]))
    (hclean : ∀ l ∈ front, ∀ b ∈ l, isLineBreak (latin1Char b) = false) :
    seen (front ++ [last]) = front.map latin1 ++ plainLines (latin1 last) := by
  rw [printed_concat] at hlength hzero
  have htext : latin1 (printed front ++ last) = joinLines (front.map latin1) ++ latin1 last := by
    rw [← latin1_printed]
    exact List.map_append
  have hplain : ∀ l ∈ front, plainLines (latin1 l ++ ['\n']) = [latin1 l] := by
    intro l hl
    have hline : plainLines (joinLines [latin1 l]) = [latin1 l] := by
      refine plainLines_joinLines fun m hm c hc => ?_
      rw [List.mem_singleton.mp hm] at hc
      obtain ⟨b, hb, rfl⟩ := List.mem_map.mp hc
      exact hclean l hl b hb
    rwa [joinLines, List.flatMap_singleton] at hline
  rw [← plainLines_handedOn, printed_concat, handedOn_of_cut hlength hzero, htext,
    plainLines_append, List.flatMap_map, List.flatMap_congr hplain, List.map_eq_flatMap]

theorem plainLines_open {l : List Char} (h : Open l) : plainLines l = [l] := by
  rw [plainLines, splitLines, splitLinesGo_open h.2, List.nil_append, if_neg h.1, List.map_singleton,
    strip_open h]

theorem seen_of_newlineLost {lines : List Bytes} (h : NewlineLost lines)
    (hclean : ∀ l ∈ lines, ∀ b ∈ l, isLineBreak (latin1Char b) = false) :
    seen lines = lines.map latin1 := by
  obtain ⟨hlength, hzero, hlast⟩ := h
  rcases lines.eq_nil_or_concat with rfl | ⟨front, last, rfl⟩
  · cases hlength
  · rw [List.concat_eq_append] at hlength hzero hlast hclean ⊢
    rw [List.getLast?_concat] at hlast
    obtain ⟨hfront, hplain⟩ := List.forall_mem_append.mp hclean
    have hopen : Open (latin1 last) := by
      refine ⟨fun hnil => hlast (congrArg some (List.map_eq_nil_iff.mp hnil)), fun c hc => ?_⟩
      obtain ⟨b, hb, rfl⟩ := List.mem_map.mp hc
      exact hplain last (List.mem_singleton_self _) b hb
    rw [seen_of_cut hlength hzero hfront, plainLines_open hopen, List.map_append, List.map_singleton]

/-- All lines of a ring that is cut are returned. -/
theorem newlineLost_of_exact {lines : List Bytes} {k : Nat} (hk : 1 ≤ k) (hall : lines.length ≤ k)
    (hwhole : ¬ Whole (printed lines))
    (hexact : ∃ r, ringTail (printed lines) k = some r ∧ ExactTail lines k r) :
    NewlineLost lines := by
  obtain ⟨hsame, hmore⟩ := (ringTail_iff_seen lines hk).mp hexact
  have hseen : seen lines = lines.map latin1 := by
    have hfew : (seen lines).length ≤ k := by omega
    rwa [lastLines, lastLines, Nat.sub_eq_zero_of_le hall, Nat.sub_eq_zero_of_le hfew,
      List.drop_zero, List.drop_zero] at hsame
  have hclean : ∀ l ∈ lines, ∀ b ∈ l, isLineBreak (latin1Char b) = false := by
    intro l hl b hb
    have hlast : lastLines k lines = lines := by
      rw [lastLines, Nat.sub_eq_zero_of_le hall, List.drop_zero]
    refine (((ringTail_iff_shows lines hk).mp hexact).line ?_ (List.mem_map_of_mem hb)).1
    rw [hlast]
    exact List.mem_map_of_mem hl
  have hshort : (handedOn (printed lines)).length ≠ (printed lines).length := by
    intro heq
    have hthrough := (handedOn_begins (printed lines)).eq_of_length heq
    refine hwhole ⟨heq ▸ length_handedOn_le _, ?_⟩
    rw [← hthrough]
    exact zero_not_mem_handedOn _
  have hone : (handedOn (printed lines)).length + 1 = (printed lines).length := by
    have hle := (handedOn_begins (printed lines)).length_le
    have hlost : ¬ (handedOn (printed lines)).length + 1 < (printed lines).length :=
      fun hlost => lost_inexact hk hall hlost hexact
    omega
  rcases lines.eq_nil_or_concat with rfl | ⟨front, last, rfl⟩
  · exact absurd rfl hshort
  · rw [List.concat_eq_append] at *
    have hcut := hone
    rw [printed_concat] at hcut
    obtain ⟨hlength, hzero⟩ := cut_of_length hcut
    rw [← printed_concat] at hlength hzero
    refine ⟨hlength, hzero, fun hempty => ?_⟩
    -- without the last newline the host does not see an empty last line
    obtain rfl : last = [] := by simpa using hempty
    rw [seen_of_cut hlength hzero (List.forall_mem_append.mp hclean).1] at hseen
    have hlengths := congrArg List.length hseen
    simp [latin1, plainLines, splitLines, splitLinesGo] at hlengths

/-- A ring that gets through is returned if the lines have no other breaks, and one that
does not if it is cut behind lines that are the same. -/
theorem ringTail_exact_iff (lines : List Bytes) {k : Nat} (hk : 1 ≤ k) :
    (∃ r, ringTail (printed lines) k = some r ∧ ExactTail lines k r) ↔
      (∀ l ∈ lastLines k lines, ∀ b ∈ l, isLineBreak (latin1Char b) = false) ∧
        (Whole (printed lines) ∨ lines.length ≤ k ∧ NewlineLost lines ∨
          k < lines.length ∧ k < (seen lines).length ∧
            lastLines k (seen lines) = (lastLines k lines).map latin1) := by
  have hshows := ringTail_iff_shows lines hk
  have hseen := ringTail_iff_seen lines hk
  constructor
  · intro hexact
    refine ⟨fun l hl b hb => ?_, ?_⟩
    · exact ((hshows.mp hexact).line (List.mem_map_of_mem hl) (List.mem_map_of_mem hb)).1
    · by_cases hwhole : Whole (printed lines)
      · exact Or.inl hwhole
      · refine Or.inr ?_
        obtain ⟨hsame, hmore⟩ := hseen.mp hexact
        by_cases hfew : lines.length ≤ k
        · exact Or.inl ⟨hfew, newlineLost_of_exact hk hfew hwhole hexact⟩
        · exact Or.inr ⟨by omega, hmore.mpr (by omega), hsame⟩
  · intro ⟨hclean, hcut⟩
    rcases hcut with hwhole | ⟨hall, hlost⟩ | ⟨hmore, hseenMore, hsame⟩
    · rw [hshows, hwhole.handedOn]
      exact shows_printed lines k hclean
    · have hlast : lastLines k lines = lines := by
        rw [lastLines, Nat.sub_eq_zero_of_le hall, List.drop_zero]
      rw [hlast] at hclean
      rw [hseen, seen_of_newlineLost hlost hclean, hlast, List.length_map]
      refine ⟨?_, Iff.rfl⟩
      rw [lastLines, List.length_map, Nat.sub_eq_zero_of_le hall, List.drop_zero]
    · exact hseen.mpr ⟨hsame, iff_of_true hseenMore hmore⟩

/-- `BOOT` and `CRASH`, of which the last is asked for. -/
theorem ringTail_sample :
    (∃ r, ringTail (printed [[66, 79, 79, 84], [67, 82, 65, 83, 72]]) 1 = some r ∧
      ExactTail [[66, 79, 79, 84], [67, 82, 65, 83, 72]] 1 r) ∧
    ringTail (printed [[66, 79, 79, 84], [67, 82, 65, 83, 72]]) 1 =
      some ⟨["CRASH".toList], true, 11⟩ := by
  have hplain : ((lastLines 1 [[66, 79, 79, 84], [67, 82, 65, 83, 72]]).all fun l =>
      l.all fun b => !isLineBreak (latin1Char b)) = true := by decide
  simp only [List.all_eq_true, Bool.not_eq_true'] at hplain
  refine ⟨(ringTail_exact_iff [[66, 79, 79, 84], [67, 82, 65, 83, 72]] (Nat.le_refl 1)).mpr
    ⟨hplain, Or.inl ⟨by decide, by decide⟩⟩, ?_⟩
  rw [ringTail_eq]
  decide

/-- A ring of `n` empty lines, and a line `A`. -/
def longRing (n : Nat) : List Bytes := List.replicate n [] ++ [[65]]

theorem lastLines_longRing (n : Nat) : lastLines 1 (longRing n) = [[65]] := by
  have hlength : (longRing n).length - 1 = (List.replicate n ([] : Bytes)).length := by
    simp [longRing]
  rw [lastLines, hlength]
  exact List.drop_left

/-- Of a ring of a MiB of newlines only these get through. -/
theorem handedOn_longRing : handedOn (printed (longRing execCapMax)) <+:
    List.replicate execCapMax 10 := by
  have hprinted : ∀ n, printed (longRing n) = List.replicate n 10 ++ [65, 10] := by
    intro n
    rw [printed, longRing, List.flatMap_append, List.flatMap_replicate, List.nil_append,
      List.flatten_replicate_singleton]
    rfl
  have htake : (printed (longRing execCapMax)).take
      (min ((printed (longRing execCapMax)).length % 2 ^ 32) execCapMax) <+:
        List.replicate execCapMax 10 := by
    rw [hprinted, List.take_append_of_le_length]
    · exact List.take_prefix _ _
    · rw [List.length_replicate]
      exact Nat.min_le_right _ _
  exact (List.takeWhile_prefix _).trans htake

/-- The newest line of a long ring is not there, and a return in a line makes two
lines of it. -/
theorem newest_line_lost :
    (¬ ∃ r, ringTail (printed (longRing execCapMax)) 1 = some r ∧
      ExactTail (longRing execCapMax) 1 r) ∧
    ¬ ∃ r, ringTail (printed [[65, 13, 66]]) 1 = some r ∧ ExactTail [[65, 13, 66]] 1 r := by
  apply And.intro
  · intro hexact
    have h := (ringTail_iff_shows (longRing execCapMax) (Nat.le_refl 1)).mp hexact
    rw [lastLines_longRing] at h
    have hmem := (h.line (l := ['A']) (by decide) (c := 'A') (by decide)).2
    obtain ⟨b, hb, hchar⟩ := List.mem_map.mp hmem
    have hten := List.eq_of_mem_replicate (handedOn_longRing.subset hb)
    subst hten
    exact absurd hchar (by decide)
  · intro ⟨r, hr, hexact⟩
    rw [ringTail_eq] at hr
    have hlines := hexact.shown
    rw [← Option.some.inj hr] at hlines
    exact absurd hlines (by decide)

end AmigaFleet.Host.DebugRing

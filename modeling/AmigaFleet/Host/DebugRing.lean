import AmigaFleet.Host.PyStr
import AmigaFleet.Host.SandboxCommand
import AmigaFleet.Lib.Pattern
import Mathlib.Data.Bool.AllAny
import Mathlib.Data.List.Infix

/-!
# What the host reads from the debug ring

`sys_debug_ring` of `tools/sys.py` and the readers of its lines in
`tools/sandbox.py`.  `decimal` gives the values of the decimal digits outside
ASCII, which `\d` matches and `int` reads too.

`isSome_exitOf_line`: whether the host sees an exit in a line of SandboxVM does
not depend on the code that is in it.
-/

namespace AmigaFleet.Host.DebugRing

open AmigaFleet.Lib PyStr
open SandboxCommand (intStr intStr_cases isDigit_toDigits)

/-! ## `sys_debug_ring` -/

/-- The result of `sys_debug_ring`. -/
structure DebugRingResult where
  lines : List (List Char)
  truncated : Bool
  rawSize : Nat
deriving DecidableEq, Repr

/-- `str.splitlines()` -/
def plainLines (s : List Char) : List (List Char) := (splitLines s).map (·.rdropWhile isLineBreak)

/-- `sys_debug_ring`, from the output of `C:DumpDebugBuffer` on. -/
def sysDebugRing (output : List Char) (maxLines : Int) : DebugRingResult :=
  let maxLines := (if maxLines < 1 then 1 else maxLines).toNat
  let allLines := plainLines output
  let truncated := allLines.length > maxLines
  { lines := if truncated then allLines.drop (allLines.length - maxLines) else allLines
    truncated := truncated
    rawSize := output.length }

theorem splitLinesGo_line {l : List Char} (hl : ∀ c ∈ l, isLineBreak c = false)
    (line rest : List Char) :
    splitLinesGo line (l ++ '\n' :: rest) = (line ++ l ++ ['\n']) :: splitLinesGo [] rest := by
  induction l generalizing line with
  | nil =>
    rw [List.nil_append, splitLinesGo, if_pos (by decide), List.append_nil]
    simp
  | cons c l ih =>
    obtain ⟨hc, hl⟩ := List.forall_mem_cons.mp hl
    have hreturn : c ≠ '\r' := by
      rintro rfl
      exact absurd hc (by decide)
    rw [List.cons_append, splitLinesGo, if_neg (by simp [hc]), ih hl]
    · simp
    · intro _ hreturn'
      exact absurd hreturn' hreturn

/-- Lines, each with its line break. -/
def joinLines (lines : List (List Char)) : List Char := lines.flatMap (· ++ ['\n'])

theorem plainLines_joinLines {lines : List (List Char)}
    (h : ∀ l ∈ lines, ∀ c ∈ l, isLineBreak c = false) : plainLines (joinLines lines) = lines := by
  have hstrip : ∀ l : List Char, (∀ c ∈ l, isLineBreak c = false) →
      (l ++ ['\n']).rdropWhile isLineBreak = l := by
    intro l hl
    rw [List.rdropWhile_concat_pos _ _ _ (by decide), List.rdropWhile_eq_self_iff]
    intro hne
    simp [hl _ (List.getLast_mem hne)]
  unfold plainLines splitLines
  induction lines with
  | nil => rfl
  | cons l lines ih =>
    obtain ⟨hl, hlines⟩ := List.forall_mem_cons.mp h
    have hjoin : joinLines (l :: lines) = l ++ '\n' :: joinLines lines := by simp [joinLines]
    rw [hjoin, splitLinesGo_line hl, List.map_cons, List.nil_append, hstrip l hl, ih hlines]

/-- The host sees the last lines. -/
theorem sysDebugRing_lines {lines : List (List Char)}
    (h : ∀ l ∈ lines, ∀ c ∈ l, isLineBreak c = false) {maxLines : Nat} (hmax : 1 ≤ maxLines) :
    (sysDebugRing (joinLines lines) maxLines).lines = lines.drop (lines.length - maxLines) := by
  have hclamp : (if (maxLines : Int) < 1 then 1 else (maxLines : Int)).toNat = maxLines := by
    split <;> omega
  simp only [sysDebugRing, plainLines_joinLines h, hclamp]
  split
  · rfl
  · rename_i hfew
    rw [Nat.sub_eq_zero_of_le (by omega), List.drop_zero]

/-- `_ring_reports_daemon` -/
def ringReportsDaemon (lines : List (List Char)) : Bool :=
  lines.any fun ln => "[MCPd]".toList <:+: ln || "[sandboxvm]".toList <:+: ln

/-- Both `_KMOD_HINTS` and `KMOD_LIBCALL_NULL4_HINTS`. -/
def kmodHints : List (List Char) :=
  ["Traptype=0x300".toList, "dar=0x4".toList, "dsisr=0x00800000".toList]

inductive Fingerprint where
  | kmodLibcallNull4
deriving DecidableEq, Repr

/-- The fingerprint of a text in which all the hints stand. -/
def fingerprintOf (text : List Char) : Option Fingerprint :=
  if kmodHints.all (· <:+: text) then some .kmodLibcallNull4 else none

inductive TrapKind where
  | dsi
  | isi
  | alignment
  | program
  | fpUnavailable
deriving DecidableEq, Repr

/-! ## Exit lines -/

section

variable (decimal : Char → Option Nat)

def digitValue (c : Char) : Option Nat :=
  if c.toNat < 128 then if c.isDigit then some (c.toNat - '0'.toNat) else none else decimal c

/-- `\d` -/
def isDecimal (c : Char) : Bool := (digitValue decimal c).isSome

def digitsValue (text : List Char) : Nat :=
  text.foldl (fun n c => 10 * n + (digitValue decimal c).getD 0) 0

/-- `int` of a text that `-?\d+` matches. -/
def intOf : List Char → Int
  | '-' :: digits => -(digitsValue decimal digits : Int)
  | digits => digitsValue decimal digits

/-- `-?\d+` -/
def reInt : Pattern Char := .seq (.opt (.one (· = '-'))) (.plus (isDecimal decimal))

/-- `_RE_GUEST_EXIT` -/
def reGuestExit : Pattern Char :=
  .seq (.lit "[sandboxvm]".toList) <| .seq (.plus isSpace) <|
  .seq (.lit "guest_run_elf".toList) <| .seq (.plus isSpace) <|
  .seq (.group (.plus (!isSpace ·))) <| .seq (.plus isSpace) <|
  .seq (.lit "returned".toList) <| .seq (.plus isSpace) <|
  .group (reInt decimal)

/-- `m.group(1)` and `int(m.group(2))` of the match in a line. -/
def exitOf (line : List Char) : Option (List Char × Int) :=
  ((reGuestExit decimal).search line).map fun m =>
    (m.groups.getD 0 [], intOf decimal (m.groups.getD 1 []))

/-- `_parse_per_guest_exits` -/
def parsePerGuestExits (ringLines : List (List Char)) (expected : Nat) :
    List (List Char × Int) :=
  let found := ringLines.filterMap (exitOf decimal)
  if expected > 0 then found.drop (found.length - expected) else []

/-! ## The lines of SandboxVM -/

/-- What stands behind the code of a guest. -/
def exitTail : List Char := "; calling guest_destroy".toList

/-- The line that shows how a guest has ended.  A path with line breaks is on
several lines, and the code is on the last of them.  A ring that fills up in
the line keeps a part of what stands behind the code. -/
def exitLine (path : List Char) (code : Int) (kept : Nat) : List Char :=
  ("[sandboxvm] guest_run_elf ".toList ++ path).rtakeWhile (!isLineBreak ·) ++
    (" returned ".toList ++ (intStr code ++ exitTail.take kept))

/-! ### Whether a line shows an exit -/

/-- What the pattern matches up to the number. -/
def Lead (y : List Char) : Prop :=
  ∃ t s₁ s₂ path s₃ s₄ : List Char,
    y = t ++ ("[sandboxvm]".toList ++ (s₁ ++ ("guest_run_elf".toList ++ (s₂ ++ (path ++ (s₃ ++
      ("returned".toList ++ s₄))))))) ∧
    (s₁ ≠ [] ∧ ∀ c ∈ s₁, isSpace c = true) ∧ (s₂ ≠ [] ∧ ∀ c ∈ s₂, isSpace c = true) ∧
    (path ≠ [] ∧ ∀ c ∈ path, (!isSpace c) = true) ∧ (s₃ ≠ [] ∧ ∀ c ∈ s₃, isSpace c = true) ∧
    (s₄ ≠ [] ∧ ∀ c ∈ s₄, isSpace c = true)

/-- A text that begins with a number. -/
def Numeric (z : List Char) : Prop :=
  ∃ d r, (z = d :: r ∨ z = '-' :: d :: r) ∧ isDecimal decimal d = true

variable {decimal}

theorem leads_reInt {prev : Option Char} {z : List Char} :
    (reInt decimal).Leads prev z (fun _ _ => True) ↔ Numeric decimal z := by
  simp only [reInt, Pattern.opt, Pattern.leads_seq, Pattern.leads_alt, Pattern.leads_one,
    Pattern.leads_empty, Pattern.leads_plus, and_true, decide_eq_true_eq]
  constructor
  · rintro (⟨_, _, rfl, rfl, t, r, rfl, hne, ht⟩ | ⟨t, r, rfl, hne, ht⟩)
    · cases t with
      | nil => exact absurd rfl hne
      | cons d t => exact ⟨d, t ++ r, Or.inr rfl, ht d (by simp)⟩
    · cases t with
      | nil => exact absurd rfl hne
      | cons d t => exact ⟨d, t ++ r, Or.inl rfl, ht d (by simp)⟩
  · rintro ⟨d, r, rfl | rfl, hd⟩
    · exact Or.inr ⟨[d], r, rfl, by simp, by simpa using hd⟩
    · exact Or.inl ⟨'-', d :: r, rfl, rfl, [d], r, rfl, by simp, by simpa using hd⟩

theorem isSome_exitOf {line : List Char} :
    (exitOf decimal line).isSome = true ↔ ∃ y z, line = y ++ z ∧ Lead y ∧ Numeric decimal z := by
  rw [exitOf, Option.isSome_map, Pattern.search, Pattern.searchFrom_isSome]
  simp only [reGuestExit, Pattern.leads_seq, Pattern.leads_lit, Pattern.leads_plus,
    Pattern.leads_group, leads_reInt]
  constructor
  · rintro ⟨t, _, rfl, _, rfl, s₁, _, rfl, h₁, h₁', _, rfl, s₂, _, rfl, h₂, h₂', path, _, rfl, hp,
      hp', s₃, _, rfl, h₃, h₃', _, rfl, s₄, z, rfl, h₄, h₄', hz⟩
    exact ⟨_, z, by simp, ⟨t, s₁, s₂, path, s₃, s₄, rfl, ⟨h₁, h₁'⟩, ⟨h₂, h₂'⟩, ⟨hp, hp'⟩,
      ⟨h₃, h₃'⟩, ⟨h₄, h₄'⟩⟩, hz⟩
  · rintro ⟨_, z, rfl, ⟨t, s₁, s₂, path, s₃, s₄, rfl, h₁, h₂, hp, h₃, h₄⟩, hz⟩
    exact ⟨t, _, by simp only [List.append_assoc], _, rfl, s₁, _, rfl, h₁.1, h₁.2, _, rfl, s₂, _,
      rfl, h₂.1, h₂.2, path, _, rfl, hp.1, hp.2, s₃, _, rfl, h₃.1, h₃.2, _, rfl, s₄, z, rfl, h₄.1,
      h₄.2, hz⟩

/-- A ring with an exit in it reports on the daemon. -/
theorem ringReportsDaemon_of_exit {lines : List (List Char)} {line : List Char}
    (hmem : line ∈ lines) (hexit : (exitOf decimal line).isSome = true) :
    ringReportsDaemon lines = true := by
  obtain ⟨y, z, rfl, ⟨t, s₁, s₂, path, s₃, s₄, rfl, -⟩, -⟩ := isSome_exitOf.mp hexit
  refine List.any_eq_true.mpr ⟨_, hmem, Bool.or_eq_true_iff.mpr (Or.inr ?_)⟩
  refine decide_eq_true ⟨t, ?_, ?_⟩
  · exact s₁ ++ ("guest_run_elf".toList ++ (s₂ ++ (path ++ (s₃ ++ ("returned".toList ++ s₄))))) ++ z
  · simp only [List.append_assoc]

/-! ### The number of a line -/

theorem digitValue_of_isDigit {c : Char} (hc : c.isDigit = true) :
    digitValue decimal c = some (c.toNat - '0'.toNat) := by
  have hascii : c.toNat < 128 := by
    have hle : c.toNat ≤ 57 := by
      simp only [Char.isDigit, Bool.and_eq_true, decide_eq_true_eq] at hc
      exact hc.2
    omega
  rw [digitValue, if_pos hascii, if_pos hc]

theorem isDecimal_of_isDigit {c : Char} (hc : c.isDigit = true) : isDecimal decimal c = true := by
  rw [isDecimal, digitValue_of_isDigit hc]
  rfl

theorem digitsValue_toDigits (m : Nat) : digitsValue decimal (Nat.toDigits 10 m) = m := by
  have hfold : digitsValue decimal (Nat.toDigits 10 m) =
      Nat.ofDigitChars 10 (Nat.toDigits 10 m) 0 := by
    rw [digitsValue, Nat.ofDigitChars_eq_foldl]
    refine List.foldl_ext _ _ _ fun n c hc => ?_
    rw [digitValue_of_isDigit (isDigit_toDigits hc)]
    rfl
  rw [hfold, Nat.ofDigitChars_ten_toDigits]

theorem intOf_intStr (code : Int) : intOf decimal (intStr code) = code := by
  rcases intStr_cases code with ⟨m, rfl, htext⟩ | ⟨m, rfl, htext⟩
  · rw [htext]
    have hplain : intOf decimal (Nat.toDigits 10 m) = digitsValue decimal (Nat.toDigits 10 m) := by
      unfold intOf
      split
      · rename_i digits hminus
        have hmem : '-' ∈ Nat.toDigits 10 m := by
          rw [hminus]
          exact List.mem_cons_self
        exact absurd (isDigit_toDigits hmem) (by decide)
      · rfl
    rw [hplain, digitsValue_toDigits]
  · rw [htext]
    show -(digitsValue decimal (Nat.toDigits 10 m) : Int) = _
    rw [digitsValue_toDigits]

theorem not_isLineBreak {c : Char} (hc : isSpace c = false) : isLineBreak c = false := by
  simp only [isLineBreak, isSpace, decide_eq_false_iff_not] at hc ⊢
  omega

theorem not_isSpace_intStr {code : Int} {c : Char} (hc : c ∈ intStr code) : isSpace c = false := by
  rcases intStr_cases code with ⟨m, -, htext⟩ | ⟨m, -, htext⟩
  · rw [htext] at hc
    exact isSpace_of_isDigit (isDigit_toDigits hc)
  · rw [htext] at hc
    rcases List.mem_cons.mp hc with rfl | hc
    · decide
    · exact isSpace_of_isDigit (isDigit_toDigits hc)

theorem intStr_ne_nil (code : Int) : intStr code ≠ [] := by
  rcases intStr_cases code with ⟨m, -, htext⟩ | ⟨m, -, htext⟩
  · rw [htext]
    exact Nat.toDigits_ne_nil
  · rw [htext]
    exact List.cons_ne_nil _ _

theorem numeric_intStr (code : Int) (rest : List Char) :
    Numeric decimal (intStr code ++ rest) := by
  have hfirst : ∀ m : Nat, ∃ d r, Nat.toDigits 10 m = d :: r ∧ isDecimal decimal d = true := by
    intro m
    obtain ⟨d, r, hdigits⟩ := List.exists_cons_of_ne_nil (Nat.toDigits_ne_nil (n := m) (b := 10))
    refine ⟨d, r, hdigits, isDecimal_of_isDigit (isDigit_toDigits (m := m) ?_)⟩
    rw [hdigits]
    exact List.mem_cons_self
  rcases intStr_cases code with ⟨m, -, htext⟩ | ⟨m, -, htext⟩
  · obtain ⟨d, r, hdigits, hd⟩ := hfirst m
    exact ⟨d, r ++ rest, Or.inl (by rw [htext, hdigits]; rfl), hd⟩
  · obtain ⟨d, r, hdigits, hd⟩ := hfirst m
    exact ⟨d, r ++ rest, Or.inr (by rw [htext, hdigits]; rfl), hd⟩

theorem not_isLineBreak_exitLine {path : List Char} {code : Int} {kept : Nat} {c : Char}
    (hc : c ∈ exitLine path code kept) : isLineBreak c = false := by
  have hword : ∀ c ∈ " returned ".toList, isLineBreak c = false := List.all_iff_forall_prop.mp rfl
  have htail : ∀ c ∈ exitTail, isLineBreak c = false := List.all_iff_forall_prop.mp rfl
  simp only [exitLine, List.mem_append] at hc
  rcases hc with hc | hc | hc | hc
  · simpa using List.mem_rtakeWhile_imp hc
  · exact hword c hc
  · exact not_isLineBreak (not_isSpace_intStr hc)
  · exact htail c (List.mem_of_mem_take hc)

/-! ### Every code is seen alike -/

/-- The last character that is not white space. -/
def lastSolid (y : List Char) : Option Char := (y.reverse.dropWhile isSpace).head?

theorem lastSolid_append (x y : List Char) :
    lastSolid (x ++ y) = (lastSolid y).or (lastSolid x) := by
  unfold lastSolid
  rw [List.reverse_append, List.dropWhile_append]
  split
  · rename_i hempty
    rw [List.isEmpty_iff.mp hempty]
    rfl
  · rename_i hsolid
    cases hy : y.reverse.dropWhile isSpace with
    | nil => simp [hy] at hsolid
    | cons c r => rfl

theorem lastSolid_blank {s : List Char} (hs : ∀ c ∈ s, isSpace c = true) : lastSolid s = none := by
  have hnil : s.reverse.dropWhile isSpace = [] :=
    List.dropWhile_eq_nil_iff.mpr fun c hc => hs c (List.mem_reverse.mp hc)
  rw [lastSolid, hnil]
  rfl

/-- What the pattern matches up to the number ends with `returned` and white space. -/
theorem Lead.ends {y : List Char} (h : Lead y) :
    lastSolid y = some 'd' ∧ ∃ c, y.getLast? = some c ∧ isSpace c = true := by
  obtain ⟨t, s₁, s₂, path, s₃, s₄, rfl, -, -, -, -, hne, hblank⟩ := h
  constructor
  · simp only [← List.append_assoc]
    rw [lastSolid_append, lastSolid_blank hblank, lastSolid_append]
    rfl
  · refine ⟨s₄.getLast hne, ?_, hblank _ (List.getLast_mem hne)⟩
    simp only [← List.append_assoc]
    rw [List.getLast?_append, List.getLast?_eq_some_getLast hne]
    rfl

theorem exitTail_blanks : ∀ k < 24, k = 0 ∨ (exitTail.take k).getLast?.any isSpace = false ∨
    (lastSolid (exitTail.take k)).any (· ≠ 'd') = true := by
  decide

/-- A match in a line of SandboxVM ends in front of the code, or ends before it. -/
theorem Lead.within {y z a tail : List Char} {code : Int} (h : Lead y) (hpart : tail <+: exitTail)
    (heq : y ++ z = a ++ (intStr code ++ tail)) :
    ∃ w, a = y ++ w ∧ z = w ++ (intStr code ++ tail) := by
  obtain ⟨hsolid, c, hlast, hc⟩ := h.ends
  rcases List.append_eq_append_iff.mp heq with ⟨w, ha, hz⟩ | ⟨w, hy, htail⟩
  · exact ⟨w, ha, hz⟩
  · by_cases hw : w = []
    · exact ⟨[], by simp [hy, hw], by simp [htail, hw]⟩
    · -- the match would end with white space behind the code
      have hwlast : w.getLast? = some c := by
        rw [hy, List.getLast?_append, List.getLast?_eq_some_getLast hw] at hlast
        rw [List.getLast?_eq_some_getLast hw]
        exact hlast
      have hmem : c ∈ w := List.mem_of_getLast? hwlast
      rcases List.append_eq_append_iff.mp htail with ⟨v, hv, htake⟩ | ⟨v, hv, -⟩
      · have hvnil : v ≠ [] := by
          rintro rfl
          rw [hv, List.append_nil] at hmem
          rw [not_isSpace_intStr hmem] at hc
          cases hc
        have hvprefix : v <+: exitTail := List.IsPrefix.trans ⟨z, htake.symm⟩ hpart
        have htable := exitTail_blanks v.length (by
          have hlen := hvprefix.length_le
          have htotal : exitTail.length = 23 := rfl
          omega)
        have hcut : exitTail.take v.length = v := (List.prefix_iff_eq_take.mp hvprefix).symm
        have hvlast : v.getLast? = some c := by
          rw [hv, List.getLast?_append, List.getLast?_eq_some_getLast hvnil] at hwlast
          rw [List.getLast?_eq_some_getLast hvnil]
          exact hwlast
        rw [hcut, hvlast] at htable
        rw [hy, hv, lastSolid_append, lastSolid_append] at hsolid
        rcases htable with hzero | hsolidLast | hother
        · exact absurd (List.length_eq_zero_iff.mp hzero) hvnil
        · rw [Option.any_some, hc] at hsolidLast
          cases hsolidLast
        · obtain ⟨e, he, hne⟩ := (Option.any_eq_true _ _).mp hother
          rw [he, Option.some_or, Option.some_or] at hsolid
          rw [Option.some.inj hsolid] at hne
          exact absurd rfl (of_decide_eq_true hne)
      · have hdigit := not_isSpace_intStr (hv ▸ List.mem_append_left v hmem)
        rw [hdigit] at hc
        cases hc

/-- A number in front of a text that ends with a blank is all in it. -/
theorem Numeric.swap {w rest : List Char} (hw : w = [] ∨ w.getLast? = some ' ')
    (h : Numeric decimal (w ++ rest)) (code : Int) (tail : List Char) :
    Numeric decimal (w ++ (intStr code ++ tail)) := by
  obtain ⟨d, r, hz, hd⟩ := h
  match w, hw, hz with
  | [], _, _ => exact numeric_intStr code tail
  | e :: w, _, Or.inl hz =>
    obtain ⟨rfl, -⟩ := List.cons_eq_cons.mp hz
    exact ⟨e, w ++ (intStr code ++ tail), Or.inl rfl, hd⟩
  | [e], hw, Or.inr hz =>
    obtain ⟨rfl, -⟩ := List.cons_eq_cons.mp hz
    simp at hw
  | e :: f :: w, _, Or.inr hz =>
    obtain ⟨rfl, hfirst⟩ := List.cons_eq_cons.mp hz
    obtain ⟨rfl, -⟩ := List.cons_eq_cons.mp hfirst
    exact ⟨f, w ++ (intStr code ++ tail), Or.inr rfl, hd⟩

/-- Whether the host sees an exit in a line of SandboxVM does not depend on the
code. -/
theorem isSome_exitOf_line (path : List Char) (code code' : Int) (kept : Nat) :
    (exitOf decimal (exitLine path code kept)).isSome =
      (exitOf decimal (exitLine path code' kept)).isSome := by
  have hseen : ∀ c c' : Int, (exitOf decimal (exitLine path c kept)).isSome = true →
      (exitOf decimal (exitLine path c' kept)).isSome = true := by
    intro c c' hsome
    obtain ⟨y, z, hline, hlead, hz⟩ := isSome_exitOf.mp hsome
    rw [exitLine, ← List.append_assoc] at hline
    obtain ⟨w, ha, rfl⟩ := hlead.within (List.take_prefix kept exitTail) hline.symm
    refine isSome_exitOf.mpr ⟨y, w ++ (intStr c' ++ exitTail.take kept), ?_, hlead, ?_⟩
    · rw [exitLine, ← List.append_assoc, ha, List.append_assoc]
    · refine hz.swap ?_ c' (exitTail.take kept)
      by_cases hw : w = []
      · exact Or.inl hw
      · have hlast := congrArg List.getLast? ha
        rw [List.getLast?_append, List.getLast?_append, List.getLast?_eq_some_getLast hw] at hlast
        refine Or.inr ?_
        rw [List.getLast?_eq_some_getLast hw]
        exact hlast.symm
  exact Bool.eq_iff_iff.mpr ⟨hseen code code', hseen code' code⟩

/-! ### Paths without white space -/

theorem head?_reInt (code : Int) {r : List Char} (hr : ∀ c ∈ r.head?, isDecimal decimal c = false)
    (prev : Option Char) :
    ((reInt decimal).hits prev (intStr code ++ r)).head? = some ⟨intStr code, [], r⟩ := by
  have hdigits : ∀ (m : Nat) (prev : Option Char),
      ((Pattern.plus (isDecimal decimal)).hits prev (Nat.toDigits 10 m ++ r)).head? =
        some ⟨Nat.toDigits 10 m, [], r⟩ := fun m =>
    Pattern.head?_plus Nat.toDigits_ne_nil (fun c hc => isDecimal_of_isDigit (isDigit_toDigits hc)) hr
  rcases intStr_cases code with ⟨m, -, htext⟩ | ⟨m, -, htext⟩
  · rw [htext]
    refine Pattern.head?_seq (g := ⟨[], [], Nat.toDigits 10 m ++ r⟩) (l := []) ?_ (hdigits m _)
    obtain ⟨d, ds, hcons⟩ := List.exists_cons_of_ne_nil (Nat.toDigits_ne_nil (n := m) (b := 10))
    have hminus : d ≠ '-' := by
      rintro rfl
      have hmem : '-' ∈ Nat.toDigits 10 m := by
        rw [hcons]
        exact List.mem_cons_self
      exact absurd (isDigit_toDigits hmem) (by decide)
    simp [Pattern.opt, Pattern.hits, hcons, hminus]
  · rw [htext]
    exact Pattern.head?_seq (g := ⟨['-'], [], Nat.toDigits 10 m ++ r⟩) rfl (hdigits m _)

theorem exitLine_words {path : List Char} (hsolid : ∀ c ∈ path, isSpace c = false) (code : Int)
    (kept : Nat) : exitLine path code kept = "[sandboxvm]".toList ++ ([' '] ++
      ("guest_run_elf".toList ++ ([' '] ++ (path ++ ([' '] ++ ("returned".toList ++ ([' '] ++
        (intStr code ++ exitTail.take kept)))))))) := by
  have hlead : ("[sandboxvm] guest_run_elf ".toList ++ path).rtakeWhile (!isLineBreak ·) =
      "[sandboxvm]".toList ++ ([' '] ++ ("guest_run_elf".toList ++ [' '])) ++ path := by
    refine List.rtakeWhile_eq_self_iff.mpr fun c hc => ?_
    rcases List.mem_append.mp hc with hc | hc
    · have hplain : ∀ c ∈ "[sandboxvm] guest_run_elf ".toList, (!isLineBreak c) = true :=
        List.all_iff_forall_prop.mp rfl
      exact hplain c hc
    · rw [not_isLineBreak (hsolid c hc)]
      rfl
  have hword : " returned ".toList = [' '] ++ ("returned".toList ++ [' ']) := rfl
  rw [exitLine, hlead, hword]
  simp only [List.append_assoc]

/-- A path without white space: the host reads the path and the code. -/
theorem exitOf_exitLine {path : List Char} (hne : path ≠ [])
    (hsolid : ∀ c ∈ path, isSpace c = false) (code : Int) (kept : Nat) :
    exitOf decimal (exitLine path code kept) = some (path, code) := by
  have hblank : ∀ c ∈ [' '], isSpace c = true := List.forall_mem_singleton.mpr rfl
  have hhead : ∀ {w : List Char}, w ≠ [] → (∀ c ∈ w, isSpace c = false) → ∀ x,
      ∀ c ∈ (w ++ x).head?, isSpace c = false := by
    intro w hw hall x c hc
    obtain ⟨d, w, rfl⟩ := List.exists_cons_of_ne_nil hw
    obtain rfl : d = c := Option.some.inj hc
    exact hall d List.mem_cons_self
  have hword : ∀ {w : List Char} (b : Pattern Char), w ≠ [] → w.head? ≠ some ' ' →
      (Pattern.seq (.lit w) b).Bars [' '] := fun b hw hfirst =>
    (Pattern.bars_lit hw (List.forall_mem_singleton.mpr hfirst)).seq b
  have hpath : (Pattern.group (.plus (!isSpace ·))).Bars [' '] :=
    (Pattern.bars_plus (List.forall_mem_singleton.mpr rfl)).group
  have hnumber : (Pattern.group (reInt decimal)).Bars [' '] :=
    (Pattern.Bars.opt_seq (Pattern.bars_one (List.forall_mem_singleton.mpr rfl))
      (Pattern.bars_plus (List.forall_mem_singleton.mpr rfl))).group
  have helf : ∀ c ∈ "guest_run_elf".toList, isSpace c = false := List.all_iff_forall_prop.mp rfl
  have hreturned : ∀ c ∈ "returned".toList, isSpace c = false := List.all_iff_forall_prop.mp rfl
  have htail : ∀ c ∈ (exitTail.take kept).head?, isDecimal decimal c = false := by
    intro c hc
    cases kept with
    | zero => cases hc
    | succ n =>
      obtain rfl : ';' = c := Option.some.inj hc
      rfl
  have hgroups : (((reGuestExit decimal).hits none (exitLine path code kept)).head?.map
      Pattern.Hit.groups) = some [path, intStr code] := by
    rw [exitLine_words hsolid]
    unfold reGuestExit
    rw [Pattern.hits_seq_lit,
      Pattern.hits_seq_plus (hword _ (by decide) (by decide)) (by decide) hblank
        (hhead (by decide) helf _),
      Pattern.hits_seq_lit,
      Pattern.hits_seq_plus (hpath.seq _) (by decide) hblank (hhead hne hsolid _),
      Pattern.hits_seq_group_plus ((Pattern.bars_plus hsolid).seq _) hne
        (fun c hc => by simp [hsolid c hc]) (by simp [isSpace]),
      Pattern.hits_seq_plus (hword _ (by decide) (by decide)) (by decide) hblank
        (hhead (by decide) hreturned _),
      Pattern.hits_seq_lit,
      Pattern.hits_seq_plus hnumber (by decide) hblank
        (hhead (intStr_ne_nil code) (fun c hc => not_isSpace_intStr hc) _)]
    simp only [List.head?_map, Pattern.hits]
    rw [head?_reInt code htail]
    rfl
  obtain ⟨m, hm, hgroups⟩ := Option.map_eq_some_iff.mp hgroups
  rw [exitOf, Pattern.search_of_head? hm, Option.map_some, hgroups]
  show some (path, intOf decimal (intStr code)) = _
  rw [intOf_intStr]

end

end AmigaFleet.Host.DebugRing

import Mathlib.Data.List.DropRight

/-!
# Python's `str`

The methods of `str` that the host uses, on the code points of a text.
-/

namespace AmigaFleet.Host.PyStr

instance lawfulBEq_text : LawfulBEq (List Char) := inferInstance

/-- `str.isspace` of one character. -/
def isSpace (c : Char) : Bool :=
  (9 ≤ c.toNat ∧ c.toNat ≤ 13) ∨ (28 ≤ c.toNat ∧ c.toNat ≤ 32) ∨ c.toNat = 0x85 ∨ c.toNat = 0xA0 ∨
    c.toNat = 0x1680 ∨ (0x2000 ≤ c.toNat ∧ c.toNat ≤ 0x200A) ∨ c.toNat = 0x2028 ∨
    c.toNat = 0x2029 ∨ c.toNat = 0x202F ∨ c.toNat = 0x205F ∨ c.toNat = 0x3000

/-- `str.strip` -/
def strip (s : List Char) : List Char := (s.dropWhile isSpace).rdropWhile isSpace

/-- The ligatures and letters outside ASCII with capitals that begin in ASCII, by
their code points. -/
def upperSpecial : Nat → Option (List Char)
  | 0xDF => some ['S', 'S']
  | 0x131 => some ['I']
  | 0x17F => some ['S']
  | 0x1F0 => some ['J', Char.ofNat 0x30C]
  | 0x1E96 => some ['H', Char.ofNat 0x331]
  | 0x1E97 => some ['T', Char.ofNat 0x308]
  | 0x1E98 => some ['W', Char.ofNat 0x30A]
  | 0x1E99 => some ['Y', Char.ofNat 0x30A]
  | 0x1E9A => some ['A', Char.ofNat 0x2BE]
  | 0xFB00 => some ['F', 'F']
  | 0xFB01 => some ['F', 'I']
  | 0xFB02 => some ['F', 'L']
  | 0xFB03 => some ['F', 'F', 'I']
  | 0xFB04 => some ['F', 'F', 'L']
  | 0xFB05 => some ['S', 'T']
  | 0xFB06 => some ['S', 'T']
  | _ => none

/-- `str.upper` of one character.  Letters whose capitals are not ASCII stay as
they are: the texts that are compared here hold none. -/
def upperChar (c : Char) : List Char :=
  if c.toNat < 128 then [c.toUpper] else (upperSpecial c.toNat).getD [c]

/-- `str.upper` -/
def upper (s : List Char) : List Char := s.flatMap upperChar

/-! ## Lines and words -/

/-- The characters that end a line; `\r\n` ends one line. -/
def isLineBreak (c : Char) : Bool :=
  (10 ≤ c.toNat ∧ c.toNat ≤ 13) ∨ (28 ≤ c.toNat ∧ c.toNat ≤ 30) ∨ c.toNat = 0x85 ∨
    c.toNat = 0x2028 ∨ c.toNat = 0x2029

/-- `str.splitlines(keepends=True)` with the line that is being read. -/
def splitLinesGo (line : List Char) : List Char → List (List Char)
  | [] => if line = [] then [] else [line]
  | '\r' :: '\n' :: rest => (line ++ ['\r', '\n']) :: splitLinesGo [] rest
  | c :: rest =>
    if isLineBreak c then (line ++ [c]) :: splitLinesGo [] rest else splitLinesGo (line ++ [c]) rest

/-- `str.splitlines(keepends=True)` -/
def splitLines (s : List Char) : List (List Char) := splitLinesGo [] s

/-- `str.split(sep)` for one character, with the part that is being read. -/
def splitGo (sep : Char) (part : List Char) : List Char → List (List Char)
  | [] => [part]
  | c :: rest => if c = sep then part :: splitGo sep [] rest else splitGo sep (part ++ [c]) rest

def split (sep : Char) (s : List Char) : List (List Char) := splitGo sep [] s

/-- `str.split()` with the word that is being read. -/
def wordsGo (word : List Char) : List Char → List (List Char)
  | [] => if word = [] then [] else [word]
  | c :: rest =>
    if isSpace c then
      if word = [] then wordsGo [] rest else word :: wordsGo [] rest
    else wordsGo (word ++ [c]) rest

def words (s : List Char) : List (List Char) := wordsGo [] s

/-- `str.rstrip(c)` -/
def rstripChar (c : Char) (s : List Char) : List Char := s.rdropWhile (· = c)

/-- `str.replace(old, new)`, while `skip` characters of a match are left. -/
def replaceGo (old new : List Char) : Nat → List Char → List Char
  | _, [] => if old = [] then new else []
  | 0, c :: rest =>
    if old.isPrefixOf (c :: rest) then
      if old = [] then new ++ c :: replaceGo old new 0 rest
      else new ++ replaceGo old new (old.length - 1) rest
    else c :: replaceGo old new 0 rest
  | skip + 1, _ :: rest => replaceGo old new skip rest

def replace (old new s : List Char) : List Char := replaceGo old new 0 s

/-- `str.count(sub)`, while `skip` characters of a match are left. -/
def countGo (sub : List Char) : Nat → List Char → Nat
  | _, [] => if sub = [] then 1 else 0
  | 0, c :: rest =>
    if sub.isPrefixOf (c :: rest) then countGo sub (sub.length - 1) rest + 1 else countGo sub 0 rest
  | skip + 1, _ :: rest => countGo sub skip rest

def count (sub s : List Char) : Nat := countGo sub 0 s

/-! ## Blanks -/

theorem isSpace_of_isDigit {c : Char} (hc : c.isDigit = true) : isSpace c = false := by
  have hrange : 48 ≤ c.toNat ∧ c.toNat ≤ 57 := by
    simp only [Char.isDigit, Bool.and_eq_true, decide_eq_true_eq] at hc
    exact hc
  simp only [isSpace, decide_eq_false_iff_not]
  omega

/-- A line break is a blank. -/
theorem isLineBreak_of_notSpace {c : Char} (hc : isSpace c = false) : isLineBreak c = false := by
  simp only [isLineBreak, isSpace, decide_eq_false_iff_not] at hc ⊢
  omega

/-! ## Stripping -/

theorem head_strip {s : List Char} {c : Char} (h : (strip s).head? = some c) : isSpace c = false := by
  have hprefix : strip s <+: s.dropWhile isSpace := List.rdropWhile_prefix _ _
  obtain ⟨rest, hrest⟩ := hprefix
  have hhead : (s.dropWhile isSpace).head? = some c := by
    rw [← hrest, List.head?_append, h]
    rfl
  have hnot := List.head?_dropWhile_not isSpace s
  rw [hhead] at hnot
  simpa using hnot

theorem last_strip {s : List Char} {c : Char} (h : (strip s).getLast? = some c) :
    isSpace c = false := by
  have hne : strip s ≠ [] := by
    intro hnil
    rw [hnil] at h
    cases h
  rw [List.getLast?_eq_some_getLast hne] at h
  have hlast := List.rdropWhile_last_not isSpace (s.dropWhile isSpace) hne
  rw [← Option.some.inj h]
  simpa [strip] using hlast

/-- A text without blanks at its ends stays. -/
theorem strip_eq_self {s : List Char} (hhead : ∀ c, s.head? = some c → isSpace c = false)
    (hlast : ∀ c, s.getLast? = some c → isSpace c = false) : strip s = s := by
  have hdrop : s.dropWhile isSpace = s := by
    cases s with
    | nil => rfl
    | cons c rest => rw [List.dropWhile_cons, if_neg (by simp [hhead c rfl])]
  unfold strip
  rw [hdrop, List.rdropWhile_eq_self_iff]
  intro hne
  simp [hlast _ (List.getLast?_eq_some_getLast hne)]

@[simp] theorem strip_strip (s : List Char) : strip (strip s) = strip s :=
  strip_eq_self (fun _ => head_strip) (fun _ => last_strip)

/-! ## Capitals -/

@[simp] theorem upper_append (s t : List Char) : upper (s ++ t) = upper s ++ upper t :=
  List.flatMap_append

@[simp] theorem upper_cons (c : Char) (s : List Char) : upper (c :: s) = upperChar c ++ upper s := rfl

theorem upperSpecial_ne_nil {n : Nat} {cs : List Char} (h : upperSpecial n = some cs) : cs ≠ [] := by
  unfold upperSpecial at h
  split at h <;> cases h <;> simp

theorem upperChar_ne_nil (c : Char) : upperChar c ≠ [] := by
  unfold upperChar
  split
  · simp
  · cases h : upperSpecial c.toNat with
    | none => simp
    | some cs => exact upperSpecial_ne_nil h

theorem upper_eq_nil {s : List Char} (h : upper s = []) : s = [] := by
  cases s with
  | nil => rfl
  | cons c rest =>
    rw [upper_cons, List.append_eq_nil_iff] at h
    exact absurd h.1 (upperChar_ne_nil c)

/-- A character whose ASCII capital is a letter is one itself. -/
theorem upperChar_of_toUpper {c : Char} (h : c.toUpper.toNat < 128) : upperChar c = [c.toUpper] := by
  unfold upperChar
  rw [if_pos]
  unfold Char.toUpper at h
  split at h
  · rename_i hlower
    have hle : c.toNat ≤ 122 := hlower.2
    omega
  · exact h

/-- The capitals of a text that is ASCII up to its case. -/
theorem upper_of_toUpper {s : List Char} (h : ∀ c ∈ s, c.toUpper.toNat < 128) :
    upper s = s.map Char.toUpper := by
  induction s with
  | nil => rfl
  | cons c rest ih =>
    rw [List.forall_mem_cons] at h
    rw [upper_cons, upperChar_of_toUpper h.1, ih h.2]
    rfl

end AmigaFleet.Host.PyStr

import Mathlib.Data.Bool.AllAny
import AmigaFleet.Lib.Hex
import AmigaFleet.Lib.JsonPrint
import AmigaFleet.Lib.Utf8
import AmigaFleet.Mcpd.CJson

/-!
# The text of a tree

What `cJSON_PrintUnformatted` writes, with the printers that cJSON documents:
a string is copied byte by byte, with escapes for quotes, backslashes and
control characters, and a number is printed as a JSON number.

The text of a tree is always a JSON text (`parse_print`).  It is UTF-8 if and
only if the strings of the tree are (`utf8_print_iff`): nothing on the way
looks at the bytes from 128 on.
-/

namespace AmigaFleet.Mcpd.CJson

open AmigaFleet.Lib
open AmigaFleet.Lib.JsonText (Value Number Glyph Reads Field inside spell scalar)

/-! ## Strings -/

/-- One byte in `print_string_ptr`. -/
def escapeByte (c : UInt8) : Bytes :=
  if c = 34 then ascii "\\\""
  else if c = 92 then ascii "\\\\"
  else if c = 8 then ascii "\\b"
  else if c = 12 then ascii "\\f"
  else if c = 10 then ascii "\\n"
  else if c = 13 then ascii "\\r"
  else if c = 9 then ascii "\\t"
  else if c < 32 then ascii "\\u00" ++ hexByte c
  else [c]

/-- `print_string_ptr` -/
def printString (text : Bytes) : Bytes := quote :: (text.flatMap escapeByte ++ [quote])

/-- The printers of cJSON, as it documents them. -/
structure Printer.Documented (p : Printer) : Prop where
  string : ∀ text, p.string text = printString text
  number : ∀ value, (run Number.step .start (p.number value)).any Number.complete = true

/-- A property of bytes, tested on all of them. -/
theorem forall_byte {P : UInt8 → Prop} (h : ∀ k : Fin 256, P (UInt8.ofNat k.val)) (c : UInt8) :
    P c := by
  have hc := h ⟨c.toNat, c.toNat_lt⟩
  rwa [UInt8.ofNat_toNat] at hc

/-- What is written for a byte is read as that byte. -/
theorem run_escapeByte (c : UInt8) :
    run inside ([], .plain) (escapeByte c) = some ([.byte c], .plain) := by
  apply forall_byte (P := fun c => run inside ([], .plain) (escapeByte c) = some ([.byte c], .plain))
  decide +kernel

theorem spell_escape (text : Bytes) : spell (text.flatMap escapeByte) = some (text.map .byte) :=
  JsonText.spell_flatMap run_escapeByte text

/-! ## Numbers -/

/-- The bytes of a number. -/
def isNumeric (c : UInt8) : Bool :=
  JsonText.isDigit c || c = 43 || c = 45 || c = 46 || c = 69 || c = 101

theorem isNumeric_of_step {s s' : Number} {c : UInt8} (h : s.step c = some s') :
    isNumeric c = true := by
  have hall : (s.step c).isSome = true → isNumeric c = true := by
    apply forall_byte (P := fun c => (s.step c).isSome = true → isNumeric c = true)
    cases s <;> decide +kernel
  exact hall (by rw [h]; rfl)

theorem isNumeric_of_mem {s s' : Number} {word : Bytes} (h : run Number.step s word = some s')
    {c : UInt8} (hc : c ∈ word) : isNumeric c = true := by
  induction word generalizing s with
  | nil => cases hc
  | cons d word ih =>
    obtain ⟨s₁, hone, hrest⟩ := run_cons_some h
    rcases List.mem_cons.mp hc with rfl | hmem
    · exact isNumeric_of_step hone
    · exact ih hrest hmem

theorem isNumeric_plain {c : UInt8} (h : isNumeric c = true) :
    JsonText.delimits c = false ∧ c < 128 := by
  revert h
  apply forall_byte (P := fun c => isNumeric c = true → JsonText.delimits c = false ∧ c < 128)
  decide +kernel

/-- The text of a number. -/
structure NumberText (word : Bytes) : Prop where
  ne_nil : word ≠ []
  numeric : ∀ c ∈ word, isNumeric c = true
  value : scalar word = some (.num word)

theorem numberText_of_run {word : Bytes}
    (h : (run Number.step .start word).any Number.complete = true) : NumberText word := by
  have hmem : ∀ c ∈ word, isNumeric c = true := by
    intro c hc
    cases hs : run Number.step .start word with
    | none =>
      rw [hs] at h
      cases h
    | some s => exact isNumeric_of_mem hs hc
  refine ⟨?_, hmem, ?_⟩
  · rintro rfl
    cases h
  · have hletter : ∀ word' : Bytes, (∃ c ∈ word', isNumeric c = false) → word ≠ word' := by
      intro word' ⟨c, hc, hnot⟩ heq
      rw [hmem c (heq ▸ hc)] at hnot
      cases hnot
    rw [scalar, if_neg (hletter _ ⟨110, by decide, rfl⟩), if_neg (hletter _ ⟨116, by decide, rfl⟩),
      if_neg (hletter _ ⟨102, by decide, rfl⟩), if_pos h]

theorem NumberText.reads {word : Bytes} (h : NumberText word) : Reads word (.num word) :=
  JsonText.reads_scalar h.ne_nil (fun c hc => (isNumeric_plain (h.numeric c hc)).1) h.value

/-! ## Trees -/

mutual

/-- What a reader of the text has in its hands. -/
def toValue (p : Printer) : CJson → Value
  | null => .null
  | bool b => .bool b
  | number value => .num (p.number value)
  | string text => .str (text.map .byte)
  | array items => .arr (toValues p items)
  | object members => .obj (toMembers p members)

def toValues (p : Printer) : List CJson → List Value
  | [] => []
  | item :: items => toValue p item :: toValues p items

def toMembers (p : Printer) : List (Bytes × CJson) → JsonText.Members
  | [] => []
  | (name, item) :: members => (name.map .byte, toValue p item) :: toMembers p members

end

/-- The text of one member. -/
def printMember (p : Printer) (m : Bytes × CJson) : Bytes := p.string m.1 ++ ascii ":" ++ print p m.2

theorem printItems_eq (p : Printer) (items : List CJson) :
    printItems p items = [44].intercalate (items.map (print p)) := by
  induction items with
  | nil => rfl
  | cons item items ih =>
    rw [printItems, ih]
    cases items with
    | nil => simp
    | cons item' items =>
      show _ = [44].intercalate (print p item :: print p item' :: items.map (print p))
      rw [List.intercalate_cons_cons]
      rfl

theorem printMembers_eq (p : Printer) (members : List (Bytes × CJson)) :
    printMembers p members = [44].intercalate (members.map (printMember p)) := by
  induction members with
  | nil => rfl
  | cons m members ih =>
    obtain ⟨name, item⟩ := m
    rw [printMembers, ih]
    cases members with
    | nil => simp [printMember]
    | cons m' members =>
      show _ = [44].intercalate (printMember p (name, item) :: printMember p m' ::
        members.map (printMember p))
      rw [List.intercalate_cons_cons]
      rfl

theorem field_printMember {p : Printer} (hp : p.Documented) {name : Bytes} {item : CJson}
    (h : Reads (print p item) (toValue p item)) :
    Field (printMember p (name, item)) (name.map .byte, toValue p item) := by
  refine ⟨name.flatMap escapeByte, print p item, ?_, spell_escape name, h⟩
  rw [printMember, hp.string, printString]
  show quote :: (name.flatMap escapeByte ++ [quote] ++ ascii ":" ++ print p item) = _
  rw [List.append_assoc, List.append_assoc]
  rfl

mutual

theorem reads_print {p : Printer} (hp : p.Documented) :
    ∀ tree : CJson, Reads (print p tree) (toValue p tree)
  | null => show Reads (ascii "null") .null from
      JsonText.reads_scalar (by decide) (List.all_iff_forall_prop.mp rfl) rfl
  | bool true => show Reads (ascii "true") (.bool true) from
      JsonText.reads_scalar (by decide) (List.all_iff_forall_prop.mp rfl) rfl
  | bool false => show Reads (ascii "false") (.bool false) from
      JsonText.reads_scalar (by decide) (List.all_iff_forall_prop.mp rfl) rfl
  | number value => (numberText_of_run (hp.number value)).reads
  | string text => by
    rw [print, hp.string]
    exact JsonText.reads_string (spell_escape text)
  | array items => by
    rw [print, printItems_eq, List.append_assoc]
    exact JsonText.reads_array (reads_items hp items)
  | object members => by
    rw [print, printMembers_eq, List.append_assoc]
    exact JsonText.reads_object (reads_members hp members)

theorem reads_items {p : Printer} (hp : p.Documented) : ∀ items : List CJson,
    List.Forall₂ Reads (items.map (print p)) (toValues p items)
  | [] => .nil
  | item :: items => .cons (reads_print hp item) (reads_items hp items)

theorem reads_members {p : Printer} (hp : p.Documented) : ∀ members : List (Bytes × CJson),
    List.Forall₂ JsonText.Member (members.map (printMember p)) (toMembers p members)
  | [] => .nil
  | (_, item) :: members =>
    .cons (field_printMember hp (reads_print hp item)).member (reads_members hp members)

end

/-- The text of a tree is a JSON text, whatever its strings are. -/
theorem parse_print {p : Printer} (hp : p.Documented) (tree : CJson) :
    JsonText.parse (print p tree) = some (toValue p tree) :=
  JsonText.parse_of_reads (reads_print hp tree)

/-! ## The bytes of a tree -/

mutual

/-- All strings of a tree are UTF-8. -/
def Legible : CJson → Prop
  | string text => Utf8 text
  | array items => LegibleItems items
  | object members => LegibleMembers members
  | _ => True

def LegibleItems : List CJson → Prop
  | [] => True
  | item :: items => Legible item ∧ LegibleItems items

def LegibleMembers : List (Bytes × CJson) → Prop
  | [] => True
  | (name, item) :: members => (Utf8 name ∧ Legible item) ∧ LegibleMembers members

end

/-- The texts of the code are ASCII. -/
theorem utf8_literal {text : String} (h : (ascii text).all (· < 128) = true) : Utf8 (ascii text) :=
  utf8_of_ascii fun c hc => by simpa using List.all_eq_true.mp h c hc

theorem escapeByte_cases (c : UInt8) :
    (c < 128 ∧ ∃ d rest, escapeByte c = d :: rest ∧ ∀ b ∈ d :: rest, b < 128) ∨
      (128 ≤ c ∧ escapeByte c = [c]) := by
  -- as a `Bool`, so that only the bytes of the escape are tested
  have hall : (c < 128 ∧ escapeByte c ≠ [] ∧ (escapeByte c).all (· < 128) = true) ∨
      (128 ≤ c ∧ escapeByte c = [c]) := by
    apply forall_byte (P := fun c => (c < 128 ∧ escapeByte c ≠ [] ∧
      (escapeByte c).all (· < 128) = true) ∨ (128 ≤ c ∧ escapeByte c = [c]))
    decide +kernel
  rcases hall with ⟨hlow, hne, hmem⟩ | hhigh
  · obtain ⟨d, rest, heq⟩ := List.exists_cons_of_ne_nil hne
    have hascii : ∀ b ∈ escapeByte c, b < 128 := by simpa using hmem
    exact Or.inl ⟨hlow, d, rest, heq, heq ▸ hascii⟩
  · exact Or.inr hhigh

/-- Escapes change nothing for a decoder. -/
theorem utf8_escape_iff (pre text : Bytes) :
    Utf8 (pre ++ text.flatMap escapeByte) ↔ Utf8 (pre ++ text) := by
  induction text generalizing pre with
  | nil => rfl
  | cons c text ih =>
    rw [List.flatMap_cons]
    rcases escapeByte_cases c with ⟨hlow, d, rest, hesc, hascii⟩ | ⟨-, hesc⟩
    · have hrest : ∀ b ∈ rest, b < 128 := fun b hb => hascii b (List.mem_cons_of_mem _ hb)
      have hbehind := ih []
      rw [List.nil_append, List.nil_append] at hbehind
      rw [hesc, List.cons_append, utf8_cut_iff (hascii d (List.mem_cons_self ..)),
        utf8_ascii_append_iff hrest, utf8_cut_iff hlow, hbehind]
    · have hbehind := ih (pre ++ [c])
      rw [hesc]
      simpa using hbehind

theorem utf8_printString_iff (text : Bytes) : Utf8 (printString text) ↔ Utf8 text := by
  have hquote : ∀ c ∈ [quote], c < 128 := List.all_iff_forall_prop.mp rfl
  rw [printString, utf8_cons_iff (by decide), utf8_append_ascii_iff hquote]
  exact utf8_escape_iff [] text

theorem utf8_printMember_iff {p : Printer} (hp : p.Documented) {name : Bytes} {item : CJson} :
    Utf8 (printMember p (name, item)) ↔ Utf8 name ∧ Utf8 (print p item) := by
  have hcolon : printMember p (name, item) = p.string name ++ 58 :: print p item := by
    rw [printMember, List.append_assoc]
    rfl
  rw [hcolon, utf8_cut_iff (by decide), hp.string, utf8_printString_iff]

theorem utf8_array_iff (p : Printer) (items : List CJson) :
    Utf8 (print p (.array items)) ↔ ∀ text ∈ items.map (print p), Utf8 text := by
  have hopen : ∀ c ∈ ascii "[", c < 128 := List.all_iff_forall_prop.mp rfl
  have hclose : ∀ c ∈ ascii "]", c < 128 := List.all_iff_forall_prop.mp rfl
  rw [print, printItems_eq, utf8_append_ascii_iff hclose, utf8_ascii_append_iff hopen,
    utf8_intercalate_iff (by decide)]

theorem utf8_object_iff (p : Printer) (members : List (Bytes × CJson)) :
    Utf8 (print p (.object members)) ↔ ∀ text ∈ members.map (printMember p), Utf8 text := by
  have hopen : ∀ c ∈ ascii "\x7b", c < 128 := List.all_iff_forall_prop.mp rfl
  have hclose : ∀ c ∈ ascii "\x7d", c < 128 := List.all_iff_forall_prop.mp rfl
  rw [print, printMembers_eq, utf8_append_ascii_iff hclose, utf8_ascii_append_iff hopen,
    utf8_intercalate_iff (by decide)]

mutual

/-- The text of a tree is UTF-8 if and only if its strings are. -/
theorem utf8_print_iff {p : Printer} (hp : p.Documented) : ∀ tree : CJson,
    Utf8 (print p tree) ↔ Legible tree
  | null => iff_of_true (show Utf8 (ascii "null") from utf8_literal rfl) trivial
  | bool true => iff_of_true (show Utf8 (ascii "true") from utf8_literal rfl) trivial
  | bool false => iff_of_true (show Utf8 (ascii "false") from utf8_literal rfl) trivial
  | number value => by
    have hnum := numberText_of_run (hp.number value)
    exact iff_of_true (utf8_of_ascii fun c hc => (isNumeric_plain (hnum.numeric c hc)).2) trivial
  | string text => by
    rw [print, hp.string, utf8_printString_iff]
    rfl
  | array items => by
    rw [utf8_array_iff]
    exact utf8_items_iff hp items
  | object members => by
    rw [utf8_object_iff]
    exact utf8_members_iff hp members

theorem utf8_items_iff {p : Printer} (hp : p.Documented) : ∀ items : List CJson,
    (∀ text ∈ items.map (print p), Utf8 text) ↔ LegibleItems items
  | [] => by simp [LegibleItems]
  | item :: items => by
    rw [List.map_cons, List.forall_mem_cons, utf8_print_iff hp item, utf8_items_iff hp items]
    rfl

theorem utf8_members_iff {p : Printer} (hp : p.Documented) : ∀ members : List (Bytes × CJson),
    (∀ text ∈ members.map (printMember p), Utf8 text) ↔ LegibleMembers members
  | [] => by simp [LegibleMembers]
  | (name, item) :: members => by
    rw [List.map_cons, List.forall_mem_cons, utf8_printMember_iff hp, utf8_print_iff hp item,
      utf8_members_iff hp members]
    rfl

end

/-! ## Legible trees -/

theorem legibleItems_iff (items : List CJson) :
    LegibleItems items ↔ ∀ item ∈ items, Legible item := by
  induction items with
  | nil => simp [LegibleItems]
  | cons item items ih => rw [LegibleItems, ih, List.forall_mem_cons]

theorem legibleMembers_iff (members : List (Bytes × CJson)) :
    LegibleMembers members ↔ ∀ m ∈ members, Utf8 m.1 ∧ Legible m.2 := by
  induction members with
  | nil => simp [LegibleMembers]
  | cons m members ih =>
    obtain ⟨name, item⟩ := m
    rw [LegibleMembers, ih, List.forall_mem_cons]

@[simp] theorem legible_array_iff (items : List CJson) :
    Legible (.array items) ↔ ∀ item ∈ items, Legible item :=
  legibleItems_iff items

@[simp] theorem legible_object_iff (members : List (Bytes × CJson)) :
    Legible (.object members) ↔ ∀ m ∈ members, Utf8 m.1 ∧ Legible m.2 :=
  legibleMembers_iff members

@[simp] theorem legible_string_iff (text : Bytes) : Legible (.string text) ↔ Utf8 text := Iff.rfl

@[simp] theorem legible_number (value : Rat) : Legible (.number value) := trivial

@[simp] theorem legible_cNumber (n : Int) : Legible (cNumber n) := trivial

@[simp] theorem legible_bool (b : Bool) : Legible (.bool b) := trivial

@[simp] theorem legible_null : Legible .null := trivial

theorem legible_cString {text : String} (h : (ascii text).all (· < 128) = true) :
    Legible (cString text) :=
  utf8_literal h

theorem Legible.getItem {tree item : CJson} (h : Legible tree) {name : Bytes}
    (hget : tree.getItem name = some item) : Legible item := by
  cases tree with
  | object members =>
    obtain ⟨m, hm, rfl⟩ := Option.map_eq_some_iff.mp hget
    exact ((legible_object_iff members).mp h m (List.mem_of_find?_eq_some hm)).2
  | _ => cases hget

theorem legible_rpcMakeError {code : Int} {message : String} {data : Option CJson}
    (hmessage : (ascii message).all (· < 128) = true) (hdata : ∀ d ∈ data, Legible d) :
    Legible (rpcMakeError code message data) := by
  have hcode : Utf8 (ascii "code") := utf8_literal rfl
  have hname : Utf8 (ascii "message") := utf8_literal rfl
  have hdataName : Utf8 (ascii "data") := utf8_literal rfl
  cases data with
  | none => simp [rpcMakeError, hcode, hname, legible_cString hmessage]
  | some d => simp [rpcMakeError, hcode, hname, hdataName, legible_cString hmessage, hdata d rfl]

theorem legible_targetError {message : String} {path : Bytes}
    (hmessage : (ascii message).all (· < 128) = true) (hpath : Utf8 path) :
    Legible (targetError message path) := by
  have hname : Utf8 (ascii "path") := utf8_literal rfl
  refine legible_rpcMakeError hmessage fun d hd => ?_
  cases hd
  simp [hname, hpath]

/-- A string parameter of a legible request, or the error about it. -/
theorem legible_pStr {params : Option CJson} (h : ∀ t ∈ params, Legible t) {name : String}
    (hname : (ascii name).all (· < 128) = true) :
    (∃ text, pStr params name = .ok text ∧ Utf8 text) ∨
      ∃ err, pStr params name = .error err ∧ Legible err := by
  have hmissing : Legible (rpcMakeError mcpdErrInvparams "missing required string param"
      (some (.object [(ascii "missing", cString name)]))) := by
    refine legible_rpcMakeError rfl fun d hd => ?_
    cases hd
    have hkey : Utf8 (ascii "missing") := utf8_literal rfl
    simp [hkey, legible_cString hname]
  have hobject : Legible (rpcMakeError mcpdErrInvparams "params must be an object" none) :=
    legible_rpcMakeError rfl (by simp)
  unfold pStr
  split
  · split
    · rename_i members _ text hget
      exact Or.inl ⟨text, rfl, (h _ rfl).getItem hget⟩
    · exact Or.inr ⟨_, rfl, hmissing⟩
  · exact Or.inr ⟨_, rfl, hobject⟩

end AmigaFleet.Mcpd.CJson

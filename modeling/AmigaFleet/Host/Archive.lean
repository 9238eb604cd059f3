import AmigaFleet.Lib.Base64
import AmigaFleet.Lib.JsonPrint
import AmigaFleet.Lib.Utf8
import AmigaFleet.Mcpd.PrintText
import AmigaFleet.Host.Json

/-!
# The archive of tool calls

`_scrub` and `Archive.log_call` of `host/src/amiga_fleet_mcp/archive/store.py`:
one line of JSON for each call.

* `PyObj` are the Python values of a call, `PyText` the Python strings.
* `Plain` values are written as they are, without a long string; `Clean` values
  once they are scrubbed (`plain_scrub_iff`).
* `plain_iff`: what `json.dumps` makes of a plain value, and of no other.
* `logCall_iff`: the calls whose line is what an archive should hold.
-/

namespace AmigaFleet.Host.Archive

open AmigaFleet.Lib
open AmigaFleet.Lib.JsonText (Value Glyph Reads Members Number)
open AmigaFleet.Mcpd (ascii)

/-! ## Values -/

/-- A Python `str`: its code points, lone surrogates included. -/
abbrev PyText := List Nat

/-- The text of a literal. -/
def literal (text : String) : PyText := text.toList.map Char.toNat

/-- A Python value.  A `float` does not occur, and an `int` has at most the 4300
digits that `int.__repr__` prints. -/
inductive PyObj where
  | none
  | bool (b : Bool)
  | int (n : Int)
  | str (text : PyText)
  | bytes (data : Bytes)
  | path (text : PyText)
  | list (items : List PyObj)
  | tuple (items : List PyObj)
  | dict (members : List (PyObj × PyObj))

/-- `MAX_LOGGED_STR` -/
def maxLoggedStr : Nat := 4096

mutual

/-- `_scrub` -/
def scrub : PyObj → PyObj
  | .bytes data =>
    .dict [(.str (literal "$bytes"), .bool true), (.str (literal "len"), .int data.length),
      (.str (literal "head_b64"), .str ((Base64.encode (data.take 256)).map UInt8.toNat))]
  | .str text =>
    if text.length > maxLoggedStr then
      .dict [(.str (literal "$str"), .bool true), (.str (literal "len"), .int text.length),
        (.str (literal "head"), .str (text.take 256))]
    else .str text
  | .dict members => .dict (scrubMembers members)
  | .list items => .list (scrubItems items)
  | .none => .none
  | .bool b => .bool b
  | .int n => .int n
  | .path text => .path text
  | .tuple items => .tuple items

def scrubItems : List PyObj → List PyObj
  | [] => []
  | item :: items => scrub item :: scrubItems items

def scrubMembers : List (PyObj × PyObj) → List (PyObj × PyObj)
  | [] => []
  | (key, item) :: members => (key, scrub item) :: scrubMembers members

end

/-! ## Writing -/

/-- The text has no lone surrogate. -/
def Encodable (text : PyText) : Prop := ∀ n ∈ text, n.isValidChar

instance (text : PyText) : Decidable (Encodable text) :=
  inferInstanceAs (Decidable (∀ n ∈ text, _ ∨ _))

def utf8 (text : PyText) : Bytes := text.flatMap fun n => String.utf8EncodeChar (Char.ofNat n)

/-- `text.encode("utf-8")`; `none` is an exception. -/
def encode (text : PyText) : Option Bytes := if Encodable text then some (utf8 text) else none

/-- The name that a key of a `dict` gets; `none` is an exception. -/
def keyText : PyObj → Option PyText
  | .str text => some text
  | .int n => some (literal (toString n))
  | .bool b => some (literal (if b then "true" else "false"))
  | .none => some (literal "null")
  | _ => none

/-- The texts of the parts of a container, in its brackets. -/
def bracketed (opening closing : String) (texts : List Bytes) : Bytes :=
  ascii opening ++ ((ascii ", ").intercalate texts ++ ascii closing)

mutual

/-- `json.dumps(obj, ensure_ascii=False, default=_default_encoder)`, as it is
encoded for the file; `none` is an exception on the way. -/
def dumps : PyObj → Option Bytes
  | .none => some (ascii "null")
  | .bool b => some (ascii (if b then "true" else "false"))
  | .int n => some (Json.intText n)
  | .str text => (encode text).map Json.quoted
  | .list items => (dumpsItems items).map (bracketed "[" "]")
  | .tuple items => (dumpsItems items).map (bracketed "[" "]")
  | .dict members => (dumpsMembers members).map (bracketed "\x7b" "\x7d")
  -- `_default_encoder` knows paths only
  | .path text => (encode text).map Json.quoted
  | .bytes _ => none

def dumpsItems : List PyObj → Option (List Bytes)
  | [] => some []
  | item :: items =>
    (dumps item).bind fun text => (dumpsItems items).map fun texts => text :: texts

def dumpsMembers : List (PyObj × PyObj) → Option (List Bytes)
  | [] => some []
  | (key, item) :: members =>
    ((keyText key).bind encode).bind fun name => (dumps item).bind fun text =>
      (dumpsMembers members).map fun texts => (Json.quoted name ++ ascii ": " ++ text) :: texts

end

/-- `datetime.now(UTC)` -/
structure Moment where
  year : Nat
  month : Nat
  day : Nat
  hour : Nat
  minute : Nat
  second : Nat
  millisecond : Nat

/-- The last digits of a number. -/
def digits (width n : Nat) : PyText :=
  (List.range width).reverse.map fun i => 48 + n / 10 ^ i % 10

/-- `isoformat(timespec="milliseconds")` -/
def Moment.isoformat (t : Moment) : PyText :=
  digits 4 t.year ++ literal "-" ++ digits 2 t.month ++ literal "-" ++ digits 2 t.day ++
    literal "T" ++ digits 2 t.hour ++ literal ":" ++ digits 2 t.minute ++ literal ":" ++
    digits 2 t.second ++ literal "." ++ digits 3 t.millisecond ++ literal "+00:00"

/-- What `log_call` is told, and the time at which it is. -/
structure Call where
  now : Moment
  tool : PyText
  target : Option PyText
  params : List (PyObj × PyObj)
  result : PyObj := .none
  error : Option (List (PyObj × PyObj)) := none
  /-- `int(duration_s * 1000)` -/
  durationMs : Option Int := none

/-- The `entry` of `log_call`. -/
def Call.entry (call : Call) : PyObj :=
  .dict ([(.str (literal "ts"), .str call.now.isoformat),
      (.str (literal "tool"), .str call.tool),
      (.str (literal "target"), call.target.elim .none .str),
      (.str (literal "params"), scrub (.dict call.params))] ++
    [match call.error with
      | some error => (.str (literal "error"), .dict error)
      | none => (.str (literal "result"), scrub call.result)] ++
    call.durationMs.toList.map fun ms => (.str (literal "duration_ms"), .int ms))

/-- The bytes that `log_call` appends to the file; `none` is an exception. -/
def Call.logCall (call : Call) : Option Bytes := (dumps call.entry).map (· ++ [10])

/-! ## What is written -/

/-- A text as a string of a JSON text. -/
def glyphs (text : PyText) : List Glyph := (utf8 text).map .byte

mutual

/-- What a reader of the text of a value has in its hands. -/
def valueOf : PyObj → Value
  | .none => .null
  | .bool b => .bool b
  | .int n => .num (Json.intText n)
  | .str text => .str (glyphs text)
  | .list items => .arr (valuesOf items)
  | .tuple items => .arr (valuesOf items)
  | .dict members => .obj (membersOf members)
  | .path text => .str (glyphs text)
  | .bytes _ => .null

def valuesOf : List PyObj → List Value
  | [] => []
  | item :: items => valueOf item :: valuesOf items

def membersOf : List (PyObj × PyObj) → Members
  | [] => []
  | (key, item) :: members => (glyphs ((keyText key).getD []), valueOf item) :: membersOf members

end

theorem encode_eq_some {text : PyText} {bytes : Bytes} :
    encode text = some bytes ↔ Encodable text ∧ bytes = utf8 text := by
  unfold encode
  split
  · rename_i h
    simp [h, eq_comm]
  · rename_i h
    simp [h]

/-- What is written for a byte is read as that byte. -/
theorem run_escapeByte (c : UInt8) :
    run JsonText.inside ([], .plain) (Json.escapeByte c) = some ([.byte c], .plain) := by
  apply Mcpd.CJson.forall_byte
    (P := fun c => run JsonText.inside ([], .plain) (Json.escapeByte c) = some ([.byte c], .plain))
  decide +kernel

theorem spell_escape (text : Bytes) :
    JsonText.spell (text.flatMap Json.escapeByte) = some (text.map .byte) :=
  JsonText.spell_flatMap run_escapeByte text

theorem reads_quoted (text : Bytes) : Reads (Json.quoted text) (.str (text.map .byte)) :=
  JsonText.reads_string (spell_escape text)

/-- Digits behind nothing, or behind a minus sign. -/
theorem run_toDigits {s : Number} (hs : s = .start ∨ s = .minus) (n : Nat) :
    run Number.step s ((Nat.toDigits 10 n).map fun c => UInt8.ofNat c.toNat) =
      some (if n = 0 then .zero else .int) := by
  induction n using Nat.strong_induction_on with
  | _ n ih =>
    by_cases hsmall : n < 10
    · rw [Nat.toDigits_of_lt_base hsmall]
      rcases hs with rfl | rfl
      · have hall : ∀ n < 10, run Number.step .start [UInt8.ofNat (Nat.digitChar n).toNat] =
            some (if n = 0 then .zero else .int) := by decide
        exact hall n hsmall
      · have hall : ∀ n < 10, run Number.step .minus [UInt8.ofNat (Nat.digitChar n).toNat] =
            some (if n = 0 then .zero else .int) := by decide
        exact hall n hsmall
    · have hfront := ih (n / 10) (by omega)
      rw [if_neg (by omega)] at hfront
      have hlast : ∀ d < 10,
          Number.step .int (UInt8.ofNat (Nat.digitChar d).toNat) = some .int := by decide
      rw [Nat.toDigits_of_base_le (by decide) (by omega), List.map_append, run_append hfront,
        if_neg (by omega)]
      rw [List.map_singleton, run, hlast (n % 10) (Nat.mod_lt _ (by decide))]
      rfl

theorem numberText_intText (n : Int) : Mcpd.CJson.NumberText (Json.intText n) := by
  apply Mcpd.CJson.numberText_of_run
  have hcomplete : ∀ m : Nat, (some (if m = 0 then Number.zero else .int)).any Number.complete =
      true := by
    intro m
    by_cases hm : m = 0 <;> simp [hm, Number.complete]
  cases n with
  | ofNat m =>
    have htext : Json.intText (.ofNat m) =
        (Nat.toDigits 10 m).map fun c => UInt8.ofNat c.toNat := by
      show ascii (Nat.repr m) = _
      rw [ascii, Nat.repr_eq_ofList_toDigits, String.toList_ofList]
    rw [htext, run_toDigits (.inl rfl)]
    exact hcomplete m
  | negSucc m =>
    have htext : Json.intText (.negSucc m) =
        45 :: (Nat.toDigits 10 (m + 1)).map fun c => UInt8.ofNat c.toNat := by
      show ascii ("-" ++ Nat.repr (m + 1)) = _
      rw [ascii, String.toList_append, Nat.repr_eq_ofList_toDigits, String.toList_ofList,
        String.toList_ofList]
      rfl
    rw [htext]
    show (run Number.step .minus _).any _ = _
    rw [run_toDigits (.inr rfl)]
    exact hcomplete (m + 1)

/-- A member with its name. -/
theorem member_of_reads {name text : Bytes} {v : Value} (h : Reads text v) :
    JsonText.Member (Json.quoted name ++ ascii ": " ++ text) (name.map .byte, v) := by
  refine JsonText.Field.member ⟨name.flatMap Json.escapeByte, 32 :: text, ?_, spell_escape name,
    h.blank⟩
  rw [Json.quoted, List.append_assoc, List.cons_append, List.append_assoc]
  rfl

mutual

/-- What is written is the JSON text of the value. -/
theorem reads_dumps : ∀ (obj : PyObj) {text : Bytes}, dumps obj = some text →
    Reads text (valueOf obj)
  | .none, _, h => by
    obtain rfl := Option.some.inj h
    exact JsonText.reads_scalar (by decide) (List.all_iff_forall_prop.mp rfl) rfl
  | .bool b, _, h => by
    obtain rfl := Option.some.inj h
    cases b <;> exact JsonText.reads_scalar (by decide) (List.all_iff_forall_prop.mp rfl) rfl
  | .int n, _, h => by
    obtain rfl := Option.some.inj h
    exact (numberText_intText n).reads
  | .str text, _, h => by
    obtain ⟨bytes, hbytes, rfl⟩ := Option.map_eq_some_iff.mp h
    obtain ⟨-, rfl⟩ := encode_eq_some.mp hbytes
    exact reads_quoted _
  | .path text, _, h => by
    obtain ⟨bytes, hbytes, rfl⟩ := Option.map_eq_some_iff.mp h
    obtain ⟨-, rfl⟩ := encode_eq_some.mp hbytes
    exact reads_quoted _
  | .bytes _, _, h => nomatch h
  | .list items, _, h => by
    obtain ⟨texts, htexts, rfl⟩ := Option.map_eq_some_iff.mp h
    exact JsonText.reads_array_spaced (reads_dumpsItems items htexts)
  | .tuple items, _, h => by
    obtain ⟨texts, htexts, rfl⟩ := Option.map_eq_some_iff.mp h
    exact JsonText.reads_array_spaced (reads_dumpsItems items htexts)
  | .dict members, _, h => by
    obtain ⟨texts, htexts, rfl⟩ := Option.map_eq_some_iff.mp h
    exact JsonText.reads_object_spaced (reads_dumpsMembers members htexts)

theorem reads_dumpsItems : ∀ (items : List PyObj) {texts : List Bytes},
    dumpsItems items = some texts → List.Forall₂ Reads texts (valuesOf items)
  | [], _, h => by
    obtain rfl := Option.some.inj h
    exact .nil
  | item :: items, _, h => by
    obtain ⟨text, htext, hrest⟩ := Option.bind_eq_some_iff.mp h
    obtain ⟨texts, htexts, rfl⟩ := Option.map_eq_some_iff.mp hrest
    exact .cons (reads_dumps item htext) (reads_dumpsItems items htexts)

theorem reads_dumpsMembers : ∀ (members : List (PyObj × PyObj)) {texts : List Bytes},
    dumpsMembers members = some texts → List.Forall₂ JsonText.Member texts (membersOf members)
  | [], _, h => by
    obtain rfl := Option.some.inj h
    exact .nil
  | (key, item) :: members, _, h => by
    obtain ⟨bytes, hbytes, hvalue⟩ := Option.bind_eq_some_iff.mp h
    obtain ⟨name, hname, hencode⟩ := Option.bind_eq_some_iff.mp hbytes
    obtain ⟨-, rfl⟩ := encode_eq_some.mp hencode
    obtain ⟨text, htext, hrest⟩ := Option.bind_eq_some_iff.mp hvalue
    obtain ⟨texts, htexts, rfl⟩ := Option.map_eq_some_iff.mp hrest
    rw [membersOf, hname]
    exact .cons (member_of_reads (reads_dumps item htext)) (reads_dumpsMembers members htexts)

end

/-! ## One line -/

theorem not_mem_quoted (text : Bytes) : 10 ∉ Json.quoted text := by
  have hescape : ∀ c, 10 ∉ Json.escapeByte c := by
    apply Mcpd.CJson.forall_byte (P := fun c => 10 ∉ Json.escapeByte c)
    decide +kernel
  have hquote : (10 : UInt8) ≠ Mcpd.CJson.quote := by decide
  simp [Json.quoted, hescape, hquote]

theorem not_mem_bracketed {opening closing : String} {texts : List Bytes}
    (hopening : 10 ∉ ascii opening) (hclosing : 10 ∉ ascii closing)
    (h : ∀ text ∈ texts, 10 ∉ text) : 10 ∉ bracketed opening closing texts := by
  have hparts : (10 : UInt8) ∉ (ascii ", ").intercalate texts := by
    induction texts with
    | nil => exact List.not_mem_nil
    | cons text texts ih =>
      have hrest := ih fun text htext => h text (List.mem_cons_of_mem _ htext)
      cases texts with
      | nil => simpa using h text List.mem_cons_self
      | cons text' texts =>
        have hcomma : (10 : UInt8) ∉ ascii ", " := by decide
        rw [List.intercalate_cons_cons, List.mem_append, List.mem_append]
        exact not_or.mpr ⟨not_or.mpr ⟨h text List.mem_cons_self, hcomma⟩, hrest⟩
  rw [bracketed, List.mem_append, List.mem_append]
  exact not_or.mpr ⟨hopening, not_or.mpr ⟨hparts, hclosing⟩⟩

mutual

theorem oneLine_dumps : ∀ (obj : PyObj) {text : Bytes}, dumps obj = some text → 10 ∉ text
  | .none, _, h => by
    obtain rfl := Option.some.inj h
    decide
  | .bool b, _, h => by
    obtain rfl := Option.some.inj h
    cases b <;> decide
  | .int n, _, h => by
    obtain rfl := Option.some.inj h
    intro hmem
    exact absurd ((numberText_intText n).numeric 10 hmem) (by decide)
  | .str text, _, h => by
    obtain ⟨bytes, -, rfl⟩ := Option.map_eq_some_iff.mp h
    exact not_mem_quoted bytes
  | .path text, _, h => by
    obtain ⟨bytes, -, rfl⟩ := Option.map_eq_some_iff.mp h
    exact not_mem_quoted bytes
  | .bytes _, _, h => nomatch h
  | .list items, _, h => by
    obtain ⟨texts, htexts, rfl⟩ := Option.map_eq_some_iff.mp h
    exact not_mem_bracketed (by decide) (by decide) (oneLine_dumpsItems items htexts)
  | .tuple items, _, h => by
    obtain ⟨texts, htexts, rfl⟩ := Option.map_eq_some_iff.mp h
    exact not_mem_bracketed (by decide) (by decide) (oneLine_dumpsItems items htexts)
  | .dict members, _, h => by
    obtain ⟨texts, htexts, rfl⟩ := Option.map_eq_some_iff.mp h
    exact not_mem_bracketed (by decide) (by decide) (oneLine_dumpsMembers members htexts)

theorem oneLine_dumpsItems : ∀ (items : List PyObj) {texts : List Bytes},
    dumpsItems items = some texts → ∀ text ∈ texts, 10 ∉ text
  | [], _, h => by
    obtain rfl := Option.some.inj h
    exact fun _ htext => nomatch htext
  | item :: items, _, h => by
    obtain ⟨text, htext, hrest⟩ := Option.bind_eq_some_iff.mp h
    obtain ⟨texts, htexts, rfl⟩ := Option.map_eq_some_iff.mp hrest
    exact List.forall_mem_cons.mpr ⟨oneLine_dumps item htext, oneLine_dumpsItems items htexts⟩

theorem oneLine_dumpsMembers : ∀ (members : List (PyObj × PyObj)) {texts : List Bytes},
    dumpsMembers members = some texts → ∀ text ∈ texts, 10 ∉ text
  | [], _, h => by
    obtain rfl := Option.some.inj h
    exact fun _ htext => nomatch htext
  | (key, item) :: members, _, h => by
    obtain ⟨name, -, hvalue⟩ := Option.bind_eq_some_iff.mp h
    obtain ⟨text, htext, hrest⟩ := Option.bind_eq_some_iff.mp hvalue
    obtain ⟨texts, htexts, rfl⟩ := Option.map_eq_some_iff.mp hrest
    have hcolon : (10 : UInt8) ∉ ascii ": " := by decide
    refine List.forall_mem_cons.mpr ⟨?_, oneLine_dumpsMembers members htexts⟩
    rw [List.mem_append, List.mem_append]
    exact not_or.mpr ⟨not_or.mpr ⟨not_mem_quoted name, hcolon⟩, oneLine_dumps item htext⟩

end

/-! ## Short strings -/

/-- A string of a JSON text that no long text is written as. -/
def ShortString (s : List Glyph) : Prop :=
  ∀ chars : List Char, s = (chars.flatMap String.utf8EncodeChar).map .byte →
    chars.length ≤ maxLoggedStr

/-- A text that can be written and is not long. -/
def Fits (text : PyText) : Prop := Encodable text ∧ text.length ≤ maxLoggedStr

instance (text : PyText) : Decidable (Fits text) :=
  inferInstanceAs (Decidable (Encodable text ∧ _))

theorem shortString_glyphs (text : PyText) :
    ShortString (glyphs text) ↔ text.length ≤ maxLoggedStr := by
  have hutf8 : utf8 text = (text.map Char.ofNat).flatMap String.utf8EncodeChar := by
    rw [List.flatMap_map]
    rfl
  constructor
  · intro hshort
    have hlength := hshort (text.map Char.ofNat) (by rw [glyphs, hutf8])
    rwa [List.length_map] at hlength
  · intro hlength chars heq
    have hbytes := List.map_injective_iff.mpr (fun _ _ h => Glyph.byte.inj h) heq
    have hchars := congrArg utf8Decode hbytes
    rw [hutf8, utf8Decode_encode, utf8Decode_encode] at hchars
    rw [← Option.some.inj hchars, List.length_map]
    exact hlength

theorem isSome_encode (text : PyText) : (encode text).isSome = true ↔ Encodable text := by
  unfold encode
  split <;> simp_all

theorem fits_iff (text : PyText) :
    Fits text ↔ (encode text).isSome = true ∧ ShortString (glyphs text) := by
  rw [isSome_encode, shortString_glyphs]
  rfl

/-- A key whose name fits. -/
def PlainKey (key : PyObj) : Prop := ∃ name, keyText key = some name ∧ Fits name

theorem plainKey_iff (key : PyObj) : PlainKey key ↔
    ((keyText key).bind encode).isSome = true ∧ ShortString (glyphs ((keyText key).getD [])) := by
  unfold PlainKey
  cases keyText key with
  | none => simp
  | some name => simp [fits_iff]

mutual

/-- The value is written as it is, and no text in it is long. -/
def Plain : PyObj → Prop
  | .none => True
  | .bool _ => True
  | .int _ => True
  | .str text => Fits text
  | .path text => Fits text
  | .bytes _ => False
  | .list items => PlainItems items
  | .tuple items => PlainItems items
  | .dict members => PlainMembers members

def PlainItems : List PyObj → Prop
  | [] => True
  | item :: items => Plain item ∧ PlainItems items

def PlainMembers : List (PyObj × PyObj) → Prop
  | [] => True
  | (key, item) :: members => PlainKey key ∧ Plain item ∧ PlainMembers members

end

theorem isSome_bind_map {α β γ : Type} (x : Option α) (y : Option β) (f : α → β → γ) :
    (x.bind fun a => y.map (f a)).isSome = true ↔ x.isSome = true ∧ y.isSome = true := by
  cases x <;> cases y <;> simp

mutual

/-- A plain value is written, with short strings only; no other is. -/
theorem plain_iff : ∀ obj : PyObj, Plain obj ↔
    (dumps obj).isSome = true ∧ ∀ s ∈ (valueOf obj).strings, ShortString s
  | .none => by simp [Plain, dumps, valueOf, Value.strings]
  | .bool b => by simp [Plain, dumps, valueOf, Value.strings]
  | .int n => by simp [Plain, dumps, valueOf, Value.strings]
  | .str text => by simp [Plain, dumps, valueOf, Value.strings, fits_iff]
  | .path text => by simp [Plain, dumps, valueOf, Value.strings, fits_iff]
  | .bytes _ => by simp [Plain, dumps]
  | .list items => by simpa [Plain, dumps, valueOf, Value.strings] using plainItems_iff items
  | .tuple items => by simpa [Plain, dumps, valueOf, Value.strings] using plainItems_iff items
  | .dict members => by simpa [Plain, dumps, valueOf, Value.strings] using plainMembers_iff members

theorem plainItems_iff : ∀ items : List PyObj, PlainItems items ↔
    (dumpsItems items).isSome = true ∧ ∀ s ∈ JsonText.itemStrings (valuesOf items), ShortString s
  | [] => by simp [PlainItems, dumpsItems, valuesOf, JsonText.itemStrings]
  | item :: items => by
    rw [PlainItems, plain_iff item, plainItems_iff items, dumpsItems, isSome_bind_map, valuesOf,
      JsonText.itemStrings, List.forall_mem_append]
    tauto

theorem plainMembers_iff : ∀ members : List (PyObj × PyObj), PlainMembers members ↔
    (dumpsMembers members).isSome = true ∧
      ∀ s ∈ JsonText.memberStrings (membersOf members), ShortString s
  | [] => by simp [PlainMembers, dumpsMembers, membersOf, JsonText.memberStrings]
  | (key, item) :: members => by
    have hwritten : (dumpsMembers ((key, item) :: members)).isSome = true ↔
        ((keyText key).bind encode).isSome = true ∧ (dumps item).isSome = true ∧
          (dumpsMembers members).isSome = true := by
      rw [dumpsMembers]
      cases (keyText key).bind encode with
      | none => simp
      | some name => simpa using isSome_bind_map (dumps item) (dumpsMembers members) _
    rw [PlainMembers, plainKey_iff, plain_iff item, plainMembers_iff members, hwritten, membersOf,
      JsonText.memberStrings, List.forall_mem_cons, List.forall_mem_append]
    tauto

end

/-! ## Scrubbed values -/

mutual

/-- The value is plain once it is scrubbed: `_scrub` goes down lists and values of
dictionaries, and nowhere else. -/
def Clean : PyObj → Prop
  | .none => True
  | .bool _ => True
  | .int _ => True
  | .str text => Encodable (if text.length > maxLoggedStr then text.take 256 else text)
  | .path text => Fits text
  | .bytes _ => True
  | .list items => CleanItems items
  | .tuple items => PlainItems items
  | .dict members => CleanMembers members

def CleanItems : List PyObj → Prop
  | [] => True
  | item :: items => Clean item ∧ CleanItems items

def CleanMembers : List (PyObj × PyObj) → Prop
  | [] => True
  | (key, item) :: members => PlainKey key ∧ Clean item ∧ CleanMembers members

end

/-- The texts of the code. -/
theorem plainKey_literal {text : String} (h : Fits (literal text)) :
    PlainKey (.str (literal text)) := ⟨_, rfl, h⟩

theorem fits_ascii {bytes : Bytes} (h : bytes.length ≤ maxLoggedStr) :
    Fits (bytes.map UInt8.toNat) := by
  refine ⟨fun n hn => ?_, by rwa [List.length_map]⟩
  obtain ⟨c, -, rfl⟩ := List.mem_map.mp hn
  exact .inl (c.toNat_lt.trans (by decide))

theorem plain_scrub_bytes (data : Bytes) : Plain (scrub (.bytes data)) := by
  have hlength : (Base64.encode (data.take 256)).length ≤ maxLoggedStr := by
    rw [Base64.length_encode, List.length_take, maxLoggedStr]
    omega
  rw [scrub]
  exact ⟨plainKey_literal (by decide), trivial, plainKey_literal (by decide), trivial,
    plainKey_literal (by decide), fits_ascii hlength, trivial⟩

theorem plain_scrub_str (text : PyText) : Plain (scrub (.str text)) ↔ Clean (.str text) := by
  rw [scrub, Clean]
  split
  · rename_i hlong
    have hhead : Fits (text.take 256) ↔ Encodable (text.take 256) := by
      have hlength : (text.take 256).length ≤ maxLoggedStr := by
        rw [List.length_take, maxLoggedStr]
        omega
      exact and_iff_left hlength
    rw [← hhead]
    constructor
    · exact fun ⟨_, _, _, _, _, hfits, _⟩ => hfits
    · exact fun hfits => ⟨plainKey_literal (by decide), trivial, plainKey_literal (by decide),
        trivial, plainKey_literal (by decide), hfits, trivial⟩
  · rename_i hshort
    exact and_iff_left (Nat.not_lt.mp hshort)

mutual

theorem plain_scrub_iff : ∀ obj : PyObj, Plain (scrub obj) ↔ Clean obj
  | .none => Iff.rfl
  | .bool _ => Iff.rfl
  | .int _ => Iff.rfl
  | .str text => plain_scrub_str text
  | .path _ => Iff.rfl
  | .bytes data => iff_of_true (plain_scrub_bytes data) trivial
  | .list items => plain_scrubItems_iff items
  | .tuple _ => Iff.rfl
  | .dict members => plain_scrubMembers_iff members

theorem plain_scrubItems_iff : ∀ items : List PyObj,
    PlainItems (scrubItems items) ↔ CleanItems items
  | [] => Iff.rfl
  | item :: items => and_congr (plain_scrub_iff item) (plain_scrubItems_iff items)

theorem plain_scrubMembers_iff : ∀ members : List (PyObj × PyObj),
    PlainMembers (scrubMembers members) ↔ CleanMembers members
  | [] => Iff.rfl
  | (_, item) :: members =>
    and_congr Iff.rfl (and_congr (plain_scrub_iff item) (plain_scrubMembers_iff members))

end

/-! ## Shapes -/

mutual

/-- A container has become one with the same names and as many items, and so have
the containers in it. -/
def SameShape : PyObj → Value → Prop
  | .list items, .arr values => SameShapes items values
  | .tuple items, .arr values => SameShapes items values
  | .dict members, .obj values => SameMembers members values
  | .list _, _ => False
  | .tuple _, _ => False
  | .dict _, _ => False
  | _, _ => True

def SameShapes : List PyObj → List Value → Prop
  | [], [] => True
  | item :: items, v :: values => SameShape item v ∧ SameShapes items values
  | _, _ => False

def SameMembers : List (PyObj × PyObj) → Members → Prop
  | [], [] => True
  | (key, item) :: members, (name, v) :: values =>
    (∀ text, keyText key = some text → name = glyphs text) ∧ SameShape item v ∧
      SameMembers members values
  | _, _ => False

end

theorem name_of_key {key : PyObj} {text : PyText} (h : keyText key = some text) :
    glyphs ((keyText key).getD []) = glyphs text := by
  rw [h]
  rfl

mutual

theorem sameShape_valueOf : ∀ obj : PyObj, SameShape obj (valueOf obj)
  | .list items => sameShapes_valuesOf items
  | .tuple items => sameShapes_valuesOf items
  | .dict members => sameMembers_membersOf members
  | .none => trivial
  | .bool _ => trivial
  | .int _ => trivial
  | .str _ => trivial
  | .path _ => trivial
  | .bytes _ => trivial

theorem sameShapes_valuesOf : ∀ items : List PyObj, SameShapes items (valuesOf items)
  | [] => trivial
  | item :: items => ⟨sameShape_valueOf item, sameShapes_valuesOf items⟩

theorem sameMembers_membersOf : ∀ members : List (PyObj × PyObj),
    SameMembers members (membersOf members)
  | [] => trivial
  | (_, item) :: members =>
    ⟨fun _ => name_of_key, sameShape_valueOf item, sameMembers_membersOf members⟩

end

mutual

theorem sameShape_scrub : ∀ obj : PyObj, SameShape obj (valueOf (scrub obj))
  | .list items => sameShapes_scrubItems items
  | .tuple items => sameShapes_valuesOf items
  | .dict members => sameMembers_scrubMembers members
  | .none => trivial
  | .bool _ => trivial
  | .int _ => trivial
  | .str _ => trivial
  | .path _ => trivial
  | .bytes _ => trivial

theorem sameShapes_scrubItems : ∀ items : List PyObj,
    SameShapes items (valuesOf (scrubItems items))
  | [] => trivial
  | item :: items => ⟨sameShape_scrub item, sameShapes_scrubItems items⟩

theorem sameMembers_scrubMembers : ∀ members : List (PyObj × PyObj),
    SameMembers members (membersOf (scrubMembers members))
  | [] => trivial
  | (_, item) :: members =>
    ⟨fun _ => name_of_key, sameShape_scrub item, sameMembers_scrubMembers members⟩

end

/-! ## Calls -/

/-- The bytes are a line of JSON about the call, and no string in it is long. -/
structure GoodLine (call : Call) (line : Bytes) (members : Members) : Prop where
  single : 10 ∉ line
  parses : JsonText.parse line = some (.obj members)
  short : ∀ s ∈ (Value.obj members).strings, ShortString s
  params : ∃ v, (glyphs (literal "params"), v) ∈ members ∧ SameShape (.dict call.params) v
  error : ∀ error, call.error = some error →
    ∃ v, (glyphs (literal "error"), v) ∈ members ∧ SameShape (.dict error) v
  result : call.error = none →
    ∃ v, (glyphs (literal "result"), v) ∈ members ∧ SameShape call.result v

/-- The call writes a good line. -/
def Call.Complete (call : Call) : Prop :=
  ∃ line members, call.logCall = some (line ++ [10]) ∧ GoodLine call line members

/-- What `log_call` scrubs is clean, and the rest is plain. -/
structure Call.Tame (call : Call) : Prop where
  tool : Fits call.tool
  target : ∀ target, call.target = some target → Fits target
  params : Clean (.dict call.params)
  error : ∀ error, call.error = some error → Plain (.dict error)
  result : call.error = none → Clean call.result

theorem encodable_digits (width n : Nat) : Encodable (digits width n) := by
  intro c hc
  obtain ⟨i, -, rfl⟩ := List.mem_map.mp hc
  exact .inl (by omega)

theorem encodable_append (a b : PyText) : Encodable (a ++ b) ↔ Encodable a ∧ Encodable b :=
  List.forall_mem_append

theorem fits_isoformat (t : Moment) : Fits t.isoformat := by
  constructor
  · simp only [Moment.isoformat, encodable_append, encodable_digits, true_and, and_true]
    decide
  · have hlength : t.isoformat.length = 29 := by simp [Moment.isoformat, digits, literal]
    rw [hlength]
    decide

theorem plainMembers_append (a b : List (PyObj × PyObj)) :
    PlainMembers (a ++ b) ↔ PlainMembers a ∧ PlainMembers b := by
  induction a with
  | nil => simp [PlainMembers]
  | cons m a ih =>
    obtain ⟨key, item⟩ := m
    rw [List.cons_append, PlainMembers, PlainMembers, ih, and_assoc, and_assoc]

/-- One member of the entry. -/
theorem plainMembers_literal {key : String} (h : Fits (literal key)) (item : PyObj)
    (members : List (PyObj × PyObj)) :
    PlainMembers ((.str (literal key), item) :: members) ↔ Plain item ∧ PlainMembers members :=
  and_iff_right (plainKey_literal h)

theorem plain_entry_iff (call : Call) : Plain call.entry ↔ call.Tame := by
  have htarget : Plain (call.target.elim .none .str) ↔
      ∀ target, call.target = some target → Fits target := by
    cases call.target with
    | none => simp [Plain]
    | some target => simp [Plain]
  have houtcome : PlainMembers [match call.error with
      | some error => (.str (literal "error"), .dict error)
      | none => (.str (literal "result"), scrub call.result)] ↔
      (∀ error, call.error = some error → Plain (.dict error)) ∧
        (call.error = none → Clean call.result) := by
    cases call.error with
    | none =>
      dsimp only
      rw [plainMembers_literal (by decide), plain_scrub_iff]
      simp [PlainMembers]
    | some error =>
      dsimp only
      rw [plainMembers_literal (by decide)]
      simp [PlainMembers]
  have hduration : PlainMembers (call.durationMs.toList.map fun ms =>
      (.str (literal "duration_ms"), .int ms)) := by
    cases call.durationMs with
    | none => trivial
    | some ms => exact ⟨plainKey_literal (by decide), trivial, trivial⟩
  have hentry : Plain call.entry ↔ Fits call.tool ∧
      (∀ target, call.target = some target → Fits target) ∧ Clean (.dict call.params) ∧
        (∀ error, call.error = some error → Plain (.dict error)) ∧
          (call.error = none → Clean call.result) := by
    rw [Call.entry, Plain, plainMembers_append, plainMembers_append, houtcome,
      plainMembers_literal (by decide), plainMembers_literal (by decide),
      plainMembers_literal (by decide), plainMembers_literal (by decide), htarget, plain_scrub_iff]
    have hts : Plain (.str call.now.isoformat) ↔ True := iff_true_intro (fits_isoformat call.now)
    have htool : Plain (.str call.tool) ↔ Fits call.tool := Iff.rfl
    rw [hts, htool]
    simp only [hduration, PlainMembers, true_and, and_true, and_assoc]
  rw [hentry]
  constructor
  · exact fun ⟨htool, htarget, hparams, herror, hresult⟩ =>
      ⟨htool, htarget, hparams, herror, hresult⟩
  · exact fun h => ⟨h.tool, h.target, h.params, h.error, h.result⟩

/-- The members of the line. -/
def Call.members (call : Call) : Members :=
  match call.entry with
  | .dict members => membersOf members
  | _ => []

/-- A plain entry is a good line. -/
theorem goodLine_of_dumps {call : Call} {line : Bytes} (hline : dumps call.entry = some line)
    (hshort : ∀ s ∈ (valueOf call.entry).strings, ShortString s) :
    GoodLine call line call.members where
  single := oneLine_dumps call.entry hline
  parses := JsonText.parse_of_reads (reads_dumps call.entry hline)
  short := hshort
  params := by
    refine ⟨valueOf (scrub (.dict call.params)), ?_, sameShape_scrub (.dict call.params)⟩
    simp [Call.members, Call.entry, membersOf, keyText]
  error error herror := by
    refine ⟨valueOf (.dict error), ?_, sameShape_valueOf (.dict error)⟩
    simp [Call.members, Call.entry, membersOf, keyText, herror]
  result hnone := by
    refine ⟨valueOf (scrub call.result), ?_, sameShape_scrub call.result⟩
    simp [Call.members, Call.entry, membersOf, keyText, hnone]

theorem plain_entry_of_complete {call : Call} (h : call.Complete) : Plain call.entry := by
  obtain ⟨line, members, hlog, hgood⟩ := h
  obtain ⟨text, htext, heq⟩ := Option.map_eq_some_iff.mp hlog
  obtain rfl := List.append_cancel_right heq
  refine (plain_iff call.entry).mpr ⟨by rw [htext]; rfl, ?_⟩
  have hparse := JsonText.parse_of_reads (reads_dumps call.entry htext)
  rw [hgood.parses] at hparse
  rw [← Option.some.inj hparse]
  exact hgood.short

/-- A call is archived as it should be if and only if what is not scrubbed fits and
the rest has no text that `_scrub` passes over. -/
theorem logCall_iff (call : Call) : call.Complete ↔ call.Tame := by
  rw [← plain_entry_iff]
  constructor
  · exact plain_entry_of_complete
  · intro hplain
    obtain ⟨hwritten, hshort⟩ := (plain_iff call.entry).mp hplain
    obtain ⟨line, hline⟩ := Option.isSome_iff_exists.mp hwritten
    exact ⟨line, call.members, by rw [Call.logCall, hline]; rfl, goodLine_of_dumps hline hshort⟩

/-- The data of an error is written whole. -/
theorem error_not_scrubbed : ¬ ∀ call : Call, call.Complete := by
  intro h
  let error : List (PyObj × PyObj) := [(.str (literal "data"), .str (List.replicate 4097 97))]
  let call : Call :=
    { now := ⟨2026, 1, 2, 3, 4, 5, 6⟩, tool := literal "fs.read", target := none, params := []
      error := some error }
  have htame := (plain_entry_iff call).mp (plain_entry_of_complete (h call))
  obtain ⟨-, ⟨-, hlength⟩, -⟩ := htame.error error rfl
  rw [List.length_replicate] at hlength
  exact absurd hlength (by decide)

end AmigaFleet.Host.Archive

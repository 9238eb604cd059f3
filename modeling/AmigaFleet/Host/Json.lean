import AmigaFleet.Lib.Double
import AmigaFleet.Mcpd.CJson

/-!
# JSON values on the host

The Python values that the json module reads and writes.  A `str` is kept by
its UTF-8 bytes, which is also how `json.dumps(..., ensure_ascii=False)`
followed by `.encode("utf-8")` puts it on the wire.  Python tells an `int`
from a `float` and from a `bool`; cJSON has one number type, a double.

`dumps` is the writer with its default separators.  `toCJson` is what
`cJSON_Parse` in the daemon makes of a value written so: a string is a C
string there and ends at its first zero byte.
-/

namespace AmigaFleet.Host

open AmigaFleet.Lib
open AmigaFleet.Mcpd (ascii cText CJson)

/-- A value of the json module; `none` is a float that is not finite. -/
inductive Json where
  | null
  | bool (b : Bool)
  | int (n : Int)
  | float (value : Option Rat)
  | str (text : Bytes)
  | list (items : List Json)
  | dict (members : List (Bytes × Json))

namespace Json

/-- `obj.get(name)`, and `name in obj` when it is not `none`. -/
def get (name : String) : Json → Option Json
  | dict members => (members.find? fun m => m.1 == ascii name).map Prod.snd
  | _ => none

/-! ## Writing -/

/-- A lower-case hexadecimal digit. -/
def hexDigit (n : Nat) : UInt8 := UInt8.ofNat (if n < 10 then 48 + n else 87 + n)

/-- `ESCAPE_DCT` of the json module, and `\u00XX` for the other control characters. -/
def escapeByte (c : UInt8) : Bytes :=
  if c = 34 then [92, 34]
  else if c = 92 then [92, 92]
  else if c = 10 then [92, 110]
  else if c = 13 then [92, 114]
  else if c = 9 then [92, 116]
  else if c = 12 then [92, 102]
  else if c = 8 then [92, 98]
  else if c < 32 then [92, 117, 48, 48, hexDigit (c.toNat / 16), hexDigit (c.toNat % 16)]
  else [c]

/-- A string in its quotes. -/
def quoted (text : Bytes) : Bytes := CJson.quote :: (text.flatMap escapeByte ++ [CJson.quote])

/-- The text of an `int`. -/
def intText (n : Int) : Bytes := ascii (toString n)

mutual

/-- `json.dumps(value, ensure_ascii=False)`, where `floatText` is `float.__repr__`. -/
def dumps (floatText : Option Rat → Bytes) : Json → Bytes
  | null => ascii "null"
  | bool b => ascii (if b then "true" else "false")
  | int n => intText n
  | float value => floatText value
  | str text => quoted text
  | list items => ascii "[" ++ dumpsItems floatText items ++ ascii "]"
  | dict members => ascii "\x7b" ++ dumpsMembers floatText members ++ ascii "\x7d"

def dumpsItems (floatText : Option Rat → Bytes) : List Json → Bytes
  | [] => []
  | item :: items =>
    dumps floatText item ++ (if items.isEmpty then [] else ascii ", ") ++ dumpsItems floatText items

def dumpsMembers (floatText : Option Rat → Bytes) : List (Bytes × Json) → Bytes
  | [] => []
  | (name, value) :: members =>
    quoted name ++ ascii ": " ++ dumps floatText value ++
      (if members.isEmpty then [] else ascii ", ") ++ dumpsMembers floatText members

end

/-- A text without characters to escape tells with its own length. -/
theorem length_quoted {t : Bytes}
    (h : ∀ c ∈ t, 32 < c.toNat ∧ c.toNat < 127 ∧ c.toNat ≠ 34 ∧ c.toNat ≠ 92) :
    (quoted t).length = t.length + 2 := by
  have hescape : ∀ c ∈ t, escapeByte c = [c] := by
    intro c hc
    obtain ⟨hlow, _, hquote, hslash⟩ := h c hc
    have hne : ∀ k : UInt8, c.toNat ≠ k.toNat → c ≠ k := fun k hk heq => hk (heq ▸ rfl)
    have hlarge : ∀ k : UInt8, k.toNat ≤ 32 → c ≠ k := fun k hk => hne k (by omega)
    have hctrl : ¬ c < 32 := by
      rw [UInt8.lt_iff_toNat_lt]
      show ¬ c.toNat < 32
      omega
    unfold escapeByte
    rw [if_neg (hne 34 hquote), if_neg (hne 92 hslash), if_neg (hlarge 10 (by decide)),
      if_neg (hlarge 13 (by decide)), if_neg (hlarge 9 (by decide)), if_neg (hlarge 12 (by decide)),
      if_neg (hlarge 8 (by decide)), if_neg hctrl]
  have hflat : t.flatMap escapeByte = t := by
    rw [List.flatMap_congr hescape]
    exact List.flatMap_singleton' t
  rw [quoted, hflat, List.length_cons, List.length_append]
  rfl

theorem length_dumpsMembers (floatText : Option Rat → Bytes) (members : List (Bytes × Json))
    (h : members ≠ []) :
    (dumpsMembers floatText members).length + 2 =
      (members.map fun m => (quoted m.1).length + (dumps floatText m.2).length + 4).sum := by
  induction members with
  | nil => exact absurd rfl h
  | cons m members ih =>
    have hcolon : (ascii ": ").length = 2 := rfl
    have hcomma : (ascii ", ").length = 2 := rfl
    rw [List.map_cons, List.sum_cons, dumpsMembers]
    cases members with
    | nil =>
      simp only [List.length_append, hcolon, List.isEmpty_nil, if_true, dumpsMembers,
        List.length_nil, List.map_nil, List.sum_nil]
      omega
    | cons m' members =>
      have hrest := ih (List.cons_ne_nil m' members)
      simp only [List.length_append, hcolon, hcomma, List.isEmpty_cons, Bool.false_eq_true,
        if_false]
      omega

/-- Every member of an object tells with its name and its value, and with four
characters more. -/
theorem length_dict (floatText : Option Rat → Bytes) {members : List (Bytes × Json)}
    (h : members ≠ []) :
    (dumps floatText (.dict members)).length =
      (members.map fun m => (quoted m.1).length + (dumps floatText m.2).length + 4).sum := by
  have hopen : (ascii "\x7b").length = 1 := rfl
  have hclose : (ascii "\x7d").length = 1 := rfl
  have hlen := length_dumpsMembers floatText members h
  simp only [dumps, List.length_append, hopen, hclose]
  omega

/-! ## What the daemon reads -/

mutual

/-- `cJSON_Parse` of what `dumps` wrote. -/
def toCJson : Json → CJson
  | null => .null
  | bool b => .bool b
  | int n => .number (double n)
  | float value => .number (value.getD 0)
  | str text => .string (cText text)
  | list items => .array (toCJsonItems items)
  | dict members => .object (toCJsonMembers members)

def toCJsonItems : List Json → List CJson
  | [] => []
  | item :: items => toCJson item :: toCJsonItems items

def toCJsonMembers : List (Bytes × Json) → List (Bytes × CJson)
  | [] => []
  | (name, value) :: members => (cText name, toCJson value) :: toCJsonMembers members

end

/-! ## What the host reads -/

mutual

/-- `json.loads` of what the daemon printed.  cJSON prints a number without a
fraction without a point. -/
def ofCJson : CJson → Json
  | .null => null
  | .bool b => bool b
  | .number value => if value.den = 1 then int value.num else float (some value)
  | .string text => str text
  | .array items => list (ofCJsonItems items)
  | .object members => dict (ofCJsonMembers members)

def ofCJsonItems : List CJson → List Json
  | [] => []
  | item :: items => ofCJson item :: ofCJsonItems items

def ofCJsonMembers : List (Bytes × CJson) → List (Bytes × Json)
  | [] => []
  | (name, value) :: members => (name, ofCJson value) :: ofCJsonMembers members

end

theorem ofCJsonMembers_eq (members : List (Bytes × CJson)) :
    ofCJsonMembers members = members.map fun m => (m.1, ofCJson m.2) := by
  induction members with
  | nil => rfl
  | cons m members ih => simp [ofCJsonMembers, ih]

/-- A member of an object that the daemon printed. -/
theorem get_ofCJson (name : String) (value : CJson) :
    (ofCJson value).get name = (value.getItem (ascii name)).map ofCJson := by
  cases value with
  | object members =>
    simp [ofCJson, ofCJsonMembers_eq, get, CJson.getItem, List.find?_map, Function.comp_def]
  | number value =>
    simp only [ofCJson, CJson.getItem]
    split
    · rfl
    · rfl
  | _ => rfl

@[simp] theorem ofCJson_number_int (n : Int) : ofCJson (.number n) = int n := by
  simp [ofCJson]

end Json

end AmigaFleet.Host

import Mathlib.Data.Rat.Defs
import AmigaFleet.Lib.Framing

/-!
# JSON values in the daemon

The daemon keeps JSON as cJSON trees.  cJSON itself is a submodule whose
source is not in the repository, so its parser is left out and its number and
string printers are the parameters of `Printer`; what stands between them is
the format that `cJSON_PrintUnformatted` documents.

`pStr`, `pInt`, `rpcMakeError` and `targetError` are the helpers of
`mcpd/src/rpc.c` and `mcpd/src/methods/helpers.c`.
-/

namespace AmigaFleet.Mcpd

open AmigaFleet.Lib

/-- The bytes of an ASCII text. -/
def ascii (text : String) : Bytes := text.toList.map fun c => UInt8.ofNat c.toNat

/-- What a reader of a C string sees of the buffer. -/
def cText (buf : Bytes) : Bytes := buf.takeWhile (· ≠ 0)

/-- A `cJSON` tree.  `value` is `valuedouble`, a string is a C string. -/
inductive CJson where
  | null
  | bool (b : Bool)
  | number (value : Rat)
  | string (text : Bytes)
  | array (items : List CJson)
  | object (members : List (Bytes × CJson))

namespace CJson

/-- `cJSON_GetObjectItemCaseSensitive` -/
def getItem (name : Bytes) : CJson → Option CJson
  | object members => (members.find? fun m => m.1 == name).map Prod.snd
  | _ => none

/-! ## Printing -/

/-- How cJSON prints a number, and a string with its quotes. -/
structure Printer where
  number : Rat → Bytes
  string : Bytes → Bytes

/-- `"` -/
def quote : UInt8 := 34

/-- A string without characters to escape is printed as it is. -/
def Printer.Plain (p : Printer) : Prop :=
  ∀ text : Bytes, (∀ c ∈ text, 32 < c.toNat ∧ c.toNat < 127 ∧ c.toNat ≠ 34 ∧ c.toNat ≠ 92) →
    p.string text = quote :: (text ++ [quote])

mutual

/-- `cJSON_PrintUnformatted` -/
def print (p : Printer) : CJson → Bytes
  | null => ascii "null"
  | bool b => ascii (if b then "true" else "false")
  | number value => p.number value
  | string text => p.string text
  | array items => ascii "[" ++ printItems p items ++ ascii "]"
  | object members => ascii "\x7b" ++ printMembers p members ++ ascii "\x7d"

def printItems (p : Printer) : List CJson → Bytes
  | [] => []
  | item :: items => print p item ++ (if items.isEmpty then [] else ascii ",") ++ printItems p items

def printMembers (p : Printer) : List (Bytes × CJson) → Bytes
  | [] => []
  | (name, item) :: members =>
    p.string name ++ ascii ":" ++ print p item ++
      (if members.isEmpty then [] else ascii ",") ++ printMembers p members

end

/-! ### Lengths -/

theorem length_printMembers (p : Printer) {members : List (Bytes × CJson)} (h : members ≠ []) :
    (printMembers p members).length + 1 =
      (members.map fun m => (p.string m.1).length + (print p m.2).length + 2).sum := by
  induction members with
  | nil => exact absurd rfl h
  | cons m members ih =>
    have hcolon : (ascii ":").length = 1 := rfl
    have hcomma : (ascii ",").length = 1 := rfl
    rw [List.map_cons, List.sum_cons, printMembers]
    cases members with
    | nil =>
      simp only [List.length_append, hcolon, List.isEmpty_nil, if_true, printMembers,
        List.length_nil, List.map_nil, List.sum_nil]
      omega
    | cons m' members =>
      have hrest := ih (List.cons_ne_nil m' members)
      simp only [List.length_append, hcolon, hcomma, List.isEmpty_cons, Bool.false_eq_true,
        if_false]
      omega

/-- Every member of an object tells with its name and its value, and with two
characters more. -/
theorem length_object (p : Printer) {members : List (Bytes × CJson)} (h : members ≠ []) :
    (print p (.object members)).length =
      (members.map fun m => (p.string m.1).length + (print p m.2).length + 2).sum + 1 := by
  have hopen : (ascii "\x7b").length = 1 := rfl
  have hclose : (ascii "\x7d").length = 1 := rfl
  have hlen := length_printMembers p h
  simp only [print, List.length_append, hopen, hclose]
  omega

/-- A plain text tells with its own length. -/
theorem Printer.Plain.length {p : Printer} (hp : p.Plain) {text : Bytes}
    (h : ∀ c ∈ text, 32 < c.toNat ∧ c.toNat < 127 ∧ c.toNat ≠ 34 ∧ c.toNat ≠ 92) :
    (p.string text).length = text.length + 2 := by
  rw [hp text h, List.length_cons, List.length_append, List.length_singleton]

end CJson

/-! ## Errors -/

/-- `MCPD_ERR_INVPARAMS` -/
def mcpdErrInvparams : Int := -32602

/-- `MCPD_ERR_INTERNAL` -/
def mcpdErrInternal : Int := -32603

/-- `MCPD_ERR_TARGET` -/
def mcpdErrTarget : Int := -32001

def cNumber (n : Int) : CJson := .number n

def cString (text : String) : CJson := .string (ascii text)

/-- `rpc_make_error` -/
def rpcMakeError (code : Int) (message : String) (data : Option CJson) : CJson :=
  .object ([(ascii "code", cNumber code), (ascii "message", cString message)] ++
    data.toList.map fun d => (ascii "data", d))

/-- `target_error` -/
def targetError (message : String) (path : Bytes) : CJson :=
  rpcMakeError mcpdErrTarget message (some (.object [(ascii "path", .string path)]))

/-! ## Parameters -/

/-- What a method handler leaves in `*out_result` or `*out_err`. -/
abbrev Outcome := Except CJson CJson

/-- `p_str` -/
def pStr (params : Option CJson) (name : String) : Except CJson Bytes :=
  match params with
  | some (.object members) =>
    match (CJson.object members).getItem (ascii name) with
    | some (.string text) => .ok text
    | _ => .error (rpcMakeError mcpdErrInvparams "missing required string param"
        (some (.object [(ascii "missing", cString name)])))
  | _ => .error (rpcMakeError mcpdErrInvparams "params must be an object" none)

/-- The cast of a `double` to `long long`. -/
def toLongLong (value : Rat) : Int := value.num.tdiv value.den

/-- `p_int` -/
def pInt (params : Option CJson) (name : String) (fallback : Int) : Int :=
  match params.bind (CJson.getItem (ascii name)) with
  | some (.number value) => toLongLong value
  | _ => fallback

@[simp] theorem toLongLong_intCast (n : Int) : toLongLong n = n := by
  simp [toLongLong]

end AmigaFleet.Mcpd

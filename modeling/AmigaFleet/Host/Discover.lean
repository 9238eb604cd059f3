import Mathlib.Data.Rat.Defs
import Mathlib.Algebra.Order.Ring.Rat
import AmigaFleet.Lib.JsonText
import AmigaFleet.Host.Json

/-!
# Probes and announcements on the host

`host/src/amiga_fleet_mcp/transports/discovery.py`: the probe that `discover`
sends and its reading of what comes back.  Tags are ASCII texts; `discover`
draws them with `secrets.token_hex(8)`.
-/

namespace AmigaFleet.Host

open AmigaFleet.Lib
open AmigaFleet.Lib.JsonText
open AmigaFleet.Mcpd (ascii)

/-- A text of single bytes, as a JSON string. -/
def glyphs (text : Bytes) : List Glyph := text.map .byte

/-- The name of a member. -/
def name (key : String) : List Glyph := glyphs (ascii key)

/-- `_make_probe` -/
def makeProbe (tag : Bytes) : Bytes :=
  ascii "\x7b\"mcp_discovery\":1,\"v\":1,\"client\":\"amiga-fleet-mcp\",\"tag\":" ++
    Json.quoted tag ++ ascii "\x7d"

/-- The number that some decimal digits write. -/
def digitsValue (digits : Bytes) : Nat := digits.foldl (fun n c => 10 * n + (c.toNat - 48)) 0

/-- The size of the number that a text writes. -/
def numberSize (text : Bytes) : Rat :=
  let mantissa := text.takeWhile fun c => c ≠ 101 ∧ c ≠ 69
  let exponent := (text.dropWhile fun c => c ≠ 101 ∧ c ≠ 69).drop 1
  let fraction := (mantissa.dropWhile (· ≠ 46)).drop 1
  let size : Rat := digitsValue (mantissa.filter isDigit) / (10 ^ fraction.length : Nat)
  let scale : Nat := 10 ^ digitsValue (exponent.filter isDigit)
  if 45 ∈ exponent then size / scale else size * scale

/-- `value == 1` in Python.  The text of an `int` has digits only; the text of
a `float` equals 1 when 1 is the nearest double. -/
def equalsOne : Value → Bool
  | .bool b => b
  | .num text =>
    if text.all isDigit then digitsValue text = 1
    else
      text.head? ≠ some 45 ∧ 1 - 1 / 2 ^ 54 ≤ numberSize text ∧
        numberSize text ≤ 1 + 1 / 2 ^ 53
  | _ => false

/-- `obj.get(key)`; of several members with a name the last one counts. -/
def member (key : String) (members : Members) : Option Value :=
  (members.reverse.find? fun m => m.1 = name key).map Prod.snd

/-- `_parse_response` -/
def parseResponse (data expectedTag : Bytes) : Option Members :=
  match parse data with
  | some (.obj members) =>
    if (member "mcp_discovery" members).any equalsOne then
      match member "tag" members with
      | some (.str tag) => if tag = glyphs expectedTag then some members else none
      | _ => none
    else none
  | _ => none

end AmigaFleet.Host

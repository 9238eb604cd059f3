import Mathlib.Data.Bool.AllAny
import AmigaFleet.Mcpd.CJson

/-!
# Keys and characters of the input methods

The tables of `mcpd/src/methods/input.c` and its UTF-8 decoder.  Rawkey codes
stand for keys, not for characters; the bit `upPrefix` turns the code of a
press into the code of a release.  The codes and qualifier bits are those of
the AmigaOS headers `devices/inputevent.h` and `libraries/keymap.h`.
-/

namespace AmigaFleet.Mcpd.Input

open AmigaFleet.Lib

/-! ## Codes -/

/-- `IECODE_UP_PREFIX` -/
def upPrefix : UInt8 := 0x80

def rawLShift : UInt8 := 0x60
def rawRShift : UInt8 := 0x61
def rawCapsLock : UInt8 := 0x62
def rawCtrl : UInt8 := 0x63
def rawLAlt : UInt8 := 0x64
def rawRAlt : UInt8 := 0x65
def rawLAmiga : UInt8 := 0x66
def rawRAmiga : UInt8 := 0x67

/-- `RAWKEY_F11` -/
def rawkeyF11 : UInt8 := 0x4B

/-- `RAWKEY_F12` -/
def rawkeyF12 : UInt8 := 0x6F

def qualLShift : UInt16 := 0x0001
def qualRShift : UInt16 := 0x0002
def qualCapsLock : UInt16 := 0x0004
def qualControl : UInt16 := 0x0008
def qualLAlt : UInt16 := 0x0010
def qualRAlt : UInt16 := 0x0020
def qualLCommand : UInt16 := 0x0040
def qualRCommand : UInt16 := 0x0080
def qualRelativeMouse : UInt16 := 0x8000
def qualLeftButton : UInt16 := 0x4000
def qualRButton : UInt16 := 0x2000
def qualMidButton : UInt16 := 0x1000

/-- `IECODE_LBUTTON` -/
def codeLButton : UInt8 := 0x68

/-- `IECODE_RBUTTON` -/
def codeRButton : UInt8 := 0x69

/-- `IECODE_MBUTTON` -/
def codeMButton : UInt8 := 0x6A

/-- `IECODE_NOBUTTON` -/
def codeNoButton : UInt8 := 0xFF

/-- `NM_WHEEL_UP` -/
def nmWheelUp : UInt8 := 0x7A

/-- `NM_WHEEL_DOWN` -/
def nmWheelDown : UInt8 := 0x7B

/-- `NM_WHEEL_LEFT` -/
def nmWheelLeft : UInt8 := 0x7C

/-- `NM_WHEEL_RIGHT` -/
def nmWheelRight : UInt8 := 0x7D

/-! ## Named keys -/

/-- `named_key`; only modifiers have a qualifier. -/
structure NamedKey where
  name : String
  code : UInt8
  qual : UInt16
deriving DecidableEq, Repr

/-- `g_named_keys` -/
def namedKeys : List NamedKey :=
  [⟨"lshift", rawLShift, qualLShift⟩, ⟨"rshift", rawRShift, qualRShift⟩,
   ⟨"shift", rawLShift, qualLShift⟩, ⟨"capslock", rawCapsLock, qualCapsLock⟩,
   ⟨"ctrl", rawCtrl, qualControl⟩, ⟨"control", rawCtrl, qualControl⟩, ⟨"lalt", rawLAlt, qualLAlt⟩,
   ⟨"ralt", rawRAlt, qualRAlt⟩, ⟨"alt", rawLAlt, qualLAlt⟩, ⟨"lamiga", rawLAmiga, qualLCommand⟩,
   ⟨"lcommand", rawLAmiga, qualLCommand⟩, ⟨"ramiga", rawRAmiga, qualRCommand⟩,
   ⟨"rcommand", rawRAmiga, qualRCommand⟩, ⟨"amiga", rawLAmiga, qualLCommand⟩, ⟨"space", 0x40, 0⟩,
   ⟨"backspace", 0x41, 0⟩, ⟨"tab", 0x42, 0⟩, ⟨"return", 0x44, 0⟩, ⟨"enter", 0x44, 0⟩,
   ⟨"esc", 0x45, 0⟩, ⟨"escape", 0x45, 0⟩, ⟨"del", 0x46, 0⟩, ⟨"delete", 0x46, 0⟩, ⟨"help", 0x5F, 0⟩,
   ⟨"up", 0x4C, 0⟩, ⟨"down", 0x4D, 0⟩, ⟨"right", 0x4E, 0⟩, ⟨"left", 0x4F, 0⟩, ⟨"f1", 0x50, 0⟩,
   ⟨"f2", 0x51, 0⟩, ⟨"f3", 0x52, 0⟩, ⟨"f4", 0x53, 0⟩, ⟨"f5", 0x54, 0⟩, ⟨"f6", 0x55, 0⟩,
   ⟨"f7", 0x56, 0⟩, ⟨"f8", 0x57, 0⟩, ⟨"f9", 0x58, 0⟩, ⟨"f10", 0x59, 0⟩, ⟨"f11", rawkeyF11, 0⟩,
   ⟨"f12", rawkeyF12, 0⟩, ⟨"kp0", 0x0F, 0⟩, ⟨"kp1", 0x1D, 0⟩, ⟨"kp2", 0x1E, 0⟩, ⟨"kp3", 0x1F, 0⟩,
   ⟨"kp4", 0x2D, 0⟩, ⟨"kp5", 0x2E, 0⟩, ⟨"kp6", 0x2F, 0⟩, ⟨"kp7", 0x3D, 0⟩, ⟨"kp8", 0x3E, 0⟩,
   ⟨"kp9", 0x3F, 0⟩, ⟨"kpdot", 0x3C, 0⟩, ⟨"kpenter", 0x43, 0⟩, ⟨"kpminus", 0x4A, 0⟩,
   ⟨"kpplus", 0x5E, 0⟩, ⟨"kpmul", 0x5D, 0⟩, ⟨"kpdiv", 0x5C, 0⟩, ⟨"kplparen", 0x5A, 0⟩,
   ⟨"kprparen", 0x5B, 0⟩]

def lowerCase (c : UInt8) : UInt8 := if 65 ≤ c ∧ c ≤ 90 then c - 65 + 97 else c

/-- `_find_named_key` -/
def findNamedKey (name : Bytes) : Option NamedKey :=
  namedKeys.find? fun k => ascii k.name = name.map lowerCase

/-- `NOKEY` -/
def noKey : UInt8 := 0xFF

/-- `g_us_ascii`: the key of each character from 0x20 on, and whether it is
shifted. -/
def usAscii : List (UInt8 × Bool) :=
  [(0x40, false), (0x01, true), (0x2A, true), (0x03, true), (0x04, true), (0x05, true),
   (0x07, true), (0x2A, false), (0x09, true), (0x0A, true), (0x08, true), (0x0C, true),
   (0x38, false), (0x0B, false), (0x39, false), (0x3A, false), (0x0A, false), (0x01, false),
   (0x02, false), (0x03, false), (0x04, false), (0x05, false), (0x06, false), (0x07, false),
   (0x08, false), (0x09, false), (0x29, true), (0x29, false), (0x38, true), (0x0C, false),
   (0x39, true), (0x3A, true), (0x02, true), (0x20, true), (0x35, true), (0x33, true),
   (0x22, true), (0x12, true), (0x23, true), (0x24, true), (0x25, true), (0x17, true),
   (0x26, true), (0x27, true), (0x28, true), (0x37, true), (0x36, true), (0x18, true),
   (0x19, true), (0x10, true), (0x13, true), (0x21, true), (0x14, true), (0x16, true),
   (0x34, true), (0x11, true), (0x32, true), (0x15, true), (0x31, true), (0x1A, false),
   (0x0D, false), (0x1B, false), (0x06, true), (0x0B, true), (0x00, false), (0x20, false),
   (0x35, false), (0x33, false), (0x22, false), (0x12, false), (0x23, false), (0x24, false),
   (0x25, false), (0x17, false), (0x26, false), (0x27, false), (0x28, false), (0x37, false),
   (0x36, false), (0x18, false), (0x19, false), (0x10, false), (0x13, false), (0x21, false),
   (0x14, false), (0x16, false), (0x34, false), (0x11, false), (0x32, false), (0x15, false),
   (0x31, false), (0x1A, true), (0x0D, true), (0x1B, true), (0x00, true), (noKey, false)]

/-- `_ascii_to_raw` -/
def asciiToRaw (c : UInt8) : Option (UInt8 × Bool) :=
  if c = 10 ∨ c = 13 then some (0x44, false)
  else if c = 9 then some (0x42, false)
  else if c < 0x20 ∨ c > 0x7E then none
  else
    match usAscii[c.toNat - 0x20]? with
    | some k => if k.1 = noKey then none else some k
    | none => none

/-! ## UTF-8 -/

/-- The continuation bytes of `_utf8_next`. -/
def continuation : Nat → Nat → Bytes → Option Nat
  | 0, cp, _ => some cp
  | _ + 1, _, [] => none
  | need + 1, cp, c :: text =>
    if c &&& 0xC0 ≠ 0x80 then none
    else continuation need (cp * 64 + (c &&& 0x3F).toNat) text

/-- `_utf8_next` at the start of a text: the bytes consumed and the code
point. -/
def utf8Next (c : UInt8) (text : Bytes) : Nat × Nat :=
  let lead : Option (Nat × Nat) :=
    if c < 0x80 then none
    else if c &&& 0xE0 = 0xC0 then some (1, (c &&& 0x1F).toNat)
    else if c &&& 0xF0 = 0xE0 then some (2, (c &&& 0x0F).toNat)
    else if c &&& 0xF8 = 0xF0 then some (3, (c &&& 0x07).toNat)
    else none
  match lead with
  | none => (1, c.toNat)
  | some (need, cp) =>
    -- cut off at the end of the text
    if need ≥ text.length + 1 then (1, c.toNat)
    else
      match continuation need cp text with
      | none => (1, c.toNat)
      | some cp => (need + 1, cp)

/-- The code points of a text, as the loops over `_utf8_next` see them; every
round takes a byte at least. -/
def codePointsUpTo : Nat → Bytes → List Nat
  | 0, _ => []
  | _ + 1, [] => []
  | n + 1, c :: text =>
    (utf8Next c text).2 :: codePointsUpTo n (text.drop ((utf8Next c text).1 - 1))

def codePoints (text : Bytes) : List Nat := codePointsUpTo text.length text

/-- `_utf8_strlen` -/
def utf8Strlen (text : Bytes) : Nat := (codePoints text).length

/-! ## What the tables hold -/

/-- The tables name presses. -/
theorem namedKeys_down : ∀ k ∈ namedKeys, k.code < upPrefix := by decide

theorem findNamedKey_mem {name : Bytes} {k : NamedKey} (h : findNamedKey name = some k) :
    k ∈ namedKeys := List.mem_of_find?_eq_some h

theorem usAscii_down : ∀ k ∈ usAscii, k.1 ≠ noKey → k.1 < rawLShift :=
  List.all_iff_forall_prop.mp rfl

/-- A typed character is on the main block of the keyboard. -/
theorem asciiToRaw_down {c code : UInt8} {shift : Bool} (h : asciiToRaw c = some (code, shift)) :
    code < rawLShift := by
  unfold asciiToRaw at h
  split at h
  · cases h
    decide
  · split at h
    · cases h
      decide
    · split at h
      · cases h
      · split at h
        · rename_i k hk
          split at h
          · cases h
          · rename_i hcode
            cases h
            exact usAscii_down _ (List.mem_of_getElem? hk) hcode
        · cases h

end AmigaFleet.Mcpd.Input

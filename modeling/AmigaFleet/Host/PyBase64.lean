import AmigaFleet.Lib.Base64

/-!
# Python's base64 decoder

`base64.b64decode(text)`, which is `binascii.a2b_base64` without its strict
mode: characters outside the alphabet are passed over, a pad sequence that
completes a group ends the text, and a group that is not complete at the end
is an error.

* `a2bValue` is the table of the decoder, and `b64decodeLoop` its loop.
* `b64decode_encode`: it inverts `Base64.encode`.
-/

namespace AmigaFleet.Host.PyBase64

open AmigaFleet.Lib

/-- `table_a2b_base64`; `none` is a character outside the alphabet. -/
def a2bValue (c : UInt8) : Option Nat :=
  let n := c.toNat
  if 65 ≤ n ∧ n ≤ 90 then some (n - 65)
  else if 97 ≤ n ∧ n ≤ 122 then some (n - 71)
  else if 48 ≤ n ∧ n ≤ 57 then some (n + 4)
  else if n = 43 then some 62
  else if n = 47 then some 63
  else none

/-- The loop of `a2b_base64`, with its `quad_pos`, `leftchar` and `pads`. -/
def b64decodeLoop : Bytes → Nat → Nat → Nat → Option Bytes
  | [], quadPos, _, _ => if quadPos = 0 then some [] else none
  | c :: rest, quadPos, leftchar, pads =>
    if c = Base64.pad then
      if 2 ≤ quadPos then
        if 4 ≤ quadPos + (pads + 1) then some [] else b64decodeLoop rest quadPos leftchar (pads + 1)
      else b64decodeLoop rest quadPos leftchar pads
    else
      match a2bValue c with
      | none => b64decodeLoop rest quadPos leftchar pads
      | some v =>
        match quadPos with
        | 0 => b64decodeLoop rest 1 v 0
        | 1 => (b64decodeLoop rest 2 (v % 16) 0).map (UInt8.ofNat (leftchar * 4 + v / 16) :: ·)
        | 2 => (b64decodeLoop rest 3 (v % 4) 0).map (UInt8.ofNat (leftchar * 16 + v / 4) :: ·)
        | _ => (b64decodeLoop rest 0 0 0).map (UInt8.ofNat (leftchar * 64 + v) :: ·)

/-- `base64.b64decode` -/
def b64decode (text : Bytes) : Option Bytes := b64decodeLoop text 0 0 0

/-! ## The round trip -/

theorem a2bValue_digit {k : Nat} (h : k < 64) :
    a2bValue (Base64.digit k) = some k ∧ Base64.digit k ≠ Base64.pad := by
  have hall : ∀ k : Fin 64, a2bValue (Base64.digit k) = some k.val ∧
      Base64.digit k ≠ Base64.pad := by decide
  exact hall ⟨k, h⟩

/-- The four places of a digit in its group. -/
theorem loop_digit {k : Nat} (h : k < 64) (rest : Bytes) (leftchar pads : Nat) :
    b64decodeLoop (Base64.digit k :: rest) 0 leftchar pads = b64decodeLoop rest 1 k 0 ∧
    b64decodeLoop (Base64.digit k :: rest) 1 leftchar pads =
      (b64decodeLoop rest 2 (k % 16) 0).map (UInt8.ofNat (leftchar * 4 + k / 16) :: ·) ∧
    b64decodeLoop (Base64.digit k :: rest) 2 leftchar pads =
      (b64decodeLoop rest 3 (k % 4) 0).map (UInt8.ofNat (leftchar * 16 + k / 4) :: ·) ∧
    b64decodeLoop (Base64.digit k :: rest) 3 leftchar pads =
      (b64decodeLoop rest 0 0 0).map (UInt8.ofNat (leftchar * 64 + k) :: ·) := by
  obtain ⟨hvalue, hpad⟩ := a2bValue_digit h
  simp [b64decodeLoop, hvalue, hpad]

theorem ofNat_toNat_of_eq {a : UInt8} {n : Nat} (h : n = a.toNat) : UInt8.ofNat n = a := by
  rw [h]
  exact UInt8.ofNat_toNat

theorem loop_encode (bytes : Bytes) (leftchar pads : Nat) :
    b64decodeLoop (Base64.encode bytes) 0 leftchar pads = some bytes := by
  induction bytes using Base64.encode.induct generalizing leftchar pads with
  | case1 => simp [Base64.encode, b64decodeLoop]
  | case2 a =>
    have ha := a.toNat_lt
    have hfst := (loop_digit (k := a.toNat / 4) (by omega)
      (Base64.digit (a.toNat % 4 * 16 + 0 / 16) :: [Base64.pad, Base64.pad]) leftchar pads).1
    have hsnd := (loop_digit (k := a.toNat % 4 * 16 + 0 / 16) (by omega)
      [Base64.pad, Base64.pad] (a.toNat / 4) 0).2.1
    have hbyte : UInt8.ofNat (a.toNat / 4 * 4 + (a.toNat % 4 * 16 + 0 / 16) / 16) = a :=
      ofNat_toNat_of_eq (by omega)
    show b64decodeLoop (Base64.digit (a.toNat / 4) ::
      Base64.digit (a.toNat % 4 * 16 + 0 / 16) :: [Base64.pad, Base64.pad]) 0 leftchar pads = _
    rw [hfst, hsnd, hbyte]
    simp [b64decodeLoop]
  | case3 a b =>
    have ha := a.toNat_lt
    have hb := b.toNat_lt
    have hfst := (loop_digit (k := a.toNat / 4) (by omega)
      (Base64.digit (a.toNat % 4 * 16 + b.toNat / 16) ::
        Base64.digit (b.toNat % 16 * 4 + 0 / 64) :: [Base64.pad]) leftchar pads).1
    have hsnd := (loop_digit (k := a.toNat % 4 * 16 + b.toNat / 16) (by omega)
      (Base64.digit (b.toNat % 16 * 4 + 0 / 64) :: [Base64.pad]) (a.toNat / 4) 0).2.1
    have htrd := (loop_digit (k := b.toNat % 16 * 4 + 0 / 64) (by omega)
      [Base64.pad] ((a.toNat % 4 * 16 + b.toNat / 16) % 16) 0).2.2.1
    have hbyteA : UInt8.ofNat (a.toNat / 4 * 4 + (a.toNat % 4 * 16 + b.toNat / 16) / 16) = a :=
      ofNat_toNat_of_eq (by omega)
    have hbyteB : UInt8.ofNat ((a.toNat % 4 * 16 + b.toNat / 16) % 16 * 16 +
        (b.toNat % 16 * 4 + 0 / 64) / 4) = b := ofNat_toNat_of_eq (by omega)
    show b64decodeLoop (Base64.digit (a.toNat / 4) ::
      Base64.digit (a.toNat % 4 * 16 + b.toNat / 16) ::
        Base64.digit (b.toNat % 16 * 4 + 0 / 64) :: [Base64.pad]) 0 leftchar pads = _
    rw [hfst, hsnd, htrd, hbyteA, hbyteB]
    simp [b64decodeLoop]
  | case4 a b c rest ih =>
    have ha := a.toNat_lt
    have hb := b.toNat_lt
    have hc := c.toNat_lt
    have hfst := (loop_digit (k := a.toNat / 4) (by omega)
      (Base64.digit (a.toNat % 4 * 16 + b.toNat / 16) ::
        Base64.digit (b.toNat % 16 * 4 + c.toNat / 64) :: Base64.digit (c.toNat % 64) ::
          Base64.encode rest) leftchar pads).1
    have hsnd := (loop_digit (k := a.toNat % 4 * 16 + b.toNat / 16) (by omega)
      (Base64.digit (b.toNat % 16 * 4 + c.toNat / 64) :: Base64.digit (c.toNat % 64) ::
        Base64.encode rest) (a.toNat / 4) 0).2.1
    have htrd := (loop_digit (k := b.toNat % 16 * 4 + c.toNat / 64) (by omega)
      (Base64.digit (c.toNat % 64) :: Base64.encode rest)
      ((a.toNat % 4 * 16 + b.toNat / 16) % 16) 0).2.2.1
    have hfth := (loop_digit (k := c.toNat % 64) (by omega) (Base64.encode rest)
      ((b.toNat % 16 * 4 + c.toNat / 64) % 4) 0).2.2.2
    have hbyteA : UInt8.ofNat (a.toNat / 4 * 4 + (a.toNat % 4 * 16 + b.toNat / 16) / 16) = a :=
      ofNat_toNat_of_eq (by omega)
    have hbyteB : UInt8.ofNat ((a.toNat % 4 * 16 + b.toNat / 16) % 16 * 16 +
        (b.toNat % 16 * 4 + c.toNat / 64) / 4) = b := ofNat_toNat_of_eq (by omega)
    have hbyteC : UInt8.ofNat ((b.toNat % 16 * 4 + c.toNat / 64) % 4 * 64 + c.toNat % 64) = c :=
      ofNat_toNat_of_eq (by omega)
    show b64decodeLoop (Base64.digit (a.toNat / 4) ::
      Base64.digit (a.toNat % 4 * 16 + b.toNat / 16) ::
        Base64.digit (b.toNat % 16 * 4 + c.toNat / 64) :: Base64.digit (c.toNat % 64) ::
          Base64.encode rest) 0 leftchar pads = _
    rw [hfst, hsnd, htrd, hfth, ih, hbyteA, hbyteB, hbyteC]
    rfl

/-- The decoder inverts the encoding. -/
theorem b64decode_encode (bytes : Bytes) : b64decode (Base64.encode bytes) = some bytes :=
  loop_encode bytes 0 0

end AmigaFleet.Host.PyBase64

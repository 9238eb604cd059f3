import AmigaFleet.Lib.Framing

/-!
# Hexadecimal text

Bytes in lower-case hexadecimal, two digits each.  The text determines the
bytes (`hexText_injective`), and it has no capitals (`lower_hexText`).
-/

namespace AmigaFleet.Lib

/-- A lower-case hexadecimal digit. -/
def hexDigit (n : Nat) : UInt8 := UInt8.ofNat (if n < 10 then 48 + n else 87 + n)

def hexByte (c : UInt8) : Bytes := [hexDigit (c.toNat / 16), hexDigit (c.toNat % 16)]

def hexText (bytes : Bytes) : Bytes := bytes.flatMap hexByte

/-- A text without its capital letters. -/
def lowerText (text : Bytes) : Bytes :=
  text.map fun c => if 65 ≤ c.toNat ∧ c.toNat ≤ 90 then UInt8.ofNat (c.toNat + 32) else c

theorem hexDigit_inj {m n : Nat} (hm : m < 16) (hn : n < 16) (h : hexDigit m = hexDigit n) :
    m = n := by
  have hall : ∀ m n : Fin 16, hexDigit m = hexDigit n → m = n := by decide
  exact Fin.mk.inj (hall ⟨m, hm⟩ ⟨n, hn⟩ h)

theorem hexText_cons (c : UInt8) (bytes : Bytes) :
    hexText (c :: bytes) = hexDigit (c.toNat / 16) :: hexDigit (c.toNat % 16) :: hexText bytes := rfl

theorem hexText_injective {a b : Bytes} (h : hexText a = hexText b) : a = b := by
  induction a generalizing b with
  | nil =>
    cases b with
    | nil => rfl
    | cons d b =>
      rw [hexText_cons] at h
      cases h
  | cons c a ih =>
    cases b with
    | nil =>
      rw [hexText_cons] at h
      cases h
    | cons d b =>
      have hc := c.toNat_lt
      have hd := d.toNat_lt
      simp only [hexText_cons, List.cons.injEq] at h
      obtain ⟨hhigh, hlow, hrest⟩ := h
      have hdiv := hexDigit_inj (by omega) (by omega) hhigh
      have hmod := hexDigit_inj (by omega) (by omega) hlow
      have hbyte : c = d := UInt8.toNat_inj.mp (by omega)
      rw [hbyte, ih hrest]

theorem lower_hexDigit {n : Nat} (h : n < 16) : lowerText [hexDigit n] = [hexDigit n] := by
  have hall : ∀ n : Fin 16, lowerText [hexDigit n] = [hexDigit n] := by decide
  exact hall ⟨n, h⟩

@[simp] theorem lower_hexText (bytes : Bytes) : lowerText (hexText bytes) = hexText bytes := by
  induction bytes with
  | nil => rfl
  | cons c bytes ih =>
    have hc := c.toNat_lt
    have hhigh := lower_hexDigit (n := c.toNat / 16) (by omega)
    have hlow := lower_hexDigit (n := c.toNat % 16) (by omega)
    simp only [lowerText, List.map_cons, List.map_nil, List.cons.injEq] at hhigh hlow ih
    simp only [hexText_cons, lowerText, List.map_cons, hhigh.1, hlow.1, ih]

end AmigaFleet.Lib

import AmigaFleet.Lib.Framing

/-!
# Base64

The encoding of RFC 4648, section 4: three bytes become four digits of six
bits, and a rest of one or two bytes is padded.

* `encode` is the encoding.  `length_encode` is its length, and `encode_text`
  says which characters it uses.
* `digits` are the four digits of a whole group.
* `Canonical` are the digits and the padding that an encoder leaves:
  `canonical_encode` and `encode_canonical`.
-/

namespace AmigaFleet.Lib.Base64

/-- The character of a six-bit digit. -/
def digit (k : Nat) : UInt8 :=
  if k < 26 then UInt8.ofNat (65 + k)
  else if k < 52 then UInt8.ofNat (71 + k)
  else if k < 62 then UInt8.ofNat (k - 4)
  else if k = 62 then 43
  else 47

/-- The padding character. -/
def pad : UInt8 := 61

/-- The digits of three bytes. -/
def digits (a b c : UInt8) : List Nat :=
  [a.toNat / 4, a.toNat % 4 * 16 + b.toNat / 16, b.toNat % 16 * 4 + c.toNat / 64, c.toNat % 64]

def encode : Bytes → Bytes
  | [] => []
  | [a] => ((digits a 0 0).take 2).map digit ++ [pad, pad]
  | [a, b] => ((digits a b 0).take 3).map digit ++ [pad]
  | a :: b :: c :: rest => (digits a b c).map digit ++ encode rest

theorem digits_lt (a b c : UInt8) : ∀ k ∈ digits a b c, k < 64 := by
  have ha := a.toNat_lt
  have hb := b.toNat_lt
  have hc := c.toNat_lt
  intro k hk
  simp only [digits, List.mem_cons, List.not_mem_nil, or_false] at hk
  omega

/-- The length of an encoded text. -/
theorem length_encode (bytes : Bytes) : (encode bytes).length = (bytes.length + 2) / 3 * 4 := by
  induction bytes using encode.induct with
  | case1 => rfl
  | case2 a => simp [encode, digits]
  | case3 a b => simp [encode, digits]
  | case4 a b c rest ih =>
    rw [encode, List.length_append, ih]
    simp only [digits, List.map_cons, List.map_nil, List.length_cons, List.length_nil]
    omega

/-- A character of an encoded text. -/
def IsText (c : UInt8) : Prop := c = pad ∨ ∃ k < 64, c = digit k

theorem encode_text (bytes : Bytes) : ∀ c ∈ encode bytes, IsText c := by
  have hdigits : ∀ (ds : List Nat), (∀ k ∈ ds, k < 64) → ∀ c ∈ ds.map digit, IsText c := by
    intro ds hds c hc
    obtain ⟨k, hk, rfl⟩ := List.mem_map.mp hc
    exact Or.inr ⟨k, hds k hk, rfl⟩
  induction bytes using encode.induct with
  | case1 =>
    intro c hc
    cases hc
  | case2 a =>
    intro c hc
    rcases List.mem_append.mp hc with hc | hc
    · exact hdigits _ (fun k hk => digits_lt a 0 0 k (List.mem_of_mem_take hk)) c hc
    · simp only [List.mem_cons, List.not_mem_nil, or_false, or_self] at hc
      exact Or.inl hc
  | case3 a b =>
    intro c hc
    rcases List.mem_append.mp hc with hc | hc
    · exact hdigits _ (fun k hk => digits_lt a b 0 k (List.mem_of_mem_take hk)) c hc
    · exact Or.inl (List.mem_singleton.mp hc)
  | case4 a b c rest ih =>
    intro d hd
    rcases List.mem_append.mp hd with hd | hd
    · exact hdigits _ (digits_lt a b c) d hd
    · exact ih d hd

/-- The characters of an encoded text are printable ASCII, and none of them is
a quote or a backslash. -/
theorem IsText.plain {c : UInt8} (h : IsText c) :
    32 < c.toNat ∧ c.toNat < 127 ∧ c.toNat ≠ 34 ∧ c.toNat ≠ 92 := by
  rcases h with rfl | ⟨k, hk, rfl⟩
  · decide
  · have hall : ∀ k : Fin 64, 32 < (digit k).toNat ∧ (digit k).toNat < 127 ∧
        (digit k).toNat ≠ 34 ∧ (digit k).toNat ≠ 92 := by decide
    exact hall ⟨k, hk⟩

/-! ## Canonical texts -/

/-- Digits in groups of four.  A group of two or three is the last one; it is
padded, and the bits that no byte takes are zero. -/
def Canonical : List Nat → Bytes → Prop
  | [], tail => tail = []
  | [_], _ => False
  | [_, k], tail => tail = [pad, pad] ∧ k % 16 = 0
  | [_, _, k], tail => tail = [pad] ∧ k % 4 = 0
  | _ :: _ :: _ :: _ :: ds, tail => Canonical ds tail

instance decidableCanonical : ∀ (ds : List Nat) (tail : Bytes), Decidable (Canonical ds tail)
  | [], tail => inferInstanceAs (Decidable (tail = []))
  | [_], _ => inferInstanceAs (Decidable False)
  | [_, k], tail => inferInstanceAs (Decidable (tail = [pad, pad] ∧ k % 16 = 0))
  | [_, _, k], tail => inferInstanceAs (Decidable (tail = [pad] ∧ k % 4 = 0))
  | _ :: _ :: _ :: _ :: ds, tail => decidableCanonical ds tail

theorem digit_inj {j k : Nat} (hj : j < 64) (hk : k < 64) (h : digit j = digit k) : j = k := by
  have hall : ∀ j k : Fin 64, digit j = digit k → j = k := by decide +kernel
  exact congrArg Fin.val (hall ⟨j, hj⟩ ⟨k, hk⟩ h)

theorem digit_ne_pad {k : Nat} (hk : k < 64) : digit k ≠ pad := by
  have hall : ∀ k : Fin 64, digit k ≠ pad := by decide
  exact hall ⟨k, hk⟩

theorem map_digit_inj {ds es : List Nat} (hds : ∀ k ∈ ds, k < 64) (hes : ∀ k ∈ es, k < 64)
    (h : ds.map digit = es.map digit) : ds = es := by
  induction ds generalizing es with
  | nil => simpa [eq_comm] using h
  | cons d ds ih =>
    cases es with
    | nil => simp at h
    | cons e es =>
      rw [List.forall_mem_cons] at hds hes
      obtain ⟨hhead, htail⟩ := List.cons.inj h
      rw [digit_inj hds.1 hes.1 hhead, ih hds.2 hes.2 htail]

/-- Behind the digits stands padding or nothing. -/
theorem Canonical.tail_head {ds : List Nat} {tail : Bytes} (h : Canonical ds tail) :
    ∀ c, tail.head? = some c → c = pad := by
  fun_induction Canonical ds tail with
  | case1 tail => simp [h]
  | case2 => exact h.elim
  | case3 _ k tail => simp [h.1, eq_comm]
  | case4 _ _ k tail => simp [h.1, eq_comm]
  | case5 _ _ _ _ ds tail ih => exact ih h

/-- An encoder leaves a canonical text. -/
theorem encode_canonical (bytes : Bytes) : ∃ ds tail, encode bytes = ds.map digit ++ tail ∧
    (∀ k ∈ ds, k < 64) ∧ Canonical ds tail := by
  induction bytes using encode.induct with
  | case1 => exact ⟨[], [], rfl, by simp, rfl⟩
  | case2 a =>
    refine ⟨(digits a 0 0).take 2, [pad, pad], rfl,
      fun k hk => digits_lt a 0 0 k (List.mem_of_mem_take hk), rfl, ?_⟩
    show (a.toNat % 4 * 16 + (0 : UInt8).toNat / 16) % 16 = 0
    simp
  | case3 a b =>
    refine ⟨(digits a b 0).take 3, [pad], rfl,
      fun k hk => digits_lt a b 0 k (List.mem_of_mem_take hk), rfl, ?_⟩
    show (b.toNat % 16 * 4 + (0 : UInt8).toNat / 64) % 4 = 0
    simp
  | case4 a b c rest ih =>
    obtain ⟨ds, tail, henc, hlt, hcan⟩ := ih
    refine ⟨digits a b c ++ ds, tail, ?_, ?_, hcan⟩
    · rw [encode, henc, List.map_append, List.append_assoc]
    · intro k hk
      rcases List.mem_append.mp hk with hk | hk
      · exact digits_lt a b c k hk
      · exact hlt k hk

theorem exists_byte {n : Nat} (h : n < 256) : ∃ a : UInt8, a.toNat = n :=
  ⟨UInt8.ofNat n, by rw [UInt8.toNat_ofNat', Nat.mod_eq_of_lt h]⟩

/-- The bytes of four digits. -/
theorem digits_eq {a b c : UInt8} {i j k l : Nat} (hj : j < 64) (hk : k < 64) (hl : l < 64)
    (ha : a.toNat = i * 4 + j / 16) (hb : b.toNat = j % 16 * 16 + k / 4)
    (hc : c.toNat = k % 4 * 64 + l) : digits a b c = [i, j, k, l] := by
  have h1 : a.toNat / 4 = i := by omega
  have h2 : a.toNat % 4 * 16 + b.toNat / 16 = j := by omega
  have h3 : b.toNat % 16 * 4 + c.toNat / 64 = k := by omega
  have h4 : c.toNat % 64 = l := by omega
  rw [digits, h1, h2, h3, h4]

/-- A canonical text is an encoding. -/
theorem canonical_encode {ds : List Nat} (hlt : ∀ k ∈ ds, k < 64) {tail : Bytes}
    (h : Canonical ds tail) : ∃ bytes, encode bytes = ds.map digit ++ tail := by
  fun_induction Canonical ds tail with
  | case1 tail => exact ⟨[], by simp [h, encode]⟩
  | case2 => exact h.elim
  | case3 i j tail =>
    simp only [List.forall_mem_cons] at hlt
    obtain ⟨a, ha⟩ := exists_byte (show i * 4 + j / 16 < 256 by omega)
    have hb : (0 : UInt8).toNat = j % 16 * 16 + 0 / 4 := by simp [h.2]
    have hdigits : digits a 0 0 = [i, j, 0, 0] :=
      digits_eq (by omega) (by omega) (by omega) ha hb rfl
    exact ⟨[a], by rw [encode, hdigits, h.1]; rfl⟩
  | case4 i j k tail =>
    simp only [List.forall_mem_cons] at hlt
    obtain ⟨a, ha⟩ := exists_byte (show i * 4 + j / 16 < 256 by omega)
    obtain ⟨b, hb⟩ := exists_byte (show j % 16 * 16 + k / 4 < 256 by omega)
    have hc : (0 : UInt8).toNat = k % 4 * 64 + 0 := by simp [h.2]
    have hdigits : digits a b 0 = [i, j, k, 0] :=
      digits_eq (by omega) (by omega) (by omega) ha hb hc
    exact ⟨[a, b], by rw [encode, hdigits, h.1]; rfl⟩
  | case5 i j k l ds tail ih =>
    simp only [List.forall_mem_cons] at hlt
    obtain ⟨bytes, hbytes⟩ := ih hlt.2.2.2.2 h
    obtain ⟨a, ha⟩ := exists_byte (show i * 4 + j / 16 < 256 by omega)
    obtain ⟨b, hb⟩ := exists_byte (show j % 16 * 16 + k / 4 < 256 by omega)
    obtain ⟨c, hc⟩ := exists_byte (show k % 4 * 64 + l < 256 by omega)
    have hdigits : digits a b c = [i, j, k, l] :=
      digits_eq (by omega) (by omega) (by omega) ha hb hc
    exact ⟨a :: b :: c :: bytes, by rw [encode, hdigits, hbytes]; rfl⟩

end AmigaFleet.Lib.Base64

import AmigaFleet.Lib.Framing

/-!
# UTF-8

`Utf8` are the byte strings that a strict decoder accepts: the encodings of
sequences of characters, with no surrogates and no longer forms.

An ASCII byte is a character of its own, so a text can be cut at it:
`utf8_cut_iff`.
-/

namespace AmigaFleet.Lib

/-- The bytes are the encoding of some characters. -/
def Utf8 (bytes : Bytes) : Prop := ∃ chars : List Char, bytes = chars.flatMap String.utf8EncodeChar

/-- A strict decoder. -/
def utf8Decode (bytes : Bytes) : Option (List Char) :=
  (ByteArray.mk bytes.toArray).utf8Decode?.map Array.toList

theorem utf8Decode_encode (chars : List Char) :
    utf8Decode (chars.flatMap String.utf8EncodeChar) = some chars := by
  have hbytes : ByteArray.mk (chars.flatMap String.utf8EncodeChar).toArray = chars.utf8Encode := by
    rw [List.utf8Encode]
    ext1
    simp
  rw [utf8Decode, hbytes, List.utf8Decode?_utf8Encode]
  rfl

/-! ## One character -/

/-- A character is one ASCII byte, or several bytes from 128 on. -/
theorem utf8EncodeChar_cases (ch : Char) :
    (∃ c : UInt8, c < 128 ∧ String.utf8EncodeChar ch = [c]) ∨
      (2 ≤ (String.utf8EncodeChar ch).length ∧ ∀ c ∈ String.utf8EncodeChar ch, 128 ≤ c) := by
  have hlow : ∀ n, n < 256 → 128 ≤ n → (128 : UInt8) ≤ UInt8.ofNat n := by
    intro n hn h
    rw [UInt8.le_iff_toNat_le, UInt8.toNat_ofNat_of_lt' hn]
    exact h
  unfold String.utf8EncodeChar
  dsimp only
  split
  · rename_i h
    refine Or.inl ⟨_, ?_, rfl⟩
    rw [UInt8.lt_iff_toNat_lt, UInt8.toNat_ofNat_of_lt' (Nat.lt_of_le_of_lt h (by decide))]
    exact Nat.lt_of_le_of_lt h (by decide)
  · refine Or.inr ?_
    split
    · refine ⟨Nat.le_refl _, ?_⟩
      simp only [List.forall_mem_cons]
      exact ⟨hlow _ (by omega) (by omega), hlow _ (by omega) (by omega), by simp⟩
    · split
      · refine ⟨by simp, ?_⟩
        simp only [List.forall_mem_cons]
        exact ⟨hlow _ (by omega) (by omega), hlow _ (by omega) (by omega),
          hlow _ (by omega) (by omega), by simp⟩
      · refine ⟨by simp, ?_⟩
        simp only [List.forall_mem_cons]
        exact ⟨hlow _ (by omega) (by omega), hlow _ (by omega) (by omega),
          hlow _ (by omega) (by omega), hlow _ (by omega) (by omega), by simp⟩

theorem utf8EncodeChar_ascii {c : UInt8} (h : c < 128) :
    String.utf8EncodeChar (Char.ofNat c.toNat) = [c] := by
  have hall : ∀ k : Fin 128, String.utf8EncodeChar (Char.ofNat k.val) = [UInt8.ofNat k.val] := by
    decide
  have hlt : c.toNat < 128 := UInt8.lt_iff_toNat_lt.mp h
  have hc := hall ⟨c.toNat, hlt⟩
  rw [UInt8.ofNat_toNat] at hc
  exact hc

/-! ## Texts -/

theorem utf8_nil : Utf8 [] := ⟨[], rfl⟩

theorem Utf8.append {a b : Bytes} (ha : Utf8 a) (hb : Utf8 b) : Utf8 (a ++ b) := by
  obtain ⟨as, rfl⟩ := ha
  obtain ⟨bs, rfl⟩ := hb
  exact ⟨as ++ bs, List.flatMap_append.symm⟩

theorem utf8_singleton {c : UInt8} (h : c < 128) : Utf8 [c] :=
  ⟨[Char.ofNat c.toNat], by rw [List.flatMap_cons, utf8EncodeChar_ascii h]; rfl⟩

/-- A single byte from 128 on is no text. -/
theorem not_utf8_singleton {c : UInt8} (h : 128 ≤ c) : ¬ Utf8 [c] := by
  intro ⟨chars, heq⟩
  cases chars with
  | nil => cases heq
  | cons ch chars =>
    rw [List.flatMap_cons] at heq
    rcases utf8EncodeChar_cases ch with ⟨c', hlt, hch⟩ | ⟨hlen, -⟩
    · rw [hch] at heq
      rw [(List.cons.inj heq).1] at h
      exact absurd hlt (UInt8.not_lt.mpr h)
    · have hlength := congrArg List.length heq
      rw [List.length_append, List.length_singleton] at hlength
      omega

/-- A text is cut in two at an ASCII byte. -/
theorem utf8_cut_iff {a b : Bytes} {c : UInt8} (hc : c < 128) :
    Utf8 (a ++ c :: b) ↔ Utf8 a ∧ Utf8 b := by
  constructor
  · intro ⟨chars, heq⟩
    induction chars generalizing a with
    | nil =>
      cases a with
      | nil => cases heq
      | cons x a => cases heq
    | cons ch chars ih =>
      rw [List.flatMap_cons] at heq
      rcases List.append_eq_append_iff.mp heq with ⟨rest, hch, hrest⟩ | ⟨rest, ha, hrest⟩
      · cases rest with
        | nil =>
          rw [List.append_nil] at hch
          obtain ⟨-, hb⟩ := ih (a := []) hrest
          exact ⟨⟨[ch], by rw [← hch]; simp⟩, hb⟩
        | cons x rest =>
          cases hrest
          -- the byte is in the encoding of `ch`, so it is all of it
          rcases utf8EncodeChar_cases ch with ⟨c', -, hone⟩ | ⟨-, hhigh⟩
          · rw [hone] at hch
            cases a with
            | nil =>
              cases hch
              exact ⟨utf8_nil, chars, rfl⟩
            | cons y a =>
              have hlength := congrArg List.length hch
              simp at hlength
          · have hmem := hhigh c (by rw [hch]; simp)
            exact absurd hc (UInt8.not_lt.mpr hmem)
      · obtain ⟨ha', hb⟩ := ih hrest.symm
        rw [ha]
        exact ⟨Utf8.append ⟨[ch], by simp⟩ ha', hb⟩
  · intro ⟨ha, hb⟩
    exact ha.append ((utf8_singleton hc).append hb)

@[simp] theorem utf8_cons_iff {b : Bytes} {c : UInt8} (hc : c < 128) : Utf8 (c :: b) ↔ Utf8 b := by
  have hcut := utf8_cut_iff (a := []) (b := b) hc
  simpa [utf8_nil] using hcut

/-- An ASCII text in front adds nothing. -/
theorem utf8_ascii_append_iff {a b : Bytes} (ha : ∀ c ∈ a, c < 128) : Utf8 (a ++ b) ↔ Utf8 b := by
  induction a with
  | nil => rfl
  | cons c a ih =>
    rw [List.cons_append, utf8_cons_iff (ha c (List.mem_cons_self ..))]
    exact ih fun d hd => ha d (List.mem_cons_of_mem _ hd)

theorem utf8_of_ascii {a : Bytes} (ha : ∀ c ∈ a, c < 128) : Utf8 a := by
  have h := (utf8_ascii_append_iff (b := []) ha).mpr utf8_nil
  rwa [List.append_nil] at h

/-- An ASCII text behind adds nothing. -/
theorem utf8_append_ascii_iff {a b : Bytes} (hb : ∀ c ∈ b, c < 128) : Utf8 (a ++ b) ↔ Utf8 a := by
  cases b with
  | nil => rw [List.append_nil]
  | cons c b =>
    rw [utf8_cut_iff (hb c (List.mem_cons_self ..)), and_iff_left]
    exact utf8_of_ascii fun d hd => hb d (List.mem_cons_of_mem _ hd)

/-- Texts that are joined by an ASCII byte. -/
theorem utf8_intercalate_iff {c : UInt8} (hc : c < 128) (texts : List Bytes) :
    Utf8 ([c].intercalate texts) ↔ ∀ text ∈ texts, Utf8 text := by
  induction texts with
  | nil => simp [utf8_nil]
  | cons text texts ih =>
    cases texts with
    | nil => simp
    | cons text' texts =>
      have hjoin : [c].intercalate (text :: text' :: texts) =
          text ++ c :: [c].intercalate (text' :: texts) := by
        rw [List.intercalate_cons_cons, List.append_assoc, List.singleton_append]
      rw [hjoin, utf8_cut_iff hc, ih, List.forall_mem_cons (a := text)]

end AmigaFleet.Lib

import AmigaFleet.Lib.Base64

/-!
# The base64 of the daemon

`mcpd/src/b64.c`.  The encoder walks the input by an index and packs three
bytes into an `unsigned int`; the decoder shifts six bits at a time into an
`int` that is never cleared, so its upper bits are what is left of earlier
groups.  The recursions below go over the rest of the input from the index on.

* `b64Encode_eq`: the encoder computes `Base64.encode`.
* `b64Decode_encode`: the decoder inverts it.
-/

namespace AmigaFleet.Mcpd.B64

open AmigaFleet.Lib

/-! ## The code -/

/-- `enc_tbl` -/
def encTbl : Bytes :=
  ("ABCDEFGHIJKLMNOPQRSTUVWXYZabcdefghijklmnopqrstuvwxyz0123456789+/".toList).map fun c =>
    UInt8.ofNat c.toNat

/-- `enc_tbl[(v >> shift) & 0x3f]` -/
def encAt (v : UInt32) (shift : UInt32) : UInt8 := encTbl.getD ((v >>> shift) &&& 0x3f).toNat 0

/-- `dec_tbl`; `none` is -1. -/
def decTbl (c : UInt8) : Option UInt32 :=
  if 65 ≤ c ∧ c ≤ 90 then some (c.toUInt32 - 65)
  else if 97 ≤ c ∧ c ≤ 122 then some (c.toUInt32 - 71)
  else if 48 ≤ c ∧ c ≤ 57 then some (c.toUInt32 + 4)
  else if c = 43 then some 62
  else if c = 47 then some 63
  else none

/-- `b64_encode` -/
def b64Encode : Bytes → Bytes
  | [] => []
  | [a] =>
    let v := a.toUInt32 <<< 16
    [encAt v 18, encAt v 12, 61, 61]
  | [a, b] =>
    let v := (a.toUInt32 <<< 16) ||| (b.toUInt32 <<< 8)
    [encAt v 18, encAt v 12, encAt v 6, 61]
  | a :: b :: c :: rest =>
    let v := (a.toUInt32 <<< 16) ||| (b.toUInt32 <<< 8) ||| c.toUInt32
    encAt v 18 :: encAt v 12 :: encAt v 6 :: encAt v 0 :: b64Encode rest

/-- `c == ' ' || c == '\n' || c == '\r' || c == '\t'` -/
def isSpace (c : UInt8) : Bool := c = 32 || c = 10 || c = 13 || c = 9

/-- The loop of `b64_decode`, with its locals `buf` and `bits`.  `none` for a
character that is not in the table. -/
def b64DecodeLoop : Bytes → UInt32 → UInt32 → Option Bytes
  | [], _, _ => some []
  | c :: rest, buf, bits =>
    if c = 61 then some []
    else if isSpace c then b64DecodeLoop rest buf bits
    else
      match decTbl c with
      | none => none
      | some d =>
        let buf := (buf <<< 6) ||| d
        let bits := bits + 6
        if bits ≥ 8 then
          let bits := bits - 8
          (b64DecodeLoop rest buf bits).map (((buf >>> bits) &&& 0xff).toUInt8 :: ·)
        else b64DecodeLoop rest buf bits

/-- `b64_decode` of the characters of a C string. -/
def b64Decode (text : Bytes) : Option Bytes := b64DecodeLoop text 0 0

/-! ## The encoder -/

theorem encTbl_digit {k : Nat} (h : k < 64) : encTbl.getD k 0 = Base64.digit k := by
  have hall : ∀ k : Fin 64, encTbl.getD k.val 0 = Base64.digit k.val := by decide +kernel
  exact hall ⟨k, h⟩

theorem shl_toNat (a : UInt8) {k : Nat} (hk : k + 8 ≤ 32) :
    (a.toUInt32 <<< UInt32.ofNat k).toNat = a.toNat * 2 ^ k := by
  have ha := a.toNat_lt
  have hlt : a.toNat * 2 ^ k < 2 ^ 32 := by
    calc a.toNat * 2 ^ k < 2 ^ 8 * 2 ^ k := Nat.mul_lt_mul_of_pos_right ha (Nat.two_pow_pos k)
      _ = 2 ^ (8 + k) := (Nat.pow_add ..).symm
      _ ≤ 2 ^ 32 := Nat.pow_le_pow_right (by decide) (by omega)
  have hmod : k % 2 ^ 32 % 32 = k := by omega
  rw [UInt32.toNat_shiftLeft, UInt8.toNat_toUInt32, UInt32.toNat_ofNat', hmod, Nat.shiftLeft_eq]
  exact Nat.mod_eq_of_lt hlt

/-- Two bytes in one word. -/
theorem pair_toNat (a b : UInt8) :
    ((a.toUInt32 <<< 16) ||| (b.toUInt32 <<< 8)).toNat = a.toNat * 65536 + b.toNat * 256 := by
  have hb := b.toNat_lt
  have h16 : (a.toUInt32 <<< 16).toNat = a.toNat * 2 ^ 16 := shl_toNat a (by decide)
  have h8 : (b.toUInt32 <<< 8).toNat = b.toNat * 2 ^ 8 := shl_toNat b (by decide)
  have hor : a.toNat * 2 ^ 16 ||| b.toNat * 2 ^ 8 = a.toNat * 2 ^ 16 + b.toNat * 2 ^ 8 := by
    rw [← Nat.shiftLeft_eq a.toNat, ← Nat.shiftLeft_add_eq_or_of_lt (by omega)]
  calc ((a.toUInt32 <<< 16) ||| (b.toUInt32 <<< 8)).toNat
      = a.toNat * 2 ^ 16 + b.toNat * 2 ^ 8 := by rw [UInt32.toNat_or, h16, h8, hor]
    _ = a.toNat * 65536 + b.toNat * 256 := by omega

/-- The three bytes of a group in one word. -/
theorem group_toNat (a b c : UInt8) :
    ((a.toUInt32 <<< 16) ||| (b.toUInt32 <<< 8) ||| c.toUInt32).toNat =
      a.toNat * 65536 + b.toNat * 256 + c.toNat := by
  have hc := c.toNat_lt
  rw [UInt32.toNat_or, pair_toNat, UInt8.toNat_toUInt32]
  have hlow : (a.toNat * 256 + b.toNat) * 2 ^ 8 ||| c.toNat =
      (a.toNat * 256 + b.toNat) * 2 ^ 8 + c.toNat := by
    rw [← Nat.shiftLeft_eq, Nat.shiftLeft_add_eq_or_of_lt (by omega)]
  rw [show a.toNat * 65536 + b.toNat * 256 = (a.toNat * 256 + b.toNat) * 2 ^ 8 by omega, hlow]

/-- The table lookup takes six bits of the word. -/
theorem encAt_digit (v : UInt32) {k : Nat} (hk : k < 32) :
    encAt v (UInt32.ofNat k) = Base64.digit (v.toNat / 2 ^ k % 64) := by
  have hmod : k % 2 ^ 32 % 32 = k := by omega
  have hmask : ((v >>> UInt32.ofNat k) &&& 0x3f).toNat = v.toNat / 2 ^ k % 64 := by
    rw [UInt32.toNat_and, UInt32.toNat_shiftRight, UInt32.toNat_ofNat', hmod,
      Nat.shiftRight_eq_div_pow]
    exact Nat.and_two_pow_sub_one_eq_mod _ 6
  rw [encAt, hmask]
  exact encTbl_digit (Nat.mod_lt _ (by decide))

/-- The digits that the encoder takes from a word. -/
theorem encAt_word {v : UInt32} {a b c : UInt8}
    (hv : v.toNat = a.toNat * 65536 + b.toNat * 256 + c.toNat) :
    [encAt v 18, encAt v 12, encAt v 6, encAt v 0] = (Base64.digits a b c).map Base64.digit := by
  have ha := a.toNat_lt
  have hb := b.toNat_lt
  have hc := c.toNat_lt
  have h18 : encAt v 18 = Base64.digit (v.toNat / 2 ^ 18 % 64) := encAt_digit v (by decide)
  have h12 : encAt v 12 = Base64.digit (v.toNat / 2 ^ 12 % 64) := encAt_digit v (by decide)
  have h6 : encAt v 6 = Base64.digit (v.toNat / 2 ^ 6 % 64) := encAt_digit v (by decide)
  have h0 : encAt v 0 = Base64.digit (v.toNat / 2 ^ 0 % 64) := encAt_digit v (by decide)
  rw [h18, h12, h6, h0, hv]
  show _ = [_, _, _, _]
  congr 1
  · congr 1
    omega
  congr 1
  · congr 1
    omega
  congr 1
  · congr 1
    omega
  congr 2
  omega

/-- The encoder is base64. -/
theorem b64Encode_eq (bytes : Bytes) : b64Encode bytes = Base64.encode bytes := by
  induction bytes using b64Encode.induct with
  | case1 => rfl
  | case2 a =>
    have hshl : (a.toUInt32 <<< 16).toNat = a.toNat * 2 ^ 16 := shl_toNat a (by decide)
    have hv : (a.toUInt32 <<< 16).toNat =
        a.toNat * 65536 + (0 : UInt8).toNat * 256 + (0 : UInt8).toNat := by
      rw [hshl]
      simp
    have hword := congrArg (List.take 2) (encAt_word hv)
    rw [← List.map_take] at hword
    rw [Base64.encode, ← hword]
    rfl
  | case3 a b =>
    have hv : ((a.toUInt32 <<< 16) ||| (b.toUInt32 <<< 8)).toNat =
        a.toNat * 65536 + b.toNat * 256 + (0 : UInt8).toNat := by
      rw [pair_toNat]
      simp
    have hword := congrArg (List.take 3) (encAt_word hv)
    rw [← List.map_take] at hword
    rw [Base64.encode, ← hword]
    rfl
  | case4 a b c rest ih =>
    rw [Base64.encode, ← encAt_word (group_toNat a b c), ← ih]
    rfl

/-! ## The decoder -/

theorem decTbl_digit {k : Nat} (h : k < 64) : decTbl (Base64.digit k) = some (UInt32.ofNat k) ∧
    Base64.digit k ≠ 61 ∧ isSpace (Base64.digit k) = false := by
  have hall : ∀ k : Fin 64, decTbl (Base64.digit k.val) = some (UInt32.ofNat k.val) ∧
      Base64.digit k.val ≠ 61 ∧ isSpace (Base64.digit k.val) = false := by decide +kernel
  exact hall ⟨k, h⟩

/-- `buf` after one digit. -/
def push (buf : UInt32) (k : Nat) : UInt32 := (buf <<< 6) ||| UInt32.ofNat k

/-- The byte that is taken out above `bits`. -/
def out (buf bits : UInt32) : UInt8 := ((buf >>> bits) &&& 0xff).toUInt8

theorem push_toNat (buf : UInt32) {k : Nat} (hk : k < 64) :
    (push buf k).toNat = (buf.toNat * 64 + k) % 2 ^ 32 := by
  have hk32 : k % 2 ^ 32 = k := Nat.mod_eq_of_lt (by omega)
  have hshift : (buf <<< 6).toNat = buf.toNat * 64 % 2 ^ 32 := by
    rw [UInt32.toNat_shiftLeft, Nat.shiftLeft_eq]
    rfl
  have hmul : buf.toNat * 64 % 2 ^ 32 = (buf.toNat % 2 ^ 26) * 2 ^ 6 := by omega
  rw [push, UInt32.toNat_or, hshift, UInt32.toNat_ofNat', hk32, hmul, ← Nat.shiftLeft_eq,
    ← Nat.shiftLeft_add_eq_or_of_lt (by omega), Nat.shiftLeft_eq]
  omega

theorem out_toNat (buf : UInt32) {bits : Nat} (hb : bits < 32) :
    (out buf (UInt32.ofNat bits)).toNat = buf.toNat / 2 ^ bits % 256 := by
  have hmod : bits % 2 ^ 32 % 32 = bits := by omega
  rw [out, UInt32.toNat_toUInt8, UInt32.toNat_and, UInt32.toNat_shiftRight, UInt32.toNat_ofNat',
    hmod, Nat.shiftRight_eq_div_pow]
  have hmask : buf.toNat / 2 ^ bits &&& (0xff : UInt32).toNat = buf.toNat / 2 ^ bits % 256 :=
    Nat.and_two_pow_sub_one_eq_mod _ 8
  rw [hmask]
  omega

/-- One digit in the loop. -/
theorem loop_digit {k : Nat} (hk : k < 64) (rest : Bytes) (buf bits : UInt32) :
    b64DecodeLoop (Base64.digit k :: rest) buf bits =
      if bits + 6 ≥ 8 then
        (b64DecodeLoop rest (push buf k) (bits + 6 - 8)).map (out (push buf k) (bits + 6 - 8) :: ·)
      else b64DecodeLoop rest (push buf k) (bits + 6) := by
  obtain ⟨hdec, hpad, hspace⟩ := decTbl_digit hk
  rw [b64DecodeLoop, if_neg hpad, hspace, hdec]
  rfl

/-- Two digits from a group boundary on give the first byte. -/
theorem loop_fst (a b : UInt8) (rest : Bytes) (buf : UInt32) :
    ∃ buf', buf'.toNat % 16 = b.toNat / 16 ∧
      b64DecodeLoop (((Base64.digits a b 0).take 2).map Base64.digit ++ rest) buf 0 =
        (b64DecodeLoop rest buf' 4).map (a :: ·) := by
  have ha := a.toNat_lt
  have hb := b.toNat_lt
  have h1 : a.toNat / 4 < 64 := by omega
  have h2 : a.toNat % 4 * 16 + b.toNat / 16 < 64 := by omega
  refine ⟨push (push buf (a.toNat / 4)) (a.toNat % 4 * 16 + b.toNat / 16), ?_, ?_⟩
  · rw [push_toNat _ h2]
    omega
  · have hout : out (push (push buf (a.toNat / 4)) (a.toNat % 4 * 16 + b.toNat / 16)) 4 = a := by
      apply UInt8.toNat_inj.mp
      have heq := out_toNat (push (push buf (a.toNat / 4)) (a.toNat % 4 * 16 + b.toNat / 16))
        (show 4 < 32 by decide)
      refine heq.trans ?_
      rw [push_toNat _ h2, push_toNat _ h1]
      omega
    show b64DecodeLoop (Base64.digit (a.toNat / 4) ::
      Base64.digit (a.toNat % 4 * 16 + b.toNat / 16) :: rest) buf 0 = _
    rw [loop_digit h1, if_neg (by decide), loop_digit h2, if_pos (by decide)]
    show (b64DecodeLoop rest _ 4).map (out _ 4 :: ·) = _
    rw [hout]

/-- The third digit gives the second byte. -/
theorem loop_snd {b c : UInt8} {buf : UInt32} (hbuf : buf.toNat % 16 = b.toNat / 16)
    (rest : Bytes) :
    ∃ buf', buf'.toNat % 4 = c.toNat / 64 ∧
      b64DecodeLoop (Base64.digit (b.toNat % 16 * 4 + c.toNat / 64) :: rest) buf 4 =
        (b64DecodeLoop rest buf' 2).map (b :: ·) := by
  have hb := b.toNat_lt
  have hc := c.toNat_lt
  have h3 : b.toNat % 16 * 4 + c.toNat / 64 < 64 := by omega
  refine ⟨push buf (b.toNat % 16 * 4 + c.toNat / 64), ?_, ?_⟩
  · rw [push_toNat _ h3]
    omega
  · have hout : out (push buf (b.toNat % 16 * 4 + c.toNat / 64)) 2 = b := by
      apply UInt8.toNat_inj.mp
      refine (out_toNat _ (show 2 < 32 by decide)).trans ?_
      rw [push_toNat _ h3]
      omega
    rw [loop_digit h3, if_pos (by decide)]
    show (b64DecodeLoop rest _ 2).map (out _ 2 :: ·) = _
    rw [hout]

/-- The fourth digit gives the third byte, and ends the group. -/
theorem loop_trd {c : UInt8} {buf : UInt32} (hbuf : buf.toNat % 4 = c.toNat / 64) (rest : Bytes) :
    ∃ buf', b64DecodeLoop (Base64.digit (c.toNat % 64) :: rest) buf 2 =
      (b64DecodeLoop rest buf' 0).map (c :: ·) := by
  have hc := c.toNat_lt
  have h4 : c.toNat % 64 < 64 := Nat.mod_lt _ (by decide)
  refine ⟨push buf (c.toNat % 64), ?_⟩
  have hout : out (push buf (c.toNat % 64)) 0 = c := by
    apply UInt8.toNat_inj.mp
    refine (out_toNat _ (show 0 < 32 by decide)).trans ?_
    rw [push_toNat _ h4]
    omega
  rw [loop_digit h4, if_pos (by decide)]
  show (b64DecodeLoop rest _ 0).map (out _ 0 :: ·) = _
  rw [hout]

/-- The loop at a group boundary reads an encoded text, whatever is left in
`buf`. -/
theorem loop_encode (bytes : Bytes) (buf : UInt32) :
    b64DecodeLoop (Base64.encode bytes) buf 0 = some bytes := by
  induction bytes using Base64.encode.induct generalizing buf with
  | case1 => rfl
  | case2 a =>
    obtain ⟨buf₁, _, h₁⟩ := loop_fst a 0 [Base64.pad, Base64.pad] buf
    rw [Base64.encode, h₁]
    rfl
  | case3 a b =>
    obtain ⟨buf₁, hbuf₁, h₁⟩ :=
      loop_fst a b [Base64.digit (b.toNat % 16 * 4 + (0 : UInt8).toNat / 64), Base64.pad] buf
    obtain ⟨buf₂, _, h₂⟩ := loop_snd (c := 0) hbuf₁ [Base64.pad]
    show b64DecodeLoop (((Base64.digits a b 0).take 2).map Base64.digit ++ [_, Base64.pad]) buf 0 = _
    rw [h₁, h₂]
    rfl
  | case4 a b c rest ih =>
    obtain ⟨buf₁, hbuf₁, h₁⟩ := loop_fst a b
      (Base64.digit (b.toNat % 16 * 4 + c.toNat / 64) :: Base64.digit (c.toNat % 64) ::
        Base64.encode rest) buf
    obtain ⟨buf₂, hbuf₂, h₂⟩ :=
      loop_snd (c := c) hbuf₁ (Base64.digit (c.toNat % 64) :: Base64.encode rest)
    obtain ⟨buf₃, h₃⟩ := loop_trd hbuf₂ (Base64.encode rest)
    show b64DecodeLoop (((Base64.digits a b 0).take 2).map Base64.digit ++
      Base64.digit _ :: Base64.digit (c.toNat % 64) :: Base64.encode rest) buf 0 = _
    rw [h₁, h₂, h₃, ih]
    rfl

/-- The decoder inverts the encoding. -/
theorem b64Decode_encode (bytes : Bytes) : b64Decode (Base64.encode bytes) = some bytes :=
  loop_encode bytes 0

/-- The decoder writes no more bytes than there are characters. -/
theorem b64DecodeLoop_length (text : Bytes) (buf bits : UInt32) {bytes : Bytes}
    (h : b64DecodeLoop text buf bits = some bytes) : bytes.length ≤ text.length := by
  induction text generalizing buf bits bytes with
  | nil =>
    cases h
    exact Nat.le_refl _
  | cons c rest ih =>
    rw [List.length_cons]
    unfold b64DecodeLoop at h
    split at h
    · cases h
      simp
    · split at h
      · exact Nat.le_succ_of_le (ih _ _ h)
      · split at h
        · cases h
        · dsimp only at h
          split at h
          · obtain ⟨tail, htail, rfl⟩ := Option.map_eq_some_iff.mp h
            rw [List.length_cons]
            exact Nat.succ_le_succ (ih _ _ htail)
          · exact Nat.le_succ_of_le (ih _ _ h)

theorem b64Decode_length {text bytes : Bytes} (h : b64Decode text = some bytes) :
    bytes.length ≤ text.length :=
  b64DecodeLoop_length text 0 0 h

end AmigaFleet.Mcpd.B64

import AmigaFleet.Lib.Region
import AmigaFleet.Mcpd.B64

/-!
# Which texts `b64_decode` reads

Blanks are passed over wherever they stand, and the decoder stops at the first
`=` without a look at what follows.  So the encoding of some bytes is read back
with blanks anywhere in it (`b64_round_trip`), but a text may be read that is no
encoding of anything: `b64Decode_strict_iff` says which ones are not.

`b64EncodeInto` and `b64DecodeInto` are the two functions with their writes
through `p`.
-/

namespace AmigaFleet.Mcpd.B64

open AmigaFleet.Lib

/-! ## Blanks -/

/-- A text without its blanks. -/
def stripped (text : Bytes) : Bytes := text.filter fun c => !isSpace c

@[simp] theorem stripped_cons_space {c : UInt8} (hc : isSpace c = true) (text : Bytes) :
    stripped (c :: text) = stripped text := by simp [stripped, hc]

@[simp] theorem stripped_cons {c : UInt8} (hc : isSpace c = false) (text : Bytes) :
    stripped (c :: text) = c :: stripped text := by simp [stripped, hc]

/-- The loop reads a text as if the blanks were not there. -/
theorem loop_stripped (text : Bytes) (buf bits : UInt32) :
    b64DecodeLoop (stripped text) buf bits = b64DecodeLoop text buf bits := by
  induction text generalizing buf bits with
  | nil => rfl
  | cons c text ih =>
    cases hspace : isSpace c with
    | true =>
      have hpad : c ≠ 61 := by
        rintro rfl
        cases hspace
      rw [stripped_cons_space hspace, ih, b64DecodeLoop, if_neg hpad, if_pos hspace]
    | false =>
      rw [stripped_cons hspace, b64DecodeLoop, b64DecodeLoop]
      simp only [ih]

theorem b64Decode_stripped (text : Bytes) : b64Decode (stripped text) = b64Decode text :=
  loop_stripped text 0 0

/-! ## Digits -/

/-- The values of the characters in front of the first `=`; `none` when one of
them is not in the table. -/
def digitsOf (text : Bytes) : Option (List Nat) :=
  (text.takeWhile (· ≠ 61)).mapM fun c => (decTbl c).map UInt32.toNat

/-- The text from the first `=` on. -/
def tailOf (text : Bytes) : Bytes := text.dropWhile (· ≠ 61)

theorem decTbl_value {c : UInt8} {d : UInt32} (h : decTbl c = some d) :
    d.toNat < 64 ∧ Base64.digit d.toNat = c := by
  have hall : ∀ i : Fin 256, (decTbl (UInt8.ofNat i.val)).all (fun d =>
      d.toNat < 64 ∧ Base64.digit d.toNat = UInt8.ofNat i.val) = true := by decide +kernel
  have hc := hall ⟨c.toNat, c.toNat_lt⟩
  rw [UInt8.ofNat_toNat, h, Option.all_some] at hc
  exact of_decide_eq_true hc

theorem digits_of_mapM {cs : Bytes} {ds : List Nat}
    (h : cs.mapM (fun c => (decTbl c).map UInt32.toNat) = some ds) :
    cs = ds.map Base64.digit ∧ ∀ k ∈ ds, k < 64 := by
  induction cs generalizing ds with
  | nil =>
    cases h
    exact ⟨rfl, by simp⟩
  | cons c cs ih =>
    simp only [List.mapM_cons, Option.bind_eq_bind, Option.bind_eq_some_iff,
      Option.map_eq_some_iff] at h
    obtain ⟨_, ⟨d, hd, rfl⟩, es, hes, hds⟩ := h
    cases hds
    obtain ⟨hcs, hlt⟩ := ih hes
    obtain ⟨hd64, hdigit⟩ := decTbl_value hd
    exact ⟨by rw [List.map_cons, hdigit, ← hcs], List.forall_mem_cons.mpr ⟨hd64, hlt⟩⟩

theorem digitsOf_eq {text : Bytes} {ds : List Nat} (h : digitsOf text = some ds) :
    text = ds.map Base64.digit ++ tailOf text ∧ ∀ k ∈ ds, k < 64 := by
  obtain ⟨hcs, hlt⟩ := digits_of_mapM h
  exact ⟨by rw [← hcs]; exact (List.takeWhile_append_dropWhile ..).symm, hlt⟩

theorem digitsOf_cons {c : UInt8} (hc : c ≠ 61) (text : Bytes) :
    digitsOf (c :: text) = (decTbl c).bind fun d => (digitsOf text).map (d.toNat :: ·) := by
  unfold digitsOf
  rw [List.takeWhile_cons_of_pos (by simpa using hc), List.mapM_cons]
  cases decTbl c with
  | none => rfl
  | some d =>
    cases (text.takeWhile (· ≠ 61)).mapM fun c => (decTbl c).map UInt32.toNat with
    | none => rfl
    | some ds => rfl

/-- Without blanks, a text is refused for a character that is not in the
table, and for nothing else. -/
theorem loop_isSome {text : Bytes} (h : ∀ c ∈ text, isSpace c = false) (buf bits : UInt32) :
    (b64DecodeLoop text buf bits).isSome = (digitsOf text).isSome := by
  induction text generalizing buf bits with
  | nil => rfl
  | cons c text ih =>
    rw [List.forall_mem_cons] at h
    by_cases hpad : c = 61
    · rw [b64DecodeLoop, if_pos hpad]
      simp [digitsOf, hpad]
    · rw [b64DecodeLoop, if_neg hpad, if_neg (by simp [h.1]), digitsOf_cons hpad]
      cases decTbl c with
      | none => rfl
      | some d =>
        rw [Option.bind_some, Option.isSome_map]
        dsimp only
        split
        · rw [Option.isSome_map]
          exact ih h.2 ..
        · exact ih h.2 ..

theorem b64Decode_isSome (text : Bytes) :
    (b64Decode text).isSome = (digitsOf (stripped text)).isSome := by
  have hblank : ∀ c ∈ stripped text, isSpace c = false := by simp [stripped]
  rw [← b64Decode_stripped]
  exact loop_isSome hblank 0 0

/-! ## Strictness -/

/-- What stands behind the digits of a canonical text is its tail. -/
theorem takeWhile_canonical {ds : List Nat} (hlt : ∀ k ∈ ds, k < 64) {tail : Bytes}
    (h : Base64.Canonical ds tail) :
    (ds.map Base64.digit ++ tail).takeWhile (· ≠ 61) = ds.map Base64.digit ∧
      tailOf (ds.map Base64.digit ++ tail) = tail := by
  have hdigits : ∀ c ∈ ds.map Base64.digit, decide (c ≠ 61) = true := by
    intro c hc
    obtain ⟨k, hk, rfl⟩ := List.mem_map.mp hc
    exact decide_eq_true (Base64.digit_ne_pad (hlt k hk))
  have htail : tail.takeWhile (· ≠ 61) = [] ∧ tail.dropWhile (· ≠ 61) = tail := by
    cases tail with
    | nil => exact ⟨rfl, rfl⟩
    | cons c tail =>
      have hc : c = 61 := h.tail_head c rfl
      simp [hc]
  constructor
  · rw [List.takeWhile_append_of_pos hdigits, htail.1, List.append_nil]
  · rw [tailOf, List.dropWhile_append_of_pos hdigits, htail.2]

/-- The digits and the padding of a text are canonical exactly if it is the
encoding of some bytes. -/
theorem canonical_iff {text : Bytes} {ds : List Nat} (hds : digitsOf text = some ds) :
    Base64.Canonical ds (tailOf text) ↔ ∃ bytes, text = Base64.encode bytes := by
  obtain ⟨htext, hlt⟩ := digitsOf_eq hds
  constructor
  · intro hcan
    obtain ⟨bytes, hbytes⟩ := Base64.canonical_encode hlt hcan
    exact ⟨bytes, htext.trans hbytes.symm⟩
  · rintro ⟨bytes, hbytes⟩
    obtain ⟨es, tail, henc, hes, hcan⟩ := Base64.encode_canonical bytes
    obtain ⟨htake, htail⟩ := takeWhile_canonical hes hcan
    have htake' : text.takeWhile (· ≠ 61) = ds.map Base64.digit := (digits_of_mapM hds).1
    have heq : ds = es := by
      apply Base64.map_digit_inj hlt hes
      rw [← htake', ← htake, hbytes, henc]
    rw [heq, hbytes, henc, htail]
    exact hcan

/-- A text that is read is the encoding of the bytes that come out, unless its
digits and its padding are not canonical. -/
theorem b64Decode_strict_iff (text : Bytes) :
    (∀ bytes, b64Decode text = some bytes → stripped text = Base64.encode bytes) ↔
      ∀ ds, digitsOf (stripped text) = some ds → Base64.Canonical ds (tailOf (stripped text)) := by
  constructor
  · intro h ds hds
    have hread : (b64Decode text).isSome = true := by rw [b64Decode_isSome, hds]; rfl
    obtain ⟨bytes, hbytes⟩ := Option.isSome_iff_exists.mp hread
    exact (canonical_iff hds).mpr ⟨bytes, h bytes hbytes⟩
  · intro h bytes hbytes
    have hsome : (digitsOf (stripped text)).isSome = true := by rw [← b64Decode_isSome, hbytes]; rfl
    obtain ⟨ds, hds⟩ := Option.isSome_iff_exists.mp hsome
    obtain ⟨bytes', henc⟩ := (canonical_iff hds).mp (h ds hds)
    have hread : b64Decode text = some bytes' := by
      rw [← b64Decode_stripped, henc, b64Decode_encode]
    rw [henc, Option.some.inj (hbytes.symm.trans hread)]

/-- `QUJ`, an encoding that has lost its last character, is read. -/
theorem cut_off_accepted : ¬ ∀ text bytes : Bytes, b64Decode text = some bytes →
    stripped text = Base64.encode bytes := by
  intro h
  have hcut := h [81, 85, 74] [65, 66] (by decide)
  exact absurd hcut (by decide)

/-! ## The writes -/

/-- The loop of `b64_encode` and its end, with the writes through `p`. -/
def encodeInto : Bytes → Region UInt8 → Option (Region UInt8)
  | [], p => some p
  | [a], p =>
    let v := a.toUInt32 <<< 16
    p.puts [encAt v 18, encAt v 12, 61, 61]
  | [a, b], p =>
    let v := (a.toUInt32 <<< 16) ||| (b.toUInt32 <<< 8)
    p.puts [encAt v 18, encAt v 12, encAt v 6, 61]
  | a :: b :: c :: rest, p =>
    let v := (a.toUInt32 <<< 16) ||| (b.toUInt32 <<< 8) ||| c.toUInt32
    (p.puts [encAt v 18, encAt v 12, encAt v 6, encAt v 0]).bind (encodeInto rest)

/-- `b64_encode` with its buffer; sizes are 32 bits wide. -/
def b64EncodeInto (input : Bytes) : Option (Region UInt8) :=
  let outN := (input.length + 2) % 2 ^ 32 / 3 * 4 % 2 ^ 32
  (encodeInto input (Region.alloc ((outN + 1) % 2 ^ 32))).bind (Region.put 0)

/-- The loop of `b64_decode` with its writes through `p`.  The inner `none` is
the NULL for a character that is not in the table. -/
def decodeInto : Bytes → UInt32 → UInt32 → Region UInt8 → Option (Option (Region UInt8))
  | [], _, _, p => some (some p)
  | c :: rest, buf, bits, p =>
    if c = 61 then some (some p)
    else if isSpace c then decodeInto rest buf bits p
    else
      match decTbl c with
      | none => some none
      | some d =>
        let buf := (buf <<< 6) ||| d
        let bits := bits + 6
        if bits ≥ 8 then
          let bits := bits - 8
          (p.put ((buf >>> bits) &&& 0xff).toUInt8).bind (decodeInto rest buf bits)
        else decodeInto rest buf bits p

/-- `b64_decode` with its buffer. -/
def b64DecodeInto (text : Bytes) : Option (Option (Region UInt8)) :=
  decodeInto text 0 0 (Region.alloc ((text.length + 1) % 2 ^ 32))

theorem encodeInto_eq (input : Bytes) (p : Region UInt8) :
    encodeInto input p = p.puts (b64Encode input) := by
  induction input using b64Encode.induct generalizing p with
  | case1 => rfl
  | case2 a => rfl
  | case3 a b => rfl
  | case4 a b c rest ih =>
    show Option.bind _ (encodeInto rest) = p.puts ([_, _, _, _] ++ b64Encode rest)
    rw [Region.puts_append, funext ih]

/-- The decoder writes one byte for a character at most. -/
theorem decodeInto_eq {text : Bytes} {p : Region UInt8} (h : p.data.length + text.length ≤ p.size)
    (buf bits : UInt32) :
    ∃ res, decodeInto text buf bits p = some res ∧
      res.map Region.data = (b64DecodeLoop text buf bits).map (p.data ++ ·) := by
  induction text generalizing p buf bits with
  | nil => exact ⟨some p, rfl, by simp [b64DecodeLoop]⟩
  | cons c rest ih =>
    rw [List.length_cons] at h
    rw [decodeInto, b64DecodeLoop]
    split
    · exact ⟨some p, rfl, by simp⟩
    split
    · exact ih (by omega) buf bits
    cases decTbl c with
    | none => exact ⟨none, rfl, rfl⟩
    | some d =>
      dsimp only
      split
      · rw [Region.put_eq _ (by omega), Option.bind_some, Option.map_map]
        obtain ⟨res, hres, hdata⟩ := ih (p := ⟨p.size, p.data ++ [_], _⟩)
          (by simp only [List.length_append, List.length_singleton]; omega) _ _
        refine ⟨res, hres, hdata.trans ?_⟩
        simp [Function.comp_def]
      · exact ih (by omega) _ _

/-- The size of `b64_encode`'s buffer is the length of its text and the NUL. -/
theorem b64EncodeInto_eq {input : Bytes} (h : input.length < 2 ^ 31) :
    ∃ p, b64EncodeInto input = some p ∧ p.data = b64Encode input ++ [0] := by
  have hlen : (b64Encode input).length = (input.length + 2) / 3 * 4 := by
    rw [b64Encode_eq, Base64.length_encode]
  have hsize : ((input.length + 2) % 2 ^ 32 / 3 * 4 % 2 ^ 32 + 1) % 2 ^ 32 =
      (b64Encode input ++ [0]).length := by
    rw [List.length_append, hlen, List.length_singleton]
    omega
  refine ⟨⟨_, b64Encode input ++ [0], Nat.le_of_eq hsize.symm⟩, ?_, rfl⟩
  rw [b64EncodeInto, ← Region.alloc_puts (Nat.le_of_eq hsize.symm), Region.puts_append,
    encodeInto_eq]
  exact congrArg _ (funext fun p => (Region.puts_singleton 0 p).symm)

/-- Encoding and decoding.  A C string and its NUL lie within 32 bits. -/
theorem b64_round_trip {x text : Bytes} (hx : x.length < 2 ^ 31)
    (htext : stripped text = Base64.encode x) (hsize : text.length + 1 < 2 ^ 32) :
    b64Encode x = Base64.encode x ∧ b64Decode text = some x ∧
      (∃ p, b64EncodeInto x = some p ∧ p.data = Base64.encode x ++ [0]) ∧
      ∃ p, b64DecodeInto text = some (some p) ∧ p.data = x := by
  have hread : b64Decode text = some x := by rw [← b64Decode_stripped, htext, b64Decode_encode]
  refine ⟨b64Encode_eq x, hread, ?_, ?_⟩
  · rw [← b64Encode_eq]
    exact b64EncodeInto_eq hx
  · have hroom : (text.length + 1) % 2 ^ 32 = text.length + 1 := Nat.mod_eq_of_lt hsize
    have hfits : (Region.alloc ((text.length + 1) % 2 ^ 32) : Region UInt8).data.length +
        text.length ≤ (text.length + 1) % 2 ^ 32 := by
      rw [hroom, Region.alloc_data, List.length_nil]
      omega
    obtain ⟨res, hres, hdata⟩ := decodeInto_eq hfits 0 0
    have hloop : b64DecodeLoop text 0 0 = some x := hread
    rw [hloop] at hdata
    obtain ⟨p, hp, hpx⟩ := Option.map_eq_some_iff.mp hdata
    exact ⟨p, by rw [b64DecodeInto, hres, hp], by simpa using hpx⟩

theorem b64_round_trip_sample :
    b64Encode [65, 66] = Base64.encode [65, 66] ∧ b64Decode [81, 85, 10, 73, 61] = some [65, 66] ∧
      (∃ p, b64EncodeInto [65, 66] = some p ∧ p.data = Base64.encode [65, 66] ++ [0]) ∧
      ∃ p, b64DecodeInto [81, 85, 10, 73, 61] = some (some p) ∧ p.data = [65, 66] :=
  b64_round_trip (by decide) (by decide) (by decide)

end AmigaFleet.Mcpd.B64

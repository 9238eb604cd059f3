import AmigaFleet.Lib.Blocks
import AmigaFleet.Lib.Hex
import AmigaFleet.Mcpd.B64
import AmigaFleet.Mcpd.Rpc

/-!
# sys.read_pa

The handler of `mcpd/src/methods/sys.c` that copies physical memory and decodes
it in words.  It multiplies in 64 bits, allocates and copies in 32, and decodes
for as long as the 64-bit count says.

`PaMachine` is what the machine answers during one call.  An access that the
kernel traps on and a read behind the end of the buffer are no answer but a
`PaFault`.

* `readPaParams_ok`: what the checks let through.
* `paWord_eq`, `paWords_eq`: the loop decodes the blocks of its buffer.
* `paWords_outside`: a count that is too large for the buffer.
* `readPa_true_iff`: the requests that are answered with the truth.
-/

namespace AmigaFleet.Mcpd.Sys

open AmigaFleet.Lib AmigaFleet.Mcpd.B64

/-! ## The request -/

structure PaRequest where
  pa : Int
  count : Int
  width : Int
deriving DecidableEq, Repr

/-- A product of two `long long`. -/
def mulLongLong (a b : Int) : Int := (a * b).bmod (2 ^ 64)

/-- The checks of `sys_read_pa`. -/
def readPaParams (params : Option CJson) : Except CJson PaRequest :=
  let pa := pInt params "pa" (-1)
  let count := pInt params "count" 1
  let width := pInt params "width" 4
  if pa < 0 then .error (rpcMakeError mcpdErrInvparams "pa required (>=0)" none)
  else if width ≠ 1 ∧ width ≠ 2 ∧ width ≠ 4 then
    .error (rpcMakeError mcpdErrInvparams "width must be 1, 2, or 4" none)
  else if pa.tmod width ≠ 0 then
    .error (rpcMakeError mcpdErrInvparams "pa must be aligned to width" none)
  else if count < 1 ∨ mulLongLong count width > 4096 then
    .error (rpcMakeError mcpdErrInvparams "count*width out of range [1..4096]" none)
  else .ok ⟨pa, count, width⟩

namespace PaRequest

/-- `(size_t)(count * width)` -/
def totalBytes (q : PaRequest) : Nat := (mulLongLong q.count q.width % 2 ^ 32).toNat

/-- `(uint32)pa` -/
def address (q : PaRequest) : UInt32 := UInt32.ofNat (q.pa % 2 ^ 32).toNat

end PaRequest

/-! ## The copy and the decoding -/

/-- The answers of the machine; `none` is an address that the kernel traps on. -/
structure PaMachine where
  allocates : Bool := true
  encodes : Bool := true
  memory : UInt32 → Option UInt8

inductive PaFault where
  | dsi
  | outside (index : Nat)
deriving DecidableEq, Repr

/-- `super_read_pa` -/
def superReadPa (m : PaMachine) : UInt32 → Nat → Except PaFault Bytes
  | _, 0 => .ok []
  | pa, len + 1 => do
    match m.memory pa with
    | none => .error .dsi
    | some c =>
      let rest ← superReadPa m (pa + 1) len
      .ok (c :: rest)

/-- `buf[index]` -/
def bufAt (buf : Bytes) (index : Nat) : Except PaFault UInt8 :=
  match buf[index]? with
  | some c => .ok c
  | none => .error (.outside index)

/-- One value of the decode loop. -/
def paWord (buf : Bytes) (width : Int) (i : Nat) : Except PaFault UInt32 := do
  if width = 1 then
    let a ← bufAt buf i
    .ok a.toUInt32
  else if width = 2 then
    let a ← bufAt buf (i * 2)
    let b ← bufAt buf (i * 2 + 1)
    .ok ((a.toUInt32 <<< 8) ||| b.toUInt32)
  else
    let a ← bufAt buf (i * 4)
    let b ← bufAt buf (i * 4 + 1)
    let c ← bufAt buf (i * 4 + 2)
    let d ← bufAt buf (i * 4 + 3)
    .ok ((a.toUInt32 <<< 24) ||| (b.toUInt32 <<< 16) ||| (c.toUInt32 <<< 8) ||| d.toUInt32)

/-- The decode loop with `n` rounds to go. -/
def paWords (buf : Bytes) (width : Int) : Nat → Nat → Except PaFault (List UInt32)
  | 0, _ => .ok []
  | n + 1, i => do
    let val ← paWord buf width i
    let vals ← paWords buf width n (i + 1)
    .ok (val :: vals)

/-- `snprintf(hex, sizeof(hex), "0x%0*lx", width * 2, val)`, for a value of this width. -/
def paHex (width : Int) (val : UInt32) : Bytes :=
  ascii "0x" ++ (List.range (2 * width.toNat)).reverse.map fun k =>
    hexDigit (val.toNat / 16 ^ k % 16)

/-- The result object. -/
def readPaResult (m : PaMachine) (q : PaRequest) (buf : Bytes) (vals : List UInt32) : CJson :=
  .object ([(ascii "pa", cNumber q.pa), (ascii "count", cNumber q.count),
    (ascii "width", cNumber q.width), (ascii "bytes", cNumber q.totalBytes),
    (ascii "values", .array (vals.map fun val => cNumber val.toNat)),
    (ascii "values_hex", .array (vals.map fun val => .string (paHex q.width val)))] ++
    if m.encodes then [(ascii "bytes_b64", .string (b64Encode buf))] else [])

/-- `sys_read_pa` -/
def sysReadPa (m : PaMachine) (params : Option CJson) : Except PaFault Outcome :=
  match readPaParams params with
  | .error e => .ok (.error e)
  | .ok q =>
    if m.allocates = false then
      .ok (.error (rpcMakeError mcpdErrInternal "AllocVecTags failed" none))
    else do
      let buf ← superReadPa m q.address q.totalBytes
      let vals ← paWords buf q.width q.count.toNat 0
      .ok (.ok (readPaResult m q buf vals))

/-! ## What the checks let through -/

/-- The width is one of the three. -/
def PaRequest.Wide (q : PaRequest) : Prop := q.width = 1 ∨ q.width = 2 ∨ q.width = 4

theorem readPaParams_ok {params : Option CJson} {q : PaRequest} (h : readPaParams params = .ok q) :
    0 ≤ q.pa ∧ q.Wide ∧ 1 ≤ q.count ∧ mulLongLong q.count q.width ≤ 4096 := by
  unfold readPaParams at h
  dsimp only at h
  split_ifs at h with hpa hwidth haligned hcount
  obtain rfl := Except.ok.inj h
  refine ⟨Int.not_lt.mp hpa, ?_, ?_, ?_⟩
  · show pInt params "width" 4 = 1 ∨ pInt params "width" 4 = 2 ∨ pInt params "width" 4 = 4
    omega
  · show 1 ≤ pInt params "count" 1
    omega
  · show mulLongLong (pInt params "count" 1) (pInt params "width" 4) ≤ 4096
    omega

/-- A product below `2 ^ 63` does not wrap. -/
theorem mulLongLong_eq {a b : Int} (h0 : 0 ≤ a * b) (h : a * b < 2 ^ 63) :
    mulLongLong a b = a * b := by
  rw [mulLongLong, Int.bmod_eq_of_le] <;> omega

/-! ## The loop -/

/-- The number that bytes are in big-endian order. -/
def bigEndian (bytes : Bytes) : Nat := bytes.foldl (fun n c => n * 256 + c.toNat) 0

theorem bufAt_drop {buf : Bytes} {n k : Nat} {c : UInt8} (h : (buf.drop n)[k]? = some c) :
    bufAt buf (n + k) = .ok c := by
  rw [List.getElem?_drop] at h
  rw [bufAt, h]

theorem bufAt_end (buf : Bytes) {n : Nat} (h : n = buf.length) :
    bufAt buf n = .error (.outside buf.length) := by
  rw [bufAt, List.getElem?_eq_none (Nat.le_of_eq h.symm), h]

theorem bufAt_lt (buf : Bytes) {n : Nat} (h : n < buf.length) : ∃ c, bufAt buf n = .ok c :=
  ⟨buf[n], by rw [bufAt, List.getElem?_eq_getElem h]⟩

theorem or_low (high : UInt32) (c : UInt8) (h : high.toNat % 256 = 0) :
    (high ||| c.toUInt32).toNat = high.toNat + c.toNat := by
  have hc := c.toNat_lt
  have hhigh : high.toNat = high.toNat / 256 * 2 ^ 8 := by omega
  rw [UInt32.toNat_or, UInt8.toNat_toUInt32, hhigh, ← Nat.shiftLeft_eq,
    Nat.shiftLeft_add_eq_or_of_lt (by omega)]

theorem word_toNat (a b c d : UInt8) :
    ((a.toUInt32 <<< 24) ||| (b.toUInt32 <<< 16) ||| (c.toUInt32 <<< 8) ||| d.toUInt32).toNat =
      bigEndian [a, b, c, d] := by
  have hb := b.toNat_lt
  have hc := c.toNat_lt
  have h24 : (a.toUInt32 <<< 24).toNat = a.toNat * 2 ^ 24 := shl_toNat a (by decide)
  have h16 : (b.toUInt32 <<< 16).toNat = b.toNat * 2 ^ 16 := shl_toNat b (by decide)
  have h8 : (c.toUInt32 <<< 8).toNat = c.toNat * 2 ^ 8 := shl_toNat c (by decide)
  have htop : ((a.toUInt32 <<< 24) ||| (b.toUInt32 <<< 16)).toNat =
      (a.toNat * 256 + b.toNat) * 2 ^ 16 := by
    rw [UInt32.toNat_or, h24, h16, ← Nat.shiftLeft_eq a.toNat,
      ← Nat.shiftLeft_add_eq_or_of_lt (by omega), Nat.shiftLeft_eq]
    omega
  have hthree : ((a.toUInt32 <<< 24) ||| (b.toUInt32 <<< 16) ||| (c.toUInt32 <<< 8)).toNat =
      ((a.toNat * 256 + b.toNat) * 256 + c.toNat) * 256 := by
    rw [UInt32.toNat_or, htop, h8, ← Nat.shiftLeft_eq (a.toNat * 256 + b.toNat),
      ← Nat.shiftLeft_add_eq_or_of_lt (by omega), Nat.shiftLeft_eq]
    omega
  rw [or_low _ _ (by omega), hthree]
  simp [bigEndian]

section

variable {buf : Bytes} {w : Nat} (hw : w = 1 ∨ w = 2 ∨ w = 4)
include hw

/-- A value whose bytes are in the buffer. -/
theorem paWord_eq {i : Nat} (h : w * (i + 1) ≤ buf.length) :
    ∃ val, paWord buf w i = .ok val ∧ val.toNat = bigEndian ((buf.drop (w * i)).take w) := by
  have hlength := List.length_drop (l := buf) (i := w * i)
  rw [Nat.mul_add, Nat.mul_one] at h
  rcases hw with rfl | rfl | rfl
  · match htext : buf.drop (1 * i), hlength with
    | [], hlength => rw [List.length_nil] at hlength; omega
    | a :: rest, _ =>
      refine ⟨a.toUInt32, ?_, by simp [bigEndian]⟩
      have ha : bufAt buf (1 * i + 0) = .ok a := bufAt_drop (by rw [htext]; rfl)
      rw [Nat.add_zero, Nat.one_mul] at ha
      simp [paWord, ha, bind, Except.bind]
  · match htext : buf.drop (2 * i), hlength with
    | [], hlength | [_], hlength =>
      simp only [List.length_nil, List.length_singleton] at hlength
      omega
    | a :: b :: rest, _ =>
      refine ⟨(a.toUInt32 <<< 8) ||| b.toUInt32, ?_, ?_⟩
      · have ha : bufAt buf (2 * i + 0) = .ok a := bufAt_drop (by rw [htext]; rfl)
        have hb : bufAt buf (2 * i + 1) = .ok b := bufAt_drop (by rw [htext]; rfl)
        rw [Nat.add_zero, Nat.mul_comm] at ha
        rw [Nat.mul_comm] at hb
        simp [paWord, ha, hb, bind, Except.bind]
      · have h8 : (a.toUInt32 <<< 8).toNat = a.toNat * 2 ^ 8 := shl_toNat a (by decide)
        rw [or_low _ _ (by omega), h8]
        simp [bigEndian]
  · match htext : buf.drop (4 * i), hlength with
    | [], hlength | [_], hlength | [_, _], hlength | [_, _, _], hlength =>
      simp only [List.length_nil, List.length_cons] at hlength
      omega
    | a :: b :: c :: d :: rest, _ =>
      refine ⟨_, ?_, word_toNat a b c d⟩
      have ha : bufAt buf (4 * i + 0) = .ok a := bufAt_drop (by rw [htext]; rfl)
      have hb : bufAt buf (4 * i + 1) = .ok b := bufAt_drop (by rw [htext]; rfl)
      have hc : bufAt buf (4 * i + 2) = .ok c := bufAt_drop (by rw [htext]; rfl)
      have hd : bufAt buf (4 * i + 3) = .ok d := bufAt_drop (by rw [htext]; rfl)
      rw [Nat.add_zero, Nat.mul_comm] at ha
      rw [Nat.mul_comm] at hb hc hd
      simp [paWord, ha, hb, hc, hd, bind, Except.bind]

/-- A value that does not fit: the first byte behind the buffer is asked for. -/
theorem paWord_outside {i : Nat} (hi : w * i ≤ buf.length) (h : buf.length < w * (i + 1)) :
    paWord buf w i = .error (.outside buf.length) := by
  rw [Nat.mul_add, Nat.mul_one] at h
  rcases hw with rfl | rfl | rfl
  · simp [paWord, bufAt_end buf (n := i) (by omega), bind, Except.bind]
  · obtain hlength | hlength : buf.length = i * 2 ∨ buf.length = i * 2 + 1 := by omega
    · simp [paWord, bufAt_end buf hlength.symm, bind, Except.bind]
    · obtain ⟨a, ha⟩ := bufAt_lt buf (n := i * 2) (by omega)
      simp [paWord, ha, bufAt_end buf hlength.symm, bind, Except.bind]
  · obtain hlength | hlength | hlength | hlength : buf.length = i * 4 ∨ buf.length = i * 4 + 1 ∨
        buf.length = i * 4 + 2 ∨ buf.length = i * 4 + 3 := by omega
    · simp [paWord, bufAt_end buf hlength.symm, bind, Except.bind]
    · obtain ⟨a, ha⟩ := bufAt_lt buf (n := i * 4) (by omega)
      simp [paWord, ha, bufAt_end buf hlength.symm, bind, Except.bind]
    · obtain ⟨a, ha⟩ := bufAt_lt buf (n := i * 4) (by omega)
      obtain ⟨b, hb⟩ := bufAt_lt buf (n := i * 4 + 1) (by omega)
      simp [paWord, ha, hb, bufAt_end buf hlength.symm, bind, Except.bind]
    · obtain ⟨a, ha⟩ := bufAt_lt buf (n := i * 4) (by omega)
      obtain ⟨b, hb⟩ := bufAt_lt buf (n := i * 4 + 1) (by omega)
      obtain ⟨c, hc⟩ := bufAt_lt buf (n := i * 4 + 2) (by omega)
      simp [paWord, ha, hb, hc, bufAt_end buf hlength.symm, bind, Except.bind]

/-- The values of a buffer, from one on. -/
theorem paWords_eq (n i : Nat) (h : w * (i + n) ≤ buf.length) :
    ∃ vals, paWords buf w n i = .ok vals ∧ vals.map UInt32.toNat =
      (List.range' i n).map fun j => bigEndian ((buf.drop (w * j)).take w) := by
  induction n generalizing i with
  | zero => exact ⟨[], rfl, rfl⟩
  | succ n ih =>
    obtain ⟨vals, hvals, hmap⟩ := ih (i + 1) (by rwa [Nat.add_right_comm, Nat.add_assoc])
    have hfirst : w * (i + 1) ≤ w * (i + (n + 1)) := Nat.mul_le_mul_left w (by omega)
    obtain ⟨val, hval, hword⟩ := paWord_eq hw (Nat.le_trans hfirst h)
    refine ⟨val :: vals, ?_, ?_⟩
    · rw [paWords, hval]
      show (do let vals ← paWords buf w n (i + 1); Except.ok (val :: vals)) = _
      rw [hvals]
      rfl
    · rw [List.map_cons, List.range'_succ, List.map_cons, hmap, hword]

/-- A loop that goes on behind the buffer. -/
theorem paWords_outside (n i : Nat) (hi : w * i ≤ buf.length) (h : buf.length < w * (i + n)) :
    paWords buf w n i = .error (.outside buf.length) := by
  induction n generalizing i with
  | zero => exact absurd h (Nat.not_lt.mpr hi)
  | succ n ih =>
    rw [paWords]
    by_cases hfit : w * (i + 1) ≤ buf.length
    · obtain ⟨val, hval, -⟩ := paWord_eq hw hfit
      rw [hval]
      show (do let vals ← paWords buf w n (i + 1); Except.ok (val :: vals)) = _
      rw [ih (i + 1) hfit (by rwa [Nat.add_right_comm, Nat.add_assoc])]
      rfl
    · rw [paWord_outside hw hi (by omega)]
      rfl

end

/-- The loop over a buffer of the right size decodes its blocks. -/
theorem paWords_blocks {buf : Bytes} {w count : Nat} (hw : w = 1 ∨ w = 2 ∨ w = 4)
    (h : buf.length = w * count) :
    ∃ vals, paWords buf w count 0 = .ok vals ∧
      vals.map UInt32.toNat = (Blocks.blocks w buf).map bigEndian := by
  obtain ⟨vals, hvals, hmap⟩ := paWords_eq hw count 0 (Nat.le_of_eq (by rw [h, Nat.zero_add]))
  have hpos : 0 < w := by omega
  refine ⟨vals, hvals, ?_⟩
  rw [hmap, Blocks.blocks, h, Nat.mul_div_cancel_left count hpos, List.map_map,
    List.range_eq_range']
  rfl

/-! ## The truth of an answer -/

theorem superReadPa_length {m : PaMachine} {pa : UInt32} {len : Nat} {buf : Bytes}
    (h : superReadPa m pa len = .ok buf) : buf.length = len := by
  induction len generalizing pa buf with
  | zero =>
    obtain rfl := Except.ok.inj h
    rfl
  | succ len ih =>
    rw [superReadPa] at h
    cases hc : m.memory pa with
    | none => simp [hc] at h
    | some c =>
      cases hrest : superReadPa m (pa + 1) len with
      | error e => simp [hc, hrest, bind, Except.bind] at h
      | ok rest =>
        simp only [hc, hrest, bind, Except.bind, Except.ok.injEq] at h
        rw [← h, List.length_cons, ih hrest]

theorem superReadPa_no_outside (m : PaMachine) (pa : UInt32) (len index : Nat) :
    superReadPa m pa len ≠ .error (.outside index) := by
  induction len generalizing pa with
  | zero => nofun
  | succ len ih =>
    rw [superReadPa]
    cases m.memory pa with
    | none => simp
    | some c =>
      cases hrest : superReadPa m (pa + 1) len with
      | ok rest => simp [bind, Except.bind]
      | error fault =>
        have hne := ih (pa + 1)
        rw [hrest] at hne
        simpa [hrest, bind, Except.bind] using hne

/-- Where the kernel traps on nothing the copy succeeds. -/
theorem superReadPa_ok {m : PaMachine} (h : ∀ pa, m.memory pa ≠ none) (pa : UInt32) (len : Nat) :
    ∃ buf, superReadPa m pa len = .ok buf := by
  induction len generalizing pa with
  | zero => exact ⟨[], rfl⟩
  | succ len ih =>
    obtain ⟨rest, hrest⟩ := ih (pa + 1)
    obtain ⟨c, hc⟩ := Option.ne_none_iff_exists'.mp (h pa)
    exact ⟨c :: rest, by simp [superReadPa, hc, hrest, bind, Except.bind]⟩

/-- What an answer to a request that was not refused promises. -/
structure PaTrue (params : Option CJson) (q : PaRequest) : Prop where
  exact : 1 ≤ q.count * q.width ∧ q.count * q.width ≤ 4096
  inside : ∀ m index, sysReadPa m params ≠ .error (.outside index)
  address : ∀ m r, sysReadPa m params = .ok (.ok r) →
    r.getItem (ascii "pa") = some (cNumber q.address.toNat)
  values : ∀ m r text, sysReadPa m params = .ok (.ok r) →
    r.getItem (ascii "bytes_b64") = some (.string text) →
    ∃ bytes, b64Decode text = some bytes ∧ bytes.length = q.count * q.width ∧
      r.getItem (ascii "values") =
        some (.array ((Blocks.blocks q.width.toNat bytes).map fun word => cNumber (bigEndian word)))

theorem sysReadPa_eq {m : PaMachine} {params : Option CJson} {q : PaRequest}
    (h : readPaParams params = .ok q) (hm : m.allocates = true) :
    sysReadPa m params = (do
      let buf ← superReadPa m q.address q.totalBytes
      let vals ← paWords buf q.width q.count.toNat 0
      .ok (.ok (readPaResult m q buf vals))) := by
  rw [sysReadPa, h]
  dsimp only
  rw [if_neg (by simp [hm])]

theorem sysReadPa_unallocated {m : PaMachine} {params : Option CJson} {q : PaRequest}
    (h : readPaParams params = .ok q) (hm : m.allocates = false) :
    sysReadPa m params =
      .ok (.error (rpcMakeError mcpdErrInternal "AllocVecTags failed" none)) := by
  rw [sysReadPa, h]
  dsimp only
  rw [if_pos hm]

/-- The width and the count as natural numbers. -/
theorem PaRequest.Wide.product {q : PaRequest} (hwide : q.Wide) (hcount : 1 ≤ q.count) :
    ∃ w : Nat, (w = 1 ∨ w = 2 ∨ w = 4) ∧ q.width = w ∧
      ((w * q.count.toNat : Nat) : Int) = q.count * q.width := by
  refine ⟨q.width.toNat, ?_, ?_, ?_⟩
  · rcases hwide with h | h | h <;> omega
  · rcases hwide with h | h | h <;> omega
  · have hw : 0 ≤ q.width := by rcases hwide with h | h | h <;> omega
    rw [Int.natCast_mul, Int.toNat_of_nonneg hw, Int.toNat_of_nonneg (by omega), Int.mul_comm]

/-- A product that wraps: the loop runs out of the buffer. -/
theorem readPa_outside {m : PaMachine} {params : Option CJson} {q : PaRequest} {buf : Bytes}
    (h : readPaParams params = .ok q) (hm : m.allocates = true)
    (hbuf : superReadPa m q.address q.totalBytes = .ok buf)
    (hwrap : q.totalBytes < q.count * q.width) :
    sysReadPa m params = .error (.outside q.totalBytes) := by
  obtain ⟨-, hwide, hcount, -⟩ := readPaParams_ok h
  have hlength := superReadPa_length hbuf
  obtain ⟨w, hthree, hw, hproduct⟩ := hwide.product hcount
  have hlong : buf.length < w * (0 + q.count.toNat) := by
    rw [Nat.zero_add]
    omega
  rw [sysReadPa_eq h hm, hbuf]
  show (do
    let vals ← paWords buf q.width q.count.toNat 0
    Except.ok (Except.ok (readPaResult m q buf vals) : Outcome)) = _
  rw [hw, paWords_outside hthree _ _ (Nat.zero_le _) hlong, hlength]
  rfl

theorem readPaResult_values (m : PaMachine) (q : PaRequest) (buf : Bytes) (vals : List UInt32) :
    (readPaResult m q buf vals).getItem (ascii "values") =
      some (.array (vals.map fun val => cNumber val.toNat)) := rfl

theorem readPaResult_b64 (m : PaMachine) (q : PaRequest) (buf : Bytes) (vals : List UInt32) :
    (readPaResult m q buf vals).getItem (ascii "bytes_b64") =
      if m.encodes then some (.string (b64Encode buf)) else none := by
  unfold readPaResult
  cases m.encodes <;> rfl

/-- Without a wrap the size is the product, and the check has been made on it. -/
theorem readPa_exact {params : Option CJson} {q : PaRequest} (h : readPaParams params = .ok q)
    (hwrap : q.count * q.width < 2 ^ 63) :
    1 ≤ q.count * q.width ∧ q.count * q.width ≤ 4096 ∧ q.totalBytes = q.count * q.width := by
  obtain ⟨-, hwide, hcount, hchecked⟩ := readPaParams_ok h
  have hpos : 1 ≤ q.count * q.width := by
    have hw : 0 < q.width := by rcases hwide with h | h | h <;> omega
    exact Int.mul_pos hcount hw
  rw [mulLongLong_eq (by omega) hwrap] at hchecked
  refine ⟨hpos, hchecked, ?_⟩
  rw [PaRequest.totalBytes, mulLongLong_eq (by omega) hwrap]
  omega

/-- An answer to a request without a wrap. -/
theorem readPa_values {m : PaMachine} {params : Option CJson} {q : PaRequest}
    (h : readPaParams params = .ok q) (hwrap : q.count * q.width < 2 ^ 63) {buf : Bytes}
    (hbuf : superReadPa m q.address q.totalBytes = .ok buf) :
    ∃ vals, paWords buf q.width q.count.toNat 0 = .ok vals ∧
      vals.map UInt32.toNat = (Blocks.blocks q.width.toNat buf).map bigEndian := by
  obtain ⟨-, hwide, hcount, -⟩ := readPaParams_ok h
  obtain ⟨-, -, htotal⟩ := readPa_exact h hwrap
  obtain ⟨w, hthree, hw, hproduct⟩ := hwide.product hcount
  have hlength : buf.length = w * q.count.toNat := by
    have := superReadPa_length hbuf
    omega
  rw [hw, Int.toNat_natCast]
  exact paWords_blocks hthree hlength

/-- The ways a request that passes the checks can end. -/
theorem sysReadPa_cases {m : PaMachine} {params : Option CJson} {q : PaRequest}
    (h : readPaParams params = .ok q) (hwrap : q.count * q.width < 2 ^ 63) :
    sysReadPa m params = .ok (.error (rpcMakeError mcpdErrInternal "AllocVecTags failed" none)) ∨
      sysReadPa m params = .error .dsi ∨
      ∃ buf vals, superReadPa m q.address q.totalBytes = .ok buf ∧
        vals.map UInt32.toNat = (Blocks.blocks q.width.toNat buf).map bigEndian ∧
        sysReadPa m params = .ok (.ok (readPaResult m q buf vals)) := by
  cases hm : m.allocates with
  | false => exact .inl (sysReadPa_unallocated h hm)
  | true =>
    rw [sysReadPa_eq h hm]
    cases hbuf : superReadPa m q.address q.totalBytes with
    | error fault =>
      cases fault with
      | dsi => exact .inr (.inl rfl)
      | outside index => exact absurd hbuf (superReadPa_no_outside m _ _ index)
    | ok buf =>
      obtain ⟨vals, hvals, hmap⟩ := readPa_values h hwrap hbuf
      refine .inr (.inr ⟨buf, vals, rfl, hmap, ?_⟩)
      show (do
        let vals ← paWords buf q.width q.count.toNat 0
        Except.ok (Except.ok (readPaResult m q buf vals) : Outcome)) = _
      rw [hvals]
      rfl

/-- What a request that passes the checks says of its answers is true when
its address fits the machine's and its product does not wrap, and only then. -/
theorem readPa_true_iff {params : Option CJson} {q : PaRequest}
    (h : readPaParams params = .ok q) :
    PaTrue params q ↔ q.pa < 2 ^ 32 ∧ q.count * q.width < 2 ^ 63 := by
  obtain ⟨hpa, -, -, -⟩ := readPaParams_ok h
  constructor
  · intro htrue
    have hwrap : q.count * q.width < 2 ^ 63 := Int.lt_of_le_of_lt htrue.exact.2 (by decide)
    refine ⟨?_, hwrap⟩
    let m : PaMachine := { memory := fun _ => some 0 }
    obtain ⟨buf, hbuf⟩ := superReadPa_ok (m := m) (fun _ => nofun) q.address q.totalBytes
    obtain ⟨vals, hvals, -⟩ := readPa_values h hwrap hbuf
    have hanswer : sysReadPa m params = .ok (.ok (readPaResult m q buf vals)) := by
      rw [sysReadPa_eq h rfl, hbuf]
      show (do
        let vals ← paWords buf q.width q.count.toNat 0
        Except.ok (Except.ok (readPaResult m q buf vals) : Outcome)) = _
      rw [hvals]
      rfl
    have hgiven : (readPaResult m q buf vals).getItem (ascii "pa") = some (cNumber q.pa) := rfl
    have haddress := htrue.address m _ hanswer
    rw [hgiven, Option.some_inj, cNumber, cNumber, CJson.number.injEq, Rat.intCast_inj] at haddress
    have hlt := q.address.toNat_lt
    omega
  · rintro ⟨hfits, hwrap⟩
    obtain ⟨hpos, hle, htotal⟩ := readPa_exact h hwrap
    refine ⟨⟨hpos, hle⟩, ?_, ?_, ?_⟩
    · intro m index houtside
      obtain hnone | hdsi | ⟨_, _, -, -, hanswer⟩ := sysReadPa_cases (m := m) h hwrap <;> simp_all
    · intro m r hr
      obtain hnone | hdsi | ⟨buf, vals, -, -, hanswer⟩ := sysReadPa_cases (m := m) h hwrap
      · simp [hnone] at hr
      · simp [hdsi] at hr
      · obtain rfl := Except.ok.inj (Except.ok.inj (hanswer.symm.trans hr))
        have haddress : (q.address.toNat : Int) = q.pa := by
          rw [PaRequest.address, UInt32.toNat_ofNat']
          omega
        rw [haddress]
        rfl
    · intro m r text hr htext
      obtain hnone | hdsi | ⟨buf, vals, hbuf, hmap, hanswer⟩ := sysReadPa_cases (m := m) h hwrap
      · simp [hnone] at hr
      · simp [hdsi] at hr
      · obtain rfl := Except.ok.inj (Except.ok.inj (hanswer.symm.trans hr))
        have htext' : text = b64Encode buf := by
          rw [readPaResult_b64] at htext
          split at htext
          · exact (CJson.string.inj (Option.some.inj htext)).symm
          · cases htext
        refine ⟨buf, ?_, ?_, ?_⟩
        · rw [htext', b64Encode_eq, b64Decode_encode]
        · rw [superReadPa_length hbuf, htotal]
        · have hvals : (vals.map fun val => cNumber val.toNat) =
              (Blocks.blocks q.width.toNat buf).map fun word => cNumber (bigEndian word) := by
            have := congrArg (List.map fun n : Nat => cNumber n) hmap
            rwa [List.map_map, List.map_map] at this
          rw [readPaResult_values, hvals]

/-- A count just above `2 ^ 62`: 4096 bytes are allocated and `2 ^ 64` read. -/
theorem readPa_wrapped : ¬ ∀ (params : Option CJson) (q : PaRequest),
    readPaParams params = .ok q → PaTrue params q := by
  intro h
  let params : Option CJson := some (.object [(ascii "pa", cNumber 0),
    (ascii "count", cNumber (2 ^ 62 + 1024))])
  let q : PaRequest := ⟨0, 2 ^ 62 + 1024, 4⟩
  have hparams : readPaParams params = .ok q := rfl
  let m : PaMachine := { memory := fun _ => some 0 }
  obtain ⟨buf, hbuf⟩ := superReadPa_ok (m := m) (fun _ => nofun) q.address q.totalBytes
  exact (h params q hparams).inside m _ (readPa_outside hparams rfl hbuf (by decide))

theorem readPa_true_sample :
    PaTrue (some (.object [(ascii "pa", cNumber 0xFE000000)])) ⟨0xFE000000, 1, 4⟩ :=
  have h : readPaParams (some (.object [(ascii "pa", cNumber 0xFE000000)])) =
    .ok ⟨0xFE000000, 1, 4⟩ := rfl
  (readPa_true_iff h).mpr ⟨by decide, by decide⟩

end AmigaFleet.Mcpd.Sys

import AmigaFleet.Lib.Region
import AmigaFleet.Lib.Sha256
import AmigaFleet.Mcpd.FsExamine

/-!
# sha256.c

`sha256_init`, `sha256_update` and `sha256_final` of `mcpd/src/sha256.c`.  The
buffer of a context is a block of 64 bytes; `buflen` is how far it is filled,
and a write behind its end is no context but `none`.

* `transform_eq`: the compression of one block.
* `Holds` says which bytes a context has been given.  `update_holds` keeps it,
  wherever an update ends.
* `incremental_digest`: the digest of any splitting of a text.
-/

namespace AmigaFleet.Mcpd.Sha256

open AmigaFleet.Lib
open AmigaFleet.Lib.Sha256 (Words)

/-! ## One block -/

/-- `ROR(x, n)` -/
def ror (x n : UInt32) : UInt32 := (x >>> n) ||| (x <<< (32 - n))

/-- `K` -/
def kTable : List UInt32 :=
  [0x428a2f98, 0x71374491, 0xb5c0fbcf, 0xe9b5dba5, 0x3956c25b, 0x59f111f1, 0x923f82a4, 0xab1c5ed5,
   0xd807aa98, 0x12835b01, 0x243185be, 0x550c7dc3, 0x72be5d74, 0x80deb1fe, 0x9bdc06a7, 0xc19bf174,
   0xe49b69c1, 0xefbe4786, 0x0fc19dc6, 0x240ca1cc, 0x2de92c6f, 0x4a7484aa, 0x5cb0a9dc, 0x76f988da,
   0x983e5152, 0xa831c66d, 0xb00327c8, 0xbf597fc7, 0xc6e00bf3, 0xd5a79147, 0x06ca6351, 0x14292967,
   0x27b70a85, 0x2e1b2138, 0x4d2c6dfc, 0x53380d13, 0x650a7354, 0x766a0abb, 0x81c2c92e, 0x92722c85,
   0xa2bfe8a1, 0xa81a664b, 0xc24b8b70, 0xc76c51a3, 0xd192e819, 0xd6990624, 0xf40e3585, 0x106aa070,
   0x19a4c116, 0x1e376c08, 0x2748774c, 0x34b0bcb5, 0x391c0cb3, 0x4ed8aa4a, 0x5b9cca4f, 0x682e6ff3,
   0x748f82ee, 0x78a5636f, 0x84c87814, 0x8cc70208, 0x90befffa, 0xa4506ceb, 0xbef9a3f7, 0xc67178f2]

/-- The first loop of `_transform`: `w[i]` for `i < 16`. -/
def loadWord (blk : Bytes) (i : Nat) : UInt32 :=
  ((blk.getD (i * 4) 0).toUInt32 <<< 24) ||| ((blk.getD (i * 4 + 1) 0).toUInt32 <<< 16) |||
    ((blk.getD (i * 4 + 2) 0).toUInt32 <<< 8) ||| (blk.getD (i * 4 + 3) 0).toUInt32

/-- One turn of the second loop, where `w` holds the words below `i`. -/
def extend (w : List UInt32) (i : Nat) : List UInt32 :=
  let w15 := w.getD (i - 15) 0
  let w2 := w.getD (i - 2) 0
  let s0 := ror w15 7 ^^^ ror w15 18 ^^^ (w15 >>> 3)
  let s1 := ror w2 17 ^^^ ror w2 19 ^^^ (w2 >>> 10)
  w ++ [w.getD (i - 16) 0 + s0 + w.getD (i - 7) 0 + s1]

/-- `w` behind both loops -/
def loadSchedule (blk : Bytes) : List UInt32 :=
  (List.range 48).foldl (fun w i => extend w (16 + i)) ((List.range 16).map (loadWord blk))

/-- One turn of the third loop. -/
def transformRound (w : List UInt32) (v : Words) (i : Nat) : Words :=
  let s1 := ror v.e 6 ^^^ ror v.e 11 ^^^ ror v.e 25
  let ch := (v.e &&& v.f) ^^^ (~~~v.e &&& v.g)
  let t1 := v.h + s1 + ch + kTable.getD i 0 + w.getD i 0
  let s0 := ror v.a 2 ^^^ ror v.a 13 ^^^ ror v.a 22
  let mj := (v.a &&& v.b) ^^^ (v.a &&& v.c) ^^^ (v.b &&& v.c)
  let t2 := s0 + mj
  ⟨t1 + t2, v.a, v.b, v.c, v.d + t1, v.e, v.f, v.g⟩

/-- `_transform` -/
def transform (state : Words) (blk : Bytes) : Words :=
  let w := loadSchedule blk
  let v := (List.range 64).foldl (transformRound w) state
  ⟨state.a + v.a, state.b + v.b, state.c + v.c, state.d + v.d, state.e + v.e, state.f + v.f,
    state.g + v.g, state.h + v.h⟩

/-- Four bytes that are shifted to their places are the word that they write. -/
theorem or_bytes (a b c d : UInt8) :
    (a.toUInt32 <<< 24) ||| (b.toUInt32 <<< 16) ||| (c.toUInt32 <<< 8) ||| d.toUInt32 =
      UInt32.ofNat (be32 [a, b, c, d]) := by
  have ha := a.toNat_lt
  have hb := b.toNat_lt
  have hc := c.toNat_lt
  have hd := d.toNat_lt
  apply UInt32.toNat_inj.mp
  have h24 : UInt32.toNat 24 % 32 = 24 := rfl
  have h16 : UInt32.toNat 16 % 32 = 16 := rfl
  have h8 : UInt32.toNat 8 % 32 = 8 := rfl
  have hshift : ∀ x : Nat, x < 2 ^ 8 → ∀ k ≤ 24, x <<< k % 2 ^ 32 = x <<< k := by
    intro x hx k hk
    rw [Nat.shiftLeft_eq]
    apply Nat.mod_eq_of_lt
    calc x * 2 ^ k < 2 ^ 8 * 2 ^ k := Nat.mul_lt_mul_of_pos_right hx (Nat.two_pow_pos k)
      _ ≤ 2 ^ 8 * 2 ^ 24 := Nat.mul_le_mul_left _ (Nat.pow_le_pow_right (by decide) hk)
      _ = 2 ^ 32 := rfl
  have hnested : a.toNat <<< 24 ||| b.toNat <<< 16 ||| c.toNat <<< 8 ||| d.toNat =
      ((a.toNat <<< 8 ||| b.toNat) <<< 8 ||| c.toNat) <<< 8 ||| d.toNat := by
    simp only [Nat.shiftLeft_or_distrib, ← Nat.shiftLeft_add]
  simp only [UInt32.toNat_or, UInt32.toNat_shiftLeft, UInt8.toNat_toUInt32, UInt32.toNat_ofNat', be32,
    h24, h16, h8]
  rw [hshift _ ha _ (by decide), hshift _ hb _ (by decide), hshift _ hc _ (by decide), hnested,
    ← Nat.shiftLeft_add_eq_or_of_lt hb, ← Nat.shiftLeft_add_eq_or_of_lt hc,
    ← Nat.shiftLeft_add_eq_or_of_lt hd]
  simp only [Nat.shiftLeft_eq]
  omega

theorem loadWord_eq {blk : Bytes} {i : Nat} (h : 4 * i + 4 ≤ blk.length) :
    loadWord blk i = Sha256.word blk i := by
  have hbytes : (blk.drop (4 * i)).take 4 = [blk.getD (i * 4) 0, blk.getD (i * 4 + 1) 0,
      blk.getD (i * 4 + 2) 0, blk.getD (i * 4 + 3) 0] := by
    have hget : ∀ j, 4 * i + j < blk.length → blk.drop (4 * i + j) =
        blk.getD (4 * i + j) 0 :: blk.drop (4 * i + (j + 1)) := by
      intro j hj
      rw [List.drop_eq_getElem_cons hj, List.getD_eq_getElem?_getD, List.getElem?_eq_getElem hj]
      rfl
    rw [Nat.mul_comm i 4, ← Nat.add_zero (4 * i), hget 0 (by omega), hget 1 (by omega),
      hget 2 (by omega), hget 3 (by omega)]
    rfl
  rw [loadWord, or_bytes, Sha256.word, hbytes]

/-- The recurrence of the schedule. -/
theorem extend_eq {blk : Bytes} {i : Nat} (h : 16 ≤ i) :
    extend ((List.range i).map (Sha256.schedule blk)) i =
      (List.range (i + 1)).map (Sha256.schedule blk) := by
  have hget : ∀ j < i, ((List.range i).map (Sha256.schedule blk)).getD j 0 = Sha256.schedule blk j := by
    intro j hj
    simp [hj]
  have hnext : Sha256.schedule blk i = Sha256.schedule blk (i - 16) +
      Sha256.smallSigma0 (Sha256.schedule blk (i - 15)) + Sha256.schedule blk (i - 7) +
        Sha256.smallSigma1 (Sha256.schedule blk (i - 2)) := by
    rw [Sha256.schedule, if_neg (Nat.not_lt.mpr h)]
    ac_rfl
  rw [extend, hget (i - 15) (by omega), hget (i - 2) (by omega), hget (i - 16) (by omega),
    hget (i - 7) (by omega), List.range_succ, List.map_append, List.map_singleton, hnext]
  rfl

theorem loadSchedule_eq {blk : Bytes} (h : blk.length = 64) :
    loadSchedule blk = (List.range 64).map (Sha256.schedule blk) := by
  have hload : (List.range 16).map (loadWord blk) = (List.range 16).map (Sha256.schedule blk) := by
    refine List.map_congr_left fun i hi => ?_
    have hlt := List.mem_range.mp hi
    rw [loadWord_eq (by omega), Sha256.schedule, if_pos hlt]
  have hextend : ∀ j, (List.range j).foldl (fun w i => extend w (16 + i))
      ((List.range 16).map (loadWord blk)) = (List.range (16 + j)).map (Sha256.schedule blk) := by
    intro j
    induction j with
    | zero => exact hload
    | succ j ih =>
      rw [List.range_succ (n := j), List.foldl_append, ih]
      exact extend_eq (by omega)
  exact hextend 48

/-- `_transform` compresses a block. -/
theorem transform_eq (state : Words) {blk : Bytes} (h : blk.length = 64) :
    transform state blk = Sha256.compress state blk := by
  have hrounds : ∀ t ≤ 64, (List.range t).foldl (transformRound (loadSchedule blk)) state =
      Sha256.rounds (Sha256.schedule blk) state t := by
    intro t
    induction t with
    | zero => exact fun _ => rfl
    | succ t ih =>
      intro ht
      have hw : (loadSchedule blk).getD t 0 = Sha256.schedule blk t := by
        simp [loadSchedule_eq h, Nat.lt_of_succ_le ht]
      rw [List.range_succ, List.foldl_append, ih (by omega), Sha256.rounds, ← hw]
      rfl
  rw [transform, hrounds 64 (le_refl 64), Sha256.compress, Words.add]
  simp only [UInt32.add_comm]
/-! ## Contexts -/

/-- `sha256_ctx`; what is written of `buf` are its first `buflen` bytes. -/
structure Sha256Ctx where
  state : Words
  bitlen : UInt64
  buf : Region UInt8

def Sha256Ctx.buflen (ctx : Sha256Ctx) : Nat := ctx.buf.data.length

/-- `sha256_init` -/
def sha256Init : Sha256Ctx where
  state :=
    ⟨0x6a09e667, 0xbb67ae85, 0x3c6ef372, 0xa54ff53a, 0x510e527f, 0x9b05688c, 0x1f83d9ab, 0x5be0cd19⟩
  bitlen := 0
  buf := Region.alloc 64

/-- The end of a turn of `sha256_update`: a full buffer is transformed. -/
def Sha256Ctx.flush (ctx : Sha256Ctx) : Option Sha256Ctx := do
  if ctx.buflen = 64 then
    let buf ← ctx.buf.seek 0
    some ⟨transform ctx.state ctx.buf.data, ctx.bitlen, buf⟩
  else some ctx

/-- The loop of `sha256_update`, which ends as each turn takes a byte; `p` is
what is left of the data. -/
def updateLoop : Nat → Sha256Ctx → Bytes → Option Sha256Ctx
  | _, ctx, [] => some ctx
  | 0, _, _ :: _ => none
  | fuel + 1, ctx, p => do
    let want := 64 - ctx.buflen
    let take := if p.length < want then p.length else want
    let buf ← ctx.buf.puts (p.take take)
    let ctx ← Sha256Ctx.flush ⟨ctx.state, ctx.bitlen + UInt64.ofNat take * 8, buf⟩
    updateLoop fuel ctx (p.drop take)

/-- `sha256_update` -/
def sha256Update (ctx : Sha256Ctx) (data : Bytes) : Option Sha256Ctx :=
  updateLoop data.length ctx data

/-- A byte of the length that `sha256_final` writes. -/
def lengthByte (bitlen : UInt64) (i : Nat) : UInt8 :=
  ((bitlen >>> UInt64.ofNat (i * 8)) &&& 0xff).toUInt8

/-- The bytes of one word of the digest. -/
def wordBytes (w : UInt32) : Bytes :=
  [((w >>> 24) &&& 0xff).toUInt8, ((w >>> 16) &&& 0xff).toUInt8, ((w >>> 8) &&& 0xff).toUInt8,
    (w &&& 0xff).toUInt8]

/-- `sha256_final` up to its second loop: the byte `0x80`, and a block if the
length does not fit behind it. -/
def padMarker (ctx : Sha256Ctx) : Option Sha256Ctx := do
  let buf ← ctx.buf.put 0x80
  let ctx : Sha256Ctx := ⟨ctx.state, ctx.bitlen, buf⟩
  if ctx.buflen > 56 then
    let buf ← ctx.buf.puts (List.replicate (64 - ctx.buflen) 0)
    Sha256Ctx.flush ⟨ctx.state, ctx.bitlen, buf⟩
  else some ctx

/-- The rest of `sha256_final`. -/
def padLength (ctx : Sha256Ctx) : Option Bytes := do
  let buf ← ctx.buf.puts (List.replicate (56 - ctx.buflen) 0)
  let buf ← buf.puts ([7, 6, 5, 4, 3, 2, 1, 0].map (lengthByte ctx.bitlen))
  let state := transform ctx.state buf.data
  some (state.toList.flatMap wordBytes)

/-- `sha256_final` -/
def sha256Final (ctx : Sha256Ctx) : Option Bytes := (padMarker ctx).bind padLength

/-- The updates of a digest, one for each piece. -/
def updates (ctx : Sha256Ctx) (pieces : List Bytes) : Option Sha256Ctx :=
  pieces.foldlM sha256Update ctx

theorem flush_full {ctx : Sha256Ctx} (h : ctx.buflen = 64) :
    ctx.flush =
      some ⟨transform ctx.state ctx.buf.data, ctx.bitlen, ⟨ctx.buf.size, [], Nat.zero_le _⟩⟩ := by
  rw [Sha256Ctx.flush, if_pos h, Region.seek_eq (Nat.zero_le _)]
  rfl

theorem flush_short {ctx : Sha256Ctx} (h : ctx.buflen ≠ 64) : ctx.flush = some ctx := if_neg h

/-! ## What a context has been given -/

/-- State and buffer after the bytes `text`. -/
structure Filled (ctx : Sha256Ctx) (text : Bytes) : Prop where
  state : ctx.state = Blocks.absorb 64 Sha256.compress Sha256.initial text
  size : ctx.buf.size = 64
  rest : ctx.buf.data = Blocks.rest 64 text

/-- The context after the bytes `text`. -/
structure Holds (ctx : Sha256Ctx) (text : Bytes) : Prop extends Filled ctx text where
  bitlen : ctx.bitlen = UInt64.ofNat (8 * text.length)

theorem init_holds : Holds sha256Init [] where
  state := by simp [sha256Init, Sha256.initial]
  size := rfl
  rest := by simp [sha256Init]
  bitlen := rfl

theorem Filled.buflen {ctx : Sha256Ctx} {text : Bytes} (h : Filled ctx text) :
    ctx.buflen = (Blocks.rest 64 text).length := by
  rw [Sha256Ctx.buflen, h.rest]

theorem Filled.buflen_lt {ctx : Sha256Ctx} {text : Bytes} (h : Filled ctx text) :
    ctx.buflen < 64 := by
  rw [h.buflen, Blocks.length_rest]
  exact Nat.mod_lt _ (by decide)

/-- A piece that fits into the buffer. -/
theorem Filled.puts {ctx : Sha256Ctx} {text piece : Bytes} (h : Filled ctx text)
    (hfits : ctx.buflen + piece.length ≤ 64) :
    ∃ buf, ctx.buf.puts piece = some buf ∧ buf.size = 64 ∧ buf.data = ctx.buf.data ++ piece := by
  rw [← h.size]
  exact Region.exists_puts (h.size ▸ hfits)

/-- A piece that fills the buffer. -/
theorem Filled.transform {ctx : Sha256Ctx} {text piece : Bytes} (h : Filled ctx text)
    (hfull : ctx.buflen + piece.length = 64) :
    transform ctx.state (ctx.buf.data ++ piece) =
        Blocks.absorb 64 Sha256.compress Sha256.initial (text ++ piece) ∧
      Blocks.rest 64 (text ++ piece) = [] := by
  obtain ⟨hstate, hrest⟩ := Blocks.absorb_full (by decide) Sha256.compress Sha256.initial
    (h.buflen ▸ hfull)
  have hblock : (ctx.buf.data ++ piece).length = 64 := by rwa [List.length_append]
  rw [hstate, ← h.state, ← h.rest, transform_eq ctx.state hblock]
  exact ⟨rfl, hrest⟩

/-- One turn of the loop, for a piece that fits into the buffer. -/
theorem Filled.turn {ctx : Sha256Ctx} {text piece : Bytes} (h : Filled ctx text)
    (hfits : ctx.buflen + piece.length ≤ 64) (bitlen : UInt64) :
    ∃ buf ctx', ctx.buf.puts piece = some buf ∧
      Sha256Ctx.flush ⟨ctx.state, bitlen, buf⟩ = some ctx' ∧
      Filled ctx' (text ++ piece) ∧ ctx'.bitlen = bitlen := by
  obtain ⟨buf, hputs, hsize, hdata⟩ := h.puts hfits
  have hlen : buf.data.length = ctx.buflen + piece.length := by
    rw [hdata, List.length_append, Sha256Ctx.buflen]
  by_cases hfull : ctx.buflen + piece.length = 64
  · obtain ⟨hstate, hrest⟩ := h.transform hfull
    refine ⟨buf, _, hputs, flush_full (hlen.trans hfull), ⟨?_, hsize, hrest.symm⟩, rfl⟩
    rw [← hstate, ← hdata]
  · have hroom : (Blocks.rest 64 text).length + piece.length < 64 := by
      rw [← h.buflen]
      omega
    obtain ⟨hstate, hrest⟩ := Blocks.absorb_short Sha256.compress Sha256.initial hroom
    refine ⟨buf, _, hputs, flush_short (by rwa [Sha256Ctx.buflen, hlen]), ⟨?_, hsize, ?_⟩, rfl⟩
    · rw [hstate, ← h.state]
    · rw [hrest, ← h.rest, ← hdata]

/-- An update, of which `p` is left. -/
theorem updateLoop_holds {fuel : Nat} {ctx : Sha256Ctx} {text p : Bytes} (h : Holds ctx text)
    (hfuel : p.length ≤ fuel) :
    ∃ ctx', updateLoop fuel ctx p = some ctx' ∧ Holds ctx' (text ++ p) := by
  induction fuel generalizing ctx text p with
  | zero =>
    obtain rfl : p = [] := List.length_eq_zero_iff.mp (by omega)
    exact ⟨ctx, by simp [updateLoop], by simpa using h⟩
  | succ fuel ih =>
    cases p with
    | nil => exact ⟨ctx, by simp [updateLoop], by simpa using h⟩
    | cons c p =>
      have hlt := h.buflen_lt
      generalize htake : (if (c :: p).length < 64 - ctx.buflen then (c :: p).length
        else 64 - ctx.buflen) = take
      have htakes : 1 ≤ take ∧ take ≤ (c :: p).length ∧ ctx.buflen + take ≤ 64 := by
        rw [← htake, List.length_cons]
        split <;> omega
      have hpiece : ((c :: p).take take).length = take := by
        rw [List.length_take]
        omega
      obtain ⟨buf, ctx', hputs, hflush, hfilled, hbits⟩ :=
        h.turn (hpiece.symm ▸ htakes.2.2) (ctx.bitlen + UInt64.ofNat take * 8)
      have hbitlen : ctx'.bitlen = UInt64.ofNat (8 * (text ++ (c :: p).take take).length) := by
        rw [hbits, h.bitlen, List.length_append, hpiece, Nat.mul_add, UInt64.ofNat_add,
          UInt64.ofNat_mul 8 take, UInt64.mul_comm (UInt64.ofNat take)]
        rfl
      have hrest : ((c :: p).drop take).length ≤ fuel := by
        rw [List.length_drop]
        omega
      obtain ⟨ctx'', hloop, hend⟩ := ih ⟨hfilled, hbitlen⟩ hrest
      refine ⟨ctx'', ?_, by simpa using hend⟩
      simp only [updateLoop, htake, hputs, Option.bind_eq_bind, Option.bind_some]
      rw [hflush]
      exact hloop

theorem update_holds {ctx : Sha256Ctx} {text : Bytes} (h : Holds ctx text) (data : Bytes) :
    ∃ ctx', sha256Update ctx data = some ctx' ∧ Holds ctx' (text ++ data) :=
  updateLoop_holds h (le_refl _)

theorem updates_holds {ctx : Sha256Ctx} {text : Bytes} (h : Holds ctx text) (pieces : List Bytes) :
    ∃ ctx', updates ctx pieces = some ctx' ∧ Holds ctx' (text ++ pieces.flatten) := by
  induction pieces generalizing ctx text with
  | nil => exact ⟨ctx, rfl, by simpa using h⟩
  | cons piece pieces ih =>
    obtain ⟨ctx', hupdate, hholds⟩ := update_holds h piece
    obtain ⟨ctx'', hupdates, hend⟩ := ih hholds
    refine ⟨ctx'', ?_, by simpa using hend⟩
    rw [updates, List.foldlM_cons, hupdate]
    exact hupdates

/-! ## The digest -/

theorem byte32 (w s : UInt32) :
    ((w >>> s) &&& 0xff).toUInt8 = UInt8.ofNat (w.toNat / 2 ^ (s.toNat % 32)) := by
  have hmask : UInt32.toNat 0xff = 2 ^ 8 - 1 := rfl
  apply UInt8.toNat_inj.mp
  rw [UInt32.toNat_toUInt8, UInt32.toNat_and, UInt32.toNat_shiftRight, hmask,
    Nat.and_two_pow_sub_one_eq_mod, UInt8.toNat_ofNat', Nat.shiftRight_eq_div_pow, Nat.mod_mod]

theorem byte64 (w s : UInt64) :
    ((w >>> s) &&& 0xff).toUInt8 = UInt8.ofNat (w.toNat / 2 ^ (s.toNat % 64)) := by
  have hmask : UInt64.toNat 0xff = 2 ^ 8 - 1 := rfl
  apply UInt8.toNat_inj.mp
  rw [UInt64.toNat_toUInt8, UInt64.toNat_and, UInt64.toNat_shiftRight, hmask,
    Nat.and_two_pow_sub_one_eq_mod, UInt8.toNat_ofNat', Nat.shiftRight_eq_div_pow, Nat.mod_mod]

theorem wordBytes_eq (w : UInt32) : wordBytes w = header w.toNat := by
  have hlow : (w &&& 0xff).toUInt8 = UInt8.ofNat w.toNat := by
    simpa using byte32 w 0
  rw [wordBytes, header, byte32, byte32, byte32, hlow]
  rfl

theorem lengthBytes_eq (n : Nat) :
    [7, 6, 5, 4, 3, 2, 1, 0].map (lengthByte (UInt64.ofNat n)) = Sha256.lengthBytes n := by
  have hbyte : ∀ i < 8, lengthByte (UInt64.ofNat n) i = UInt8.ofNat (n / 2 ^ (i * 8)) := by
    intro i hi
    have hs : (UInt64.ofNat (i * 8)).toNat % 64 = i * 8 := by
      rw [UInt64.toNat_ofNat']
      omega
    rw [lengthByte, byte64, hs, UInt64.toNat_ofNat']
    apply UInt8.toNat_inj.mp
    rw [UInt8.toNat_ofNat', UInt8.toNat_ofNat']
    have hpow : 2 ^ 64 = 2 ^ (i * 8) * 2 ^ (64 - i * 8) := by
      rw [← Nat.pow_add]
      congr 1
      omega
    rw [hpow, Nat.mod_mul_right_div_self, Nat.mod_mod_of_dvd]
    exact Nat.pow_dvd_pow 2 (by omega)
  have hhigh : ∀ i, n / 2 ^ 32 / 2 ^ i = n / 2 ^ (32 + i) := by
    intro i
    rw [Nat.div_div_eq_div_mul, ← Nat.pow_add]
  simp only [List.map_cons, List.map_nil, Sha256.lengthBytes, header, hhigh, List.cons_append,
    List.nil_append]
  rw [hbyte 7 (by decide), hbyte 6 (by decide), hbyte 5 (by decide), hbyte 4 (by decide),
    hbyte 3 (by decide), hbyte 2 (by decide), hbyte 1 (by decide), hbyte 0 (by decide)]
  simp
theorem padMarker_holds {ctx : Sha256Ctx} {text : Bytes} (h : Holds ctx text) :
    ∃ ctx' z, padMarker ctx = some ctx' ∧ ctx'.bitlen = ctx.bitlen ∧ ctx'.buflen ≤ 56 ∧
      Filled ctx' (text ++ 0x80 :: List.replicate z 0) ∧
      z + (56 - ctx'.buflen) = Sha256.zeros text.length := by
  have hlt := h.buflen_lt
  have hmod : ctx.buflen = text.length % 64 := by rw [h.buflen, Blocks.length_rest]
  have hmarked : ∀ {buf : Region UInt8}, ctx.buf.put 0x80 = some buf →
      buf.data.length = ctx.buflen + 1 := by
    intro buf hput
    rw [Region.put_eq _ (h.size ▸ hlt)] at hput
    cases hput
    simp [Sha256Ctx.buflen]
  by_cases htwo : ctx.buflen + 1 > 56
  · have hfits : ctx.buflen +
        ([0x80] ++ List.replicate (64 - (ctx.buflen + 1)) (0 : UInt8)).length = 64 := by
      rw [List.length_append, List.length_singleton, List.length_replicate]
      omega
    obtain ⟨buf, ctx', hputs, hflush, hfilled, hbits⟩ := h.turn (Nat.le_of_eq hfits) ctx.bitlen
    rw [Region.puts_append, Region.puts_singleton, Option.bind_eq_some_iff] at hputs
    obtain ⟨marked, hput, hzeros⟩ := hputs
    have hempty : ctx'.buflen = 0 := by
      rw [hfilled.buflen, (h.transform hfits).2]
      rfl
    refine ⟨ctx', 64 - (ctx.buflen + 1), ?_, hbits, by omega, hfilled, ?_⟩
    · rw [← hmarked hput] at hzeros htwo
      rw [padMarker, hput]
      refine Eq.trans (if_pos htwo) ?_
      show ((marked.puts (List.replicate (64 - marked.data.length) 0)).bind _) = _
      rw [hzeros]
      exact hflush
    · rw [hempty, Sha256.zeros]
      omega
  · have hfits : ctx.buflen + [(0x80 : UInt8)].length ≤ 64 := by
      rw [List.length_singleton]
      omega
    obtain ⟨buf, ctx', hput, hflush, hfilled, hbits⟩ := h.turn hfits ctx.bitlen
    rw [Region.puts_singleton] at hput
    have hlen := hmarked hput
    rw [flush_short (by rw [Sha256Ctx.buflen, hlen]; omega)] at hflush
    cases hflush
    refine ⟨_, 0, ?_, hbits, ?_, hfilled, ?_⟩
    · rw [padMarker, hput]
      exact if_neg (by rwa [Sha256Ctx.buflen, hlen])
    · rw [Sha256Ctx.buflen, hlen]
      omega
    · rw [Sha256Ctx.buflen, hlen, Sha256.zeros]
      omega

theorem padLength_holds {ctx : Sha256Ctx} {padded : Bytes} (h : Filled ctx padded)
    (hroom : ctx.buflen ≤ 56) {n : Nat} (hbits : ctx.bitlen = UInt64.ofNat n) :
    padLength ctx = some (Blocks.absorb 64 Sha256.compress Sha256.initial
      (padded ++ (List.replicate (56 - ctx.buflen) 0 ++ Sha256.lengthBytes n))).bytes := by
  have hlength : (Sha256.lengthBytes n).length = 8 := rfl
  have hlast : ctx.buflen + (List.replicate (56 - ctx.buflen) 0 ++ Sha256.lengthBytes n).length = 64 := by
    rw [List.length_append, List.length_replicate, hlength]
    omega
  obtain ⟨buf, hputs, -, hdata⟩ := h.puts (Nat.le_of_eq hlast)
  rw [Region.puts_append, Option.bind_eq_some_iff] at hputs
  obtain ⟨filled, hzeros, hwrite⟩ := hputs
  rw [padLength, hbits, lengthBytes_eq, hzeros]
  simp only [Option.bind_eq_bind, Option.bind_some, hwrite]
  rw [hdata, (h.transform hlast).1, Words.bytes, funext wordBytes_eq]

/-- `sha256_final` pads the text that the context has been given. -/
theorem final_holds {ctx : Sha256Ctx} {text : Bytes} (h : Holds ctx text) :
    sha256Final ctx = some (Sha256.digest text) := by
  obtain ⟨ctx', z, hmarker, hbits, hroom, hfilled, hz⟩ := padMarker_holds h
  rw [sha256Final, hmarker, Option.bind_some,
    padLength_holds hfilled hroom (hbits.trans h.bitlen), Sha256.digest, Sha256.hash, Sha256.pad, ← hz,
    List.replicate_add]
  simp only [List.append_assoc, List.cons_append]

/-- Every splitting of a text into updates gives its digest.  The length of a
text below `2 ^ 61` bytes fits into its last eight bytes. -/
theorem incremental_digest (pieces : List Bytes) :
    (updates sha256Init pieces).bind sha256Final = some (Sha256.digest pieces.flatten) := by
  obtain ⟨ctx, hupdates, hholds⟩ := updates_holds init_holds pieces
  rw [hupdates, Option.bind_some, final_holds hholds]
  rfl

/-- The digest of `abc`. -/
example : (updates sha256Init [[0x61], [], [0x62, 0x63]]).bind sha256Final =
    some [0xba, 0x78, 0x16, 0xbf, 0x8f, 0x01, 0xcf, 0xea, 0x41, 0x41, 0x40, 0xde, 0x5d, 0xae, 0x22,
      0x23, 0xb0, 0x03, 0x61, 0xa3, 0x96, 0x17, 0x7a, 0x9c, 0xb4, 0x10, 0xff, 0x61, 0xf2, 0x00, 0x15,
      0xad] := by
  decide +kernel

/-! ## The loop of fs.hash -/

/-- The loop of `fs_hash`, which reads `CHUNK` bytes at a time; `content` is what
is left of the file. -/
def hashLoop : Nat → Sha256Ctx → Bytes → Option Sha256Ctx
  | _, ctx, [] => some ctx
  | 0, _, _ :: _ => none
  | fuel + 1, ctx, content => do
    let ctx ← sha256Update ctx (content.take 32768)
    hashLoop fuel ctx (content.drop 32768)

/-- The digest that `fs_hash` computes of a file. -/
def fileDigest (content : Bytes) : Option Bytes := do
  let ctx ← hashLoop content.length sha256Init content
  sha256Final ctx

theorem hashLoop_holds {fuel : Nat} {ctx : Sha256Ctx} {text content : Bytes} (h : Holds ctx text)
    (hfuel : content.length ≤ fuel) :
    ∃ ctx', hashLoop fuel ctx content = some ctx' ∧ Holds ctx' (text ++ content) := by
  induction fuel generalizing ctx text content with
  | zero =>
    obtain rfl : content = [] := List.length_eq_zero_iff.mp (by omega)
    exact ⟨ctx, by simp [hashLoop], by simpa using h⟩
  | succ fuel ih =>
    cases content with
    | nil => exact ⟨ctx, by simp [hashLoop], by simpa using h⟩
    | cons c content =>
      obtain ⟨ctx', hupdate, hholds⟩ := update_holds h ((c :: content).take 32768)
      have hrest : ((c :: content).drop 32768).length ≤ fuel := by
        rw [List.length_drop]
        omega
      obtain ⟨ctx'', hloop, hend⟩ := ih hholds hrest
      refine ⟨ctx'', ?_, by simpa using hend⟩
      simp only [hashLoop, hupdate, Option.bind_eq_bind, Option.bind_some]
      exact hloop

/-- `fs.hash` tells the SHA-256 of a file. -/
theorem fileDigest_eq (content : Bytes) : fileDigest content = some (Sha256.digest content) := by
  obtain ⟨ctx, hloop, hholds⟩ := hashLoop_holds init_holds (le_refl content.length)
  rw [fileDigest, hloop]
  exact final_holds hholds

theorem fsHash_fileDigest (volume : Fs.Volume) (dos : Fs.HashDos) :
    Fs.fsHash (fun content => (fileDigest content).getD []) volume dos =
      Fs.fsHash Sha256.digest volume dos := by
  simp only [fileDigest_eq, Option.getD_some]

end AmigaFleet.Mcpd.Sha256

import AmigaFleet.Lib.Framing

/-!
# Decompression in the daemon

`_decompress_zlib` of `mcpd/src/methods/fs.c` on top of z.library, whose
source is not in the repository.  `ZIFace` is its interface: one call of
`Inflate` is given the input that is left and the room in the output buffer,
and reports what it took and what it wrote.

With a `raw_size` hint there is one call with `Z_FINISH` into a buffer of
exactly that size; without one the loop inflates into a buffer that doubles.
-/

namespace AmigaFleet.Mcpd.Fs

open AmigaFleet.Lib

/-- The return codes of zlib. -/
inductive ZCode where
  | ok
  | streamEnd
  | dataError
  | bufError
  | other
deriving DecidableEq, Repr

inductive ZFlush where
  | noFlush
  | finish
deriving DecidableEq, Repr

/-- What one call of `Inflate` leaves: the code, the state of the stream, how
much of `next_in` it has taken and what it has written to `next_out`. -/
structure ZStep (σ : Type) where
  rc : ZCode
  state : σ
  consumed : Nat
  written : Bytes

/-- `struct ZIFace`; `σ` is the internal state of a `z_stream`. -/
structure ZIFace (σ : Type) where
  inflateInit : Option σ
  inflate : σ → Bytes → Nat → ZFlush → ZStep σ

/-- `FS_WRITE_DECOMPRESSED_MAX` -/
def fsWriteDecompressedMax : Nat := 128 * 1024 * 1024

variable {σ : Type}

/-- The message of a failed one-shot `Inflate`. -/
def oneShotError : ZCode → String
  | .bufError => "raw_size too small for payload"
  | .dataError => "zlib data error"
  | _ => "zlib Inflate failed"

/-- The branch with a `raw_size` hint. -/
def inflateOnce (z : ZIFace σ) (compressed : Bytes) (expectedSize : Nat) : Except String Bytes :=
  if expectedSize > fsWriteDecompressedMax then .error "raw_size exceeds decompressed cap"
  else
    match z.inflateInit with
    | none => .error "InflateInit failed"
    | some zs =>
      let step := z.inflate zs compressed expectedSize .finish
      if step.rc ≠ .streamEnd then .error (oneShotError step.rc)
      else if step.written.length ≠ expectedSize then .error "decompressed size != raw_size"
      else .ok step.written

/-- The capacity for the next round: doubled when less than 4096 bytes are
left, `none` when it cannot grow. -/
def nextCap (cap total : Nat) : Option Nat :=
  if cap - total < 4096 then
    let newCap := if cap * 2 > fsWriteDecompressedMax then fsWriteDecompressedMax else cap * 2
    if newCap = cap then none else some newCap
  else some cap

/-- The loop without a hint.  `fuel` bounds the rounds. -/
def inflateLoop (z : ZIFace σ) : Nat → σ → Bytes → Bytes → Nat → Except String Bytes
  | 0, _, _, _, _ => .error "zlib Inflate failed"
  | fuel + 1, zs, input, buf, cap =>
    match nextCap cap buf.length with
    | none => .error "decompressed payload exceeds cap"
    | some cap =>
      let step := z.inflate zs input (cap - buf.length) .noFlush
      let buf := buf ++ step.written
      let input := input.drop step.consumed
      match step.rc with
      | .streamEnd => .ok buf
      | .ok =>
        if input.length > 0 ∨ cap - buf.length = 0 then
          inflateLoop z fuel step.state input buf cap
        else .ok buf
      | _ => .error "zlib Inflate failed"

/-- `_decompress_zlib`; `none` for `IZ` is a missing z.library, and the
allocations succeed.  A round that returns `Z_OK` takes or writes a byte. -/
def decompressZlib (iz : Option (ZIFace σ)) (compressed : Bytes) (expectedSize : Nat) :
    Except String Bytes :=
  if compressed.length = 0 then .error "empty compressed payload"
  else
    match iz with
    | none => .error "z.library not available - daemon needs v53+"
    | some z =>
      if expectedSize > 0 then inflateOnce z compressed expectedSize
      else
        match z.inflateInit with
        | none => .error "InflateInit failed"
        | some zs =>
          inflateLoop z (compressed.length + fsWriteDecompressedMax + 1) zs compressed []
            (max (compressed.length * 4) 4096)

/-! ## The contract of Inflate -/

/-- What the compressed format says of a byte string. -/
inductive Verdict where
  /-- it starts with a complete stream of this length -/
  | complete (length : Nat) (data : Bytes)
  /-- it is the beginning of a stream, and this is what can be decoded of it -/
  | truncated (data : Bytes)
  /-- no stream begins like it, and this is what comes before the error -/
  | corrupt (data : Bytes)
deriving DecidableEq, Repr

def Verdict.data : Verdict → Bytes
  | complete _ data => data
  | truncated data => data
  | corrupt data => data

/-- The contract of `Inflate` with its return codes.  `At zs w c p` says that a
stream has taken the first `c` bytes of the input `w` and has written the first
`p` of its data.  A call does as much as the input and the room allow. -/
structure ZIFace.Follows (z : ZIFace σ) (verdict : Bytes → Verdict)
    (At : σ → Bytes → Nat → Nat → Prop) : Prop where
  starts : ∀ zs, z.inflateInit = some zs → ∀ w, At zs w 0 0
  writes : ∀ {zs w c p}, At zs w c p → ∀ room flush,
    (z.inflate zs (w.drop c) room flush).written = ((verdict w).data.drop p).take room
  /-- `Z_STREAM_END`: the end is reached and all the data has been written -/
  ends : ∀ {zs w c p n d}, At zs w c p → verdict w = .complete n d → ∀ room flush,
    d.length - p ≤ room → (z.inflate zs (w.drop c) room flush).rc = .streamEnd
  /-- the input is used up: `Z_OK` with progress, `Z_BUF_ERROR` without, or with `Z_FINISH` -/
  starves : ∀ {zs w c p d}, At zs w c p → verdict w = .truncated d → ∀ room flush,
    d.length - p ≤ room →
      (z.inflate zs (w.drop c) room flush).consumed = w.length - c ∧
      (z.inflate zs (w.drop c) room flush).rc =
        if flush = .noFlush ∧ (c < w.length ∨ p < d.length) then .ok else .bufError
  /-- the error is reached -/
  fails : ∀ {zs w c p d}, At zs w c p → verdict w = .corrupt d → ∀ room flush,
    d.length - p ≤ room →
      (z.inflate zs (w.drop c) room flush).rc ≠ .ok ∧
      (z.inflate zs (w.drop c) room flush).rc ≠ .streamEnd
  /-- the room is used up -/
  fills : ∀ {zs w c p}, At zs w c p → ∀ room flush, room < (verdict w).data.length - p →
    (z.inflate zs (w.drop c) room flush).rc =
      if flush = .noFlush ∧ (0 < (z.inflate zs (w.drop c) room flush).consumed ∨ 0 < room) then .ok
      else .bufError
  goesOn : ∀ {zs w c p}, At zs w c p → ∀ room flush,
    (z.inflate zs (w.drop c) room flush).rc = .ok →
      At (z.inflate zs (w.drop c) room flush).state w
        (c + (z.inflate zs (w.drop c) room flush).consumed)
        (p + (z.inflate zs (w.drop c) room flush).written.length)

/-- `Inflate` follows its contract for a format in which a compressor writes
complete streams. -/
def ZIFace.Inverts (z : ZIFace σ) (compress : Bytes → Bytes) : Prop :=
  ∃ verdict At, z.Follows verdict At ∧ ∀ raw, ∃ n, verdict (compress raw) = .complete n raw

/-! ## Complete streams -/

variable {z : ZIFace σ} {verdict : Bytes → Verdict} {At : σ → Bytes → Nat → Nat → Prop}

/-- What has been written of the data, and what comes next. -/
theorem take_written (d : Bytes) {p : Nat} (hp : p ≤ d.length) (room : Nat) :
    d.take p ++ (d.drop p).take room = d.take (p + room) ∧
      p + ((d.drop p).take room).length = min (p + room) d.length := by
  constructor
  · rw [List.take_add]
  · rw [List.length_take, List.length_drop]
    omega

/-- One call on the rest of a complete stream ends it, or fills the room. -/
theorem inflate_complete (hz : z.Follows verdict At) {zs : σ} {w d : Bytes} {c p n : Nat}
    (hat : At zs w c p) (hv : verdict w = .complete n d) (room : Nat) (flush : ZFlush) :
    d.length - p ≤ room ∧ (z.inflate zs (w.drop c) room flush).rc = .streamEnd ∨
      room < d.length - p ∧ (z.inflate zs (w.drop c) room flush).rc ≠ .streamEnd := by
  have hdata : (verdict w).data = d := by rw [hv]; rfl
  rcases Nat.lt_or_ge room (d.length - p) with hlt | hge
  · refine Or.inr ⟨hlt, ?_⟩
    rw [hz.fills hat room flush (by rw [hdata]; exact hlt)]
    split <;> simp
  · exact Or.inl ⟨hge, hz.ends hat hv room flush hge⟩

theorem inflateOnce_complete (hz : z.Follows verdict At) {w d out : Bytes} {n size : Nat}
    (hv : verdict w = .complete n d) (h : inflateOnce z w size = .ok out) : out = d := by
  have hdata : (verdict w).data = d := by rw [hv]; rfl
  unfold inflateOnce at h
  split at h
  · cases h
  · split at h
    · cases h
    · rename_i zs hinit
      have hat := hz.starts zs hinit w
      dsimp only at h
      split at h
      · cases h
      · rename_i hrc
        split at h
        · cases h
        · cases h
          have hwritten := hz.writes hat size .finish
          rw [List.drop_zero] at hwritten
          rcases inflate_complete hz hat hv size .finish with ⟨hfits, _⟩ | ⟨_, hnot⟩
          · rw [hwritten, hdata, List.drop_zero]
            exact List.take_of_length_le (by omega)
          · rw [List.drop_zero] at hnot
            exact absurd (not_not.mp hrc) hnot

theorem inflateLoop_complete (hz : z.Follows verdict At) {w d : Bytes} {n : Nat}
    (hv : verdict w = .complete n d) (fuel : Nat) {zs : σ} {c p cap : Nat} {out : Bytes}
    (hat : At zs w c p) (hp : p ≤ d.length)
    (h : inflateLoop z fuel zs (w.drop c) (d.take p) cap = .ok out) : out = d := by
  have hdata : (verdict w).data = d := by rw [hv]; rfl
  induction fuel generalizing zs c p cap with
  | zero => cases h
  | succ fuel ih =>
    have hlen : (d.take p).length = p := by
      rw [List.length_take]
      omega
    rw [inflateLoop, hlen] at h
    split at h
    · cases h
    · rename_i cap' _
      have hwritten := hz.writes hat (cap' - p) .noFlush
      rw [hdata] at hwritten
      obtain ⟨htake, hnext⟩ := take_written d hp (cap' - p)
      dsimp only at h
      rw [hwritten, htake, List.drop_drop] at h
      rcases inflate_complete hz hat hv (cap' - p) .noFlush with ⟨hfits, hrc⟩ | ⟨hfull, hrc⟩
      · rw [hrc] at h
        cases h
        exact List.take_of_length_le (by omega)
      · split at h
        · rename_i heq
          exact absurd heq hrc
        · rename_i heq
          have hgoes := hz.goesOn hat (cap' - p) .noFlush heq
          have hsum : p + (cap' - p) ≤ d.length := by omega
          rw [hwritten, hnext, Nat.min_eq_left hsum] at hgoes
          have hroom : cap' - (d.take (p + (cap' - p))).length = 0 := by
            rw [List.length_take]
            omega
          rw [if_pos (Or.inr hroom)] at h
          exact ih hgoes hsum h
        · cases h

/-- A complete stream comes back as its data, or not at all. -/
theorem decompressZlib_complete (hz : z.Follows verdict At) {w d out : Bytes} {n hint : Nat}
    (hv : verdict w = .complete n d) (h : decompressZlib (some z) w hint = .ok out) : out = d := by
  unfold decompressZlib at h
  split at h
  · cases h
  · dsimp only at h
    split at h
    · exact inflateOnce_complete hz hv h
    · split at h
      · cases h
      · rename_i zs hinit
        exact inflateLoop_complete hz hv _ (hz.starts zs hinit w) (Nat.zero_le _) h

/-- A compressed payload comes back, whatever its hint is. -/
theorem decompressZlib_compress {compress : Bytes → Bytes} (hz : z.Inverts compress)
    {raw out : Bytes} {hint : Nat} (h : decompressZlib (some z) (compress raw) hint = .ok out) :
    out = raw := by
  obtain ⟨verdict, At, hfollows, hcompress⟩ := hz
  obtain ⟨n, hv⟩ := hcompress raw
  exact decompressZlib_complete hfollows hv h

end AmigaFleet.Mcpd.Fs

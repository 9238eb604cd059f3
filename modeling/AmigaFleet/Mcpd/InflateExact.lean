import AmigaFleet.Mcpd.Frame
import AmigaFleet.Mcpd.Fs
import Mathlib.Logic.Function.Iterate

/-!
# What the daemon decompresses

`_decompress_zlib` on every byte string, for an `Inflate` that follows its
contract.  A *round* is one pass of the loop that runs without a hint; its
buffer starts at four times the input and doubles up to the cap.

* `Round.full` is a round that fills the buffer, `Round.complete`,
  `Round.corrupt` and `Round.truncated` are the last one.
* `Round.reaches` runs the loop up to its last round.
* `decompress_exact_iff` says on which inputs the decoding is exact.
* `ofVerdict_follows` is an `Inflate` that meets the contract, for any format.
-/

namespace AmigaFleet.Mcpd.Fs

open AmigaFleet.Lib

variable {σ : Type} {z : ZIFace σ} {verdict : Bytes → Verdict} {At : σ → Bytes → Nat → Nat → Prop}

/-! ## The buffer -/

/-- The capacity of the buffer that follows a full one. -/
def growCap (cap : Nat) : Nat :=
  if cap * 2 > fsWriteDecompressedMax then fsWriteDecompressedMax else cap * 2

/-- The capacity of the first buffer. -/
def startCap (compressedLen : Nat) : Nat := max (compressedLen * 4) 4096

theorem le_growCap {cap : Nat} (h : cap ≤ fsWriteDecompressedMax) : cap ≤ growCap cap := by
  unfold growCap
  split <;> omega

theorem growCap_le (cap : Nat) : growCap cap ≤ fsWriteDecompressedMax := by
  unfold growCap
  split <;> omega

/-- A full buffer grows until it has the size of the cap. -/
theorem growCap_eq_self {cap : Nat} (hpos : 0 < cap) :
    growCap cap = cap ↔ cap = fsWriteDecompressedMax := by
  unfold growCap
  split <;> omega

theorem iterate_growCap_le {cap : Nat} (h : cap ≤ fsWriteDecompressedMax) (k : Nat) :
    growCap^[k] cap ≤ fsWriteDecompressedMax := by
  cases k with
  | zero => exact h
  | succ k =>
    rw [Function.iterate_succ_apply']
    exact growCap_le _

theorem iterate_growCap_mono {cap : Nat} (h : cap ≤ fsWriteDecompressedMax) {j k : Nat}
    (hjk : j ≤ k) : growCap^[j] cap ≤ growCap^[k] cap := by
  induction k, hjk using Nat.le_induction with
  | base => exact Nat.le_refl _
  | succ k _ ih =>
    rw [Function.iterate_succ_apply']
    exact Nat.le_trans ih (le_growCap (iterate_growCap_le h k))

theorem nextCap_self (cap : Nat) :
    nextCap cap cap = if growCap cap = cap then none else some (growCap cap) := by
  simp only [nextCap, growCap, Nat.sub_self]
  rfl

theorem nextCap_start {compressedLen : Nat} :
    nextCap (startCap compressedLen) 0 = some (startCap compressedLen) := by
  unfold nextCap startCap
  rw [if_neg (by omega)]

/-! ## One round -/

/-- The loop in front of a call of `Inflate`: the stream has taken `c` bytes
of `w` and written `p` bytes of `d`, and `cap'` is the capacity of the buffer
for this round. -/
structure Round (At : σ → Bytes → Nat → Nat → Prop) (w d : Bytes) (zs : σ) (c p cap cap' : Nat) :
    Prop where
  stands : At zs w c p
  grows : nextCap cap p = some cap'
  room : p < cap'
  capped : cap' ≤ fsWriteDecompressedMax
  within : p ≤ d.length
  /-- there is something left to do -/
  unfinished : c < w.length ∨ p < d.length

section Rounds

variable {w d : Bytes} {zs : σ} {c p cap cap' : Nat}

/-- The call of `Inflate` in a round. -/
theorem Round.call (hz : z.Follows verdict At) (hdata : (verdict w).data = d)
    (h : Round At w d zs c p cap cap') (fuel : Nat) :
    inflateLoop z (fuel + 1) zs (w.drop c) (d.take p) cap =
      match (z.inflate zs (w.drop c) (cap' - p) .noFlush).rc with
      | .streamEnd => .ok (d.take cap')
      | .ok =>
        if 0 < (w.drop (c + (z.inflate zs (w.drop c) (cap' - p) .noFlush).consumed)).length ∨
            cap' ≤ d.length then
          inflateLoop z fuel (z.inflate zs (w.drop c) (cap' - p) .noFlush).state
            (w.drop (c + (z.inflate zs (w.drop c) (cap' - p) .noFlush).consumed)) (d.take cap') cap'
        else .ok (d.take cap')
      | _ => .error "zlib Inflate failed" := by
  have hlen : (d.take p).length = p := by
    rw [List.length_take]
    exact Nat.min_eq_left h.within
  have hsum : p + (cap' - p) = cap' := Nat.add_sub_of_le (Nat.le_of_lt h.room)
  have hwritten := hz.writes h.stands (cap' - p) .noFlush
  rw [hdata] at hwritten
  obtain ⟨htake, _⟩ := take_written d h.within (cap' - p)
  rw [hsum] at htake
  have hroom : cap' - (d.take cap').length = 0 ↔ cap' ≤ d.length := by
    rw [List.length_take]
    omega
  rw [inflateLoop, hlen, h.grows]
  cases hrc : (z.inflate zs (w.drop c) (cap' - p) .noFlush).rc with
  | streamEnd => simp only [hrc, hwritten, htake]
  | ok => simp only [hrc, hwritten, htake, hroom, List.drop_drop, gt_iff_lt]
  | _ => simp only [hrc]

/-- A round that fills the buffer. -/
theorem Round.full (hz : z.Follows verdict At) (hdata : (verdict w).data = d)
    (h : Round At w d zs c p cap cap') (hfull : cap' < d.length) (fuel : Nat) :
    ∃ zs' c',
      (cap' ≠ fsWriteDecompressedMax → Round At w d zs' c' cap' cap' (growCap cap')) ∧
      inflateLoop z (fuel + 1) zs (w.drop c) (d.take p) cap =
        inflateLoop z fuel zs' (w.drop c') (d.take cap') cap' := by
  have hroom : cap' - p < (verdict w).data.length - p := by
    rw [hdata]
    have := h.room
    omega
  have hrc : (z.inflate zs (w.drop c) (cap' - p) .noFlush).rc = .ok := by
    rw [hz.fills h.stands _ _ hroom]
    exact if_pos ⟨rfl, Or.inr (Nat.sub_pos_of_lt h.room)⟩
  refine ⟨(z.inflate zs (w.drop c) (cap' - p) .noFlush).state,
    c + (z.inflate zs (w.drop c) (cap' - p) .noFlush).consumed, fun hcap => ?_, ?_⟩
  · have hstands := hz.goesOn h.stands _ _ hrc
    have hsum : p + (cap' - p) = cap' := Nat.add_sub_of_le (Nat.le_of_lt h.room)
    have hwritten := (take_written d h.within (cap' - p)).2
    rw [hsum, Nat.min_eq_left (Nat.le_of_lt hfull)] at hwritten
    rw [hz.writes h.stands, hdata, hwritten] at hstands
    have hpos : 0 < cap' := Nat.zero_lt_of_lt h.room
    have hne : growCap cap' ≠ cap' := fun heq => hcap ((growCap_eq_self hpos).mp heq)
    have hle := le_growCap h.capped
    exact {
      stands := hstands
      grows := by rw [nextCap_self, if_neg hne]
      room := by omega
      capped := growCap_le cap'
      within := by omega
      unfinished := Or.inr hfull }
  · rw [h.call hz hdata, hrc]
    dsimp only
    rw [if_pos (Or.inr (Nat.le_of_lt hfull))]

/-- The last round of a complete stream. -/
theorem Round.complete (hz : z.Follows verdict At) {n : Nat} (hv : verdict w = .complete n d)
    (h : Round At w d zs c p cap cap') (hfits : d.length ≤ cap') (fuel : Nat) :
    inflateLoop z (fuel + 1) zs (w.drop c) (d.take p) cap = .ok d := by
  have hdata : (verdict w).data = d := by rw [hv]; rfl
  have hrc := hz.ends h.stands hv (cap' - p) .noFlush (by omega)
  rw [h.call hz hdata, hrc, List.take_of_length_le hfits]

/-- The last round of a stream with an error in it. -/
theorem Round.corrupt (hz : z.Follows verdict At) (hv : verdict w = .corrupt d)
    (h : Round At w d zs c p cap cap') (hfits : d.length ≤ cap') (fuel : Nat) :
    inflateLoop z (fuel + 1) zs (w.drop c) (d.take p) cap = .error "zlib Inflate failed" := by
  have hdata : (verdict w).data = d := by rw [hv]; rfl
  obtain ⟨hok, hend⟩ := hz.fails h.stands hv (cap' - p) .noFlush (by omega)
  rw [h.call hz hdata]
  split
  · rename_i heq
    exact absurd heq hend
  · rename_i heq
    exact absurd heq hok
  · rfl

/-- The last round of a truncated stream.  With room left in the buffer the
loop takes the data for the whole of it; a buffer that is just full costs one
more call, which makes no progress. -/
theorem Round.truncated (hz : z.Follows verdict At) (hv : verdict w = .truncated d)
    (h : Round At w d zs c p cap cap') (hfits : d.length ≤ cap') (fuel : Nat) :
    (d.length < cap' → inflateLoop z (fuel + 2) zs (w.drop c) (d.take p) cap = .ok d) ∧
    (d.length = cap' →
      ∃ msg, inflateLoop z (fuel + 2) zs (w.drop c) (d.take p) cap = .error msg) := by
  have hdata : (verdict w).data = d := by rw [hv]; rfl
  obtain ⟨hconsumed, hrc⟩ := hz.starves h.stands hv (cap' - p) .noFlush (by omega)
  rw [if_pos ⟨rfl, h.unfinished⟩] at hrc
  have hempty : w.drop (c + (w.length - c)) = [] := List.drop_of_length_le (by omega)
  rw [h.call hz hdata, hrc, hconsumed, hempty, List.take_of_length_le hfits]
  dsimp only
  constructor
  · intro hlt
    rw [if_neg]
    simp only [List.length_nil]
    omega
  · intro heq
    rw [if_pos (Or.inr (Nat.le_of_eq heq.symm))]
    have hstands := hz.goesOn h.stands _ _ hrc
    rw [hz.writes h.stands, hdata, hconsumed, (take_written d h.within (cap' - p)).2] at hstands
    have hp : min (p + (cap' - p)) d.length = d.length := by omega
    rw [hp] at hstands
    unfold inflateLoop
    split
    · exact ⟨_, rfl⟩
    · rename_i room _
      have hstuck := (hz.starves hstands hv (room - d.length) .noFlush (by omega)).2
      rw [if_neg (by omega), hempty] at hstuck
      dsimp only
      rw [hstuck]
      exact ⟨_, rfl⟩

/-- The loop fills its buffers one after the other: it ends at the cap, or it
comes to the first buffer that holds all the data. -/
theorem Round.reaches (hz : z.Follows verdict At) (hdata : (verdict w).data = d) (fuel : Nat)
    (h : Round At w d zs c p cap cap') (hfuel : fsWriteDecompressedMax - cap' + 2 ≤ fuel) :
    (fsWriteDecompressedMax < d.length ∧
      ∃ msg, inflateLoop z fuel zs (w.drop c) (d.take p) cap = .error msg) ∨
    ∃ k fuel' zs' c' p' cap'', Round At w d zs' c' p' cap'' (growCap^[k] cap') ∧
      d.length ≤ growCap^[k] cap' ∧ (∀ j < k, growCap^[j] cap' < d.length) ∧
      inflateLoop z fuel zs (w.drop c) (d.take p) cap =
        inflateLoop z (fuel' + 2) zs' (w.drop c') (d.take p') cap'' := by
  induction fuel generalizing zs c p cap cap' with
  | zero => omega
  | succ fuel ih =>
    rcases Nat.lt_or_ge cap' d.length with hfull | hfits
    · obtain ⟨zs', c', hnext, heq⟩ := h.full hz hdata hfull fuel
      by_cases hcap : cap' = fsWriteDecompressedMax
      · refine Or.inl ⟨by omega, ?_⟩
        rw [heq, hcap]
        obtain ⟨fuel, rfl⟩ : ∃ fuel', fuel = fuel' + 1 := ⟨fuel - 1, by omega⟩
        rw [inflateLoop, List.length_take, Nat.min_eq_left (by omega)]
        exact ⟨_, rfl⟩
      · have hround := hnext hcap
        have hless := hround.room
        have hmost := hround.capped
        rw [heq]
        rcases ih hround (by omega) with
          hover | ⟨k, fuel', zs'', c'', p', cap'', hlast, hholds, hless, hrun⟩
        · exact Or.inl hover
        · refine Or.inr ⟨k + 1, fuel', zs'', c'', p', cap'', hlast, hholds, fun j hj => ?_, hrun⟩
          cases j with
          | zero => exact hfull
          | succ j => exact hless j (by omega)
    · refine Or.inr ⟨0, fuel - 1, zs, c, p, cap, h, hfits, fun j hj => by omega, ?_⟩
      rw [show fuel - 1 + 2 = fuel + 1 by omega]

end Rounds

/-! ## The decoder -/

/-- `r` is the exact decoding of `w`. -/
structure Decodes (verdict : Bytes → Verdict) (w : Bytes) (rawSize : Nat)
    (r : Except String Bytes) : Prop where
  /-- a buffer is the decompression of a complete stream that the input starts with -/
  sound : ∀ out, r = .ok out → ∃ n, verdict w = .complete n out
  /-- a complete stream that fits comes back -/
  total : ∀ n d, verdict w = .complete n d → d ≠ [] → d.length ≤ fsWriteDecompressedMax →
    (rawSize ≠ 0 → d.length = rawSize) → r = .ok d
  /-- a truncated stream is refused -/
  whole : ∀ d, verdict w = .truncated d → ∃ msg, r = .error msg
  /-- a stream over the cap is refused -/
  capped : ∀ n d, verdict w = .complete n d → fsWriteDecompressedMax < d.length →
    ∃ msg, r = .error msg

/-- A truncated stream does not go unnoticed: there is a hint, or its data
fills one of the buffers of the loop to the last byte or does not fit. -/
def Noticed (verdict : Bytes → Verdict) (w : Bytes) (rawSize : Nat) : Prop :=
  w ≠ [] → rawSize = 0 → ∀ d, verdict w = .truncated d →
    fsWriteDecompressedMax ≤ d.length ∨ ∃ k, growCap^[k] (startCap w.length) = d.length

theorem startCap_le {w : Bytes} (hlen : w.length ≤ mcpdFrameMaxPayload) :
    startCap w.length ≤ fsWriteDecompressedMax := by
  unfold startCap fsWriteDecompressedMax
  unfold mcpdFrameMaxPayload at hlen
  omega

/-- The first round. -/
theorem Round.first (hz : z.Follows verdict At) {zs : σ} (hinit : z.inflateInit = some zs)
    {w : Bytes} (hw : w ≠ []) (hlen : w.length ≤ mcpdFrameMaxPayload) :
    Round At w (verdict w).data zs 0 0 (startCap w.length) (startCap w.length) where
  stands := hz.starts zs hinit w
  grows := nextCap_start
  room := by
    unfold startCap
    omega
  capped := startCap_le hlen
  within := Nat.zero_le _
  unfinished := Or.inl (List.length_pos_of_ne_nil hw)

section Loop

variable {w d : Bytes} {zs : σ}

/-- The run of the loop that `_decompress_zlib` starts. -/
theorem loop_reaches (hz : z.Follows verdict At) (hinit : z.inflateInit = some zs) (hw : w ≠ [])
    (hlen : w.length ≤ mcpdFrameMaxPayload) (hdata : (verdict w).data = d) :
    (fsWriteDecompressedMax < d.length ∧ ∃ msg, decompressZlib (some z) w 0 = .error msg) ∨
    ∃ k fuel zs' c p cap, Round At w d zs' c p cap (growCap^[k] (startCap w.length)) ∧
      d.length ≤ growCap^[k] (startCap w.length) ∧
      (∀ j < k, growCap^[j] (startCap w.length) < d.length) ∧
      decompressZlib (some z) w 0 = inflateLoop z (fuel + 2) zs' (w.drop c) (d.take p) cap := by
  have hpos : w.length ≠ 0 := by
    rw [Ne, List.length_eq_zero_iff]
    exact hw
  have hrun : decompressZlib (some z) w 0 =
      inflateLoop z (w.length + fsWriteDecompressedMax + 1) zs (w.drop 0) (d.take 0)
        (startCap w.length) := by
    simp only [decompressZlib, if_neg hpos, List.drop_zero, List.take_zero, hinit, startCap,
      gt_iff_lt, Nat.lt_irrefl, if_false]
  have hfirst := Round.first hz hinit hw hlen
  rw [hdata] at hfirst
  rw [hrun]
  refine hfirst.reaches hz hdata _ ?_
  have := hfirst.capped
  omega

theorem loop_complete (hz : z.Follows verdict At) (hinit : z.inflateInit = some zs) (hw : w ≠ [])
    (hlen : w.length ≤ mcpdFrameMaxPayload) {n : Nat} (hv : verdict w = .complete n d) :
    (d.length ≤ fsWriteDecompressedMax → decompressZlib (some z) w 0 = .ok d) ∧
    (fsWriteDecompressedMax < d.length → ∃ msg, decompressZlib (some z) w 0 = .error msg) := by
  have hdata : (verdict w).data = d := by rw [hv]; rfl
  rcases loop_reaches hz hinit hw hlen hdata with
    ⟨hover, herr⟩ | ⟨k, fuel, zs', c, p, cap, hlast, hfits, _, hrun⟩
  · exact ⟨fun hle => by omega, fun _ => herr⟩
  · have hcap := hlast.capped
    refine ⟨fun _ => ?_, fun hover => by omega⟩
    rw [hrun]
    exact hlast.complete hz hv hfits _

theorem loop_corrupt (hz : z.Follows verdict At) (hinit : z.inflateInit = some zs) (hw : w ≠ [])
    (hlen : w.length ≤ mcpdFrameMaxPayload) (hv : verdict w = .corrupt d) :
    ∃ msg, decompressZlib (some z) w 0 = .error msg := by
  have hdata : (verdict w).data = d := by rw [hv]; rfl
  rcases loop_reaches hz hinit hw hlen hdata with
    ⟨_, herr⟩ | ⟨k, fuel, zs', c, p, cap, hlast, hfits, _, hrun⟩
  · exact herr
  · rw [hrun, hlast.corrupt hz hv hfits]
    exact ⟨_, rfl⟩

/-- What the loop makes of a truncated stream depends on where its data ends
in the buffers. -/
theorem loop_truncated (hz : z.Follows verdict At) (hinit : z.inflateInit = some zs) (hw : w ≠ [])
    (hlen : w.length ≤ mcpdFrameMaxPayload) (hv : verdict w = .truncated d) :
    (∃ msg, decompressZlib (some z) w 0 = .error msg) ↔
      fsWriteDecompressedMax ≤ d.length ∨ ∃ k, growCap^[k] (startCap w.length) = d.length := by
  have hdata : (verdict w).data = d := by rw [hv]; rfl
  rcases loop_reaches hz hinit hw hlen hdata with
    ⟨hover, herr⟩ | ⟨k, fuel, zs', c, p, cap, hlast, hfits, hbefore, hrun⟩
  · exact ⟨fun _ => Or.inl (Nat.le_of_lt hover), fun _ => herr⟩
  · obtain ⟨hopen, hfull⟩ := hlast.truncated hz hv hfits fuel
    have hcap := hlast.capped
    rw [hrun]
    rcases Nat.lt_or_eq_of_le hfits with hlt | heq
    · rw [hopen hlt]
      constructor
      · intro ⟨msg, herr⟩
        cases herr
      · rintro (hmax | ⟨j, hj⟩)
        · omega
        · -- the buffers before the last are full, the ones after it are larger
          rcases Nat.lt_or_ge j k with hjk | hkj
          · exact absurd hj (Nat.ne_of_lt (hbefore j hjk))
          · have hmono := iterate_growCap_mono (startCap_le hlen) hkj
            omega
    · exact ⟨fun _ => Or.inr ⟨k, heq.symm⟩, fun _ => hfull heq⟩

end Loop

section Once

variable {w d : Bytes} {zs : σ} {rawSize : Nat}

/-- Without a complete stream the one call does not end. -/
theorem once_other (hz : z.Follows verdict At) (hinit : z.inflateInit = some zs)
    (hv : ∀ n d, verdict w ≠ .complete n d) : ∃ msg, inflateOnce z w rawSize = .error msg := by
  have hstands := hz.starts zs hinit w
  have hrc : (z.inflate zs w rawSize .finish).rc ≠ .streamEnd := by
    rcases Nat.lt_or_ge rawSize ((verdict w).data.length - 0) with hfull | hfits
    · have hrc := hz.fills hstands rawSize .finish hfull
      rw [List.drop_zero, if_neg (by simp)] at hrc
      simp [hrc]
    · cases hverdict : verdict w with
      | complete n d => exact absurd hverdict (hv n d)
      | truncated d =>
        rw [hverdict] at hfits
        have hrc := (hz.starves hstands hverdict rawSize .finish hfits).2
        rw [List.drop_zero, if_neg (by simp)] at hrc
        simp [hrc]
      | corrupt d =>
        rw [hverdict] at hfits
        have hrc := (hz.fails hstands hverdict rawSize .finish hfits).2
        rw [List.drop_zero] at hrc
        exact hrc
  unfold inflateOnce
  split
  · exact ⟨_, rfl⟩
  · rw [hinit]
    dsimp only
    rw [if_pos hrc]
    exact ⟨_, rfl⟩

/-- The one call ends a complete stream if its data has the size of the hint. -/
theorem once_complete (hz : z.Follows verdict At) (hinit : z.inflateInit = some zs) {n : Nat}
    (hv : verdict w = .complete n d) (hmax : d.length ≤ fsWriteDecompressedMax) :
    inflateOnce z w d.length = .ok d := by
  have hdata : (verdict w).data = d := by rw [hv]; rfl
  have hstands := hz.starts zs hinit w
  have hrc := hz.ends hstands hv d.length .finish (Nat.sub_le _ _)
  have hwritten := hz.writes hstands d.length .finish
  rw [List.drop_zero] at hrc hwritten
  rw [hdata, List.drop_zero, List.take_length] at hwritten
  rw [inflateOnce, if_neg (by omega), hinit]
  dsimp only
  rw [hrc, hwritten, if_neg (by simp), if_neg (by simp)]

/-- What the one call returns has the size of the hint. -/
theorem inflateOnce_length {out : Bytes} (h : inflateOnce z w rawSize = .ok out) :
    out.length = rawSize ∧ rawSize ≤ fsWriteDecompressedMax := by
  unfold inflateOnce at h
  split at h
  · cases h
  · split at h
    · cases h
    · dsimp only at h
      split at h
      · cases h
      · split at h
        · cases h
        · rename_i hsize
          cases h
          exact ⟨not_not.mp hsize, by omega⟩

end Once

/-- Without a hint. -/
theorem decodes_loop (hz : z.Follows verdict At) {zs : σ} (hinit : z.inflateInit = some zs)
    {w : Bytes} (hw : w ≠ []) (hlen : w.length ≤ mcpdFrameMaxPayload)
    (hnoticed : Noticed verdict w 0) : Decodes verdict w 0 (decompressZlib (some z) w 0) where
  sound := by
    intro out hout
    cases hv : verdict w with
    | complete n d =>
      refine ⟨n, ?_⟩
      rw [decompressZlib_complete hz hv hout]
    | truncated d =>
      obtain ⟨msg, herr⟩ := (loop_truncated hz hinit hw hlen hv).mpr (hnoticed hw rfl d hv)
      rw [herr] at hout
      cases hout
    | corrupt d =>
      obtain ⟨msg, herr⟩ := loop_corrupt hz hinit hw hlen hv
      rw [herr] at hout
      cases hout
  total := fun _ _ hv _ hmax _ => (loop_complete hz hinit hw hlen hv).1 hmax
  whole := fun d hv => (loop_truncated hz hinit hw hlen hv).mpr (hnoticed hw rfl d hv)
  capped := fun _ _ hv hover => (loop_complete hz hinit hw hlen hv).2 hover

/-- With a hint. -/
theorem decodes_once (hz : z.Follows verdict At) {zs : σ} (hinit : z.inflateInit = some zs)
    {w : Bytes} (hw : w ≠ []) {rawSize : Nat} (hhint : 0 < rawSize) :
    Decodes verdict w rawSize (decompressZlib (some z) w rawSize) := by
  have hpos : w.length ≠ 0 := by
    rw [Ne, List.length_eq_zero_iff]
    exact hw
  have hrun : decompressZlib (some z) w rawSize = inflateOnce z w rawSize := by
    simp only [decompressZlib, if_neg hpos, gt_iff_lt, if_pos hhint]
  rw [hrun]
  refine ⟨fun out hout => ?_, fun n d hv _ hmax hsize => ?_, fun d hv => ?_, fun n d hv hover => ?_⟩
  · by_cases hv : ∃ n d, verdict w = .complete n d
    · obtain ⟨n, d, hv⟩ := hv
      refine ⟨n, ?_⟩
      rw [hv, inflateOnce_complete hz hv hout]
    · push Not at hv
      have hother : ∃ msg, inflateOnce z w rawSize = .error msg := once_other hz hinit hv
      obtain ⟨msg, herr⟩ := hother
      rw [herr] at hout
      cases hout
  · rw [← hsize (by omega)]
    exact once_complete hz hinit hv hmax
  · exact once_other hz hinit fun n d' hv' => by rw [hv] at hv'; cases hv'
  · cases hout : inflateOnce z w rawSize with
    | error msg => exact ⟨msg, rfl⟩
    | ok out =>
      have hsize := inflateOnce_length hout
      rw [inflateOnce_complete hz hv hout] at hsize
      omega

/-- `_decompress_zlib` is exact if and only if a truncated stream is noticed.
The input is no longer than the frame that it came in. -/
theorem decompress_exact_iff (hz : z.Follows verdict At) (hinit : z.inflateInit ≠ none)
    (hempty : ∀ n d, verdict [] ≠ .complete n d) (w : Bytes) (rawSize : Nat)
    (hlen : w.length ≤ mcpdFrameMaxPayload) :
    Decodes verdict w rawSize (decompressZlib (some z) w rawSize) ↔ Noticed verdict w rawSize := by
  obtain ⟨zs, hinit⟩ := Option.ne_none_iff_exists'.mp hinit
  constructor
  · intro h hw hzero d hv
    subst hzero
    exact (loop_truncated hz hinit hw hlen hv).mp (h.whole d hv)
  · intro hnoticed
    by_cases hw : w = []
    · subst hw
      have hrun : decompressZlib (some z) [] rawSize = .error "empty compressed payload" := rfl
      rw [hrun]
      exact {
        sound := fun out hout => by cases hout
        total := fun n d hv => absurd hv (hempty n d)
        whole := fun _ _ => ⟨_, rfl⟩
        capped := fun n d hv => absurd hv (hempty n d) }
    · rcases Nat.eq_zero_or_pos rawSize with hzero | hhint
      · subst hzero
        exact decodes_loop hz hinit hw hlen hnoticed
      · exact decodes_once hz hinit hw hhint

/-- The same for a request: the payload is decoded from a text of its frame. -/
theorem decodeWritePayload_exact_iff (hz : z.Follows verdict At) (hinit : z.inflateInit ≠ none)
    (hempty : ∀ n d, verdict [] ≠ .complete n d) {params : Option CJson} {text w : Bytes}
    (htext : pStr params "content_b64" = .ok text) (hframe : text.length ≤ mcpdFrameMaxPayload)
    (hw : B64.b64Decode text = some w)
    (hmode : params.bind (CJson.getItem (ascii "compression")) = some (.string (ascii "zlib"))) :
    ∃ r, decodeWritePayload (some z) params =
        r.mapError (fun msg => rpcMakeError mcpdErrInvparams msg none) ∧
      (Decodes verdict w (sizeT (pInt params "raw_size" 0)) r ↔
        Noticed verdict w (sizeT (pInt params "raw_size" 0))) := by
  have hlen := Nat.le_trans (B64.b64Decode_length hw) hframe
  refine ⟨decompressZlib (some z) w (sizeT (pInt params "raw_size" 0)), ?_,
    decompress_exact_iff hz hinit hempty w _ hlen⟩
  simp only [decodeWritePayload, htext, hw, hmode, bind, Except.bind, if_true]
  cases decompressZlib (some z) w (sizeT (pInt params "raw_size" 0)) <;> rfl

/-! ## An Inflate that follows the contract -/

/-- The inflater of a format: it keeps the bytes it has been given and waits
with them until there is room for all of their data. -/
def ZIFace.ofVerdict (verdict : Bytes → Verdict) : ZIFace (Bytes × Nat) where
  inflateInit := some ([], 0)
  inflate := fun (taken, p) input room flush =>
    let data := (verdict (taken ++ input)).data
    let written := (data.drop p).take room
    if room < data.length - p then
      { rc := if flush = .noFlush ∧ 0 < room then .ok else .bufError
        state := (taken, p + written.length), consumed := 0, written := written }
    else
      let state := (taken ++ input, p + written.length)
      match verdict (taken ++ input) with
      | .complete n _ =>
        { rc := .streamEnd, state := state, consumed := n - taken.length, written := written }
      | .truncated d =>
        { rc := if flush = .noFlush ∧ (0 < input.length ∨ p < d.length) then .ok else .bufError
          state := state, consumed := input.length, written := written }
      | .corrupt _ =>
        { rc := .dataError, state := state, consumed := input.length, written := written }

/-- The state of that inflater. -/
def Holds (zs : Bytes × Nat) (w : Bytes) (c p : Nat) : Prop := zs = (w.take c, p)

theorem ofVerdict_follows (verdict : Bytes → Verdict) :
    (ZIFace.ofVerdict verdict).Follows verdict Holds where
  starts := by
    intro zs hinit w
    cases hinit
    rfl
  writes := by
    intro zs w c p hat room flush
    subst hat
    simp only [ZIFace.ofVerdict, List.take_append_drop]
    split
    · rfl
    · split <;> rfl
  ends := by
    intro zs w c p n d hat hv room flush hroom
    subst hat
    simp only [ZIFace.ofVerdict, List.take_append_drop, hv, Verdict.data]
    rw [if_neg (by omega)]
  starves := by
    intro zs w c p d hat hv room flush hroom
    subst hat
    simp only [ZIFace.ofVerdict, List.take_append_drop, hv, Verdict.data]
    rw [if_neg (by omega)]
    simp only [List.length_drop, Nat.sub_pos_iff_lt, and_self]
  fails := by
    intro zs w c p d hat hv room flush hroom
    subst hat
    simp only [ZIFace.ofVerdict, List.take_append_drop, hv, Verdict.data]
    rw [if_neg (by omega)]
    simp
  fills := by
    intro zs w c p hat room flush hroom
    subst hat
    simp only [ZIFace.ofVerdict, List.take_append_drop]
    rw [if_pos hroom]
    simp only [Nat.lt_irrefl, false_or]
  goesOn := by
    intro zs w c p hat room flush hrc
    subst hat
    simp only [ZIFace.ofVerdict, List.take_append_drop] at hrc ⊢
    split at hrc
    · rename_i hfull
      simp only [if_pos hfull, Nat.add_zero]
      rfl
    · rename_i hfits
      simp only [if_neg hfits]
      split at hrc
      · cases hrc
      · rename_i d hv
        simp only [hv, List.length_drop]
        show _ = _
        rw [List.take_of_length_le (show w.length ≤ c + (w.length - c) by omega)]
      · cases hrc

/-- The zlib stream of the text "a". -/
def sampleStream : Bytes := [0x78, 0x9c, 0x4b, 0x04, 0x00, 0x00, 0x62, 0x00, 0x62]

/-- The format with that one stream; the letter is decoded from its fourth byte on. -/
def sampleVerdict (w : Bytes) : Verdict :=
  if sampleStream.isPrefixOf w then .complete 9 [0x61]
  else if w.isPrefixOf sampleStream then .truncated (if 4 ≤ w.length then [0x61] else [])
  else .corrupt []

/-- The stream without its last byte is refused with a hint. -/
theorem decompress_exact_sample :
    Decodes sampleVerdict (sampleStream.take 8) 1
      (decompressZlib (some (ZIFace.ofVerdict sampleVerdict)) (sampleStream.take 8) 1) :=
  (decompress_exact_iff (ofVerdict_follows sampleVerdict) (by simp [ZIFace.ofVerdict])
    (fun n d h => by cases h) (sampleStream.take 8) 1 (by decide)).mpr
    fun _ hzero => absurd hzero (by decide)

/-- Without a hint it is taken for the whole of its data. -/
theorem truncated_accepted :
    (ZIFace.ofVerdict sampleVerdict).Follows sampleVerdict Holds ∧
    sampleVerdict (sampleStream.take 8) = .truncated [0x61] ∧
    decompressZlib (some (ZIFace.ofVerdict sampleVerdict)) (sampleStream.take 8) 0 = .ok [0x61] ∧
    ¬ Decodes sampleVerdict (sampleStream.take 8) 0
      (decompressZlib (some (ZIFace.ofVerdict sampleVerdict)) (sampleStream.take 8) 0) := by
  have hverdict : sampleVerdict (sampleStream.take 8) = .truncated [0x61] := by decide
  have hrun : decompressZlib (some (ZIFace.ofVerdict sampleVerdict)) (sampleStream.take 8) 0 =
      .ok [0x61] := by
    decide +kernel
  refine ⟨ofVerdict_follows sampleVerdict, hverdict, hrun, fun h => ?_⟩
  obtain ⟨msg, herr⟩ := h.whole _ hverdict
  rw [hrun] at herr
  cases herr

/-- A compressor for that format.  Another text it only marks, by a byte that no
stream begins with. -/
def sampleZlib (raw : Bytes) : Bytes := if raw = [0x61] then sampleStream else 0 :: raw

/-- The format with the marked texts. -/
def markedVerdict (w : Bytes) : Verdict :=
  match w with
  | 0 :: raw => .complete (raw.length + 1) raw
  | _ => sampleVerdict w

def sampleInflate : ZIFace (Bytes × Nat) := ZIFace.ofVerdict markedVerdict

theorem sampleInflate_inverts : sampleInflate.Inverts sampleZlib := by
  refine ⟨markedVerdict, Holds, ofVerdict_follows markedVerdict, fun raw => ?_⟩
  unfold sampleZlib
  split
  · rename_i hraw
    subst hraw
    exact ⟨9, rfl⟩
  · exact ⟨raw.length + 1, rfl⟩

end AmigaFleet.Mcpd.Fs

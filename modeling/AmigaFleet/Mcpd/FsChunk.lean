import AmigaFleet.Mcpd.Fs

/-!
# What a chunk leaves in the file

The comment at `fs_write_chunk` promises that `truncate` cuts the file off
behind the chunk.  The handler only opens with `MODE_NEWFILE` for it, which it
does at offset 0.

* `ChunkExact` is what a chunk should leave in the file.
* `chunk_exact_iff`: so it is unless the chunk is to truncate, starts inside the
  file and ends in front of its end.
* `chunk_keeps_tail` is a shorter file that is sent again from offset 2 on.
-/

namespace AmigaFleet.Mcpd.Fs

open AmigaFleet.Lib

variable {σ : Type}

/-- The bytes of a file, or none where there is no file. -/
def Volume.bytes (volume : Volume) (path : Bytes) : Bytes := (volume path).getD []

/-- The file `after` is the file `prior` with `data` at `offset`, which ends
behind the data when it is truncated. -/
structure Chunked (prior after : Bytes) (offset : Nat) (truncate : Bool) (data : Bytes) : Prop where
  outside : ∀ i < after.length, i < offset ∨ offset + data.length ≤ i → after[i]? = prior[i]?
  inside : ∀ i < data.length, after[offset + i]? = data[i]?
  length : after.length =
    if truncate then offset + data.length else max prior.length (offset + data.length)

/-- What a call that succeeds should leave behind and report. -/
structure ChunkExact (volume : Volume) (result : Volume × Outcome) (path : Bytes) (offset : Nat)
    (truncate : Bool) (data : Bytes) : Prop where
  file : ∃ after, result.1 path = some after ∧
    Chunked (volume.bytes path) after offset truncate data
  others : ∀ other, other ≠ path → result.1 other = volume other
  total : ∃ r, result.2 = .ok r ∧
    r.getItem (ascii "total_so_far") = some (cNumber (offset + data.length : Nat))

/-- A call that succeeds has written all of its data. -/
theorem writeAt_ok {dos : WriteDos} {volume : Volume} {path : Bytes} {offset : Nat}
    {truncate : Bool} {data : Bytes} (hoffset : offset ≤ (volume.bytes path).length)
    (hok : (writeAt dos volume path offset truncate data).2.isOk = true) :
    writeAt dos volume path offset truncate data =
      (Function.update volume path (some (patch 0
        (if offset = 0 ∧ truncate = true then [] else volume.bytes path) offset data)),
       .ok (.object [(ascii "path", .string path), (ascii "offset", cNumber offset),
          (ascii "written", cNumber data.length),
          (ascii "total_so_far", cNumber (offset + data.length : Nat))])) := by
  unfold writeAt at hok ⊢
  split at hok
  · cases hok
  · rename_i hopen
    rw [if_neg hopen]
    dsimp only at hok ⊢
    split at hok
    · cases hok
    · rename_i hseek
      rw [if_neg hseek]
      split at hok
      · cases hok
      · rename_i hall
        have hwrote : data.take (dos.room.getD data.length) = data := by
          apply List.take_of_length_le
          rw [ne_eq, not_not, List.length_take] at hall
          omega
        rw [if_neg hall, hwrote]
        by_cases hdata : data = []
        · subst hdata
          rw [if_pos rfl, patch_empty]
          · rfl
          · split
            · rename_i hnew
              rw [hnew.1]
              exact Nat.zero_le _
            · exact hoffset
        · rw [if_neg hdata]
          rfl

/-- For a reply that reports the position, only the file matters. -/
theorem chunkExact_update (volume : Volume) (path after : Bytes) (offset : Nat) (truncate : Bool)
    (data : Bytes) {r : CJson}
    (htotal : r.getItem (ascii "total_so_far") = some (cNumber (offset + data.length : Nat))) :
    ChunkExact volume (Function.update volume path (some after), .ok r) path offset truncate data ↔
      Chunked (volume.bytes path) after offset truncate data := by
  apply Iff.intro
  · intro h
    obtain ⟨written, hwritten, hchunked⟩ := h.file
    have hsame : after = written :=
      Option.some.inj ((Function.update_self path _ volume).symm.trans hwritten)
    rwa [hsame]
  · intro h
    exact ⟨⟨after, Function.update_self _ _ _, h⟩,
      fun other hother => Function.update_of_ne hother _ _, ⟨r, rfl, htotal⟩⟩

/-- Writing without truncation. -/
theorem chunked_patch {prior : Bytes} {offset : Nat} (hoffset : offset ≤ prior.length)
    (data : Bytes) : Chunked prior (patch 0 prior offset data) offset false data where
  outside := by
    intro i hi hout
    rw [length_patch] at hi
    apply hout.elim
    · intro hbefore
      exact getElem?_patch_before hbefore (by omega)
    · exact getElem?_patch_after
  inside := by
    intro i hi
    rw [getElem?_patch_inside (by omega) (by omega)]
    congr 1
    omega
  length := length_patch 0 prior offset data

/-- Writing to a new file. -/
theorem chunked_new (prior data : Bytes) : Chunked prior (patch 0 [] 0 data) 0 true data where
  outside := by
    intro i hi hout
    rw [patch_nil] at hi
    omega
  inside := by
    intro i _
    rw [patch_nil, Nat.zero_add]
  length := by
    rw [patch_nil, if_pos rfl, Nat.zero_add]

/-- The file that a chunk behind offset 0 leaves is truncated when nothing
stands behind the chunk. -/
theorem chunked_truncated_iff {prior : Bytes} {offset : Nat} (hoffset : offset ≤ prior.length)
    (data : Bytes) : Chunked prior (patch 0 prior offset data) offset true data ↔
      prior.length ≤ offset + data.length := by
  have hlength := length_patch (0 : UInt8) prior offset data
  apply Iff.intro
  · intro h
    have hcut := h.length
    rw [if_pos rfl] at hcut
    omega
  · intro hend
    have hpatch := chunked_patch hoffset data
    refine ⟨hpatch.outside, hpatch.inside, ?_⟩
    rw [if_pos rfl]
    omega

/-- A chunk that is written leaves the file as it should, unless it is to
truncate, starts behind the first byte and ends in front of the end of the
file. -/
theorem chunk_exact_iff (iz : Option (ZIFace σ)) (dos : WriteDos) (volume : Volume)
    (params : Option CJson) {path data : Bytes} {offset : Nat}
    (hparams : writeChunkParams iz params = .ok (path, offset, data))
    (hoffset : offset ≤ (volume.bytes path).length)
    (hok : (fsWriteChunk iz dos volume params).2.isOk = true) :
    ChunkExact volume (fsWriteChunk iz dos volume params) path offset (doTruncate params offset)
        data ↔
      ¬ (doTruncate params offset = true ∧ 0 < offset ∧
        offset + data.length < (volume.bytes path).length) := by
  have hcall : fsWriteChunk iz dos volume params =
      writeAt dos volume path offset (doTruncate params offset) data := by
    rw [fsWriteChunk, hparams]
  rw [hcall] at hok
  rw [hcall, writeAt_ok hoffset hok]
  rw [chunkExact_update volume path _ _ _ _ rfl]
  cases htruncate : doTruncate params offset with
  | false =>
    rw [if_neg (by simp)]
    exact iff_of_true (chunked_patch hoffset data) (by simp)
  | true =>
    by_cases hzero : offset = 0
    · subst hzero
      rw [if_pos ⟨rfl, rfl⟩]
      exact iff_of_true (chunked_new _ data) (by simp)
    · rw [if_neg (by simp [hzero]), chunked_truncated_iff hoffset data]
      have hpos : 0 < offset := Nat.pos_of_ne_zero hzero
      simp only [true_and, hpos, not_lt]

/-! ## A shorter file over a longer one -/

/-- The parameters of the second chunk `X`, with `truncate`. -/
def secondChunk : CJson :=
  .object [(ascii "path", .string (ascii "RAM:f")), (ascii "offset", cNumber 2),
    (ascii "content_b64", .string (ascii "WA==")), (ascii "truncate", .bool true)]

/-- `abcde` in the file that the chunk is for. -/
def longFile : Volume := fun path => if path = ascii "RAM:f" then some (ascii "abcde") else none

theorem secondChunk_params (iz : Option (ZIFace σ)) :
    writeChunkParams iz (some secondChunk) = .ok (ascii "RAM:f", 2, ascii "X") := by
  rfl

theorem chunk_exact_sample :
    ChunkExact (fun _ => some (ascii "ab")) (fsWriteChunk (σ := Unit) none {}
      (fun _ => some (ascii "ab")) (some secondChunk)) (ascii "RAM:f") 2 true (ascii "X") :=
  (chunk_exact_iff none {} (fun _ => some (ascii "ab")) (some secondChunk)
    (secondChunk_params none) (by decide) rfl).mpr (by decide)

/-- The end of the old file stays behind the chunk. -/
theorem chunk_keeps_tail :
    (fsWriteChunk (σ := Unit) none {} longFile (some secondChunk)).2.isOk = true ∧
    (fsWriteChunk (σ := Unit) none {} longFile (some secondChunk)).1 (ascii "RAM:f") =
      some (ascii "abXde") ∧
    ¬ ChunkExact longFile (fsWriteChunk (σ := Unit) none {} longFile (some secondChunk))
      (ascii "RAM:f") 2 true (ascii "X") := by
  refine ⟨rfl, rfl, fun h => ?_⟩
  obtain ⟨after, hafter, hchunked⟩ := h.file
  have hlen := hchunked.length
  have hkeeps : after = ascii "abXde" := (Option.some.inj hafter).symm
  subst hkeeps
  exact absurd hlen (by decide)

end AmigaFleet.Mcpd.Fs

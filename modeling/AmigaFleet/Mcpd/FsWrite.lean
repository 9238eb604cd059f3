import AmigaFleet.Mcpd.FsChunk

/-!
# fs.write

`fs_write` of `mcpd/src/methods/fs.c`.  It reads no offset and no `truncate`, and has
no position to seek to; otherwise it is the first chunk of an upload.

* `writeWhole_file`: what a call leaves in the file.
* `fsWrite_eq_first_chunk`: the same parameters in `fs_write_chunk`.
-/

namespace AmigaFleet.Mcpd.Fs

open AmigaFleet.Lib

variable {σ : Type}

/-- The result object of `fs_write`. -/
def writeResult (path : Bytes) (wrote : Nat) : CJson :=
  .object [(ascii "path", .string path), (ascii "size", cNumber wrote)]

/-- `fs_write` once the parameters are read. -/
def writeWhole (dos : WriteDos) (volume : Volume) (path data : Bytes) : Volume × Outcome :=
  if dos.opens = false then (volume, .error (fsErrorFor dos.ioErr path))
  else
    let wrote := data.take (dos.room.getD data.length)
    let volume := Function.update volume path (some wrote)
    if wrote.length ≠ data.length then (volume, .error (fsErrorFor dos.ioErr path))
    else (volume, .ok (writeResult path wrote.length))

/-- The parameters of `fs_write`, in the order it reads them. -/
def writeParams (iz : Option (ZIFace σ)) (params : Option CJson) : Except CJson (Bytes × Bytes) := do
  let path ← pStr params "path"
  let data ← decodeWritePayload iz params
  .ok (path, data)

/-- `fs_write` -/
def fsWrite (iz : Option (ZIFace σ)) (dos : WriteDos) (volume : Volume) (params : Option CJson) :
    Volume × Outcome :=
  match writeParams iz params with
  | .error err => (volume, .error err)
  | .ok (path, data) => writeWhole dos volume path data

/-- A call that succeeds has made the file what it was given; another one has left it alone, or has
made it a beginning of that. -/
theorem writeWhole_file (dos : WriteDos) (volume : Volume) (path data : Bytes) :
    ((writeWhole dos volume path data).1 = Function.update volume path (some data) ∧
      (writeWhole dos volume path data).2 = .ok (writeResult path data.length)) ∨
    (∃ err, (writeWhole dos volume path data).2 = .error err) ∧
      ((writeWhole dos volume path data).1 = volume ∨
        ∃ part, part <+: data ∧
          (writeWhole dos volume path data).1 = Function.update volume path (some part)) := by
  unfold writeWhole
  by_cases hopen : dos.opens = false
  · rw [if_pos hopen]
    exact .inr ⟨⟨_, rfl⟩, .inl rfl⟩
  · rw [if_neg hopen]
    dsimp only
    split
    · exact .inr ⟨⟨_, rfl⟩, .inr ⟨_, List.take_prefix _ data, rfl⟩⟩
    · rename_i hall
      have hwrote : data.take (dos.room.getD data.length) = data := by
        apply List.take_of_length_le
        rw [ne_eq, not_not, List.length_take] at hall
        omega
      rw [hwrote]
      exact .inl ⟨rfl, rfl⟩

theorem writeWhole_eq_writeAt (dos : WriteDos) (volume : Volume) (path data : Bytes) :
    (writeWhole dos volume path data).1 = (writeAt dos volume path 0 true data).1 ∧
      (writeWhole dos volume path data).2.isOk = (writeAt dos volume path 0 true data).2.isOk := by
  unfold writeWhole writeAt
  by_cases hopen : dos.opens = false
  · rw [if_pos hopen, if_pos hopen]
    exact ⟨rfl, rfl⟩
  · have hbase : ∀ wrote : Bytes, (if wrote = [] then [] else patch 0 [] 0 wrote) = wrote := by
      intro wrote
      rw [patch_nil]
      split
      · rename_i hnil
        exact hnil.symm
      · rfl
    have hnew : (if 0 = 0 ∧ true = true then [] else (volume path).getD []) = [] :=
      if_pos ⟨rfl, rfl⟩
    have hseek : ¬ (0 > 0 ∧ dos.seeks = false) := by simp
    rw [if_neg hopen, if_neg hopen]
    dsimp only
    rw [if_neg hseek, hnew, hbase]
    split
    · exact ⟨rfl, rfl⟩
    · exact ⟨rfl, rfl⟩

/-- With the offset 0 in the parameters, and no `truncate`, `fs_write_chunk` does what `fs_write`
does without it. -/
theorem fsWrite_eq_first_chunk (iz : Option (ZIFace σ)) (dos : WriteDos) (volume : Volume)
    {params : Option CJson} (hoffset : offsetOf params = .ok 0) (htruncate : doTruncate params 0 = true) :
    (fsWrite iz dos volume params).1 = (fsWriteChunk iz dos volume params).1 ∧
      (fsWrite iz dos volume params).2.isOk = (fsWriteChunk iz dos volume params).2.isOk := by
  unfold fsWrite fsWriteChunk writeParams writeChunkParams
  cases pStr params "path" with
  | error err => exact ⟨rfl, rfl⟩
  | ok path =>
    cases hdata : decodeWritePayload iz params with
    | error err =>
      rw [hoffset]
      exact ⟨rfl, rfl⟩
    | ok data =>
      simp only [bind, Except.bind, hoffset, htruncate]
      exact writeWhole_eq_writeAt dos volume path data

end AmigaFleet.Mcpd.Fs

import AmigaFleet.Lib.Patch
import AmigaFleet.Mcpd.B64
import AmigaFleet.Mcpd.CJson
import AmigaFleet.Mcpd.Inflate

/-!
# fs.write_chunk

`_decode_write_payload` and `fs_write_chunk` of `mcpd/src/methods/fs.c`, with
the error texts that the fs handlers share.

A `Volume` is the files by their path.  `WriteDos` is what `dos.library`
answers during one call.  `fs_write_chunk` opens with `MODE_NEWFILE` when it
is to truncate at offset 0, which empties the file, and with `MODE_READWRITE`
otherwise, which keeps what is there and makes a file where none is.

`writeAt_whole` says what one complete execution leaves behind.  `fs_sync`,
which flushes what a write has left in a handler's cache, stands at the end.
-/

namespace AmigaFleet.Mcpd.Fs

open AmigaFleet.Lib

/-! ## Errors -/

/-- The codes that `ioerr_msg` knows. -/
inductive IoErr where
  | ok
  | objectNotFound
  | objectExists
  | objectInUse
  | objectWrongType
  | dirNotFound
  | invalidLock
  | noFreeStore
  | diskFull
  | deleteProtected
  | writeProtected
  | directoryNotEmpty
  | other
deriving DecidableEq, Repr

/-- `ioerr_msg` -/
def IoErr.msg : IoErr → String
  | .objectNotFound => "Object not found"
  | .objectExists => "Object already exists"
  | .objectInUse => "Object in use"
  | .objectWrongType => "Object wrong type"
  | .dirNotFound => "Directory not found"
  | .invalidLock => "Invalid lock"
  | .noFreeStore => "No free memory"
  | .diskFull => "Disk full"
  | .deleteProtected => "Object is protected from deletion"
  | .writeProtected => "Disk is write-protected"
  | .directoryNotEmpty => "Directory not empty"
  | .ok => "OK"
  | .other => "I/O error"

/-- `fs_error_for` -/
def fsErrorFor (e : IoErr) (path : Bytes) : CJson := targetError e.msg path

/-- The files by their path. -/
abbrev Volume := Bytes → Option Bytes

/-! ## The payload -/

variable {σ : Type}

/-- The cast of a `long long` that is not negative to the 32 bits of `size_t`. -/
def sizeT (n : Int) : Nat := n.toNat % 2 ^ 32

/-- `_decode_write_payload` -/
def decodeWritePayload (iz : Option (ZIFace σ)) (params : Option CJson) : Except CJson Bytes := do
  let content ← pStr params "content_b64"
  match B64.b64Decode content with
  | none => .error (rpcMakeError mcpdErrInvparams "content_b64 is not valid base64" none)
  | some decoded =>
    match params.bind (CJson.getItem (ascii "compression")) with
    | some (.string mode) =>
      if mode = ascii "zlib" then
        match decompressZlib iz decoded (sizeT (pInt params "raw_size" 0)) with
        | .error msg => .error (rpcMakeError mcpdErrInvparams msg none)
        | .ok inflated => .ok inflated
      else .ok decoded
    | _ => .ok decoded

/-! ## fs.write_chunk -/

/-- The answers that one `fs_write_chunk` is given.  `room` is how many bytes
`Write` manages before it stops; `none` is all of them. -/
structure WriteDos where
  opens : Bool := true
  seeks : Bool := true
  room : Option Nat := none
  ioErr : IoErr := .other
deriving DecidableEq, Repr

/-- The offset parameter. -/
def offsetOf (params : Option CJson) : Except CJson Nat :=
  match params.bind (CJson.getItem (ascii "offset")) with
  | some (.number value) =>
    if toLongLong value < 0 then
      .error (rpcMakeError mcpdErrInvparams "offset must be >= 0" none)
    else .ok (toLongLong value).toNat
  | _ => .error (rpcMakeError mcpdErrInvparams "missing required number param: offset" none)

/-- The truncate flag, which by default is set for the first chunk. -/
def doTruncate (params : Option CJson) (offset : Nat) : Bool :=
  match params.bind (CJson.getItem (ascii "truncate")) with
  | some (.bool b) => b
  | _ => offset = 0

/-- The calls of `dos.library` once the parameters are read. -/
def writeAt (dos : WriteDos) (volume : Volume) (path : Bytes) (offset : Nat) (truncate : Bool)
    (data : Bytes) : Volume × Outcome :=
  if dos.opens = false then (volume, .error (fsErrorFor dos.ioErr path))
  else
    let base := if offset = 0 ∧ truncate = true then [] else (volume path).getD []
    if offset > 0 ∧ dos.seeks = false then
      (Function.update volume path (some base), .error (fsErrorFor dos.ioErr path))
    else
      let wrote := data.take (dos.room.getD data.length)
      let volume := Function.update volume path
        (some (if wrote = [] then base else patch 0 base offset wrote))
      if wrote.length ≠ data.length then (volume, .error (fsErrorFor dos.ioErr path))
      else
        (volume, .ok (.object [(ascii "path", .string path), (ascii "offset", cNumber offset),
          (ascii "written", cNumber wrote.length),
          (ascii "total_so_far", cNumber (offset + wrote.length : Nat))]))

/-- The parameters of `fs_write_chunk`, in the order it reads them. -/
def writeChunkParams (iz : Option (ZIFace σ)) (params : Option CJson) :
    Except CJson (Bytes × Nat × Bytes) := do
  let path ← pStr params "path"
  let offset ← offsetOf params
  let data ← decodeWritePayload iz params
  .ok (path, offset, data)

/-- `fs_write_chunk` -/
def fsWriteChunk (iz : Option (ZIFace σ)) (dos : WriteDos) (volume : Volume)
    (params : Option CJson) : Volume × Outcome :=
  match writeChunkParams iz params with
  | .error err => (volume, .error err)
  | .ok (path, offset, data) => writeAt dos volume path offset (doTruncate params offset) data

/-- The call is executed completely, or it does not get as far as the file. -/
def WriteDos.Whole (dos : WriteDos) : Prop :=
  dos.opens = false ∨ (dos.seeks = true ∧ dos.room = none)

instance (dos : WriteDos) : Decidable dos.Whole := inferInstanceAs (Decidable (_ ∨ _))

/-- A complete execution writes all of its data, or leaves the volume alone
and reports an error. -/
theorem writeAt_whole {dos : WriteDos} (h : dos.Whole) (volume : Volume) (path : Bytes)
    (offset : Nat) (truncate : Bool) {data : Bytes} (hne : data ≠ []) :
    ((writeAt dos volume path offset truncate data).1 = volume ∧
      (writeAt dos volume path offset truncate data).2.isOk = false) ∨
    ((writeAt dos volume path offset truncate data).1 = Function.update volume path
        (some (patch 0 (if offset = 0 ∧ truncate = true then [] else (volume path).getD [])
          offset data)) ∧
      (writeAt dos volume path offset truncate data).2.isOk = true) := by
  unfold writeAt
  by_cases hopen : dos.opens = false
  · rw [if_pos hopen]
    exact Or.inl ⟨rfl, rfl⟩
  · obtain ⟨hseek, hroom⟩ := h.resolve_left hopen
    have htake : data.take (dos.room.getD data.length) = data := by
      rw [hroom]
      exact List.take_length
    have hnoseek : ¬ (offset > 0 ∧ dos.seeks = false) := by
      rw [hseek]
      rintro ⟨_, hfalse⟩
      cases hfalse
    rw [if_neg hopen]
    dsimp only
    rw [if_neg hnoseek, htake, if_neg hne, if_neg (by simp)]
    exact Or.inr ⟨rfl, rfl⟩

/-! ## fs.sync -/

/-- `DOSFALSE` -/
def dosFalse : Int := 0

/-- The path parameter, by default `SYS:`. -/
def syncPath (params : Option CJson) : Bytes :=
  match params.bind (CJson.getItem (ascii "path")) with
  | some (.string text) => if text = [] then ascii "SYS:" else text
  | _ => ascii "SYS:"

/-- `fs_sync`.  `hasHandler` is whether `GetDeviceProc` finds a port for the
path, `doPkt` what the handler replies to `ACTION_FLUSH`. -/
def fsSync (hasHandler : Bytes → Bool) (doPkt : Bytes → Int) (params : Option CJson) : Outcome :=
  if hasHandler (syncPath params) = false then
    .error (targetError "fs.sync: no handler for that path" (syncPath params))
  else
    .ok (.object [(ascii "path", .string (syncPath params)),
      (ascii "flushed", .bool (decide (doPkt (syncPath params) ≠ dosFalse)))])

end AmigaFleet.Mcpd.Fs

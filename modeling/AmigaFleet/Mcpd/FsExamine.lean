import AmigaFleet.Lib.Double
import AmigaFleet.Lib.Hex
import AmigaFleet.Mcpd.Fs
import AmigaFleet.Mcpd.Rpc

/-!
# fs.stat and fs.hash

`fs_stat` and `fs_hash` of `mcpd/src/methods/fs.c`, which look at one object of
a volume.  `StatDos` and `HashDos` are what `dos.library` and the allocator
answer during one call.  The digest of the updates of one `fs_hash` is a
function of the bytes they are given one after another.

`fsHash_ok` says what a successful digest tells of a file.
-/

namespace AmigaFleet.Mcpd.Fs

open AmigaFleet.Lib

/-! ## Objects -/

/-- `struct ExamineData`, as far as the handlers read it. -/
structure ExamineData where
  name : Bytes
  isDirectory : Bool
  fileSize : Nat
deriving DecidableEq, Repr

/-- `"dir"` or `"file"` -/
def ExamineData.typeName (ed : ExamineData) : String := if ed.isDirectory then "dir" else "file"

/-- The answers that one `fs_stat` is given. -/
structure StatDos where
  examines : Bool := true
  /-- what the path names where there is no file -/
  isDirectory : Bool := false
  name : Bytes
  /-- the texts of `DateToStr` -/
  date : Option (Bytes × Bytes) := none
  ioErr : IoErr := .other
deriving DecidableEq, Repr

/-- `ExamineObjectTags` -/
def examineObject (volume : Volume) (dos : StatDos) (path : Bytes) : Option ExamineData :=
  if dos.examines then
    match volume path with
    | some content => some ⟨dos.name, false, content.length⟩
    | none => if dos.isDirectory then some ⟨dos.name, true, 0⟩ else none
  else none

/-- The result object of `fs_stat`. -/
def statResult (ed : ExamineData) (date : Option (Bytes × Bytes)) : CJson :=
  .object ([(ascii "name", .string ed.name), (ascii "type", cString ed.typeName),
      (ascii "size", .number (if ed.isDirectory then 0 else double ed.fileSize))] ++
    date.toList.map fun d => (ascii "modified", .string (d.1 ++ ascii " " ++ d.2)))

/-- `fs_stat` -/
def fsStat (volume : Volume) (dos : StatDos) : Handler := fun params => do
  let path ← pStr params "path"
  match examineObject volume dos path with
  | none => .error (fsErrorFor dos.ioErr path)
  | some ed => .ok (statResult ed dos.date)

/-! ## Digests -/

/-- `MCPD_ERR_NOTCAPABLE` -/
def mcpdErrNotcapable : Int := -32003

/-- The answers that one `fs_hash` is given. -/
structure HashDos where
  opens : Bool := true
  allocates : Bool := true
  /-- one of the reads returns -1 -/
  readFails : Bool := false
  ioErr : IoErr := .other
deriving DecidableEq, Repr

/-- The algorithm, by default `sha256`. -/
def hashAlgo (params : Option CJson) : Bytes :=
  match params.bind (CJson.getItem (ascii "algo")) with
  | some (.string algo) => algo
  | _ => ascii "sha256"

/-- The result object of `fs_hash`. -/
def hashResult (path digest : Bytes) (total : Nat) : CJson :=
  .object [(ascii "path", .string path), (ascii "algo", cString "sha256"),
    (ascii "hash", .string (hexText digest)), (ascii "size", .number (double total))]

/-- `fs_hash` -/
def fsHash (sha256 : Bytes → Bytes) (volume : Volume) (dos : HashDos) : Handler := fun params => do
  let path ← pStr params "path"
  if hashAlgo params ≠ ascii "sha256" then
    .error (rpcMakeError mcpdErrNotcapable "fs.hash supports only algo=sha256 currently"
      (some (.object [(ascii "requested", .string (hashAlgo params)),
        (ascii "supported", cString "sha256")])))
  else
    match volume path, dos.opens with
    | some content, true =>
      if dos.allocates = false then .error (rpcMakeError mcpdErrInternal "out of memory" none)
      else if dos.readFails then .error (fsErrorFor dos.ioErr path)
      else .ok (hashResult path (sha256 content) content.length)
    | _, _ => .error (fsErrorFor dos.ioErr path)

/-! ## What a call tells -/

/-- What `fs.stat` answers for a file. -/
theorem fsStat_ok {volume : Volume} {dos : StatDos} {params : Option CJson} {path content : Bytes}
    {result : CJson} (hpath : pStr params "path" = .ok path) (hfile : volume path = some content)
    (h : fsStat volume dos params = .ok result) :
    result = statResult ⟨dos.name, false, content.length⟩ dos.date := by
  unfold fsStat examineObject at h
  simp only [hpath, hfile, bind, Except.bind] at h
  cases hexamines : dos.examines with
  | false =>
    rw [hexamines] at h
    cases h
  | true =>
    rw [hexamines] at h
    exact (Except.ok.inj h).symm

/-- A digest that is told is the one of the file. -/
theorem fsHash_ok {sha256 : Bytes → Bytes} {volume : Volume} {dos : HashDos} {params : Option CJson}
    {path : Bytes} {result : CJson} (hpath : pStr params "path" = .ok path)
    (h : fsHash sha256 volume dos params = .ok result) :
    ∃ content, volume path = some content ∧
      result = hashResult path (sha256 content) content.length := by
  unfold fsHash at h
  simp only [hpath, bind, Except.bind] at h
  split at h
  · cases h
  · split at h
    · rename_i content hfile _
      split at h
      · cases h
      · split at h
        · cases h
        · cases h
          exact ⟨content, hfile, rfl⟩
    · cases h

end AmigaFleet.Mcpd.Fs

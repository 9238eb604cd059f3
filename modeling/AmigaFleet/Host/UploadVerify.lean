import AmigaFleet.Host.UploadRemote
import AmigaFleet.Mcpd.FsExamine

/-!
# The verified upload

`fs_upload` of `tools/fs.py`: the resume probe by `fs.stat`, the chunked
upload, and with `verify` the comparison of two SHA-256 digests.  `Schedule` is
what becomes of the requests beside the chunks.  A request of a chunk that the
host has given up on can be executed until `fs.hash` is; from there on nobody
writes.

With `resume`, a remote file of at least the local one's size ends the call
before anything is sent, and before `verify` is looked at.

* `transfer_verified`: an upload that gets as far as its comparison and returns
  has left the local file's content.
* `verified_iff`: the return at the probe is the only one that is not verified.
-/

namespace AmigaFleet.Host.Upload

open AmigaFleet.Lib
open AmigaFleet.Mcpd (ascii cText CJson Handler pStr)
open AmigaFleet.Mcpd.Fs

variable {σ : Type}

/-! ## Requests -/

/-- How a request goes: the daemon serves it, or it fails on the way. -/
inductive Reply (δ : Type) where
  | served (dos : δ)
  | fails (text : Bytes)
deriving DecidableEq, Repr

/-- The exception that a request raises. -/
inductive Fault where
  | transport (text : Bytes)
  | daemon (err : CJson)

/-- `request(...)` -/
def ask {δ : Type} (handler : δ → Handler) (params : Json) : Reply δ → Except Fault Json
  | .fails text => .error (.transport text)
  | .served dos =>
    match handler dos (some params.toCJson) with
    | .error err => .error (.daemon err)
    | .ok result => .ok (Json.ofCJson result)

/-- A request that is answered has been served. -/
theorem ask_ok {δ : Type} {handler : δ → Handler} {params : Json} {reply : Reply δ} {raw : Json}
    (h : ask handler params reply = .ok raw) :
    ∃ dos result, reply = .served dos ∧ handler dos (some params.toCJson) = .ok result ∧
      raw = Json.ofCJson result := by
  unfold ask at h
  split at h
  · cases h
  · rename_i dos
    cases hresult : handler dos (some params.toCJson) with
    | error err =>
      rw [hresult] at h
      cases h
    | ok result =>
      rw [hresult] at h
      exact ⟨dos, result, rfl, hresult, (Except.ok.inj h).symm⟩

/-- The requests beside the chunks; `late` are the executions of given up chunks
between the last chunk and the hash. -/
structure Schedule where
  stat : Reply StatDos
  late : List (Nat × WriteDos) := []
  hash : Reply HashDos
deriving DecidableEq, Repr

def pathParams (path : Bytes) : Json := .dict [(ascii "path", .str path)]

def hashParams (path : Bytes) : Json :=
  .dict [(ascii "path", .str path), (ascii "algo", .str (ascii "sha256"))]

/-- `int(StatResult.model_validate(raw).size)`; `none` is a `ValidationError`. -/
def statSize (raw : Json) : Option Int :=
  match raw.get "name", raw.get "type" with
  | some (.str _), some (.str kind) =>
    if kind = ascii "file" ∨ kind = ascii "dir" then
      match raw.get "size" with
      | none => some 0
      | some (.int n) => some n
      | some _ => none
    else none
  | _, _ => none

/-- `FsHashResult.model_validate(raw).hash` -/
def hashText (raw : Json) : Option Bytes :=
  match raw.get "path", raw.get "algo", raw.get "hash", raw.get "size" with
  | some (.str _), some (.str _), some (.str hash), some (.int _) => some hash
  | _, _, _, _ => none

/-! ## fs_upload -/

structure UploadArgs where
  chunkSize : Int := defaultChunkRaw
  compression : Compression := .auto
  verify : Bool := false
  resume : Bool := false
deriving DecidableEq, Repr

/-- `UploadResult` without its times and ratios. -/
structure UploadResult where
  localPath : String
  path : Bytes
  bytesTotal : Nat
  bytesSentCompressed : Nat := 0
  chunks : Nat := 0
  compressedChunks : Nat := 0
  resumedFrom : Int := 0
  sha256Verified : Bool := false
  sha256 : Option Bytes := none
deriving DecidableEq, Repr

inductive VerifyError where
  | upload (e : UploadError)
  | hash (e : Fault)
  | validation
  /-- `upload SHA-256 mismatch for …: local=… remote=…` -/
  | mismatch (path localHash remoteHash : Bytes)

variable (iz : Option (ZIFace σ)) (zlib sha256 : Bytes → Bytes) (args : UploadArgs)
variable (localPath : String) (path : Bytes) (sched : Schedule)

/-- The size that the resume probe finds; `none` is no probe, or one that fails. -/
def probe (w : Remote) : Option Int :=
  if args.resume then
    match ask (fsStat w.volume) (pathParams path) sched.stat with
    | .ok raw => statSize raw
    | .error _ => none
  else none

/-- The result of an upload that has sent its chunks. -/
def sentResult (stats : UploadStats) (resumeFrom : Int) (sha : Option Bytes) : UploadResult where
  localPath := localPath
  path := path
  bytesTotal := stats.bytesTotal
  bytesSentCompressed := stats.bytesSentCompressed
  chunks := stats.chunks
  compressedChunks := stats.compressedChunks
  resumedFrom := resumeFrom
  sha256Verified := sha.isSome
  sha256 := sha

/-- The comparison behind the upload. -/
def compareHashes (content : Bytes) (stats : UploadStats) (resumeFrom : Int) (w : Remote) :
    Remote × Except VerifyError UploadResult :=
  let sha := hexText (sha256 content)
  let w := sched.late.foldl (Remote.execute iz) w
  match ask (fsHash sha256 w.volume) (hashParams path) sched.hash with
  | .error fault => (w, .error (.hash fault))
  | .ok raw =>
    match hashText raw with
    | none => (w, .error .validation)
    | some hash =>
      if lowerText hash ≠ lowerText sha then (w, .error (.mismatch path sha hash))
      else (w, .ok (sentResult localPath path stats resumeFrom (some sha)))

/-- `fs_upload` behind the probe. -/
def transfer (content : Bytes) (resumeFrom : Int) (w : Remote) :
    Remote × Except VerifyError UploadResult :=
  let cfg : Config :=
    { chunkSize := args.chunkSize, compression := args.compression, resumeFrom := resumeFrom }
  match chunkedUpload (Remote.send iz) zlib cfg localPath (some content) path w with
  | (w, .error e) => (w, .error (.upload e))
  | (w, .ok stats) =>
    if args.verify then compareHashes iz sha256 localPath path sched content stats resumeFrom w
    else (w, .ok (sentResult localPath path stats resumeFrom none))

/-- `fs_upload` -/
def fsUpload (localFile : Option Bytes) (w : Remote) : Remote × Except VerifyError UploadResult :=
  match localFile with
  | none => (w, .error (.upload (.fileNotFound s!"local file does not exist: {localPath}")))
  | some content =>
    match probe args path sched w with
    | some size =>
      if content.length ≤ size then
        (w, .ok { localPath, path, bytesTotal := content.length, resumedFrom := size })
      else transfer iz zlib sha256 args localPath path sched content size w
    | none => transfer iz zlib sha256 args localPath path sched content 0 w

/-! ## What is verified -/

/-- A call that returns has left the local file's content in the remote file. -/
def Verified (localFile : Option Bytes) (w : Remote) : Prop :=
  ∀ w' result,
    fsUpload iz zlib sha256 args localPath path sched localFile w = (w', .ok result) →
      ∃ content, localFile = some content ∧ w'.volume (cText path) = some content

/-- The resume probe ends the call only on a remote file that is the local one. -/
def ProbedEqual (localFile : Option Bytes) (w : Remote) : Prop :=
  ∀ content size, localFile = some content → probe args path sched w = some size →
    content.length ≤ size → w.volume (cText path) = some content

/-- The two files of the comparison are not a collision. -/
def NoCollision (localFile : Option Bytes) (w : Remote) : Prop :=
  ∀ content remote, localFile = some content →
    (fsUpload iz zlib sha256 args localPath path sched localFile w).1.volume (cText path) =
      some remote →
    sha256 remote = sha256 content → remote = content

variable {iz zlib sha256 args localPath path sched}

/-- The digest in a reply to `fs.hash` is the one of the remote file. -/
theorem ask_hash {volume : Volume} {raw : Json}
    (h : ask (fsHash sha256 volume) (hashParams path) sched.hash = .ok raw) :
    ∃ remote, volume (cText path) = some remote ∧
      ∀ hash, hashText raw = some hash → hash = hexText (sha256 remote) := by
  obtain ⟨dos, result, -, hresult, rfl⟩ := ask_ok h
  have hpath : pStr (some (hashParams path).toCJson) "path" = .ok (cText path) := rfl
  obtain ⟨remote, hremote, rfl⟩ := fsHash_ok hpath hresult
  refine ⟨remote, hremote, ?_⟩
  intro hash hhash
  have hget : (Json.ofCJson (Mcpd.Fs.hashResult (cText path) (sha256 remote)
      remote.length)).get "hash" = some (.str (hexText (sha256 remote))) := by
    rw [Json.get_ofCJson]
    rfl
  unfold hashText at hhash
  rw [hget] at hhash
  split at hhash
  · rename_i heq _
    cases heq
    cases hhash
    rfl
  · cases hhash

/-- The upload behind the probe is verified. -/
theorem transfer_verified {content : Bytes} {resumeFrom : Int} {w w' : Remote}
    {result : UploadResult} (hverify : args.verify = true)
    (h : transfer iz zlib sha256 args localPath path sched content resumeFrom w = (w', .ok result)) :
    ∃ remote, w'.volume (cText path) = some remote ∧ sha256 remote = sha256 content := by
  unfold transfer at h
  dsimp only at h
  split at h
  · cases h
  · rw [if_pos hverify] at h
    unfold compareHashes at h
    dsimp only at h
    split at h
    · cases h
    · rename_i raw hraw
      obtain ⟨remote, hremote, hdigest⟩ := ask_hash hraw
      split at h
      · cases h
      · rename_i hash hhash
        split at h
        · cases h
        · rename_i heq
          obtain ⟨rfl, _⟩ := Prod.mk.inj h
          refine ⟨remote, hremote, hexText_injective ?_⟩
          rw [hdigest hash hhash, lower_hexText, lower_hexText] at heq
          exact not_not.mp heq

/-- A verified upload is verified exactly when the resume probe does not end it on
a remote file that differs. -/
theorem verified_iff (iz : Option (ZIFace σ)) (zlib sha256 : Bytes → Bytes) (args : UploadArgs)
    (localPath : String) (path : Bytes) (sched : Schedule) (localFile : Option Bytes) (w : Remote)
    (hverify : args.verify = true)
    (hcollision : NoCollision iz zlib sha256 args localPath path sched localFile w) :
    Verified iz zlib sha256 args localPath path sched localFile w ↔
      ProbedEqual args path sched localFile w := by
  constructor
  · rintro hverified content size rfl hprobe hsize
    have hrun : fsUpload iz zlib sha256 args localPath path sched (some content) w =
        (w, .ok { localPath, path, bytesTotal := content.length, resumedFrom := size }) := by
      simp [fsUpload, hprobe, hsize]
    obtain ⟨content', heq, hvolume⟩ := hverified _ _ hrun
    cases heq
    exact hvolume
  · intro hequal w' result hrun
    cases localFile with
    | none => cases hrun
    | some content =>
      have hfinal : ∀ remote, w'.volume (cText path) = some remote →
          sha256 remote = sha256 content → remote = content := by
        intro remote hremote hsha
        refine hcollision content remote rfl ?_ hsha
        rw [hrun]
        exact hremote
      have htransfer : ∀ resumeFrom, transfer iz zlib sha256 args localPath path sched content
          resumeFrom w = (w', .ok result) → w'.volume (cText path) = some content := by
        intro resumeFrom htrans
        obtain ⟨remote, hremote, hsha⟩ := transfer_verified hverify htrans
        rw [hremote, hfinal remote hremote hsha]
      refine ⟨content, rfl, ?_⟩
      unfold fsUpload at hrun
      dsimp only at hrun
      split at hrun
      · rename_i size hprobe
        split at hrun
        · rename_i hsize
          obtain ⟨rfl, _⟩ := Prod.mk.inj hrun
          exact hequal content size rfl hprobe hsize
        · exact htransfer size hrun
      · exact htransfer 0 hrun

/-! ## A resumed upload -/

/-- SHA-256 on the text `abc`. -/
def sampleSha (bytes : Bytes) : Bytes :=
  if bytes = ascii "abc" then
    [0xba, 0x78, 0x16, 0xbf, 0x8f, 0x01, 0xcf, 0xea, 0x41, 0x41, 0x40, 0xde, 0x5d, 0xae, 0x22, 0x23,
      0xb0, 0x03, 0x61, 0xa3, 0x96, 0x17, 0x7a, 0x9c, 0xb4, 0x10, 0xff, 0x61, 0xf2, 0x00, 0x15, 0xad]
  else []

def sampleArgs : UploadArgs := { verify := true, resume := true }

def sampleSchedule : Schedule :=
  { stat := .served { name := ascii "file" }, hash := .served {} }

def sampleRemote (remote : Bytes) : Remote :=
  { volume := fun p => if p = ascii "RAM:file" then some remote else none, script := [] }

def resumedArgs : UploadArgs := { sampleArgs with compression := .none }

/-- The chunk is executed once more before the hash. -/
def resumedSchedule : Schedule := { sampleSchedule with late := [(1, {})] }

/-- The first byte is there; of the attempts at the rest one is lost and one answered. -/
def partialRemote : Remote :=
  { sampleRemote (ascii "a") with
    script := [{}, { copies := 2, runs := [(1, {})], answered := true }] }

theorem verified_iff_sample : ∃ w' result,
    fsUpload (none : Option (ZIFace Unit)) id sampleSha resumedArgs "file" (ascii "RAM:file")
        resumedSchedule (some (ascii "abc")) partialRemote = (w', .ok result) ∧
      result.resumedFrom = 1 ∧ result.sha256Verified = true ∧
      w'.volume (cText (ascii "RAM:file")) = some (ascii "abc") := by
  obtain ⟨w', result, hrun, hfrom, hsha, hfile⟩ : ∃ w' result,
      fsUpload (none : Option (ZIFace Unit)) id sampleSha resumedArgs "file" (ascii "RAM:file")
          resumedSchedule (some (ascii "abc")) partialRemote = (w', .ok result) ∧
        result.resumedFrom = 1 ∧ result.sha256Verified = true ∧
        w'.volume (cText (ascii "RAM:file")) = some (ascii "abc") := ⟨_, _, rfl, rfl, rfl, rfl⟩
  have hcollision : NoCollision (none : Option (ZIFace Unit)) id sampleSha resumedArgs "file"
      (ascii "RAM:file") resumedSchedule (some (ascii "abc")) partialRemote := by
    intro content remote hlocal hremote _
    rw [hrun, hfile] at hremote
    cases hlocal
    exact (Option.some.inj hremote).symm
  have hprobed : ProbedEqual resumedArgs (ascii "RAM:file") resumedSchedule (some (ascii "abc"))
      partialRemote := by
    intro content size hlocal hprobe hsize
    have hone : probe resumedArgs (ascii "RAM:file") resumedSchedule partialRemote = some 1 := by
      decide +kernel
    rw [hone] at hprobe
    cases hprobe
    cases hlocal
    exact absurd hsize (by decide)
  obtain ⟨content, hcontent, hvolume⟩ := (verified_iff none id sampleSha resumedArgs "file"
    (ascii "RAM:file") resumedSchedule (some (ascii "abc")) partialRemote rfl hcollision).mpr
      hprobed _ _ hrun
  cases hcontent
  exact ⟨w', result, hrun, hfrom, hsha, hvolume⟩

/-- The remote file is as long as the local one and has another content, and the
verified upload returns. -/
theorem resumed_unverified :
    ¬ Verified (none : Option (ZIFace Unit)) id sampleSha sampleArgs "file" (ascii "RAM:file")
      sampleSchedule (some (ascii "abc")) (sampleRemote (ascii "xyz")) := by
  intro hverified
  have hprobe : probe sampleArgs (ascii "RAM:file") sampleSchedule (sampleRemote (ascii "xyz")) =
      some 3 := by decide +kernel
  have hrun : ∃ result, fsUpload (none : Option (ZIFace Unit)) id sampleSha sampleArgs "file"
      (ascii "RAM:file") sampleSchedule (some (ascii "abc")) (sampleRemote (ascii "xyz")) =
        (sampleRemote (ascii "xyz"), .ok result) := by
    unfold fsUpload
    rw [hprobe]
    exact ⟨_, if_pos (by decide)⟩
  obtain ⟨result, hrun⟩ := hrun
  obtain ⟨content, hcontent, hvolume⟩ := hverified _ _ hrun
  cases hcontent
  exact absurd hvolume (by decide +kernel)

end AmigaFleet.Host.Upload

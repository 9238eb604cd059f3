import AmigaFleet.Host.Json
import AmigaFleet.Lib.Base64
import AmigaFleet.Lib.Patch

/-!
# The chunked upload

`chunked_upload` of `upload.py` and the parameters that `fs_write_chunk` of
`tools/fs.py` builds for one chunk.  The rest of the world is a state `W` and
a function `send` that carries out one `fs_write_chunk` call in it: `none` is
a call that returns, and `some e` one that raises `e`.

The decision between the raw chunk and its zlib form is a function `pick` of
the offset and the chunk; `chunkedUpload` takes the one that the code uses.

`attempts_rule` and `uploadLoop_rule` are the rules for the two loops, and
`chunkedUploadWith_eq` is the loop that an upload starts.
-/

namespace AmigaFleet.Host.Upload

open AmigaFleet.Lib
open AmigaFleet.Mcpd (ascii)

/-! ## One chunk -/

/-- The encoding of one chunk. -/
inductive Mode where
  | none
  | zlib
deriving DecidableEq, Repr

/-- The arguments of `fs_write_chunk`; `content` is the payload before base64. -/
structure ChunkCall where
  path : Bytes
  offset : Int
  content : Bytes
  compression : Mode := .none
  rawSize : Option Nat := none
  truncate : Option Bool := none
  totalSize : Option Nat := none
deriving DecidableEq, Repr

/-- The parameters of the request, in the order in which `fs_write_chunk`
adds them. -/
def ChunkCall.params (c : ChunkCall) : Json :=
  .dict ([(ascii "path", .str c.path), (ascii "offset", .int c.offset),
      (ascii "content_b64", .str (Base64.encode c.content))] ++
    (if c.compression ≠ .none then [(ascii "compression", .str (ascii "zlib"))] else []) ++
    (c.rawSize.toList.map fun n => (ascii "raw_size", .int n)) ++
    (c.truncate.toList.map fun b => (ascii "truncate", .bool b)) ++
    (c.totalSize.toList.map fun n => (ascii "total_size", .int n)))

/-! ## The keyword arguments -/

inductive Compression where
  | none
  | zlib
  | auto
deriving DecidableEq, Repr

/-- `DEFAULT_CHUNK_RAW` -/
def defaultChunkRaw : Nat := 24 * 1024 * 1024

structure Config where
  chunkSize : Int := defaultChunkRaw
  compression : Compression := .auto
  retries : Int := 2
  resumeFrom : Int := 0
  totalSizeHint : Bool := true
deriving DecidableEq, Repr

/-- `int(n * 0.95)`; the double 0.95 is `8556839292003942 / 2 ^ 53`. -/
def ninetyFivePercent (n : Nat) : Nat := round53 (round53 n * 8556839292003942) / 2 ^ 53

/-- The compression decision. -/
def pickMode (zlib : Bytes → Bytes) (compression : Compression) (raw : Bytes) : Mode :=
  match compression with
  | .none => .none
  | .zlib => .zlib
  | .auto => if (zlib raw).length ≤ ninetyFivePercent raw.length then .zlib else .none

/-- What is sent for a chunk. -/
def payload (zlib : Bytes → Bytes) (mode : Mode) (raw : Bytes) : Bytes :=
  match mode with
  | .none => raw
  | .zlib => zlib raw

/-- The call for one chunk. -/
def chunkCall (zlib : Bytes → Bytes) (pick : Int → Bytes → Mode) (cfg : Config) (path : Bytes)
    (total : Nat) (offset : Int) (raw : Bytes) (first : Bool) : ChunkCall :=
  let mode := pick offset raw
  { path := path
    offset := offset
    content := payload zlib mode raw
    compression := mode
    rawSize := if mode = .zlib then some raw.length else none
    totalSize := if first ∧ cfg.totalSizeHint then some total else none }

/-! ## The loops -/

structure UploadStats where
  path : Bytes
  bytesTotal : Nat
  bytesSentCompressed : Nat := 0
  chunks : Nat := 0
  compressedChunks : Nat := 0
deriving DecidableEq, Repr

/-- The counters after one more chunk. -/
def UploadStats.add (stats : UploadStats) (call : ChunkCall) : UploadStats where
  path := stats.path
  bytesTotal := stats.bytesTotal
  bytesSentCompressed := stats.bytesSentCompressed + call.content.length
  chunks := stats.chunks + 1
  compressedChunks := stats.compressedChunks + if call.compression = .zlib then 1 else 0

inductive UploadError where
  | fileNotFound (message : String)
  | runtimeError (message : String)
deriving DecidableEq, Repr

variable {W : Type}

/-- `for attempt in range(retries + 1)`; the result is `last_err`. -/
def attempts (send : W → ChunkCall → W × Option String) (call : ChunkCall) :
    Nat → Option String → W → W × Option String
  | 0, lastErr, w => (w, lastErr)
  | n + 1, _, w =>
    match send w call with
    | (w, none) => (w, none)
    | (w, some e) => attempts send call n (some e) w

/-- `fh.read(chunk_size)` -/
def readChunk (size : Int) (rest : Bytes) : Bytes :=
  if size < 0 then rest else rest.take size.toNat

/-- `range(retries + 1)` has this many elements. -/
def Config.attemptCount (cfg : Config) : Nat := (cfg.retries + 1).toNat

/-- `while True`; `rest` is what is left of the file, and `fuel` is at least
its length. -/
def uploadLoop (send : W → ChunkCall → W × Option String) (zlib : Bytes → Bytes)
    (pick : Int → Bytes → Mode) (cfg : Config) (path : Bytes) (total : Nat) :
    Nat → Bytes → Int → Bool → UploadStats → W → W × Except UploadError UploadStats
  | 0, _, _, _, stats, w => (w, .ok stats)
  | fuel + 1, rest, offset, first, stats, w =>
    let raw := readChunk cfg.chunkSize rest
    if raw = [] then (w, .ok stats)
    else
      let call := chunkCall zlib pick cfg path total offset raw first
      match attempts send call cfg.attemptCount none w with
      | (w, some lastErr) =>
        let tries := cfg.retries + 1
        (w, .error (.runtimeError
          s!"fs.write_chunk failed at offset={offset} after {tries} attempts: {lastErr}"))
      | (w, none) =>
        uploadLoop send zlib pick cfg path total fuel (rest.drop raw.length)
          (offset + raw.length) false (stats.add call) w

/-- `chunked_upload` with the choice `pick` for its chunks; `none` for the
local file is a path without a file. -/
def chunkedUploadWith (send : W → ChunkCall → W × Option String) (zlib : Bytes → Bytes)
    (pick : Int → Bytes → Mode) (cfg : Config) (localPath : String) (localFile : Option Bytes)
    (path : Bytes) (w : W) : W × Except UploadError UploadStats :=
  match localFile with
  | none => (w, .error (.fileNotFound s!"local file does not exist: {localPath}"))
  | some content =>
    uploadLoop send zlib pick cfg path content.length content.length
      (content.drop cfg.resumeFrom.toNat) cfg.resumeFrom (cfg.resumeFrom = 0)
      { path := path, bytesTotal := content.length } w

/-- `chunked_upload` -/
def chunkedUpload (send : W → ChunkCall → W × Option String) (zlib : Bytes → Bytes) (cfg : Config)
    (localPath : String) (localFile : Option Bytes) (path : Bytes) (w : W) :
    W × Except UploadError UploadStats :=
  chunkedUploadWith send zlib (fun _ raw => pickMode zlib cfg.compression raw) cfg localPath localFile
    path w

/-! ## Rules for the loops -/

/-- Attempts keep what every attempt keeps, and when they end without an error
the last of them has returned. -/
theorem attempts_rule {send : W → ChunkCall → W × Option String} {call : ChunkCall}
    {P Q : W → Prop} (hkeep : ∀ w, P w → P (send w call).1)
    (hok : ∀ w, P w → (send w call).2 = none → Q (send w call).1) (n : Nat)
    (lastErr : Option String) {w : W} (hw : P w) :
    P (attempts send call n lastErr w).1 ∧
      (0 < n → (attempts send call n lastErr w).2 = none →
        Q (attempts send call n lastErr w).1) := by
  induction n generalizing lastErr w with
  | zero => exact ⟨hw, fun h => absurd h (Nat.lt_irrefl 0)⟩
  | succ n ih =>
    have hkept := hkeep w hw
    have hdone := hok w hw
    rw [attempts]
    rcases hsend : send w call with ⟨w', _ | e⟩
    · rw [hsend] at hkept hdone
      exact ⟨hkept, fun _ _ => hdone rfl⟩
    · rw [hsend] at hkept
      obtain ⟨hP, hQ⟩ := ih (some e) hkept
      refine ⟨hP, fun _ hnone => ?_⟩
      rcases Nat.eq_zero_or_pos n with rfl | hn
      · cases hnone
      · exact hQ hn hnone

/-- The call that the loop makes at position `pos` of the file. -/
def callAt (zlib : Bytes → Bytes) (pick : Int → Bytes → Mode) (cfg : Config) (path content : Bytes)
    (pos : Nat) : ChunkCall :=
  chunkCall zlib pick cfg path content.length pos (piece content pos cfg.chunkSize.toNat)
    (pos = 0)

theorem readChunk_drop {size : Int} (hsize : 1 ≤ size) (content : Bytes) (pos : Nat) :
    readChunk size (content.drop pos) = piece content pos size.toNat :=
  if_neg (by omega)

/-- At the end of the file nothing is sent. -/
theorem uploadLoop_end (send : W → ChunkCall → W × Option String) (zlib : Bytes → Bytes)
    (pick : Int → Bytes → Mode) (cfg : Config) (path : Bytes) (total fuel : Nat) (offset : Int)
    (first : Bool) (stats : UploadStats) (w : W) :
    uploadLoop send zlib pick cfg path total fuel [] offset first stats w = (w, .ok stats) := by
  cases fuel with
  | zero => rfl
  | succ fuel =>
    have hread : readChunk cfg.chunkSize [] = [] := by simp [readChunk]
    rw [uploadLoop]
    exact if_pos hread

/-- The loop acknowledges one chunk, or gives it up. -/
theorem uploadLoop_chunk (send : W → ChunkCall → W × Option String) (zlib : Bytes → Bytes)
    (pick : Int → Bytes → Mode) {cfg : Config} (path : Bytes) {content : Bytes}
    (hsize : 1 ≤ cfg.chunkSize) (fuel : Nat) {pos : Nat} (stats : UploadStats) (w : W)
    (hpos : pos < content.length) :
    uploadLoop send zlib pick cfg path content.length (fuel + 1) (content.drop pos) pos (pos = 0)
        stats w =
      match attempts send (callAt zlib pick cfg path content pos) cfg.attemptCount none w with
      | (w, some lastErr) =>
        let offset : Int := pos
        let tries := cfg.retries + 1
        (w, .error (.runtimeError
          s!"fs.write_chunk failed at offset={offset} after {tries} attempts: {lastErr}"))
      | (w, none) =>
        let next := min (pos + cfg.chunkSize.toNat) content.length
        uploadLoop send zlib pick cfg path content.length fuel (content.drop next) next (next = 0)
          (stats.add (callAt zlib pick cfg path content pos)) w := by
  have hlen := length_piece content pos cfg.chunkSize.toNat
  have hraw : piece content pos cfg.chunkSize.toNat ≠ [] := by
    apply List.length_pos_iff.mp
    omega
  have hnext : min (pos + cfg.chunkSize.toNat) content.length =
      pos + (piece content pos cfg.chunkSize.toNat).length := by omega
  have hfirst : decide (min (pos + cfg.chunkSize.toNat) content.length = 0) = false :=
    decide_eq_false (by omega)
  rw [uploadLoop]
  dsimp only
  rw [readChunk_drop hsize, if_neg hraw, hfirst, hnext, List.drop_drop, Int.natCast_add]
  unfold callAt
  rcases attempts send (chunkCall zlib pick cfg path content.length pos
    (piece content pos cfg.chunkSize.toNat) (pos = 0)) cfg.attemptCount none w with ⟨w', _ | e⟩
  · rfl
  · rfl

/-- The rule for the loop over the chunks.  `I pos` is what holds when the
file is acknowledged up to `pos`, and `J` what holds when a chunk is given
up. -/
theorem uploadLoop_rule (send : W → ChunkCall → W × Option String) (zlib : Bytes → Bytes)
    (pick : Int → Bytes → Mode) {cfg : Config} (path : Bytes) {content : Bytes} {I : Nat → W → Prop}
    {J : W → Prop} (hsize : 1 ≤ cfg.chunkSize)
    (hnext : ∀ pos w w', pos < content.length → I pos w →
      attempts send (callAt zlib pick cfg path content pos) cfg.attemptCount none w = (w', none) →
        I (min (pos + cfg.chunkSize.toNat) content.length) w')
    (hstop : ∀ pos w w' e, pos < content.length → I pos w →
      attempts send (callAt zlib pick cfg path content pos) cfg.attemptCount none w =
        (w', some e) → J w')
    (fuel pos : Nat) (stats : UploadStats) {w : W} (hfuel : content.length ≤ pos + fuel)
    (hpos : pos ≤ content.length) (hI : I pos w) :
    match uploadLoop send zlib pick cfg path content.length fuel (content.drop pos) pos (pos = 0)
        stats w with
    | (w', .ok _) => I content.length w'
    | (w', .error _) => J w' := by
  induction fuel generalizing pos stats w with
  | zero =>
    have heq : pos = content.length := by omega
    subst heq
    exact hI
  | succ fuel ih =>
    rcases Nat.lt_or_ge pos content.length with hlt | hge
    · rw [uploadLoop_chunk send zlib pick path hsize fuel stats w hlt]
      rcases hatt : attempts send (callAt zlib pick cfg path content pos) cfg.attemptCount none w
        with ⟨w', _ | e⟩
      · exact ih _ _ (by omega) (Nat.min_le_right ..) (hnext pos w w' hlt hI hatt)
      · exact hstop pos w w' e hlt hI hatt
    · have heq : pos = content.length := Nat.le_antisymm hpos hge
      subst heq
      rw [List.drop_length, uploadLoop_end]
      exact hI

/-- An upload is the loop from the position where it resumes. -/
theorem chunkedUploadWith_eq (send : W → ChunkCall → W × Option String) (zlib : Bytes → Bytes)
    (pick : Int → Bytes → Mode) {cfg : Config} {start : Nat} (hresume : cfg.resumeFrom = start)
    (localPath : String) (content path : Bytes) (w : W) :
    chunkedUploadWith send zlib pick cfg localPath (some content) path w =
      uploadLoop send zlib pick cfg path content.length content.length (content.drop start) start
        (start = 0) { path := path, bytesTotal := content.length } w := by
  unfold chunkedUploadWith
  dsimp only
  rw [hresume, Int.toNat_natCast]
  congr 1
  exact decide_eq_decide.mpr (by omega)

end AmigaFleet.Host.Upload

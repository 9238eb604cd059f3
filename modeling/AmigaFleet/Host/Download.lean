import AmigaFleet.Host.Json
import AmigaFleet.Host.PyBase64
import AmigaFleet.Lib.Patch
import AmigaFleet.Lib.Run
import AmigaFleet.Mcpd.FsRead

/-!
# The chunked download

`chunked_download` of `upload.py`, from the size that `fs.stat` announces to
the return.  It is cut at its requests: `step` takes what one `fs.read` comes
to, an answer of the daemon's own `fsRead` or a failure of the transport.
`written` is what has gone to the local file since it was opened.

* `readSlice_piece`: a reply is a piece of the remote file from the offset
  that was asked for, of whatever length the daemon chose.
* `step_spec`: what one reply adds, and when the step is the one that makes
  the download wrong.
* `download_exact`: a download returns the whole range unless a reply is empty,
  or longer than what is left.  An empty reply ends the loop, and the download
  returns as if it were complete: `empty_reply`.
-/

namespace AmigaFleet.Host.Download

open AmigaFleet.Lib
open AmigaFleet.Mcpd (ascii cText CJson pStr pInt)
open AmigaFleet.Mcpd.Fs

/-! ## chunked_download -/

/-- `DEFAULT_READ_RAW` -/
def defaultReadRaw : Nat := 24 * 1024 * 1024

/-- The keyword arguments; a resume offset is the size of a local file. -/
structure Config where
  chunkSize : Int := defaultReadRaw
  retries : Int := 2
  resumeFrom : Nat := 0
deriving DecidableEq, Repr

structure DownloadStats where
  bytesTotal : Nat
  chunks : Nat
deriving DecidableEq, Repr

/-- The exception that one request raises. -/
inductive Fault where
  | transport (text : Bytes)
  | daemon (err : CJson)

inductive DownloadError where
  /-- `fs.read failed at offset=… after … attempts: …` -/
  | readFailed (offset : Nat) (tries : Int) (lastErr : Fault)
  /-- no attempt was made, and `raw` is not bound -/
  | unboundLocal
  | keyError
  | typeError
  | badBase64

inductive Phase where
  /-- the request of this attempt is out -/
  | reading (attempt : Nat)
  | returned (stats : DownloadStats)
  | raised (e : DownloadError)

structure Sys where
  offset : Nat
  written : Bytes := []
  chunks : Nat := 0
  phase : Phase

/-- The answer to one request. -/
inductive Label where
  | served (dos : ReadDos)
  | fails (text : Bytes)

variable (cfg : Config) (volume : Volume) (path : Bytes) (total : Nat)

/-- The return behind the loop. -/
def Sys.finish (s : Sys) : Sys := { s with phase := .returned ⟨total, s.chunks⟩ }

/-- The head of the loop, `while offset < total`. -/
def Sys.head (s : Sys) : Sys :=
  if s.offset < total then
    if cfg.retries + 1 ≤ 0 then { s with phase := .raised .unboundLocal }
    else { s with phase := .reading 0 }
  else s.finish total

/-- The download once the size is known. -/
def start : Sys :=
  Sys.head cfg total { offset := cfg.resumeFrom, phase := .reading 0 }

/-- `min(chunk_size, total - offset)` -/
def Sys.length (s : Sys) : Int := min cfg.chunkSize (total - s.offset)

/-- The parameters of the request. -/
def Sys.params (s : Sys) : Json :=
  .dict [(ascii "path", .str path), (ascii "offset", .int s.offset),
    (ascii "length", .int (s.length cfg total))]

/-- `t.request("fs.read", ...)` -/
def Sys.request (s : Sys) : Label → Except Fault Json
  | .fails text => .error (.transport text)
  | .served dos =>
    match fsRead volume dos (some (s.params cfg path total).toCJson) with
    | .error err => .error (.daemon err)
    | .ok result => .ok (Json.ofCJson result)

/-- The rest of the loop body, with the reply `raw`. -/
def Sys.take (s : Sys) (raw : Json) : Sys :=
  match raw.get "content_b64" with
  | none => { s with phase := .raised .keyError }
  | some (.str text) =>
    match PyBase64.b64decode text with
    | none => { s with phase := .raised .badBase64 }
    | some payload =>
      let s' := { s with
        written := s.written ++ payload
        offset := s.offset + payload.length
        chunks := s.chunks + 1 }
      if payload.length = 0 then s'.finish total else s'.head cfg total
  | some _ => { s with phase := .raised .typeError }

def step (s : Sys) (a : Label) : Option Sys :=
  match s.phase with
  | .reading attempt =>
    match s.request cfg volume path total a with
    | .ok raw => some (s.take cfg total raw)
    | .error fault =>
      if (attempt + 1 : Int) < cfg.retries + 1 then
        some { s with phase := .reading (attempt + 1) }
      else some { s with phase := .raised (.readFailed s.offset (cfg.retries + 1) fault) }
  | _ => none

/-! ## One reply -/

/-- The file that is read. -/
def remote : Bytes := (volume (cText path)).getD []

/-- The slice that the daemon makes of the request. -/
def Sys.slice (s : Sys) (dos : ReadDos) : Except CJson (Slice × Bytes) :=
  readSlice volume dos (some (s.params cfg path total).toCJson) (cText path)

theorem params_path (s : Sys) :
    pStr (some (s.params cfg path total).toCJson) "path" = .ok (cText path) := rfl

theorem params_offset (s : Sys) :
    pInt (some (s.params cfg path total).toCJson) "offset" 0 = double s.offset := by
  show Mcpd.toLongLong ((double s.offset : Int) : Rat) = double s.offset
  exact Mcpd.toLongLong_intCast _

/-- The slice is a piece of the file, from the offset that was asked for when
a double can tell it. -/
theorem slice_piece {s : Sys} {dos : ReadDos} {slice : Slice} {bytes : Bytes}
    (hoffset : double s.offset = s.offset)
    (hslice : s.slice cfg volume path total dos = .ok (slice, bytes)) :
    bytes = piece (remote volume path) s.offset bytes.length := by
  obtain ⟨content, got, hfile, rfl, -, rfl⟩ := readSlice_ok hslice
  have hstart : ∀ size, (sliceOf (some (s.params cfg path total).toCJson) size).offset.toNat =
      s.offset := by
    intro size
    simp only [sliceOf, params_offset, hoffset]
    omega
  have hremote : remote volume path = content := by simp [remote, hfile]
  rw [hstart, hremote, length_piece]
  simp only [piece]
  rw [← List.length_drop, ← List.take_eq_take_min]

/-- The reply carries the slice in base64. -/
theorem request_ok_iff {s : Sys} {dos : ReadDos} {raw : Json} :
    s.request cfg volume path total (.served dos) = .ok raw ↔
      dos.encodes = true ∧ ∃ slice bytes, s.slice cfg volume path total dos = .ok (slice, bytes) ∧
        raw = Json.ofCJson (readResult (cText path) slice bytes.length (Mcpd.B64.b64Encode bytes)) := by
  unfold Sys.request fsRead Sys.slice
  simp only [bind, Except.bind, params_path]
  cases readSlice volume dos (some (s.params cfg path total).toCJson) (cText path) with
  | error err => simp
  | ok found =>
    obtain ⟨slice, bytes⟩ := found
    cases hencodes : dos.encodes with
    | false => simp
    | true =>
      simp [eq_comm]

/-- What the loop body makes of such a reply. -/
theorem take_readResult (s : Sys) (p : Bytes) (slice : Slice) (n : Nat) (bytes : Bytes) :
    s.take cfg total (Json.ofCJson (readResult p slice n (Mcpd.B64.b64Encode bytes))) =
      (if bytes.length = 0 then
        { s with
          written := s.written ++ bytes
          offset := s.offset + bytes.length
          chunks := s.chunks + 1 }.finish total
      else
        { s with
          written := s.written ++ bytes
          offset := s.offset + bytes.length
          chunks := s.chunks + 1 }.head cfg total) := by
  have hget : (Json.ofCJson (readResult p slice n (Mcpd.B64.b64Encode bytes))).get "content_b64" =
      some (.str (Mcpd.B64.b64Encode bytes)) := by
    rw [Json.get_ofCJson]
    rfl
  unfold Sys.take
  rw [hget]
  dsimp only
  rw [Mcpd.B64.b64Encode_eq, PyBase64.b64decode_encode]

/-! ## The condition -/

/-- A reply has bytes, and no more than are left, and its offset is one that a
double can tell. -/
def Fills (s : Sys) : Label → Prop
  | .fails _ => True
  | .served dos => ∀ slice bytes, dos.encodes = true →
      s.slice cfg volume path total dos = .ok (slice, bytes) →
      double s.offset = s.offset ∧ bytes ≠ [] ∧ bytes.length ≤ total - s.offset

instance Fills.decidable (s : Sys) : ∀ a, Decidable (Fills cfg volume path total s a)
  | .fails _ => isTrue trivial
  | .served dos =>
    match hslice : s.slice cfg volume path total dos with
    | .error _ => isTrue (by simp [Fills, hslice])
    | .ok found =>
      decidable_of_iff (dos.encodes = true → double s.offset = s.offset ∧ found.2 ≠ [] ∧
        found.2.length ≤ total - s.offset) (by simp [Fills, hslice, Prod.ext_iff])

/-! ## The invariant -/

/-- The range from the resume offset on, up to `offset`, has been written. -/
structure Sys.Written (s : Sys) : Prop where
  le : cfg.resumeFrom ≤ s.offset
  length : s.written.length = s.offset - cfg.resumeFrom
  eq : s.written = piece (remote volume path) cfg.resumeFrom (s.offset - cfg.resumeFrom)

/-- While requests are out, bytes are missing. -/
def Sys.Steady (s : Sys) : Prop :=
  ∀ attempt, s.phase = .reading attempt → s.offset < total ∧ s.Written cfg volume path

/-- A download that has returned has written the range, all of it and nothing
else. -/
def Sys.Complete (s : Sys) : Prop :=
  ∀ stats, s.phase = .returned stats →
    s.written = piece (remote volume path) cfg.resumeFrom (total - cfg.resumeFrom) ∧
      s.written.length = total - cfg.resumeFrom

/-- A piece goes on where the last one ended. -/
theorem Sys.Written.snoc {s : Sys} (h : s.Written cfg volume path) {bytes : Bytes}
    (hbytes : bytes = piece (remote volume path) s.offset bytes.length) (phase : Phase) :
    Sys.Written cfg volume path
      ⟨s.offset + bytes.length, s.written ++ bytes, s.chunks + 1, phase⟩ := by
  have hle := h.le
  have hlength := h.length
  have hcount : s.offset + bytes.length - cfg.resumeFrom =
      s.offset - cfg.resumeFrom + bytes.length := by omega
  constructor
  · show cfg.resumeFrom ≤ s.offset + bytes.length
    omega
  · show (s.written ++ bytes).length = s.offset + bytes.length - cfg.resumeFrom
    rw [List.length_append, hlength, hcount]
  · show s.written ++ bytes = piece _ _ (s.offset + bytes.length - cfg.resumeFrom)
    have hstart : cfg.resumeFrom + (s.offset - cfg.resumeFrom) = s.offset := by omega
    rw [hcount, piece_append, hstart, ← hbytes, ← h.eq]

/-- At the end of the loop the lengths decide. -/
theorem finish_complete_iff {s : Sys} (h : s.Written cfg volume path) :
    (s.finish total).Complete cfg volume path total ↔
      s.offset - cfg.resumeFrom = total - cfg.resumeFrom := by
  have hlength := h.length
  constructor
  · intro hcomplete
    have hall := (hcomplete _ rfl).2
    rw [← hall]
    exact hlength.symm
  · intro heq stats _
    rw [← heq]
    exact ⟨h.eq, hlength⟩

/-- At the head of the loop the range is complete, or more of it is read. -/
theorem head_spec {s : Sys} (h : s.Written cfg volume path) :
    (s.head cfg total).Steady cfg volume path total ∧
      ((s.head cfg total).Complete cfg volume path total ↔
        s.offset ≤ total ∨ s.offset = cfg.resumeFrom) := by
  have hle := h.le
  unfold Sys.head
  split
  · rename_i hlt
    split
    · constructor
      · simp [Sys.Steady]
      · refine iff_of_true ?_ (by omega)
        simp [Sys.Complete]
    · constructor
      · intro attempt _
        exact ⟨hlt, h.le, h.length, h.eq⟩
      · refine iff_of_true ?_ (by omega)
        simp [Sys.Complete]
  · constructor
    · simp [Sys.Steady, Sys.finish]
    · rw [finish_complete_iff cfg volume path total h]
      omega

theorem start_spec : (start cfg total).Steady cfg volume path total ∧
    (start cfg total).Complete cfg volume path total := by
  have hwritten : Sys.Written cfg volume path
      { offset := cfg.resumeFrom, phase := .reading 0 } := by
    constructor
    · exact Nat.le_refl _
    · simp
    · simp [piece]
  obtain ⟨hsteady, hcomplete⟩ := head_spec cfg volume path total hwritten
  exact ⟨hsteady, hcomplete.mpr (Or.inr rfl)⟩

/-! ## The steps -/

/-- A request fails, or its reply is taken. -/
theorem step_cases {s s' : Sys} {a : Label} (hstep : step cfg volume path total s a = some s') :
    ∃ attempt, s.phase = .reading attempt ∧
      ((∃ fault, s.request cfg volume path total a = .error fault ∧
        ((attempt + 1 : Int) < cfg.retries + 1 ∧ s' = { s with phase := .reading (attempt + 1) } ∨
          s' = { s with phase := .raised (.readFailed s.offset (cfg.retries + 1) fault) })) ∨
      ∃ raw, s.request cfg volume path total a = .ok raw ∧ s' = s.take cfg total raw) := by
  unfold step at hstep
  split at hstep
  · rename_i attempt hphase
    refine ⟨attempt, hphase, ?_⟩
    split at hstep
    · rename_i raw hrequest
      cases hstep
      exact Or.inr ⟨raw, hrequest, rfl⟩
    · rename_i fault hrequest
      refine Or.inl ⟨fault, hrequest, ?_⟩
      split at hstep
      · rename_i hlt
        cases hstep
        exact Or.inl ⟨hlt, rfl⟩
      · cases hstep
        exact Or.inr rfl
  · cases hstep

/-- A reply to an offset that a double can tell keeps the range in order, and
completes it wrongly exactly if it does not fill it. -/
theorem served_spec {s : Sys} {dos : ReadDos} {slice : Slice} {bytes : Bytes}
    (hwritten : s.Written cfg volume path) (hlt : s.offset < total)
    (hoffset : double s.offset = s.offset) (hencodes : dos.encodes = true)
    (hslice : s.slice cfg volume path total dos = .ok (slice, bytes)) {raw : Json}
    (hraw : raw = Json.ofCJson
      (readResult (cText path) slice bytes.length (Mcpd.B64.b64Encode bytes))) :
    (s.take cfg total raw).Steady cfg volume path total ∧
      ((s.take cfg total raw).Complete cfg volume path total ↔
        Fills cfg volume path total s (.served dos)) := by
  have hfills : Fills cfg volume path total s (.served dos) ↔
      bytes ≠ [] ∧ bytes.length ≤ total - s.offset := by
    constructor
    · intro h
      exact (h slice bytes hencodes hslice).2
    · intro h slice' bytes' _ hslice'
      rw [hslice] at hslice'
      cases hslice'
      exact ⟨hoffset, h⟩
  have hle := hwritten.le
  have hnext := hwritten.snoc cfg volume path
    (slice_piece cfg volume path total hoffset hslice) s.phase
  rw [hraw, take_readResult, hfills]
  split
  · rename_i hnil
    rw [List.length_eq_zero_iff] at hnil
    constructor
    · simp [Sys.Steady, Sys.finish]
    · rw [finish_complete_iff cfg volume path total hnext]
      refine iff_of_false ?_ (by simp [hnil])
      simp only [hnil, List.length_nil]
      omega
  · rename_i hsome
    obtain ⟨hsteady, hcomplete⟩ := head_spec cfg volume path total hnext
    refine ⟨hsteady, ?_⟩
    rw [hcomplete]
    have hne : bytes ≠ [] := by
      rintro rfl
      exact hsome rfl
    dsimp only
    simp only [hne, ne_eq, not_false_eq_true, true_and]
    omega

/-- A request that fails changes nothing but the phase. -/
theorem failed_spec {s s' : Sys} {attempt : Nat} {e : DownloadError}
    (hsteady : s.Steady cfg volume path total) (hphase : s.phase = .reading attempt)
    (hs' : s' = { s with phase := .reading (attempt + 1) } ∨ s' = { s with phase := .raised e }) :
    s'.Steady cfg volume path total ∧ s'.Complete cfg volume path total := by
  obtain ⟨hlt, hwritten⟩ := hsteady attempt hphase
  rcases hs' with rfl | rfl
  · constructor
    · intro _ _
      exact ⟨hlt, hwritten.le, hwritten.length, hwritten.eq⟩
    · simp [Sys.Complete]
  · constructor
    · simp [Sys.Steady]
    · simp [Sys.Complete]

/-- A request without a reply leaves nothing to fill. -/
theorem fills_of_fault {s : Sys} {a : Label} {fault : Fault}
    (hrequest : s.request cfg volume path total a = .error fault) :
    Fills cfg volume path total s a := by
  cases a with
  | fails text => trivial
  | served dos =>
    intro slice bytes hencodes hslice
    have hok := (request_ok_iff cfg volume path total).mpr ⟨hencodes, slice, bytes, hslice, rfl⟩
    rw [hok] at hrequest
    cases hrequest

/-- Every step keeps the range in order, and completes it wrongly exactly if its
reply does not fill it. -/
theorem step_exact {s s' : Sys} {a : Label} (hsteady : s.Steady cfg volume path total)
    (hoffset : (∃ dos, a = .served dos) → double s.offset = s.offset)
    (hstep : step cfg volume path total s a = some s') :
    s'.Steady cfg volume path total ∧
      (s'.Complete cfg volume path total ↔ Fills cfg volume path total s a) := by
  obtain ⟨attempt, hphase, ⟨fault, hrequest, hs'⟩ | ⟨raw, hrequest, rfl⟩⟩ :=
    step_cases cfg volume path total hstep
  · have hkept : s' = { s with phase := .reading (attempt + 1) } ∨
        s' = { s with phase := .raised (.readFailed s.offset (cfg.retries + 1) fault) } :=
      hs'.imp And.right id
    obtain ⟨hsteady', hcomplete⟩ := failed_spec cfg volume path total hsteady hphase hkept
    exact ⟨hsteady', iff_of_true hcomplete (fills_of_fault cfg volume path total hrequest)⟩
  · obtain ⟨hlt, hwritten⟩ := hsteady attempt hphase
    cases a with
    | fails text => cases hrequest
    | served dos =>
      obtain ⟨hencodes, slice, bytes, hslice, hraw⟩ :=
        (request_ok_iff cfg volume path total).mp hrequest
      exact served_spec cfg volume path total hwritten hlt (hoffset ⟨dos, rfl⟩) hencodes hslice hraw

/-- A step whose reply fills the range, whatever the size of the file. -/
theorem step_fills {s s' : Sys} {a : Label} (hsteady : s.Steady cfg volume path total)
    (hfills : Fills cfg volume path total s a)
    (hstep : step cfg volume path total s a = some s') :
    s'.Steady cfg volume path total ∧ s'.Complete cfg volume path total := by
  obtain ⟨attempt, hphase, ⟨fault, hrequest, hs'⟩ | ⟨raw, hrequest, -⟩⟩ :=
    step_cases cfg volume path total hstep
  · exact failed_spec cfg volume path total hsteady hphase (hs'.imp And.right id)
  · cases a with
    | fails text => cases hrequest
    | served dos =>
      obtain ⟨hencodes, slice, bytes, hslice, -⟩ :=
        (request_ok_iff cfg volume path total).mp hrequest
      have hoffset := (hfills slice bytes hencodes hslice).1
      obtain ⟨hsteady', hcomplete⟩ :=
        step_exact cfg volume path total hsteady (fun _ => hoffset) hstep
      exact ⟨hsteady', hcomplete.mpr hfills⟩

/-! ## Whole downloads -/

/-- A download whose replies fill the range returns the whole of it.  Up to
`2 ^ 53` bytes, where a double tells every offset, the others return too much
or too little. -/
theorem download_exact (as : List Label) (s : Sys)
    (hrun : run (step cfg volume path total) (start cfg total) as = some s) :
    (Along (step cfg volume path total) (Fills cfg volume path total) (start cfg total) as →
      s.Complete cfg volume path total) ∧
    (total ≤ 2 ^ 53 →
      (Along (step cfg volume path total) (Fills cfg volume path total) (start cfg total) as ↔
        ∀ bs m, bs <+: as → run (step cfg volume path total) (start cfg total) bs = some m →
          m.Complete cfg volume path total)) := by
  obtain ⟨hsteady, hcomplete⟩ := start_spec cfg volume path total
  constructor
  · intro halong
    have hinv : s.Steady cfg volume path total ∧ s.Complete cfg volume path total :=
      run_invariant (fun _ _ _ h hfills hstep => step_fills cfg volume path total h.1 hfills hstep)
        ⟨hsteady, hcomplete⟩ halong hrun
    exact hinv.2
  · intro hsize
    have hexact : ∀ s a s', s.Steady cfg volume path total →
        step cfg volume path total s a = some s' → s'.Steady cfg volume path total ∧
          (s'.Complete cfg volume path total ↔ Fills cfg volume path total s a) := by
      intro s a s' h hstep
      refine step_exact cfg volume path total h (fun _ => ?_) hstep
      obtain ⟨attempt, hphase, -⟩ := step_cases cfg volume path total hstep
      have hlt := (h attempt hphase).1
      exact double_of_le (by omega)
    have hiff := along_iff_prefix (fun s a s' h hstep => (hexact s a s' h hstep).1)
      (fun s a s' h hstep => not_congr (hexact s a s' h hstep).2) hsteady
      (not_not.mpr hcomplete) hrun
    simpa only [not_not] using hiff

/-- On a file that is as long as announced, a daemon that reads something for
a request of at least one byte fills the range. -/
theorem fills_of_reads {s : Sys} {dos : ReadDos} (hsteady : s.Steady cfg volume path total)
    {attempt : Nat} (hphase : s.phase = .reading attempt) (hchunk : 1 ≤ cfg.chunkSize)
    (hsize : total ≤ 2 ^ 53) (hremote : total ≤ (remote volume path).length)
    (hexamines : dos.examines = true) (hreads : dos.reads ≠ some 0) :
    Fills cfg volume path total s (.served dos) := by
  intro slice bytes _ hslice
  have hlt := (hsteady attempt hphase).1
  have hoffset : double s.offset = s.offset := double_of_le (by omega)
  have hlength : pInt (some (s.params cfg path total).toCJson) "length" (-1) =
      s.length cfg total := by
    have hnat : s.length cfg total = (s.length cfg total).toNat := by
      unfold Sys.length
      omega
    have hdouble : double (s.length cfg total) = s.length cfg total := by
      rw [hnat]
      apply double_of_le
      unfold Sys.length
      omega
    show Mcpd.toLongLong ((double (s.length cfg total) : Int) : Rat) = s.length cfg total
    rw [Mcpd.toLongLong_intCast, hdouble]
  obtain ⟨content, got, hfile, rfl, hgot, rfl⟩ := readSlice_ok hslice
  have hcontent : remote volume path = content := by simp [remote, hfile]
  rw [hcontent] at hremote
  have hsome : (sliceOf (some (s.params cfg path total).toCJson) content.length).toRead =
      (s.length cfg total).toNat := by
    have hpositive : ¬ (s.offset : Int) < 0 := by omega
    simp only [sliceOf, params_offset, hoffset, hlength, Sys.length, if_neg hpositive]
    split
    · rfl
    · omega
  have hstart : (sliceOf (some (s.params cfg path total).toCJson) content.length).offset.toNat =
      s.offset := by
    simp only [sliceOf, params_offset, hoffset]
    omega
  rw [if_pos hexamines] at hgot ⊢
  have hpos : 0 < (s.length cfg total).toNat := by
    unfold Sys.length
    omega
  rw [hsome, if_pos hpos] at hgot
  have hgotPos : got ≠ 0 := by
    rintro rfl
    exact hreads hgot
  rw [hstart, hsome]
  refine ⟨hoffset, ?_, ?_⟩
  · apply List.ne_nil_of_length_pos
    rw [length_piece]
    omega
  · rw [length_piece]
    unfold Sys.length
    omega

/-- A file of four bytes. -/
def sampleVolume : Volume := fun path => if path = ascii "RAM:x" then some [1, 2, 3, 4] else none

/-- A failed request, a short read and the rest, resumed behind the first byte. -/
def shortReads : List Label :=
  [.fails (ascii "timed out"), .served { reads := some 1 }, .served { reads := some 9 }]

theorem download_exact_sample : ∃ s,
    run (step { resumeFrom := 1 } sampleVolume (ascii "RAM:x") 4) (start { resumeFrom := 1 } 4)
      shortReads = some s ∧ s.written = [2, 3, 4] ∧
    s.Complete { resumeFrom := 1 } sampleVolume (ascii "RAM:x") 4 :=
  ⟨_, rfl, rfl, (download_exact { resumeFrom := 1 } sampleVolume (ascii "RAM:x") 4 shortReads _
    rfl).1 (by decide +kernel)⟩

/-- `Read` returns no bytes for the second request.  The download returns as if
it were complete, and two of the four bytes are missing. -/
theorem empty_reply : ∃ s,
    run (step { chunkSize := 2 } sampleVolume (ascii "RAM:x") 4) (start { chunkSize := 2 } 4)
      [.served { reads := some 2 }, .served { reads := some 0 }] = some s ∧
    (∃ stats, s.phase = .returned stats) ∧ s.written = [1, 2] ∧
    ¬ s.Complete { chunkSize := 2 } sampleVolume (ascii "RAM:x") 4 := by
  refine ⟨_, rfl, ⟨_, rfl⟩, rfl, ?_⟩
  intro hcomplete
  have hlength := (hcomplete _ rfl).2
  revert hlength
  decide +kernel

/-! ## Every download ends -/

/-- How many requests are left at most. -/
def Sys.budget (s : Sys) : Nat :=
  match s.phase with
  | .reading attempt =>
    (total - s.offset) * (cfg.retries + 1).toNat + ((cfg.retries + 1).toNat - attempt)
  | _ => 0

/-- A request is out only while attempts and bytes are left. -/
def Sys.Pending (s : Sys) : Prop :=
  ∀ attempt, s.phase = .reading attempt →
    s.offset < total ∧ (attempt : Int) < cfg.retries + 1

theorem head_pending (s : Sys) : (s.head cfg total).Pending cfg total ∧
    (s.head cfg total).budget cfg total ≤ (total - s.offset + 1) * (cfg.retries + 1).toNat := by
  unfold Sys.head
  split
  · rename_i hlt
    split
    · constructor
      · simp [Sys.Pending]
      · simp [Sys.budget]
    · rename_i hretries
      constructor
      · intro attempt hphase
        cases hphase
        exact ⟨hlt, by omega⟩
      · simp only [Sys.budget, Nat.sub_zero, Nat.add_mul, Nat.one_mul]
        exact Nat.le_refl _
  · constructor
    · simp [Sys.Pending, Sys.finish]
    · simp [Sys.budget, Sys.finish]

/-- A request uses up a part of the budget. -/
theorem step_budget {s s' : Sys} {a : Label} (h : s.Pending cfg total)
    (hstep : step cfg volume path total s a = some s') :
    s'.Pending cfg total ∧ s'.budget cfg total < s.budget cfg total := by
  obtain ⟨attempt, hphase, hcases⟩ := step_cases cfg volume path total hstep
  obtain ⟨hlt, hattempt⟩ := h attempt hphase
  have hbudget : s.budget cfg total =
      (total - s.offset) * (cfg.retries + 1).toNat + ((cfg.retries + 1).toNat - attempt) := by
    simp [Sys.budget, hphase]
  have hdone : ∀ phase : Phase, (∀ k, phase ≠ .reading k) → ∀ s' : Sys, s'.phase = phase →
      s'.Pending cfg total ∧ s'.budget cfg total < s.budget cfg total := by
    intro phase hphase' s' hs'
    constructor
    · intro k hk
      rw [hs'] at hk
      exact absurd hk (hphase' k)
    · have hzero : s'.budget cfg total = 0 := by
        unfold Sys.budget
        rw [hs']
        cases phase with
        | reading k => exact absurd rfl (hphase' k)
        | _ => rfl
      omega
  rcases hcases with ⟨fault, -, ⟨hnext, rfl⟩ | rfl⟩ | ⟨raw, -, rfl⟩
  · constructor
    · intro k hk
      cases hk
      exact ⟨hlt, by omega⟩
    · rw [hbudget]
      simp only [Sys.budget]
      omega
  · exact hdone _ (by simp) _ rfl
  · unfold Sys.take
    split
    · exact hdone _ (by simp) _ rfl
    · split
      · exact hdone _ (by simp) _ rfl
      · rename_i payload _
        dsimp only
        split
        · exact hdone _ (by simp [Sys.finish]) _ rfl
        · rename_i hsome
          obtain ⟨hpending, hle⟩ := head_pending cfg total
            { s with
              written := s.written ++ payload
              offset := s.offset + payload.length
              chunks := s.chunks + 1 }
          refine ⟨hpending, ?_⟩
          have hfewer : total - (s.offset + payload.length) + 1 ≤ total - s.offset := by omega
          have hmul := Nat.mul_le_mul_right (cfg.retries + 1).toNat hfewer
          dsimp only at hle
          omega
    · exact hdone _ (by simp) _ rfl

/-- A download makes a bounded number of requests, and then it has returned or
raised. -/
theorem download_ends {as : List Label} {s : Sys}
    (hrun : run (step cfg volume path total) (start cfg total) as = some s) :
    as.length + s.budget cfg total ≤ (total - cfg.resumeFrom + 1) * (cfg.retries + 1).toNat := by
  have hall : ∀ (as : List Label) (s₀ : Sys), s₀.Pending cfg total →
      run (step cfg volume path total) s₀ as = some s →
      as.length + s.budget cfg total ≤ s₀.budget cfg total := by
    intro as
    induction as with
    | nil =>
      intro s₀ _ hnil
      cases hnil
      simp
    | cons a as ih =>
      intro s₀ hpending hcons
      obtain ⟨s₁, hstep, hrest⟩ := run_cons_some hcons
      obtain ⟨hpending', hless⟩ := step_budget cfg volume path total hpending hstep
      have hih := ih s₁ hpending' hrest
      rw [List.length_cons]
      omega
  obtain ⟨hpending, hle⟩ := head_pending cfg total { offset := cfg.resumeFrom, phase := .reading 0 }
  exact Nat.le_trans (hall as _ hpending hrun) hle

end AmigaFleet.Host.Download

import AmigaFleet.Host.DownloadVerify
import AmigaFleet.Host.UploadExact
import AmigaFleet.Mcpd.FsWrite
import Mathlib.Data.List.TakeDrop

/-!
# Files from one machine to another

`fleet_relay` of `tools/fleet.py`, which reads a file from one target by one `fs.read`
and writes it to another by one `fs.write`, and a file that is uploaded and downloaded
again.

Neither end of a relay compares the number of bytes with the size of the file.  A `Read`
that stops early, or an `ExamineObjectTags` that fails, gives a shorter file, or an
empty one, and the relay returns as if it were complete.

* `relay_copies`: what a relay leaves on the other target, and when that is the file.
* `upload_download`: the file that comes back.
-/

namespace AmigaFleet.Host.Transfers

open AmigaFleet.Lib
open AmigaFleet.Mcpd (ascii cText CJson pStr pInt)
open AmigaFleet.Mcpd.Fs
open Upload (Reply ask ask_ok pathParams)

/-! ## fleet_relay -/

variable {σ : Type}

/-- A field that is declared as `int | None`. -/
def optionalInt : Option Json → Bool
  | none | some .null | some (.int _) => true
  | some _ => false

/-- `FsReadResult.model_validate(raw).content_b64`; `none` is a `ValidationError`. -/
def readContent (raw : Json) : Option Bytes :=
  match raw.get "path", raw.get "size", raw.get "content_b64" with
  | some (.str _), some (.int _), some (.str content) =>
    if optionalInt (raw.get "total_size") && optionalInt (raw.get "offset") then some content
    else none
  | _, _, _ => none

/-- `FsWriteResult.model_validate(raw).size` -/
def writeSize (raw : Json) : Option Int :=
  match raw.get "path", raw.get "size" with
  | some (.str _), some (.int n) => some n
  | _, _ => none

/-- The parameters of the `fs.write`. -/
def writeParameters (path content : Bytes) : Json :=
  .dict [(ascii "path", .str path), (ascii "content_b64", .str (Base64.encode content))]

/-- What becomes of the `fs.write`; it can be executed though the request fails. -/
inductive WriteReply where
  | served (dos : WriteDos)
  | fails (text : Bytes) (executed : Option WriteDos)
deriving DecidableEq, Repr

inductive RelayError where
  | read (e : Upload.Fault)
  | write (e : Upload.Fault)
  | validation
  | badBase64

/-- `FleetRelayResult`, less the names of the targets. -/
structure FleetRelayResult where
  srcPath : Bytes
  dstPath : Bytes
  bytes : Int
deriving DecidableEq, Repr

variable (iz : Option (ZIFace σ)) (src dst : Volume) (srcPath dstPath : Bytes)

/-- `fleet_relay` behind the read. -/
def relayWrite (content : Bytes) (write : WriteReply) :
    Volume × Except RelayError FleetRelayResult :=
  let call := fun dos => fsWrite iz dos dst (some (writeParameters dstPath content).toCJson)
  match write with
  | .fails text none => (dst, .error (.write (.transport text)))
  | .fails text (some dos) => ((call dos).1, .error (.write (.transport text)))
  | .served dos =>
    match call dos with
    | (dst', .error err) => (dst', .error (.write (.daemon err)))
    | (dst', .ok result) =>
      match writeSize (Json.ofCJson result) with
      | none => (dst', .error .validation)
      | some size => (dst', .ok ⟨srcPath, dstPath, size⟩)

/-- `fleet_relay`; `src` are the files of the one target when it is read, and `dst` those of the
other one when it is written. -/
def fleetRelay (read : Reply ReadDos) (write : WriteReply) :
    Volume × Except RelayError FleetRelayResult :=
  match ask (fsRead src) (pathParams srcPath) read with
  | .error e => (dst, .error (.read e))
  | .ok raw =>
    match readContent raw with
    | none => (dst, .error .validation)
    | some text =>
      match PyBase64.b64decode text with
      | none => (dst, .error .badBase64)
      | some content => relayWrite iz dst srcPath dstPath content write

/-! ## The two requests -/

/-- `Read` has given all of the file. -/
def WholeRead (dos : ReadDos) (content : Bytes) : Prop :=
  content = [] ∨ dos.examines = true ∧ ∀ got, dos.reads = some got → content.length ≤ got

variable {iz src dst srcPath dstPath}

theorem wholeRead_iff {dos : ReadDos} {content : Bytes} {toRead got : Nat}
    (hread : toRead = if dos.examines then content.length else 0)
    (hgot : (if toRead > 0 then dos.reads else some 0) = some got) :
    content.length ≤ min got toRead ↔ WholeRead dos content := by
  unfold WholeRead
  by_cases hempty : content = []
  · simp [hempty]
  · have hpos : 0 < content.length := List.length_pos_iff.mpr hempty
    cases hexamines : dos.examines with
    | false =>
      rw [hexamines] at hread
      simp only [Bool.false_eq_true, if_false] at hread
      simp [hread, hempty]
    | true =>
      rw [hexamines, if_pos rfl] at hread
      rw [hread, if_pos hpos] at hgot
      have hmin : content.length ≤ min got content.length ↔ content.length ≤ got := by omega
      rw [hread, hmin]
      simp [hempty, hgot]

theorem readContent_eq (path : Bytes) (slice : Slice) (n : Nat) (bytes : Bytes) :
    readContent (Json.ofCJson (readResult path slice n (Mcpd.B64.b64Encode bytes))) =
      some (Base64.encode bytes) := by
  generalize hreply : readResult path slice n (Mcpd.B64.b64Encode bytes) = reply
  have hpath : (Json.ofCJson reply).get "path" = some (.str path) := by
    rw [Json.get_ofCJson, ← hreply]
    rfl
  have hsize : (Json.ofCJson reply).get "size" = some (.int n) := by
    rw [Json.get_ofCJson, ← hreply]
    exact congrArg some (Json.ofCJson_number_int _)
  have hcontent : (Json.ofCJson reply).get "content_b64" = some (.str (Base64.encode bytes)) := by
    rw [Json.get_ofCJson, ← hreply, ← Mcpd.B64.b64Encode_eq]
    rfl
  have htotal : (Json.ofCJson reply).get "total_size" = some (.int slice.size) := by
    rw [Json.get_ofCJson, ← hreply]
    exact congrArg some (Json.ofCJson_number_int _)
  have hoffset : (Json.ofCJson reply).get "offset" = some (.int slice.offset) := by
    rw [Json.get_ofCJson, ← hreply]
    exact congrArg some (Json.ofCJson_number_int _)
  unfold readContent
  rw [hpath, hsize, hcontent]
  dsimp only
  rw [htotal, hoffset]
  rfl

/-- An `fs.read` of a whole file. -/
theorem ask_read {read : Reply ReadDos} {raw : Json}
    (h : ask (fsRead src) (pathParams srcPath) read = .ok raw) :
    ∃ dos content part, read = .served dos ∧ src (cText srcPath) = some content ∧
      part <+: content ∧ (part = content ↔ WholeRead dos content) ∧
      readContent raw = some (Base64.encode part) := by
  obtain ⟨dos, result, rfl, hresult, rfl⟩ := ask_ok h
  have hpath : pStr (some (pathParams srcPath).toCJson) "path" = .ok (cText srcPath) := rfl
  obtain ⟨slice, bytes, hslice, rfl⟩ := fsRead_ok hpath hresult
  obtain ⟨content, got, hfile, hsliceOf, hgot, hbytes⟩ := readSlice_ok hslice
  have hoffset : slice.offset = 0 := by
    rw [hsliceOf]
    rfl
  have hread : slice.toRead = if dos.examines then content.length else 0 := by
    rw [hsliceOf]
    rfl
  have hpart : bytes = content.take (min got slice.toRead) := by
    rw [hbytes, hoffset]
    rfl
  refine ⟨dos, content, bytes, rfl, hfile, hpart ▸ List.take_prefix _ _, ?_, ?_⟩
  · rw [hpart, List.take_eq_self_iff]
    exact wholeRead_iff hread hgot
  · exact readContent_eq _ _ _ _

/-- The `fs.write` is read as what it is sent. -/
theorem writeParams_relay (content : Bytes) :
    writeParams iz (some (writeParameters dstPath content).toCJson) = .ok (cText dstPath, content) := by
  have hpath : pStr (some (writeParameters dstPath content).toCJson) "path" = .ok (cText dstPath) := rfl
  have htext : pStr (some (writeParameters dstPath content).toCJson) "content_b64" =
      .ok (Base64.encode content) := by
    rw [← Upload.cText_encode]
    rfl
  have hplain : (some (writeParameters dstPath content).toCJson).bind
      (CJson.getItem (ascii "compression")) = none := rfl
  unfold writeParams decodeWritePayload
  simp only [hpath, htext, bind, Except.bind, Mcpd.B64.b64Decode_encode, hplain]

theorem writeSize_eq (path : Bytes) (n : Nat) :
    writeSize (Json.ofCJson (writeResult path n)) = some (n : Int) := by
  have hsize : (Json.ofCJson (writeResult path n)).get "size" = some (.int n) := by
    rw [Json.get_ofCJson]
    exact congrArg some (Json.ofCJson_number_int _)
  have hpath : (Json.ofCJson (writeResult path n)).get "path" = some (.str path) := by
    rw [Json.get_ofCJson]
    rfl
  unfold writeSize
  rw [hsize, hpath]

/-- What the other target has behind the relay's second half. -/
theorem relayWrite_cases (iz : Option (ZIFace σ)) (dst : Volume) (srcPath dstPath content : Bytes)
    (write : WriteReply) :
    (relayWrite iz dst srcPath dstPath content write =
      (Function.update dst (cText dstPath) (some content),
        .ok ⟨srcPath, dstPath, content.length⟩)) ∨
    (∃ e, (relayWrite iz dst srcPath dstPath content write).2 = .error e) ∧
      ((relayWrite iz dst srcPath dstPath content write).1 = dst ∨ ∃ part, part <+: content ∧
        (relayWrite iz dst srcPath dstPath content write).1 =
          Function.update dst (cText dstPath) (some part)) := by
  have hcall : ∀ dos, fsWrite iz dos dst (some (writeParameters dstPath content).toCJson) =
      writeWhole dos dst (cText dstPath) content := by
    intro dos
    rw [fsWrite, writeParams_relay]
  unfold relayWrite
  simp only [hcall]
  cases write with
  | fails text executed =>
    cases executed with
    | none => exact .inr ⟨⟨_, rfl⟩, .inl rfl⟩
    | some dos =>
      refine .inr ⟨⟨_, rfl⟩, ?_⟩
      rcases writeWhole_file dos dst (cText dstPath) content with ⟨hall, -⟩ | ⟨-, hleft⟩
      · exact .inr ⟨content, List.prefix_refl _, hall⟩
      · exact hleft
  | served dos =>
    dsimp only
    rcases writeWhole_file dos dst (cText dstPath) content with ⟨hall, hok⟩ | ⟨⟨err, herr⟩, hleft⟩
    · rw [show writeWhole dos dst (cText dstPath) content =
        (Function.update dst (cText dstPath) (some content),
          .ok (writeResult (cText dstPath) content.length)) from Prod.ext hall hok]
      dsimp only
      rw [writeSize_eq]
      exact .inl rfl
    · generalize writeWhole dos dst (cText dstPath) content = result at herr hleft ⊢
      obtain ⟨after, out⟩ := result
      obtain rfl : out = .error err := herr
      exact .inr ⟨⟨_, rfl⟩, hleft⟩

/-! ## What a relay leaves -/

/-- A relay changes no other file, and whatever comes of it the file on the other target is a beginning
of the one that was read, or as it was.  Where it returns, it is the whole file exactly if `Read` has
given all of it; `bytes` is its length. -/
theorem relay_copies (iz : Option (ZIFace σ)) (src dst : Volume) (srcPath dstPath : Bytes)
    (read : Reply ReadDos) (write : WriteReply) :
    (∀ dst' r, fleetRelay iz src dst srcPath dstPath read write = (dst', .ok r) →
      ∃ dos content part, read = .served dos ∧ src (cText srcPath) = some content ∧
        part <+: content ∧ dst' = Function.update dst (cText dstPath) (some part) ∧
        r.bytes = part.length ∧ (part = content ↔ WholeRead dos content)) ∧
    ∀ dst' e, fleetRelay iz src dst srcPath dstPath read write = (dst', .error e) →
      dst' = dst ∨ ∃ content part, src (cText srcPath) = some content ∧ part <+: content ∧
        dst' = Function.update dst (cText dstPath) (some part) := by
  cases hask : ask (fsRead src) (pathParams srcPath) read with
  | error e =>
    have hrelay : fleetRelay iz src dst srcPath dstPath read write = (dst, .error (.read e)) := by
      rw [fleetRelay, hask]
    rw [hrelay]
    constructor
    · intro dst' r hok
      cases hok
    · intro dst' e herror
      cases herror
      exact .inl rfl
  | ok raw =>
    obtain ⟨dos, content, part, rfl, hfile, hprefix, hwhole, hcontent⟩ := ask_read hask
    have hrelay : fleetRelay iz src dst srcPath dstPath (.served dos) write =
        relayWrite iz dst srcPath dstPath part write := by
      rw [fleetRelay, hask]
      dsimp only
      rw [hcontent]
      dsimp only
      rw [PyBase64.b64decode_encode]
    rw [hrelay]
    rcases relayWrite_cases iz dst srcPath dstPath part write with hall | ⟨⟨e, herr⟩, hleft⟩
    · rw [hall]
      constructor
      · intro dst' r hok
        cases hok
        exact ⟨dos, content, part, rfl, hfile, hprefix, rfl, rfl, hwhole⟩
      · intro dst' e herror
        cases herror
    · constructor
      · intro dst' r hok
        rw [hok] at herr
        cases herr
      · intro dst' e' herror
        rw [herror] at hleft
        rcases hleft with hsame | ⟨written, hwritten, hupdate⟩
        · exact .inl hsame
        · exact .inr ⟨content, written, hfile, hwritten.trans hprefix, hupdate⟩

def threeBytes : Volume := fun p => if p = ascii "RAM:a" then some [1, 2, 3] else none

theorem relay_copies_sample : ∃ dst', fleetRelay (none : Option (ZIFace Unit)) threeBytes threeBytes
    (ascii "RAM:a") (ascii "RAM:b") (.served { reads := some 3 }) (.served {}) =
      (dst', .ok ⟨ascii "RAM:a", ascii "RAM:b", 3⟩) ∧
    ∃ part, dst' = Function.update threeBytes (ascii "RAM:b") (some part) := by
  obtain ⟨dst', hrun⟩ : ∃ dst', fleetRelay (none : Option (ZIFace Unit)) threeBytes threeBytes
      (ascii "RAM:a") (ascii "RAM:b") (.served { reads := some 3 }) (.served {}) =
        (dst', .ok ⟨ascii "RAM:a", ascii "RAM:b", 3⟩) := ⟨_, rfl⟩
  obtain ⟨-, -, part, -, -, -, hdst, -, -⟩ := (relay_copies none threeBytes threeBytes
    (ascii "RAM:a") (ascii "RAM:b") (.served { reads := some 3 }) (.served {})).1 _ _ hrun
  exact ⟨dst', hrun, part, hdst⟩

/-- A `Read` that stops early, and a size that cannot be found, are no errors. -/
theorem relay_short :
    (∃ dst', fleetRelay (none : Option (ZIFace Unit)) threeBytes threeBytes (ascii "RAM:a")
        (ascii "RAM:b") (.served { reads := some 2 }) (.served {}) =
          (dst', .ok ⟨ascii "RAM:a", ascii "RAM:b", 2⟩) ∧ dst' (ascii "RAM:b") = some [1, 2]) ∧
    ∃ dst', fleetRelay (none : Option (ZIFace Unit)) threeBytes threeBytes (ascii "RAM:a")
      (ascii "RAM:a") (.served { examines := false, reads := some 3 }) (.served {}) =
        (dst', .ok ⟨ascii "RAM:a", ascii "RAM:a", 0⟩) ∧ dst' (ascii "RAM:a") = some [] :=
  ⟨⟨_, rfl, rfl⟩, _, rfl, rfl⟩

/-! ## There and back -/

/-- A file that is uploaded, and downloaded again, comes back as it was, whatever the sizes of the
chunks, the compression, the requests that are lost and the lengths of the replies, as long as no
attempt is executed behind its successor and every reply of the download has bytes. -/
theorem upload_download (iz : Option (ZIFace σ)) (zlib : Bytes → Bytes)
    (hz : ∀ z ∈ iz, z.Inverts zlib) (pick : Int → Bytes → Upload.Mode) (cfg : Upload.Config)
    (hchunk : 1 ≤ cfg.chunkSize) (hretries : 0 ≤ cfg.retries) (hresume : cfg.resumeFrom = 0)
    {content path : Bytes} (hne : content ≠ []) (hsize : content.length ≤ 2 ^ 53)
    {volume : Volume} {script : List Upload.Attempt} (hscript : ∀ a ∈ script, a.Whole)
    (hseq : Upload.Sequential 0 script)
    (hok : (Upload.uploadTo iz zlib pick cfg content path volume script).2.isOk = true)
    {sha256 : Bytes → Bytes} {args : Download.DownloadArgs} (hargs : 1 ≤ args.chunkSize)
    (hfresh : args.resume = false) {sched : Download.Schedule}
    (hreads : ∀ a ∈ sched.reads, a.Reads) {localFile local' : Option Bytes} {later : Volume}
    {result : Download.DownloadResult}
    (h : Download.fsDownload sha256 args path sched localFile
      (Upload.uploadTo iz zlib pick cfg content path volume script).1.volume later =
        some (local', .ok result)) :
    local' = some content := by
  obtain ⟨hsound, hcovered⟩ :=
    Upload.sound_uploadTo hz hchunk hretries hresume hsize hscript hok
  have hfile := hsound.exact hne hcovered
    (Upload.inOrder_uploadTo hz hchunk hresume hsize hscript hseq hok).log.rewritten
  have hlocal := Download.local_of_reads hargs hfile hsize hreads h
  have hfront : args.front localFile = [] := by simp [Download.DownloadArgs.front, hfresh]
  rw [hlocal, hfront, List.nil_append, List.length_nil, List.drop_zero]

/-- A target to which both bytes have been uploaded, the first one compressed; an attempt of
the first chunk is lost. -/
def uploaded : Volume :=
  (Upload.uploadTo (some sampleInflate) sampleZlib Upload.zlibFirst { chunkSize := 1 } [0x61, 2] [82]
    (fun _ => some [9, 9, 9])
    [{}, { copies := 1, runs := [(1, {})], answered := true },
      { copies := 1, runs := [(2, {})], answered := true }]).1.volume

/-- It is downloaded one byte at a time. -/
theorem upload_download_sample : ∃ local' result,
    Download.fsDownload (fun _ => []) { chunkSize := 1 } [82]
      ⟨.served { name := [] }, [.served { reads := some 1 }, .fails [], .served { reads := some 1 }],
        .served {}⟩ none uploaded (fun _ => none) = some (local', .ok result) ∧
      local' = some [0x61, 2] := by
  have hreturns : (Download.fsDownload (fun _ => []) { chunkSize := 1 } [82]
      ⟨.served { name := [] }, [.served { reads := some 1 }, .fails [], .served { reads := some 1 }],
        .served {}⟩ none uploaded (fun _ => none)).any (fun r => r.2.isOk) = true := by decide +kernel
  obtain ⟨⟨local', outcome⟩, hrun, hok⟩ := (Option.any_eq_true _ _).mp hreturns
  cases outcome with
  | error e => cases hok
  | ok result =>
    refine ⟨local', result, hrun, upload_download (some sampleInflate) sampleZlib Upload.some_inverts
      Upload.zlibFirst { chunkSize := 1 } (by decide) (by decide) rfl (by decide) (by decide)
      (by decide) (by decide) (by decide +kernel) (by decide) rfl (by decide) hrun⟩

end AmigaFleet.Host.Transfers

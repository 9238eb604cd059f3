import AmigaFleet.Host.Download
import AmigaFleet.Host.UploadVerify

/-!
# The verified download

`fs_download` of `tools/fs.py`: the size from `fs.stat`, the chunked download behind
what `resume` finds in the local file, and with `verify` the comparison of two SHA-256
digests.  The remote file can change between the last chunk and `fs.hash`.

Nothing compares the local file that is resumed with the remote one before the chunks
are read.

* `download_resumed`: what a download leaves, if every reply has bytes.
* `download_verified`: what a verified download leaves, whatever the replies are.
-/

namespace AmigaFleet.Host.Download

open AmigaFleet.Lib
open AmigaFleet.Mcpd (ascii cText)
open AmigaFleet.Mcpd.Fs
open Upload (Reply ask ask_ok pathParams hashParams hashText)

/-! ## fs_download -/

structure DownloadArgs where
  chunkSize : Int := defaultReadRaw
  verify : Bool := false
  resume : Bool := false
deriving DecidableEq, Repr

/-- `DownloadResult` without its times. -/
structure DownloadResult where
  remotePath : Bytes
  bytesTotal : Nat
  chunks : Nat
  resumedFrom : Nat
  sha256 : Option Bytes := none
deriving DecidableEq, Repr

inductive DownloadFailure where
  | stat (e : Upload.Fault)
  /-- the reply to `fs.stat` has no size -/
  | keyError
  | download (e : DownloadError)
  | hash (e : Upload.Fault)
  | validation
  /-- `download SHA-256 mismatch for …: local=… remote=…` -/
  | mismatch (path localHash remoteHash : Bytes)

/-- What becomes of the requests of one call. -/
structure Schedule where
  stat : Reply StatDos
  reads : List Label
  hash : Reply HashDos

variable (sha256 : Bytes → Bytes) (args : DownloadArgs) (path : Bytes) (sched : Schedule)

/-- `int(stat_raw["size"])`, of a size that `fs_stat` prints. -/
def statTotal (raw : Json) : Option Nat :=
  match raw.get "size" with
  | some (.int n) => some n.toNat
  | _ => none

/-- What stands in the local file in front of what is downloaded. -/
def DownloadArgs.front (localFile : Option Bytes) : Bytes :=
  if args.resume then localFile.getD [] else []

def DownloadArgs.config (localFile : Option Bytes) : Config where
  chunkSize := args.chunkSize
  resumeFrom := (args.front localFile).length

/-- The result without a digest. -/
def DownloadArgs.result (localFile : Option Bytes) (stats : DownloadStats) : DownloadResult where
  remotePath := path
  bytesTotal := stats.bytesTotal
  chunks := stats.chunks
  resumedFrom := (args.front localFile).length

/-- The digests, behind the download. -/
def compareDigests (downloaded : Bytes) (result : DownloadResult) (later : Volume) :
    Except DownloadFailure DownloadResult :=
  let sha := hexText (sha256 downloaded)
  match ask (fsHash sha256 later) (hashParams path) sched.hash with
  | .error e => .error (.hash e)
  | .ok raw =>
    match hashText raw with
    | none => .error .validation
    | some hash =>
      if lowerText hash ≠ lowerText sha then .error (.mismatch path sha hash)
      else .ok { result with sha256 := some sha }

/-- `fs_download` behind its `fs.stat`. -/
def pull (localFile : Option Bytes) (volume later : Volume) (total : Nat) :
    Option (Bytes × Except DownloadFailure DownloadResult) :=
  let cfg := args.config localFile
  (run (step cfg volume path total) (start cfg total) sched.reads).bind fun s =>
    let downloaded := args.front localFile ++ s.written
    match s.phase with
    | .reading _ => none
    | .raised e => some (downloaded, .error (.download e))
    | .returned stats =>
      let result := args.result path localFile stats
      some (downloaded, if args.verify then compareDigests sha256 path sched downloaded result later
        else .ok result)

/-- `fs_download`, and the local file behind it; `none` if the schedule has too few replies, or too
many.  `later` are the remote files when `fs.hash` is served. -/
def fsDownload (localFile : Option Bytes) (volume later : Volume) :
    Option (Option Bytes × Except DownloadFailure DownloadResult) :=
  match ask (fsStat volume) (pathParams path) sched.stat with
  | .error e => some (localFile, .error (.stat e))
  | .ok raw =>
    match statTotal raw with
    | none => some (localFile, .error .keyError)
    | some total =>
      (pull sha256 args path sched localFile volume later total).map fun (downloaded, outcome) =>
        (some downloaded, outcome)

/-! ## What a download leaves -/

variable {sha256 args path sched}

/-- The size that `fs.stat` tells of a file. -/
theorem statTotal_eq {volume : Volume} {content : Bytes} (hfile : volume (cText path) = some content)
    (hsize : content.length ≤ 2 ^ 53) {raw : Json} {stat : Reply StatDos}
    (h : ask (fsStat volume) (pathParams path) stat = .ok raw) :
    statTotal raw = some content.length := by
  obtain ⟨dos, result, -, hresult, rfl⟩ := ask_ok h
  have hget : (Json.ofCJson result).get "size" = some (.int (double content.length)) := by
    rw [Json.get_ofCJson, fsStat_ok rfl hfile hresult]
    exact congrArg some (Json.ofCJson_number_int _)
  unfold statTotal
  rw [hget, double_of_le hsize]
  rfl

/-- The states of a call that returns. -/
theorem fsDownload_ok {localFile local' : Option Bytes} {volume later : Volume}
    {result : DownloadResult}
    (h : fsDownload sha256 args path sched localFile volume later = some (local', .ok result)) :
    ∃ raw total s stats, ask (fsStat volume) (pathParams path) sched.stat = .ok raw ∧
      statTotal raw = some total ∧
      run (step (args.config localFile) volume path total) (start (args.config localFile) total)
        sched.reads = some s ∧
      s.phase = .returned stats ∧ local' = some (args.front localFile ++ s.written) ∧
      (if args.verify then compareDigests sha256 path sched (args.front localFile ++ s.written)
        (args.result path localFile stats) later
      else .ok (args.result path localFile stats)) = .ok result := by
  unfold fsDownload at h
  split at h
  · cases h
  · rename_i raw hraw
    split at h
    · cases h
    · rename_i total htotal
      obtain ⟨⟨downloaded, outcome⟩, hpull, heq⟩ := Option.map_eq_some_iff.mp h
      unfold pull at hpull
      obtain ⟨s, hrun, hend⟩ := Option.bind_eq_some_iff.mp hpull
      dsimp only at hend
      split at hend
      · cases hend
      · cases hend
        cases heq
      · rename_i stats hphase
        obtain ⟨rfl, rfl⟩ := Prod.mk.inj (Option.some.inj hend)
        obtain ⟨rfl, houtcome⟩ := Prod.mk.inj heq
        exact ⟨raw, total, s, stats, hraw, htotal, hrun, hphase, rfl, houtcome⟩

/-- The reply to a request has bytes, or there is none. -/
def Label.Reads : Label → Prop
  | .fails _ => True
  | .served dos => dos.examines = true ∧ dos.reads ≠ some 0

instance : ∀ a : Label, Decidable a.Reads
  | .fails _ => isTrue trivial
  | .served _ => inferInstanceAs (Decidable (_ ∧ _))

/-- A run whose replies have bytes downloads what is behind the offset. -/
theorem complete_of_reads {cfg : Config} {volume : Volume} {total : Nat} (hchunk : 1 ≤ cfg.chunkSize)
    (hsize : total ≤ 2 ^ 53) (hremote : total ≤ (remote volume path).length) {labels : List Label}
    (hreads : ∀ a ∈ labels, a.Reads) {s : Sys}
    (hrun : run (step cfg volume path total) (start cfg total) labels = some s) :
    s.Complete cfg volume path total := by
  have hstep : ∀ (m : Sys) (a : Label) (m' : Sys),
      m.Steady cfg volume path total ∧ m.Complete cfg volume path total → a.Reads →
      step cfg volume path total m a = some m' →
      m'.Steady cfg volume path total ∧ m'.Complete cfg volume path total := by
    intro m a m' hm ha hstep
    obtain ⟨attempt, hphase, -⟩ := step_cases cfg volume path total hstep
    refine step_fills cfg volume path total hm.1 ?_ hstep
    cases a with
    | fails text => trivial
    | served dos =>
      exact fills_of_reads cfg volume path total hm.1 hphase hchunk hsize hremote ha.1 ha.2
  exact (run_invariant hstep (start_spec cfg volume path total)
    (along_of_forall (fun a ha _ => hreads a ha) _) hrun).2

/-- A download that returns leaves what it has resumed, and the remote file from there on. -/
theorem local_of_reads {localFile local' : Option Bytes} {volume later : Volume} {content : Bytes}
    {result : DownloadResult} (hchunk : 1 ≤ args.chunkSize)
    (hfile : volume (cText path) = some content) (hsize : content.length ≤ 2 ^ 53)
    (hreads : ∀ a ∈ sched.reads, a.Reads)
    (h : fsDownload sha256 args path sched localFile volume later = some (local', .ok result)) :
    local' = some (args.front localFile ++ content.drop (args.front localFile).length) := by
  obtain ⟨raw, total, s, stats, hraw, htotal, hrun, hphase, hlocal, -⟩ := fsDownload_ok h
  obtain rfl : content.length = total :=
    Option.some.inj ((statTotal_eq hfile hsize hraw).symm.trans htotal)
  have hremote : remote volume path = content := by simp [remote, hfile]
  have hwritten := (complete_of_reads hchunk hsize (by rw [hremote]) hreads hrun stats hphase).1
  have hfrom : (args.config localFile).resumeFrom = (args.front localFile).length := rfl
  have hrest : s.written = content.drop (args.front localFile).length := by
    rw [hwritten, hremote, hfrom, piece, ← List.length_drop, List.take_length]
  rw [hlocal, hrest]

/-- A download that returns leaves the remote file, as long as every reply has bytes, exactly if what
it resumes is a beginning of that. -/
theorem download_resumed {localFile local' : Option Bytes} {volume later : Volume}
    {content : Bytes} {result : DownloadResult} (hchunk : 1 ≤ args.chunkSize)
    (hfile : volume (cText path) = some content) (hsize : content.length ≤ 2 ^ 53)
    (hreads : ∀ a ∈ sched.reads, a.Reads)
    (h : fsDownload sha256 args path sched localFile volume later = some (local', .ok result)) :
    local' = some content ↔ args.front localFile <+: content := by
  rw [local_of_reads hchunk hfile hsize hreads h, Option.some.injEq]
  constructor
  · exact fun heq => ⟨_, heq⟩
  · rintro ⟨rest, hrest⟩
    rw [← hrest, List.drop_left]

/-- The first byte is there, and the rest comes in two replies. -/
def resumedSchedule : Schedule where
  stat := .served { name := ascii "x" }
  reads := shortReads
  hash := .served {}

theorem download_resumed_sample : ∃ result,
    fsDownload (fun _ => []) { resume := true } (ascii "RAM:x") resumedSchedule (some [1])
      sampleVolume sampleVolume = some (some [1, 2, 3, 4], .ok result) ∧
    DownloadArgs.front { resume := true } (some [1]) <+: [1, 2, 3, 4] := by
  obtain ⟨result, hrun⟩ : ∃ result, fsDownload (fun _ => []) { resume := true } (ascii "RAM:x")
      resumedSchedule (some [1]) sampleVolume sampleVolume =
        some (some [1, 2, 3, 4], .ok result) := ⟨_, rfl⟩
  have hfile : sampleVolume (cText (ascii "RAM:x")) = some [1, 2, 3, 4] := by decide +kernel
  exact ⟨result, hrun,
    (download_resumed (by decide) hfile (by decide) (by decide) hrun).mp rfl⟩

/-- A verified download that returns leaves a local file with the digest of the remote file that
`fs.hash` has read, whatever was resumed and whatever the replies were. -/
theorem download_verified {localFile local' : Option Bytes} {volume later : Volume}
    {result : DownloadResult} (hverify : args.verify = true)
    (h : fsDownload sha256 args path sched localFile volume later = some (local', .ok result)) :
    ∃ downloaded remote, local' = some downloaded ∧ later (cText path) = some remote ∧
      sha256 downloaded = sha256 remote ∧ result.sha256 = some (hexText (sha256 remote)) := by
  obtain ⟨-, -, s, stats, -, -, -, -, hlocal, houtcome⟩ := fsDownload_ok h
  rw [if_pos hverify] at houtcome
  unfold compareDigests at houtcome
  dsimp only at houtcome
  split at houtcome
  · cases houtcome
  · rename_i raw hraw
    let requests : Upload.Schedule := { stat := sched.stat, hash := sched.hash }
    obtain ⟨remote, hremote, hdigest⟩ := Upload.ask_hash (show
      ask (fsHash sha256 later) (hashParams path) requests.hash = .ok raw from hraw)
    split at houtcome
    · cases houtcome
    · rename_i hash hhash
      split at houtcome
      · cases houtcome
      · rename_i heq
        cases houtcome
        rw [hdigest hash hhash, lower_hexText, lower_hexText, ne_eq, not_not] at heq
        exact ⟨_, remote, hlocal, hremote, (hexText_injective heq).symm, congrArg some heq.symm⟩

def abcVolume : Volume := fun p => if p = ascii "RAM:abc" then some (ascii "abc") else none

def abcSchedule : Schedule where
  stat := .served { name := ascii "abc" }
  reads := [.served { reads := some 9 }]
  hash := .served {}

theorem download_verified_sample : ∃ result, fsDownload Upload.sampleSha { verify := true }
    (ascii "RAM:abc") abcSchedule none abcVolume abcVolume = some (some (ascii "abc"), .ok result) ∧
      ∃ remote, result.sha256 = some (hexText (Upload.sampleSha remote)) := by
  obtain ⟨result, hrun⟩ : ∃ result, fsDownload Upload.sampleSha { verify := true }
      (ascii "RAM:abc") abcSchedule none abcVolume abcVolume =
        some (some (ascii "abc"), .ok result) := ⟨_, rfl⟩
  obtain ⟨-, remote, -, -, -, hsha⟩ := download_verified rfl hrun
  exact ⟨result, hrun, remote, hsha⟩

end AmigaFleet.Host.Download

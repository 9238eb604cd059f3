import Mathlib.Data.List.Induction
import AmigaFleet.Host.UploadRemote
import AmigaFleet.Mcpd.InflateExact

/-!
# What an upload leaves behind

The remote file is built from pieces of the local one.  An execution of the
first chunk truncates the file and writes the first piece; an execution of
any other chunk writes its piece in place and keeps the rest.  So a piece
stays in its place until the next truncation (`Written`), and an upload that
returns normally has executed every chunk (`Covered`).

The upload is exact when no truncation comes after a later chunk, or every
such chunk is executed again after it: `Rewritten`.  Nothing in the code makes
sure of that.

* `late_upload_exact` is the upload under any schedule of abandoned attempts;
  `late_truncation` is a schedule that loses the second of two chunks.
* `upload_exact_iff` is the upload whose attempts are executed before the next
  one is sent, if at all.  There the only failure is an upload without any
  attempt: an empty local file leaves the old remote file alone
  (`empty_upload_keeps_file`).
-/

namespace AmigaFleet.Host.Upload

open AmigaFleet.Lib
open AmigaFleet.Mcpd (cText)
open AmigaFleet.Mcpd.Fs hiding Holds

variable {σ : Type}

/-! ## The file between truncations -/

/-- The offsets that were executed after the last execution of offset 0, the
last one first. -/
def sinceTruncation (log : List Int) : List Int := log.reverse.takeWhile (· ≠ 0)

@[simp] theorem sinceTruncation_zero (log : List Int) : sinceTruncation (log ++ [0]) = [] := by
  simp [sinceTruncation]

theorem sinceTruncation_snoc {o : Int} (ho : o ≠ 0) (log : List Int) :
    sinceTruncation (log ++ [o]) = o :: sinceTruncation log := by
  simp [sinceTruncation, ho]

/-- Once the first chunk has been executed, the file holds the first piece
and the pieces that were executed since. -/
def Written (content : Bytes) (n : Nat) (file : Option Bytes) (log : List Int) : Prop :=
  0 ∈ log → ∃ f, file = some f ∧ f.length ≤ content.length ∧ Holds content f 0 n ∧
    ∀ p : Nat, (p : Int) ∈ sinceTruncation log → Holds content f p n

theorem written_truncate (content : Bytes) (n : Nat) (log : List Int) :
    Written content n (some (piece content 0 n)) (log ++ [0]) := by
  intro _
  have hself := holds_patch_self 0 content [] 0 n
  rw [patch_nil] at hself
  refine ⟨_, rfl, ?_, hself, ?_⟩
  · rw [length_piece]
    omega
  · intro p hp
    rw [sinceTruncation_zero] at hp
    cases hp

theorem Written.patch {content : Bytes} {n : Nat} {file : Option Bytes} {log : List Int}
    (h : Written content n file log) {pos : Nat} (hpos : pos ≠ 0) (hlt : pos < content.length) :
    Written content n (some (patch 0 (file.getD []) pos (piece content pos n)))
      (log ++ [(pos : Int)]) := by
  intro hmem
  have hne : (pos : Int) ≠ 0 := by omega
  have hzero : 0 ∈ log := by
    rcases List.mem_append.mp hmem with hmem | hmem
    · exact hmem
    · exact absurd (List.mem_singleton.mp hmem).symm hne
  obtain ⟨f, rfl, hlen, hfirst, hsince⟩ := h hzero
  have hseg := length_piece content pos n
  refine ⟨_, rfl, ?_, hfirst.patch 0 pos n, ?_⟩
  · rw [Option.getD_some, length_patch]
    omega
  · intro p hp
    rw [sinceTruncation_snoc hne] at hp
    rcases List.mem_cons.mp hp with heq | hp
    · rw [Int.natCast_inj.mp heq]
      exact holds_patch_self 0 content f pos n
    · exact (hsince p hp).patch 0 pos n

/-! ## The target during an upload -/

section Run

variable (zlib : Bytes → Bytes) (pick : Int → Bytes → Mode) (cfg : Config) (path content : Bytes)

/-- The invariant of the target: every request that waits is a chunk of this
upload, and the file holds what was executed. -/
structure Sound (w : Remote) : Prop where
  script : ∀ a ∈ w.script, a.Whole
  waiting : ∀ r ∈ w.waiting, r.1 < w.sent ∧
    ∃ pos, pos < content.length ∧ r.2 = callAt zlib pick cfg path content pos
  log : ∀ d ∈ w.log, d.attempt < w.sent ∧ 0 ≤ d.offset
  written : Written content cfg.chunkSize.toNat (w.volume (cText path)) (w.log.map Done.offset)

/-- What belongs to attempt `k` is this call. -/
structure Own (k : Nat) (call : ChunkCall) (w : Remote) : Prop where
  waiting : ∀ r ∈ w.waiting, r.1 = k → r.2 = call
  log : ∀ d ∈ w.log, d.attempt = k → d.offset = call.offset

variable {zlib pick cfg path content}

theorem Remote.execute_cases (iz : Option (ZIFace σ)) (w : Remote) (run : Nat × WriteDos) :
    w.execute iz run = w ∨ ∃ r ∈ w.waiting, r.1 = run.1 ∧ ∃ result,
      fsWriteChunk iz run.2 w.volume (some r.2.params.toCJson) = result ∧
      w.execute iz run =
        { w with
          volume := result.1
          waiting := w.waiting.eraseP fun q => q.1 = run.1
          log := if result.2.isOk then w.log ++ [⟨r.1, r.2.offset⟩] else w.log } := by
  unfold Remote.execute
  cases hfind : w.waiting.find? fun r => r.1 = run.1 with
  | none => exact Or.inl rfl
  | some r =>
    have hnum : r.1 = run.1 := by simpa using List.find?_some hfind
    exact Or.inr ⟨r, List.mem_of_find?_eq_some hfind, hnum, _, rfl, rfl⟩

theorem piece_ne_nil {n pos : Nat} (hn : 0 < n) (hpos : pos < content.length) :
    piece content pos n ≠ [] := by
  have hlen := length_piece content pos n
  apply List.length_pos_iff.mp
  omega

/-- One step of a worker keeps the invariant. -/
theorem Sound.execute {iz : Option (ZIFace σ)} (hz : ∀ z ∈ iz, z.Inverts zlib)
    (hchunk : 1 ≤ cfg.chunkSize) (hsize : content.length ≤ 2 ^ 53) {w : Remote}
    (h : Sound zlib pick cfg path content w) {run : Nat × WriteDos} (hdos : run.2.Whole) :
    Sound zlib pick cfg path content (w.execute iz run) := by
  rcases w.execute_cases iz run with heq | ⟨r, hr, hnum, result, hresult, heq⟩
  · rw [heq]
    exact h
  · obtain ⟨hsent, pos, hpos, hcall⟩ := h.waiting r hr
    rw [hcall] at hresult
    rw [heq]
    have hwaiting : ∀ q ∈ w.waiting.eraseP fun q => q.1 = run.1, q.1 < w.sent ∧
        ∃ pos, pos < content.length ∧ q.2 = callAt zlib pick cfg path content pos :=
      fun q hq => h.waiting q (List.mem_of_mem_eraseP hq)
    rcases execute_chunk hz pick cfg path content hsize (piece_ne_nil (by omega) hpos) hdos
      w.volume hresult with ⟨hvol, hfail⟩ | ⟨hvol, hok⟩
    · rw [hvol, hfail]
      exact ⟨h.script, hwaiting, h.log, h.written⟩
    · rw [hvol, hok, hcall]
      refine ⟨h.script, hwaiting, ?_, ?_⟩
      · intro d hd
        rcases List.mem_append.mp hd with hd | hd
        · exact h.log d hd
        · rw [List.mem_singleton.mp hd]
          exact ⟨hsent, Int.natCast_nonneg pos⟩
      · show Written content cfg.chunkSize.toNat (Function.update w.volume (cText path) _ _)
          ((w.log ++ [Done.mk r.1 pos]).map Done.offset)
        rw [Function.update_self, List.map_append, List.map_singleton]
        by_cases hzero : pos = 0
        · subst hzero
          rw [if_pos rfl, patch_nil]
          exact written_truncate content _ _
        · rw [if_neg hzero]
          exact h.written.patch hzero hpos

theorem Own.execute {iz : Option (ZIFace σ)} {k : Nat} {call : ChunkCall} {w : Remote}
    (h : Own k call w) (run : Nat × WriteDos) : Own k call (w.execute iz run) := by
  rcases w.execute_cases iz run with heq | ⟨r, hr, hnum, result, hresult, heq⟩
  · rw [heq]
    exact h
  · rw [heq]
    refine ⟨fun q hq => h.waiting q (List.mem_of_mem_eraseP hq), ?_⟩
    intro d hd hk
    dsimp only at hd
    split at hd
    · rcases List.mem_append.mp hd with hd | hd
      · exact h.log d hd hk
      · rw [List.mem_singleton.mp hd] at hk ⊢
        rw [h.waiting r hr hk]
    · exact h.log d hd hk

/-- A worker adds to the log and leaves the rest of the schedule alone. -/
theorem Remote.execute_log (iz : Option (ZIFace σ)) (w : Remote) (run : Nat × WriteDos) :
    w.log <+: (w.execute iz run).log ∧ (w.execute iz run).sent = w.sent ∧
      (w.execute iz run).script = w.script := by
  rcases w.execute_cases iz run with heq | ⟨r, hr, hnum, result, hresult, heq⟩
  · rw [heq]
    exact ⟨List.prefix_rfl, rfl, rfl⟩
  · rw [heq]
    refine ⟨?_, rfl, rfl⟩
    dsimp only
    split
    · exact List.prefix_append ..
    · exact List.prefix_rfl

/-! ## One attempt -/

theorem Sound.deliver {w : Remote} (h : Sound zlib pick cfg path content w) {pos : Nat}
    (hpos : pos < content.length) :
    Sound zlib pick cfg path content (w.deliver (callAt zlib pick cfg path content pos)) := by
  refine ⟨fun a ha => h.script a (List.mem_of_mem_tail ha), ?_, ?_, h.written⟩
  · intro r hr
    rcases List.mem_append.mp hr with hr | hr
    · obtain ⟨hlt, hcall⟩ := h.waiting r hr
      exact ⟨Nat.lt_succ_of_lt hlt, hcall⟩
    · rw [List.eq_of_mem_replicate hr]
      exact ⟨Nat.lt_succ_self _, pos, hpos, rfl⟩
  · intro d hd
    obtain ⟨hlt, hoff⟩ := h.log d hd
    exact ⟨Nat.lt_succ_of_lt hlt, hoff⟩

theorem Sound.own {w : Remote} (h : Sound zlib pick cfg path content w) (call : ChunkCall) :
    Own w.sent call (w.deliver call) := by
  constructor
  · intro r hr hk
    rcases List.mem_append.mp hr with hr | hr
    · have hlt := (h.waiting r hr).1
      omega
    · rw [List.eq_of_mem_replicate hr]
  · intro d hd hk
    have hlt := (h.log d hd).1
    omega

/-- The executions of one attempt. -/
theorem Sound.runs {iz : Option (ZIFace σ)} (hz : ∀ z ∈ iz, z.Inverts zlib)
    (hchunk : 1 ≤ cfg.chunkSize) (hsize : content.length ≤ 2 ^ 53) {k : Nat} {call : ChunkCall}
    {runs : List (Nat × WriteDos)} (hruns : ∀ r ∈ runs, r.2.Whole) {w : Remote}
    (h : Sound zlib pick cfg path content w) (hown : Own k call w) :
    Sound zlib pick cfg path content (runs.foldl (Remote.execute iz) w) ∧
      Own k call (runs.foldl (Remote.execute iz) w) ∧
      w.log <+: (runs.foldl (Remote.execute iz) w).log := by
  induction runs generalizing w with
  | nil => exact ⟨h, hown, List.prefix_rfl⟩
  | cons run runs ih =>
    have hstep := h.execute hz hchunk hsize (hruns run (List.mem_cons_self ..))
    obtain ⟨hs, ho, hlog⟩ := ih (fun r hr => hruns r (List.mem_cons_of_mem _ hr)) hstep
      (hown.execute run)
    exact ⟨hs, ho, (w.execute_log iz run).1.trans hlog⟩

theorem whole_headD {script : List Attempt} (h : ∀ a ∈ script, a.Whole) :
    (script.headD {}).Whole := by
  cases script with
  | nil => exact fun r hr => nomatch hr
  | cons a script => exact h a (List.mem_cons_self ..)

/-- One attempt at the chunk at `pos`.  When the call returns, the chunk has
been executed. -/
theorem Sound.send {iz : Option (ZIFace σ)} (hz : ∀ z ∈ iz, z.Inverts zlib)
    (hchunk : 1 ≤ cfg.chunkSize) (hsize : content.length ≤ 2 ^ 53) {w : Remote}
    (h : Sound zlib pick cfg path content w) {pos : Nat} (hpos : pos < content.length) :
    Sound zlib pick cfg path content (w.send iz (callAt zlib pick cfg path content pos)).1 ∧
      w.log <+: (w.send iz (callAt zlib pick cfg path content pos)).1.log ∧
      ((w.send iz (callAt zlib pick cfg path content pos)).2 = none →
        (pos : Int) ∈
          (w.send iz (callAt zlib pick cfg path content pos)).1.log.map Done.offset) := by
  obtain ⟨hs, ho, hlog⟩ := (h.deliver hpos).runs hz hchunk hsize (whole_headD h.script)
    (h.own (callAt zlib pick cfg path content pos))
  refine ⟨hs, hlog, ?_⟩
  intro hnone
  unfold Remote.send at hnone
  dsimp only at hnone
  split at hnone
  · rename_i hok
    obtain ⟨d, hd, hk⟩ := List.any_eq_true.mp hok.2
    have hoff := ho.log d hd (of_decide_eq_true hk)
    exact List.mem_map.mpr ⟨d, hd, hoff⟩
  · cases hnone

/-! ## The whole upload -/

/-- Up to `pos`, the file has been executed chunk by chunk. -/
def Covered (n pos : Nat) (w : Remote) : Prop :=
  ∀ i, i < pos → ∃ p : Nat, (p : Int) ∈ w.log.map Done.offset ∧ p ≤ i ∧ i < p + n

theorem Covered.log {n pos : Nat} {w w' : Remote} (h : Covered n pos w)
    (hlog : w.log <+: w'.log) : Covered n pos w' := by
  intro i hi
  obtain ⟨p, hp, hle, hlt⟩ := h i hi
  obtain ⟨d, hd, hoff⟩ := List.mem_map.mp hp
  exact ⟨p, List.mem_map.mpr ⟨d, hlog.subset hd, hoff⟩, hle, hlt⟩

/-- The chunk at `pos` covers the next piece. -/
theorem Covered.next {n pos : Nat} {w : Remote} (h : Covered n pos w)
    (hdone : (pos : Int) ∈ w.log.map Done.offset) (len : Nat) :
    Covered n (min (pos + n) len) w := by
  intro i hi
  rcases Nat.lt_or_ge i pos with hbefore | hge
  · exact h i hbefore
  · exact ⟨pos, hdone, hge, by omega⟩

/-- Every chunk that was executed is the first one, or was executed since the
last truncation. -/
def Rewritten (log : List Int) : Prop := ∀ o ∈ log, o = 0 ∨ o ∈ sinceTruncation log

instance (log : List Int) : Decidable (Rewritten log) := inferInstanceAs (Decidable (∀ _ ∈ _, _))

/-- A target that has executed every chunk, and no truncation too late, holds
the file. -/
theorem Sound.exact {w : Remote} (h : Sound zlib pick cfg path content w) (hne : content ≠ [])
    (hcov : Covered cfg.chunkSize.toNat content.length w)
    (hre : Rewritten (w.log.map Done.offset)) : w.volume (cText path) = some content := by
  have hzero : (0 : Int) ∈ w.log.map Done.offset := by
    obtain ⟨p, hp, hle, _⟩ := hcov 0 (List.length_pos_iff.mpr hne)
    rw [Nat.le_zero.mp hle] at hp
    exact hp
  obtain ⟨f, hf, hlen, hfirst, hsince⟩ := h.written hzero
  rw [hf, eq_of_holds hlen]
  intro i hi
  obtain ⟨p, hp, hle, hlt⟩ := hcov i hi
  refine ⟨p, cfg.chunkSize.toNat, hle, hlt, ?_⟩
  rcases hre p hp with hp0 | hp
  · rw [show p = 0 by omega]
    exact hfirst
  · exact hsince p hp

/-- The attempts at one chunk. -/
theorem attempts_sound {iz : Option (ZIFace σ)} (hz : ∀ z ∈ iz, z.Inverts zlib)
    (hchunk : 1 ≤ cfg.chunkSize) (hretries : 0 ≤ cfg.retries) (hsize : content.length ≤ 2 ^ 53)
    {pos : Nat} (hpos : pos < content.length) {w w' : Remote}
    (h : Sound zlib pick cfg path content w ∧ Covered cfg.chunkSize.toNat pos w)
    (hatt : attempts (Remote.send iz) (callAt zlib pick cfg path content pos) cfg.attemptCount none
      w = (w', none)) :
    Sound zlib pick cfg path content w' ∧
      Covered cfg.chunkSize.toNat (min (pos + cfg.chunkSize.toNat) content.length) w' := by
  have hcount : 0 < cfg.attemptCount := by
    unfold Config.attemptCount
    omega
  obtain ⟨hP, hQ⟩ := attempts_rule
    (P := fun w => Sound zlib pick cfg path content w ∧ Covered cfg.chunkSize.toNat pos w)
    (Q := fun w => (pos : Int) ∈ w.log.map Done.offset)
    (fun w hw => by
      obtain ⟨hs, hlog, _⟩ := hw.1.send hz hchunk hsize hpos
      exact ⟨hs, hw.2.log hlog⟩)
    (fun w hw hnone => (hw.1.send hz hchunk hsize hpos).2.2 hnone)
    cfg.attemptCount none h
  rw [hatt] at hP hQ
  exact ⟨hP.1, hP.2.next (hQ hcount rfl) content.length⟩

/-- The upload of a local file to a target with this schedule. -/
def uploadTo (iz : Option (ZIFace σ)) (zlib : Bytes → Bytes) (pick : Int → Bytes → Mode)
    (cfg : Config) (content path : Bytes) (volume : Volume) (script : List Attempt) :
    Remote × Except UploadError UploadStats :=
  chunkedUploadWith (Remote.send iz) zlib pick cfg "local" (some content) path
    { volume := volume, script := script }

theorem sound_init (volume : Volume) {script : List Attempt} (hscript : ∀ a ∈ script, a.Whole) :
    Sound zlib pick cfg path content { volume := volume, script := script } := by
  refine ⟨hscript, ?_, ?_, ?_⟩
  · intro r hr
    cases hr
  · intro d hd
    cases hd
  · intro hzero
    cases hzero

/-- An upload from the start is the loop from position 0. -/
theorem uploadTo_eq (iz : Option (ZIFace σ)) (hresume : cfg.resumeFrom = 0) (volume : Volume)
    (script : List Attempt) :
    uploadTo iz zlib pick cfg content path volume script =
      uploadLoop (Remote.send iz) zlib pick cfg path content.length content.length
        (content.drop 0) (0 : Nat) ((0 : Nat) = 0) { path := path, bytesTotal := content.length }
        { volume := volume, script := script } :=
  chunkedUploadWith_eq (Remote.send iz) zlib pick hresume "local" content path _

/-- After an upload that returns normally every chunk has been executed. -/
theorem sound_uploadTo {iz : Option (ZIFace σ)} (hz : ∀ z ∈ iz, z.Inverts zlib)
    (hchunk : 1 ≤ cfg.chunkSize) (hretries : 0 ≤ cfg.retries) (hresume : cfg.resumeFrom = 0)
    (hsize : content.length ≤ 2 ^ 53) {volume : Volume} {script : List Attempt}
    (hscript : ∀ a ∈ script, a.Whole)
    (hok : (uploadTo iz zlib pick cfg content path volume script).2.isOk = true) :
    Sound zlib pick cfg path content (uploadTo iz zlib pick cfg content path volume script).1 ∧
      Covered cfg.chunkSize.toNat content.length
        (uploadTo iz zlib pick cfg content path volume script).1 := by
  have hrun := uploadLoop_rule (Remote.send iz) zlib pick path
    (I := fun pos w => Sound zlib pick cfg path content w ∧ Covered cfg.chunkSize.toNat pos w)
    (J := fun _ => True) hchunk
    (fun pos w w' hpos hI hatt => attempts_sound hz hchunk hretries hsize hpos hI hatt)
    (fun _ _ _ _ _ _ _ => trivial) content.length 0
    { path := path, bytesTotal := content.length } (Nat.le_of_eq (Nat.zero_add _).symm)
    (Nat.zero_le _) ⟨sound_init volume hscript, fun i hi => absurd hi (Nat.not_lt_zero i)⟩
  rw [← uploadTo_eq iz hresume volume script] at hrun
  rcases hup : uploadTo iz zlib pick cfg content path volume script with ⟨w, _ | stats⟩
  · rw [hup] at hok
    cases hok
  · rw [hup] at hrun
    exact hrun

/-- Attempts that the host has given up on may be executed at any moment.  The
upload is exact when every later chunk is executed since the last
truncation. -/
theorem late_upload_exact (iz : Option (ZIFace σ)) (zlib : Bytes → Bytes)
    (hz : ∀ z ∈ iz, z.Inverts zlib) (pick : Int → Bytes → Mode) (cfg : Config)
    (hchunk : 1 ≤ cfg.chunkSize) (hretries : 0 ≤ cfg.retries) (hresume : cfg.resumeFrom = 0)
    (content path : Bytes) (hne : content ≠ []) (hsize : content.length ≤ 2 ^ 53)
    (volume : Volume) (script : List Attempt) (hscript : ∀ a ∈ script, a.Whole)
    (hre : Rewritten
      ((uploadTo iz zlib pick cfg content path volume script).1.log.map Done.offset))
    (hok : (uploadTo iz zlib pick cfg content path volume script).2.isOk = true) :
    (uploadTo iz zlib pick cfg content path volume script).1.volume (cText path) =
      some content := by
  obtain ⟨hsound, hcov⟩ := sound_uploadTo hz hchunk hretries hresume hsize hscript hok
  exact hsound.exact hne hcov hre

end Run

/-- Two chunks of one byte.  The first attempt at chunk 0 times out; its worker
runs it after chunk 1 has been written and before the upload returns. -/
def lateSchedule : List Attempt :=
  [{ copies := 1 }, { copies := 1, runs := [(1, {})], answered := true },
    { copies := 1, runs := [(2, {}), (0, {})], answered := true }]

/-- The late execution of chunk 0 empties the file, and the upload returns
with only the first byte on the target. -/
theorem late_truncation : ∃ script : List Attempt, (∀ a ∈ script, a.Whole) ∧
    (uploadTo (none : Option (ZIFace Unit)) id (fun _ _ => .none) { chunkSize := 1 } [1, 2] [82]
      (fun _ => none) script).2.isOk = true ∧
    (uploadTo (none : Option (ZIFace Unit)) id (fun _ _ => .none) { chunkSize := 1 } [1, 2] [82]
      (fun _ => none) script).1.volume [82] = some [1] :=
  ⟨lateSchedule, by decide, by decide +kernel, by decide +kernel⟩

/-- The first chunk is sent as its zlib stream, the others as they are. -/
def zlibFirst (offset : Int) (_ : Bytes) : Mode := if offset = 0 then .zlib else .none

theorem some_inverts : ∀ z ∈ some sampleInflate, z.Inverts sampleZlib := by
  intro z hz
  cases hz
  exact sampleInflate_inverts

/-- The same late execution before chunk 1 is written does no harm. -/
theorem late_upload_exact_sample :
    (uploadTo (some sampleInflate) sampleZlib zlibFirst { chunkSize := 1 } [0x61, 2] [82]
      (fun _ => none) [{ copies := 1 }, { copies := 1, runs := [(1, {}), (0, {})], answered := true },
        { copies := 1, runs := [(2, {})], answered := true }]).1.volume (cText [82]) =
      some [0x61, 2] :=
  late_upload_exact (some sampleInflate) sampleZlib some_inverts zlibFirst { chunkSize := 1 } (by decide)
    (by decide) rfl [0x61, 2] [82] (by decide) (by decide) (fun _ => none) _ (by decide)
    (by decide +kernel) (by decide +kernel)

/-! ## Attempts one at a time -/

/-- Attempt number `k` and those after it execute only their own requests. -/
def Sequential : Nat → List Attempt → Prop
  | _, [] => True
  | k, a :: script => (∀ r ∈ a.runs, r.1 = k) ∧ Sequential (k + 1) script

instance Sequential.decidable : ∀ (k : Nat) (script : List Attempt), Decidable (Sequential k script)
  | _, [] => isTrue trivial
  | k, _ :: script =>
    have : Decidable (Sequential (k + 1) script) := Sequential.decidable (k + 1) script
    inferInstanceAs (Decidable (_ ∧ _))

/-- The executions follow the file up to `pos`. -/
def Ordered (pos : Nat) (log : List Int) : Prop :=
  log.Pairwise (· ≤ ·) ∧ ∀ o ∈ log, 0 ≤ o ∧ o ≤ pos

theorem Ordered.snoc {pos : Nat} {log : List Int} (h : Ordered pos log) :
    Ordered pos (log ++ [(pos : Int)]) := by
  refine ⟨List.pairwise_append.mpr ⟨h.1, List.pairwise_singleton _ _, ?_⟩, ?_⟩
  · intro o ho p hp
    rw [List.mem_singleton.mp hp]
    exact (h.2 o ho).2
  · intro o ho
    rcases List.mem_append.mp ho with ho | ho
    · exact h.2 o ho
    · rw [List.mem_singleton.mp ho]
      omega

theorem Ordered.mono {pos pos' : Nat} {log : List Int} (h : Ordered pos log) (hle : pos ≤ pos') :
    Ordered pos' log := by
  refine ⟨h.1, fun o ho => ?_⟩
  have hbound := h.2 o ho
  omega

/-- In the order of the file, no truncation comes after a later chunk. -/
theorem Ordered.rewritten {pos : Nat} {log : List Int} (h : Ordered pos log) : Rewritten log := by
  induction log using List.reverseRecOn with
  | nil => exact fun o ho => nomatch ho
  | append_singleton log last ih =>
    obtain ⟨hsorted, hbound⟩ := h
    obtain ⟨hsorted, _, hlast⟩ := List.pairwise_append.mp hsorted
    have hlog : Ordered pos log := ⟨hsorted, fun o ho => hbound o (List.mem_append_left _ ho)⟩
    intro o ho
    by_cases hzero : last = 0
    · -- a truncation: everything before it is at offset 0 as well
      left
      rcases List.mem_append.mp ho with ho | ho
      · have hle := hlast o ho last (List.mem_singleton_self _)
        have hge := (hlog.2 o ho).1
        omega
      · rw [List.mem_singleton.mp ho, hzero]
    · rw [sinceTruncation_snoc hzero]
      rcases List.mem_append.mp ho with ho | ho
      · rcases ih hlog o ho with h0 | hsince
        · exact Or.inl h0
        · exact Or.inr (List.mem_cons_of_mem _ hsince)
      · rw [List.mem_singleton.mp ho]
        exact Or.inr (List.mem_cons_self ..)

section Sequential

variable {zlib : Bytes → Bytes} {pick : Int → Bytes → Mode} {cfg : Config} {path content : Bytes}

/-- An attempt that executes only its own request adds only its own offset. -/
theorem Own.ordered (iz : Option (ZIFace σ)) {k pos : Nat} {call : ChunkCall}
    (hcall : call.offset = pos) {runs : List (Nat × WriteDos)} (hruns : ∀ r ∈ runs, r.1 = k)
    {w : Remote} (hown : Own k call w) (h : Ordered pos (w.log.map Done.offset)) :
    Ordered pos ((runs.foldl (Remote.execute iz) w).log.map Done.offset) ∧
      (runs.foldl (Remote.execute iz) w).sent = w.sent ∧
      (runs.foldl (Remote.execute iz) w).script = w.script := by
  induction runs generalizing w with
  | nil => exact ⟨h, rfl, rfl⟩
  | cons run runs ih =>
    have hstep : Ordered pos ((w.execute iz run).log.map Done.offset) := by
      rcases w.execute_cases iz run with heq | ⟨r, hr, hnum, result, _, heq⟩
      · rw [heq]
        exact h
      · have hoff : r.2.offset = pos := by
          rw [hown.waiting r hr (hnum.trans (hruns run (List.mem_cons_self ..)))]
          exact hcall
        rw [heq]
        dsimp only
        split
        · rw [List.map_append, List.map_singleton, hoff]
          exact h.snoc
        · exact h
    obtain ⟨ho, hsent, hscript⟩ := ih (fun r hr => hruns r (List.mem_cons_of_mem _ hr))
      (hown.execute run) hstep
    obtain ⟨_, hsent', hscript'⟩ := w.execute_log iz run
    exact ⟨ho, hsent.trans hsent', hscript.trans hscript'⟩

/-- What an upload without late executions keeps besides `Sound`. -/
structure InOrder (pos : Nat) (w : Remote) : Prop where
  script : Sequential w.sent w.script
  log : Ordered pos (w.log.map Done.offset)

theorem InOrder.send {iz : Option (ZIFace σ)} {w : Remote} (h : Sound zlib pick cfg path content w)
    {pos : Nat} (ho : InOrder pos w) :
    InOrder pos (w.send iz (callAt zlib pick cfg path content pos)).1 := by
  have hseq := ho.script
  have hhead : (∀ r ∈ (w.script.headD {}).runs, r.1 = w.sent) ∧
      Sequential (w.sent + 1) w.script.tail := by
    cases hscript : w.script with
    | nil => exact ⟨fun r hr => (nomatch hr), trivial⟩
    | cons a script =>
      rw [hscript] at hseq
      exact hseq
  obtain ⟨hlog, hsent, hscript⟩ := (h.own (callAt zlib pick cfg path content pos)).ordered iz rfl
    hhead.1 ho.log
  refine ⟨?_, hlog⟩
  unfold Remote.send
  dsimp only
  rw [hsent, hscript]
  exact hhead.2

theorem inOrder_uploadTo {iz : Option (ZIFace σ)} (hz : ∀ z ∈ iz, z.Inverts zlib)
    (hchunk : 1 ≤ cfg.chunkSize) (hresume : cfg.resumeFrom = 0) (hsize : content.length ≤ 2 ^ 53)
    {volume : Volume} {script : List Attempt} (hscript : ∀ a ∈ script, a.Whole)
    (hseq : Sequential 0 script)
    (hok : (uploadTo iz zlib pick cfg content path volume script).2.isOk = true) :
    InOrder content.length (uploadTo iz zlib pick cfg content path volume script).1 := by
  have hrun := uploadLoop_rule (Remote.send iz) zlib pick path
    (I := fun pos w => Sound zlib pick cfg path content w ∧ InOrder pos w)
    (J := fun _ => True) hchunk
    (fun pos w w' hpos hI hatt => by
      obtain ⟨⟨hs, ho⟩, _⟩ := attempts_rule (Q := fun _ => True)
        (P := fun w => Sound zlib pick cfg path content w ∧ InOrder pos w)
        (fun w hw => ⟨(hw.1.send hz hchunk hsize hpos).1, InOrder.send hw.1 hw.2⟩)
        (fun _ _ _ => trivial) cfg.attemptCount none hI
      rw [hatt] at hs ho
      exact ⟨hs, ho.script, ho.log.mono (by omega)⟩)
    (fun _ _ _ _ _ _ _ => trivial) content.length 0
    { path := path, bytesTotal := content.length } (Nat.le_of_eq (Nat.zero_add _).symm)
    (Nat.zero_le _)
    ⟨sound_init volume hscript, hseq, List.Pairwise.nil, fun o ho => nomatch ho⟩
  rw [← uploadTo_eq iz hresume volume script] at hrun
  rcases hup : uploadTo iz zlib pick cfg content path volume script with ⟨w, _ | stats⟩
  · rw [hup] at hok
    cases hok
  · rw [hup] at hrun
    exact hrun.2

/-- An empty file is uploaded without any call, and so is every file when
`retries` allows no attempt. -/
theorem uploadTo_idle (zlib : Bytes → Bytes) (pick : Int → Bytes → Mode) (path : Bytes)
    (iz : Option (ZIFace σ)) (hchunk : 1 ≤ cfg.chunkSize)
    (hresume : cfg.resumeFrom = 0) (hidle : content = [] ∨ cfg.retries < 0) (volume : Volume)
    (script : List Attempt) :
    (uploadTo iz zlib pick cfg content path volume script).2.isOk = true ∧
      (uploadTo iz zlib pick cfg content path volume script).1 =
        { volume := volume, script := script } := by
  have hnone : ∀ pos (w : Remote), pos < content.length →
      attempts (Remote.send iz) (callAt zlib pick cfg path content pos) cfg.attemptCount none w =
        (w, none) := by
    intro pos w hpos
    have hretries : cfg.retries < 0 := by
      rcases hidle with rfl | hretries
      · exact absurd hpos (Nat.not_lt_zero pos)
      · exact hretries
    have hcount : cfg.attemptCount = 0 := by
      unfold Config.attemptCount
      omega
    rw [hcount]
    rfl
  have hrun := uploadLoop_rule (Remote.send iz) zlib pick path
    (I := fun _ (w : Remote) => w = { volume := volume, script := script }) (J := fun _ => False)
    hchunk
    (fun pos w w' hpos hI hatt => by
      rw [hnone pos w hpos] at hatt
      cases hatt
      exact hI)
    (fun pos w w' e hpos hI hatt => by
      rw [hnone pos w hpos] at hatt
      cases hatt)
    content.length 0 { path := path, bytesTotal := content.length }
    (Nat.le_of_eq (Nat.zero_add _).symm) (Nat.zero_le _) rfl
  rw [← uploadTo_eq iz hresume volume script] at hrun
  rcases hup : uploadTo iz zlib pick cfg content path volume script with ⟨w, _ | stats⟩
  · rw [hup] at hrun
    exact hrun.elim
  · rw [hup] at hrun
    exact ⟨rfl, hrun⟩

end Sequential

/-- When every attempt is executed before the next one is sent, or not at all,
an upload that returns normally leaves the local file on the target, unless it
made no attempt at all. -/
theorem upload_exact_iff (iz : Option (ZIFace σ)) (zlib : Bytes → Bytes)
    (hz : ∀ z ∈ iz, z.Inverts zlib) (pick : Int → Bytes → Mode) (cfg : Config)
    (hchunk : 1 ≤ cfg.chunkSize) (hresume : cfg.resumeFrom = 0) (content path : Bytes)
    (hsize : content.length ≤ 2 ^ 53) (volume : Volume) (script : List Attempt)
    (hscript : ∀ a ∈ script, a.Whole) (hseq : Sequential 0 script) :
    ((uploadTo iz zlib pick cfg content path volume script).2.isOk = true →
      (uploadTo iz zlib pick cfg content path volume script).1.volume (cText path) =
        some content) ↔
      (content ≠ [] ∧ 0 ≤ cfg.retries) ∨ volume (cText path) = some content := by
  by_cases hidle : content = [] ∨ cfg.retries < 0
  · obtain ⟨hok, hworld⟩ := uploadTo_idle zlib pick path iz hchunk hresume hidle volume script
    rw [hworld]
    constructor
    · exact fun h => Or.inr (h hok)
    · rintro (⟨hne, hretries⟩ | hsame) _
      · rcases hidle with hnil | hneg
        · exact absurd hnil hne
        · omega
      · exact hsame
  · obtain ⟨hne, hretries⟩ := not_or.mp hidle
    have hretries : 0 ≤ cfg.retries := by omega
    constructor
    · exact fun _ => Or.inl ⟨hne, hretries⟩
    · intro _ hok
      obtain ⟨hsound, hcov⟩ := sound_uploadTo hz hchunk hretries hresume hsize hscript hok
      exact hsound.exact hne hcov
        (inOrder_uploadTo hz hchunk hresume hsize hscript hseq hok).log.rewritten

/-- An attempt that is lost, one whose reply is lost, and one that succeeds,
over an old file that is longer; then the second chunk. -/
theorem upload_exact_iff_sample :
    (uploadTo (some sampleInflate) sampleZlib zlibFirst { chunkSize := 1 } [0x61, 2] [82]
      (fun _ => some [9, 9, 9])
      [{}, { copies := 1, runs := [(1, {})] }, { copies := 1, runs := [(2, {})], answered := true },
        { copies := 1, runs := [(3, {})], answered := true }]).1.volume (cText [82]) =
      some [0x61, 2] :=
  (upload_exact_iff (some sampleInflate) sampleZlib some_inverts zlibFirst { chunkSize := 1 }
    (by decide) rfl [0x61, 2] [82] (by decide) (fun _ => some [9, 9, 9])
    [{}, { copies := 1, runs := [(1, {})] }, { copies := 1, runs := [(2, {})], answered := true },
      { copies := 1, runs := [(3, {})], answered := true }]
    (by decide) (by decide)).mpr (Or.inl (by decide)) (by decide +kernel)

/-- An empty local file is reported as uploaded, and the old remote file is
still there. -/
theorem empty_upload_keeps_file :
    (uploadTo (none : Option (ZIFace Unit)) id (fun _ _ => .none) {} [] [82]
      (fun _ => some [9]) []).2.isOk = true ∧
    (uploadTo (none : Option (ZIFace Unit)) id (fun _ _ => .none) {} [] [82]
      (fun _ => some [9]) []).1.volume (cText [82]) = some [9] :=
  ⟨rfl, rfl⟩

end AmigaFleet.Host.Upload

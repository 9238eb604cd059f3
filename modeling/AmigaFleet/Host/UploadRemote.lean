import Mathlib.Data.List.TakeWhile
import AmigaFleet.Host.Upload
import AmigaFleet.Mcpd.Fs

/-!
# Uploading to a daemon

The daemon runs one worker for each connection, so a request that the host
has given up on can be executed by its old worker at any later moment.
`Remote` is the target together with the schedule of the attempts: which
requests arrive, when each worker runs the one it holds, and which replies
reach the host.

`execute_chunk` says what one complete execution of a chunk leaves behind, and
`Remote.execute_cases` what one step of the schedule can do.
-/

namespace AmigaFleet.Host.Upload

open AmigaFleet.Lib
open AmigaFleet.Mcpd (ascii cText CJson pStr pInt)
open AmigaFleet.Mcpd.Fs

variable {σ : Type}

/-! ## What the daemon reads of a chunk -/

theorem params_path (c : ChunkCall) :
    c.params.toCJson.getItem (ascii "path") = some (.string (cText c.path)) := rfl

theorem params_offset (c : ChunkCall) :
    c.params.toCJson.getItem (ascii "offset") = some (.number (double c.offset)) := rfl

theorem params_compression (c : ChunkCall) :
    c.params.toCJson.getItem (ascii "compression") =
      if c.compression = .zlib then some (.string (ascii "zlib")) else none := by
  obtain ⟨path, offset, content, compression, rawSize, truncate, totalSize⟩ := c
  cases compression <;> cases rawSize <;> cases truncate <;> cases totalSize <;> rfl

theorem params_truncate (c : ChunkCall) :
    c.params.toCJson.getItem (ascii "truncate") = c.truncate.map CJson.bool := by
  obtain ⟨path, offset, content, compression, rawSize, truncate, totalSize⟩ := c
  cases compression <;> cases rawSize <;> cases truncate <;> cases totalSize <;> rfl

/-- Base64 text has no zero byte. -/
theorem cText_encode (bytes : Bytes) : cText (Base64.encode bytes) = Base64.encode bytes := by
  apply List.takeWhile_eq_self_iff.mpr
  intro c hc
  have hplain := (Base64.encode_text bytes c hc).plain.1
  apply decide_eq_true
  rintro rfl
  exact absurd hplain (by decide)

/-- The payload that the daemon decodes is the raw chunk, when it decodes. -/
theorem decode_chunk {zlib : Bytes → Bytes} {iz : Option (ZIFace σ)}
    (hz : ∀ z ∈ iz, z.Inverts zlib) (pick : Int → Bytes → Mode) (cfg : Config) (path : Bytes)
    (total : Nat) (offset : Int) {raw out : Bytes} (first : Bool)
    (h : decodeWritePayload iz
      (some (chunkCall zlib pick cfg path total offset raw first).params.toCJson) = .ok out) :
    out = raw := by
  generalize hcall : chunkCall zlib pick cfg path total offset raw first = c at h
  have hcontent : c.content = payload zlib (pick offset raw) raw := by rw [← hcall]; rfl
  have hmode : c.compression = pick offset raw := by rw [← hcall]; rfl
  have htext : pStr (some c.params.toCJson) "content_b64" = .ok (Base64.encode c.content) := by
    rw [← cText_encode]; rfl
  have hcomp : (some c.params.toCJson).bind (CJson.getItem (ascii "compression")) =
      if pick offset raw = .zlib then some (.string (ascii "zlib")) else none := by
    rw [← hmode]; exact params_compression c
  unfold decodeWritePayload at h
  rw [htext] at h
  simp only [bind, Except.bind, Mcpd.B64.b64Decode_encode] at h
  rw [hcomp] at h
  generalize sizeT (pInt (some c.params.toCJson) "raw_size" 0) = hint at h
  cases hpick : pick offset raw with
  | none =>
    rw [hpick] at hcontent h
    rw [if_neg (by decide)] at h
    cases h
    exact hcontent
  | zlib =>
    rw [hpick] at hcontent h
    simp only [if_true] at h
    rw [hcontent] at h
    show out = raw
    cases hdec : decompressZlib iz (zlib raw) hint with
    | error msg =>
      simp only [payload, hdec] at h
      cases h
    | ok inflated =>
      simp only [payload, hdec] at h
      cases h
      cases iz with
      | none =>
        unfold decompressZlib at hdec
        split at hdec <;> cases hdec
      | some z => exact decompressZlib_compress (hz z rfl) hdec

/-- What one complete execution of a chunk leaves behind. -/
theorem execute_chunk {zlib : Bytes → Bytes} {iz : Option (ZIFace σ)}
    (hz : ∀ z ∈ iz, z.Inverts zlib) (pick : Int → Bytes → Mode) (cfg : Config)
    (path content : Bytes) {pos : Nat} (hsize : content.length ≤ 2 ^ 53)
    (hne : piece content pos cfg.chunkSize.toNat ≠ []) {dos : WriteDos} (hdos : dos.Whole)
    (volume : Volume) {result : Volume × Mcpd.Outcome}
    (hresult : fsWriteChunk iz dos volume
      (some (callAt zlib pick cfg path content pos).params.toCJson) = result) :
    (result.1 = volume ∧ result.2.isOk = false) ∨
    (result.1 = Function.update volume (cText path)
        (some (patch 0 (if pos = 0 then [] else (volume (cText path)).getD []) pos
          (piece content pos cfg.chunkSize.toNat))) ∧
      result.2.isOk = true) := by
  have hlen := length_piece content pos cfg.chunkSize.toNat
  have hpos : pos < content.length := by
    by_contra hge
    exact hne (List.length_eq_zero_iff.mp (by omega))
  have hoffset : offsetOf (some (callAt zlib pick cfg path content pos).params.toCJson) = .ok pos := by
    unfold offsetOf
    have hget : (some (callAt zlib pick cfg path content pos).params.toCJson).bind
        (CJson.getItem (ascii "offset")) = some (.number (pos : Int)) := by
      rw [← double_of_le (Nat.le_trans (Nat.le_of_lt hpos) hsize)]
      exact params_offset _
    rw [hget]
    dsimp only
    rw [Mcpd.toLongLong_intCast, if_neg (by omega), Int.toNat_natCast]
  have htrunc : doTruncate (some (callAt zlib pick cfg path content pos).params.toCJson) pos =
      decide (pos = 0) := by
    unfold doTruncate
    have hget : (some (callAt zlib pick cfg path content pos).params.toCJson).bind
        (CJson.getItem (ascii "truncate")) = none := params_truncate _
    rw [hget]
  have hpath : pStr (some (callAt zlib pick cfg path content pos).params.toCJson) "path" =
      .ok (cText path) := rfl
  subst hresult
  unfold fsWriteChunk writeChunkParams
  rw [hpath, hoffset]
  simp only [bind, Except.bind]
  cases hdec : decodeWritePayload iz
      (some (callAt zlib pick cfg path content pos).params.toCJson) with
  | error err => exact Or.inl ⟨rfl, rfl⟩
  | ok data =>
    have hraw : data = piece content pos cfg.chunkSize.toNat :=
      decode_chunk hz pick cfg path content.length pos (pos = 0) hdec
    subst hraw
    dsimp only
    rw [htrunc]
    have hwhole := writeAt_whole hdos volume (cText path) pos (decide (pos = 0)) hne
    have hbase : (pos = 0 ∧ decide (pos = 0) = true) ↔ pos = 0 := by
      rw [decide_eq_true_iff, and_self_iff]
    simp only [hbase] at hwhole
    exact hwhole

/-! ## The target and its schedule -/

/-- What becomes of one attempt.  Its request reaches the daemon `copies`
times; until the attempt ends, the workers that hold the requests of the
attempts in `runs` execute them, with these answers of DOS; and when
`answered`, the reply reaches the host. -/
structure Attempt where
  copies : Nat := 0
  runs : List (Nat × WriteDos) := []
  answered : Bool := false
  failure : String := "MCPd request timed out after 300.0s"
deriving DecidableEq, Repr

/-- Every execution of the attempt is complete or does not reach the file. -/
def Attempt.Whole (a : Attempt) : Prop := ∀ r ∈ a.runs, r.2.Whole

instance (a : Attempt) : Decidable a.Whole := inferInstanceAs (Decidable (∀ _ ∈ _, _))

/-- One successful execution: the number of the attempt, and the offset. -/
structure Done where
  attempt : Nat
  offset : Int
deriving DecidableEq, Repr

/-- The target: its files, what is left of the schedule, the number of
attempts so far, the requests that arrived and are not executed, and the
successful executions in their order. -/
structure Remote where
  volume : Volume
  script : List Attempt
  sent : Nat := 0
  waiting : List (Nat × ChunkCall) := []
  log : List Done := []

/-- The worker that holds a request of attempt `run.1` executes it. -/
def Remote.execute (iz : Option (ZIFace σ)) (w : Remote) (run : Nat × WriteDos) : Remote :=
  match w.waiting.find? fun r => r.1 = run.1 with
  | none => w
  | some r =>
    let result := fsWriteChunk iz run.2 w.volume (some r.2.params.toCJson)
    { w with
      volume := result.1
      waiting := w.waiting.eraseP fun q => q.1 = run.1
      log := if result.2.isOk then w.log ++ [⟨r.1, r.2.offset⟩] else w.log }

/-- The request of the next attempt arrives. -/
def Remote.deliver (w : Remote) (call : ChunkCall) : Remote :=
  { w with
    script := w.script.tail
    sent := w.sent + 1
    waiting := w.waiting ++ List.replicate (w.script.headD {}).copies (w.sent, call) }

/-- One `fs_write_chunk` call of the host. -/
def Remote.send (iz : Option (ZIFace σ)) (w : Remote) (call : ChunkCall) :
    Remote × Option String :=
  let attempt := w.script.headD {}
  let w' := attempt.runs.foldl (Remote.execute iz) (w.deliver call)
  (w', if attempt.answered ∧ w'.log.any (fun d => d.attempt = w.sent) then none
    else some attempt.failure)

end AmigaFleet.Host.Upload

import AmigaFleet.Host.Transport
import AmigaFleet.Host.Upload
import AmigaFleet.Mcpd.Frame

/-!
# The frames of an upload

Each chunk travels in one `fs.write_chunk` request, as base64 in a JSON
envelope.  `Link` is a connection that records the requests it is asked to
send; `Link.send` is one `fs_write_chunk` call on it, with the check of
`_send_frame`.

A request passes both ends when its payload is at most 32 MiB long.
`requestSize` is that length in terms of the file, the path and the id.  The
default chunk of 24 MiB becomes exactly 32 MiB of base64, which leaves nothing
for the envelope: `upload_frames_iff` says which uploads fit, and
`full_chunk_too_large` is a full chunk that is sent raw.
-/

namespace AmigaFleet.Host.Upload

open AmigaFleet.Lib
open AmigaFleet.Mcpd (ascii Sock frameRead)
open AmigaFleet.Host.Transport (Python requestPayload maxFrameBytes)

/-! ## Requests -/

/-- An `fs.write_chunk` request and its id. -/
structure Request where
  rid : Nat
  call : ChunkCall

/-- The payload of its frame. -/
def Request.payload (py : Python) (r : Request) : Bytes :=
  requestPayload py (ascii "fs.write_chunk") (some r.call.params) r.rid

/-- `_send_frame` takes the request, and the daemon reads its frame. -/
def Request.Passes (py : Python) (r : Request) : Prop :=
  (r.payload py).length ≤ maxFrameBytes ∧
    ∀ s : Sock, s.incoming = frame (r.payload py) → s.Feeds (4 + (r.payload py).length) →
      ∃ s', frameRead s = some (r.payload py, s')

theorem requestPayload_pos (py : Python) (method : Bytes) (params : Option Json) (rid : Int) :
    0 < (requestPayload py method params rid).length := by
  unfold requestPayload Transport.requestEnv Json.dumps
  simp only [List.length_append]
  have hopen : (ascii "\x7b").length = 1 := rfl
  omega

/-- The size decides at both ends. -/
theorem Request.passes_iff (py : Python) (r : Request) :
    r.Passes py ↔ (r.payload py).length ≤ maxFrameBytes := by
  constructor
  · exact fun h => h.1
  · intro hfits
    refine ⟨hfits, fun s hin hlive => ?_⟩
    have hrest : s.incoming = frame (r.payload py) ++ [] := by rw [hin, List.append_nil]
    obtain ⟨s', hs', _⟩ := Mcpd.frameRead_live hrest hlive (requestPayload_pos ..) hfits
    exact ⟨s', hs'⟩

/-! ## The size of a request -/

/-- The number of decimal digits. -/
def decimals (n : Nat) : Nat := (Nat.toDigits 10 n).length

theorem decimals_le {n m : Nat} (h : n ≤ m) : decimals n ≤ decimals m := by
  have hbase : 1 < 10 := by omega
  have hpos : 0 < (Nat.toDigits 10 m).length := Nat.length_toDigits_pos
  apply (Nat.length_toDigits_le_iff hbase hpos).mpr
  have hm := (Nat.length_toDigits_le_iff hbase hpos).mp (Nat.le_refl _)
  omega

/-- The length of the request for the chunk at `pos` when it carries the id
`rid`. -/
def requestSize (zlib : Bytes → Bytes) (cfg : Config) (path content : Bytes) (pos rid : Nat) :
    Nat :=
  let raw := piece content pos cfg.chunkSize.toNat
  let mode := pickMode zlib cfg.compression raw
  107 + decimals rid + (Json.quoted path).length + decimals pos +
    (if mode = .zlib then 37 + decimals raw.length else 0) +
    (if pos = 0 ∧ cfg.totalSizeHint then 16 + decimals content.length else 0) +
    ((payload zlib mode raw).length + 2) / 3 * 4

theorem requestSize_le (zlib : Bytes → Bytes) (cfg : Config) (path content : Bytes) (pos : Nat)
    {rid rid' : Nat} (h : rid ≤ rid') :
    requestSize zlib cfg path content pos rid ≤ requestSize zlib cfg path content pos rid' := by
  have hdec := decimals_le h
  unfold requestSize
  dsimp only
  omega

theorem length_intText (n : Nat) : (Json.intText n).length = decimals n := by
  show ((n.repr).toList.map fun c => UInt8.ofNat c.toNat).length = decimals n
  rw [List.length_map, Nat.toList_repr]
  rfl

theorem length_quoted_base64 (bytes : Bytes) :
    (Json.quoted (Base64.encode bytes)).length = (bytes.length + 2) / 3 * 4 + 2 := by
  rw [← Base64.length_encode]
  exact Json.length_quoted fun c hc => (Base64.encode_text bytes c hc).plain

/-- The choice that `chunked_upload` makes. -/
def codePick (zlib : Bytes → Bytes) (cfg : Config) : Int → Bytes → Mode :=
  fun _ raw => pickMode zlib cfg.compression raw

/-- The length of the parameters of a chunk. -/
theorem length_params (floatText : Option Rat → Bytes) (call : ChunkCall)
    (htruncate : call.truncate = none) :
    (Json.dumps floatText call.params).length =
      41 + (Json.quoted call.path).length + (Json.intText call.offset).length +
        (if call.compression = .zlib then 23 else 0) +
        (call.rawSize.map fun n => 14 + decimals n).getD 0 +
        (call.totalSize.map fun n => 16 + decimals n).getD 0 +
        (call.content.length + 2) / 3 * 4 := by
  have hpath : (Json.quoted (ascii "path")).length = 6 := rfl
  have hoffset : (Json.quoted (ascii "offset")).length = 8 := rfl
  have hcontent : (Json.quoted (ascii "content_b64")).length = 13 := rfl
  have hraw : (Json.quoted (ascii "raw_size")).length = 10 := rfl
  have htotal : (Json.quoted (ascii "total_size")).length = 12 := rfl
  have hbase := length_quoted_base64 call.content
  rw [ChunkCall.params, Json.length_dict _ (by simp), htruncate]
  have hmode : ((if call.compression ≠ .none then
      [(ascii "compression", Json.str (ascii "zlib"))] else []).map fun m =>
        (Json.quoted m.1).length + (Json.dumps floatText m.2).length + 4).sum =
      if call.compression = .zlib then 23 else 0 := by
    cases call.compression <;> rfl
  have hsize : ∀ (name : Bytes) (size : Option Nat),
      ((size.toList.map fun n : Nat => (name, Json.int n)).map fun m =>
        (Json.quoted m.1).length + (Json.dumps floatText m.2).length + 4).sum =
      (size.map fun n => (Json.quoted name).length + 4 + decimals n).getD 0 := by
    intro name size
    cases size with
    | none => rfl
    | some n =>
      simp only [Option.toList_some, List.map_cons, List.map_nil, List.sum_cons, List.sum_nil,
        Option.map_some, Option.getD_some, Json.dumps, length_intText]
      omega
  simp only [List.map_append, List.sum_append, hmode, hsize, hraw, htotal, Nat.reduceAdd]
  simp only [List.map_cons, List.map_nil, List.sum_cons, List.sum_nil, Option.toList_none, hpath,
    hoffset, hcontent, Json.dumps, hbase]
  omega

theorem length_payload (py : Python) (zlib : Bytes → Bytes) (cfg : Config) (path content : Bytes)
    (pos rid : Nat) :
    (Request.payload py ⟨rid, callAt zlib (codePick zlib cfg) cfg path content pos⟩).length =
      requestSize zlib cfg path content pos rid := by
  have hjsonrpc : (Json.quoted (ascii "jsonrpc")).length = 9 := rfl
  have hversion : (Json.quoted (ascii "2.0")).length = 5 := rfl
  have hid : (Json.quoted (ascii "id")).length = 4 := rfl
  have hmethod : (Json.quoted (ascii "method")).length = 8 := rfl
  have hwrite : (Json.quoted (ascii "fs.write_chunk")).length = 16 := rfl
  have hparams : (Json.quoted (ascii "params")).length = 8 := rfl
  have hchunk := length_params py.floatText (callAt zlib (codePick zlib cfg) cfg path content pos)
    rfl
  unfold Request.payload requestPayload Transport.requestEnv
  rw [Json.length_dict _ (by simp)]
  simp only [Option.toList_some, List.map_append, List.map_cons, List.map_nil, List.sum_append,
    List.sum_cons, List.sum_nil, hchunk, Json.dumps, hjsonrpc, hversion, hid, hmethod, hwrite,
    hparams, length_intText]
  unfold requestSize callAt chunkCall codePick
  dsimp only
  rw [length_intText]
  simp only [decide_eq_true_eq]
  by_cases hfirst : pos = 0 ∧ cfg.totalSizeHint = true
  · simp only [if_pos hfirst, Option.map_some, Option.getD_some]
    cases pickMode zlib cfg.compression (piece content pos cfg.chunkSize.toNat) <;>
      simp only [if_true, if_false, reduceCtorEq, Option.map_some, Option.map_none,
        Option.getD_some, Option.getD_none] <;> omega
  · simp only [if_neg hfirst, Option.map_none, Option.getD_none]
    cases pickMode zlib cfg.compression (piece content pos cfg.chunkSize.toNat) <;>
      simp only [if_true, if_false, reduceCtorEq, Option.map_some, Option.map_none,
        Option.getD_some, Option.getD_none] <;> omega

/-! ## The requests of an upload -/

/-- What becomes of one attempt. -/
inductive Try where
  /-- no connection, so no request is built -/
  | unreachable (error : String)
  /-- `again`: the drain of the first frame fails and the request is built once
  more; `error` is `none` when the call returns -/
  | sent (again : Bool) (error : Option String)
deriving DecidableEq, Repr

/-- A connection to the daemon, with the requests built for it so far. -/
structure Link where
  nextId : Nat := 1
  script : List Try := []
  built : List Request := []

/-- The attempt at hand; when the script is over, calls return. -/
def Link.now (w : Link) : Try := w.script.headD (.sent false none)

/-- The requests that one `fs_write_chunk` call builds. -/
def Link.requests (py : Python) (w : Link) (call : ChunkCall) : List Request :=
  let first : Request := ⟨w.nextId, call⟩
  match w.now with
  | .unreachable _ => []
  | .sent again _ =>
    if again ∧ (first.payload py).length ≤ maxFrameBytes then [first, ⟨w.nextId + 1, call⟩]
    else [first]

/-- One `fs_write_chunk` call. -/
def Link.send (py : Python) (w : Link) (call : ChunkCall) : Link × Option String :=
  let requests := w.requests py call
  let w' : Link :=
    { nextId := w.nextId + requests.length
      script := w.script.tail
      built := w.built ++ requests }
  match requests.find? fun r => maxFrameBytes < (r.payload py).length with
  | some r =>
    let size := (r.payload py).length
    (w', some s!"frame too large: {size}")
  | none =>
    match w.now with
    | .unreachable error => (w', some error)
    | .sent _ error => (w', error)

/-- The requests that an upload builds. -/
def builtBy (py : Python) (zlib : Bytes → Bytes) (cfg : Config) (content path : Bytes)
    (nextId : Nat) (script : List Try) : List Request :=
  (chunkedUpload (Link.send py) zlib cfg "local" (some content) path
    { nextId := nextId, script := script }).1.built

theorem Link.send_fst (py : Python) (w : Link) (call : ChunkCall) :
    (w.send py call).1 =
      { nextId := w.nextId + (w.requests py call).length
        script := w.script.tail
        built := w.built ++ w.requests py call } := by
  unfold Link.send
  dsimp only
  split
  · rfl
  · split <;> rfl

/-- A call builds two requests at most, for its own chunk and with the next
ids. -/
theorem Link.requests_spec (py : Python) (w : Link) (call : ChunkCall) :
    (w.requests py call).length ≤ 2 ∧ ∀ r ∈ w.requests py call, r.call = call ∧
      r.rid < w.nextId + (w.requests py call).length := by
  unfold Link.requests
  dsimp only
  split
  · exact ⟨Nat.zero_le _, fun r hr => absurd hr List.not_mem_nil⟩
  · split
    · simp
    · simp

variable {zlib : Bytes → Bytes} {cfg : Config} {path content : Bytes} {start base : Nat}

/-! ### The largest id of a chunk -/

/-- The largest id that a request for chunk `k` can carry, when the first
request of the upload has the id `base`. -/
def lastId (cfg : Config) (base k : Nat) : Nat := base + 2 * cfg.attemptCount * (k + 1) - 1

theorem attempts_ids (py : Python) (call : ChunkCall) (n : Nat) (lastErr : Option String)
    (w : Link) :
    (attempts (Link.send py) call n lastErr w).1.nextId ≤ w.nextId + 2 * n ∧
      ∀ r ∈ (attempts (Link.send py) call n lastErr w).1.built,
        r ∈ w.built ∨ (0 < n ∧ r.call = call ∧ r.rid < w.nextId + 2 * n) := by
  induction n generalizing lastErr w with
  | zero => exact ⟨Nat.le_refl _, fun r hr => Or.inl hr⟩
  | succ n ih =>
    obtain ⟨hlen, hnew⟩ := w.requests_spec py call
    have hid : (w.send py call).1.nextId ≤ w.nextId + 2 := by
      rw [Link.send_fst]
      dsimp only
      omega
    have hbuilt : ∀ r ∈ (w.send py call).1.built,
        r ∈ w.built ∨ (r.call = call ∧ r.rid < w.nextId + 2) := by
      intro r hr
      rw [Link.send_fst] at hr
      rcases List.mem_append.mp hr with hr | hr
      · exact Or.inl hr
      · obtain ⟨hcall, hrid⟩ := hnew r hr
        exact Or.inr ⟨hcall, by omega⟩
    rw [attempts]
    rcases hsend : w.send py call with ⟨w', _ | e⟩
    · rw [hsend] at hid hbuilt
      refine ⟨by dsimp only at hid ⊢; omega, fun r hr => ?_⟩
      rcases hbuilt r hr with hr | ⟨hcall, hrid⟩
      · exact Or.inl hr
      · exact Or.inr ⟨Nat.succ_pos n, hcall, by omega⟩
    · rw [hsend] at hid hbuilt
      obtain ⟨hid', hbuilt'⟩ := ih (some e) w'
      dsimp only at hid
      refine ⟨by dsimp only; omega, fun r hr => ?_⟩
      rcases hbuilt' r hr with hr | ⟨_, hcall, hrid⟩
      · rcases hbuilt r hr with hr | ⟨hcall, hrid⟩
        · exact Or.inl hr
        · exact Or.inr ⟨Nat.succ_pos n, hcall, by omega⟩
      · exact Or.inr ⟨Nat.succ_pos n, hcall, by omega⟩

/-- Every request built is one for a chunk of the file, with an id in its
range. -/
def InRange (zlib : Bytes → Bytes) (cfg : Config) (path content : Bytes) (start base : Nat)
    (w : Link) : Prop :=
  ∀ r ∈ w.built, ∃ k, start + k * cfg.chunkSize.toNat < content.length ∧ 0 < cfg.attemptCount ∧
    r.call = callAt zlib (codePick zlib cfg) cfg path content (start + k * cfg.chunkSize.toNat) ∧
    r.rid ≤ lastId cfg base k

theorem inRange_attempts (py : Python) {w : Link} (h : InRange zlib cfg path content start base w)
    {k : Nat} (hk : start + k * cfg.chunkSize.toNat < content.length)
    (hid : w.nextId ≤ base + 2 * cfg.attemptCount * k) :
    (attempts (Link.send py) (callAt zlib (codePick zlib cfg) cfg path content
        (start + k * cfg.chunkSize.toNat)) cfg.attemptCount none w).1.nextId ≤
      base + 2 * cfg.attemptCount * (k + 1) ∧
    InRange zlib cfg path content start base
      (attempts (Link.send py) (callAt zlib (codePick zlib cfg) cfg path content
        (start + k * cfg.chunkSize.toNat)) cfg.attemptCount none w).1 := by
  obtain ⟨hnext, hbuilt⟩ := attempts_ids py (callAt zlib (codePick zlib cfg) cfg path content
    (start + k * cfg.chunkSize.toNat)) cfg.attemptCount none w
  have hmul : 2 * cfg.attemptCount * (k + 1) =
      2 * cfg.attemptCount * k + 2 * cfg.attemptCount := Nat.mul_succ _ _
  refine ⟨by omega, fun r hr => ?_⟩
  rcases hbuilt r hr with hr | ⟨hsome, hcall, hrid⟩
  · exact h r hr
  · refine ⟨k, hk, hsome, hcall, ?_⟩
    unfold lastId
    omega

theorem builtBy_eq (py : Python) (zlib : Bytes → Bytes) (hresume : cfg.resumeFrom = start)
    (content path : Bytes) (base : Nat) (script : List Try) :
    builtBy py zlib cfg content path base script =
      (uploadLoop (Link.send py) zlib (codePick zlib cfg) cfg path content.length content.length
        (content.drop start) start (start = 0) { path := path, bytesTotal := content.length }
        { nextId := base, script := script }).1.built := by
  unfold builtBy chunkedUpload
  rw [chunkedUploadWith_eq (Link.send py) zlib _ hresume]
  rfl

/-- The loop keeps the ids in their ranges. -/
theorem inRange_built (py : Python) (zlib : Bytes → Bytes) {cfg : Config}
    (hchunk : 1 ≤ cfg.chunkSize) (hresume : cfg.resumeFrom = start) (content path : Bytes)
    (hstart : start ≤ content.length) (base : Nat) (script : List Try) :
    ∀ r ∈ builtBy py zlib cfg content path base script, ∃ k,
      start + k * cfg.chunkSize.toNat < content.length ∧ 0 < cfg.attemptCount ∧
      r.call = callAt zlib (codePick zlib cfg) cfg path content
        (start + k * cfg.chunkSize.toNat) ∧
      r.rid ≤ lastId cfg base k := by
  have hrun := uploadLoop_rule (Link.send py) zlib (codePick zlib cfg) path
    (I := fun pos w => ∃ k, pos = min (start + k * cfg.chunkSize.toNat) content.length ∧
      w.nextId ≤ base + 2 * cfg.attemptCount * k ∧ InRange zlib cfg path content start base w)
    (J := InRange zlib cfg path content start base) hchunk
    (fun pos w w' hpos hI hatt => by
      obtain ⟨k, heq, hid, hw⟩ := hI
      have heq' : pos = start + k * cfg.chunkSize.toNat := by omega
      subst heq'
      have h := inRange_attempts py hw hpos hid
      rw [hatt] at h
      refine ⟨k + 1, ?_, h⟩
      rw [Nat.succ_mul]
      omega)
    (fun pos w w' e hpos hI hatt => by
      obtain ⟨k, heq, hid, hw⟩ := hI
      have heq' : pos = start + k * cfg.chunkSize.toNat := by omega
      subst heq'
      have h := inRange_attempts py hw hpos hid
      rw [hatt] at h
      exact h.2)
    content.length start { path := path, bytesTotal := content.length } (by omega) hstart
    (w := { nextId := base, script := script })
    ⟨0, by omega, Nat.le_add_right .., fun _ hr => nomatch hr⟩
  rw [builtBy_eq py zlib hresume]
  split at hrun
  · rename_i w stats hup
    obtain ⟨_, _, _, hw⟩ := hrun
    rw [hup]
    exact hw
  · rename_i w e hup
    rw [hup]
    exact hrun

/-! ### The upload that gets to it -/

/-- A chunk at its most expensive: every attempt sends its request twice, and
the last one is answered. -/
def worst : Nat → List Try
  | 0 => []
  | n + 1 => List.replicate n (.sent true (some "MCPd request timed out after 300.0s")) ++
      [.sent true none]

/-- The request that is too large, when there is one. -/
def Refuses (py : Python) (w : Link) : Prop :=
  ∃ r ∈ w.built, maxFrameBytes < (r.payload py).length

/-- A request that is built stays. -/
theorem kept_attempts {py : Python} {w : Link} {r : Request} (h : r ∈ w.built) (call : ChunkCall)
    (n : Nat) (lastErr : Option String) :
    r ∈ (attempts (Link.send py) call n lastErr w).1.built := by
  refine (attempts_rule (P := fun w : Link => r ∈ w.built) (Q := fun _ => True) (fun w hw => ?_)
    (fun _ _ _ => trivial) n lastErr h).1
  rw [Link.send_fst]
  exact List.mem_append_left _ hw

theorem kept_uploadLoop {py : Python} {w : Link} {r : Request} (h : r ∈ w.built)
    (hchunk : 1 ≤ cfg.chunkSize) (fuel pos : Nat) (stats : UploadStats)
    (hfuel : content.length ≤ pos + fuel) (hpos : pos ≤ content.length) :
    r ∈ (uploadLoop (Link.send py) zlib (codePick zlib cfg) cfg path content.length fuel
      (content.drop pos) pos (pos = 0) stats w).1.built := by
  have hkeep : ∀ pos (w : Link), r ∈ w.built → r ∈ (attempts (Link.send py)
      (callAt zlib (codePick zlib cfg) cfg path content pos) cfg.attemptCount none w).1.built :=
    fun pos w hw => kept_attempts hw _ _ _
  have hrun := uploadLoop_rule (Link.send py) zlib (codePick zlib cfg) path
    (I := fun _ (w : Link) => r ∈ w.built) (J := fun w : Link => r ∈ w.built) hchunk
    (fun pos w w' _ hw hatt => by
      have hw' := hkeep pos w hw
      rwa [hatt] at hw')
    (fun pos w w' e _ hw hatt => by
      have hw' := hkeep pos w hw
      rwa [hatt] at hw')
    fuel pos stats hfuel hpos h
  split at hrun
  · rename_i w' stats' hup
    rwa [hup]
  · rename_i w' e hup
    rwa [hup]

/-- What one chunk builds, the upload builds. -/
theorem kept_chunk {py : Python} {w : Link} {r : Request} (hchunk : 1 ≤ cfg.chunkSize)
    {fuel pos : Nat} (stats : UploadStats) (hfuel : content.length ≤ pos + (fuel + 1))
    (hpos : pos < content.length)
    (h : r ∈ (attempts (Link.send py) (callAt zlib (codePick zlib cfg) cfg path content pos)
      cfg.attemptCount none w).1.built) :
    r ∈ (uploadLoop (Link.send py) zlib (codePick zlib cfg) cfg path content.length (fuel + 1)
      (content.drop pos) pos (pos = 0) stats w).1.built := by
  rw [uploadLoop_chunk _ _ _ _ hchunk _ _ _ hpos]
  rcases hatt : attempts (Link.send py) (callAt zlib (codePick zlib cfg) cfg path content pos)
    cfg.attemptCount none w with ⟨w', _ | e⟩
  · rw [hatt] at h
    exact kept_uploadLoop h hchunk _ _ _ (by omega) (Nat.min_le_right ..)
  · rw [hatt] at h
    exact h

/-- A request that is built twice has the next two ids. -/
theorem Link.send_again (py : Python) {w : Link} (call : ChunkCall) {error : Option String}
    (hnow : w.now = .sent true error) :
    Refuses py (w.send py call).1 ∨
      w.send py call = (⟨w.nextId + 2, w.script.tail,
        w.built ++ [⟨w.nextId, call⟩, ⟨w.nextId + 1, call⟩]⟩, error) := by
  by_cases hfirst : (Request.payload py ⟨w.nextId, call⟩).length ≤ maxFrameBytes
  · have hrequests : w.requests py call = [⟨w.nextId, call⟩, ⟨w.nextId + 1, call⟩] := by
      unfold Link.requests
      rw [hnow]
      exact if_pos ⟨rfl, hfirst⟩
    by_cases hsecond : (Request.payload py ⟨w.nextId + 1, call⟩).length ≤ maxFrameBytes
    · have hfind : (w.requests py call).find?
          (fun r => decide (maxFrameBytes < (r.payload py).length)) = none := by
        rw [hrequests, List.find?_eq_none]
        simp only [List.mem_cons, List.not_mem_nil, or_false, forall_eq_or_imp, forall_eq,
          decide_eq_true_eq]
        omega
      refine Or.inr ?_
      unfold Link.send
      dsimp only
      rw [hfind, hnow, hrequests]
      rfl
    · refine Or.inl ⟨⟨w.nextId + 1, call⟩, ?_, by omega⟩
      rw [Link.send_fst, hrequests]
      exact List.mem_append_right _ (by simp)
  · have hrequests : w.requests py call = [⟨w.nextId, call⟩] := by
      unfold Link.requests
      rw [hnow]
      exact if_neg fun h => hfirst h.2
    refine Or.inl ⟨⟨w.nextId, call⟩, ?_, by omega⟩
    rw [Link.send_fst, hrequests]
    exact List.mem_append_right _ (List.mem_singleton.mpr rfl)

theorem attempts_worst (py : Python) (call : ChunkCall) (n : Nat) {rest : List Try}
    (lastErr : Option String) {w : Link} (hscript : w.script = worst (n + 1) ++ rest) :
    Refuses py (attempts (Link.send py) call (n + 1) lastErr w).1 ∨
      ∃ w', attempts (Link.send py) call (n + 1) lastErr w = (w', none) ∧ w'.script = rest ∧
        w'.nextId = w.nextId + 2 * (n + 1) ∧ ⟨w'.nextId - 1, call⟩ ∈ w'.built := by
  induction n generalizing lastErr w with
  | zero =>
    have hnow : w.now = .sent true none := by
      rw [Link.now, hscript]
      rfl
    rw [attempts]
    rcases Link.send_again py call hnow with hbig | hsend
    · refine Or.inl ?_
      rcases hres : w.send py call with ⟨w', _ | e⟩
      · rwa [hres] at hbig
      · rw [hres] at hbig
        obtain ⟨r, hr, hbig⟩ := hbig
        exact ⟨r, kept_attempts hr call 0 (some e), hbig⟩
    · rw [hsend]
      refine Or.inr ⟨_, rfl, ?_, ?_, ?_⟩
      · show w.script.tail = rest
        rw [hscript]
        rfl
      · show w.nextId + 2 = w.nextId + 2 * (0 + 1)
        omega
      · exact List.mem_append_right _ (by simp)
  | succ n ih =>
    have hnow : w.now = .sent true (some "MCPd request timed out after 300.0s") := by
      rw [Link.now, hscript]
      rfl
    rw [attempts]
    rcases Link.send_again py call hnow with hbig | hsend
    · refine Or.inl ?_
      rcases hres : w.send py call with ⟨w', _ | e⟩
      · rwa [hres] at hbig
      · rw [hres] at hbig
        obtain ⟨r, hr, hbig⟩ := hbig
        exact ⟨r, kept_attempts hr call (n + 1) (some e), hbig⟩
    · rw [hsend]
      dsimp only
      have htail : w.script.tail = worst (n + 1) ++ rest := by
        rw [hscript]
        rfl
      rcases ih (some "MCPd request timed out after 300.0s") (w := ⟨w.nextId + 2, w.script.tail,
        w.built ++ [⟨w.nextId, call⟩, ⟨w.nextId + 1, call⟩]⟩) htail with
        hbig | ⟨w', hatt, hrest, hid, hmem⟩
      · exact Or.inl hbig
      · refine Or.inr ⟨w', hatt, hrest, ?_, hmem⟩
        rw [hid]
        dsimp only
        omega

/-- The upload gets to chunk `k` with the largest id, unless a request before
it is refused. -/
theorem uploadLoop_worst (py : Python) (zlib : Bytes → Bytes) (path : Bytes) (hchunk : 1 ≤ cfg.chunkSize) (hsome : 0 < cfg.attemptCount)
    (k fuel pos : Nat) (stats : UploadStats) {w : Link} (hfuel : content.length ≤ pos + fuel)
    (hk : pos + k * cfg.chunkSize.toNat < content.length)
    (hscript : w.script = (List.replicate (k + 1) (worst cfg.attemptCount)).flatten) :
    Refuses py (uploadLoop (Link.send py) zlib (codePick zlib cfg) cfg path content.length fuel
      (content.drop pos) pos (pos = 0) stats w).1 ∨
    ⟨lastId cfg w.nextId k, callAt zlib (codePick zlib cfg) cfg path content
        (pos + k * cfg.chunkSize.toNat)⟩ ∈
      (uploadLoop (Link.send py) zlib (codePick zlib cfg) cfg path content.length fuel
        (content.drop pos) pos (pos = 0) stats w).1.built := by
  obtain ⟨m, hm⟩ : ∃ m, cfg.attemptCount = m + 1 := ⟨cfg.attemptCount - 1, by omega⟩
  induction k generalizing fuel pos stats w with
  | zero =>
    obtain ⟨fuel, rfl⟩ : ∃ n, fuel = n + 1 := ⟨fuel - 1, by omega⟩
    rw [Nat.zero_mul, Nat.add_zero] at hk ⊢
    rw [List.replicate_succ, List.flatten_cons, hm] at hscript
    rcases attempts_worst py (callAt zlib (codePick zlib cfg) cfg path content pos) m none
      hscript with ⟨r, hr, hbig⟩ | ⟨w', hatt, _, hid, hmem⟩
    · rw [← hm] at hr
      exact Or.inl ⟨r, kept_chunk hchunk stats hfuel hk hr, hbig⟩
    · refine Or.inr (kept_chunk hchunk stats hfuel hk ?_)
      have hlast : lastId cfg w.nextId 0 = w'.nextId - 1 := by
        unfold lastId
        rw [hid, ← hm, Nat.zero_add, Nat.mul_one]
      rwa [hlast, hm, hatt]
  | succ k ih =>
    obtain ⟨fuel, rfl⟩ : ∃ n, fuel = n + 1 := ⟨fuel - 1, by omega⟩
    have hplace : pos + cfg.chunkSize.toNat + k * cfg.chunkSize.toNat =
        pos + (k + 1) * cfg.chunkSize.toNat := by
      rw [Nat.succ_mul]
      omega
    have hpos : pos < content.length := by omega
    rw [List.replicate_succ, List.flatten_cons, hm] at hscript
    rcases attempts_worst py (callAt zlib (codePick zlib cfg) cfg path content pos) m none
      hscript with ⟨r, hr, hbig⟩ | ⟨w', hatt, hrest, hid, _⟩
    · rw [← hm] at hr
      exact Or.inl ⟨r, kept_chunk hchunk stats hfuel hpos hr, hbig⟩
    · rw [← hm] at hrest hatt hid
      have h := ih fuel (pos + cfg.chunkSize.toNat)
        (stats.add (callAt zlib (codePick zlib cfg) cfg path content pos)) (by omega) (by omega)
        hrest
      have hlast : lastId cfg w'.nextId k = lastId cfg w.nextId (k + 1) := by
        unfold lastId
        rw [hid, Nat.mul_succ _ (k + 1)]
        omega
      have hnext : min (pos + cfg.chunkSize.toNat) content.length =
          pos + cfg.chunkSize.toNat := by omega
      rw [uploadLoop_chunk _ _ _ _ hchunk _ _ _ hpos, hatt]
      dsimp only
      rw [hnext]
      rwa [hlast, hplace] at h

/-! ## Which uploads fit -/

/-- Chunks that fit with their largest ids fit in every upload. -/
theorem frames_fit (py : Python) (zlib : Bytes → Bytes) {cfg : Config}
    (hchunk : 1 ≤ cfg.chunkSize) (hresume : cfg.resumeFrom = start) (content path : Bytes)
    (base : Nat)
    (hfits : 0 ≤ cfg.retries → ∀ k, start + k * cfg.chunkSize.toNat < content.length →
      requestSize zlib cfg path content (start + k * cfg.chunkSize.toNat) (lastId cfg base k) ≤
        maxFrameBytes)
    (script : List Try) : ∀ r ∈ builtBy py zlib cfg content path base script, r.Passes py := by
  intro r hr
  rcases Nat.lt_or_ge content.length start with hlt | hge
  · rw [builtBy_eq py zlib hresume, List.drop_eq_nil_of_le (Nat.le_of_lt hlt),
      uploadLoop_end] at hr
    cases hr
  · obtain ⟨k, hk, hsome, hcall, hid⟩ :=
      inRange_built py zlib hchunk hresume content path hge base script r hr
    have hretries : 0 ≤ cfg.retries := by
      unfold Config.attemptCount at hsome
      omega
    obtain ⟨rid, call⟩ := r
    dsimp only at hcall hid
    subst hcall
    rw [Request.passes_iff, length_payload]
    exact Nat.le_trans (requestSize_le zlib cfg path content _ hid) (hfits hretries k hk)

/-- Every chunk is built with its largest id by some upload, unless an upload
is refused before. -/
theorem fits_of_frames (py : Python) (zlib : Bytes → Bytes) {cfg : Config}
    (hchunk : 1 ≤ cfg.chunkSize) (start : Nat) (hresume : cfg.resumeFrom = start) (content path : Bytes)
    (base : Nat)
    (hpass : ∀ script, ∀ r ∈ builtBy py zlib cfg content path base script, r.Passes py)
    (hretries : 0 ≤ cfg.retries) {k : Nat}
    (hk : start + k * cfg.chunkSize.toNat < content.length) :
    requestSize zlib cfg path content (start + k * cfg.chunkSize.toNat) (lastId cfg base k) ≤
      maxFrameBytes := by
  have hsome : 0 < cfg.attemptCount := by
    unfold Config.attemptCount
    omega
  have hrun := uploadLoop_worst py zlib path hchunk hsome k
    content.length start { path := path, bytesTotal := content.length } (by omega) hk
    (w := { nextId := base, script := (List.replicate (k + 1) (worst cfg.attemptCount)).flatten })
    rfl
  have hall := hpass (List.replicate (k + 1) (worst cfg.attemptCount)).flatten
  rw [builtBy_eq py zlib hresume] at hall
  rcases hrun with ⟨r, hr, hbig⟩ | hmem
  · have hle := (r.passes_iff py).mp (hall r hr)
    omega
  · have hle := (Request.passes_iff py _).mp (hall _ hmem)
    rwa [length_payload] at hle

/-- Every request that an upload can build passes both ends exactly when every
chunk, in base64 and with the largest id it can carry, fits into 32 MiB. -/
theorem upload_frames_iff (py : Python) (zlib : Bytes → Bytes) (cfg : Config)
    (hchunk : 1 ≤ cfg.chunkSize) (start : Nat) (hresume : cfg.resumeFrom = start)
    (content path : Bytes) (base : Nat) :
    (∀ script, ∀ r ∈ builtBy py zlib cfg content path base script, r.Passes py) ↔
      (0 ≤ cfg.retries → ∀ k, start + k * cfg.chunkSize.toNat < content.length →
        requestSize zlib cfg path content (start + k * cfg.chunkSize.toNat) (lastId cfg base k) ≤
          maxFrameBytes) :=
  ⟨fun hpass hretries _ hk =>
      fits_of_frames py zlib hchunk start hresume content path base hpass hretries hk,
    frames_fit py zlib hchunk hresume content path base⟩

/-- A Python whose library is not asked for anything. -/
def idlePython : Python where
  loads _ := .ok .null
  str _ := []
  floatText _ := []
  intOfText _ := none
  endpoint := []

/-- Three bytes fit, also when the request is sent twice. -/
theorem upload_frames_iff_sample :
    (builtBy idlePython id { compression := .none } [1, 2, 3] (ascii "RAM:x") 1
      [.sent true none]).length = 2 ∧
    ∀ r ∈ builtBy idlePython id { compression := .none } [1, 2, 3] (ascii "RAM:x") 1
      [.sent true none], r.Passes idlePython := by
  refine ⟨by decide +kernel, ?_⟩
  refine (upload_frames_iff idlePython id { compression := .none } (by decide) 0 rfl [1, 2, 3]
    (ascii "RAM:x") 1).mpr (fun _ k hk => ?_) [.sent true none]
  have hzero : k = 0 := by
    have hsize : (Config.chunkSize { compression := .none }).toNat = 25165824 := rfl
    rw [hsize, List.length_cons, List.length_cons, List.length_cons, List.length_nil] at hk
    omega
  subst hzero
  decide +kernel

/-- A full chunk of the default size that is sent raw has 32 MiB of base64
alone. -/
theorem requestSize_full {content : Bytes} (hlen : content.length = defaultChunkRaw)
    (zlib : Bytes → Bytes) (path : Bytes) (rid : Nat) :
    maxFrameBytes < requestSize zlib { compression := .none } path content 0 rid := by
  have hraw : piece content 0 (Config.chunkSize { compression := .none }).toNat = content := by
    unfold piece
    rw [List.drop_zero]
    exact List.take_of_length_le (Nat.le_of_eq hlen)
  unfold requestSize
  rw [hraw]
  dsimp only [pickMode, payload]
  rw [hlen]
  unfold defaultChunkRaw maxFrameBytes
  omega

/-- Of 24 MiB that are sent raw the very first request is refused. -/
theorem full_chunk_too_large : ∃ content path : Bytes, path.length ≤ 65536 ∧
    ¬ ∀ script, ∀ r ∈ builtBy idlePython id { compression := .none } content path 1 script,
      r.Passes idlePython := by
  have hlen : (List.replicate defaultChunkRaw (0 : UInt8)).length = defaultChunkRaw :=
    List.length_replicate ..
  refine ⟨List.replicate defaultChunkRaw 0, ascii "RAM:x", by decide, fun hpass => ?_⟩
  have hfits := fits_of_frames idlePython id (by decide) 0 rfl _ _ 1 hpass (by decide)
    (k := 0) (by rw [hlen, Nat.zero_mul]; decide)
  rw [Nat.zero_mul] at hfits
  exact absurd hfits (Nat.not_le.mpr (requestSize_full hlen _ _ _))

end AmigaFleet.Host.Upload

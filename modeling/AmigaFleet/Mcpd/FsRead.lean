import AmigaFleet.Mcpd.Fs
import AmigaFleet.Mcpd.Rpc

/-!
# fs.read

`fs_read` of `mcpd/src/methods/fs.c`.  `ReadDos` is what `dos.library` and the
allocator answer during one call.  `responseSize` is the length of the
response to a request that is admitted, in terms of what is read, the id and
the path.

The handler admits a slice by its raw size, `fsReadMaxBytes`, and the size of
a frame is checked after base64 has made a third more of it.
`read_answered_iff` is the exact size up to which an answer goes out, and
`full_slice_dropped` is an admitted request without an answer.
-/

namespace AmigaFleet.Mcpd.Fs

open AmigaFleet.Lib

/-- `FS_READ_MAX_BYTES` -/
def fsReadMaxBytes : Nat := 32 * 1024 * 1024

/-- The answers that one `fs_read` is given. -/
structure ReadDos where
  opens : Bool := true
  examines : Bool := true
  seeks : Bool := true
  allocates : Bool := true
  /-- the result of `Read`; `none` is -1 -/
  reads : Option Nat
  encodes : Bool := true
  ioErr : IoErr := .other
deriving DecidableEq, Repr

/-- The slice that a request asks for, in the size that DOS reports. -/
structure Slice where
  offset : Int
  size : Nat
  toRead : Nat
deriving DecidableEq, Repr

/-- The arithmetic of `fs_read` between `Examine` and the size check. -/
def sliceOf (params : Option CJson) (size : Nat) : Slice :=
  let offset := pInt params "offset" 0
  let length := pInt params "length" (-1)
  let offset := if offset < 0 then 0 else offset
  let avail := size - offset.toNat
  { offset := offset
    size := size
    toRead := if 0 ≤ length ∧ length < avail then length.toNat else avail }

/-- `fs_read` up to the encoding: the slice, and the bytes that were read. -/
def readSlice (volume : Volume) (dos : ReadDos) (params : Option CJson) (path : Bytes) :
    Except CJson (Slice × Bytes) :=
  match volume path, dos.opens with
  | some content, true =>
    let slice := sliceOf params (if dos.examines then content.length else 0)
    if slice.toRead > fsReadMaxBytes then
      .error (rpcMakeError mcpdErrTarget "fs.read slice exceeds 32 MiB cap"
        (some (.object [(ascii "path", .string path), (ascii "requested", cNumber slice.toRead),
          (ascii "max", cNumber fsReadMaxBytes)])))
    else if slice.offset > 0 ∧ slice.toRead > 0 ∧ dos.seeks = false then
      .error (fsErrorFor dos.ioErr path)
    else if dos.allocates = false then .error (rpcMakeError mcpdErrInternal "out of memory" none)
    else
      match if slice.toRead > 0 then dos.reads else some 0 with
      | none => .error (fsErrorFor dos.ioErr path)
      | some got =>
        .ok (slice, (content.drop slice.offset.toNat).take (min got slice.toRead))
  | _, _ => .error (fsErrorFor dos.ioErr path)

/-- The result object of `fs_read`. -/
def readResult (path : Bytes) (slice : Slice) (size : Nat) (text : Bytes) : CJson :=
  .object [(ascii "path", .string path), (ascii "size", cNumber size),
    (ascii "offset", cNumber slice.offset), (ascii "total_size", cNumber slice.size),
    (ascii "content_b64", .string text)]

/-- `fs_read` -/
def fsRead (volume : Volume) (dos : ReadDos) : Handler := fun params => do
  let path ← pStr params "path"
  let (slice, bytes) ← readSlice volume dos params path
  if dos.encodes = false then
    .error (rpcMakeError mcpdErrInternal "base64 encode failed" none)
  else .ok (readResult path slice bytes.length (B64.b64Encode bytes))

/-- A slice that is read is a piece of the file from its offset on. -/
theorem readSlice_ok {volume : Volume} {dos : ReadDos} {params : Option CJson} {path : Bytes}
    {slice : Slice} {bytes : Bytes} (h : readSlice volume dos params path = .ok (slice, bytes)) :
    ∃ content got, volume path = some content ∧
      slice = sliceOf params (if dos.examines then content.length else 0) ∧
      (if slice.toRead > 0 then dos.reads else some 0) = some got ∧
      bytes = piece content slice.offset.toNat (min got slice.toRead) := by
  unfold readSlice at h
  split at h
  · rename_i content hfile _
    dsimp only at h
    generalize hsize : sliceOf params (if dos.examines then content.length else 0) = found at h
    split at h
    · cases h
    · split at h
      · cases h
      · split at h
        · cases h
        · split at h
          · cases h
          · rename_i got hgot
            cases h
            exact ⟨content, got, hfile, hsize.symm, hgot, rfl⟩
  · cases h

/-- What `fs.read` answers is the slice that it reads. -/
theorem fsRead_ok {volume : Volume} {dos : ReadDos} {params : Option CJson} {path : Bytes}
    {result : CJson} (hpath : pStr params "path" = .ok path)
    (h : fsRead volume dos params = .ok result) :
    ∃ slice bytes, readSlice volume dos params path = .ok (slice, bytes) ∧
      result = readResult path slice bytes.length (B64.b64Encode bytes) := by
  unfold fsRead at h
  simp only [hpath, bind, Except.bind] at h
  cases hslice : readSlice volume dos params path with
  | error err =>
    rw [hslice] at h
    cases h
  | ok found =>
    obtain ⟨slice, bytes⟩ := found
    rw [hslice] at h
    have hnot : dos.encodes ≠ false := by
      intro hfalse
      simp [hfalse] at h
    simp only [if_neg hnot] at h
    exact ⟨slice, bytes, rfl, (Except.ok.inj h).symm⟩

/-! ## The length of the response -/

/-- The error of a slice that is admitted. -/
def readFailure (dos : ReadDos) (slice : Slice) (path : Bytes) : Option CJson :=
  if slice.offset > 0 ∧ slice.toRead > 0 ∧ dos.seeks = false then
    some (fsErrorFor dos.ioErr path)
  else if dos.allocates = false then some (rpcMakeError mcpdErrInternal "out of memory" none)
  else if slice.toRead > 0 ∧ dos.reads = none then some (fsErrorFor dos.ioErr path)
  else if dos.encodes = false then
    some (rpcMakeError mcpdErrInternal "base64 encode failed" none)
  else none

/-- The number of bytes that `Read` yields of a slice. -/
def readCount (dos : ReadDos) (slice : Slice) : Nat := min (dos.reads.getD 0) slice.toRead

/-- The length of the response to a request whose slice is admitted. -/
def responseSize (p : CJson.Printer) (id : CJson) (dos : ReadDos) (slice : Slice) (path : Bytes) :
    Nat :=
  match readFailure dos slice path with
  | some err => 32 + (CJson.print p id).length + (CJson.print p err).length
  | none =>
    91 + (CJson.print p id).length + (p.string path).length +
      (CJson.print p (cNumber (readCount dos slice))).length +
      (CJson.print p (cNumber slice.offset)).length + (CJson.print p (cNumber slice.size)).length +
      (readCount dos slice + 2) / 3 * 4

theorem length_envelope {p : CJson.Printer} (hp : p.Plain) (id : Option CJson) (out : Outcome) :
    (CJson.print p (envelope id out)).length =
      match out with
      | .ok result => 33 + (CJson.print p (id.getD .null)).length + (CJson.print p result).length
      | .error err => 32 + (CJson.print p (id.getD .null)).length + (CJson.print p err).length := by
  have hjsonrpc : (p.string (ascii "jsonrpc")).length = 9 := hp.length (by decide +kernel)
  have hversion : (p.string (ascii "2.0")).length = 5 := hp.length (by decide +kernel)
  have hid : (p.string (ascii "id")).length = 4 := hp.length (by decide +kernel)
  have hresult : (p.string (ascii "result")).length = 8 := hp.length (by decide +kernel)
  have herror : (p.string (ascii "error")).length = 7 := hp.length (by decide +kernel)
  unfold envelope
  rw [CJson.length_object p (List.cons_ne_nil _ _)]
  cases out with
  | ok result =>
    simp only [List.map_cons, List.map_nil, List.sum_cons, List.sum_nil, cString, CJson.print,
      hjsonrpc, hversion, hid, hresult]
    omega
  | error err =>
    simp only [List.map_cons, List.map_nil, List.sum_cons, List.sum_nil, cString, CJson.print,
      hjsonrpc, hversion, hid, herror]
    omega

theorem length_readResult {p : CJson.Printer} (hp : p.Plain) (path : Bytes) (slice : Slice)
    (bytes : Bytes) :
    (CJson.print p (readResult path slice bytes.length (B64.b64Encode bytes))).length =
      58 + (p.string path).length + (CJson.print p (cNumber bytes.length)).length +
        (CJson.print p (cNumber slice.offset)).length +
        (CJson.print p (cNumber slice.size)).length + (bytes.length + 2) / 3 * 4 := by
  have hpath : (p.string (ascii "path")).length = 6 := hp.length (by decide +kernel)
  have hsize : (p.string (ascii "size")).length = 6 := hp.length (by decide +kernel)
  have hoffset : (p.string (ascii "offset")).length = 8 := hp.length (by decide +kernel)
  have htotal : (p.string (ascii "total_size")).length = 12 := hp.length (by decide +kernel)
  have hcontent : (p.string (ascii "content_b64")).length = 13 := hp.length (by decide +kernel)
  have hbase : (p.string (Base64.encode bytes)).length = (bytes.length + 2) / 3 * 4 + 2 := by
    rw [← Base64.length_encode]
    exact hp.length fun c hc => (Base64.encode_text bytes c hc).plain
  unfold readResult
  rw [CJson.length_object p (List.cons_ne_nil _ _), B64.b64Encode_eq]
  simp only [List.map_cons, List.map_nil, List.sum_cons, List.sum_nil, CJson.print, hpath,
    hsize, hoffset, htotal, hcontent, hbase]
  omega

theorem sliceOf_toRead (params : Option CJson) (size : Nat) :
    (sliceOf params size).toRead ≤ size - (sliceOf params size).offset.toNat := by
  unfold sliceOf
  dsimp only
  generalize (if pInt params "offset" 0 < 0 then 0 else pInt params "offset" 0) = offset
  split <;> omega

/-- An admitted slice is read, or its error is the one of `readFailure`. -/
theorem fsRead_admitted {volume : Volume} {dos : ReadDos} {params : Option CJson}
    {path content : Bytes} (hpath : pStr params "path" = .ok path)
    (hfile : volume path = some content) (hopen : dos.opens = true) {slice : Slice}
    (hslice : sliceOf params (if dos.examines then content.length else 0) = slice)
    (hcap : slice.toRead ≤ fsReadMaxBytes) :
    match readFailure dos slice path with
    | some err => fsRead volume dos params = .error err
    | none => ∃ bytes, bytes.length = readCount dos slice ∧
        fsRead volume dos params =
          .ok (readResult path slice bytes.length (B64.b64Encode bytes)) := by
  have hsize : slice.toRead ≤ content.length - slice.offset.toNat := by
    rw [← hslice]
    refine Nat.le_trans (sliceOf_toRead ..) (Nat.sub_le_sub_right ?_ _)
    split <;> omega
  unfold fsRead readFailure readCount
  simp only [bind, Except.bind, hpath]
  unfold readSlice
  rw [hfile, hopen]
  dsimp only
  rw [hslice, if_neg (Nat.not_lt.mpr hcap)]
  by_cases hseek : slice.offset > 0 ∧ slice.toRead > 0 ∧ dos.seeks = false
  · rw [if_pos hseek, if_pos hseek]
  by_cases halloc : dos.allocates = false
  · rw [if_neg hseek, if_neg hseek, if_pos halloc, if_pos halloc]
  rw [if_neg hseek, if_neg hseek, if_neg halloc, if_neg halloc]
  rcases Nat.eq_zero_or_pos slice.toRead with hzero | hpos
  · rw [hzero]
    by_cases henc : dos.encodes = false
    · simp [henc]
    · simp [henc]
  · rw [if_pos hpos]
    cases hreads : dos.reads with
    | none => simp [hpos]
    | some got =>
      have hlen : ((content.drop slice.offset.toNat).take (min got slice.toRead)).length =
          min got slice.toRead := by
        rw [List.length_take, List.length_drop]
        omega
      by_cases henc : dos.encodes = false
      · simp [henc]
      · simp only [henc, reduceCtorEq, and_false, if_false]
        exact ⟨_, hlen, rfl⟩

theorem length_response {p : CJson.Printer} (hp : p.Plain) (id : Option CJson) {volume : Volume}
    (dos : ReadDos) {params : Option CJson} (path : Bytes) {content : Bytes}
    (hpath : pStr params "path" = .ok path) (hfile : volume path = some content)
    (hopen : dos.opens = true) {slice : Slice}
    (hslice : sliceOf params (if dos.examines then content.length else 0) = slice)
    (hcap : slice.toRead ≤ fsReadMaxBytes) :
    (CJson.print p (envelope id (fsRead volume dos params))).length =
      responseSize p (id.getD .null) dos slice path := by
  have hread := fsRead_admitted hpath hfile hopen hslice hcap
  unfold responseSize
  cases hfail : readFailure dos slice path with
  | some err =>
    rw [hfail] at hread
    dsimp only at hread ⊢
    rw [hread, length_envelope hp]
  | none =>
    rw [hfail] at hread
    obtain ⟨bytes, hlen, heq⟩ := hread
    dsimp only
    rw [heq, length_envelope hp]
    dsimp only
    rw [length_readResult hp, hlen]
    omega

/-- An `fs.read` request that is admitted is answered exactly when the bytes it
reads, in groups of three that become four, and the rest of the response fit
into a frame. -/
theorem read_answered_iff (p : CJson.Printer) (hp : p.Plain) (methods : Methods) (volume : Volume)
    (dos : ReadDos) (hread : methods (ascii "fs.read") = some (fsRead volume dos))
    (members : List (Bytes × CJson))
    (hmethod : (CJson.object members).getItem (ascii "method") = some (.string (ascii "fs.read")))
    (params : Option CJson) (hparams : (CJson.object members).getItem (ascii "params") = params)
    (path content : Bytes) (hpath : pStr params "path" = .ok path)
    (hfile : volume path = some content) (hopen : dos.opens = true) (slice : Slice)
    (hslice : sliceOf params (if dos.examines then content.length else 0) = slice)
    (hcap : slice.toRead ≤ fsReadMaxBytes) (s : Sock)
    (hlive : s.Live (4 + (CJson.print p (rpcDispatch methods (some (.object members)))).length)) :
    (∃ s', serveRequest p methods (some (.object members)) s = some s' ∧
      s'.outgoing =
        s.outgoing ++ frame (CJson.print p (rpcDispatch methods (some (.object members))))) ↔
      responseSize p (((CJson.object members).getItem (ascii "id")).getD .null) dos slice path ≤
        mcpdFrameMaxPayload := by
  have hcall : callMethod methods (.object members) = fsRead volume dos params := by
    unfold callMethod
    rw [hmethod]
    dsimp only
    rw [hread, hparams]
  rw [serveRequest_answers hlive, rpcDispatch, hcall,
    length_response hp _ dos path hpath hfile hopen hslice hcap]

/-- A printer that does as cJSON does on whole numbers and on texts without
characters to escape. -/
def plainPrinter : CJson.Printer where
  number value := ((toString value.num).toList).map fun c => UInt8.ofNat c.toNat
  string text := CJson.quote :: (text ++ [CJson.quote])

/-- A request for all of the file at `RAM:data`. -/
def readRequest : List (Bytes × CJson) :=
  [(ascii "id", cNumber 7), (ascii "method", cString "fs.read"),
    (ascii "params", .object [(ascii "path", cString "RAM:data")])]

def onlyRead (volume : Volume) (dos : ReadDos) : Methods := fun name =>
  if name = ascii "fs.read" then some (fsRead volume dos) else none

/-- Five bytes are answered. -/
theorem read_answered_iff_sample :
    ∃ s', serveRequest plainPrinter (onlyRead (fun _ => some [1, 2, 3, 4, 5]) { reads := some 5 })
        (some (.object readRequest)) ⟨[], [], [], List.replicate 200 1⟩ = some s' ∧
      s'.outgoing = [] ++ frame (CJson.print plainPrinter (rpcDispatch
        (onlyRead (fun _ => some [1, 2, 3, 4, 5]) { reads := some 5 })
        (some (.object readRequest)))) :=
  (read_answered_iff plainPrinter (fun _ _ => rfl)
    (onlyRead (fun _ => some [1, 2, 3, 4, 5]) { reads := some 5 })
    (fun _ => some [1, 2, 3, 4, 5]) { reads := some 5 } rfl readRequest rfl _ rfl
    (ascii "RAM:data") [1, 2, 3, 4, 5] rfl rfl rfl ⟨0, 5, 5⟩ (by decide +kernel) (by decide)
    ⟨[], [], [], List.replicate 200 1⟩ ⟨by decide +kernel, by decide +kernel⟩).mpr
    (by decide +kernel)

/-- A file of exactly `fsReadMaxBytes` is admitted, and its response is larger
than a frame. -/
theorem dropped_whole {content : Bytes} (h : content.length = fsReadMaxBytes) (s : Sock) :
    (sliceOf ((CJson.object readRequest).getItem (ascii "params")) content.length).toRead ≤
      fsReadMaxBytes ∧
    serveRequest plainPrinter (onlyRead (fun _ => some content) { reads := some fsReadMaxBytes })
      (some (.object readRequest)) s = none := by
  have hslice : sliceOf ((CJson.object readRequest).getItem (ascii "params")) content.length =
      ⟨0, fsReadMaxBytes, fsReadMaxBytes⟩ := by
    rw [h]
    decide +kernel
  refine ⟨by rw [hslice], serveRequest_dropped ?_⟩
  have hcall : rpcDispatch (onlyRead (fun _ => some content) { reads := some fsReadMaxBytes })
      (some (.object readRequest)) = envelope ((CJson.object readRequest).getItem (ascii "id"))
        (fsRead (fun _ => some content) { reads := some fsReadMaxBytes }
          ((CJson.object readRequest).getItem (ascii "params"))) := rfl
  have hpath : pStr ((CJson.object readRequest).getItem (ascii "params")) "path" =
      .ok (ascii "RAM:data") := rfl
  have hcap : (Slice.mk 0 fsReadMaxBytes fsReadMaxBytes).toRead ≤ fsReadMaxBytes := Nat.le_refl _
  have hfile : (fun _ => some content : Volume) (ascii "RAM:data") = some content := rfl
  rw [hcall, length_response (fun _ _ => rfl) _ { reads := some fsReadMaxBytes } _ hpath hfile rfl
    hslice hcap]
  have hwhole : readFailure { reads := some fsReadMaxBytes }
      ⟨0, fsReadMaxBytes, fsReadMaxBytes⟩ (ascii "RAM:data") = none := rfl
  unfold responseSize
  rw [hwhole]
  dsimp only [readCount, Option.getD_some]
  unfold mcpdFrameMaxPayload fsReadMaxBytes
  omega

/-- The whole of a 32 MiB file is admitted, and the connection is dropped
instead of an answer. -/
theorem full_slice_dropped : ∃ content : Bytes,
    (sliceOf ((CJson.object readRequest).getItem (ascii "params")) content.length).toRead ≤
      fsReadMaxBytes ∧
    serveRequest plainPrinter (onlyRead (fun _ => some content) { reads := some fsReadMaxBytes })
      (some (.object readRequest)) ⟨[], [], [], List.replicate (2 ^ 26) 1⟩ = none :=
  ⟨List.replicate fsReadMaxBytes 0, dropped_whole (List.length_replicate ..) _⟩

end AmigaFleet.Mcpd.Fs

import AmigaFleet.Host.Transport
import AmigaFleet.Mcpd.Frame

/-!
# Frames between the host and the daemon

`_send_frame` and `_read_frame` of `transports/mcpd.py` against `frame_write`
and `frame_read` of `mcpd/src/frame.c`.  A `StreamReader` holds what has
arrived and the segments in which the rest arrives; where the segments are cut
has nothing to do with the frames.  The time limits of `_read_frame` are the
subject of `Transport` and do not run out here.

`frame_round_trip` says that either side reads what the other one wrote, and
that both stop at a bad header.
-/

namespace AmigaFleet.Host

open AmigaFleet.Lib
open AmigaFleet.Host.Transport (JsonRpcError internalError badLength badLengthError maxFrameBytes)
open AmigaFleet.Mcpd (ascii Sock mcpdFrameMaxPayload frameReads frameWrites frameReadAt)

/-! ## Streams -/

/-- The buffer of a `StreamReader`, and what arrives before the stream ends. -/
structure StreamReader where
  buffer : Bytes
  arriving : List Bytes
deriving DecidableEq, Repr

def StreamReader.bytes (r : StreamReader) : Bytes := r.buffer ++ r.arriving.flatten

/-- The exceptions of `_read_frame` and `_send_frame`. -/
inductive FrameError where
  | incompleteRead (got : Bytes) (expected : Nat)
  | jsonRpc (e : JsonRpcError)

/-- The loop of `StreamReader.readexactly`. -/
def readUntil (n : Nat) (buffer : Bytes) : List Bytes → Except FrameError Bytes × StreamReader
  | [] =>
    if buffer.length < n then (.error (.incompleteRead buffer n), ⟨[], []⟩)
    else (.ok (buffer.take n), ⟨buffer.drop n, []⟩)
  | segment :: arriving =>
    if buffer.length < n then readUntil n (buffer ++ segment) arriving
    else (.ok (buffer.take n), ⟨buffer.drop n, segment :: arriving⟩)

/-- `StreamReader.readexactly` -/
def StreamReader.readexactly (n : Nat) (r : StreamReader) : Except FrameError Bytes × StreamReader :=
  readUntil n r.buffer r.arriving

/-- `_read_frame` -/
def StreamReader.readFrame (r : StreamReader) : Except FrameError Bytes × StreamReader :=
  match r.readexactly 4 with
  | (.error e, r) => (.error e, r)
  | (.ok hdr, r) =>
    let n := be32 hdr
    if badLength n then (.error (.jsonRpc (badLengthError n)), r)
    else r.readexactly n

/-- `_send_frame`: what it hands to the stream. -/
def sendFrame (payload : Bytes) : Except FrameError Bytes :=
  if payload.length > maxFrameBytes then
    .error (.jsonRpc (internalError [ascii "frame too large: ", Json.intText payload.length]))
  else .ok (header payload.length ++ payload)

/-- One call of `_send_frame` for each payload. -/
def sendFrames : List Bytes → Except FrameError Bytes
  | [] => .ok []
  | payload :: payloads => do
    let first ← sendFrame payload
    let rest ← sendFrames payloads
    .ok (first ++ rest)

/-- The payloads of up to `n` calls of `_read_frame`, until one raises. -/
def StreamReader.readFrames : Nat → StreamReader → List Bytes
  | 0, _ => []
  | n + 1, r =>
    match r.readFrame with
    | (.error _, _) => []
    | (.ok payload, r) => payload :: r.readFrames n

/-! ## Reading and writing -/

theorem readUntil_eq (n : Nat) (buffer : Bytes) (arriving : List Bytes)
    (h : n ≤ (buffer ++ arriving.flatten).length) :
    ∃ r, readUntil n buffer arriving = (.ok ((buffer ++ arriving.flatten).take n), r) ∧
      r.bytes = (buffer ++ arriving.flatten).drop n := by
  induction arriving generalizing buffer with
  | nil =>
    rw [List.flatten_nil, List.append_nil] at h ⊢
    refine ⟨⟨buffer.drop n, []⟩, ?_, ?_⟩
    · rw [readUntil, if_neg (by omega)]
    · show buffer.drop n ++ [] = _
      rw [List.append_nil]
  | cons segment arriving ih =>
    rw [readUntil]
    by_cases hshort : buffer.length < n
    · rw [if_pos hshort]
      have hflat : buffer ++ (segment :: arriving).flatten =
          (buffer ++ segment) ++ arriving.flatten := by
        rw [List.flatten_cons, List.append_assoc]
      rw [hflat] at h ⊢
      exact ih (buffer ++ segment) h
    · rw [if_neg hshort]
      have hle : n ≤ buffer.length := Nat.le_of_not_lt hshort
      refine ⟨⟨buffer.drop n, segment :: arriving⟩, ?_, ?_⟩
      · rw [List.take_append_of_le_length hle]
      · rw [List.drop_append_of_le_length hle]
        rfl

/-- `readexactly` does not see where the segments are cut. -/
theorem readexactly_eq {n : Nat} {r : StreamReader} (h : n ≤ r.bytes.length) :
    ∃ r', r.readexactly n = (.ok (r.bytes.take n), r') ∧ r'.bytes = r.bytes.drop n :=
  readUntil_eq n r.buffer r.arriving h

theorem readexactly_short {n : Nat} {r : StreamReader} (h : r.bytes.length < n) :
    ∃ e r', r.readexactly n = (.error e, r') := by
  obtain ⟨buffer, arriving⟩ := r
  unfold StreamReader.bytes at h
  unfold StreamReader.readexactly
  dsimp only at h ⊢
  induction arriving generalizing buffer with
  | nil =>
    rw [List.flatten_nil, List.append_nil] at h
    exact ⟨_, _, by rw [readUntil, if_pos h]⟩
  | cons segment arriving ih =>
    rw [List.flatten_cons, ← List.append_assoc] at h
    have hshort : buffer.length < n := by
      simp only [List.length_append] at h
      omega
    rw [readUntil, if_pos hshort]
    exact ih (buffer ++ segment) h

/-- A header that announces nothing, or more than the cap, is the last thing
that is taken from the stream. -/
theorem readFrame_rejects {r : StreamReader} (hlen : 4 ≤ r.bytes.length)
    (hbad : badLength (be32 (r.bytes.take 4))) :
    ∃ r', r.readFrame = (.error (.jsonRpc (badLengthError (be32 (r.bytes.take 4)))), r') ∧
      r'.bytes = r.bytes.drop 4 := by
  obtain ⟨r', hread, hrest⟩ := readexactly_eq hlen
  refine ⟨r', ?_, hrest⟩
  unfold StreamReader.readFrame
  rw [hread]
  exact if_pos hbad

theorem readFrame_frame {r : StreamReader} {p rest : Bytes} (h : r.bytes = frame p ++ rest)
    (hp : Announced maxFrameBytes p) :
    ∃ r', r.readFrame = (.ok p, r') ∧ r'.bytes = rest := by
  obtain ⟨-, hhead, hbody⟩ := frames_cons_read (by decide) hp rest
  rw [← h] at hhead hbody
  have hlen : r.bytes.length = 4 + p.length + rest.length := by
    rw [h, List.length_append, frame_length]
  obtain ⟨r₁, hread, hrest⟩ := readexactly_eq (n := 4) (r := r) (by omega)
  have hlen₁ : p.length ≤ r₁.bytes.length := by
    rw [hrest, List.length_drop]
    omega
  obtain ⟨r₂, hread₂, hrest₂⟩ := readexactly_eq hlen₁
  rw [hrest, hbody, List.take_left] at hread₂
  rw [hrest, hbody, List.drop_left] at hrest₂
  refine ⟨r₂, ?_, hrest₂⟩
  have hgood : ¬ badLength p.length := by
    rintro (hzero | hbig)
    · exact absurd hp.1 (by omega)
    · exact absurd hp.2 (by omega)
  unfold StreamReader.readFrame
  rw [hread]
  dsimp only
  rw [hhead, if_neg hgood]
  exact hread₂

theorem readFrames_eq {payloads : List Bytes} {r : StreamReader} (h : r.bytes = frames payloads)
    (hall : ∀ p ∈ payloads, Announced maxFrameBytes p) (n : Nat) :
    r.readFrames n = payloads.take n := by
  induction n generalizing payloads r with
  | zero => rw [StreamReader.readFrames, List.take_zero]
  | succ n ih =>
    rw [StreamReader.readFrames]
    cases payloads with
    | nil =>
      -- the stream has ended
      have hzero : r.bytes.length < 4 := by
        rw [h]
        decide
      obtain ⟨e, r', hread⟩ := readexactly_short hzero
      have hnone : r.readFrame = (.error e, r') := by
        unfold StreamReader.readFrame
        rw [hread]
      rw [hnone]
      rfl
    | cons p ps =>
      obtain ⟨r', hread, hrest⟩ :=
        readFrame_frame (h.trans (frames_cons p ps)) (hall p (List.mem_cons_self ..))
      rw [hread]
      dsimp only
      rw [ih hrest fun q hq => hall q (List.mem_cons_of_mem _ hq), List.take_succ_cons]

theorem sendFrames_eq {payloads : List Bytes} (h : ∀ p ∈ payloads, p.length ≤ maxFrameBytes) :
    sendFrames payloads = .ok (frames payloads) := by
  induction payloads with
  | nil => rfl
  | cons p ps ih =>
    have hp := h p (List.mem_cons_self ..)
    have hfirst : sendFrame p = .ok (frame p) := if_neg (by omega)
    rw [sendFrames, hfirst, ih fun q hq => h q (List.mem_cons_of_mem _ hq)]
    rfl

/-! ## The round trip -/

/-- Whatever the segments and the sizes of the transfers, the daemon reads the
payloads that the host wrote, and the host those that the daemon wrote, which
succeeds as long as every `send` takes a byte.  A
length of zero or above the cap is refused on both sides with nothing taken
but the header. -/
theorem frame_round_trip :
    (∀ payloads : List Bytes, (∀ p ∈ payloads, Announced maxFrameBytes p) →
      (∃ wire, sendFrames payloads = .ok wire ∧
        ∀ s : Sock, s.incoming = wire → s.Feeds wire.length →
          ∀ n, frameReads n s = payloads.take n) ∧
      ∀ s : Sock, s.outgoing = [] →
        (s.Live (frames payloads).length → (frameWrites payloads s).1 = true) ∧
        ((frameWrites payloads s).1 = true → ∀ r : StreamReader,
          r.bytes = (frameWrites payloads s).2.outgoing → ∀ n, r.readFrames n = payloads.take n)) ∧
    ∀ wire : Bytes, 4 ≤ wire.length →
      be32 (wire.take 4) = 0 ∨ maxFrameBytes < be32 (wire.take 4) →
      (∀ s : Sock, s.incoming = wire →
        (frameReadAt s).1 = none ∧ ∃ k ≤ 4, (frameReadAt s).2.incoming = wire.drop k) ∧
      ∀ r : StreamReader, r.bytes = wire →
        ∃ r', r.readFrame = (.error (.jsonRpc (badLengthError (be32 (wire.take 4)))), r') ∧
          r'.bytes = wire.drop 4 := by
  constructor
  · intro payloads hall
    have hfits : ∀ p ∈ payloads, p.length ≤ maxFrameBytes := fun p hp => (hall p hp).2
    refine ⟨⟨frames payloads, sendFrames_eq hfits, fun s hin hfeeds n => ?_⟩, fun s hout => ?_⟩
    · exact Mcpd.frameReads_eq hin hall hfeeds n
    · refine ⟨Mcpd.frameWrites_live hfits, fun hsent r hr n => ?_⟩
      obtain ⟨part, -, hwire, hwhole⟩ := Mcpd.frameWrites_sent payloads s
      rw [hout, List.nil_append, hwhole hsent] at hwire
      exact readFrames_eq (hr.trans hwire) hall n
  · intro wire hlen hbad
    refine ⟨fun s hin => ?_, fun r hr => ?_⟩
    · rw [← hin] at hbad ⊢
      exact Mcpd.frameReadAt_rejects hbad
    · rw [← hr] at hlen hbad ⊢
      exact readFrame_rejects hlen hbad

/-- Two payloads each way.  The daemon's sends take three bytes, one, and then two at a time, and
the host gets them in other pieces. -/
theorem frame_round_trip_sample :
    (∃ wire, sendFrames [[7], [8, 9]] = .ok wire ∧
        ∀ s : Sock, s.incoming = wire → s.Feeds wire.length →
          ∀ n, frameReads n s = [[7], [8, 9]].take n) ∧
      (frameWrites [[7], [8, 9]] ⟨[], [], [], 3 :: 1 :: List.replicate 9 2⟩).1 = true ∧
      (∀ n, StreamReader.readFrames n ⟨[0, 0], [[0], [1, 7, 0, 0, 0], [2, 8], [9]]⟩ =
        [[7], [8, 9]].take n) ∧
      ∃ r', StreamReader.readFrame ⟨[0, 0], [[0], [0, 5]]⟩ =
          (.error (.jsonRpc (badLengthError 0)), r') ∧ r'.bytes = [5] := by
  obtain ⟨hto, hfrom⟩ := frame_round_trip.1 [[7], [8, 9]] (by decide)
  obtain ⟨hsends, hreads⟩ := hfrom ⟨[], [], [], 3 :: 1 :: List.replicate 9 2⟩ rfl
  have hsent := hsends ⟨by decide, by decide⟩
  exact ⟨hto, hsent, hreads hsent _ (by decide),
    (frame_round_trip.2 [0, 0, 0, 0, 5] (by decide) (by decide)).2 ⟨[0, 0], [[0], [0, 5]]⟩ rfl⟩

end AmigaFleet.Host

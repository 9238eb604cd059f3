import Mathlib.Algebra.Ring.Int.Defs
import Mathlib.Algebra.Ring.Nat
import Mathlib.Data.List.Basic

/-!
# Length-prefixed framing

One frame is a four-byte big-endian length followed by that many bytes.  The
module knows nothing of what the bytes mean.

* `header` and `be32` write and read the length; `be32_header` is their round
  trip below `2 ^ 32`.
* `frame` and `frames` put one payload, or a list of payloads, on the wire.
* `WholeFrames cap bytes` says that `bytes` is a sequence of complete frames,
  each payload between one byte and `cap` bytes.  A reader that has consumed
  such a byte string stands at a frame boundary.
-/

namespace AmigaFleet.Lib

/-- Bytes on a wire or in a file. -/
abbrev Bytes := List UInt8

/-! ## The length header -/

/-- The four header bytes of a length. -/
def header (n : Nat) : Bytes :=
  [UInt8.ofNat (n / 2 ^ 24), UInt8.ofNat (n / 2 ^ 16), UInt8.ofNat (n / 2 ^ 8), UInt8.ofNat n]

/-- The length that four header bytes announce. -/
def be32 : Bytes → Nat
  | [a, b, c, d] => a.toNat * 2 ^ 24 + b.toNat * 2 ^ 16 + c.toNat * 2 ^ 8 + d.toNat
  | _ => 0

@[simp] theorem header_length (n : Nat) : (header n).length = 4 := rfl

theorem be32_header {n : Nat} (h : n < 2 ^ 32) : be32 (header n) = n := by
  simp only [header, be32, UInt8.toNat_ofNat']
  omega

/-- Four bytes are the header of the length that they announce. -/
theorem header_be32 {hdr : Bytes} (h : hdr.length = 4) : header (be32 hdr) = hdr := by
  match hdr, h with
  | [a, b, c, d], _ =>
    have ha := a.toNat_lt
    have hb := b.toNat_lt
    have hc := c.toNat_lt
    have hd := d.toNat_lt
    simp only [header, be32, List.cons.injEq, and_true]
    refine ⟨?_, ?_, ?_, ?_⟩ <;> apply UInt8.toNat_inj.mp <;> rw [UInt8.toNat_ofNat'] <;> omega

/-! ## Frames -/

/-- One payload on the wire. -/
def frame (payload : Bytes) : Bytes := header payload.length ++ payload

/-- A list of payloads on the wire. -/
def frames (payloads : List Bytes) : Bytes := payloads.flatMap frame

@[simp] theorem frame_length (payload : Bytes) : (frame payload).length = 4 + payload.length := by
  simp [frame]

@[simp] theorem frames_nil : frames [] = [] := rfl

@[simp] theorem frames_cons (p : Bytes) (ps : List Bytes) :
    frames (p :: ps) = frame p ++ frames ps := rfl

@[simp] theorem frames_append (ps qs : List Bytes) : frames (ps ++ qs) = frames ps ++ frames qs := by
  simp [frames]

/-- A payload that a header may announce. -/
def Announced (cap : Nat) (payload : Bytes) : Prop := 0 < payload.length ∧ payload.length ≤ cap

instance (cap : Nat) (payload : Bytes) : Decidable (Announced cap payload) :=
  inferInstanceAs (Decidable (_ ∧ _))

/-- The bytes are a sequence of complete frames. -/
def WholeFrames (cap : Nat) (bytes : Bytes) : Prop :=
  ∃ payloads, (∀ p ∈ payloads, Announced cap p) ∧ bytes = frames payloads

/-- What the first frame of a non-empty sequence looks like to a reader: four
header bytes, then as many bytes as they announce. -/
theorem frames_cons_read {cap : Nat} (hcap : cap < 2 ^ 32) {p : Bytes} (hp : Announced cap p)
    (rest : Bytes) :
    (frame p ++ rest).take 4 = header p.length ∧
      be32 ((frame p ++ rest).take 4) = p.length ∧
      (frame p ++ rest).drop 4 = p ++ rest := by
  have htake : (frame p ++ rest).take 4 = header p.length := by
    simp [frame, List.append_assoc, List.take_left' (header_length p.length)]
  refine ⟨htake, ?_, ?_⟩
  · rw [htake]
    exact be32_header (Nat.lt_of_le_of_lt hp.2 hcap)
  · simp [frame, List.append_assoc, List.drop_left' (header_length p.length)]

/-- The first header of a sequence announces a frame that is there. -/
theorem WholeFrames.first {cap : Nat} (hcap : cap < 2 ^ 32) {bytes : Bytes}
    (h : WholeFrames cap bytes) (hne : bytes ≠ []) :
    0 < be32 (bytes.take 4) ∧ be32 (bytes.take 4) ≤ cap ∧
      4 + be32 (bytes.take 4) ≤ bytes.length := by
  obtain ⟨ps, hps, rfl⟩ := h
  cases ps with
  | nil => exact absurd rfl hne
  | cons p ps =>
    have hp := hps p (List.mem_cons_self ..)
    rw [frames_cons, (frames_cons_read hcap hp (frames ps)).2.1, List.length_append, frame_length]
    exact ⟨hp.1, hp.2, Nat.le_add_right ..⟩

/-- Whole frames at the start of a sequence are its first frames. -/
theorem prefix_of_frames_prefix {cap : Nat} (hcap : cap < 2 ^ 32) {ps qs : List Bytes}
    (hps : ∀ p ∈ ps, Announced cap p) (hqs : ∀ q ∈ qs, Announced cap q)
    (h : frames ps <+: frames qs) : ps <+: qs := by
  induction ps generalizing qs with
  | nil => exact List.nil_prefix
  | cons p ps ih =>
    have hp := hps p (List.mem_cons_self ..)
    cases qs with
    | nil =>
      have hnil := congrArg List.length (List.prefix_nil.mp h)
      rw [frames_cons, List.length_append, frame_length, List.length_nil] at hnil
      omega
    | cons q qs =>
      have hq := hqs q (List.mem_cons_self ..)
      obtain ⟨rest, hrest⟩ := h
      rw [frames_cons, frames_cons, List.append_assoc] at hrest
      have hlength : p.length = q.length := by
        have hbe := congrArg (fun bytes : Bytes => be32 (bytes.take 4)) hrest
        rwa [(frames_cons_read hcap hp _).2.1, (frames_cons_read hcap hq _).2.1] at hbe
      have hframe : (frame p).length = (frame q).length := by
        rw [frame_length, frame_length, hlength]
      obtain ⟨hsame, htail⟩ := List.append_inj hrest hframe
      have hpq : p = q := by
        have hdrop := congrArg (List.drop 4) hsame
        rwa [frame, frame, List.drop_left' (header_length _), List.drop_left' (header_length _)]
          at hdrop
      rw [hpq]
      refine List.cons_prefix_cons.mpr ⟨rfl, ih ?_ ?_ ⟨rest, htail⟩⟩
      · exact fun p' hp' => hps p' (List.mem_cons_of_mem _ hp')
      · exact fun q' hq' => hqs q' (List.mem_cons_of_mem _ hq')

end AmigaFleet.Lib

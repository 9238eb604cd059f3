import AmigaFleet.Lib.Framing

/-!
# Frames on a socket of the daemon

`mcpd/src/frame.c`.  A `Sock` holds the bytes that are still to come and the
bytes that have gone out.  `recv` and `send` may transfer less than they are
asked to: `grants` and `accepts` say how much each of their next calls
transfers, and a call that transfers nothing is an error.

`frameWrite_sent` says what `frame_write` has put out, also where a `send` fails on
the way, and `frameWrite_live` and `frameWrite_refused` when it does not fail on a
socket whose peer reads on.  `frameRead_live` is what `frame_read` does when the
frame has been sent.  `frameReads_eq`, `frameWrites_sent` and `frameWrites_live`
carry this to any number of frames, and `frameReadAt_rejects` says what a bad
header costs.
-/

namespace AmigaFleet.Mcpd

open AmigaFleet.Lib

/-- `MCPD_FRAME_MAX_PAYLOAD` -/
def mcpdFrameMaxPayload : Nat := 32 * 1024 * 1024

structure Sock where
  incoming : Bytes
  grants : List Nat
  outgoing : Bytes
  accepts : List Nat
deriving DecidableEq, Repr

/-- `read_n` with the results of `recv`; `none` is -1. -/
def readN (n : Nat) (incoming : Bytes) : List Nat → Option (Bytes × Bytes × List Nat)
  | [] => if n = 0 then some ([], incoming, []) else none
  | grant :: grants =>
    if n = 0 then some ([], incoming, grant :: grants)
    else
      let got := incoming.take (min grant n)
      if got = [] then none
      else
        (readN (n - got.length) (incoming.drop got.length) grants).map fun r => (got ++ r.1, r.2)

def Sock.read (n : Nat) (s : Sock) : Option (Bytes × Sock) :=
  (readN n s.incoming s.grants).map fun r => (r.1, { s with incoming := r.2.1, grants := r.2.2 })

/-- `write_n` with the results of `send`: whether it returns 0, the bytes that have gone out, and
the results that are left. -/
def writeN (buf : Bytes) : List Nat → Bool × Bytes × List Nat
  | [] => (buf = [], [], [])
  | accept :: accepts =>
    if buf = [] then (true, [], accept :: accepts)
    else
      let sent := buf.take accept
      if sent = [] then (false, [], accepts)
      else
        let r := writeN (buf.drop sent.length) accepts
        (r.1, sent ++ r.2.1, r.2.2)

def Sock.write (buf : Bytes) (s : Sock) : Bool × Sock :=
  let r := writeN buf s.accepts
  (r.1, { s with outgoing := s.outgoing ++ r.2.1, accepts := r.2.2 })

/-- `frame_read`; the allocation of the body succeeds. -/
def frameRead (s : Sock) : Option (Bytes × Sock) := do
  let (hdr, s) ← s.read 4
  let len := be32 hdr
  if len = 0 ∨ len > mcpdFrameMaxPayload then none
  else
    let (first, s) ← s.read 1
    let (rest, s) ← s.read (len - 1)
    some (first ++ rest, s)

/-- `frame_write`: whether it returns 0, and the socket. -/
def frameWrite (buf : Bytes) (s : Sock) : Bool × Sock :=
  if buf.length > mcpdFrameMaxPayload then (false, s)
  else
    match s.write (header buf.length) with
    | (false, s) => (false, s)
    | (true, s) => s.write buf

/-! ## What goes out -/

/-- The sends put out the buffer piece by piece, and all of it where none of them fails. -/
theorem writeN_sent (buf : Bytes) (accepts : List Nat) :
    (writeN buf accepts).2.1 <+: buf ∧
      ((writeN buf accepts).1 = true → (writeN buf accepts).2.1 = buf) := by
  induction accepts generalizing buf with
  | nil => exact ⟨List.nil_prefix, fun hall => (of_decide_eq_true hall).symm⟩
  | cons accept accepts ih =>
    rw [writeN]
    by_cases hnil : buf = []
    · subst hnil
      exact ⟨List.nil_prefix, fun _ => rfl⟩
    · rw [if_neg hnil]
      dsimp only
      split
      · exact ⟨List.nil_prefix, fun hfalse => by cases hfalse⟩
      · obtain ⟨hpart, hwhole⟩ := ih (buf.drop (buf.take accept).length)
        -- the piece that goes out, and what the next sends have to put out
        have hpiece : buf.take accept = buf.take (buf.take accept).length :=
          List.prefix_iff_eq_take.mp (List.take_prefix accept buf)
        have hsplit : buf.take accept ++ buf.drop (buf.take accept).length = buf :=
          (congrArg (· ++ _) hpiece).trans (List.take_append_drop ..)
        constructor
        · obtain ⟨rest, hrest⟩ := hpart
          refine ⟨rest, ?_⟩
          rw [List.append_assoc, hrest, hsplit]
        · intro hall
          rw [hwhole hall, hsplit]

theorem Sock.write_sent (buf : Bytes) (s : Sock) :
    ∃ part, part <+: buf ∧ (s.write buf).2.outgoing = s.outgoing ++ part ∧
      ((s.write buf).1 = true → part = buf) :=
  have hsent := writeN_sent buf s.accepts
  ⟨_, hsent.1, rfl, hsent.2⟩

/-- Whatever the sends do, a beginning of the frame goes out, and the whole frame where
`frame_write` returns 0. -/
theorem frameWrite_sent (buf : Bytes) (s : Sock) :
    ∃ part, part <+: frame buf ∧ (frameWrite buf s).2.outgoing = s.outgoing ++ part ∧
      ((frameWrite buf s).1 = true → part = frame buf) := by
  unfold frameWrite
  split
  · exact ⟨[], List.nil_prefix, (List.append_nil _).symm, fun hfalse => by cases hfalse⟩
  · obtain ⟨head, hhead, hout, hwhole⟩ := s.write_sent (header buf.length)
    rcases hfirst : s.write (header buf.length) with ⟨_ | _, s₁⟩
    · rw [hfirst] at hout
      refine ⟨head, hhead.trans (List.prefix_append _ _), hout, fun hfalse => by cases hfalse⟩
    · rw [hfirst] at hout hwhole
      dsimp only at hout ⊢
      obtain rfl := hwhole rfl
      obtain ⟨body, hbody, hout', hwhole'⟩ := s₁.write_sent buf
      refine ⟨header buf.length ++ body, ?_, ?_, fun hall => ?_⟩
      · exact (List.prefix_append_right_inj _).mpr hbody
      · rw [hout', hout, List.append_assoc]
      · rw [hwhole' hall]
        rfl

/-! ## Writing to a peer that reads on -/

/-- The peer goes on taking at least one byte a call, for `n` calls. -/
structure Sock.Live (s : Sock) (n : Nat) : Prop where
  pos : ∀ a ∈ s.accepts, 0 < a
  enough : n ≤ s.accepts.length

theorem writeN_live {buf : Bytes} {accepts : List Nat} (hpos : ∀ a ∈ accepts, 0 < a)
    (hlen : buf.length ≤ accepts.length) :
    (writeN buf accepts).1 = true ∧ (∀ a ∈ (writeN buf accepts).2.2, 0 < a) ∧
      accepts.length ≤ (writeN buf accepts).2.2.length + buf.length := by
  induction accepts generalizing buf with
  | nil =>
    have hnil : buf = [] := List.length_eq_zero_iff.mp (by simpa using hlen)
    subst hnil
    exact ⟨rfl, hpos, by simp⟩
  | cons accept accepts ih =>
    have hrest : ∀ a ∈ accepts, 0 < a := fun a ha => hpos a (List.mem_cons_of_mem _ ha)
    have haccept := hpos accept (List.mem_cons_self ..)
    rw [writeN]
    by_cases hnil : buf = []
    · subst hnil
      exact ⟨rfl, hpos, by simp⟩
    · have hbuf : 0 < buf.length := List.length_pos_iff.mpr hnil
      have hsent : 0 < (buf.take accept).length := by
        rw [List.length_take]
        omega
      rw [List.length_cons] at hlen
      rw [if_neg hnil]
      dsimp only
      rw [if_neg (List.length_pos_iff.mp hsent)]
      have hdrop : (buf.drop (buf.take accept).length).length ≤ accepts.length := by
        rw [List.length_drop]
        omega
      obtain ⟨hall, hr, hl⟩ := ih hrest hdrop
      rw [List.length_drop] at hl
      refine ⟨hall, hr, ?_⟩
      dsimp only
      rw [List.length_cons]
      omega

theorem Sock.Live.write {s : Sock} {n : Nat} {buf : Bytes} (h : s.Live (buf.length + n)) :
    (s.write buf).1 = true ∧ (s.write buf).2.Live n := by
  have henough := h.enough
  have hbuf : buf.length ≤ s.accepts.length := by omega
  obtain ⟨hall, hpos, hlen⟩ := writeN_live h.pos hbuf
  refine ⟨hall, hpos, ?_⟩
  show n ≤ (writeN buf s.accepts).2.2.length
  omega

theorem Sock.Live.frameWrite {s : Sock} {buf : Bytes} {n : Nat}
    (hlive : s.Live (4 + (buf.length + n))) (hfits : buf.length ≤ mcpdFrameMaxPayload) :
    (Mcpd.frameWrite buf s).1 = true ∧ (Mcpd.frameWrite buf s).2.Live n := by
  have hhead : s.Live ((header buf.length).length + (buf.length + n)) := hlive
  obtain ⟨hfirst, hlive₁⟩ := hhead.write
  unfold Mcpd.frameWrite
  rw [if_neg (by omega)]
  rcases hwrite : s.write (header buf.length) with ⟨_ | _, s₁⟩
  · rw [hwrite] at hfirst
    cases hfirst
  · rw [hwrite] at hlive₁
    exact Sock.Live.write hlive₁

/-- A frame that fits goes out whole. -/
theorem frameWrite_live {s : Sock} {buf : Bytes} (hlive : s.Live (4 + buf.length))
    (hfits : buf.length ≤ mcpdFrameMaxPayload) :
    (frameWrite buf s).1 = true ∧ (frameWrite buf s).2.outgoing = s.outgoing ++ frame buf := by
  obtain ⟨hall, -⟩ := Sock.Live.frameWrite (n := 0) hlive hfits
  obtain ⟨part, -, hout, hwhole⟩ := frameWrite_sent buf s
  exact ⟨hall, hwhole hall ▸ hout⟩

/-- A frame that does not fit is refused. -/
theorem frameWrite_refused {s : Sock} {buf : Bytes} (h : mcpdFrameMaxPayload < buf.length) :
    frameWrite buf s = (false, s) := if_pos h

/-! ## Reading from a peer that has sent -/

/-- Each of the next `n` calls of `recv` yields at least one byte. -/
structure Sock.Feeds (s : Sock) (n : Nat) : Prop where
  pos : ∀ g ∈ s.grants, 0 < g
  enough : n ≤ s.grants.length

theorem readN_live {n : Nat} {incoming : Bytes} {grants : List Nat} (hpos : ∀ g ∈ grants, 0 < g)
    (hlen : n ≤ grants.length) (hin : n ≤ incoming.length) :
    ∃ rest, readN n incoming grants = some (incoming.take n, incoming.drop n, rest) ∧
      (∀ g ∈ rest, 0 < g) ∧ grants.length ≤ rest.length + n := by
  induction grants generalizing n incoming with
  | nil =>
    have hzero : n = 0 := by simpa using hlen
    subst hzero
    exact ⟨[], rfl, hpos, Nat.le_refl 0⟩
  | cons grant grants ih =>
    have hgrant := hpos grant (List.mem_cons_self ..)
    have hrest : ∀ g ∈ grants, 0 < g := fun g hg => hpos g (List.mem_cons_of_mem _ hg)
    rw [readN]
    by_cases hzero : n = 0
    · subst hzero
      exact ⟨_, if_pos rfl, hpos, Nat.le_refl _⟩
    · rw [if_neg hzero]
      dsimp only
      have hgot : (incoming.take (min grant n)).length = min grant n :=
        List.length_take_of_le (by omega)
      have hsome : incoming.take (min grant n) ≠ [] := by
        apply List.length_pos_iff.mp
        omega
      rw [if_neg hsome, hgot]
      rw [List.length_cons] at hlen
      have hleft : n - min grant n ≤ (incoming.drop (min grant n)).length := by
        rw [List.length_drop]
        omega
      obtain ⟨rest, heq, hr, hl⟩ := ih hrest (by omega) hleft
      refine ⟨rest, ?_, hr, ?_⟩
      · have htake : incoming.take (min grant n) ++
            (incoming.drop (min grant n)).take (n - min grant n) = incoming.take n := by
          rw [← List.take_add]
          congr 1
          omega
        have hdrop : (incoming.drop (min grant n)).drop (n - min grant n) = incoming.drop n := by
          rw [List.drop_drop]
          congr 1
          omega
        rw [heq, Option.map_some, htake, hdrop]
      · rw [List.length_cons]
        omega

theorem Sock.Feeds.read {s : Sock} (n m : Nat) (h : s.Feeds (n + m))
    (hin : n ≤ s.incoming.length) :
    ∃ s', s.read n = some (s.incoming.take n, s') ∧ s'.incoming = s.incoming.drop n ∧
      s'.Feeds m := by
  have henough := h.enough
  have hn : n ≤ s.grants.length := by omega
  obtain ⟨rest, heq, hpos, hlen⟩ := readN_live h.pos hn hin
  refine ⟨{ s with incoming := s.incoming.drop n, grants := rest }, ?_, rfl, hpos, ?_⟩
  · rw [Sock.read, heq]
    rfl
  · show m ≤ rest.length
    omega

theorem Sock.Feeds.frameRead {s : Sock} {buf rest : Bytes} {m : Nat}
    (hlive : s.Feeds (4 + (buf.length + m))) (hin : s.incoming = frame buf ++ rest)
    (hannounced : Announced mcpdFrameMaxPayload buf) :
    ∃ s', Mcpd.frameRead s = some (buf, s') ∧ s'.incoming = rest ∧ s'.Feeds m := by
  obtain ⟨hpos, hfits⟩ := hannounced
  obtain ⟨hhead, hlen, hbody⟩ := frames_cons_read (by decide) ⟨hpos, hfits⟩ rest
  rw [← hin] at hhead hlen hbody
  have htotal : s.incoming.length = 4 + buf.length + rest.length := by
    rw [hin, List.length_append, frame_length]
  obtain ⟨k, hk⟩ : ∃ k, buf.length = 1 + k := ⟨buf.length - 1, by omega⟩
  rw [hk, Nat.add_assoc] at hlive
  obtain ⟨s₁, h₁, hin₁, hlive₁⟩ := hlive.read 4 (1 + (k + m)) (by omega)
  rw [hbody] at hin₁
  have hlen₁ : s₁.incoming.length = 1 + k + rest.length := by
    rw [hin₁, List.length_append, hk]
  obtain ⟨s₂, h₂, hin₂, hlive₂⟩ := hlive₁.read 1 (k + m) (by omega)
  have hlen₂ : s₂.incoming.length = k + rest.length := by
    rw [hin₂, List.length_drop]
    omega
  obtain ⟨s₃, h₃, hin₃, hlive₃⟩ := hlive₂.read k m (by omega)
  refine ⟨s₃, ?_, ?_, hlive₃⟩
  · have hwhole : s₁.incoming.take 1 ++ s₂.incoming.take k = buf := by
      rw [hin₂, ← List.take_add, ← hk, hin₁, List.take_left]
    unfold Mcpd.frameRead
    rw [h₁]
    simp only [bind, Option.bind, hlen]
    rw [if_neg (by omega), h₂, show buf.length - 1 = k by omega]
    dsimp only
    rw [h₃]
    dsimp only
    rw [hwhole]
  · rw [hin₃, hin₂, hin₁, List.drop_drop, ← hk, List.drop_left]

/-- The daemon reads a frame that has arrived whole, unless its length is 0 or
above the cap. -/
theorem frameRead_live {s : Sock} {buf rest : Bytes} (hin : s.incoming = frame buf ++ rest)
    (hlive : s.Feeds (4 + buf.length)) (hpos : 0 < buf.length)
    (hfits : buf.length ≤ mcpdFrameMaxPayload) :
    ∃ s', frameRead s = some (buf, s') ∧ s'.incoming = rest := by
  obtain ⟨s', hs', hrest, -⟩ := Sock.Feeds.frameRead (m := 0) hlive hin ⟨hpos, hfits⟩
  exact ⟨s', hs', hrest⟩

/-! ## What a failed read leaves -/

/-- `read_n`, with what it leaves on the socket also when it fails. -/
def readNAt (n : Nat) (incoming : Bytes) : List Nat → Option Bytes × Bytes × List Nat
  | [] => (if n = 0 then some [] else none, incoming, [])
  | grant :: grants =>
    if n = 0 then (some [], incoming, grant :: grants)
    else
      let got := incoming.take (min grant n)
      if got = [] then (none, incoming, grants)
      else
        let r := readNAt (n - got.length) (incoming.drop got.length) grants
        (r.1.map (got ++ ·), r.2)

def Sock.readAt (n : Nat) (s : Sock) : Option Bytes × Sock :=
  let r := readNAt n s.incoming s.grants
  (r.1, { s with incoming := r.2.1, grants := r.2.2 })

/-- `frame_read`, with what it leaves on the socket also when it fails. -/
def frameReadAt (s : Sock) : Option Bytes × Sock :=
  match s.readAt 4 with
  | (none, s) => (none, s)
  | (some hdr, s) =>
    let len := be32 hdr
    if len = 0 ∨ len > mcpdFrameMaxPayload then (none, s)
    else
      match s.readAt 1 with
      | (none, s) => (none, s)
      | (some first, s) =>
        match s.readAt (len - 1) with
        | (none, s) => (none, s)
        | (some rest, s) => (some (first ++ rest), s)

theorem readN_eq (n : Nat) (incoming : Bytes) (grants : List Nat) :
    readN n incoming grants =
      (readNAt n incoming grants).1.map fun b => (b, (readNAt n incoming grants).2) := by
  induction grants generalizing n incoming with
  | nil =>
    rw [readN, readNAt]
    split <;> rfl
  | cons grant grants ih =>
    rw [readN, readNAt]
    split
    · rfl
    · dsimp only
      split
      · rfl
      · rw [ih, Option.map_map, Option.map_map]
        rfl

theorem Sock.read_eq (n : Nat) (s : Sock) :
    s.read n = (s.readAt n).1.map fun b => (b, (s.readAt n).2) := by
  rw [Sock.read, readN_eq, Option.map_map]
  rfl

/-- `frameReadAt` tells more about the failures of `frameRead`, and the same
about the rest. -/
theorem frameRead_eq (s : Sock) :
    frameRead s = (frameReadAt s).1.map fun b => (b, (frameReadAt s).2) := by
  unfold frameRead frameReadAt
  simp only [bind, Option.bind, Sock.read_eq]
  rcases s.readAt 4 with ⟨_ | hdr, s₁⟩
  · rfl
  · simp only [Option.map_some]
    split
    · rfl
    · rcases s₁.readAt 1 with ⟨_ | first, s₂⟩
      · rfl
      · simp only [Option.map_some]
        rcases s₂.readAt (be32 hdr - 1) with ⟨_ | rest, s₃⟩ <;> rfl

/-- `read_n` takes no more than it is asked for. -/
theorem readNAt_leaves (n : Nat) (incoming : Bytes) (grants : List Nat) :
    ∃ k ≤ n, (readNAt n incoming grants).2.1 = incoming.drop k ∧
      ∀ b, (readNAt n incoming grants).1 = some b → k = n ∧ b = incoming.take n := by
  induction grants generalizing n incoming with
  | nil =>
    refine ⟨0, Nat.zero_le n, rfl, fun b hb => ?_⟩
    rw [readNAt] at hb
    dsimp only at hb
    split at hb
    · rename_i hzero
      cases hb
      rw [hzero]
      exact ⟨rfl, rfl⟩
    · cases hb
  | cons grant grants ih =>
    rw [readNAt]
    split
    · rename_i hzero
      refine ⟨0, Nat.zero_le n, rfl, fun b hb => ?_⟩
      cases hb
      rw [hzero]
      exact ⟨rfl, rfl⟩
    · dsimp only
      split
      · exact ⟨0, Nat.zero_le n, rfl, fun b hb => (nomatch hb)⟩
      · have hgot : (incoming.take (min grant n)).length ≤ n :=
          Nat.le_trans (List.length_take_le _ _) (Nat.min_le_right ..)
        obtain ⟨k, hk, hleft, hread⟩ :=
          ih (n - (incoming.take (min grant n)).length)
            (incoming.drop (incoming.take (min grant n)).length)
        generalize hlen : (incoming.take (min grant n)).length = m at hgot hk hleft hread
        refine ⟨m + k, by omega, ?_, fun b hb => ?_⟩
        · rw [hleft, List.drop_drop]
        · obtain ⟨b', hb', rfl⟩ := Option.map_eq_some_iff.mp hb
          obtain ⟨rfl, rfl⟩ := hread b' hb'
          have htake : incoming.take (min grant n) = incoming.take m := by
            rw [← hlen, List.length_take, ← List.take_eq_take_min]
          refine ⟨by omega, ?_⟩
          rw [htake, ← List.take_add]
          congr 1
          omega

/-- A header that announces nothing, or more than the cap, is the last thing
that is taken from the socket. -/
theorem frameReadAt_rejects {s : Sock}
    (hbad : be32 (s.incoming.take 4) = 0 ∨ be32 (s.incoming.take 4) > mcpdFrameMaxPayload) :
    (frameReadAt s).1 = none ∧ ∃ k ≤ 4, (frameReadAt s).2.incoming = s.incoming.drop k := by
  obtain ⟨k, hk, hleft, hread⟩ := readNAt_leaves 4 s.incoming s.grants
  have hleft' : (s.readAt 4).2.incoming = s.incoming.drop k := hleft
  have hread' : ∀ b, (s.readAt 4).1 = some b → k = 4 ∧ b = s.incoming.take 4 := hread
  unfold frameReadAt
  generalize s.readAt 4 = first at hleft' hread' ⊢
  rcases first with ⟨_ | hdr, s₁⟩
  · exact ⟨rfl, k, hk, hleft'⟩
  · obtain ⟨-, rfl⟩ := hread' hdr rfl
    dsimp only
    rw [if_pos hbad]
    exact ⟨rfl, k, hk, hleft'⟩

/-! ## Many frames -/

/-- The payloads of up to `n` calls of `frame_read`, until one fails. -/
def frameReads : Nat → Sock → List Bytes
  | 0, _ => []
  | n + 1, s =>
    match frameRead s with
    | none => []
    | some (payload, s) => payload :: frameReads n s

/-- One call of `frame_write` for each payload, until one fails. -/
def frameWrites : List Bytes → Sock → Bool × Sock
  | [], s => (true, s)
  | payload :: payloads, s =>
    match frameWrite payload s with
    | (false, s) => (false, s)
    | (true, s) => frameWrites payloads s

theorem length_frames_cons (p : Bytes) (ps : List Bytes) (n : Nat) :
    (frames (p :: ps)).length + n = 4 + (p.length + ((frames ps).length + n)) := by
  rw [frames_cons, List.length_append, frame_length]
  omega

theorem frameReads_eq {payloads : List Bytes} {s : Sock} (hin : s.incoming = frames payloads)
    (hall : ∀ p ∈ payloads, Announced mcpdFrameMaxPayload p)
    (hfeeds : s.Feeds (frames payloads).length) (n : Nat) :
    frameReads n s = payloads.take n := by
  induction n generalizing payloads s with
  | zero => rw [frameReads, List.take_zero]
  | succ n ih =>
    rw [frameReads]
    cases payloads with
    | nil =>
      -- nothing more comes
      have hnone : frameRead s = none := by
        have hread : s.read 4 = none := by
          rw [Sock.read, hin]
          cases s.grants with
          | nil => rfl
          | cons grant grants => simp [readN]
        rw [frameRead, hread]
        rfl
      rw [hnone]
      rfl
    | cons p ps =>
      have hfeeds' : s.Feeds (4 + (p.length + (frames ps).length)) := by
        rw [← Nat.add_zero (frames (p :: ps)).length, length_frames_cons] at hfeeds
        exact hfeeds
      obtain ⟨s', hs', hrest, hmore⟩ :=
        hfeeds'.frameRead (hin.trans (frames_cons p ps)) (hall p (List.mem_cons_self ..))
      rw [hs']
      dsimp only
      rw [ih hrest (fun q hq => hall q (List.mem_cons_of_mem _ hq)) hmore, List.take_succ_cons]

/-- Whatever the sends do, the frames go out in order, and all of them where no call fails. -/
theorem frameWrites_sent (payloads : List Bytes) (s : Sock) :
    ∃ part, part <+: frames payloads ∧
      (frameWrites payloads s).2.outgoing = s.outgoing ++ part ∧
      ((frameWrites payloads s).1 = true → part = frames payloads) := by
  induction payloads generalizing s with
  | nil => exact ⟨[], List.prefix_refl _, (List.append_nil _).symm, fun _ => rfl⟩
  | cons p ps ih =>
    obtain ⟨first, hfirst, hout, hwhole⟩ := frameWrite_sent p s
    rw [frameWrites, frames_cons]
    rcases hwrite : frameWrite p s with ⟨_ | _, s₁⟩
    · rw [hwrite] at hout
      exact ⟨first, hfirst.trans (List.prefix_append _ _), hout, fun hfalse => by cases hfalse⟩
    · rw [hwrite] at hout hwhole
      dsimp only at hout ⊢
      obtain rfl := hwhole rfl
      obtain ⟨rest, hrest, hout', hwhole'⟩ := ih s₁
      refine ⟨frame p ++ rest, (List.prefix_append_right_inj _).mpr hrest, ?_, fun hall => ?_⟩
      · rw [hout', hout, List.append_assoc]
      · rw [hwhole' hall]

theorem frameWrites_live {payloads : List Bytes} {s : Sock}
    (hall : ∀ p ∈ payloads, p.length ≤ mcpdFrameMaxPayload)
    (hlive : s.Live (frames payloads).length) : (frameWrites payloads s).1 = true := by
  induction payloads generalizing s with
  | nil => rfl
  | cons p ps ih =>
    rw [← Nat.add_zero (frames (p :: ps)).length, length_frames_cons] at hlive
    obtain ⟨hfirst, hlive₁⟩ := hlive.frameWrite (hall p (List.mem_cons_self ..))
    rw [frameWrites]
    rcases hwrite : frameWrite p s with ⟨_ | _, s₁⟩
    · rw [hwrite] at hfirst
      cases hfirst
    · rw [hwrite] at hlive₁
      exact ih (fun q hq => hall q (List.mem_cons_of_mem _ hq)) hlive₁

end AmigaFleet.Mcpd

import AmigaFleet.Host.PyBase64
import AmigaFleet.Host.SerialCapture
import AmigaFleet.Lib.Base64
import AmigaFleet.Lib.Follow

/-!
# Reading a serial log while it is captured

The calls of `tools/serial.py` on one channel: `serial_read`, `serial_tail` and
`serial_clear`, and clients that follow the log by the `next_offset` of what they are
given.  The capture goes on between the calls, as in `SerialCapture`; while a `stop`
waits, no other call runs.

A log that is removed begins again at its start, and `next_offset` does not tell.
`Sys.removals` is not in the source: it counts how often that has happened.

* `log_step`: a step of the capture adds to the log, or removes it.
* `polls_follow`: what a client has got, in every run.
* `polls_misled`: a log that is cleared, and a negative offset.
-/

namespace AmigaFleet.Host.SerialPolling

open AmigaFleet.Lib
open SerialCapture (State Act Move Reader StartEnv)

/-! ## The calls -/

/-- `SerialCapture.read_at` -/
def readAt (s : State) (offset maxBytes : Int) : Bytes :=
  match s.log with
  | none => []
  | some content => (content.drop offset.toNat).take maxBytes.toNat

/-- `SerialCapture.file_size` -/
def fileSize (s : State) : Nat := (s.log.getD []).length

/-- The check of `max_bytes`, with the default of the call. -/
def checkedMax (default maxBytes : Int) : Int :=
  if maxBytes ≤ 0 ∨ maxBytes > 4 * 1024 * 1024 then default else maxBytes

/-- `SerialReadResult`, less the names. -/
structure SerialReadResult where
  bytesB64 : Bytes
  offset : Int
  nextOffset : Int
  fileSize : Nat
  running : Bool
deriving DecidableEq, Repr

/-- `serial_read` -/
def serialRead (s : State) (offset maxBytes : Int) : SerialReadResult :=
  let data := readAt s offset (checkedMax 65536 maxBytes)
  { bytesB64 := Base64.encode data
    offset := offset
    nextOffset := offset + data.length
    fileSize := fileSize s
    running := s.running }

/-- `serial_tail` -/
def serialTail (s : State) (maxBytes : Int) : SerialReadResult :=
  let maxBytes := checkedMax 8192 maxBytes
  let start := max 0 (fileSize s - maxBytes)
  let data := readAt s start maxBytes
  { bytesB64 := Base64.encode data
    offset := start
    nextOffset := start + data.length
    fileSize := fileSize s
    running := s.running }

/-- `serial_clear`; it raises where the capture runs, and where `unlink` does. -/
def serialClear (s : State) (unlink : Bool) : State :=
  if s.running then s
  else if s.log.isSome then
    if unlink then { s.unlinkLog with total := 0 } else s
  else { s with total := 0 }

/-! ## Clients -/

/-- A client that follows the log. -/
structure Poller where
  /-- where it has begun -/
  first : Int
  /-- the `next_offset` of its last answer -/
  next : Int
  /-- what it has been given -/
  got : Bytes := []
  /-- how often the log had been removed when it began -/
  removals : Nat
deriving DecidableEq, Repr

structure Sys where
  capture : State
  removals : Nat := 0
  pollers : List Poller := []
deriving DecidableEq, Repr

/-- A new capture, and the log that it finds. -/
def boot (log : Option Bytes) : Sys := ⟨SerialCapture.init log, 0, []⟩

inductive Label where
  /-- the capture: `serial_start`, `serial_stop` and the threads -/
  | capture (a : Act)
  | clear (unlink : Bool)
  /-- a client begins at an offset of its own -/
  | follow (offset : Int)
  /-- a client begins with what `serial_tail` gives -/
  | tail (maxBytes : Int)
  | read (i : Nat) (maxBytes : Int)
deriving DecidableEq, Repr

/-- The client decodes what it is given, and goes on behind it. -/
def Poller.take (p : Poller) (r : SerialReadResult) : Poller :=
  { p with next := r.nextOffset, got := p.got ++ (PyBase64.b64decode r.bytesB64).getD [] }

/-- The log was there, and is not any more. -/
def removed (s t : State) : Bool := s.log.isSome && t.log.isNone

def Sys.moved (s : Sys) (capture : State) : Sys :=
  { s with
    capture := capture
    removals := if removed s.capture capture then s.removals + 1 else s.removals }

/-- A call that only reads runs while no `stop` waits. -/
def reading (s : Sys) (pollers : List Poller) : Option Sys :=
  if s.capture.joining then none else some { s with pollers := pollers }

def step (s : Sys) : Label → Option Sys
  | .capture a => (SerialCapture.step s.capture a).map s.moved
  | .clear unlink =>
    if s.capture.joining then none else some (s.moved (serialClear s.capture unlink))
  | .follow offset =>
    some { s with pollers := s.pollers ++ [⟨offset, offset, [], s.removals⟩] }
  | .tail maxBytes =>
    let r := serialTail s.capture maxBytes
    reading s (s.pollers ++ [Poller.take ⟨r.offset, r.offset, [], s.removals⟩ r])
  | .read i maxBytes => do
    let p ← s.pollers[i]?
    reading s (s.pollers.set i (p.take (serialRead s.capture p.next maxBytes)))

/-! ## The log under a step -/

/-- The log is removed, or something is added to it. -/
def Grows (s t : State) : Prop := removed s t = true ∨ s.log.getD [] <+: t.log.getD []

theorem grows_of_eq {s t : State} (h : t.log = s.log) : Grows s t :=
  .inr ⟨[], by rw [List.append_nil, h]⟩

theorem grows_unlink {s t : State} (h : s.log.isSome = true) (ht : t.log = none) : Grows s t :=
  .inl (by simp [removed, h, ht])

theorem openPort_log (s : State) (before : Option Bytes) (removed : Bool) (env : StartEnv) :
    (SerialCapture.openPort s before removed env).1.log = s.log := by
  unfold SerialCapture.openPort
  split_ifs <;> rfl

theorem start_grows (s : State) (truncate : Bool) (env : StartEnv) :
    Grows s (SerialCapture.start s truncate env).1 := by
  unfold SerialCapture.start
  dsimp only
  split_ifs with _ _ hlog
  · exact grows_of_eq rfl
  · exact grows_of_eq rfl
  · exact grows_of_eq rfl
  · exact grows_unlink hlog.2 (openPort_log ..)
  · exact grows_of_eq (openPort_log ..)

theorem write_grows (s t : State) (r : Reader) (data : Bytes) (h : t.log = (s.write r data).log) :
    Grows s t := by
  refine .inr ?_
  rw [h]
  unfold State.write
  split
  · cases hlog : s.log with
    | none => simp
    | some content => simp
  · exact List.prefix_refl _

theorem move_grows {s t : State} {i : Nat} {r : Reader} {m : Move}
    (h : SerialCapture.move s i r m = some t) : Grows s t := by
  cases m with
  | opens ok =>
    simp only [SerialCapture.move] at h
    split_ifs at h
    · cases h
      exact grows_of_eq rfl
    · cases h
      exact grows_of_eq rfl
    · cases h
      exact .inr (List.prefix_refl _)
  | tests =>
    simp only [SerialCapture.move] at h
    split_ifs at h
    · cases h
      exact grows_of_eq rfl
    · cases h
      exact grows_of_eq rfl
  | reads data =>
    obtain ⟨-, heq⟩ := Option.ite_none_right_eq_some.mp h
    cases heq
    exact write_grows s _ r data rfl
  | fails error =>
    obtain ⟨-, heq⟩ := Option.ite_none_right_eq_some.mp h
    cases heq
    exact grows_of_eq rfl
  | writeRaises written =>
    obtain ⟨-, heq⟩ := Option.ite_none_right_eq_some.mp h
    cases heq
    exact write_grows s _ r written rfl

theorem stop_log (s : State) : (SerialCapture.stop s).log = s.log := by
  unfold SerialCapture.stop
  split <;> rfl

theorem log_step {s t : State} {a : Act} (h : SerialCapture.step s a = some t) : Grows s t := by
  cases a with
  | start truncate env =>
    obtain ⟨-, heq⟩ := Option.ite_none_left_eq_some.mp h
    cases heq
    exact start_grows s truncate env
  | stop =>
    obtain ⟨-, heq⟩ := Option.ite_none_left_eq_some.mp h
    cases heq
    exact grows_of_eq (stop_log s)
  | joined =>
    obtain ⟨-, heq⟩ := Option.ite_none_right_eq_some.mp h
    cases heq
    exact grows_of_eq rfl
  | timedOut =>
    obtain ⟨-, heq⟩ := Option.ite_none_right_eq_some.mp h
    cases heq
    exact grows_of_eq rfl
  | thread i m =>
    obtain ⟨r, -, hmove⟩ := Option.bind_eq_some_iff.mp h
    exact move_grows hmove

theorem clear_grows (s : State) (unlink : Bool) : Grows s (serialClear s unlink) := by
  unfold serialClear
  split_ifs with _ hlog
  · exact grows_of_eq rfl
  · exact grows_unlink hlog rfl
  · exact grows_of_eq rfl
  · exact grows_of_eq rfl

/-! ## What the clients have got -/

/-- The client has begun at an offset, and since the log was last removed. -/
def Sys.Current (s : Sys) (p : Poller) : Prop := p.removals = s.removals ∧ 0 ≤ p.first

structure Kept (s : Sys) (p : Poller) : Prop where
  began : p.removals ≤ s.removals
  offset : 0 ≤ p.first → 0 ≤ p.next
  follows : s.Current p →
    Follows (s.capture.log.getD []) p.first.toNat p.next.toNat p.got

def Inv (s : Sys) : Prop := ∀ p ∈ s.pollers, Kept s p

theorem boot_inv (log : Option Bytes) : Inv (boot log) := by
  intro p hp
  cases hp

theorem removals_le (s : Sys) (capture : State) : s.removals ≤ (s.moved capture).removals := by
  unfold Sys.moved
  dsimp only
  split_ifs <;> omega

/-- A client that is current behind a step was so before, and the step has not removed the log. -/
theorem current_of_moved {s : Sys} {capture : State} {p : Poller} (hbegan : p.removals ≤ s.removals)
    (h : (s.moved capture).Current p) : s.Current p ∧ removed s.capture capture = false := by
  obtain ⟨hsame, hfirst⟩ := h
  unfold Sys.moved at hsame
  dsimp only at hsame
  split_ifs at hsame with hremoved
  · omega
  · exact ⟨⟨hsame, hfirst⟩, Bool.eq_false_iff.mpr hremoved⟩

theorem inv_moved {s : Sys} (h : Inv s) {capture : State} (hgrows : Grows s.capture capture) :
    Inv (s.moved capture) := by
  intro p hp
  have hkept := h p hp
  refine ⟨Nat.le_trans hkept.began (removals_le s capture), hkept.offset, fun hcurrent => ?_⟩
  obtain ⟨hbefore, hnot⟩ := current_of_moved hkept.began hcurrent
  rcases hgrows with hremoved | hprefix
  · rw [hnot] at hremoved
    cases hremoved
  · exact (hkept.follows hbefore).grow hprefix

/-- Only the clients change. -/
theorem inv_pollers {s : Sys} {pollers : List Poller}
    (h : ∀ p ∈ pollers, Kept s p) : Inv { s with pollers := pollers } :=
  fun p hp => ⟨(h p hp).began, (h p hp).offset, (h p hp).follows⟩

theorem kept_start (s : Sys) (offset : Int) : Kept s ⟨offset, offset, [], s.removals⟩ where
  began := Nat.le_refl _
  offset hoffset := hoffset
  follows _ := Follows.start _ _

theorem readAt_eq (s : State) (offset maxBytes : Int) :
    readAt s offset maxBytes = ((s.log.getD []).drop offset.toNat).take maxBytes.toNat := by
  unfold readAt
  cases s.log with
  | none => simp
  | some content => rfl

/-- The client is given what is in the log behind what it has. -/
theorem kept_take {s : Sys} {p : Poller} (h : Kept s p) {r : SerialReadResult} {n : Nat}
    {data : Bytes} (hdata : data = ((s.capture.log.getD []).drop p.next.toNat).take n)
    (hbytes : r.bytesB64 = Base64.encode data) (hnext : r.nextOffset = p.next + data.length) :
    Kept s (p.take r) where
  began := h.began
  offset hfirst := by
    have hold := h.offset hfirst
    show 0 ≤ r.nextOffset
    omega
  follows hcurrent := by
    have hold := h.offset hcurrent.2
    have hnat : (p.take r).next.toNat = p.next.toNat + data.length := by
      show r.nextOffset.toNat = _
      omega
    have hgot : (p.take r).got = p.got ++ data := by
      show p.got ++ (PyBase64.b64decode r.bytesB64).getD [] = _
      rw [hbytes, PyBase64.b64decode_encode, Option.getD_some]
    rw [hnat, hgot, hdata]
    exact (h.follows hcurrent).read n

theorem inv_reading {s t : Sys} {pollers : List Poller} (h : reading s pollers = some t)
    (hkept : ∀ p ∈ pollers, Kept s p) : Inv t := by
  obtain ⟨-, heq⟩ := Option.ite_none_left_eq_some.mp h
  cases heq
  exact inv_pollers hkept

theorem inv_step {s t : Sys} {a : Label} (h : Inv s) (hstep : step s a = some t) : Inv t := by
  cases a with
  | capture a =>
    obtain ⟨capture, hcapture, rfl⟩ := Option.map_eq_some_iff.mp hstep
    exact inv_moved h (log_step hcapture)
  | clear unlink =>
    obtain ⟨-, heq⟩ := Option.ite_none_left_eq_some.mp hstep
    cases heq
    exact inv_moved h (clear_grows s.capture unlink)
  | follow offset =>
    cases hstep
    refine inv_pollers fun p hp => ?_
    rcases List.mem_append.mp hp with hold | hnew
    · exact h p hold
    · rw [List.mem_singleton.mp hnew]
      exact kept_start s offset
  | tail maxBytes =>
    refine inv_reading hstep fun p hp => ?_
    rcases List.mem_append.mp hp with hold | hnew
    · exact h p hold
    · rw [List.mem_singleton.mp hnew]
      exact kept_take (kept_start s _) (readAt_eq ..) rfl rfl
  | read i maxBytes =>
    obtain ⟨p, hp, hreading⟩ := Option.bind_eq_some_iff.mp hstep
    refine inv_reading hreading fun q hq => ?_
    rcases List.mem_or_eq_of_mem_set hq with hold | rfl
    · exact h q hold
    · exact kept_take (h p (List.mem_of_getElem? hp)) (readAt_eq ..) rfl rfl

/-- A client that has begun at an offset since the log was last removed has got the log from there
up to its `next_offset`, every byte once and in order, and all of it once it has come to the end. -/
theorem polls_follow {log : Option Bytes} {labels : List Label} {s : Sys}
    (hrun : run step (boot log) labels = some s) :
    ∀ p ∈ s.pollers, s.Current p →
      p.got = ((s.capture.log.getD []).take p.next.toNat).drop p.first.toNat ∧
      (fileSize s.capture ≤ p.next → p.got = (s.capture.log.getD []).drop p.first.toNat) := by
  intro p hp hcurrent
  have hinv : Inv s := run_invariant_all (fun _ _ _ h hstep => inv_step h hstep) (boot_inv log) hrun
  have hfollows := (hinv p hp).follows hcurrent
  refine ⟨hfollows.got_eq, fun hend => hfollows.complete ?_⟩
  unfold fileSize at hend
  omega

/-! ## Clients that are misled -/

def written (data : List Bytes) : List Label :=
  [.capture (.start false {}), .capture (.thread 0 (.opens true))] ++
    data.flatMap fun d => [.capture (.thread 0 .tests), .capture (.thread 0 (.reads d))]

theorem polls_follow_sample : ∃ s, run step (boot none)
    (written [[1, 2]] ++ [.follow 0, .read 0 0, .tail 1, .capture (.thread 0 .tests),
      .capture (.thread 0 (.reads [3, 4])), .read 0 0, .read 1 1]) = some s ∧
      s.pollers.map Poller.got = [[1, 2, 3, 4], [2, 3]] ∧
      ∀ p ∈ s.pollers, fileSize s.capture ≤ p.next →
        p.got = (s.capture.log.getD []).drop p.first.toNat := by
  obtain ⟨s, hrun, hgot, hcurrent⟩ : ∃ s, run step (boot none)
      (written [[1, 2]] ++ [.follow 0, .read 0 0, .tail 1, .capture (.thread 0 .tests),
        .capture (.thread 0 (.reads [3, 4])), .read 0 0, .read 1 1]) = some s ∧
        s.pollers.map Poller.got = [[1, 2, 3, 4], [2, 3]] ∧
        ∀ p ∈ s.pollers, p.removals = s.removals ∧ 0 ≤ p.first :=
    ⟨_, rfl, rfl, by decide⟩
  exact ⟨s, hrun, hgot, fun p hp => (polls_follow hrun p hp (hcurrent p hp)).2⟩

/-- Behind a log that is cleared a client is given the new one from where it was in the old one, and
from a negative offset a client is given bytes again. -/
theorem polls_misled :
    (run step (boot none) (written [[1, 2]] ++ [.follow 0, .read 0 0, .capture .stop,
      .capture (.thread 0 .tests), .capture .joined, .clear true] ++ written [[3, 4, 5]] ++
      [.read 0 0])).map (fun s => s.pollers.map Poller.got) = some [[1, 2, 5]] ∧
    (run step (boot (some [1, 2, 3])) [.follow (-2), .read 0 0, .read 0 0]).map
      (fun s => s.pollers.map Poller.got) = some [[1, 2, 3, 2, 3]] := by
  constructor <;> rfl

end AmigaFleet.Host.SerialPolling

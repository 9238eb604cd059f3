import AmigaFleet.Lib.Framing
import AmigaFleet.Lib.Run

/-!
# Serial captures

`SerialCapture` of `host/src/amiga_fleet_mcp/transports/serial_capture.py`: calls
of `start` and `stop`, one after the other, and the threads that append to the
log.  A label of `step` is a call, the end of the wait in `stop`, or what one
thread does next; it carries the answers of the system.

A thread that `stop` has given up on lives on.  `Reader.before` and
`Reader.removed` are not in the source; they remember the log that the thread's
`start` has found, for `Untouched`.

* `start_failed`: what a `start` that starts no thread leaves.
* `sound_step`: what a step keeps when no earlier thread is alive at a `start`.
* `capture_atomic`: runs in which no `start` loses a log or revives a thread.
-/

namespace AmigaFleet.Host.SerialCapture

open AmigaFleet.Lib

/-! ## The state -/

inductive Phase where
  /-- in front of `log_path.open("ab")` -/
  | opening
  /-- in front of the test of `_stop` -/
  | testing
  /-- behind a test that let it pass -/
  | reading
deriving DecidableEq, Repr

/-- A living thread in `_run`. -/
structure Reader where
  phase : Phase := .opening
  /-- it is `self._thread` -/
  current : Bool := true
  /-- its handle is that of the file at `log_path` -/
  attached : Bool := false
  before : Option Bytes
  removed : Bool
deriving DecidableEq, Repr

/-- `self._thread`; the thread of `started` is the current reader while it lives. -/
inductive Slot where
  | empty
  | unstarted
  | started
deriving DecidableEq, Repr

structure State where
  /-- the file at `log_path` -/
  log : Option Bytes
  stop : Bool := false
  thread : Slot := .empty
  /-- `self._ser` is a port -/
  ser : Bool := false
  total : Nat := 0
  error : Option String := none
  readers : List Reader := []
  /-- a call of `stop` is in `t.join` -/
  joining : Bool := false
deriving DecidableEq, Repr

/-- A new capture. -/
def init (log : Option Bytes) : State := { log }

/-- `running` -/
def State.running (s : State) : Bool := s.thread = .started && s.readers.any (·.current)

/-! ## start -/

/-- How the calls of one `start` end; `true` is a call that does not raise. -/
structure StartEnv where
  mkdir : Bool := true
  unlink : Bool := true
  connect : Bool := true
  resetInputBuffer : Bool := true
  spawn : Bool := true
deriving DecidableEq, Repr

inductive StartResult where
  | alreadyRunning
  | started
  | raised
deriving DecidableEq, Repr

/-- `log_path.unlink()` -/
def State.unlinkLog (s : State) : State :=
  { s with log := none, readers := s.readers.map fun r => { r with attached := false } }

/-- The part of `start` from `serial.Serial` on. -/
def openPort (s : State) (before : Option Bytes) (removed : Bool) (env : StartEnv) :
    State × StartResult :=
  if env.connect = false then (s, .raised)
  else
    let s := { s with ser := true }
    if env.resetInputBuffer = false then (s, .raised)
    else if env.spawn = false then ({ s with thread := .unstarted }, .raised)
    else ({ s with
      thread := .started
      readers := (s.readers.map fun r => { r with current := false }) ++
        [{ before := before, removed := removed }] }, .started)

/-- `SerialCapture.start` -/
def start (s : State) (truncate : Bool) (env : StartEnv) : State × StartResult :=
  if s.running then (s, .alreadyRunning)
  else
    let before := s.log
    let s := { s with stop := false, error := none, total := 0 }
    if env.mkdir = false then (s, .raised)
    else if truncate ∧ s.log.isSome then
      if env.unlink = false then (s, .raised)
      else openPort s.unlinkLog before true env
    else openPort s before false env

/-! ## stop -/

/-- `SerialCapture.stop`, up to the end or to the wait for the thread.  For a thread
that was never started `join` raises. -/
def stop (s : State) : State :=
  match s.thread with
  | .empty => { s with stop := true }
  | .unstarted => { s with stop := true }
  | .started => { s with stop := true, joining := true }

/-- The end of `stop`, behind the wait. -/
def stopEnd (s : State) : State :=
  { s with
    thread := .empty
    joining := false
    readers := s.readers.map fun r => { r with current := false } }

/-! ## The threads -/

/-- What a thread does next. -/
inductive Move where
  /-- `log_path.open` -/
  | opens (ok : Bool)
  /-- the test of `_stop` -/
  | tests
  /-- `ser.in_waiting` and `ser.read` -/
  | reads (data : Bytes)
  /-- an `OSError` of the port -/
  | fails (error : String)
  /-- `fh.write` raises, and has written this much -/
  | writeRaises (written : Bytes)
deriving DecidableEq, Repr

/-- The thread at index `i` ends and closes its port. -/
def State.drop (s : State) (i : Nat) : State :=
  { s with ser := false, readers := s.readers.eraseIdx i }

def State.put (s : State) (i : Nat) (r : Reader) : State := { s with readers := s.readers.set i r }

/-- `fh.write` -/
def State.write (s : State) (r : Reader) (data : Bytes) : State :=
  if r.attached then { s with log := s.log.map (· ++ data) } else s

/-- One move of the thread `r` at index `i`. -/
def move (s : State) (i : Nat) (r : Reader) : Move → Option State
  | .opens ok =>
    if r.phase = .opening then
      -- `assert ser is not None`, which is in front of the `finally`
      if s.ser = false then some { s with readers := s.readers.eraseIdx i }
      else if ok = false then some (s.drop i)
      else some ({ s with log := some (s.log.getD []) }.put i
        { r with phase := .testing, attached := true })
    else none
  | .tests =>
    if r.phase = .testing then
      some (if s.stop then s.drop i else s.put i { r with phase := .reading })
    else none
  | .reads data =>
    if r.phase = .reading then
      some ({ s.write r data with total := s.total + data.length }.put i
        { r with phase := .testing })
    else none
  | .fails error =>
    if r.phase = .reading then some ({ s with error := some error }.drop i) else none
  | .writeRaises written => if r.phase = .reading then some ((s.write r written).drop i) else none

/-! ## Runs -/

inductive Act where
  | start (truncate : Bool) (env : StartEnv)
  | stop
  /-- `join` returns: the thread has ended, or the two seconds are over -/
  | joined
  | timedOut
  | thread (i : Nat) (m : Move)
deriving DecidableEq, Repr

def step (s : State) : Act → Option State
  | .start truncate env => if s.joining then none else some (start s truncate env).1
  | .stop => if s.joining then none else some (stop s)
  | .joined => if s.joining ∧ s.running = false then some (stopEnd s) else none
  | .timedOut => if s.joining then some (stopEnd s) else none
  | .thread i m => do move s i (← s.readers[i]?) m

/-- The threads that append to the log. -/
def State.appending (s : State) : List Reader :=
  s.readers.filter fun r => r.phase ≠ .opening && r.attached

/-- A failing `start` leaves the log and what runs alone: one that raises, and one
whose thread cannot open the log. -/
def Untouched (s : State) (a : Act) (s' : State) : Prop :=
  match a with
  | .start truncate env =>
    (start s truncate env).2 ≠ .started →
      s'.log = s.log ∧ s'.readers = s.readers ∧
        (s.readers ≠ [] → s'.stop = s.stop ∧ s'.thread = s.thread ∧ s'.total = s.total)
  | .thread i (.opens false) => ∀ r, s.readers[i]? = some r → r.phase = .opening → s'.log = r.before
  | _ => True

/-- A `start` that finds no thread of an earlier one, and that removes a log only
if it then succeeds; and a thread that opens the log, unless it is still there. -/
def Careful (s : State) : Act → Prop
  | .start truncate env =>
    s.running = false → s.readers = [] ∧
      (truncate = true ∧ s.log.isSome = true ∧ env.mkdir = true ∧ env.unlink = true →
        env.connect = true ∧ env.resetInputBuffer = true ∧ env.spawn = true)
  | .thread i (.opens false) => (s.readers[i]?).all (fun r => !r.removed) = true
  | _ => True

instance (s : State) (a : Act) : Decidable (Careful s a) :=
  match a with
  | .start _ _ => inferInstanceAs (Decidable (_ → _))
  | .thread _ (.opens false) => inferInstanceAs (Decidable (_ = _))
  | .stop | .joined | .timedOut | .thread _ (.opens true) | .thread _ .tests
  | .thread _ (.reads _) | .thread _ (.fails _) | .thread _ (.writeRaises _) =>
    isTrue trivial

/-! ## One thread -/

/-- One thread at most; until it opens the log this is the one it was started with. -/
structure Sound (s : State) : Prop where
  one : s.readers.length ≤ 1
  log : ∀ r ∈ s.readers, r.phase = .opening → r.removed = false → s.log = r.before

theorem sound_init (log : Option Bytes) : Sound (init log) := ⟨Nat.zero_le _, nofun⟩

theorem Sound.appending {s : State} (h : Sound s) : s.appending.length ≤ 1 :=
  Nat.le_trans (List.length_filter_le ..) h.one

theorem sound_nil {s : State} (h : s.readers = []) : Sound s :=
  ⟨by simp [h], by simp [h]⟩

/-- A thread that has opened the log. -/
theorem sound_singleton {s : State} {r : Reader} (h : s.readers = [r]) (hr : r.phase ≠ .opening) :
    Sound s :=
  ⟨by simp [h], by simp [h, hr]⟩

/-- The threads stay in their phases. -/
theorem Sound.map {s s' : State} (h : Sound s) {f : Reader → Reader}
    (hf : ∀ r, (f r).phase = r.phase ∧ (f r).before = r.before ∧ (f r).removed = r.removed)
    (hreaders : s'.readers = s.readers.map f) (hlog : s'.log = s.log) : Sound s' := by
  refine ⟨by rw [hreaders, List.length_map]; exact h.one, fun r hr hphase hremoved => ?_⟩
  rw [hreaders] at hr
  obtain ⟨q, hq, rfl⟩ := List.mem_map.mp hr
  obtain ⟨hfphase, hfbefore, hfremoved⟩ := hf q
  rw [hlog, hfbefore]
  exact h.log q hq (hfphase ▸ hphase) (hfremoved ▸ hremoved)

theorem sound_openPort (s : State) (hs : s.readers = []) {before : Option Bytes} {removed : Bool}
    (hlog : removed = false → s.log = before) (env : StartEnv) :
    Sound (openPort s before removed env).1 := by
  unfold openPort
  split_ifs
  · exact sound_nil hs
  · exact sound_nil hs
  · exact sound_nil hs
  · refine ⟨by simp [hs], fun r hr _ hremoved => ?_⟩
    simp only [hs, List.map_nil, List.nil_append, List.mem_singleton] at hr
    subst hr
    exact hlog hremoved

theorem sound_start {s : State} (h : Sound s) {truncate : Bool} {env : StartEnv}
    (hok : s.running = false → s.readers = []) : Sound (start s truncate env).1 := by
  unfold start
  dsimp only
  by_cases hrunning : s.running = true
  · rw [if_pos hrunning]
    exact h
  · have hnil := hok (Bool.eq_false_iff.mpr hrunning)
    rw [if_neg hrunning]
    split_ifs
    · exact sound_nil hnil
    · exact sound_nil hnil
    · refine sound_openPort _ ?_ (fun hremoved => by cases hremoved) env
      simp [State.unlinkLog, hnil]
    · exact sound_openPort { s with stop := false, error := none, total := 0 } hnil
        (fun _ => rfl) env

/-- The thread that moves is the only one. -/
theorem Sound.single {s : State} (h : Sound s) {i : Nat} {r : Reader}
    (hr : s.readers[i]? = some r) : i = 0 ∧ s.readers = [r] := by
  have hone := h.one
  match hreaders : s.readers, i, hr with
  | [q], 0, hr => simp_all
  | [q], i + 1, hr => simp_all
  | q :: q' :: rest, i, hr => simp [hreaders] at hone

theorem write_readers (s : State) (r : Reader) (data : Bytes) :
    (s.write r data).readers = s.readers := by
  unfold State.write
  split <;> rfl

theorem sound_drop {s : State} {r : Reader} (h : s.readers = [r]) : Sound (s.drop 0) :=
  sound_nil (by simp [State.drop, h])

theorem sound_put {s : State} {r r' : Reader} (h : s.readers = [r]) (hr' : r'.phase ≠ .opening) :
    Sound (s.put 0 r') := by
  have hput : (s.put 0 r').readers = [r'] := by simp [State.put, h]
  exact sound_singleton hput hr'

theorem sound_move {s s' : State} {r : Reader} {m : Move} (hreaders : s.readers = [r])
    (hmove : move s 0 r m = some s') : Sound s' := by
  unfold move at hmove
  cases m with
  | opens ok =>
    dsimp only at hmove
    split_ifs at hmove
    · cases hmove
      exact sound_nil (by simp [hreaders])
    · cases hmove
      exact sound_drop hreaders
    · cases hmove
      exact sound_put hreaders (by simp)
  | tests =>
    dsimp only at hmove
    split_ifs at hmove
    · cases hmove
      exact sound_drop hreaders
    · cases hmove
      exact sound_put hreaders (by simp)
  | reads data =>
    dsimp only at hmove
    split_ifs at hmove
    cases hmove
    exact sound_put ((write_readers s r data).trans hreaders) (by simp)
  | fails error =>
    dsimp only at hmove
    split_ifs at hmove
    cases hmove
    exact sound_drop hreaders
  | writeRaises written =>
    dsimp only at hmove
    split_ifs at hmove
    cases hmove
    exact sound_drop ((write_readers s r written).trans hreaders)

theorem step_thread {s s' : State} {i : Nat} {m : Move} (h : step s (.thread i m) = some s') :
    ∃ r, s.readers[i]? = some r ∧ move s i r m = some s' := by
  unfold step at h
  cases hr : s.readers[i]? with
  | none => simp [hr] at h
  | some r => exact ⟨r, rfl, by simpa [hr] using h⟩

theorem sound_stopEnd {s : State} (h : Sound s) : Sound (stopEnd s) :=
  h.map (f := fun r => { r with current := false }) (fun _ => ⟨rfl, rfl, rfl⟩) rfl rfl

/-- What a step keeps. -/
theorem sound_step {s s' : State} {a : Act} (h : Sound s) (hok : Careful s a)
    (hstep : step s a = some s') : Sound s' := by
  cases a with
  | start truncate env =>
    simp only [step] at hstep
    split_ifs at hstep
    cases hstep
    exact sound_start h fun hrunning => (hok hrunning).1
  | stop =>
    simp only [step] at hstep
    split_ifs at hstep
    cases hstep
    unfold stop
    cases s.thread <;> exact ⟨h.one, h.log⟩
  | joined =>
    simp only [step] at hstep
    split_ifs at hstep
    cases hstep
    exact sound_stopEnd h
  | timedOut =>
    simp only [step] at hstep
    split_ifs at hstep
    cases hstep
    exact sound_stopEnd h
  | thread i m =>
    obtain ⟨r, hr, hmove⟩ := step_thread hstep
    obtain ⟨rfl, hreaders⟩ := h.single hr
    exact sound_move hreaders hmove

/-! ## Failing starts -/

theorem openPort_raised {s : State} {before : Option Bytes} {removed : Bool} {env : StartEnv}
    (h : (openPort s before removed env).2 ≠ .started) :
    (openPort s before removed env).1.log = s.log ∧
      (openPort s before removed env).1.readers = s.readers := by
  unfold openPort at h ⊢
  dsimp only at h ⊢
  split_ifs at h ⊢
  · exact ⟨rfl, rfl⟩
  · exact ⟨rfl, rfl⟩
  · exact ⟨rfl, rfl⟩
  · exact absurd rfl h

theorem openPort_started {s : State} {before : Option Bytes} {removed : Bool} {env : StartEnv}
    (h : env.connect = true ∧ env.resetInputBuffer = true ∧ env.spawn = true) :
    (openPort s before removed env).2 = .started := by
  simp [openPort, h.1, h.2.1, h.2.2]

/-- What a `start` that does not start a thread leaves. -/
theorem start_failed {s : State} {truncate : Bool} {env : StartEnv}
    (h : (start s truncate env).2 ≠ .started) (hok : Careful s (.start truncate env)) :
    (start s truncate env).1.log = s.log ∧ (start s truncate env).1.readers = s.readers ∧
      (s.readers ≠ [] → (start s truncate env).1 = s) := by
  unfold start at h ⊢
  dsimp only at h ⊢
  by_cases hrunning : s.running = true
  · rw [if_pos hrunning]
    exact ⟨rfl, rfl, fun _ => rfl⟩
  · rw [if_neg hrunning] at h ⊢
    obtain ⟨hnil, hcomplete⟩ := hok (Bool.eq_false_iff.mpr hrunning)
    rw [← and_assoc]
    refine ⟨?_, fun hne => absurd hnil hne⟩
    by_cases hmkdir : env.mkdir = false
    · rw [if_pos hmkdir]
      exact ⟨rfl, rfl⟩
    · rw [if_neg hmkdir] at h ⊢
      by_cases htruncate : truncate = true ∧ s.log.isSome = true
      · rw [if_pos htruncate] at h ⊢
        by_cases hunlink : env.unlink = false
        · rw [if_pos hunlink]
          exact ⟨rfl, rfl⟩
        · rw [if_neg hunlink] at h
          refine absurd (openPort_started (hcomplete ?_)) h
          exact ⟨htruncate.1, htruncate.2, by simpa using hmkdir,
            by simpa using hunlink⟩
      · rw [if_neg htruncate] at h ⊢
        exact openPort_raised h

/-- A thread that cannot open the log: it is the one from before its start. -/
theorem opens_failed {s s' : State} {i : Nat} {r : Reader} (h : Sound s)
    (hok : Careful s (.thread i (.opens false))) (hr : s.readers[i]? = some r)
    (hphase : r.phase = .opening) (hmove : move s i r (.opens false) = some s') :
    s'.log = r.before := by
  have hremoved : r.removed = false := by
    have hall : (s.readers[i]?).all (fun r => !r.removed) = true := hok
    rw [hr] at hall
    simpa using hall
  have hlog := h.log r (List.mem_of_getElem? hr) hphase hremoved
  rw [← hlog]
  simp only [move, hphase, if_true] at hmove
  split_ifs at hmove
  · cases hmove
    rfl
  · cases hmove
    rfl

theorem untouched_step {s s' : State} {a : Act} (h : Sound s) (hok : Careful s a)
    (hstep : step s a = some s') : Untouched s a s' := by
  cases a with
  | start truncate env =>
    intro hfailed
    simp only [step] at hstep
    split_ifs at hstep
    cases hstep
    obtain ⟨hlog, hreaders, hsame⟩ := start_failed hfailed hok
    refine ⟨hlog, hreaders, fun hne => ?_⟩
    rw [hsame hne]
    exact ⟨rfl, rfl, rfl⟩
  | thread i m =>
    cases m with
    | opens ok =>
      cases ok with
      | true => trivial
      | false =>
        intro r hr hphase
        obtain ⟨r', hr', hmove⟩ := step_thread hstep
        obtain rfl := Option.some.inj (hr.symm.trans hr')
        exact opens_failed h hok hr hphase hmove
    | _ => trivial
  | _ => trivial

/-- In a run whose starts find no thread of an earlier one and remove no log in
vain, a failing start leaves the log and what runs alone, and one thread at
most appends to the log. -/
theorem capture_atomic {log : Option Bytes} {as : List Act} {a : Act} {s s' : State}
    (hok : Along step Careful (init log) (as ++ [a])) (hrun : run step (init log) as = some s)
    (hstep : step s a = some s') : Untouched s a s' ∧ s'.appending.length ≤ 1 := by
  have hsound : Sound s :=
    run_invariant (fun _ _ _ => sound_step) (sound_init log) hok.append_left hrun
  have hcareful : Careful s a := (hok.append_right hrun).head
  exact ⟨untouched_step hsound hcareful hstep, (sound_step hsound hcareful hstep).appending⟩

/-- A capture that has logged a byte is stopped. -/
def stoppedCapture : List Act :=
  [.start true {}, .thread 0 (.opens true), .thread 0 .tests, .thread 0 (.reads [65]), .stop,
    .thread 0 .tests, .joined]

/-- The next start finds the port gone. -/
theorem capture_atomic_sample : ∃ s s', run step (init (some [66])) stoppedCapture = some s ∧
    step s (.start false { connect := false }) = some s' ∧ s.log = some [65] ∧ s'.log = some [65] ∧
      s'.appending.length ≤ 1 := by
  have hok : Along step Careful (init (some [66]))
      (stoppedCapture ++ [.start false { connect := false }]) := by decide
  obtain ⟨s, s', hrun, hstep, hlog, hfailed⟩ : ∃ s s',
      run step (init (some [66])) stoppedCapture = some s ∧
        step s (.start false { connect := false }) = some s' ∧ s.log = some [65] ∧
          (start s false { connect := false }).2 ≠ .started :=
    ⟨_, _, rfl, rfl, rfl, by decide⟩
  obtain ⟨huntouched, hone⟩ := capture_atomic hok hrun hstep
  exact ⟨s, s', hrun, hstep, hlog, (huntouched hfailed).1.trans hlog, hone⟩

/-- A port that cannot be opened: the log is lost.  And a thread that `stop` has given
up on goes on beside the next one. -/
theorem capture_not_atomic :
    ¬ (∀ (log : Option Bytes) (as : List Act) (a : Act) (s s' : State),
      run step (init log) as = some s → step s a = some s' → Untouched s a s') ∧
    ¬ ∀ (log : Option Bytes) (as : List Act) (s : State),
      run step (init log) as = some s → s.appending.length ≤ 1 := by
  constructor
  · intro h
    have hlost := h (some [65]) [] (.start true { connect := false }) _ _ rfl rfl (by decide)
    exact absurd hlost.1 (by decide)
  · intro h
    have htwo := h none [.start false {}, .thread 0 (.opens true), .thread 0 .tests, .stop,
      .timedOut, .start false {}, .thread 1 (.opens true)] _ rfl
    exact absurd htwo (by decide)

end AmigaFleet.Host.SerialCapture

import AmigaFleet.Host.Transport

/-!
# What a step of the transport can do

The stretches of `request` before its frame goes out connect, close and send
warm-up probes, and touch nothing that the properties of the transport speak
of: `Opens`.  `step_cases` says once which steps there are, and the
invariants of the following modules are proved from it.
-/

namespace AmigaFleet.Host.Transport

open AmigaFleet.Lib

/-- The request frame of the current attempt is not out yet. -/
def Phase.Before : Phase → Prop
  | .closing .connect | .closing (.warmup _) | .closing .retry | .connecting _ | .warmDrain _
  | .warmHeader _ | .warmBody .. | .warmSleep _ | .drain => True
  | _ => False

/-- The length of the body that the reader stands before. -/
def Phase.expects : Phase → Option Nat
  | .warmBody _ n | .body n => some n
  | _ => none

/-- The call has failed without a frame of the peer. -/
def Phase.Failed : Phase → Prop
  | .done (.jsonRpc _) | .done (.raised _) | .done .cancelled => True
  | _ => False

/-- A stretch builds at most one request, and `last_write_at` is set for a
mutating one. -/
def Records (s s' : Sys) : Prop :=
  (s'.nextId = s.nextId ∧ s'.lastWriteAt = s.lastWriteAt) ∨
    (s'.nextId = s.nextId + 1 ∧
      ∃ now, s'.lastWriteAt = if isMutating s'.call.method then some now else s.lastWriteAt)

theorem records_kept {s s' : Sys} (hid : s'.nextId = s.nextId)
    (hlast : s'.lastWriteAt = s.lastWriteAt) : Records s s' := Or.inl ⟨hid, hlast⟩

/-- A stretch that sends no request frame and reads nothing. -/
structure Opens (s s' : Sys) : Prop where
  conn : s'.conn = s.conn ∨ ∀ c, s'.conn = some c → c.consumed = []
  fresh : s'.fresh = s.fresh ∨ s'.fresh = []
  read : s'.earlier ++ s'.fresh = s.earlier ++ s.fresh
  queue : s'.queue = s.queue
  queueBefore : s'.queueBefore = s.queueBefore
  delivered : s'.delivered = s.delivered
  method : s'.call.method = s.call.method
  ids : (s'.nextId = s.nextId ∧ s'.used = s.used) ∨
    (s'.nextId = s.nextId + 1 ∧ s'.used = s.used ++ [s.nextId])
  expects : s'.phase.expects = none
  phase : s'.phase.Before ∨ s'.phase.Failed
  asked : s'.phase = .drain → s'.call.rid = s.nextId
  records : Records s s'

theorem opens_finish (s : Sys) {out : Outcome} (h : (Phase.done out).Failed) :
    Opens s (s.finish out) :=
  ⟨Or.inl rfl, Or.inl rfl, rfl, rfl, rfl, rfl, rfl, Or.inl ⟨rfl, rfl⟩, rfl, Or.inr h,
    fun hd => (nomatch hd), records_kept rfl rfl⟩

theorem opens_phase (s : Sys) {phase : Phase} (h : phase.Before) (he : phase.expects = none)
    (hd : phase ≠ .drain) : Opens s { s with phase := phase } :=
  ⟨Or.inl rfl, Or.inl rfl, rfl, rfl, rfl, rfl, rfl, Or.inl ⟨rfl, rfl⟩, he, Or.inl h,
    fun heq => absurd heq hd, records_kept rfl rfl⟩

theorem opens_closeConn (s : Sys) {after : AfterClose} (h : (Phase.closing after).Before) :
    Opens s (s.closeConn after) :=
  ⟨Or.inr fun _ hc => (nomatch hc), Or.inr rfl, List.append_nil _, rfl, rfl, rfl, rfl,
    Or.inl ⟨rfl, rfl⟩, rfl, Or.inl h, fun hd => (nomatch hd), records_kept rfl rfl⟩

theorem opens_sendRequest (py : Python) (now : Rat) (s : Sys) : Opens s (s.sendRequest py now) := by
  unfold Sys.sendRequest
  dsimp only
  split
  · exact ⟨Or.inl rfl, Or.inl rfl, rfl, rfl, rfl, rfl, rfl, Or.inr ⟨rfl, rfl⟩, rfl, Or.inr trivial,
      fun _ => rfl, Or.inr ⟨rfl, now, rfl⟩⟩
  · split
    · exact ⟨Or.inl rfl, Or.inl rfl, rfl, rfl, rfl, rfl, rfl, Or.inr ⟨rfl, rfl⟩, rfl, Or.inr trivial,
        fun _ => rfl, Or.inr ⟨rfl, now, rfl⟩⟩
    · exact ⟨Or.inl rfl, Or.inl rfl, rfl, rfl, rfl, rfl, rfl, Or.inr ⟨rfl, rfl⟩, rfl, Or.inl trivial,
        fun _ => rfl, Or.inr ⟨rfl, now, rfl⟩⟩

theorem opens_warmSend (s : Sys) (i : Nat) : Opens s (s.warmSend i) := by
  unfold Sys.warmSend
  split
  · exact opens_finish s trivial
  · exact opens_phase s trivial rfl (fun hd => nomatch hd)

theorem opens_afterConnect (py : Python) (now : Rat) (s : Sys) (after : AfterConnect) :
    Opens s (s.afterConnect py now after) := by
  cases after with
  | request =>
    unfold Sys.afterConnect
    dsimp only
    split
    · exact opens_warmSend s 0
    · exact opens_sendRequest py now s
  | warmup i => exact opens_phase s trivial rfl (fun hd => nomatch hd)

theorem opens_ensureConnected (py : Python) (now : Rat) (s : Sys) (after : AfterConnect) :
    Opens s (s.ensureConnected py now after) := by
  unfold Sys.ensureConnected
  split
  · exact opens_afterConnect py now s after
  · exact opens_phase s trivial rfl (fun hd => nomatch hd)

theorem opens_beginAttempt (py : Python) (atEof : Bool) (now : Rat) (s : Sys) :
    Opens s (s.beginAttempt py atEof now) := by
  unfold Sys.beginAttempt
  split
  · exact opens_closeConn s trivial
  · exact opens_ensureConnected py now s .request

/-- A stretch from a state that differs only in the connection, which is new. -/
theorem Opens.connected {s s' : Sys} {stream : Bytes} {now : Rat}
    (h : Opens { s with conn := some { unread := stream }, lastIoAt := some now } s') :
    Opens s s' := by
  refine ⟨Or.inr fun c hc => ?_, h.fresh, h.read, h.queue, h.queueBefore, h.delivered, h.method,
    h.ids, h.expects, h.phase, h.asked, h.records⟩
  rcases h.conn with hsame | hnew
  · rw [hsame] at hc
    cases hc
    rfl
  · exact hnew c hc

/-! ## The method of a call -/

@[simp] theorem finish_method (s : Sys) (out : Outcome) :
    (s.finish out).call.method = s.call.method := rfl

@[simp] theorem closeConn_method (s : Sys) (after : AfterClose) :
    (s.closeConn after).call.method = s.call.method := rfl

@[simp] theorem timedOut_method (s : Sys) : s.timedOut.call.method = s.call.method := rfl

@[simp] theorem ioFailed_method (s : Sys) (description : Bytes) :
    (s.ioFailed description).call.method = s.call.method := by
  unfold Sys.ioFailed
  split <;> rfl

@[simp] theorem takeFrame_method (py : Python) (now : Rat) (s : Sys) (payload : Bytes) :
    (s.takeFrame py now payload).call.method = s.call.method := by
  unfold Sys.takeFrame
  dsimp only
  split
  · rfl
  · split <;> rfl

@[simp] theorem readHeader_method (s : Sys) (c : Conn) (event : ReadEvent) :
    (s.readHeader c event).call.method = s.call.method := by
  unfold Sys.readHeader
  dsimp only
  split
  · split <;> rfl
  · rfl
  · exact ioFailed_method _ _

@[simp] theorem readBody_method (py : Python) (now : Rat) (s : Sys) (c : Conn) (n : Nat)
    (event : ReadEvent) : (s.readBody py now c n event).call.method = s.call.method := by
  unfold Sys.readBody
  dsimp only
  split
  · exact takeFrame_method py now _ _
  · rfl
  · exact ioFailed_method _ _

@[simp] theorem warmReadHeader_method (s : Sys) (i : Nat) (c : Conn) (event : ReadEvent) :
    (s.warmReadHeader i c event).call.method = s.call.method := by
  unfold Sys.warmReadHeader
  dsimp only
  split
  · split <;> rfl
  · rfl

@[simp] theorem drainEnds_method (py : Python) (s : Sys) (how : Drained) (handed : Nat) :
    (s.drainEnds py how handed).call.method = s.call.method := by
  cases how with
  | broken description => exact ioFailed_method _ description
  | _ => rfl

/-! ## The steps -/

/-- The steps of a transport. -/
inductive Steps (py : Python) (s : Sys) : Label → Sys → Prop
  /-- a new call -/
  | start (method params timeoutText atEof now) :
      (s.phase = .idle ∨ ∃ out, s.phase = .done out) →
      Steps py s (.start method params timeoutText atEof now)
        (s.start py method params timeoutText atEof now)
  /-- a stretch before the request frame -/
  | opens (a s') : s.phase.Before → s.phase.expects = none → Opens s s' → Steps py s a s'
  /-- a warm-up probe is out -/
  | warmHeader (i a) : s.phase = .warmDrain i → Steps py s a { s with phase := .warmHeader i }
  /-- a read for a warm-up probe -/
  | warmReadHeader (i c event now) : s.phase = .warmHeader i → s.conn = some c →
      Steps py s (.read event now) (s.warmReadHeader i c event)
  | warmReadBody (i n c event now) : s.phase = .warmBody i n → s.conn = some c →
      Steps py s (.read event now) (s.warmReadBody i c n event)
  /-- the request frame is out -/
  | drained (how handed) : s.phase = .drain →
      Steps py s (.drained how handed) (s.drainEnds py how handed)
  /-- a read for the reply -/
  | readHeader (c event now) : s.phase = .header → s.conn = some c →
      Steps py s (.read event now) (s.readHeader c event)
  | readBody (n c event now) : s.phase = .body n → s.conn = some c →
      Steps py s (.read event now) (s.readBody py now c n event)
  | handled : s.phase = .handlers → Steps py s .handled { s with phase := .header }
  /-- the error of a call whose connection is closed -/
  | failed (e now) : s.phase = .closing (.fail e) →
      Steps py s (.closed now) (s.finish (.jsonRpc e))
  | cancel : (∀ out, s.phase ≠ .done out) → s.phase ≠ .idle → s.phase ≠ .drain →
      Steps py s .cancel (s.finish .cancelled)

/-- Every step is one of these. -/
theorem step_cases {py : Python} {s s' : Sys} {a : Label}
    (hstep : step py s a = some s') : Steps py s a s' := by
  cases a with
  | start method params timeoutText atEof now =>
    simp only [step] at hstep
    split at hstep
    · rename_i hphase
      cases hstep
      exact .start method params timeoutText atEof now (Or.inl hphase)
    · rename_i out hphase
      cases hstep
      exact .start method params timeoutText atEof now (Or.inr ⟨out, hphase⟩)
    · cases hstep
  | closed now =>
    simp only [step] at hstep
    split at hstep
    · rename_i after hphase
      cases hstep
      cases after with
      | connect =>
        refine .opens _ _ ?_ ?_ (opens_ensureConnected py now s .request) <;> rw [hphase]
        · trivial
        · rfl
      | warmup i =>
        refine .opens _ _ ?_ ?_ (opens_ensureConnected py now s (.warmup i)) <;> rw [hphase]
        · trivial
        · rfl
      | retry =>
        have hopens := opens_beginAttempt py false now
          { s with call := { s.call with attempt := 1 } }
        refine .opens _ _ ?_ ?_ ⟨hopens.conn, hopens.fresh, hopens.read, hopens.queue,
          hopens.queueBefore, hopens.delivered, hopens.method, hopens.ids, hopens.expects,
          hopens.phase, hopens.asked, hopens.records⟩ <;> rw [hphase]
        · trivial
        · rfl
      | fail e => exact .failed e now hphase
    · cases hstep
  | connected stream now =>
    simp only [step] at hstep
    split at hstep
    · rename_i after hphase
      cases hstep
      refine .opens _ _ ?_ ?_ (opens_afterConnect py now _ after).connected <;> rw [hphase]
      · trivial
      · rfl
    · cases hstep
  | refused error now =>
    simp only [step] at hstep
    split at hstep
    · rename_i hphase
      cases hstep
      refine .opens _ _ ?_ ?_ (opens_finish s trivial) <;> rw [hphase]
      · trivial
      · rfl
    · rename_i i hphase
      cases hstep
      refine .opens _ _ ?_ ?_ (opens_sendRequest py now s) <;> rw [hphase]
      · trivial
      · rfl
    · cases hstep
  | notOpened e =>
    simp only [step] at hstep
    split at hstep
    · rename_i after hphase
      cases hstep
      refine .opens _ _ ?_ ?_ (opens_finish s trivial) <;> rw [hphase]
      · trivial
      · rfl
    · cases hstep
  | drained how handed =>
    simp only [step] at hstep
    split at hstep
    · rename_i hphase
      cases hstep
      exact .drained how handed hphase
    · rename_i i hphase
      split at hstep <;> cases hstep
      · exact .warmHeader i _ hphase
      · refine .opens _ _ ?_ ?_ (opens_finish s trivial) <;> rw [hphase]
        · trivial
        · rfl
      · refine .opens _ _ ?_ ?_ (opens_closeConn s trivial) <;> rw [hphase]
        · trivial
        · rfl
    · cases hstep
  | read event now =>
    simp only [step] at hstep
    split at hstep
    · rename_i c hconn hphase
      cases hstep
      exact .readHeader c event now hphase hconn
    · rename_i c n hconn hphase
      cases hstep
      exact .readBody n c event now hphase hconn
    · rename_i c i hconn hphase
      cases hstep
      exact .warmReadHeader i c event now hphase hconn
    · rename_i c i n hconn hphase
      cases hstep
      exact .warmReadBody i n c event now hphase hconn
    · cases hstep
  | slept now =>
    simp only [step] at hstep
    split at hstep
    · rename_i i hphase
      cases hstep
      refine .opens _ _ ?_ ?_ ?_
      · rw [hphase]
        trivial
      · rw [hphase]
        rfl
      · split
        · exact opens_warmSend s 1
        · exact opens_sendRequest py now s
    · cases hstep
  | handled =>
    simp only [step] at hstep
    split at hstep
    · rename_i hphase
      cases hstep
      exact .handled hphase
    · cases hstep
  | cancel =>
    simp only [step] at hstep
    split at hstep
    · cases hstep
    · cases hstep
    · cases hstep
    · cases hstep
    · rename_i hidle hdone hdrain hwarm
      cases hstep
      exact .cancel hdone hidle hdrain

/-! ## The record of writes -/

theorem records_ioFailed (s : Sys) (description : Bytes) : Records s (s.ioFailed description) := by
  unfold Sys.ioFailed
  split
  · exact records_kept rfl rfl
  · exact records_kept rfl rfl

theorem records_takeFrame (py : Python) (now : Rat) (s : Sys) (payload : Bytes) :
    Records s (s.takeFrame py now payload) := by
  unfold Sys.takeFrame
  dsimp only
  split
  · exact records_kept rfl rfl
  · split
    all_goals exact records_kept rfl rfl

/-- What a step builds and records. -/
theorem step_records {py : Python} {s s' : Sys} {a : Label} (hstep : step py s a = some s') :
    Records s s' := by
  cases step_cases hstep with
  | start method params timeoutText atEof now _ => exact (opens_beginAttempt ..).records
  | opens _ _ _ _ hopens => exact hopens.records
  | warmHeader i _ _ => exact records_kept rfl rfl
  | warmReadHeader i c event now _ _ =>
    unfold Sys.warmReadHeader
    dsimp only
    split
    · split
      · exact records_kept rfl rfl
      · exact records_kept rfl rfl
    · exact records_kept rfl rfl
  | warmReadBody i n c event now _ _ => exact records_kept rfl rfl
  | drained how handed _ =>
    cases how with
    | broken description => exact records_ioFailed _ description
    | _ => exact records_kept rfl rfl
  | readHeader c event now _ _ =>
    unfold Sys.readHeader
    dsimp only
    split
    · split
      · exact records_kept rfl rfl
      · exact records_kept rfl rfl
    · exact records_kept rfl rfl
    · exact records_ioFailed _ _
  | readBody n c event now _ _ =>
    unfold Sys.readBody
    dsimp only
    split
    · exact records_takeFrame py now _ _
    · exact records_kept rfl rfl
    · exact records_ioFailed _ _
  | handled _ => exact records_kept rfl rfl
  | failed e now _ => exact records_kept rfl rfl
  | cancel _ _ _ => exact records_kept rfl rfl

end AmigaFleet.Host.Transport

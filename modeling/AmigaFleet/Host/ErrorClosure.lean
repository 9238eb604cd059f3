import AmigaFleet.Host.Transport
import AmigaFleet.Lib.Run

/-!
# Which exceptions leave `request`

The callers of `McpdTransport.request` catch `JsonRpcError` and nothing else.
Most failures of an await are converted to one.  Three are not.

* The reconnect of the warm-up may fail.  `_warmup_locked` then returns with
  the transport closed, and the assertion of `_send_frame` is the next thing
  that runs.
* A frame need not be an object, and the `error` of a reply need not be one
  either; nor need its `code` be a number.  `json.loads` itself has exceptions
  that are no `JSONDecodeError`.
* `open_connection` has exceptions that are no `OSError`.

`Converted` excludes exactly these steps: `errors_closed_iff`.
-/

namespace AmigaFleet.Host.Transport

open AmigaFleet.Lib
open AmigaFleet.Mcpd (ascii)

/-! ## The condition -/

/-- `"id" in obj`, and `obj["id"]` where it is true, raise nothing. -/
def Keyed : Json → Prop
  | .dict _ => True
  | .list items => ∀ item ∈ items, ∀ t, item = .str t → t ≠ ascii "id"
  | .str t => ¬ ascii "id" <:+: t
  | _ => False

/-- The `error` of a reply names a code that `int` takes. -/
def Mirrored (py : Python) (err : Json) : Prop :=
  (∃ members, err = .dict members) ∧
    ∃ code, py.int ((err.get "code").getD (.int (-32603))) = .ok code

/-- A frame that the read loop takes, or rejects with an `InternalError`. -/
def Readable (py : Python) (rid : Int) (payload : Bytes) : Prop :=
  match py.loads payload with
  | .error (.undecodable _) => True
  | .error (.raised _) => False
  | .ok obj =>
    Keyed obj ∧ ((∃ id, obj.get "id" = some id ∧ eqId id rid = true) →
      ∀ err, obj.get "error" = some err → Mirrored py err)

/-- The step is none of those whose exception is not converted. -/
def Converted (py : Python) (s : Sys) : Label → Prop
  | .refused .. => ∀ i, s.phase ≠ .connecting (.warmup i)
  | .notOpened _ => False
  | .read event _ => ∀ n c payload, s.phase = .body n → s.conn = some c →
      (c.read n event).2 = .got payload → Readable py s.call.rid payload
  | _ => True

/-! ## The connection at each await -/

/-- The call has ended with an exception that is no `JsonRpcError`. -/
def Sys.Raised (s : Sys) : Prop := ∃ e, s.phase = .done (.raised e)

/-- A warm-up has a connection; a call that opens or closes one has none. -/
def Sys.Linked (s : Sys) : Prop :=
  match s.phase with
  | .closing _ | .connecting _ => s.conn = none
  | .warmDrain _ | .warmHeader _ | .warmBody .. | .warmSleep _ => s.conn ≠ none
  | _ => True

/-- A state that keeps the connection in order and has raised nothing. -/
structure Sys.Quiet (s : Sys) : Prop where
  linked : s.Linked
  silent : ¬ s.Raised

theorem quiet_closeConn (s : Sys) (after : AfterClose) : (s.closeConn after).Quiet := by
  refine ⟨rfl, ?_⟩
  simp [Sys.Raised, Sys.closeConn]

theorem quiet_ioFailed (s : Sys) (description : Bytes) : (s.ioFailed description).Quiet := by
  unfold Sys.ioFailed
  split
  · exact quiet_closeConn ..
  · exact quiet_closeConn ..

theorem quiet_jsonRpc (s : Sys) (e : JsonRpcError) : (s.finish (.jsonRpc e)).Quiet := by
  refine ⟨trivial, ?_⟩
  simp [Sys.Raised, Sys.finish]

theorem quiet_cancelled (s : Sys) : (s.finish .cancelled).Quiet := by
  refine ⟨trivial, ?_⟩
  simp [Sys.Raised, Sys.finish]

theorem quiet_sendRequest (py : Python) (now : Rat) {s : Sys} (hconn : s.conn ≠ none) :
    (s.sendRequest py now).Quiet := by
  unfold Sys.sendRequest
  dsimp only
  split
  · rename_i hnone
    exact absurd hnone hconn
  · split
    · exact quiet_jsonRpc ..
    · refine ⟨trivial, ?_⟩
      simp [Sys.Raised]

theorem quiet_warmSend {s : Sys} (hconn : s.conn ≠ none) (i : Nat) : (s.warmSend i).Quiet := by
  unfold Sys.warmSend
  split
  · rename_i hnone
    exact absurd hnone hconn
  · refine ⟨hconn, ?_⟩
    simp [Sys.Raised]

theorem quiet_afterConnect (py : Python) (now : Rat) {s : Sys} (hconn : s.conn ≠ none)
    (after : AfterConnect) : (s.afterConnect py now after).Quiet := by
  cases after with
  | request =>
    unfold Sys.afterConnect
    dsimp only
    split
    · exact quiet_warmSend hconn 0
    · exact quiet_sendRequest py now hconn
  | warmup i =>
    refine ⟨hconn, ?_⟩
    simp [Sys.Raised, Sys.afterConnect]

theorem quiet_ensureConnected (py : Python) (now : Rat) (s : Sys) (after : AfterConnect) :
    (s.ensureConnected py now after).Quiet := by
  unfold Sys.ensureConnected
  split
  · rename_i c hc
    apply quiet_afterConnect
    simp [hc]
  · rename_i hnone
    refine ⟨hnone, ?_⟩
    simp [Sys.Raised]

theorem quiet_beginAttempt (py : Python) (atEof : Bool) (now : Rat) (s : Sys) :
    (s.beginAttempt py atEof now).Quiet := by
  unfold Sys.beginAttempt
  split
  · exact quiet_closeConn ..
  · exact quiet_ensureConnected ..

theorem quiet_afterClose (py : Python) (now : Rat) (s : Sys) (after : AfterClose) :
    (s.afterClose py now after).Quiet := by
  cases after with
  | connect => exact quiet_ensureConnected ..
  | warmup i => exact quiet_ensureConnected ..
  | retry => exact quiet_beginAttempt ..
  | fail e => exact quiet_jsonRpc ..

theorem quiet_drainEnds (py : Python) (s : Sys) (how : Drained) (handed : Nat) :
    (s.drainEnds py how handed).Quiet := by
  cases how with
  | ok =>
    refine ⟨trivial, ?_⟩
    simp [Sys.Raised, Sys.drainEnds]
  | timeout => exact quiet_closeConn ..
  | broken description => exact quiet_ioFailed ..
  | cancelled => exact quiet_cancelled ..

theorem quiet_readHeader (s : Sys) (c : Conn) (event : ReadEvent) :
    (s.readHeader c event).Quiet := by
  unfold Sys.readHeader
  dsimp only
  split
  · split
    · exact quiet_jsonRpc ..
    · refine ⟨trivial, ?_⟩
      simp [Sys.Raised]
  · exact quiet_closeConn ..
  · exact quiet_ioFailed ..

theorem quiet_warmReadHeader (s : Sys) (i : Nat) (c : Conn) (event : ReadEvent) :
    (s.warmReadHeader i c event).Quiet := by
  unfold Sys.warmReadHeader
  dsimp only
  split
  · split
    · exact quiet_jsonRpc ..
    · constructor
      · simp [Sys.Linked]
      · simp [Sys.Raised]
  · constructor
    · simp [Sys.Linked]
    · simp [Sys.Raised]

theorem quiet_warmReadBody (s : Sys) (i : Nat) (c : Conn) (n : Nat) (event : ReadEvent) :
    (s.warmReadBody i c n event).Quiet := by
  constructor
  · simp [Sys.Linked, Sys.warmReadBody]
  · simp [Sys.Raised, Sys.warmReadBody]

/-! ## The frame -/

/-- The operators raise nothing, and then they are `get`, or the frame is none
for the read loop. -/
theorem idOf_cases (obj : Json) :
    (Keyed obj ∧ idOf obj = .ok (obj.get "id")) ∨ (¬ Keyed obj ∧ idOf obj = .error .typeError) := by
  cases obj with
  | dict members => exact Or.inl ⟨trivial, rfl⟩
  | list items =>
    unfold idOf
    dsimp only
    split
    · rename_i hany
      refine Or.inr ⟨?_, rfl⟩
      intro hkeyed
      obtain ⟨item, hitem, hid⟩ := List.any_eq_true.mp hany
      split at hid
      · rename_i t
        exact hkeyed _ hitem t rfl (by simpa using hid)
      · cases hid
    · rename_i hany
      refine Or.inl ⟨?_, rfl⟩
      rintro item hitem t rfl ht
      apply hany
      rw [List.any_eq_true]
      exact ⟨_, hitem, by simpa using ht⟩
  | str t =>
    by_cases hin : ascii "id" <:+: t
    · exact Or.inr ⟨fun h => h hin, by simp [idOf, hin]⟩
    · exact Or.inl ⟨hin, by simp [idOf, hin, Json.get]⟩
  | _ => exact Or.inr ⟨id, rfl⟩

/-- The reply is turned into a value or a `JsonRpcError`, or its `error` is at
fault. -/
theorem evaluate_raised_iff (py : Python) (resp : Json) :
    (∃ e, evaluate py resp = .raised e) ↔
      ¬ ∀ err, resp.get "error" = some err → Mirrored py err := by
  unfold evaluate
  cases herr : resp.get "error" with
  | none =>
    have hall : ∀ err, (none : Option Json) = some err → Mirrored py err := by simp
    cases resp.get "result" with
    | none => simp
    | some v => simp
  | some err =>
    have hone : (∀ err', some err = some err' → Mirrored py err') ↔ Mirrored py err := by simp
    rw [hone]
    cases err with
    | dict members =>
      cases hcode : py.int (((Json.dict members).get "code").getD (.int (-32603))) with
      | error e =>
        simp [Mirrored, hcode]
      | ok code =>
        simp [Mirrored, hcode]
    | _ => simp [Mirrored]

theorem takeFrame_linked (py : Python) (now : Rat) (s : Sys) (payload : Bytes) :
    (s.takeFrame py now payload).Linked := by
  unfold Sys.takeFrame
  dsimp only
  split
  · trivial
  · split
    · trivial
    · trivial
    · trivial
    · rfl
    · trivial

/-- A frame makes the call raise exactly if it is not readable. -/
theorem takeFrame_raised_iff (py : Python) (now : Rat) (s : Sys) (payload : Bytes) :
    (s.takeFrame py now payload).Raised ↔ ¬ Readable py s.call.rid payload := by
  unfold Sys.takeFrame Readable
  dsimp only
  cases hloads : py.loads payload with
  | error e =>
    cases e with
    | undecodable text => simp [Sys.Raised, Sys.finish, loadsFailed]
    | raised e => simp [Sys.Raised, Sys.finish, loadsFailed]
  | ok obj =>
    dsimp only
    rcases idOf_cases obj with ⟨hkeyed, hid⟩ | ⟨hnot, hid⟩
    · cases hget : obj.get "id" with
      | none =>
        have hk : kind obj s.call.rid = .notification := by simp [kind, hid, hget]
        simp [hk, Sys.Raised, hkeyed]
      | some id =>
        by_cases heq : eqId id s.call.rid = true
        · have hk : kind obj s.call.rid = .reply := by simp [kind, hid, hget, heq]
          have hraised := evaluate_raised_iff py obj
          rw [hk]
          simpa [Sys.Raised, hkeyed, heq] using hraised
        · by_cases hwarm : isWarmupId id = true
          · have hk : kind obj s.call.rid = .warmup := by simp [kind, hid, hget, heq, hwarm]
            simp [hk, Sys.Raised, hkeyed, heq]
          · have hk : kind obj s.call.rid = .mismatch id := by
              simp [kind, hid, hget, heq, hwarm]
            simp [hk, Sys.Raised, Sys.closeConn, hkeyed, heq]
    · have hk : kind obj s.call.rid = .typeError := by simp [kind, hid]
      simp [hk, Sys.Raised, Sys.finish, hnot]

/-- A read of a body: the connection is in order, and the call raises exactly if
the frame is not readable. -/
theorem readBody_spec (py : Python) (now : Rat) (s : Sys) (c : Conn) (n : Nat)
    (event : ReadEvent) : (s.readBody py now c n event).Linked ∧
      ((s.readBody py now c n event).Raised ↔
        ¬ ∀ payload, (c.read n event).2 = .got payload → Readable py s.call.rid payload) := by
  unfold Sys.readBody
  dsimp only
  split
  · rename_i payload hgot
    refine ⟨takeFrame_linked .., ?_⟩
    rw [takeFrame_raised_iff]
    simp [hgot]
  · rename_i hread
    have hquiet : ({ s with conn := some (c.read n event).1 } : Sys).timedOut.Quiet :=
      quiet_closeConn ..
    refine ⟨hquiet.linked, ?_⟩
    simp [hread, hquiet.silent]
  · rename_i description hread
    have hquiet := quiet_ioFailed { s with conn := some (c.read n event).1 } description
    refine ⟨hquiet.linked, ?_⟩
    simp [hread, hquiet.silent]

/-! ## The steps -/

/-- A step that is converted whatever the label brings. -/
theorem Sys.Quiet.spec {s : Sys} (h : s.Quiet) {p : Prop} (hp : p) :
    s.Linked ∧ (s.Raised ↔ ¬ p) :=
  ⟨h.linked, iff_of_false h.silent (not_not.mpr hp)⟩

/-- Every step keeps the connection in order, and makes the call raise exactly
if it is not a converted one. -/
theorem step_spec {py : Python} {s s' : Sys} {a : Label} (h : s.Linked)
    (hstep : step py s a = some s') : s'.Linked ∧ (s'.Raised ↔ ¬ Converted py s a) := by
  cases a with
  | start method params timeoutText atEof now =>
    simp only [step] at hstep
    split at hstep
    · cases hstep
      exact (quiet_beginAttempt ..).spec trivial
    · cases hstep
      exact (quiet_beginAttempt ..).spec trivial
    · cases hstep
  | closed now =>
    simp only [step] at hstep
    split at hstep
    · cases hstep
      exact (quiet_afterClose ..).spec trivial
    · cases hstep
  | connected stream now =>
    simp only [step] at hstep
    split at hstep
    · cases hstep
      refine (quiet_afterConnect py now ?_ _).spec trivial
      simp
    · cases hstep
  | refused error now =>
    simp only [step] at hstep
    split at hstep
    · rename_i hphase
      cases hstep
      refine (quiet_jsonRpc ..).spec ?_
      simp [Converted, hphase]
    · rename_i i hphase
      cases hstep
      have hconn : s.conn = none := by simpa [Sys.Linked, hphase] using h
      -- the warm-up returns, and the transport is closed
      constructor
      · simp [Sys.sendRequest, hconn, Sys.finish, Sys.Linked]
      · simp [Sys.sendRequest, hconn, Sys.finish, Sys.Raised, Converted, hphase]
    · cases hstep
  | notOpened e =>
    simp only [step] at hstep
    split at hstep
    · cases hstep
      constructor
      · trivial
      · simp [Sys.Raised, Sys.finish, Converted]
    · cases hstep
  | drained how handed =>
    simp only [step] at hstep
    split at hstep
    · cases hstep
      exact (quiet_drainEnds ..).spec trivial
    · rename_i i hphase
      have hconn : s.conn ≠ none := by simpa [Sys.Linked, hphase] using h
      split at hstep
      · cases hstep
        have hquiet : ({ s with phase := .warmHeader i } : Sys).Quiet := by
          refine ⟨hconn, ?_⟩
          simp [Sys.Raised]
        exact hquiet.spec trivial
      · cases hstep
        exact (quiet_cancelled s).spec trivial
      · cases hstep
        exact (quiet_closeConn ..).spec trivial
    · cases hstep
  | read event now =>
    simp only [step] at hstep
    split at hstep
    · rename_i c hconn hphase
      cases hstep
      refine (quiet_readHeader s c event).spec ?_
      simp [Converted, hphase]
    · rename_i c n hconn hphase
      cases hstep
      obtain ⟨hlinked, hraised⟩ := readBody_spec py now s c n event
      refine ⟨hlinked, ?_⟩
      rw [hraised]
      simp [Converted, hphase, hconn]
    · rename_i c i hconn hphase
      cases hstep
      refine (quiet_warmReadHeader s i c event).spec ?_
      simp [Converted, hphase]
    · rename_i c i n hconn hphase
      cases hstep
      refine (quiet_warmReadBody s i c n event).spec ?_
      simp [Converted, hphase]
    · cases hstep
  | slept now =>
    simp only [step] at hstep
    split at hstep
    · rename_i i hphase
      have hconn : s.conn ≠ none := by simpa [Sys.Linked, hphase] using h
      cases hstep
      split
      · exact (quiet_warmSend hconn 1).spec trivial
      · exact (quiet_sendRequest py now hconn).spec trivial
    · cases hstep
  | handled =>
    simp only [step] at hstep
    split at hstep
    · cases hstep
      have hquiet : ({ s with phase := .header } : Sys).Quiet := by
        refine ⟨trivial, ?_⟩
        simp [Sys.Raised]
      exact hquiet.spec trivial
    · cases hstep
  | cancel =>
    simp only [step] at hstep
    split at hstep
    · cases hstep
    · cases hstep
    · cases hstep
    · cases hstep
    · cases hstep
      exact (quiet_cancelled s).spec trivial

/-- In every run the exceptions that leave `request` are `JsonRpcError`s and
cancellations as long as, and only as long as, every step is a converted
one. -/
theorem errors_closed_iff (py : Python) (as : List Label) (s : Sys)
    (hrun : run (step py) init as = some s) :
    Along (step py) (Converted py) init as ↔
      ∀ bs m, bs <+: as → run (step py) init bs = some m →
        ∀ e, m.phase ≠ .done (.raised e) := by
  have hlinked : Sys.Linked init := trivial
  have hsilent : ¬ Sys.Raised init := by simp [Sys.Raised, init]
  have hexact := along_iff_prefix (fun _ _ _ h hstep => (step_spec h hstep).1)
    (fun _ _ _ h hstep => (step_spec h hstep).2) hlinked hsilent hrun
  simpa [Sys.Raised] using hexact

/-- A call whose reply does not come in time. -/
def unansweredCall : List Label :=
  callOn "sys.version" [] ++ [.read .timeout 30, .closed 32]

theorem errors_closed_iff_sample : ∃ s, run (step (pythonFor .null)) init unansweredCall = some s ∧
    ∀ bs m, bs <+: unansweredCall → run (step (pythonFor .null)) init bs = some m →
      ∀ e, m.phase ≠ .done (.raised e) :=
  ⟨_, rfl, (errors_closed_iff (pythonFor .null) unansweredCall _ rfl).mp
    (along_of_forall (by simp [unansweredCall, callOn, Converted, Conn.read]) init)⟩

/-- The daemon goes away while a request is sent, accepts one connection more
and drops it during the warm-up, and is gone.  The caller sees an
`AssertionError`. -/
theorem warmup_leaves_closed : ∃ s,
    run (step (pythonFor .null)) init
      [.start (ascii "sys.version") none (ascii "30.0") false 0, .connected [] 0,
        .drained (.broken (ascii "Connection reset by peer")) 0, .closed 0, .connected [] 0,
        .drained (.broken (ascii "Connection reset by peer")) 0, .closed 0,
        .refused (ascii "Connection refused") 0] = some s ∧
    s.phase = .done (.raised .assertionError) :=
  ⟨_, rfl, rfl⟩

end AmigaFleet.Host.Transport

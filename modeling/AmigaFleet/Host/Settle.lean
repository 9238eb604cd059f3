import AmigaFleet.Host.TransportSteps
import AmigaFleet.Lib.Run
import AmigaFleet.Mcpd.Fs
import AmigaFleet.Mcpd.Rpc

/-!
# Settling before a stop

`_settle_before_stop` of `tools/qemu.py` asks the guest to flush `SYS:` and
returns a label that says how durable the guest's writes are.  Two records
decide it: whether the call of `fs.sync` returned, and `last_write_at` of the
transport.

* `carried` lists the methods of the requests that a run of the transport has
  built, and `lastWriteAt_none_iff` says that `last_write_at` tells exactly
  whether a mutating one is among them.
* `Guest` is what the guest makes of the flush.  A handler that does not flush
  answers `DOSFALSE`, and the daemon then reports success with `flushed`
  false.
* `settled_truthful_iff`: the label is wrong for that guest and for no other.
-/

namespace AmigaFleet.Host.Qemu

open AmigaFleet.Lib
open AmigaFleet.Mcpd (ascii envelope)
open AmigaFleet.Mcpd.Fs (fsSync dosFalse)
open AmigaFleet.Host.Transport

/-! ## The record of writes -/

/-- The methods of the requests that a run builds. -/
def carried (py : Python) (s : Sys) : List Label → List Bytes
  | [] => []
  | a :: as =>
    match step py s a with
    | none => []
    | some s' => (if s'.nextId = s.nextId then [] else [s'.call.method]) ++ carried py s' as

/-- `last_write_at` is set exactly by the mutating requests. -/
theorem lastWriteAt_none_iff {py : Python} {s t : Sys} {as : List Label}
    (hrun : run (step py) s as = some t) :
    t.lastWriteAt = none ↔
      s.lastWriteAt = none ∧ ∀ method ∈ carried py s as, isMutating method = false := by
  induction as generalizing s with
  | nil =>
    cases hrun
    simp [carried]
  | cons a as ih =>
    obtain ⟨s', hs', hrest⟩ := run_cons_some hrun
    rw [ih hrest, carried, hs']
    rcases step_records hs' with ⟨hid, hlast⟩ | ⟨hid, now, hlast⟩
    · simp [hid, hlast]
    · have hne : s'.nextId ≠ s.nextId := by omega
      cases hmut : isMutating s'.call.method with
      | false => simp [hne, hlast, hmut]
      | true => simp [hne, hlast, hmut]

theorem carried_append {py : Python} {s t : Sys} {as bs : List Label}
    (hrun : run (step py) s as = some t) :
    carried py s (as ++ bs) = carried py s as ++ carried py t bs := by
  induction as generalizing s with
  | nil =>
    cases hrun
    rfl
  | cons a as ih =>
    obtain ⟨s', hs', hrest⟩ := run_cons_some hrun
    simp only [List.cons_append, carried, hs', ih hrest, List.append_assoc]

/-! ## The transport of a target -/

/-- `fleet._mcpd.get(target)`, with the methods of the requests that the
transport has carried since `fleet.mcpd` made it. -/
inductive Used (py : Python) : Option Sys → List Bytes → Prop
  | none : Used py none []
  | run (as s) : run (step py) init as = some s → Used py (some s) (carried py init as)

/-- The transport that `_settle_before_stop` takes: the one that exists, or a
new one where MCPd can be connected to. -/
def transportFor (existing : Option Sys) (canConnect : Bool) : Option Sys :=
  match existing with
  | some t => some t
  | none => if canConnect then some init else none

theorem Used.transportFor {py : Python} {existing : Option Sys} {methods : List Bytes}
    (h : Used py existing methods) (canConnect : Bool) :
    Used py (transportFor existing canConnect) methods := by
  cases h with
  | none =>
    cases canConnect with
    | false => exact Used.none
    | true => exact Used.run [] init rfl
  | run as s hrun => exact Used.run as s hrun

/-- While the flush is awaited, the transport is used on. -/
theorem Used.during {py : Python} {t t' : Sys} {methods : List Bytes} {as : List Label}
    (h : Used py (some t) methods) (hrun : Lib.run (step py) t as = some t') :
    Used py (some t') (methods ++ carried py t as) := by
  cases h with
  | run before _ hbefore =>
    rw [← carried_append hbefore]
    refine Used.run (before ++ as) t' ?_
    rw [run_append hbefore]
    exact hrun

/-! ## _settle_before_stop -/

/-- `DEFAULT_SETTLE_S` -/
def defaultSettleS : Rat := 10

/-- The label. -/
inductive Settled where
  /-- `fs.sync` -/
  | fsSync
  /-- `nothing-written` -/
  | nothingWritten
  /-- `skipped` -/
  | skipped
  /-- `already-elapsed` -/
  | alreadyElapsed
  /-- `waited-…s` -/
  | waited (remaining : Rat)
deriving DecidableEq, Repr

/-- How `wait_for(t.request("fs.sync", ...), 30.0)` ends. -/
inductive FlushEnd where
  | request (out : Outcome)
  | timeout

/-- The part after the `try`: no flush has been reported. -/
def settleByClock (t : Sys) (settleS now : Rat) : Settled :=
  match t.lastWriteAt with
  | none => .nothingWritten
  | some last =>
    if settleS ≤ 0 then .skipped
    else if settleS - (now - last) ≤ 0 then .alreadyElapsed
    else .waited (settleS - (now - last))

/-- `_settle_before_stop` from the end of the flush on; `t` is its transport at
that time.  There is no label when the stop itself is cancelled. -/
def settleBeforeStop (t : Option Sys) (flush : FlushEnd) (settleS now : Rat) : Option Settled :=
  match t with
  | none => some .nothingWritten
  | some t =>
    match flush with
    | .request (.value _) => some .fsSync
    | .request .cancelled => none
    | _ => some (settleByClock t settleS now)

/-! ## The guest -/

/-- What becomes of the flush. -/
inductive Guest where
  /-- the handler replies `rc` to `ACTION_FLUSH` -/
  | answers (rc : Int)
  /-- no handler for `SYS:` -/
  | noHandler
  /-- another error of the daemon or of the transport -/
  | fails (e : JsonRpcError)
  /-- an exception that the transport does not convert -/
  | raises (e : PyError)
  /-- 30 seconds pass -/
  | timesOut

/-- The parameters of the flush. -/
def syncParams : Json := .dict [(ascii "path", .str (ascii "SYS:"))]

/-- What `request` makes of a response of the daemon. -/
def hostOutcome (py : Python) (out : Mcpd.Outcome) : Outcome :=
  evaluate py (Json.ofCJson (envelope none out))

def Guest.flush (py : Python) : Guest → FlushEnd
  | .answers rc =>
    .request (hostOutcome py (fsSync (fun _ => true) (fun _ => rc) (some syncParams.toCJson)))
  | .noHandler =>
    .request (hostOutcome py (fsSync (fun _ => false) (fun _ => 0) (some syncParams.toCJson)))
  | .fails e => .request (.jsonRpc e)
  | .raises e => .request (.raised e)
  | .timesOut => .timeout

/-- The reply says that a handler has flushed. -/
def FlushEnd.Confirmed (flush : FlushEnd) : Prop :=
  ∃ v, flush = .request (.value v) ∧ v.get "flushed" = some (.bool true)

/-- What the label promises. -/
structure Truthful (methods : List Bytes) (flush : FlushEnd) (label : Option Settled) : Prop where
  flushed : label = some .fsSync → flush.Confirmed
  unwritten : label = some .nothingWritten → ∀ method ∈ methods, isMutating method = false

/-- The value that the flush returns. -/
def syncReply (rc : Int) : Json :=
  .dict [(ascii "path", .str (ascii "SYS:")), (ascii "flushed", .bool (decide (rc ≠ dosFalse)))]

theorem flush_answers (py : Python) (rc : Int) :
    (Guest.answers rc).flush py = .request (.value (syncReply rc)) := rfl

/-- The reply of a handler confirms the flush unless it is `DOSFALSE`. -/
theorem confirmed_answers_iff (py : Python) (rc : Int) :
    ((Guest.answers rc).flush py).Confirmed ↔ rc ≠ dosFalse := by
  have hget : (syncReply rc).get "flushed" = some (.bool (decide (rc ≠ dosFalse))) := rfl
  simp [FlushEnd.Confirmed, flush_answers, hget]

/-- The clock's label does not speak of a flush, and `nothing-written` is right. -/
theorem truthful_settleByClock {py : Python} {as : List Label} {s : Sys}
    (hrun : Lib.run (step py) init as = some s) (flush : FlushEnd) (settleS now : Rat) :
    Truthful (carried py init as) flush (some (settleByClock s settleS now)) := by
  have hrecord := lastWriteAt_none_iff hrun
  unfold settleByClock
  cases hlast : s.lastWriteAt with
  | none =>
    constructor
    · simp
    · intro _
      exact (hrecord.mp hlast).2
  | some last =>
    dsimp only
    constructor
    · split
      · simp
      · split
        · simp
        · simp
    · split
      · simp
      · split
        · simp
        · simp

/-- The label is right for every use of the transport and every guest but one
that answers `DOSFALSE`. -/
theorem settled_truthful_iff (py : Python) {t : Option Sys} {methods : List Bytes}
    (h : Used py t methods) (guest : Guest) (settleS now : Rat) :
    Truthful methods (guest.flush py) (settleBeforeStop t (guest.flush py) settleS now) ↔
      (t.isSome → ∀ rc, guest = .answers rc → rc ≠ dosFalse) := by
  cases h with
  | none =>
    have htruthful : Truthful [] (guest.flush py)
        (settleBeforeStop none (guest.flush py) settleS now) := by
      constructor
      · simp [settleBeforeStop]
      · simp
    simp [htruthful]
  | run as s hrun =>
    have hclock := truthful_settleByClock hrun (guest.flush py) settleS now
    cases guest with
    | answers rc =>
      have hlabel : settleBeforeStop (some s) ((Guest.answers rc).flush py) settleS now =
          some .fsSync := rfl
      have hconfirmed := confirmed_answers_iff py rc
      rw [hlabel]
      constructor
      · rintro htruthful _ rc' hrc
        cases hrc
        exact hconfirmed.mp (htruthful.flushed rfl)
      · intro hrc
        refine ⟨fun _ => hconfirmed.mpr (hrc rfl rc rfl), ?_⟩
        simp
    | noHandler => exact iff_of_true hclock (by simp)
    | fails e => exact iff_of_true hclock (by simp)
    | raises e => exact iff_of_true hclock (by simp)
    | timesOut => exact iff_of_true hclock (by simp)

/-- `fs.write` is answered. -/
def writeRun : List Label :=
  callOn "fs.write" (frame (Json.dumps (fun _ => []) (pong (.int 1)))) ++
    [.read .ready 1, .read .ready 1]

/-- The response to the flush, which is request 2. -/
def syncResponse (rc : Int) : Json :=
  .dict [(ascii "jsonrpc", .str (ascii "2.0")), (ascii "id", .int 2), (ascii "result", syncReply rc)]

def syncFrames : List Json := [pong (.int 1), syncResponse 1]

/-- `fs.write` is answered, and the response to the flush is to come. -/
def writeBefore : List Label :=
  callOn "fs.write" (syncFrames.flatMap fun obj => frame (Json.dumps (fun _ => []) obj)) ++
    [.read .ready 1, .read .ready 1]

/-- The flush is answered. -/
def syncRun : List Label :=
  [.start (ascii "fs.sync") (some syncParams) (ascii "30.0") false 2, .drained .ok 200,
    .read .ready 3, .read .ready 3]

/-- A file is written, and the handler confirms the flush, which goes through the same
transport. -/
theorem settled_truthful_iff_sample : ∃ s t,
    Lib.run (step (pythonForAll syncFrames)) init writeBefore = some s ∧
    Lib.run (step (pythonForAll syncFrames)) s syncRun = some t ∧ t.lastWriteAt = some 0 ∧
    settleBeforeStop (some t) ((Guest.answers 1).flush (pythonForAll syncFrames)) defaultSettleS 3 =
      some .fsSync ∧
    ((Guest.answers 1).flush (pythonForAll syncFrames)).Confirmed := by
  have hruns : (Lib.run (step (pythonForAll syncFrames)) init writeBefore).any (fun s =>
      (Lib.run (step (pythonForAll syncFrames)) s syncRun).any fun t => t.lastWriteAt = some 0) =
        true := by
    decide +kernel
  obtain ⟨s, hwrite, hs⟩ := (Option.any_eq_true ..).mp hruns
  obtain ⟨t, hsync, hlast⟩ := (Option.any_eq_true ..).mp hs
  have hused := ((Used.run writeBefore s hwrite).transportFor false).during hsync
  have htruthful := (settled_truthful_iff (pythonForAll syncFrames) hused (.answers 1)
    defaultSettleS 3).mpr (by simp [dosFalse])
  exact ⟨s, t, hwrite, hsync, of_decide_eq_true hlast, rfl, htruthful.flushed rfl⟩

/-- A file is written, and the handler answers the flush with `DOSFALSE`.  The
label says `fs.sync` all the same. -/
theorem unflushed_label : ∃ s,
    Lib.run (step (pythonFor (pong (.int 1)))) init writeRun = some s ∧
    s.lastWriteAt = some 0 ∧
    settleBeforeStop (some s) ((Guest.answers dosFalse).flush (pythonFor (pong (.int 1)))) 10 3 =
      some .fsSync ∧
    ¬ ((Guest.answers dosFalse).flush (pythonFor (pong (.int 1)))).Confirmed := by
  refine ⟨_, rfl, rfl, rfl, ?_⟩
  rw [confirmed_answers_iff]
  simp

end AmigaFleet.Host.Qemu

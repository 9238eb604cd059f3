import AmigaFleet.Lib.Mailbox
import AmigaFleet.Mcpd.Events

/-!
# The crash hook

`mcpd/src/crashhook.c`: the hook that exec calls when a task traps, and
`crashhook_drain`, which every worker calls when its connection is idle and
before each response.  They share one record and the flag `armed`, without a
lock: the record is a box of `AmigaFleet.Lib.Mailbox`, the hook posts and the
workers are its readers.

The hook runs in a forbid-style context, so its stores are one step.  A drain is
not: between any two of its reads another worker can run, or another task trap.
It reads `traptype` twice, for the member and for the alert code.  A drain that
ends early for want of memory is one that reads on and sends nothing; its reads
change nothing.  A worker stands for its connection.

* `run_drain`: a drain that nobody disturbs reports the record.
* `crash_reported`: when the flag is down and no drain is under way, the last
  crash has been reported.
* `sent_once`: no connection is told of more crashes than there were.
* `sent_whole`: a notification is about one crash if no task traps between the
  first and the last read of a drain; `crash_torn` is a run where one does.
-/

namespace AmigaFleet.Mcpd.CrashHook

open AmigaFleet.Lib AmigaFleet.Lib.Mailbox
open AmigaFleet.Mcpd.Events (word notify decodedAlert)

/-! ## The hook -/

/-- What the hook reads of a `struct ExceptionContext`. -/
structure ExceptionContext where
  traptype : UInt32
  ip : UInt32
  gpr : Fin 32 → UInt32
  lr : UInt32
  msr : UInt32
  cr : UInt32
  dar : UInt32
  dsisr : UInt32

/-- `struct _crash_record`, what the hook stores of a crash. -/
structure CrashRecord where
  taskName : Bytes
  traptype : UInt32
  pc : UInt32
  sp : UInt32
  lr : UInt32
  msr : UInt32
  cr : UInt32
  dar : UInt32
  dsisr : UInt32
  gpr : Fin 8 → UInt32

inductive MessageType where
  /-- `DBHMT_EXCEPTION` -/
  | exception
  | other
deriving DecidableEq

structure Message where
  type : MessageType
  content : Option ExceptionContext

/-- The arguments of a call of the hook; no `name` is a task without one, or no
task. -/
structure HookCall where
  name : Option Bytes
  message : Option Message

/-- The copy of the name, which ends at a NUL or with the buffer. -/
def taskName (name : Option Bytes) : Bytes := (cText (name.getD (ascii "<unnamed>"))).take 63

theorem firstGprs : 8 ≤ 32 := by decide

theorem stackPointer : 1 < 32 := by decide

def recordOf (name : Option Bytes) (ctx : ExceptionContext) : CrashRecord where
  taskName := taskName name
  traptype := ctx.traptype
  pc := ctx.ip
  sp := ctx.gpr ⟨1, stackPointer⟩
  lr := ctx.lr
  msr := ctx.msr
  cr := ctx.cr
  dar := ctx.dar
  dsisr := ctx.dsisr
  gpr g := ctx.gpr (g.castLE firstGprs)

/-- The record that a call stores; none for another message and for an
exception without a context. -/
def HookCall.stored (call : HookCall) : Option CrashRecord :=
  match call.message with
  | some ⟨.exception, some ctx⟩ => some (recordOf call.name ctx)
  | _ => none

/-! ## The drain -/

/-- What one read of a drain adds to the notification. -/
inductive Piece where
  | member (key : Bytes) (value : CJson)
  | gpr (v : UInt32)
  | alert (code : UInt32)

/-- The alert code that a drain makes up. -/
def synthetic (traptype : UInt32) : UInt32 := 0x80000000 ||| (traptype &&& 0xFFFF)

/-- The reads of a drain. -/
def reads : List (CrashRecord → Piece) :=
  [fun r => .member (ascii "task") (.string r.taskName),
    fun r => .member (ascii "traptype") (word r.traptype),
    fun r => .member (ascii "pc") (word r.pc),
    fun r => .member (ascii "sp") (word r.sp),
    fun r => .member (ascii "lr") (word r.lr),
    fun r => .member (ascii "msr") (word r.msr),
    fun r => .member (ascii "cr") (word r.cr),
    fun r => .member (ascii "dar") (word r.dar),
    fun r => .member (ascii "dsisr") (word r.dsisr)] ++
  (List.finRange 8).map (fun g r => .gpr (r.gpr g)) ++
  [fun r => .alert (synthetic r.traptype)]

def Piece.member? : Piece → Option (Bytes × CJson)
  | .member key value => some (key, value)
  | _ => none

def Piece.gpr? : Piece → Option CJson
  | .gpr v => some (word v)
  | _ => none

def Piece.alertMembers : Piece → List (Bytes × CJson)
  | .alert code => [(ascii "alert_code", word code), decodedAlert code]
  | _ => []

/-- The notification of these pieces. -/
def notification (pieces : List Piece) : CJson :=
  notify (ascii "debug.exception") (.object
    (pieces.filterMap Piece.member? ++ [(ascii "gpr", .array (pieces.filterMap Piece.gpr?))] ++
      pieces.flatMap Piece.alertMembers))

/-- The notification of a crash. -/
def report (r : CrashRecord) : CJson := notification (copyOf reads r)

/-! ## The daemon -/

structure Sys where
  box : Box CrashRecord Piece
  /-- the notifications on the connections -/
  sent : List (Nat × CJson) := []

/-- The daemon after its start; the record is in zeroed memory. -/
def boot : Sys :=
  { box := Box.empty ⟨[], 0, 0, 0, 0, 0, 0, 0, 0, fun _ => 0⟩ }

inductive Label where
  /-- `_crash_hook_entry` -/
  | hook (call : HookCall)
  /-- worker `i` calls `crashhook_drain` -/
  | look (i : Nat)
  /-- it clears `armed` -/
  | lower (i : Nat)
  | read (i : Nat)
  /-- it has got the notification out, or not -/
  | send (i : Nat) (ok : Bool)

/-- `_crash_hook_entry` -/
def Sys.crashHookEntry (s : Sys) (call : HookCall) : Sys where
  box :=
    match call.stored with
    | some r => s.box.post r
    | none => s.box
  sent := s.sent

/-- What worker `i` has read, when it is in the middle of a drain. -/
def Sys.got (s : Sys) (i : Nat) : List Piece :=
  match s.box.readers i with
  | .copying got => got
  | _ => []

def step (s : Sys) : Label → Option Sys
  | .hook call => some (s.crashHookEntry call)
  | .look i => (Mailbox.step reads s.box (.look i)).map fun box => { s with box }
  | .lower i => (Mailbox.step reads s.box (.lower i)).map fun box => { s with box }
  | .read i => (Mailbox.step reads s.box (.copy i)).map fun box => { s with box }
  | .send i ok => (Mailbox.step reads s.box (.take i)).map fun box =>
      { s with
        box
        sent := if ok then s.sent ++ [(i, notification (s.got i))] else s.sent }

/-- The crashes of a run, the last one at the end. -/
def crashes (as : List Label) : List CrashRecord :=
  as.filterMap fun
    | .hook call => call.stored
    | _ => none

/-! ## The box of a run -/

/-- What a label is for the box; a call that stores nothing is no label. -/
def Label.inBox : Label → Option (Mailbox.Label CrashRecord)
  | .hook call => call.stored.map Mailbox.Label.post
  | .look i => some (.look i)
  | .lower i => some (.lower i)
  | .read i => some (.copy i)
  | .send i _ => some (.take i)

/-- The notifications of the copies that have been taken. -/
def Sys.drained (s : Sys) : List (Nat × CJson) :=
  s.box.taken.map fun t => (t.1, notification t.2)

/-- A step of the daemon is one of its box, or none of it. -/
theorem step_box {s s' : Sys} {a : Label} (h : step s a = some s') :
    (a.inBox = none ∧ s'.box = s.box) ∨
      ∃ b, a.inBox = some b ∧ Mailbox.step reads s.box b = some s'.box := by
  cases a with
  | hook call =>
    cases h
    cases hstored : call.stored with
    | none => exact Or.inl ⟨by simp [Label.inBox, hstored], by simp [Sys.crashHookEntry, hstored]⟩
    | some r =>
      refine Or.inr ⟨.post r, by simp [Label.inBox, hstored], ?_⟩
      simp [Mailbox.step, Sys.crashHookEntry, hstored]
  | look i =>
    obtain ⟨box, hbox, rfl⟩ := Option.map_eq_some_iff.mp h
    exact Or.inr ⟨.look i, rfl, hbox⟩
  | lower i =>
    obtain ⟨box, hbox, rfl⟩ := Option.map_eq_some_iff.mp h
    exact Or.inr ⟨.lower i, rfl, hbox⟩
  | read i =>
    obtain ⟨box, hbox, rfl⟩ := Option.map_eq_some_iff.mp h
    exact Or.inr ⟨.copy i, rfl, hbox⟩
  | send i ok =>
    obtain ⟨box, hbox, rfl⟩ := Option.map_eq_some_iff.mp h
    exact Or.inr ⟨.take i, rfl, hbox⟩

theorem run_box {s t : Sys} {as : List Label} (h : run step s as = some t) :
    run (Mailbox.step reads) s.box (as.filterMap Label.inBox) = some t.box := by
  induction as generalizing s with
  | nil =>
    cases h
    rfl
  | cons a as ih =>
    obtain ⟨s', hs', hrest⟩ := run_cons_some h
    rcases step_box hs' with ⟨hnone, hbox⟩ | ⟨b, hsome, hbox⟩
    · rw [List.filterMap_cons_none hnone, ← hbox]
      exact ih hrest
    · rw [List.filterMap_cons_some hsome, run, hbox]
      exact ih hrest

theorem posts_inBox (as : List Label) : posts (as.filterMap Label.inBox) = crashes as := by
  rw [posts, crashes, List.filterMap_filterMap]
  congr 1
  funext a
  cases a with
  | hook call => cases hstored : call.stored <;> simp [Label.inBox, hstored]
  | look i => rfl
  | lower i => rfl
  | read i => rfl
  | send i ok => rfl

theorem run_crashes {as : List Label} {s : Sys} (hrun : run step boot as = some s) :
    s.box.posted = crashes as := by
  rw [← posts_inBox]
  exact run_posted (run_box hrun)

/-! ## What is sent -/

/-- A step sends what it takes out of the box, if it gets it out. -/
theorem step_sent {s s' : Sys} {a : Label} (h : step s a = some s') :
    (s'.sent = s.sent ∧ s'.drained = s.drained) ∨
      ∃ i ok, a = .send i ok ∧ s'.drained = s.drained ++ [(i, notification (s.got i))] ∧
        s'.sent = if ok then s.sent ++ [(i, notification (s.got i))] else s.sent := by
  cases a with
  | hook call =>
    cases h
    refine Or.inl ⟨rfl, ?_⟩
    unfold Sys.drained Sys.crashHookEntry
    cases call.stored <;> rfl
  | look i =>
    obtain ⟨box, hbox, rfl⟩ := Option.map_eq_some_iff.mp h
    refine Or.inl ⟨rfl, ?_⟩
    cases step_cases hbox <;> rfl
  | lower i =>
    obtain ⟨box, hbox, rfl⟩ := Option.map_eq_some_iff.mp h
    refine Or.inl ⟨rfl, ?_⟩
    cases step_cases hbox
    rfl
  | read i =>
    obtain ⟨box, hbox, rfl⟩ := Option.map_eq_some_iff.mp h
    refine Or.inl ⟨rfl, ?_⟩
    cases step_cases hbox
    rfl
  | send i ok =>
    obtain ⟨box, hbox, rfl⟩ := Option.map_eq_some_iff.mp h
    refine Or.inr ⟨i, ok, rfl, ?_, rfl⟩
    cases step_cases hbox with
    | took _ got hreader hlength =>
      unfold Sys.drained Sys.got
      rw [hreader]
      exact List.map_append

/-- What has been sent has been drained, in this order. -/
theorem run_sent {as : List Label} {s : Sys} (hrun : run step boot as = some s) :
    s.sent.Sublist s.drained := by
  have hkeep : ∀ (s : Sys) (a : Label) (s' : Sys), s.sent.Sublist s.drained →
      step s a = some s' → s'.sent.Sublist s'.drained := by
    intro s a s' h hstep
    rcases step_sent hstep with ⟨hsent, hdrained⟩ | ⟨i, ok, rfl, hdrained, hsent⟩
    · rw [hsent, hdrained]
      exact h
    · rw [hsent, hdrained]
      split
      · exact h.append (List.Sublist.refl _)
      · exact h.trans (List.sublist_append_left ..)
  exact run_invariant_all hkeep (List.Sublist.refl _) hrun

/-- Without a failure, what has been drained has been sent. -/
theorem run_sent_all {as : List Label} {s : Sys} (hrun : run step boot as = some s)
    (hout : ∀ i, Label.send i false ∉ as) : s.sent = s.drained := by
  have hok : Along step (fun _ a => ∀ i, a ≠ .send i false) boot as := by
    refine along_of_forall (fun a ha _ i heq => ?_) boot
    exact hout i (heq ▸ ha)
  have hkeep : ∀ (s : Sys) (a : Label) (s' : Sys), s.sent = s.drained →
      (∀ i, a ≠ .send i false) → step s a = some s' → s'.sent = s'.drained := by
    intro s a s' h hok hstep
    rcases step_sent hstep with ⟨hsent, hdrained⟩ | ⟨i, ok, rfl, hdrained, hsent⟩
    · rw [hsent, hdrained]
      exact h
    · cases ok with
      | false => exact absurd rfl (hok i)
      | true => rw [hsent, hdrained, h, if_pos rfl]
  exact run_invariant hkeep rfl hok hrun

/-! ## A drain on its own -/

/-- The labels of a drain of worker `i` up to its reads. -/
def readAll (i : Nat) : List Label := [.look i, .lower i] ++ List.replicate reads.length (.read i)

theorem readAll_inBox (i : Nat) : (readAll i).filterMap Label.inBox = pass reads i := rfl

/-- A label of a drain, before it sends. -/
def Label.inDrain : Label → Bool
  | .look _ | .lower _ | .read _ => true
  | _ => false

/-- Up to what it sends, a drain is nothing but the reads of its box. -/
theorem run_reading {s : Sys} {as : List Label} (h : ∀ a ∈ as, a.inDrain = true) :
    run step s as = (run (Mailbox.step reads) s.box (as.filterMap Label.inBox)).map
      fun box => { s with box } := by
  induction as generalizing s with
  | nil => rfl
  | cons a as ih =>
    have hrest := fun s => ih (s := s) fun b hb => h b (List.mem_cons_of_mem _ hb)
    have hone : ∃ b, a.inBox = some b ∧
        step s a = (Mailbox.step reads s.box b).map fun box => { s with box } := by
      have hin := h a (List.mem_cons_self ..)
      cases a with
      | look i => exact ⟨.look i, rfl, rfl⟩
      | lower i => exact ⟨.lower i, rfl, rfl⟩
      | read i => exact ⟨.copy i, rfl, rfl⟩
      | hook call => cases hin
      | send i ok => cases hin
    obtain ⟨b, hb, hstep⟩ := hone
    rw [List.filterMap_cons_some hb, run_cons, run_cons, hstep]
    cases Mailbox.step reads s.box b with
    | none => rfl
    | some box => exact hrest { s with box }

/-- A worker that finds `armed` up and drains without being disturbed reports
the record. -/
theorem run_drain {s : Sys} {i : Nat} (harmed : s.box.flag = true)
    (hidle : s.box.readers i = .idle) (ok : Bool) :
    run step s (readAll i ++ [.send i ok]) =
      some { s with
        box := { s.box with flag := false, taken := s.box.taken ++ [(i, copyOf reads s.box.record)] }
        sent := if ok then s.sent ++ [(i, report s.box.record)] else s.sent } := by
  have hreads : run step s (readAll i) =
      some { s with box :=
        { s.box.setReader i (.copying (copyOf reads s.box.record)) with flag := false } } := by
    rw [run_reading, readAll_inBox, run_pass reads harmed hidle, Option.map_some]
    intro a ha
    rcases List.mem_append.mp ha with ha | ha
    · rcases List.mem_cons.mp ha with rfl | ha
      · rfl
      · rw [List.mem_singleton.mp ha]
        rfl
    · rw [List.eq_of_mem_replicate ha]
      rfl
  have hgot : Sys.got { s with box :=
      { s.box.setReader i (.copying (copyOf reads s.box.record)) with flag := false } } i =
        copyOf reads s.box.record := by
    unfold Sys.got
    simp only [readers_setReader_self]
  rw [run_append hreads, run_cons, step, step_take reads hidle, Option.map_some, hgot]
  rfl

/-- The call of the hook for a trap of type `traptype` in the task `name`. -/
def trapOf (name : String) (traptype : UInt32) : HookCall :=
  ⟨some (ascii name), some ⟨.exception, some ⟨traptype, 0x7F001000, fun _ => 0, 0, 0, 0, 0, 0⟩⟩⟩

/-- What it stores. -/
def recordOfTrap (name : String) (traptype : UInt32) : CrashRecord :=
  recordOf (some (ascii name)) ⟨traptype, 0x7F001000, fun _ => 0, 0, 0, 0, 0, 0⟩

/-- Worker 1 finds the first crash and waits while worker 0 reads it; the second
task traps before the first notification is out, and both workers report it. -/
def twoCrashes : List Label :=
  (.hook (trapOf "first" 0x300) :: .look 1 :: readAll 0) ++ .hook (trapOf "second" 0x700) ::
    (.send 0 true :: readAll 0 ++ .send 0 true :: .lower 1 ::
      List.replicate reads.length (.read 1) ++ [.send 1 true])

theorem run_twoCrashes : ∃ s, run step boot twoCrashes = some s ∧ s.box.flag = false ∧
    (∀ i, s.box.readers i = .idle) := by
  refine ⟨_, rfl, rfl, fun i => ?_⟩
  rcases i with _ | _ | i
  · rfl
  · rfl
  · rfl

/-- A notification that does not get out. -/
def Label.lost : Label → Bool
  | .send _ ok => !ok
  | _ => false

theorem twoCrashes_out (i : Nat) : Label.send i false ∉ twoCrashes := by
  intro h
  have hlost : twoCrashes.any Label.lost = true := List.any_eq_true.mpr ⟨_, h, rfl⟩
  cases hlost

/-! ## Reports -/

/-- In every run in which each notification gets out: with `armed` down and no
drain under way, the last crash has been reported, by all that was stored of
it. -/
theorem crash_reported {as : List Label} {s : Sys} (hrun : run step boot as = some s)
    (hout : ∀ i, Label.send i false ∉ as) (harmed : s.box.flag = false)
    (hidle : ∀ i, s.box.readers i = .idle) {r : CrashRecord}
    (hlast : (crashes as).getLast? = some r) : ∃ i, (i, report r) ∈ s.sent := by
  have hbox := run_box hrun
  have hposted := run_crashes hrun
  rcases (run_inv hbox).last r (by rw [hposted, hlast]) with hflag | ⟨i, got, hcopying, _⟩ | ⟨i, htaken⟩
  · rw [harmed] at hflag
    cases hflag
  · rw [hidle i] at hcopying
    cases hcopying
  · refine ⟨i, ?_⟩
    rw [run_sent_all hrun hout]
    exact List.mem_map_of_mem (f := fun t => (t.1, notification t.2)) htaken

theorem crash_reported_sample : ∃ s i, run step boot twoCrashes = some s ∧
    (i, report (recordOfTrap "second" 0x700)) ∈ s.sent := by
  obtain ⟨s, hrun, harmed, hidle⟩ := run_twoCrashes
  obtain ⟨i, hi⟩ := crash_reported hrun twoCrashes_out harmed hidle
    (r := recordOfTrap "second" 0x700) rfl
  exact ⟨s, i, hrun, hi⟩

/-- In every run, a connection gets at most one notification for each crash. -/
theorem sent_once {as : List Label} {s : Sys} (hrun : run step boot as = some s) (i : Nat) :
    (s.sent.filter fun t => t.1 = i).length ≤ (crashes as).length := by
  have hbox := run_box hrun
  have hposted := run_crashes hrun
  have hdrained : (s.drained.filter fun t => t.1 = i).length =
      (s.box.taken.filter fun t => t.1 = i).length := by
    rw [Sys.drained, List.filter_map, List.length_map]
    rfl
  have hpasses := ((run_inv hbox).once i).1
  have hsent := ((run_sent hrun).filter fun t => t.1 = i).length_le
  rw [Box.passes, hposted] at hpasses
  omega

theorem sent_once_sample : ∃ s, run step boot twoCrashes = some s ∧
    (s.sent.filter fun t => t.1 = 0).length ≤ 2 ∧
    (s.sent.filter fun t => t.1 = 1).length ≤ 2 := by
  obtain ⟨s, hrun, _⟩ := run_twoCrashes
  exact ⟨s, hrun, sent_once hrun 0, sent_once hrun 1⟩

/-! ## Whole reports -/

/-- No task traps while a worker is between the first and the last read. -/
def Undisturbed (s : Sys) : Label → Prop
  | .hook call => call.stored ≠ none →
      ∀ i got, s.box.readers i = .copying got → got = [] ∨ got.length = reads.length
  | _ => True

theorem undisturbed_quiet {s : Sys} {a : Label} {b : Mailbox.Label CrashRecord}
    (h : Undisturbed s a) (hb : a.inBox = some b) : Quiet reads s.box b := by
  cases a with
  | hook call =>
    obtain ⟨r, hstored, rfl⟩ := Option.map_eq_some_iff.mp hb
    exact h (by rw [hstored]; exact fun h => nomatch h)
  | look i =>
    cases hb
    trivial
  | lower i =>
    cases hb
    trivial
  | read i =>
    cases hb
    trivial
  | send i ok =>
    cases hb
    trivial

theorem quiet_box {s t : Sys} {as : List Label} (h : Along step Undisturbed s as)
    (hrun : run step s as = some t) :
    Along (Mailbox.step reads) (Quiet reads) s.box (as.filterMap Label.inBox) := by
  induction as generalizing s with
  | nil => trivial
  | cons a as ih =>
    obtain ⟨s', hs', hrest⟩ := run_cons_some hrun
    have htail := ih (h.tail hs') hrest
    rcases step_box hs' with ⟨hnone, hbox⟩ | ⟨b, hsome, hbox⟩
    · rw [List.filterMap_cons_none hnone, ← hbox]
      exact htail
    · rw [List.filterMap_cons_some hsome]
      refine Along.cons (undisturbed_quiet h.head hsome) fun b' hb' => ?_
      rw [hbox] at hb'
      cases hb'
      exact htail

/-- When no task traps between the first and the last read of a drain, every
notification is about one crash. -/
theorem sent_whole {as : List Label} {s : Sys} (hrun : run step boot as = some s)
    (hquiet : Along step Undisturbed boot as) :
    ∀ t ∈ s.sent, ∃ r ∈ crashes as, t.2 = report r := by
  intro t ht
  obtain ⟨taken, htaken, rfl⟩ := List.mem_map.mp ((run_sent hrun).mem ht)
  obtain ⟨r, hr, hcopy⟩ := taken_whole (quiet_box hquiet hrun) (run_box hrun) taken htaken
  rw [run_crashes hrun] at hr
  exact ⟨r, hr, by rw [hcopy]; rfl⟩

def Label.isHook : Label → Bool
  | .hook _ => true
  | _ => false

theorem along_undisturbed {as : List Label} (h : as.any Label.isHook = false) (s : Sys) :
    Along step Undisturbed s as := by
  refine along_of_forall (fun a ha _ => ?_) s
  have hone : a.isHook = false := by simpa using List.any_eq_false.mp h a ha
  cases a with
  | hook call => cases hone
  | look i => trivial
  | lower i => trivial
  | read i => trivial
  | send i ok => trivial

theorem twoCrashes_undisturbed : Along step Undisturbed boot twoCrashes := by
  have hfirst : Along step Undisturbed boot (.hook (trapOf "first" 0x300) :: .look 1 :: readAll 0) :=
    Along.cons (fun _ i got h => nomatch h) fun s _ => along_undisturbed rfl s
  -- worker 0 has all its reads when the second task traps
  obtain ⟨t, ht, hreads⟩ : ∃ t, run step boot (.hook (trapOf "first" 0x300) :: .look 1 :: readAll 0) =
      some t ∧ ∀ i got, t.box.readers i = .copying got → got = [] ∨ got.length = reads.length := by
    refine ⟨_, rfl, fun i got h => ?_⟩
    rcases i with _ | _ | i
    · cases h
      exact Or.inr rfl
    · cases h
    · cases h
  refine hfirst.append fun t' ht' => ?_
  rw [ht] at ht'
  cases ht'
  exact Along.cons (fun _ => hreads) fun s _ => along_undisturbed rfl s

theorem sent_whole_sample : ∃ s, run step boot twoCrashes = some s ∧
    ∀ t ∈ s.sent, ∃ r ∈ crashes twoCrashes, t.2 = report r := by
  obtain ⟨s, hrun, _⟩ := run_twoCrashes
  exact ⟨s, hrun, sent_whole hrun twoCrashes_undisturbed⟩

/-- A task traps when a drain has read the name. -/
def tornRun : List Label :=
  [.hook (trapOf "first" 0x300), .look 0, .lower 0, .read 0, .hook (trapOf "second" 0x700)] ++
    List.replicate 17 (.read 0) ++ [.send 0 true]

/-- The members `task` and `traptype` of a notification. -/
def taskAndTraptype (env : CJson) : Option CJson × Option CJson :=
  let data := (env.getItem (ascii "params")).bind fun params => params.getItem (ascii "data")
  (data.bind fun data => data.getItem (ascii "task"),
    data.bind fun data => data.getItem (ascii "traptype"))

/-- Then a notification has the name of one task and the trap of the other. -/
theorem crash_torn : ∃ s t, run step boot tornRun = some s ∧ t ∈ s.sent ∧
    ∀ r ∈ crashes tornRun, t.2 ≠ report r := by
  refine ⟨_, _, rfl, List.mem_singleton_self _, fun r hr heq => ?_⟩
  have hcrashes : crashes tornRun = [recordOfTrap "first" 0x300, recordOfTrap "second" 0x700] := rfl
  have hboth := congrArg taskAndTraptype heq
  rw [hcrashes] at hr
  rcases List.mem_cons.mp hr with rfl | hr
  · have htraptype : some (word 0x700) = some (word 0x300) := congrArg Prod.snd hboth
    cases htraptype
  · rw [List.mem_singleton.mp hr] at hboth
    have htask : some (CJson.string (ascii "first")) = some (.string (ascii "second")) :=
      congrArg Prod.fst hboth
    cases htask

end AmigaFleet.Mcpd.CrashHook

import AmigaFleet.Mcpd.Events
import AmigaFleet.Mcpd.Sys

/-!
# events.wait

`events_wait` of `mcpd/src/methods/events.c`, the long poll.  A `Poll` is what
the machine shows at one turn of its loop.

The names of the tasks are kept in a table of 128 entries, which the ready list
fills first.

* `taskReports_waitLoop`: what is reported of the tasks is the difference of the
  first table and the last.
* `trueChanges_iff`: when this is the difference of the lists.
-/

namespace AmigaFleet.Mcpd.Events

open AmigaFleet.Lib
open AmigaFleet.Mcpd.Sys (TaskLists)

/-! ## The code -/

def pollPeriodMs : Nat := 200

def maxTimeoutMs : Nat := 60000

def maxTaskNames : Nat := 128

def taskNameLen : Nat := 80

/-- `_sanitize_str` into a buffer of `TASK_NAME_LEN` bytes -/
def sanitizeStr (src : Option Bytes) : Bytes := Sys.sanitize src taskNameLen

/-- `_snapshot_task_names` -/
def snapshotTaskNames (eb : TaskLists) : List Bytes :=
  let ready := (eb.ready.take maxTaskNames).map fun t => sanitizeStr t.name
  ready ++ (eb.wait.take (maxTaskNames - ready.length)).map fun t => sanitizeStr t.name

/-- `_name_in_set` -/
def nameInSet (names : List Bytes) (name : Bytes) : Bool := names.any fun n => n = name

/-- The topics that are wanted. -/
structure Wanted where
  alert : Bool
  task : Bool
  excpt : Bool
deriving DecidableEq, Repr

/-- One entry of `topics`. -/
def wantTopic (want : Wanted) : CJson → Wanted
  | .string text =>
    if text = ascii "sys.lastalert" then { want with alert := true }
    else if text = ascii "sys.task" then { want with task := true }
    else if text = ascii "debug.exception" then { want with excpt := true }
    else want
  | _ => want

/-- The topics, by default all of them. -/
def wantedOf (params : Option CJson) : Wanted :=
  match params.bind (CJson.getItem (ascii "topics")) with
  | some (.array items) =>
    let want := items.foldl wantTopic ⟨false, false, false⟩
    if want.alert || want.task || want.excpt then want else ⟨true, true, true⟩
  | _ => ⟨true, true, true⟩

/-- `timeout_ms`, within its bounds. -/
def timeoutOf (params : Option CJson) : Nat :=
  let timeout := pInt params "timeout_ms" 5000
  if timeout < 0 then 0 else if timeout > maxTimeoutMs then maxTimeoutMs else timeout.toNat

inductive TaskAction where
  | added
  | removed
deriving DecidableEq, Repr

def TaskAction.name : TaskAction → String
  | .added => "added"
  | .removed => "removed"

inductive WaitEvent where
  | lastalert (change : Change UInt32)
  | exception (code : UInt32) (payload : Payload)
  | task (action : TaskAction) (name : Bytes)
deriving DecidableEq, Repr

/-- An entry of `events`. -/
def waitEntry (topic : String) (data : List (Bytes × CJson)) : CJson :=
  .object [(ascii "topic", cString topic), (ascii "data", .object data)]

def WaitEvent.json : WaitEvent → CJson
  | .lastalert change => waitEntry "sys.lastalert"
      [(ascii "alert_code", word change.current), (ascii "previous", word change.previous)]
  | .exception code payload => waitEntry "debug.exception"
      [(ascii "alert_code", word code), decodedAlert code,
        (ascii "payload", .array [word payload.first, word payload.second, word payload.third])]
  | .task action name => waitEntry "sys.task"
      [(ascii "action", cString action.name), (ascii "name", .string name)]

/-- What one turn of the loop finds behind its `Delay`. -/
structure Poll where
  ctrlC : Bool := false
  lastAlert : UInt32
  payload : Payload
  tasks : TaskLists

/-- The locals of `events_wait`.  `lists` are the lists that `prevTasks` was taken from,
which the code does not keep. -/
structure WaitState where
  prevAlert : UInt32
  prevTasks : List Bytes
  events : List WaitEvent := []
  gotChange : Bool := false
  lists : TaskLists

/-- The look at the alert code. -/
def pollAlert (want : Wanted) (p : Poll) (s : WaitState) : WaitState :=
  if (want.alert || want.excpt) && p.lastAlert ≠ s.prevAlert then
    { s with
      events := s.events ++
        (if want.alert then [.lastalert ⟨s.prevAlert, p.lastAlert⟩] else []) ++
        (if want.excpt && deadEnd p.lastAlert then [.exception p.lastAlert p.payload] else [])
      prevAlert := p.lastAlert
      gotChange := true }
  else s

/-- The events of two tables. -/
def taskEvents (prev cur : List Bytes) : List WaitEvent :=
  (cur.filter fun name => !nameInSet prev name).map (WaitEvent.task .added) ++
    (prev.filter fun name => !nameInSet cur name).map (WaitEvent.task .removed)

/-- The look at the task lists. -/
def pollTasks (want : Wanted) (p : Poll) (s : WaitState) : WaitState :=
  if want.task then
    let curTasks := snapshotTaskNames p.tasks
    let found := taskEvents s.prevTasks curTasks
    { s with
      events := s.events ++ found
      gotChange := s.gotChange || found ≠ []
      prevTasks := curTasks
      lists := p.tasks }
  else s

/-- The poll loop of `events_wait`, and `elapsed`.  `polls` is what the turns find. -/
def waitLoop (want : Wanted) (timeoutMs : Nat) (polls : Nat → Poll) (elapsed : Nat)
    (s : WaitState) : WaitState × Nat :=
  if elapsed < timeoutMs then
    let p := polls (elapsed / pollPeriodMs)
    if p.ctrlC then (s, elapsed + pollPeriodMs)
    else
      let s := pollTasks want p (pollAlert want p s)
      if s.gotChange then (s, elapsed + pollPeriodMs)
      else waitLoop want timeoutMs polls (elapsed + pollPeriodMs) s
  else (s, elapsed)
termination_by timeoutMs - elapsed
decreasing_by
  unfold pollPeriodMs
  omega

/-- What `events_wait` finds before its loop. -/
structure Baseline where
  /-- both `calloc` succeed -/
  allocates : Bool := true
  lastAlert : UInt32
  tasks : TaskLists

def Baseline.start (b : Baseline) (want : Wanted) : WaitState where
  prevAlert := b.lastAlert
  prevTasks := if want.task then snapshotTaskNames b.tasks else []
  lists := b.tasks

/-- The state behind the loop, and `elapsed`. -/
def waitRun (b : Baseline) (polls : Nat → Poll) (params : Option CJson) : WaitState × Nat :=
  waitLoop (wantedOf params) (timeoutOf params) polls 0 (b.start (wantedOf params))

/-- `events_wait` -/
def eventsWait (b : Baseline) (polls : Nat → Poll) : Handler := fun params =>
  if (wantedOf params).task && !b.allocates then
    .error (rpcMakeError mcpdErrInternal "events.wait: out of memory" none)
  else
    let (s, elapsed) := waitRun b polls params
    .ok (.object [(ascii "events", .array (s.events.map WaitEvent.json)),
      (ascii "elapsed_ms", cNumber elapsed)])

/-! ## Names -/

/-- The names of all tasks, as the daemon stores a name. -/
def taskNames (eb : TaskLists) : List Bytes := (eb.ready ++ eb.wait).map fun t => sanitizeStr t.name

/-- The table holds the first 128 names. -/
theorem snapshotTaskNames_eq (eb : TaskLists) :
    snapshotTaskNames eb = (taskNames eb).take maxTaskNames := by
  unfold snapshotTaskNames taskNames
  have hrest : maxTaskNames - min maxTaskNames eb.ready.length =
      maxTaskNames - eb.ready.length := by
    omega
  simp only [List.map_append, List.take_append, List.map_take, List.length_map,
    List.length_take, hrest]

@[simp] theorem nameInSet_eq_true (names : List Bytes) (name : Bytes) :
    nameInSet names name = true ↔ name ∈ names := by
  simp [nameInSet]

theorem mem_taskEvents_added (prev cur : List Bytes) (name : Bytes) :
    .task .added name ∈ taskEvents prev cur ↔ name ∈ cur ∧ name ∉ prev := by
  simp [taskEvents, ← nameInSet_eq_true]

theorem mem_taskEvents_removed (prev cur : List Bytes) (name : Bytes) :
    .task .removed name ∈ taskEvents prev cur ↔ name ∈ prev ∧ name ∉ cur := by
  simp [taskEvents, ← nameInSet_eq_true]

/-! ## What is reported along the loop -/

/-- The events of tasks are the difference between the table `first` and the table that is
kept; without a change there are none. -/
structure TaskReports (first : List Bytes) (s : WaitState) : Prop where
  table : s.prevTasks = snapshotTaskNames s.lists
  quiet : s.gotChange = false → s.events = []
  added : ∀ name, .task .added name ∈ s.events ↔ name ∈ s.prevTasks ∧ name ∉ first
  removed : ∀ name, .task .removed name ∈ s.events ↔ name ∈ first ∧ name ∉ s.prevTasks

theorem taskReports_start (b : Baseline) {want : Wanted} (htask : want.task = true) :
    TaskReports (snapshotTaskNames b.tasks) (b.start want) where
  table := by simp [Baseline.start, htask]
  quiet _ := rfl
  added name := by simp [Baseline.start, htask]
  removed name := by simp [Baseline.start, htask]

/-- The alert code is no matter of the tasks. -/
theorem pollAlert_tasks (want : Wanted) (p : Poll) (s : WaitState) :
    (pollAlert want p s).prevTasks = s.prevTasks ∧ (pollAlert want p s).lists = s.lists ∧
      ∀ action name, .task action name ∈ (pollAlert want p s).events ↔
        .task action name ∈ s.events := by
  unfold pollAlert
  split
  · refine ⟨rfl, rfl, fun action name => ?_⟩
    cases want.alert <;> cases want.excpt && deadEnd p.lastAlert <;> simp
  · exact ⟨rfl, rfl, fun _ _ => Iff.rfl⟩

theorem pollAlert_quiet {want : Wanted} {p : Poll} {s : WaitState}
    (h : s.gotChange = false → s.events = []) (hquiet : (pollAlert want p s).gotChange = false) :
    (pollAlert want p s).events = [] := by
  unfold pollAlert at hquiet ⊢
  split at hquiet
  · cases hquiet
  · rename_i hsame
    rw [if_neg hsame]
    exact h hquiet

/-- A turn after turns without a change. -/
theorem taskReports_poll {first : List Bytes} {want : Wanted} (htask : want.task = true) (p : Poll)
    {s : WaitState} (h : TaskReports first s) (hsame : s.gotChange = false) :
    TaskReports first (pollTasks want p (pollAlert want p s)) := by
  obtain ⟨htable, hlists, hevents⟩ := pollAlert_tasks want p s
  have hnone : s.events = [] := h.quiet hsame
  -- nothing was reported, so that the last table has the names of the first
  have hnames : ∀ name, name ∈ s.prevTasks ↔ name ∈ first := by
    intro name
    have hadded := h.added name
    have hremoved := h.removed name
    rw [hnone] at hadded hremoved
    simp only [List.not_mem_nil, false_iff, not_and, not_not] at hadded hremoved
    exact ⟨hadded, hremoved⟩
  have hno : ∀ action name, .task action name ∉ (pollAlert want p s).events := by
    intro action name hmem
    rw [hevents, hnone] at hmem
    cases hmem
  unfold pollTasks
  rw [if_pos htask]
  constructor
  · rfl
  · intro hquiet
    simp only [Bool.or_eq_false_iff, decide_eq_false_iff_not, not_not, ne_eq] at hquiet
    show (pollAlert want p s).events ++ _ = []
    rw [pollAlert_quiet h.quiet hquiet.1, hquiet.2]
    rfl
  · intro name
    rw [List.mem_append, or_iff_right (hno _ _), htable, mem_taskEvents_added, hnames]
  · intro name
    rw [List.mem_append, or_iff_right (hno _ _), htable, mem_taskEvents_removed, hnames]

theorem taskReports_waitLoop {first : List Bytes} {want : Wanted} (htask : want.task = true)
    (timeoutMs : Nat) (polls : Nat → Poll) (elapsed : Nat) (s : WaitState) (h : TaskReports first s)
    (hsame : s.gotChange = false) :
    TaskReports first (waitLoop want timeoutMs polls elapsed s).1 := by
  fun_induction waitLoop want timeoutMs polls elapsed s with
  | case1 => exact h
  | case2 elapsed s hlt p hctrlC s' hchange =>
    exact taskReports_poll htask p h hsame
  | case3 elapsed s hlt p hctrlC s' hchange ih =>
    exact ih (taskReports_poll htask p h hsame) (by simpa using hchange)
  | case4 => exact h

theorem taskReports_waitRun (b : Baseline) (polls : Nat → Poll) (params : Option CJson)
    (htask : (wantedOf params).task = true) :
    TaskReports (snapshotTaskNames b.tasks) (waitRun b polls params).1 :=
  taskReports_waitLoop htask (timeoutOf params) polls 0 _ (taskReports_start b htask) rfl

/-! ## True changes -/

/-- The entry of a task in `events`. -/
def taskEntry (action : TaskAction) (name : Bytes) : CJson := (WaitEvent.task action name).json

theorem json_eq_taskEntry {event : WaitEvent} {action : TaskAction} {name : Bytes}
    (h : event.json = taskEntry action name) : event = .task action name := by
  have hname : ∀ a b : TaskAction, ascii a.name = ascii b.name → a = b := by
    intro a b hab
    cases a <;> cases b <;> first | rfl | exact absurd hab (by decide)
  cases event with
  | lastalert change =>
    simp only [taskEntry, WaitEvent.json, waitEntry, CJson.object.injEq, List.cons.injEq,
      Prod.mk.injEq] at h
    exact absurd (CJson.string.inj h.1.2) (by decide)
  | exception code payload =>
    simp only [taskEntry, WaitEvent.json, waitEntry, CJson.object.injEq, List.cons.injEq,
      Prod.mk.injEq] at h
    exact absurd (CJson.string.inj h.1.2) (by decide)
  | task a n =>
    simp only [taskEntry, WaitEvent.json, waitEntry, CJson.object.injEq, List.cons.injEq,
      Prod.mk.injEq, CJson.string.injEq] at h
    rw [hname a action (CJson.string.inj h.2.1.2.1.2), h.2.1.2.2.1.2]

/-- `events.wait` reports the names that come in and those that go. -/
def TrueChanges (first last : TaskLists) (items : List CJson) : Prop := ∀ name,
  (taskEntry .added name ∈ items ↔ name ∈ taskNames last ∧ name ∉ taskNames first) ∧
    (taskEntry .removed name ∈ items ↔ name ∈ taskNames first ∧ name ∉ taskNames last)

/-- The first 128 entries tell of every name what the whole lists tell. -/
def Tracked (first last : TaskLists) : Prop := ∀ name,
  (name ∈ taskNames first → name ∈ taskNames last →
    (name ∈ (taskNames first).take maxTaskNames ↔ name ∈ (taskNames last).take maxTaskNames)) ∧
  (name ∈ taskNames first → name ∉ taskNames last → name ∈ (taskNames first).take maxTaskNames) ∧
  (name ∉ taskNames first → name ∈ taskNames last → name ∈ (taskNames last).take maxTaskNames)

theorem tracked_of_length_le {first last : TaskLists}
    (hfirst : (taskNames first).length ≤ maxTaskNames)
    (hlast : (taskNames last).length ≤ maxTaskNames) : Tracked first last := by
  intro name
  rw [List.take_of_length_le hfirst, List.take_of_length_le hlast]
  exact ⟨fun h h' => iff_of_true h h', fun h _ => h, fun _ h => h⟩

theorem mem_json_iff {events : List WaitEvent} {action : TaskAction} {name : Bytes} :
    taskEntry action name ∈ events.map WaitEvent.json ↔ .task action name ∈ events := by
  rw [List.mem_map]
  constructor
  · rintro ⟨event, hmem, hjson⟩
    rw [← json_eq_taskEntry hjson]
    exact hmem
  · exact fun hmem => ⟨_, hmem, rfl⟩

/-- The difference of the tables is that of the lists exactly when they are tracked. -/
theorem TaskReports.differences_iff {first : TaskLists} {s : WaitState}
    (h : TaskReports (snapshotTaskNames first) s) :
    TrueChanges first s.lists (s.events.map WaitEvent.json) ↔ Tracked first s.lists := by
  refine forall_congr' fun name => ?_
  have hfirst : name ∈ (taskNames first).take maxTaskNames → name ∈ taskNames first :=
    List.mem_of_mem_take
  have hlast : name ∈ (taskNames s.lists).take maxTaskNames → name ∈ taskNames s.lists :=
    List.mem_of_mem_take
  rw [mem_json_iff, mem_json_iff, h.added, h.removed, h.table, snapshotTaskNames_eq,
    snapshotTaskNames_eq]
  by_cases hin : name ∈ taskNames first
  · by_cases hin' : name ∈ taskNames s.lists
    · simp only [hin, hin', true_imp_iff, not_true, false_imp_iff, and_false, and_true, iff_false]
      tauto
    · have hout : name ∉ (taskNames s.lists).take maxTaskNames := mt hlast hin'
      simp only [hin, hin', hout]
      tauto
  · have hout : name ∉ (taskNames first).take maxTaskNames := mt hfirst hin
    by_cases hin' : name ∈ taskNames s.lists
    · simp only [hin, hin', hout]
      tauto
    · have hout' : name ∉ (taskNames s.lists).take maxTaskNames := mt hlast hin'
      simp [hin, hin', hout, hout']

/-- The answer of `events.wait`. -/
theorem eventsWait_ok (b : Baseline) (polls : Nat → Poll) (params : Option CJson)
    (hallocates : b.allocates = true) :
    eventsWait b polls params = .ok (.object
      [(ascii "events", .array ((waitRun b polls params).1.events.map WaitEvent.json)),
        (ascii "elapsed_ms", cNumber (waitRun b polls params).2)]) := by
  unfold eventsWait
  rw [hallocates, if_neg (by simp)]

/-- With a timeout of one period the last lists are those of the only turn. -/
theorem lists_one_turn (b : Baseline) (polls : Nat → Poll) (params : Option CJson)
    (htimeout : timeoutOf params = pollPeriodMs) (hctrlC : (polls 0).ctrlC = false)
    (htask : (wantedOf params).task = true) :
    (waitRun b polls params).1.lists = (polls 0).tasks := by
  unfold waitRun
  rw [htimeout, waitLoop]
  have hlists : (pollTasks (wantedOf params) (polls 0) (pollAlert (wantedOf params) (polls 0)
      (b.start (wantedOf params)))).lists = (polls 0).tasks := by
    rw [pollTasks, if_pos htask]
  simp only [show 0 < pollPeriodMs from by decide, if_true, Nat.zero_div, hctrlC,
    Bool.false_eq_true,
    if_false]
  split
  · exact hlists
  · rw [waitLoop, if_neg (by simp)]
    exact hlists

/-- From the lists before the loop to those of the last turn the reports are true exactly
when the table keeps track of the names. -/
theorem trueChanges_iff (b : Baseline) (polls : Nat → Poll) (params : Option CJson)
    (hallocates : b.allocates = true) (htask : (wantedOf params).task = true) :
    ∃ items elapsed, eventsWait b polls params =
        .ok (.object [(ascii "events", .array items), (ascii "elapsed_ms", elapsed)]) ∧
      (TrueChanges b.tasks (waitRun b polls params).1.lists items ↔
        Tracked b.tasks (waitRun b polls params).1.lists) :=
  ⟨_, _, eventsWait_ok b polls params hallocates,
    (taskReports_waitRun b polls params htask).differences_iff⟩

/-- A task of a name. -/
def sampleTask (name : String) : Sys.Task := ⟨some (ascii name), .task, 0, .wait⟩

/-- A request that ends with its first turn. -/
def onePeriod : Option CJson := some (.object [(ascii "timeout_ms", .number 200)])

def sampleBaseline (tasks : TaskLists) : Baseline := { lastAlert := 0, tasks := tasks }

def samplePoll (tasks : TaskLists) : Poll :=
  { lastAlert := 0, payload := ⟨0, 0, 0⟩, tasks := tasks }

def before : TaskLists := ⟨[], [sampleTask "input.device"]⟩

def after : TaskLists := ⟨[sampleTask "MCPd"], [sampleTask "input.device"]⟩

theorem trueChanges_one_added :
    ∃ items elapsed, eventsWait (sampleBaseline before) (fun _ => samplePoll after) onePeriod =
        .ok (.object [(ascii "events", .array items), (ascii "elapsed_ms", elapsed)]) ∧
      (TrueChanges before
        (waitRun (sampleBaseline before) (fun _ => samplePoll after) onePeriod).1.lists
          items ↔
        Tracked before
          (waitRun (sampleBaseline before) (fun _ => samplePoll after) onePeriod).1.lists) :=
  trueChanges_iff (sampleBaseline before) (fun _ => samplePoll after) onePeriod rfl rfl

/-- 128 tasks of one name. -/
def crowd : List Sys.Task := List.replicate maxTaskNames (sampleTask "ramlib")

/-- Nothing comes or goes, but a waiting task becomes ready, and it is reported as added. -/
theorem ready_task_added : ¬∀ items elapsed,
    eventsWait (sampleBaseline ⟨crowd, [sampleTask "MCPd"]⟩)
        (fun _ => samplePoll ⟨sampleTask "MCPd" :: crowd, []⟩) onePeriod =
      .ok (.object [(ascii "events", .array items), (ascii "elapsed_ms", elapsed)]) →
    TrueChanges ⟨crowd, [sampleTask "MCPd"]⟩ ⟨sampleTask "MCPd" :: crowd, []⟩ items := by
  intro h
  have hlists := lists_one_turn (sampleBaseline ⟨crowd, [sampleTask "MCPd"]⟩)
    (fun _ => samplePoll ⟨sampleTask "MCPd" :: crowd, []⟩) onePeriod rfl rfl rfl
  have hreports := taskReports_waitRun (sampleBaseline ⟨crowd, [sampleTask "MCPd"]⟩)
    (fun _ => samplePoll ⟨sampleTask "MCPd" :: crowd, []⟩) onePeriod rfl
  have htrue := h _ _ (eventsWait_ok _ _ _ rfl)
  have htracked := hreports.differences_iff.mp (by rw [hlists]; exact htrue)
  rw [hlists] at htracked
  change Tracked ⟨crowd, [sampleTask "MCPd"]⟩ ⟨sampleTask "MCPd" :: crowd, []⟩ at htracked
  have hname : taskNames ⟨crowd, [sampleTask "MCPd"]⟩ =
      List.replicate maxTaskNames (ascii "ramlib") ++ [ascii "MCPd"] := by
    rw [taskNames, List.map_append, crowd, List.map_replicate]
    rfl
  have hout := (htracked (ascii "MCPd")).1 (by rw [hname]; simp) (List.mem_cons_self ..)
  rw [hname, List.take_left' List.length_replicate] at hout
  exact absurd (List.eq_of_mem_replicate (hout.mpr (List.mem_cons_self ..))) (by decide)

end AmigaFleet.Mcpd.Events

import AmigaFleet.Host.Transport
import AmigaFleet.Lib.Dict

/-!
# Quorum runs

`fleet_quorum_run` of `tools/fleet.py` starts one task for each entry of its
target list, takes the tasks as they complete, and stops at the quorum.

* A `Wait` is how one `asyncio.wait` ends: tasks that are done, in the order in
  which the loop takes them, or the end of the time.
* `quorumLoop` runs on a row of waits.  `Course` says which rows there can be:
  a wait ends by the time, or gives some of the pending tasks, and there is one as
  long as `while` goes on.  `course_result`: on these rows the loop has a result.
* The code counts tasks, and its results are by target.  The two agree unless
  a target is asked twice: `quorum_sound_iff`.
-/

namespace AmigaFleet.Host.Fleet

open AmigaFleet.Lib
open AmigaFleet.Mcpd (ascii)
open AmigaFleet.Host.Transport (ErrorClass JsonRpcError text)

/-! ## Errors -/

/-- The `code` of a subclass of `JsonRpcError`. -/
def errorCode : ErrorClass → Int
  | .parseError => -32700
  | .invalidParams => -32602
  | .methodNotFound => -32601
  | .internalError => -32603
  | .targetError => -32001
  | .cancelled => -32002
  | .notCapable => -32003
  | .authRequired => -32004
  | .busy => -32005
  | .jsonRpcError => -32603

/-- `JsonRpcError.to_dict` -/
def toDict (e : JsonRpcError) : Json :=
  .dict ([(ascii "code", .int (errorCode e.cls)), (ascii "message", e.message)] ++
    match e.data with
    | .null => []
    | data => [(ascii "data", data)])

/-- The keys of `_FANOUT`, sorted. -/
def fanoutMethods : List String :=
  ["exec.cmd", "fs.copy", "fs.delete", "fs.list", "fs.makedir", "fs.protect", "fs.read", "fs.rename",
    "fs.stat", "fs.write", "sandbox.deploy", "sandbox.last_trap", "sandbox.probe",
    "sandbox.run_batch", "sandbox.run_driver", "sandbox.run_guest", "sys.debug_ring", "sys.devices",
    "sys.lastalert", "sys.libraries", "sys.ports", "sys.tasks", "sys.version", "wb.screens",
    "wb.screenshot", "wb.windows"]

/-- The refusal of a method; `quoted` is its `repr`. -/
def notFanned (quoted : Bytes) : JsonRpcError :=
  ⟨.invalidParams, text [ascii "method ", quoted, ascii " cannot be fanned out"],
    .dict [(ascii "available", .list (fanoutMethods.map fun m => .str (ascii m)))]⟩

def noQuorum : JsonRpcError := ⟨.invalidParams, text [ascii "quorum must be >= 1"], .null⟩

def quorumTooLarge (quorum : Int) (targets : List Bytes) : JsonRpcError :=
  ⟨.invalidParams, text [ascii "quorum (", Json.intText quorum, ascii ") > targets (",
      Json.intText targets.length, ascii ")"],
    .dict [(ascii "targets", .list (targets.map .str))]⟩

/-! ## Entries -/

structure FanOutEntry where
  ok : Json := .null
  error : Option Json := none

def FanOutEntry.isOk (entry : FanOutEntry) : Bool := entry.error.isNone

/-- How the call on one target ends; a result is already dumped. -/
inductive CallOutcome where
  | result (r : Json)
  | jsonRpc (e : JsonRpcError)
  /-- any other exception, with its text -/
  | exception (message : Bytes)

/-- `_one` -/
def CallOutcome.entry : CallOutcome → FanOutEntry
  | .result r => { ok := r }
  | .jsonRpc e => { error := some (toDict e) }
  | .exception message =>
    { error := some (.dict [(ascii "code", .int (-32603)), (ascii "message", .str message)]) }

/-- The entry of a target whose task has been cancelled. -/
def cancelledEntry (name : Bytes) : FanOutEntry :=
  { error := some (.dict [(ascii "code", .int (-32002)),
      (ascii "message", .str (ascii "cancelled: quorum reached or overall timeout")),
      (ascii "data", .dict [(ascii "target", .str name)])]) }

/-! ## The loop -/

structure Running where
  /-- `tasks`: the tasks that have not been taken, by their places in the list -/
  tasks : List (Nat × Bytes)
  results : Dict Bytes FanOutEntry := []
  okCount : Nat := 0

inductive Wait where
  | expired
  | done (batch : List (Nat × CallOutcome))

/-- One task of `done`. -/
def Running.take (s : Running) (task : Nat) (outcome : CallOutcome) : Option Running :=
  match s.tasks.find? fun t => t.1 = task with
  | none => none
  | some t =>
    some {
      tasks := s.tasks.filter fun t' => t'.1 ≠ task
      results := s.results.set t.2 outcome.entry
      okCount := if outcome.entry.isOk then s.okCount + 1 else s.okCount }

def Running.takeAll (s : Running) : List (Nat × CallOutcome) → Option Running
  | [] => some s
  | (task, outcome) :: batch => (s.take task outcome).bind fun s' => s'.takeAll batch

/-- The condition of `while`. -/
def Running.goesOn (quorum : Int) (s : Running) : Bool := s.tasks ≠ [] && s.okCount < quorum

def quorumLoop (quorum : Int) (s : Running) : List Wait → Option Running
  | [] => if s.goesOn quorum then none else some s
  | wait :: waits =>
    if s.goesOn quorum then
      match wait with
      | .expired => if waits.isEmpty then some s else none
      | .done [] => none
      | .done batch => (s.takeAll batch).bind fun s' => quorumLoop quorum s' waits
    else none

/-- The entry of a cancelled task; a target that has one keeps it. -/
def addCancelled (results : Dict Bytes FanOutEntry) (name : Bytes) : Dict Bytes FanOutEntry :=
  if results.has name then results else results.set name (cancelledEntry name)

/-- Behind the loop the pending tasks are cancelled.  Whatever they still return
is dropped. -/
def Running.cancelRest (s : Running) : Dict Bytes FanOutEntry :=
  (s.tasks.map Prod.snd).foldl addCancelled s.results

structure QuorumRunResult where
  method : Bytes
  quorum : Int
  reached : Bool
  results : Dict Bytes FanOutEntry

/-- One task for each target. -/
def createTasks (targets : List Bytes) : Running := { tasks := (List.range targets.length).zip targets }

/-- `fleet_quorum_run`; `quoted` is the `repr` of the method. -/
def fleetQuorumRun (method quoted : Bytes) (quorum : Int) (targets : List Bytes) (waits : List Wait) :
    Option (Except JsonRpcError QuorumRunResult) :=
  if fanoutMethods.any (fun m => ascii m = method) = false then some (.error (notFanned quoted))
  else if quorum ≤ 0 then some (.error noQuorum)
  else if (targets.length : Int) < quorum then some (.error (quorumTooLarge quorum targets))
  else (quorumLoop quorum (createTasks targets) waits).map fun s =>
    .ok ⟨method, quorum, quorum ≤ s.okCount, s.cancelRest⟩

/-! ## The rows of waits -/

/-- What one `asyncio.wait` on the pending tasks can give: the time is over, or some of
the tasks are done, each of them once. -/
def Wait.Fits (s : Running) : Wait → Prop
  | .expired => True
  | .done batch => batch ≠ [] ∧ (batch.map Prod.fst).Nodup ∧
      ∀ task ∈ batch.map Prod.fst, task ∈ s.tasks.map Prod.fst

/-- The rows of waits that a call can meet from `s` on. -/
inductive Course (quorum : Int) : Running → List Wait → Prop where
  | ended {s : Running} (hends : s.goesOn quorum = false) : Course quorum s []
  | expired {s : Running} (hgoes : s.goesOn quorum = true) : Course quorum s [.expired]
  | done {s s' : Running} {batch : List (Nat × CallOutcome)} {waits : List Wait}
      (hgoes : s.goesOn quorum = true) (hfits : Wait.Fits s (.done batch))
      (htake : s.takeAll batch = some s') (hrest : Course quorum s' waits) :
      Course quorum s (.done batch :: waits)

/-- Where the loop stands behind these waits, if they were all results. -/
def Running.after (s : Running) : List Wait → Option Running
  | [] => some s
  | .expired :: _ => none
  | .done batch :: waits => (s.takeAll batch).bind fun s' => s'.after waits

/-! ## Soundness -/

/-- The targets with an entry without an error. -/
def okEntries (results : Dict Bytes FanOutEntry) : List (Bytes × FanOutEntry) :=
  results.filter fun e => e.2.isOk

/-- `reached` tells whether enough targets have an entry without an error, and
every target that has been asked has one entry. -/
structure QuorumRunResult.Sound (targets : List Bytes) (r : QuorumRunResult) : Prop where
  reached : r.reached = true ↔ r.quorum ≤ (okEntries r.results).length
  one : r.results.keys.Nodup
  each : ∀ name, name ∈ r.results.keys ↔ name ∈ targets

/-! ## One task -/

/-- The tasks have places of their own. -/
def Running.Placed (s : Running) : Prop := (s.tasks.map Prod.fst).Nodup

theorem placed_createTasks (targets : List Bytes) : (createTasks targets).Placed := by
  show (((List.range targets.length).zip targets).map Prod.fst).Nodup
  rw [List.map_fst_zip (by simp)]
  exact List.nodup_range

/-- A task that is taken leaves the tasks, and its target gets the entry. -/
theorem take_cases {s s' : Running} {task : Nat} {outcome : CallOutcome} (h : s.Placed)
    (htake : s.take task outcome = some s') :
    ∃ name before after, s.tasks = before ++ (task, name) :: after ∧ s'.tasks = before ++ after ∧
      s'.results = s.results.set name outcome.entry ∧
      s'.okCount = s.okCount + if outcome.entry.isOk = true then 1 else 0 := by
  unfold Running.take at htake
  cases hfind : s.tasks.find? fun t => t.1 = task with
  | none =>
    rw [hfind] at htake
    cases htake
  | some t =>
    rw [hfind] at htake
    cases htake
    obtain ⟨htask, before, after, htasks, -⟩ := List.find?_eq_some_iff_append.mp hfind
    obtain ⟨place, name⟩ := t
    obtain rfl : place = task := of_decide_eq_true htask
    refine ⟨name, before, after, htasks, ?_, rfl, ?_⟩
    · have hplaced := h
      rw [Running.Placed, htasks, List.map_append, List.map_cons, List.nodup_middle,
        List.nodup_cons, ← List.map_append] at hplaced
      have hothers : ∀ t ∈ before ++ after, t.1 ≠ place := by
        intro t ht heq
        have hmem := List.mem_map_of_mem (f := Prod.fst) ht
        rw [heq] at hmem
        exact hplaced.1 hmem
      rw [List.forall_mem_append] at hothers
      simp only [htasks]
      rw [List.filter_append, List.filter_cons_of_neg (by simp),
        List.filter_eq_self.mpr fun t ht => by simpa using hothers.1 t ht,
        List.filter_eq_self.mpr fun t ht => by simpa using hothers.2 t ht]
    · dsimp only
      split <;> simp

theorem Running.Placed.take {s s' : Running} {task : Nat} {outcome : CallOutcome} (h : s.Placed)
    (htake : s.take task outcome = some s') : s'.Placed := by
  obtain ⟨name, before, after, htasks, htasks', -, -⟩ := take_cases h htake
  rw [Running.Placed, htasks, List.map_append, List.map_cons, List.nodup_middle, List.nodup_cons,
    ← List.map_append] at h
  rw [Running.Placed, htasks']
  exact h.2

/-! ## What holds for every target list -/

/-- Every target has a task that is pending or an entry. -/
structure Running.Covers (targets : List Bytes) (s : Running) : Prop where
  placed : s.Placed
  one : s.results.keys.Nodup
  each : ∀ name, name ∈ targets ↔ name ∈ s.tasks.map Prod.snd ∨ name ∈ s.results.keys

theorem covers_createTasks (targets : List Bytes) : (createTasks targets).Covers targets := by
  refine ⟨placed_createTasks targets, List.nodup_nil, fun name => ?_⟩
  have hnames : (createTasks targets).tasks.map Prod.snd = targets :=
    List.map_snd_zip (by simp)
  rw [hnames]
  simp [createTasks, Dict.keys]

theorem Running.Covers.take {targets : List Bytes} {s s' : Running} {task : Nat}
    {outcome : CallOutcome} (h : s.Covers targets) (htake : s.take task outcome = some s') :
    s'.Covers targets := by
  obtain ⟨name, before, after, htasks, htasks', hresults, -⟩ := take_cases h.placed htake
  refine ⟨h.placed.take htake, ?_, fun other => ?_⟩
  · rw [hresults]
    exact Dict.nodup_keys_set h.one name _
  · rw [h.each other, htasks, htasks', hresults, Dict.mem_keys_set]
    simp only [List.map_append, List.map_cons, List.mem_append, List.mem_cons]
    constructor
    · rintro ((hbefore | rfl | hafter) | hkey)
      · exact Or.inl (Or.inl hbefore)
      · exact Or.inr (Or.inl rfl)
      · exact Or.inl (Or.inr hafter)
      · exact Or.inr (Or.inr hkey)
    · rintro ((hbefore | hafter) | rfl | hkey)
      · exact Or.inl (Or.inl hbefore)
      · exact Or.inl (Or.inr (Or.inr hafter))
      · exact Or.inl (Or.inr (Or.inl rfl))
      · exact Or.inr hkey

/-! ## The rule of the loop -/

/-- What every taken task preserves, every batch preserves. -/
theorem takeAll_rule {P : Running → Prop}
    (hstep : ∀ s s' task outcome, P s → s.take task outcome = some s' → P s')
    {s s' : Running} {batch : List (Nat × CallOutcome)} (hs : P s)
    (htake : s.takeAll batch = some s') : P s' := by
  induction batch generalizing s with
  | nil =>
    cases htake
    exact hs
  | cons head batch ih =>
    obtain ⟨task, outcome⟩ := head
    obtain ⟨s₁, hfirst, hrest⟩ := Option.bind_eq_some_iff.mp htake
    exact ih (hstep s s₁ task outcome hs hfirst) hrest

/-- So does the whole loop. -/
theorem quorumLoop_rule {P : Running → Prop}
    (hstep : ∀ s s' task outcome, P s → s.take task outcome = some s' → P s')
    {quorum : Int} {s s' : Running} {waits : List Wait} (hs : P s)
    (hloop : quorumLoop quorum s waits = some s') : P s' := by
  induction waits generalizing s with
  | nil =>
    rw [quorumLoop] at hloop
    split at hloop
    · cases hloop
    · cases hloop
      exact hs
  | cons wait waits ih =>
    unfold quorumLoop at hloop
    split at hloop
    · split at hloop
      · split at hloop
        · cases hloop
          exact hs
        · cases hloop
      · cases hloop
      · obtain ⟨s₁, hbatch, hrest⟩ := Option.bind_eq_some_iff.mp hloop
        exact ih (takeAll_rule hstep hs hbatch) hrest
    · cases hloop

/-! ## Behind the loop -/

theorem addCancelled_spec {results : Dict Bytes FanOutEntry} (h : results.keys.Nodup) (name : Bytes) :
    (addCancelled results name).keys.Nodup ∧
      (∀ other, other ∈ (addCancelled results name).keys ↔ other = name ∨ other ∈ results.keys) ∧
      okEntries (addCancelled results name) = okEntries results := by
  unfold addCancelled
  split
  · rename_i hold
    refine ⟨h, fun other => ⟨Or.inr, ?_⟩, rfl⟩
    rintro (rfl | hother)
    · exact Dict.has_iff.mp hold
    · exact hother
  · rename_i hold
    have hnew : name ∉ results.keys := fun hkey => hold (Dict.has_iff.mpr hkey)
    refine ⟨Dict.nodup_keys_set h name _, fun other => Dict.mem_keys_set, ?_⟩
    rw [Dict.set_of_not_mem hnew]
    unfold okEntries
    rw [List.filter_append]
    exact List.append_nil _

/-- The entries for cancelled tasks are new ones with an error. -/
theorem cancelled_spec (names : List Bytes) {results : Dict Bytes FanOutEntry}
    (h : results.keys.Nodup) :
    (names.foldl addCancelled results).keys.Nodup ∧
      (∀ other, other ∈ (names.foldl addCancelled results).keys ↔
        other ∈ names ∨ other ∈ results.keys) ∧
      okEntries (names.foldl addCancelled results) = okEntries results := by
  induction names generalizing results with
  | nil => simp [h]
  | cons name names ih =>
    obtain ⟨hone, heach, hok⟩ := addCancelled_spec h name
    obtain ⟨hone', heach', hok'⟩ := ih hone
    rw [List.foldl_cons]
    refine ⟨hone', fun other => ?_, hok'.trans hok⟩
    rw [heach', heach, List.mem_cons]
    simp only [or_left_comm, or_assoc]

/-! ## Targets without repetitions -/

/-- The targets that have entries are no longer asked, and every task that has
been counted has its entry. -/
structure Running.Fair (s : Running) : Prop where
  placed : s.Placed
  apart : (s.tasks.map Prod.snd ++ s.results.keys).Nodup
  counted : s.okCount = (okEntries s.results).length

theorem fair_createTasks {targets : List Bytes} (h : targets.Nodup) : (createTasks targets).Fair := by
  refine ⟨placed_createTasks targets, ?_, rfl⟩
  have hnames : (createTasks targets).tasks.map Prod.snd = targets :=
    List.map_snd_zip (by simp)
  rw [hnames]
  simpa [createTasks, Dict.keys] using h

theorem Running.Fair.take {s s' : Running} {task : Nat} {outcome : CallOutcome} (h : s.Fair)
    (htake : s.take task outcome = some s') : s'.Fair := by
  obtain ⟨name, before, after, htasks, htasks', hresults, hcount⟩ := take_cases h.placed htake
  have hapart := h.apart
  rw [htasks, List.map_append, List.map_cons, List.append_assoc, List.cons_append,
    List.nodup_middle, List.nodup_cons, ← List.append_assoc, ← List.map_append] at hapart
  have hnew : name ∉ s.results.keys := fun hkey => hapart.1 (List.mem_append_right _ hkey)
  have hset := Dict.set_of_not_mem hnew outcome.entry
  refine ⟨h.placed.take htake, ?_, ?_⟩
  · have hkeys : Dict.keys (s.results ++ [(name, outcome.entry)]) = s.results.keys ++ [name] := by
      simp [Dict.keys]
    rw [htasks', hresults, hset, hkeys, ← List.append_assoc, List.nodup_append_comm,
      List.singleton_append, List.nodup_cons]
    exact hapart
  · rw [hcount, hresults, hset, h.counted]
    unfold okEntries
    rw [List.filter_append, List.length_append]
    congr 1
    by_cases hok : outcome.entry.isOk = true
    · simp [hok]
    · simp [hok]

theorem reached_of_fair {targets : List Bytes} {s : Running} {method : Bytes} {quorum : Int}
    (hcovers : s.Covers targets) (hfair : s.Fair) :
    QuorumRunResult.Sound targets ⟨method, quorum, quorum ≤ s.okCount, s.cancelRest⟩ := by
  obtain ⟨hone, heach, hok⟩ := cancelled_spec (s.tasks.map Prod.snd) hcovers.one
  refine ⟨?_, hone, fun name => (heach name).trans (hcovers.each name).symm⟩
  show decide _ = true ↔ quorum ≤ (okEntries (List.foldl _ _ _)).length
  rw [hok, ← hfair.counted, decide_eq_true_iff]

/-! ## Targets with repetitions -/

theorem mem_createTasks {targets : List Bytes} {task : Nat} {name : Bytes} :
    (task, name) ∈ (createTasks targets).tasks ↔ targets[task]? = some name := by
  show (task, name) ∈ (List.range targets.length).zip targets ↔ _
  rw [List.mem_iff_getElem?]
  constructor
  · rintro ⟨k, hk⟩
    obtain ⟨hrange, hname⟩ := List.getElem?_zip_eq_some.mp hk
    obtain ⟨_, htask⟩ := List.getElem?_eq_some_iff.mp hrange
    rw [List.getElem_range] at htask
    subst htask
    exact hname
  · intro hname
    refine ⟨task, List.getElem?_zip_eq_some.mpr ⟨?_, hname⟩⟩
    have hlt : task < targets.length := (List.getElem?_eq_some_iff.mp hname).1
    simp [hlt]

/-- A pending task can be taken. -/
theorem take_some {s : Running} {task : Nat} (h : task ∈ s.tasks.map Prod.fst) (outcome : CallOutcome) :
    ∃ s', s.take task outcome = some s' := by
  obtain ⟨t, ht, htask⟩ := List.mem_map.mp h
  unfold Running.take
  cases hfind : s.tasks.find? fun t => t.1 = task with
  | none =>
    have hnot := List.find?_eq_none.mp hfind t ht
    simp [htask] at hnot
  | some t' => exact ⟨_, rfl⟩

/-- The other tasks stay. -/
theorem mem_tasks_take {s s' : Running} {task other : Nat} {outcome : CallOutcome} {name : Bytes}
    (htake : s.take task outcome = some s') (hne : other ≠ task) (h : (other, name) ∈ s.tasks) :
    (other, name) ∈ s'.tasks := by
  unfold Running.take at htake
  split at htake
  · cases htake
  · cases htake
    simpa [hne] using h

/-- Any pending tasks can be taken at once. -/
theorem takeAll_some {s : Running} {batch : List (Nat × CallOutcome)}
    (hnodup : (batch.map Prod.fst).Nodup)
    (hpending : ∀ task ∈ batch.map Prod.fst, task ∈ s.tasks.map Prod.fst) :
    ∃ s', s.takeAll batch = some s' := by
  induction batch generalizing s with
  | nil => exact ⟨s, rfl⟩
  | cons head batch ih =>
    obtain ⟨task, outcome⟩ := head
    rw [List.map_cons, List.nodup_cons] at hnodup
    rw [List.map_cons, List.forall_mem_cons] at hpending
    obtain ⟨s₁, hfirst⟩ := take_some hpending.1 outcome
    obtain ⟨s', hrest⟩ := ih (s := s₁) hnodup.2 (by
      intro other hother
      obtain ⟨⟨place, name⟩, ht, rfl⟩ := List.mem_map.mp (hpending.2 other hother)
      have hne : place ≠ task := by
        rintro rfl
        exact hnodup.1 hother
      exact List.mem_map_of_mem (mem_tasks_take hfirst hne ht))
    exact ⟨s', by rw [Running.takeAll, hfirst]; exact hrest⟩

/-- Each task counts, and adds an entry at most. -/
theorem takeAll_counts {s s' : Running} {batch : List (Nat × CallOutcome)} (h : s.Placed)
    (htake : s.takeAll batch = some s') :
    s'.okCount = s.okCount + batch.countP (fun b => b.2.entry.isOk) ∧
      s'.results.length ≤ s.results.length + batch.length := by
  induction batch generalizing s with
  | nil =>
    cases htake
    simp
  | cons head batch ih =>
    obtain ⟨task, outcome⟩ := head
    obtain ⟨s₁, hfirst, hrest⟩ := Option.bind_eq_some_iff.mp htake
    obtain ⟨name, before, after, -, -, hresults, hcount⟩ := take_cases h hfirst
    obtain ⟨hcount', hlength⟩ := ih (h.take hfirst) hrest
    have hset := Dict.length_set_le s.results name outcome.entry
    rw [← hresults] at hset
    simp only [List.countP_cons, List.length_cons]
    omega

/-- A run whose loop ends with enough tasks and too few entries. -/
theorem not_sound {targets : List Bytes} {method : Bytes} {quorum : Int} {s : Running}
    (hcovers : s.Covers targets) (hreached : quorum ≤ s.okCount)
    (hfew : ((okEntries s.results).length : Int) < quorum) :
    ¬ QuorumRunResult.Sound targets ⟨method, quorum, quorum ≤ s.okCount, s.cancelRest⟩ := by
  intro hsound
  obtain ⟨-, -, hok⟩ := cancelled_spec (s.tasks.map Prod.snd) hcovers.one
  have henough : quorum ≤ (okEntries (List.foldl _ _ _)).length :=
    hsound.reached.mp (decide_eq_true hreached)
  rw [hok] at henough
  omega

/-- Two tasks of one target leave one entry, that of the second. -/
theorem take_twice {targets : List Bytes} {i j : Nat} {name : Bytes} (hne : i ≠ j)
    (hi : targets[i]? = some name) (hj : targets[j]? = some name) (first second : CallOutcome) :
    ∃ s, (createTasks targets).takeAll [(i, first), (j, second)] = some s ∧ s.Placed ∧
      s.results = [(name, second.entry)] ∧
      ∀ k, k ≠ i → k ≠ j → k < targets.length → k ∈ s.tasks.map Prod.fst := by
  have hplaced := placed_createTasks targets
  have hiTask := mem_createTasks.mpr hi
  have hjTask := mem_createTasks.mpr hj
  obtain ⟨s₁, h₁⟩ := take_some (List.mem_map_of_mem hiTask) first
  have hjLeft := mem_tasks_take h₁ (Ne.symm hne) hjTask
  obtain ⟨s₂, h₂⟩ := take_some (List.mem_map_of_mem hjLeft) second
  obtain ⟨name₁, before, after, htasks, -, hresults, -⟩ := take_cases hplaced h₁
  obtain ⟨name₂, before', after', htasks', -, hresults', -⟩ := take_cases (hplaced.take h₁) h₂
  have hname₁ : name₁ = name := by
    have hmem : (i, name₁) ∈ (createTasks targets).tasks := by simp [htasks]
    exact Option.some.inj ((mem_createTasks.mp hmem).symm.trans hi)
  have hname₂ : name₂ = name := by
    have hmem : (j, name₂) ∈ s₁.tasks := by simp [htasks']
    have hold : (j, name₂) ∈ (createTasks targets).tasks := by
      unfold Running.take at h₁
      split at h₁
      · cases h₁
      · cases h₁
        exact List.mem_of_mem_filter hmem
    exact Option.some.inj ((mem_createTasks.mp hold).symm.trans hj)
  refine ⟨s₂, ?_, (hplaced.take h₁).take h₂, ?_, ?_⟩
  · simp [Running.takeAll, h₁, h₂]
  · rw [hresults', hresults, hname₁, hname₂]
    simp [createTasks, Dict.set]
  · intro k hki hkj hk
    obtain ⟨other, hother⟩ : ∃ other, targets[k]? = some other := ⟨_, List.getElem?_eq_getElem hk⟩
    have hleft := mem_tasks_take h₁ hki (mem_createTasks.mpr hother)
    exact List.mem_map_of_mem (mem_tasks_take h₂ hkj hleft)

theorem createTasks_goesOn {targets : List Bytes} {quorum : Int} (hpos : 0 < quorum)
    (hne : targets ≠ []) : (createTasks targets).goesOn quorum = true := by
  obtain ⟨first, rest, rfl⟩ := List.exists_cons_of_ne_nil hne
  have htasks : (createTasks (first :: rest)).tasks ≠ [] := by
    intro hnil
    have hmem : (0, first) ∈ (createTasks (first :: rest)).tasks := mem_createTasks.mpr rfl
    rw [hnil] at hmem
    cases hmem
  have hzero : ((createTasks (first :: rest)).okCount : Int) < quorum := hpos
  simp [Running.goesOn, htasks, hzero]

/-- A loop that takes everything in one batch, and has enough then. -/
theorem quorumLoop_batch {s₀ s : Running} {quorum : Int} {batch : List (Nat × CallOutcome)}
    (hstarts : s₀.goesOn quorum = true) (hbatch : batch ≠ []) (htake : s₀.takeAll batch = some s)
    (henough : quorum ≤ s.okCount) : quorumLoop quorum s₀ [.done batch] = some s := by
  have hends : s.goesOn quorum = false := by
    simp [Running.goesOn, henough]
  rw [quorumLoop, if_pos hstarts, htake, Option.bind_some, quorumLoop, hends]
  · rfl
  · exact hbatch

/-- `m` numbers below `n` besides two given ones. -/
theorem exists_others {n i j m : Nat} (hne : i ≠ j) (hi : i < n) (hj : j < n) (hm : m + 2 ≤ n) :
    ∃ others : List Nat, others.Nodup ∧ others.length = m ∧
      ∀ k ∈ others, k ≠ i ∧ k ≠ j ∧ k < n := by
  have hrest : ((List.range n).erase i).Nodup := List.nodup_range.erase i
  refine ⟨(((List.range n).erase i).erase j).take m, ?_, ?_, fun k hk => ?_⟩
  · exact (hrest.erase j).sublist (List.take_sublist _ _)
  · have hi' : i ∈ List.range n := List.mem_range.mpr hi
    have hj' : j ∈ (List.range n).erase i :=
      (List.mem_erase_of_ne (Ne.symm hne)).mpr (List.mem_range.mpr hj)
    simp only [List.length_take, List.length_erase_of_mem hj', List.length_erase_of_mem hi',
      List.length_range]
    omega
  · have hk' := List.mem_of_mem_take hk
    have hkErase := List.mem_of_mem_erase hk'
    refine ⟨?_, ?_, List.mem_range.mp (List.mem_of_mem_erase hkErase)⟩
    · rintro rfl
      exact List.nodup_range.not_mem_erase hkErase
    · rintro rfl
      exact hrest.not_mem_erase hk'

/-- Two tasks of one target and `m` other ones, all of them successful. -/
theorem take_more {targets : List Bytes} {i j m : Nat} {name : Bytes} (hne : i ≠ j)
    (hi : targets[i]? = some name) (hj : targets[j]? = some name) (hm : m + 2 ≤ targets.length) :
    ∃ batch s, batch ≠ [] ∧ (createTasks targets).takeAll batch = some s ∧ s.okCount = m + 2 ∧
      (okEntries s.results).length ≤ m + 1 := by
  obtain ⟨s, htake, hplaced, hresults, hleft⟩ := take_twice hne hi hj (.result .null) (.result .null)
  obtain ⟨others, hothers, hlength, hmem⟩ := exists_others hne (List.getElem?_eq_some_iff.mp hi).1
    (List.getElem?_eq_some_iff.mp hj).1 hm
  let batch : List (Nat × CallOutcome) := others.map fun k => (k, .result .null)
  have hfst : batch.map Prod.fst = others := by
    simp only [batch, List.map_map]
    exact List.map_id _
  have hpending : ∀ task ∈ batch.map Prod.fst, task ∈ s.tasks.map Prod.fst := by
    rw [hfst]
    intro k hk
    obtain ⟨hki, hkj, hlt⟩ := hmem k hk
    exact hleft k hki hkj hlt
  obtain ⟨s', hrest⟩ := takeAll_some (hfst ▸ hothers) hpending
  obtain ⟨hcount, -⟩ := takeAll_counts (placed_createTasks targets) htake
  obtain ⟨hcount', hentries⟩ := takeAll_counts hplaced hrest
  have htwo : s.okCount = 2 := hcount
  have hall : batch.countP (fun b => b.2.entry.isOk) = others.length := by
    simp only [batch, List.countP_map]
    exact List.countP_eq_length.mpr fun _ _ => rfl
  have hsize : batch.length = others.length := List.length_map ..
  have hboth : (createTasks targets).takeAll
      ((i, .result .null) :: (j, .result .null) :: batch) = some s' := by
    obtain ⟨s₁, h₁, hsecond⟩ := Option.bind_eq_some_iff.mp htake
    obtain ⟨s₂, h₂, hs⟩ := Option.bind_eq_some_iff.mp hsecond
    cases hs
    exact Option.bind_eq_some_iff.mpr ⟨s₁, h₁, Option.bind_eq_some_iff.mpr ⟨s, h₂, hrest⟩⟩
  have hone : s.results.length = 1 := by
    rw [hresults]
    rfl
  have hok : (okEntries s'.results).length ≤ s'.results.length := List.length_filter_le ..
  exact ⟨_, s', by simp, hboth, by omega, by omega⟩

/-- A target that is asked twice makes some run unsound: it is counted twice, or
its error replaces the result that has been counted. -/
theorem exists_unsound {targets : List Bytes} {quorum : Int} (hpos : 0 < quorum)
    (hle : quorum ≤ targets.length) (hdup : ¬ targets.Nodup) :
    ∃ waits s, quorumLoop quorum (createTasks targets) waits = some s ∧ quorum ≤ s.okCount ∧
      ((okEntries s.results).length : Int) < quorum := by
  obtain ⟨i, j, hij, hj, hsame⟩ : ∃ i j, i < j ∧ j < targets.length ∧ targets[i]? = targets[j]? := by
    simpa [List.nodup_iff_getElem?_ne_getElem?] using hdup
  obtain ⟨name, hname⟩ : ∃ name, targets[j]? = some name := ⟨_, List.getElem?_eq_getElem hj⟩
  have hne : i ≠ j := Nat.ne_of_lt hij
  have hstarts : (createTasks targets).goesOn quorum = true :=
    createTasks_goesOn hpos (List.length_pos_iff.mp (Nat.zero_lt_of_lt hj))
  by_cases hone : quorum = 1
  · obtain ⟨s, htake, -, hresults, -⟩ :=
      take_twice hne (hsame.trans hname) hname (.result .null) (.exception [])
    obtain ⟨hcount, -⟩ := takeAll_counts (placed_createTasks targets) htake
    have hcounted : s.okCount = 1 := hcount
    refine ⟨_, s, quorumLoop_batch hstarts (by simp) htake (by omega), by omega, ?_⟩
    rw [hresults]
    show (0 : Int) < quorum
    omega
  · have hm : quorum.toNat - 2 + 2 ≤ targets.length := by omega
    obtain ⟨batch, s, hbatch, htake, hcount, hfew⟩ := take_more hne (hsame.trans hname) hname hm
    exact ⟨_, s, quorumLoop_batch hstarts hbatch htake (by omega), by omega, by omega⟩

/-! ## Every row has a result -/

/-- On every row of waits that there can be, the loop has a result. -/
theorem course_result {quorum : Int} {s : Running} {waits : List Wait}
    (h : Course quorum s waits) : ∃ s', quorumLoop quorum s waits = some s' := by
  induction h with
  | @ended s hends =>
    refine ⟨s, ?_⟩
    rw [quorumLoop, hends]
    rfl
  | @expired s hgoes =>
    refine ⟨s, ?_⟩
    rw [quorumLoop, if_pos hgoes]
    rfl
  | @done s s' batch waits hgoes hfits htake _ ih =>
    obtain ⟨last, hlast⟩ := ih
    refine ⟨last, ?_⟩
    rw [quorumLoop, if_pos hgoes, htake]
    · exact hlast
    · exact hfits.1

/-- Only pending tasks can be taken, each of them once. -/
theorem pending_of_takeAll {s s' : Running} {batch : List (Nat × CallOutcome)} (h : s.Placed)
    (htake : s.takeAll batch = some s') :
    (batch.map Prod.fst).Nodup ∧ (∀ task ∈ batch.map Prod.fst, task ∈ s.tasks.map Prod.fst) ∧
      s'.tasks.length + batch.length = s.tasks.length := by
  induction batch generalizing s with
  | nil =>
    cases htake
    simp
  | cons head batch ih =>
    obtain ⟨task, outcome⟩ := head
    obtain ⟨s₁, hfirst, hrest⟩ := Option.bind_eq_some_iff.mp htake
    obtain ⟨name, before, after, htasks, htasks', -, -⟩ := take_cases h hfirst
    obtain ⟨hnodup, hpending, hlength⟩ := ih (h.take hfirst) hrest
    have hplaced := h
    rw [Running.Placed, htasks, List.map_append, List.map_cons, List.nodup_middle, List.nodup_cons,
      ← List.map_append, ← htasks'] at hplaced
    rw [List.map_cons, List.nodup_cons, List.forall_mem_cons]
    refine ⟨⟨fun hmem => hplaced.1 (hpending task hmem), hnodup⟩, ⟨?_, fun other hother => ?_⟩, ?_⟩
    · simp [htasks]
    · have hleft := hpending other hother
      rw [htasks', List.map_append] at hleft
      rw [htasks, List.map_append, List.map_cons]
      rcases List.mem_append.mp hleft with hbefore | hafter
      · exact List.mem_append_left _ hbefore
      · exact List.mem_append_right _ (List.mem_cons_of_mem _ hafter)
    · rw [htasks'] at hlength
      simp only [htasks, List.length_append, List.length_cons] at hlength ⊢
      omega

/-- And no other row has one. -/
theorem result_course {quorum : Int} {s s' : Running} {waits : List Wait} (h : s.Placed)
    (hloop : quorumLoop quorum s waits = some s') : Course quorum s waits := by
  induction waits generalizing s with
  | nil =>
    rw [quorumLoop] at hloop
    split at hloop
    · cases hloop
    · rename_i hends
      exact .ended (Bool.eq_false_iff.mpr hends)
  | cons wait waits ih =>
    unfold quorumLoop at hloop
    split at hloop
    · rename_i hgoes
      split at hloop
      · split at hloop
        · rename_i hlast
          rw [List.isEmpty_iff.mp hlast]
          exact .expired hgoes
        · cases hloop
      · cases hloop
      · rename_i batch hbatch
        obtain ⟨s₁, htake, hrest⟩ := Option.bind_eq_some_iff.mp hloop
        obtain ⟨hnodup, hpending, -⟩ := pending_of_takeAll h htake
        have hplaced : s₁.Placed := takeAll_rule (fun _ _ _ _ hs htake => hs.take htake) h htake
        exact .done hgoes ⟨fun hnil => hbatch (by rw [hnil]), hnodup, hpending⟩ htake
          (ih hplaced hrest)
    · cases hloop

/-! ## Every call ends -/

theorem after_snoc {s s' : Running} {past : List Wait} (h : s.after past = some s')
    (batch : List (Nat × CallOutcome)) : s.after (past ++ [.done batch]) = s'.takeAll batch := by
  induction past generalizing s with
  | nil =>
    cases h
    simp [Running.after]
  | cons wait past ih =>
    cases wait with
    | expired => cases h
    | done first =>
      obtain ⟨s₁, hfirst, hrest⟩ := Option.bind_eq_some_iff.mp h
      rw [List.cons_append, Running.after, hfirst]
      exact ih hrest

/-- The waits of a call, one for each task at most and the one that expires, whatever they give:
`answer` is the next one behind those before it. -/
theorem exists_course {quorum : Int} {answer : List Wait → Wait} {start s : Running}
    (past : List Wait) (hplaced : s.Placed) (hafter : start.after past = some s)
    (hfits : ∀ past s, start.after past = some s → s.goesOn quorum = true → (answer past).Fits s) :
    ∃ waits, Course quorum s waits ∧ waits.length ≤ s.tasks.length + 1 ∧
      ∀ i wait, waits[i]? = some wait → wait = answer (past ++ waits.take i) := by
  induction hn : s.tasks.length using Nat.strong_induction_on generalizing s past with
  | _ n ih =>
    cases hgoes : s.goesOn quorum with
    | false => exact ⟨[], .ended hgoes, Nat.zero_le _, fun i wait hi => by simp at hi⟩
    | true =>
      have hnext := hfits past s hafter hgoes
      cases hwait : answer past with
      | expired =>
        refine ⟨[.expired], .expired hgoes, by simp, fun i wait hi => ?_⟩
        obtain ⟨rfl, rfl⟩ : i = 0 ∧ wait = .expired := by
          rw [List.getElem?_singleton] at hi
          split at hi
          · rename_i hzero
            exact ⟨hzero, (Option.some.inj hi).symm⟩
          · cases hi
        rw [List.take_zero, List.append_nil, hwait]
      | done batch =>
        rw [hwait] at hnext
        obtain ⟨s', htake⟩ := takeAll_some hnext.2.1 hnext.2.2
        have hpositive := List.length_pos_iff.mpr hnext.1
        have hfewer := (pending_of_takeAll hplaced htake).2.2
        have hplaced' : s'.Placed := takeAll_rule (fun _ _ _ _ hs htake => hs.take htake) hplaced htake
        obtain ⟨waits, hcourse, hlength, hanswers⟩ := ih s'.tasks.length (by omega) _ hplaced'
          ((after_snoc hafter batch).trans htake) rfl
        refine ⟨.done batch :: waits, .done hgoes hnext htake hcourse, ?_, fun i wait hi => ?_⟩
        · rw [List.length_cons]
          omega
        · cases i with
          | zero =>
            cases hi
            rw [List.take_zero, List.append_nil, hwait]
          | succ i =>
            rw [List.getElem?_cons_succ] at hi
            rw [hanswers i wait hi, List.append_assoc, List.take_succ_cons]
            rfl

/-! ## All runs -/

/-- On every row of waits that there can be a quorum run has a result that is sound, for every
outcome of the calls and every order of completion, exactly where no target is asked twice; and
every call comes to the end of such a row, whatever its waits give. -/
theorem quorum_sound_iff {method quoted : Bytes} {quorum : Int} {targets : List Bytes}
    (hmethod : fanoutMethods.any (fun m => ascii m = method) = true) (hpos : 1 ≤ quorum)
    (hle : quorum ≤ targets.length) :
    ((∀ waits, Course quorum (createTasks targets) waits → ∃ r,
        fleetQuorumRun method quoted quorum targets waits = some (.ok r) ∧ r.Sound targets) ↔
      targets.Nodup) ∧
    ∀ answer : List Wait → Wait,
      (∀ past s, (createTasks targets).after past = some s → s.goesOn quorum = true →
        (answer past).Fits s) →
      ∃ waits, Course quorum (createTasks targets) waits ∧ waits.length ≤ targets.length + 1 ∧
        ∀ i wait, waits[i]? = some wait → wait = answer (waits.take i) := by
  have hrun : ∀ waits, fleetQuorumRun method quoted quorum targets waits =
      (quorumLoop quorum (createTasks targets) waits).map fun s =>
        .ok ⟨method, quorum, quorum ≤ s.okCount, s.cancelRest⟩ := by
    intro waits
    rw [fleetQuorumRun, hmethod, if_neg (by decide), if_neg (by omega), if_neg (by omega)]
  have hplaced := placed_createTasks targets
  have hcovers : ∀ {waits s}, quorumLoop quorum (createTasks targets) waits = some s →
      s.Covers targets := fun hloop =>
    quorumLoop_rule (fun _ _ _ _ h htake => h.take htake) (covers_createTasks targets) hloop
  refine ⟨⟨?_, ?_⟩, ?_⟩
  · intro hsound
    by_contra hdup
    obtain ⟨waits, s, hloop, hreached, hfew⟩ := exists_unsound (by omega) hle hdup
    obtain ⟨r, hr, hgood⟩ := hsound waits (result_course hplaced hloop)
    rw [hrun, hloop] at hr
    cases hr
    exact not_sound (hcovers hloop) hreached hfew hgood
  · intro hnodup waits hcourse
    obtain ⟨s, hloop⟩ := course_result hcourse
    refine ⟨_, by rw [hrun, hloop]; rfl, ?_⟩
    exact reached_of_fair (hcovers hloop)
      (quorumLoop_rule (fun _ _ _ _ h htake => h.take htake) (fair_createTasks hnodup) hloop)
  · intro answer hfits
    obtain ⟨waits, hcourse, hlength, hanswers⟩ := exists_course [] hplaced rfl hfits
    have htasks : (createTasks targets).tasks.length = targets.length := by
      simp [createTasks]
    exact ⟨waits, hcourse, htasks ▸ hlength, hanswers⟩

/-- One answer of three machines is asked for: the first has an error, the second a result, and
the third is cancelled. -/
def sampleWaits : List Wait :=
  [.done [(0, .exception [])], .done [(1, .result .null)]]

theorem quorum_sound_iff_sample : ∃ r,
    fleetQuorumRun (ascii "sys.version") (ascii "'sys.version'") 1
      [ascii "qemu", ascii "x5000", ascii "a1222"] sampleWaits = some (.ok r) ∧
    r.reached = true ∧ r.Sound [ascii "qemu", ascii "x5000", ascii "a1222"] := by
  have hcourse : Course 1 (createTasks [ascii "qemu", ascii "x5000", ascii "a1222"]) sampleWaits :=
    result_course (placed_createTasks _) rfl
  have hall := @quorum_sound_iff (ascii "sys.version") (ascii "'sys.version'") 1
    [ascii "qemu", ascii "x5000", ascii "a1222"] (by decide) (by decide) (by decide)
  obtain ⟨r, hr, hsound⟩ := hall.1.mpr (by decide) sampleWaits hcourse
  refine ⟨r, hr, ?_, hsound⟩
  cases hr
  rfl

/-- One machine, asked twice, is a quorum of two. -/
theorem counted_twice : ∃ r,
    fleetQuorumRun (ascii "sys.version") (ascii "'sys.version'") 2 [ascii "x5000", ascii "x5000"]
      [.done [(0, .result .null), (1, .result .null)]] = some (.ok r) ∧
    r.reached = true ∧ r.results.keys = [ascii "x5000"] ∧ ¬ r.Sound [ascii "x5000", ascii "x5000"] := by
  refine ⟨⟨ascii "sys.version", 2, true, [(ascii "x5000", { ok := .null })]⟩, rfl, rfl, rfl, ?_⟩
  intro hsound
  have henough : (2 : Int) ≤ 1 := hsound.reached.mp rfl
  omega

end AmigaFleet.Host.Fleet

import AmigaFleet.Lib.InsertionSort
import AmigaFleet.Mcpd.CJson
import AmigaFleet.Mcpd.StartFailure
import Mathlib.Data.List.Pairwise

/-!
# The listing of the jobs

`jobs_list` of `mcpd/src/jobs.c` behind its locked section: the snapshots are
sorted in place, the newest job first, and each becomes a JSON object.

* `Listed` says what a listing should be: every record in use once, in strictly
  descending order of the ids, with its own state and exit code.
* `run_listed`: so it is in every run in which no start is given the id of a
  record that stays in use.
* `id_listed_twice`: `g_next_id` wraps around, so a long-lived job and a new one
  can carry the same id.
-/

namespace AmigaFleet.Mcpd.Jobs

open AmigaFleet.Lib

/-! ## `jobs_list` -/

/-- The bytes of a C string. -/
def cBytes (text : CString) : Bytes := text.map fun c => UInt8.ofNat c.toNat

/-- The object that `jobs_list` adds for a snapshot. -/
def listObject (info : JobInfo) : CJson :=
  .object ([(ascii "job_id", cNumber info.id),
      (ascii "state", cString (if info.state = .running then "running" else "exited"))] ++
    (if info.state = .exited then [(ascii "exit_code", cNumber info.rc)] else []) ++
    [(ascii "pid", cNumber info.pid), (ascii "priority", cNumber info.priority),
      (ascii "elapsed_ms", cNumber info.elapsedMs),
      (ascii "command", .string (cBytes info.command))])

/-- `jobs_list`: what it appends to `arr`.  `none` is an access of the sort
outside the first `n` cells of `info`. -/
def jobsListArr (env : Env) (s : Sys) : Option (List CJson) :=
  if s.shutdown = .released then some []
  else (InsertionSort.sort JobInfo.id (jobsList env s).2).map (List.map listObject)

/-! ## What a listing should be -/

/-- The object tells the id, the state and the exit code of the record. -/
structure Reports (o : CJson) (j : Job) : Prop where
  id : o.getItem (ascii "job_id") = some (cNumber j.id)
  known : j.state = .running ∨ j.state = .exited
  running : j.state = .running →
    o.getItem (ascii "state") = some (cString "running") ∧ o.getItem (ascii "exit_code") = none
  exited : j.state = .exited →
    o.getItem (ascii "state") = some (cString "exited") ∧
      o.getItem (ascii "exit_code") = some (cNumber j.returnCode)

/-- The objects report the records in use, each once, the highest id first. -/
def Listed (env : Env) (s : Sys) (arr : List CJson) : Prop :=
  ∃ slots : List Slot, slots.Nodup ∧ (∀ i, i ∈ slots ↔ (s.jobs i).inUse = true) ∧
    slots.Pairwise (fun i k => (s.jobs k).id < (s.jobs i).id) ∧
    List.Forall₂ (fun i o => Reports o ((drainLocked env s).jobs i)) slots arr

/-- A record in use has been filled. -/
def Filled (s : Sys) : Prop := ∀ i, (s.jobs i).inUse = true → (s.jobs i).state ≠ .cleared

theorem reports_listObject (env : Env) {j : Job} (h : j.state ≠ .cleared) :
    Reports (listObject (fillInfo env j)) j := by
  have hid : (listObject (fillInfo env j)).getItem (ascii "job_id") = some (cNumber j.id) := rfl
  cases hstate : j.state with
  | cleared => exact absurd hstate h
  | running =>
    refine ⟨hid, Or.inl hstate, fun _ => ?_, fun hexited => ?_⟩
    · simp only [listObject, fillInfo, hstate]
      exact ⟨rfl, rfl⟩
    · rw [hstate] at hexited
      cases hexited
  | exited =>
    refine ⟨hid, Or.inr hstate, fun hrunning => ?_, fun _ => ?_⟩
    · rw [hstate] at hrunning
      cases hrunning
    · simp only [listObject, fillInfo, hstate]
      exact ⟨rfl, rfl⟩

/-- The records in use, in the order of the table. -/
def usedSlots (s : Sys) : List Slot := (List.finRange jobSlots).filter fun i => (s.jobs i).inUse

theorem jobsList_eq (env : Env) (s : Sys) :
    (jobsList env s).2 = (usedSlots s).map fun i => fillInfo env ((drainLocked env s).jobs i) := by
  have hused : usedSlots s = (List.finRange jobSlots).filter fun i =>
      ((drainLocked env s).jobs i).inUse := by
    simp only [usedSlots, drained_inUse]
  rw [hused, jobsList, ← List.filterMap_eq_map, List.filterMap_filter]
  rfl

theorem Filled.drain {s : Sys} (h : Filled s) (env : Env) : Filled (drainLocked env s) := by
  intro i hi
  rw [drained_inUse] at hi
  simp only [drainLocked, drainTable_apply]
  split
  · exact JobState.noConfusion
  · exact h i hi

/-- A table whose records in use carry different ids is listed as it should be. -/
theorem listed_of_distinct {s : Sys} (hserving : s.shutdown ≠ .released) (hfilled : Filled s)
    (hids : ∀ i k, (s.jobs i).inUse = true → (s.jobs k).inUse = true →
      (s.jobs i).id = (s.jobs k).id → i = k) (env : Env) :
    ∃ arr, jobsListArr env s = some arr ∧ Listed env s arr := by
  have hid : ∀ i, ((drainLocked env s).jobs i).id = (s.jobs i).id :=
    fun i => (drainTable_sameJob env s.port s.jobs i).id
  have hmem : ∀ i, i ∈ usedSlots s ↔ (s.jobs i).inUse = true := by simp [usedSlots]
  have hnodup : (usedSlots s).Nodup := (List.nodup_finRange _).filter _
  obtain ⟨slots, hsort, hperm, hdesc⟩ := @InsertionSort.sort_map _ _ _ JobInfo.id _
    (fun i => fillInfo env ((drainLocked env s).jobs i)) (usedSlots s)
  have hused : ∀ i ∈ slots, (s.jobs i).inUse = true := fun i hi =>
    (hmem i).mp (hperm.mem_iff.mp hi)
  refine ⟨slots.map fun i => listObject (fillInfo env ((drainLocked env s).jobs i)), ?_, slots,
    hperm.nodup_iff.mpr hnodup, fun i => hperm.mem_iff.trans (hmem i), ?_, ?_⟩
  · rw [jobsListArr, if_neg hserving, jobsList_eq, hsort, Option.map_some, List.map_map]
    rfl
  · have hkeys : slots.Pairwise fun i k => (s.jobs i).id ≠ (s.jobs k).id := by
      refine (hperm.nodup_iff.mpr hnodup).imp_of_mem fun {i k} hi hk hik heq => ?_
      exact hik (hids i k (hused i hi) (hused k hk) heq)
    have hstrict := hdesc.strict (hkeys.imp fun {i k} hik => by
      show ((drainLocked env s).jobs i).id ≠ ((drainLocked env s).jobs k).id
      rw [hid, hid]
      exact hik)
    refine hstrict.imp fun {i k} hik => ?_
    rw [← hid i, ← hid k]
    exact hik
  · rw [List.forall₂_map_right_iff, List.forall₂_same]
    intro i hi
    refine reports_listObject env ((hfilled.drain env) i ?_)
    rw [drained_inUse]
    exact hused i hi

/-- In a listing no two records have the same id. -/
theorem Listed.id_ne {env : Env} {s : Sys} {arr : List CJson} (h : Listed env s arr) {i k : Slot}
    (hi : (s.jobs i).inUse = true) (hk : (s.jobs k).inUse = true) (hik : i ≠ k) :
    (s.jobs i).id ≠ (s.jobs k).id := by
  obtain ⟨slots, -, hmem, hdesc, -⟩ := h
  have hdiffer : slots.Pairwise fun i k => (s.jobs i).id ≠ (s.jobs k).id :=
    hdesc.imp fun hlt => (Nat.ne_of_lt hlt).symm
  have hsymm : Std.Symm fun i k => (s.jobs i).id ≠ (s.jobs k).id := ⟨fun _ _ => Ne.symm⟩
  exact hdiffer.forall ((hmem i).mpr hi) ((hmem k).mpr hk) hik

/-! ## Runs -/

theorem Filled.of_same {s s' : Sys} (h : Filled s)
    (hsame : ∀ i, SameJob (s'.jobs i) (s.jobs i)) (hstate : ∀ i, (s'.jobs i).state = (s.jobs i).state) :
    Filled s' := by
  intro i hi
  rw [(hsame i).inUse] at hi
  rw [hstate i]
  exact h i hi

theorem Filled.fillSlot {s : Sys} (h : Filled s) (env : Env) (worker : Nat) (req : StartRequest)
    (i : Slot) : Filled (fillSlot env worker req i s) := by
  intro k hk
  simp only [Jobs.fillSlot] at hk ⊢
  by_cases hki : k = i
  · subst hki
    rw [Table.set_same]
    exact JobState.noConfusion
  · rw [Table.set_other _ _ hki] at hk ⊢
    exact h k hk

theorem Filled.step {s s' : Sys} {a : Label} (h : Filled s) (hk : StepKind s a s') : Filled s' := by
  cases hk with
  | claim env worker req =>
    rcases startClaim_cases env worker req s with ⟨i, -, -, heq⟩ | ⟨i, -, -, -, heq⟩ | ⟨-, heq⟩
    · rw [heq]
      exact (h.drain env).fillSlot env worker req i
    · rw [heq]
      have hevicted : Filled (evictOutput i (drainLocked env s)) := by
        unfold Filled
        rw [evictOutput_jobs]
        exact h.drain env
      exact hevicted.fillSlot env worker req i
    · rw [heq]
      exact h.drain env
  | undo =>
    rename_i st _
    intro i hi
    simp only [startUndo] at hi ⊢
    by_cases hslot : i = st.tenant.slot
    · subst hslot
      rw [Table.set_same] at hi
      cases hi
    · rw [Table.set_other _ _ hslot] at hi ⊢
      exact h i hi
  | soft hs => exact h.of_same hs.same hs.state
  | drained env hs => exact (h.drain env).of_same hs.same hs.state
  | count env =>
    rcases shutdownCount_soft env s with heq | ⟨heq, -⟩
    · rw [heq]
      exact h.drain env
    · rw [heq]
      exact h.drain env
  | free _ => exact h

/-- A start is not given the id of a record that stays in use. -/
def StartsApart (s : Sys) : Label → Prop
  | .startClaim env _ _ => ClaimApart env s
  | _ => True

instance (env : Env) (s : Sys) : Decidable (ClaimApart env s) := by
  unfold ClaimApart
  infer_instance

instance (s : Sys) (a : Label) : Decidable (StartsApart s a) := by
  unfold StartsApart
  split <;> infer_instance

/-- In every run in which no start is given the id of a record that stays in
use, the table is listed as it should be at every moment. -/
theorem run_listed (files : Files) (as : List Label) (s : Sys)
    (hok : Along step StartsApart (init files) as) (hrun : run step (init files) as = some s)
    (hserving : s.shutdown ≠ .released) (env : Env) :
    ∃ arr, jobsListArr env s = some arr ∧ Listed env s arr := by
  have hkeep : ∀ s a s', TableInv s ∧ Filled s → StartsApart s a → step s a = some s' →
      TableInv s' ∧ Filled s' := by
    intro s a s' hinv hok hstep
    obtain ⟨-, hk⟩ := step_kind hstep
    refine ⟨hinv.1.step hk ?_, hinv.2.step hk⟩
    rintro env worker req rfl
    exact hok
  have hstart : TableInv (init files) ∧ Filled (init files) :=
    ⟨init_tableInv files, fun _ hi => nomatch hi⟩
  obtain ⟨htable, hfilled⟩ := run_invariant hkeep hstart hok hrun
  exact listed_of_distinct hserving hfilled htable.ids env

/-- The record that a start finds while only the first one is in use. -/
def secondSlot : Slot := ⟨1, one_lt_jobSlots⟩

/-- Two starts at a time, and a third job when the second one has ended. -/
def mixedRun : List Label :=
  [.startClaim sampleEnv 0 sampleRequest, .startClaim sampleEnv 1 sampleRequest,
    .startOpened ⟨1, .claimed, ⟨secondSlot, 2⟩⟩, .startOpened ⟨0, .claimed, sampleTenant⟩,
    .startKicked ⟨1, .opened, ⟨secondSlot, 2⟩⟩, .startKicked ⟨0, .opened, sampleTenant⟩,
    .childExit ⟨secondSlot, 2⟩ 5 0, .startClaim sampleEnv 0 sampleRequest,
    .startOpened ⟨0, .claimed, ⟨⟨2, by decide⟩, 3⟩⟩, .startKicked ⟨0, .opened, ⟨⟨2, by decide⟩, 3⟩⟩]

/-- The exited job stands between the two that run. -/
theorem run_listed_sample : ∃ s arr, run step (init fun _ => none) mixedRun = some s ∧
    (jobsListArr sampleEnv s = some arr ∧ Listed sampleEnv s arr) ∧
    arr.map (fun o => (o.getItem (ascii "job_id"), o.getItem (ascii "exit_code"))) =
      [(some (cNumber 3), none), (some (cNumber 2), some (cNumber 5)), (some (cNumber 1), none)] := by
  obtain ⟨s, hrun, hserving, hitems⟩ : ∃ s, run step (init fun _ => none) mixedRun = some s ∧
      s.shutdown ≠ .released ∧
      (jobsListArr sampleEnv s).map (List.map fun o =>
          (o.getItem (ascii "job_id"), o.getItem (ascii "exit_code"))) =
        some [(some (cNumber 3), none), (some (cNumber 2), some (cNumber 5)),
          (some (cNumber 1), none)] := ⟨_, rfl, by decide, rfl⟩
  obtain ⟨arr, harr, hlisted⟩ :=
    run_listed (fun _ => none) mixedRun s (by decide) hrun hserving sampleEnv
  rw [harr] at hitems
  exact ⟨s, arr, hrun, ⟨harr, hlisted⟩, Option.some.inj hitems⟩

/-! ## After 2^32 starts -/

/-- The first record of the table. -/
def firstSlot : Slot := ⟨0, jobSlots_pos⟩

/-- Job 1 runs in the first record, all others are free, and the next start is
given the id `id`. -/
structure Lonely (s : Sys) (id : Nat) : Prop where
  serving : s.shutdown = .serving
  port : s.port = []
  first : (s.jobs firstSlot).inUse = true ∧ (s.jobs firstSlot).id = 1 ∧ (s.jobs firstSlot).state = .running
  rest : ∀ i, i ≠ firstSlot → (s.jobs i).inUse = false
  next : s.nextId = id

/-- The second record is the one that a start is given. -/
theorem Lonely.claim {s : Sys} {id : Nat} (h : Lonely s id) (env : Env) :
    claimSlotLocked (drainLocked env s).jobs = .free secondSlot := by
  have hdrained : (drainLocked env s).jobs = s.jobs := by simp [drainLocked, h.port, drainTable]
  have hslots : List.finRange jobSlots = firstSlot :: secondSlot :: (List.finRange jobSlots).drop 2 := by decide
  rw [hdrained, claimSlotLocked, hslots, claimScan, if_neg (by simp [h.first.1]),
    if_neg (by simp [h.first.2.2]), claimScan, if_pos (h.rest secondSlot (by decide))]

/-- A start that fails uses up an id. -/
theorem Lonely.fail {s : Sys} {id : Nat} (h : Lonely s id) :
    ∃ as s', run step s as = some s' ∧ Lonely s' ((id + 1) % 2 ^ 32) := by
  have hserving : s.shutdown ≠ .released := by
    rw [h.serving]
    exact Shutdown.noConfusion
  refine ⟨_, _, failedStart_run sampleEnv 0 sampleRequest .openFails hserving, ?_⟩
  have hclaim := h.claim sampleEnv
  have hnext : (failedStart sampleEnv 0 sampleRequest .openFails s).nextId =
      (s.nextId + 1) % 2 ^ 32 := by
    rw [failedStart, hclaim]
    dsimp only
    rw [startClaim, hclaim]
    rfl
  have hshutdown : (failedStart sampleEnv 0 sampleRequest .openFails s).shutdown = s.shutdown := by
    rw [failedStart, hclaim]
    exact startClaim_shutdown sampleEnv 0 sampleRequest s
  rcases failedStart_spec sampleEnv 0 sampleRequest .openFails s with
    ⟨i, hfree, hjobs, -, hport⟩ | ⟨i, hevict, -⟩ | ⟨hfull, -⟩
  · rw [hclaim] at hfree
    cases hfree
    have hdrained : (drainLocked sampleEnv s).jobs = s.jobs := by
      simp [drainLocked, h.port, drainTable]
    rw [hdrained] at hjobs
    refine ⟨hshutdown.trans h.serving, hport, ?_, fun i hi => ?_, by rw [hnext, h.next]⟩
    · rw [hjobs, Table.set_other _ _ (by decide)]
      exact h.first
    · rw [hjobs]
      by_cases hone : i = secondSlot
      · subst hone
        rw [Table.set_same]
      · rw [Table.set_other _ _ hone]
        exact h.rest i hi
  · rw [hclaim] at hevict
    cases hevict
  · rw [hclaim] at hfull
    cases hfull

theorem Lonely.failMany {s : Sys} {id : Nat} (h : Lonely s id) (hid : id < 2 ^ 32) (n : Nat) :
    ∃ as s', run step s as = some s' ∧ Lonely s' ((id + n) % 2 ^ 32) := by
  induction n with
  | zero => exact ⟨[], s, rfl, by rwa [Nat.add_zero, Nat.mod_eq_of_lt hid]⟩
  | succ n ih =>
    obtain ⟨as, s', hrun, hs'⟩ := ih
    obtain ⟨bs, s'', hfail, hs''⟩ := hs'.fail
    refine ⟨as ++ bs, s'', (run_append hrun).trans hfail, ?_⟩
    have hsum : ((id + n) % 2 ^ 32 + 1) % 2 ^ 32 = (id + (n + 1)) % 2 ^ 32 := by omega
    rwa [hsum] at hs''

/-- Job 1 runs on while starts fail until `g_next_id` has come round; then the
next job is given the id 1 too. -/
theorem id_listed_twice : ∃ as s, run step (init fun _ => none) as = some s ∧
    s.shutdown ≠ .released ∧ ∀ env, ¬ ∃ arr, jobsListArr env s = some arr ∧ Listed env s arr := by
  have hbegin : ∃ s, run step (init fun _ => none) [.startClaim sampleEnv 0 sampleRequest,
      .startOpened ⟨0, .claimed, sampleTenant⟩, .startKicked ⟨0, .opened, sampleTenant⟩] = some s ∧
      Lonely s 2 := by
    refine ⟨_, rfl, rfl, rfl, ⟨rfl, rfl, rfl⟩, fun i hi => ?_, rfl⟩
    exact congrArg Job.inUse (Table.set_other (fun _ => {}) _ hi)
  obtain ⟨s, hrun, hs⟩ := hbegin
  obtain ⟨as, s', hfails, hs'⟩ := hs.failMany (by decide) (2 ^ 32 - 1)
  have hserving : s'.shutdown ≠ .released := by
    rw [hs'.serving]
    exact Shutdown.noConfusion
  have hlast : run step s' [.startClaim sampleEnv 0 sampleRequest] =
      some (startClaim sampleEnv 0 sampleRequest s') := by
    simp [run, step, serve, hserving]
  have hclaim : startClaim sampleEnv 0 sampleRequest s' =
      fillSlot sampleEnv 0 sampleRequest secondSlot (drainLocked sampleEnv s') := by
    rw [startClaim, hs'.claim sampleEnv]
  refine ⟨_, _, (run_append hrun).trans ((run_append hfails).trans hlast), ?_, ?_⟩
  · rw [startClaim_shutdown]
    exact hserving
  · rintro env ⟨arr, -, hlisted⟩
    have hdrained : (drainLocked sampleEnv s').jobs = s'.jobs := by
      simp [drainLocked, hs'.port, drainTable]
    rw [hclaim] at hlisted
    have hjobs : (fillSlot sampleEnv 0 sampleRequest secondSlot (drainLocked sampleEnv s')).jobs =
        s'.jobs.set secondSlot (newJob sampleEnv s'.nextId sampleRequest) := by
      rw [fillSlot, hdrained]
      rfl
    refine hlisted.id_ne (i := firstSlot) (k := secondSlot) ?_ ?_ (by decide) ?_
    · rw [hjobs, Table.set_other _ _ (by decide)]
      exact hs'.first.1
    · rw [hjobs, Table.set_same]
      rfl
    · rw [hjobs, Table.set_other _ _ (by decide), Table.set_same, hs'.first.2.1]
      exact hs'.next.symm

end AmigaFleet.Mcpd.Jobs

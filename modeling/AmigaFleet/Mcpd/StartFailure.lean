import AmigaFleet.Mcpd.JobSafety

/-!
# A start that fails

`jobs_start` has three ways to fail.  The table is full of running jobs and
the call answers BUSY; `Open` cannot create the output file; `SystemTags`
cannot start the command.  The last two come after `_claim_slot_locked` has
handed out a record, perhaps that of a finished job.

* `failedStart` is the whole failing call, with the table to itself from its
  first section to its last.  `failedStart_run` says that it is a run of the
  system.
* `StartAtomic` is what a caller of `jobs_list` and the owner of an output file
  may expect of it.
* `startAtomic_iff` is the exact condition: no finished job has to make room,
  and the id that is used up names no output file that is still kept.
-/

namespace AmigaFleet.Mcpd.Jobs

open AmigaFleet.Lib

/-! ## The failing call -/

/-- The call outside the semaphore that fails. -/
inductive StartFailure where
  /-- `Open` returned `ZERO` -/
  | openFails
  /-- `SystemTags` returned a nonzero `kick` -/
  | kickFails
deriving DecidableEq, Repr

/-- The labels of a start that holds a record and fails. -/
def failureLabels (st : Start) : StartFailure → List Label
  | .openFails => [.startOpenFailed st, .startUndo { st with phase := .failing }]
  | .kickFails =>
    [.startOpened st, .startKickFailed { st with phase := .opened },
      .startUndo { st with phase := .failing }]

/-- `jobs_start` from its record on, to the return of -1. -/
def failAfterClaim (st : Start) (how : StartFailure) (s : Sys) : Sys :=
  match how with
  | .openFails => startUndo { st with phase := .failing } (startOpenFailed st s)
  | .kickFails =>
    startUndo { st with phase := .failing }
      (startKickFailed { st with phase := .opened } (startOpened st s))

/-- A call of `jobs_start` that fails.  In a full table `how` does not matter. -/
def failedStart (env : Env) (worker : Nat) (req : StartRequest) (how : StartFailure) (s : Sys) :
    Sys :=
  match claimSlotLocked (drainLocked env s).jobs with
  | .free i =>
    failAfterClaim ⟨worker, .claimed, ⟨i, s.nextId⟩⟩ how (startClaim env worker req s)
  | .evict i =>
    failAfterClaim ⟨worker, .claimed, ⟨i, s.nextId⟩⟩ how (startClaim env worker req s)
  | .full => startClaim env worker req s

/-- Its labels. -/
def failedStartLabels (env : Env) (worker : Nat) (req : StartRequest) (how : StartFailure)
    (s : Sys) : List Label :=
  .startClaim env worker req ::
    match claimSlotLocked (drainLocked env s).jobs with
    | .free i => failureLabels ⟨worker, .claimed, ⟨i, s.nextId⟩⟩ how
    | .evict i => failureLabels ⟨worker, .claimed, ⟨i, s.nextId⟩⟩ how
    | .full => []

/-- A start that is in the table's list and has claimed its record can fail. -/
theorem run_failureLabels {s : Sys} {st : Start} (how : StartFailure)
    (hserving : s.shutdown ≠ .released) (hst : st ∈ s.starts) (hphase : st.phase = .claimed) :
    run step s (failureLabels st how) = some (failAfterClaim st how s) := by
  cases how with
  | openFails =>
    have hfirst : step s (.startOpenFailed st) = some (startOpenFailed st s) := by
      simp [step, serve, Sys.whenStart, hserving, hst, hphase]
    have hsecond : step (startOpenFailed st s) (.startUndo { st with phase := .failing }) =
        some (startUndo { st with phase := .failing } (startOpenFailed st s)) := by
      simp [step, serve, Sys.whenStart, startOpenFailed, Sys.startTo, hserving]
    simp only [failureLabels, run, hfirst, hsecond, failAfterClaim]
  | kickFails =>
    have hfirst : step s (.startOpened st) = some (startOpened st s) := by
      simp [step, serve, Sys.whenStart, hserving, hst, hphase]
    have hsecond : step (startOpened st s) (.startKickFailed { st with phase := .opened }) =
        some (startKickFailed { st with phase := .opened } (startOpened st s)) := by
      simp [step, serve, Sys.whenStart, startOpened, Sys.startTo, hserving]
    have hthird : step (startKickFailed { st with phase := .opened } (startOpened st s))
        (.startUndo { st with phase := .failing }) = some (failAfterClaim st .kickFails s) := by
      simp [step, serve, Sys.whenStart, startOpened, startKickFailed, Sys.startTo, hserving,
        failAfterClaim]
    simp only [failureLabels, run, hfirst, hsecond, hthird]

/-- A failing call is a run of the system. -/
theorem failedStart_run (env : Env) (worker : Nat) (req : StartRequest) (how : StartFailure)
    {s : Sys} (hserving : s.shutdown ≠ .released) :
    run step s (failedStartLabels env worker req how s) =
      some (failedStart env worker req how s) := by
  have hclaim : step s (.startClaim env worker req) = some (startClaim env worker req s) := by
    simp [step, serve, hserving]
  have hstill : (startClaim env worker req s).shutdown ≠ .released := by
    rw [startClaim_shutdown]
    exact hserving
  rw [failedStartLabels, run, hclaim, failedStart]
  rcases startClaim_cases env worker req s with ⟨i, hfree, -, heq⟩ | ⟨i, hevict, -, -, heq⟩ | ⟨hfull, heq⟩
  · rw [hfree]
    refine run_failureLabels how hstill ?_ rfl
    rw [heq]
    simp [fillSlot, drainLocked]
  · rw [hevict]
    refine run_failureLabels how hstill ?_ rfl
    rw [heq]
    simp [fillSlot, evictOutput_nextId, drainLocked]
  · rw [hfull]
    rfl

/-! ## What it leaves behind -/

/-- Both failure exits leave the record free and its output file deleted. -/
theorem failAfterClaim_spec (st : Start) (how : StartFailure) (s : Sys) :
    (failAfterClaim st how s).jobs =
        s.jobs.set st.tenant.slot { s.jobs st.tenant.slot with inUse := false } ∧
      (failAfterClaim st how s).files = delete s.files (s.jobs st.tenant.slot).outPath ∧
      (failAfterClaim st how s).port = s.port := by
  cases how with
  | openFails => exact ⟨rfl, rfl, rfl⟩
  | kickFails => exact ⟨rfl, Function.update_idem .., rfl⟩

/-- The table after a failing call that held record `i`. -/
theorem failedStart_spec (env : Env) (worker : Nat) (req : StartRequest) (how : StartFailure)
    (s : Sys) :
    (∃ i, claimSlotLocked (drainLocked env s).jobs = .free i ∧
      (failedStart env worker req how s).jobs = (drainLocked env s).jobs.set i
        { newJob env s.nextId req with inUse := false } ∧
      (failedStart env worker req how s).files = delete s.files (outPathOf s.nextId) ∧
      (failedStart env worker req how s).port = []) ∨
    (∃ i, claimSlotLocked (drainLocked env s).jobs = .evict i ∧
      (failedStart env worker req how s).jobs = (drainLocked env s).jobs.set i
        { newJob env s.nextId req with inUse := false } ∧
      (failedStart env worker req how s).port = []) ∨
    (claimSlotLocked (drainLocked env s).jobs = .full ∧
      failedStart env worker req how s = drainLocked env s) := by
  rw [failedStart]
  rcases startClaim_cases env worker req s with ⟨i, hfree, -, heq⟩ | ⟨i, hevict, -, -, heq⟩ | ⟨hfull, heq⟩
  · obtain ⟨hjobs, hfiles, hport⟩ := failAfterClaim_spec ⟨worker, .claimed, ⟨i, s.nextId⟩⟩ how
      (fillSlot env worker req i (drainLocked env s))
    rw [hfree, heq]
    refine Or.inl ⟨i, rfl, ?_, ?_, hport⟩
    · rw [hjobs]
      simp [fillSlot, Table.set, drainLocked]
    · rw [hfiles]
      simp [fillSlot, drainLocked, newJob]
  · obtain ⟨hjobs, -, hport⟩ := failAfterClaim_spec ⟨worker, .claimed, ⟨i, s.nextId⟩⟩ how
      (fillSlot env worker req i (evictOutput i (drainLocked env s)))
    rw [hevict, heq]
    refine Or.inr (Or.inl ⟨i, rfl, ?_, ?_⟩)
    · rw [hjobs]
      simp [fillSlot, Table.set, drainLocked]
    · rw [hport, fillSlot, evictOutput]
      split <;> rfl
  · rw [hfull, heq]
    exact Or.inr (Or.inr ⟨rfl, rfl⟩)

/-! ## Atomicity -/

/-- A report without the two fields that the clock and the free memory move. -/
def JobInfo.lasting (info : JobInfo) : JobInfo :=
  { info with elapsedMs := 0, memFreeAfter := 0 }

/-- Nothing that was there before is gone or changed after, and nothing is new.
A job counts with the state that `jobs_list` reports, which takes the death
messages off the port before it looks. -/
structure StartAtomic (s s' : Sys) : Prop where
  listed : ∀ env env', (jobsList env' s').2.map JobInfo.lasting =
    (jobsList env s).2.map JobInfo.lasting
  output : ∀ i, (s.jobs i).inUse = true → (s.jobs i).outputDeleted = false →
    s'.files (s.jobs i).outPath = s.files (s.jobs i).outPath

/-- The record's job has ended, whether or not the message has been read. -/
def finished (s : Sys) (i : Slot) : Prop :=
  (s.jobs i).state = .exited ∨ i ∈ s.port.map Tenant.slot

/-- No kept output file of a job in the table bears the name that the next
start uses. -/
def OutPathUnused (s : Sys) : Prop :=
  ∀ i, (s.jobs i).inUse = true → (s.jobs i).outputDeleted = false →
    (s.jobs i).outPath = outPathOf s.nextId → s.files (outPathOf s.nextId) = none

/-- No finished job has to make room for a start. -/
def NoEviction (s : Sys) : Prop :=
  (∀ i, (s.jobs i).inUse = true ∧ ¬ finished s i) ∨
    ((∃ i, (s.jobs i).inUse = false) ∧ OutPathUnused s)

theorem drained_state_iff (env : Env) (s : Sys) (i : Slot) :
    ((drainLocked env s).jobs i).state = .exited ↔ finished s i := by
  simp only [drainLocked, drainTable_apply, finished]
  split
  · rename_i hport
    simp [markExited, hport]
  · rename_i hport
    simp [hport]

theorem drained_inUse (env : Env) (s : Sys) (i : Slot) :
    ((drainLocked env s).jobs i).inUse = (s.jobs i).inUse :=
  (drainTable_sameJob env s.port s.jobs i).inUse

/-- A scan that evicts, or finds nothing, has met no free record. -/
theorem claimScan_inUse {jobs : Table} {is : List Slot} {oldest : Option Slot}
    (h : ∀ i, claimScan jobs is oldest ≠ .free i) : ∀ i ∈ is, (jobs i).inUse = true := by
  induction is generalizing oldest with
  | nil => simp
  | cons i is ih =>
    rw [claimScan] at h
    split at h
    · exact absurd rfl (h i)
    · rename_i huse
      have hrest : ∀ k ∈ is, (jobs k).inUse = true := by
        split at h
        · exact ih h
        · exact ih h
      simpa [huse] using hrest

/-- A scan that finds nothing has met no finished job. -/
theorem claimScan_full {jobs : Table} {is : List Slot} {oldest : Option Slot}
    (h : claimScan jobs is oldest = .full) :
    oldest = none ∧ ∀ i ∈ is, (jobs i).state ≠ .exited := by
  induction is generalizing oldest with
  | nil =>
    cases oldest with
    | none => simp
    | some o => simp [claimScan] at h
  | cons i is ih =>
    rw [claimScan] at h
    split at h
    · cases h
    · split at h
      · obtain ⟨hnone, -⟩ := ih h
        cases hnone
      · rename_i hnot
        obtain ⟨hnone, hrest⟩ := ih h
        subst hnone
        have hstate : (jobs i).state ≠ .exited := by
          simpa [older] using hnot
        simpa [hstate] using hrest

/-- What `jobs_list` reports of record `i` when it reads the clock `env`. -/
def reported (env : Env) (s : Sys) (i : Slot) : Option JobInfo :=
  if (s.jobs i).inUse then some (fillInfo env ((drainLocked env s).jobs i)).lasting else none

theorem jobsList_lasting (env : Env) (s : Sys) :
    (jobsList env s).2.map JobInfo.lasting = (List.finRange jobSlots).filterMap (reported env s) := by
  simp only [jobsList, List.map_filterMap]
  congr 1
  funext i
  rw [reported, ← drained_inUse env s i]
  split
  · rfl
  · rfl

/-- The clock and the free memory do not show. -/
theorem reported_env (env env' : Env) (s : Sys) : reported env s = reported env' s := by
  funext i
  simp only [reported, drainLocked, drainTable_apply]
  split
  · split
    · rfl
    · rfl
  · rfl

/-- A table that holds the drained records and no more reports the same. -/
theorem reported_of_drained {env : Env} {s s' : Sys} (hport : s'.port = [])
    (hsame : ∀ i, (s.jobs i).inUse = true → s'.jobs i = (drainLocked env s).jobs i)
    (hfree : ∀ i, (s.jobs i).inUse = false → (s'.jobs i).inUse = false) :
    reported env s' = reported env s := by
  funext i
  have hdrained : (drainLocked env s').jobs i = s'.jobs i := by
    simp [drainLocked, hport, drainTable]
  simp only [reported, hdrained]
  by_cases huse : (s.jobs i).inUse = true
  · rw [hsame i huse, drained_inUse]
  · rw [Bool.not_eq_true] at huse
    rw [hfree i huse, huse]
    rfl

theorem listed_of_reported (env : Env) {s s' : Sys} (h : reported env s' = reported env s) :
    ∀ env₀ env₁, (jobsList env₁ s').2.map JobInfo.lasting =
      (jobsList env₀ s).2.map JobInfo.lasting := by
  intro env₀ env₁
  rw [jobsList_lasting, jobsList_lasting, reported_env env₁ env, reported_env env₀ env, h]

/-- A job that was reported and is not any more. -/
theorem not_listed {env : Env} {s s' : Sys} {i : Slot} (hall : ∀ k, (s.jobs k).inUse = true)
    (hgone : (s'.jobs i).inUse = false) :
    (jobsList env s').2.map JobInfo.lasting ≠ (jobsList env s).2.map JobInfo.lasting := by
  intro heq
  rw [jobsList_lasting, jobsList_lasting] at heq
  have hbefore : ((List.finRange jobSlots).filterMap (reported env s)).length =
      (List.finRange jobSlots).length := by
    rw [List.filterMap_length_eq_length]
    intro k _
    simp [reported, hall k]
  rw [← heq, List.filterMap_length_eq_length] at hbefore
  have hi := hbefore i (List.mem_finRange i)
  simp [reported, hgone] at hi

/-- A free record at hand: the call leaves the table as it was, and takes away
the file of its own name. -/
theorem listed_of_free {env : Env} {s s' : Sys} {i : Slot} {j : Job} (huse : (s.jobs i).inUse = false)
    (hjobs : s'.jobs = (drainLocked env s).jobs.set i { j with inUse := false })
    (hport : s'.port = []) : ∀ env₀ env₁, (jobsList env₁ s').2.map JobInfo.lasting =
      (jobsList env₀ s).2.map JobInfo.lasting := by
  apply listed_of_reported env
  apply reported_of_drained hport
  · intro k hk
    have hki : k ≠ i := by
      rintro rfl
      simp [huse] at hk
    rw [hjobs, Table.set_other _ _ hki]
  · intro k hk
    by_cases hki : k = i
    · subst hki
      rw [hjobs, Table.set_same]
    · rw [hjobs, Table.set_other _ _ hki, drained_inUse]
      exact hk

/-- The kept files survive the loss of one path exactly when none of them is
there. -/
theorem output_delete_iff {s : Sys} {path : CString} :
    (∀ i, (s.jobs i).inUse = true → (s.jobs i).outputDeleted = false →
      delete s.files path (s.jobs i).outPath = s.files (s.jobs i).outPath) ↔
    ∀ i, (s.jobs i).inUse = true → (s.jobs i).outputDeleted = false →
      (s.jobs i).outPath = path → s.files path = none := by
  constructor
  · intro hout i huse hkept hpath
    have hi := hout i huse hkept
    rw [hpath] at hi
    rw [← hi]
    exact Function.update_self ..
  · intro hunused i huse hkept
    by_cases hpath : (s.jobs i).outPath = path
    · rw [hpath, hunused i huse hkept hpath]
      exact Function.update_self ..
    · exact Function.update_of_ne hpath ..

/-- A failing start is atomic exactly when no finished job has to make room
for it. -/
theorem startAtomic_iff (env : Env) (worker : Nat) (req : StartRequest) (how : StartFailure)
    (s : Sys) : StartAtomic s (failedStart env worker req how s) ↔ NoEviction s := by
  rcases failedStart_spec env worker req how s with
    ⟨i, hfree, hjobs, hfiles, hport⟩ | ⟨i, hevict, hjobs, -⟩ | ⟨hfull, heq⟩
  · have huse : (s.jobs i).inUse = false := by
      rw [← drained_inUse env]
      exact claimSlotLocked_free hfree
    constructor
    · intro hatomic
      have hout := hatomic.output
      rw [hfiles] at hout
      exact Or.inr ⟨⟨i, huse⟩, output_delete_iff.mp hout⟩
    · intro hroom
      refine ⟨listed_of_free huse hjobs hport, ?_⟩
      rw [hfiles]
      rcases hroom with hall | ⟨-, hunused⟩
      · have hi := (hall i).1
        rw [huse] at hi
        cases hi
      · exact output_delete_iff.mpr hunused
  · -- The table is full, and the call leaves one record fewer in it.
    have hall : ∀ k, (s.jobs k).inUse = true := by
      intro k
      rw [← drained_inUse env]
      have hnone : ∀ k, claimSlotLocked (drainLocked env s).jobs ≠ .free k := by
        simp [hevict]
      exact claimScan_inUse hnone k (List.mem_finRange k)
    have hended : finished s i := (drained_state_iff env s i).mp (claimSlotLocked_evict hevict).2
    constructor
    · intro hatomic
      have hgone : ((failedStart env worker req how s).jobs i).inUse = false := by
        rw [hjobs, Table.set_same]
      exact absurd (hatomic.listed env env) (not_listed hall hgone)
    · rintro (hrun | ⟨⟨k, hk⟩, -⟩)
      · exact absurd hended (hrun i).2
      · rw [hall k] at hk
        cases hk
  · have hroom : NoEviction s := by
      refine Or.inl fun k => ⟨?_, ?_⟩
      · rw [← drained_inUse env]
        have hnone : ∀ k, claimSlotLocked (drainLocked env s).jobs ≠ .free k := by
          simp [hfull]
        exact claimScan_inUse hnone k (List.mem_finRange k)
      · rw [← drained_state_iff env]
        exact (claimScan_full hfull).2 k (List.mem_finRange k)
    refine iff_of_true ⟨?_, ?_⟩ hroom
    · rw [heq]
      apply listed_of_reported env
      apply reported_of_drained rfl (fun _ _ => rfl)
      intro k hk
      rw [drained_inUse]
      exact hk
    · intro k _ _
      rw [heq]
      rfl

/-- 32 starts that succeed; then job 1 writes a byte and ends with code 5. -/
def fullTableRun : List Label :=
  (List.finRange jobSlots).flatMap (fun i =>
    [.startClaim sampleEnv 0 sampleRequest, .startOpened ⟨0, .claimed, ⟨i, i.val + 1⟩⟩,
      .startKicked ⟨0, .opened, ⟨i, i.val + 1⟩⟩]) ++
    [.childWrite sampleTenant [7], .childExit sampleTenant 5 0]

/-- What is left of job 1 before and after a start that cannot open its output
file in `T:`. -/
def losesFirstJob (s : Sys) : Bool :=
  let s' := failedStart sampleEnv 0 sampleRequest .openFails s
  (jobsGet sampleEnv 1 s).2.map (fun info => (info.state, info.rc)) == some (.exited, 5) &&
    s.files (outPathOf 1) == some [7] && (jobsGet sampleEnv 1 s').2 == none &&
    s'.files (outPathOf 1) == none && (jobsList sampleEnv s).2.length == 32 &&
    (jobsList sampleEnv s').2.length == 31

/-- `T:` cannot be written to: the start fails, and job 1 and its output are
lost. -/
theorem failed_start_loses_job : ∃ s, run step (init fun _ => none) fullTableRun = some s ∧
    losesFirstJob s = true ∧
    ¬ StartAtomic s (failedStart sampleEnv 0 sampleRequest .openFails s) := by
  have hrun : (run step (init fun _ => none) fullTableRun).any losesFirstJob = true := by
    decide +kernel
  obtain ⟨s, hs, hloses⟩ := Option.any_eq_true .. |>.mp hrun
  refine ⟨s, hs, hloses, ?_⟩
  intro hatomic
  have hlength := congrArg List.length (hatomic.listed sampleEnv sampleEnv)
  simp only [losesFirstJob, Bool.and_eq_true, beq_iff_eq] at hloses
  simp only [List.length_map] at hlength
  omega

/-! ## In a run -/

/-- Below the wrap of `g_next_id` the table keeps its invariant, whatever
`jobs_shutdown` does. -/
theorem run_tableInv {files : Files} {as : List Label} {s : Sys}
    (hrun : run step (init files) as = some s) :
    RangeInv s ∧ (s.begun < 2 ^ 32 - 1 → TableInv s) := by
  have hkeep : ∀ s a s', (RangeInv s ∧ (s.begun < 2 ^ 32 - 1 → TableInv s)) →
      step s a = some s' → RangeInv s' ∧ (s'.begun < 2 ^ 32 - 1 → TableInv s') := by
    intro s a s' hinv hstep
    obtain ⟨-, hkind⟩ := step_kind hstep
    have hle := hkind.begun_le
    refine ⟨hinv.1.step hkind, ?_⟩
    intro hfew
    have hfew' : s.begun < 2 ^ 32 - 1 := by omega
    exact (hinv.2 hfew').step hkind fun env _ _ _ => (hinv.1.freshId hfew').apart env
  exact run_invariant_all hkeep ⟨init_rangeInv files, fun _ => init_tableInv files⟩ hrun

/-- There, a free record is all that a failing start needs. -/
theorem outPathUnused_of_run {files : Files} {as : List Label} {s : Sys}
    (hrun : run step (init files) as = some s) (hfew : s.begun < 2 ^ 32 - 1) :
    OutPathUnused s := by
  obtain ⟨hrange, htable⟩ := run_tableInv hrun
  have hs := htable hfew
  intro i huse _ hpath
  rw [hs.path i huse] at hpath
  have hid := outPathOf_injective (hs.idLt i huse) hs.nextLt hpath
  exact absurd hid (hrange.freshId hfew i huse)

/-- Whatever the other workers did since it claimed its record, a failing start
frees that record and no other job's. -/
theorem startUndo_own {files : Files} {as : List Label} {s s' : Sys} {st : Start}
    (hrun : run step (init files) as = some s) (hfew : s.begun < 2 ^ 32 - 1)
    (hstep : step s (.startUndo st) = some s') :
    Occupies s.jobs st.tenant ∧ s'.files = s.files ∧
      ∀ i, i ≠ st.tenant.slot → s'.jobs i = s.jobs i := by
  obtain ⟨-, htable⟩ := run_tableInv hrun
  obtain ⟨-, hserve⟩ := step_serve hstep
  obtain ⟨hst, -, rfl⟩ := whenStart_some hserve
  refine ⟨?_, rfl, fun i hi => Table.set_other _ _ hi⟩
  apply (htable hfew).tenancy.holds
  simp only [holders, List.mem_append, List.mem_map]
  exact Or.inl (Or.inl ⟨st, hst, rfl⟩)

end AmigaFleet.Mcpd.Jobs

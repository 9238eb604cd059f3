import AmigaFleet.Lib.Tenancy
import AmigaFleet.Mcpd.Jobs
import Mathlib.Order.Fin.Basic

/-!
# Safety of the job table

The records of the table are a pool of slots.  A slot is held by the start
that is filling it, then by the child that was started in it, then by the
death message of that child; `holders` lists them all.  `TableInv` says that
the holders sit in different slots and that each slot still carries the
running job its holder was made for.  One lemma per operation shows that the
invariant stays, and `run_safe` carries it over whole runs.

`TableSafe` is what the table promises to the rest of the daemon.  It needs
two facts about the run: the ids have not wrapped around, and no start enters
the table between the last count of `jobs_shutdown` and the free.  The second
one is not enforced by the code: `shutdown_race` is a run that breaks it.
-/

namespace AmigaFleet.Mcpd.Jobs

open AmigaFleet.Lib

/-! ## What the helpers do -/

@[simp] theorem markExited_markExited (env : Env) (j : Job) :
    markExited env (markExited env j) = markExited env j := rfl

/-- A drain marks the records that a message points into, and no other. -/
theorem drainTable_apply (env : Env) (ms : List Tenant) (jobs : Table) (i : Slot) :
    drainTable env jobs ms i =
      if i ∈ ms.map Tenant.slot then markExited env (jobs i) else jobs i := by
  induction ms generalizing jobs with
  | nil => simp [drainTable]
  | cons m ms ih =>
    rw [drainTable, ih]
    by_cases hi : i = m.slot
    · subst hi
      simp
    · simp [hi, Table.set_other]

/-- The fields that say which job a record holds. -/
structure SameJob (a b : Job) : Prop where
  inUse : a.inUse = b.inUse
  id : a.id = b.id
  outPath : a.outPath = b.outPath

theorem SameJob.refl (a : Job) : SameJob a a := ⟨rfl, rfl, rfl⟩

theorem drainTable_sameJob (env : Env) (ms : List Tenant) (jobs : Table) (i : Slot) :
    SameJob (drainTable env jobs ms i) (jobs i) := by
  rw [drainTable_apply]
  split
  · exact ⟨rfl, rfl, rfl⟩
  · exact SameJob.refl _

theorem claimScan_free {jobs : Table} {is : List Slot} {oldest : Option Slot} {i : Slot}
    (h : claimScan jobs is oldest = .free i) : (jobs i).inUse = false := by
  induction is generalizing oldest with
  | nil => cases oldest <;> simp [claimScan] at h
  | cons k is ih =>
    rw [claimScan] at h
    split at h
    · rename_i hk
      cases h
      exact hk
    · split at h
      · exact ih h
      · exact ih h

theorem claimScan_evict {jobs : Table} {is : List Slot} {oldest : Option Slot} {i : Slot}
    (h : claimScan jobs is oldest = .evict i) :
    oldest = some i ∨ ((jobs i).inUse = true ∧ (jobs i).state = .exited) := by
  induction is generalizing oldest with
  | nil =>
    cases oldest with
    | none => simp [claimScan] at h
    | some o =>
      simp only [claimScan, Claim.evict.injEq] at h
      exact Or.inl (by rw [h])
  | cons k is ih =>
    rw [claimScan] at h
    split at h
    · cases h
    · rename_i hk
      split at h
      · rename_i hex
        rcases ih h with hki | hi
        · cases hki
          exact Or.inr ⟨by simpa using hk, hex.1⟩
        · exact Or.inr hi
      · exact ih h

/-- A record that `_claim_slot_locked` evicts is a finished one. -/
theorem claimSlotLocked_evict {jobs : Table} {i : Slot} (h : claimSlotLocked jobs = .evict i) :
    (jobs i).inUse = true ∧ (jobs i).state = .exited := by
  rcases claimScan_evict h with hnone | hi
  · cases hnone
  · exact hi

theorem claimSlotLocked_free {jobs : Table} {i : Slot} (h : claimSlotLocked jobs = .free i) :
    (jobs i).inUse = false := claimScan_free h

/-! ## Output paths -/

/-- An id of 32 bits has at most ten digits, so `snprintf` cuts nothing off. -/
theorem outPathOf_eq {id : Nat} (h : id < 2 ^ 32) :
    outPathOf id = "T:mcpd_job_".toList ++ Nat.toDigits 10 id ++ ".out".toList := by
  have hdigits : (Nat.toDigits 10 id).length ≤ 10 := by
    rw [Nat.length_toDigits_le_iff (by decide) (by decide)]
    omega
  rw [outPathOf, copyInto]
  apply List.take_of_length_le
  have hhead : "T:mcpd_job_".toList.length = 11 := by decide
  have htail : ".out".toList.length = 4 := by decide
  simp only [List.length_append, hhead, htail]
  omega

theorem toDigits_injective {a b : Nat} (h : Nat.toDigits 10 a = Nat.toDigits 10 b) : a = b := by
  rw [← Nat.ofDigitChars_ten_toDigits (n := a), h, Nat.ofDigitChars_ten_toDigits]

theorem outPathOf_injective {a b : Nat} (ha : a < 2 ^ 32) (hb : b < 2 ^ 32)
    (h : outPathOf a = outPathOf b) : a = b := by
  rw [outPathOf_eq ha, outPathOf_eq hb] at h
  exact toDigits_injective (List.append_cancel_left (List.append_cancel_right h))

/-! ## The invariant -/

/-- The record at `t.slot` is the running job that `t` was made for. -/
def Occupies (jobs : Table) (t : Tenant) : Prop :=
  (jobs t.slot).inUse = true ∧ (jobs t.slot).id = t.id ∧ (jobs t.slot).state = .running

theorem Occupies.of_same {jobs jobs' : Table} {t : Tenant} (h : Occupies jobs t)
    (hs : SameJob (jobs' t.slot) (jobs t.slot)) (hst : (jobs' t.slot).state = (jobs t.slot).state) :
    Occupies jobs' t :=
  ⟨hs.inUse.trans h.1, hs.id.trans h.2.1, hst.trans h.2.2⟩

/-- Everything that points into the table from outside. -/
def holders (s : Sys) : List Tenant := s.starts.map Start.tenant ++ s.children ++ s.port

/-- What the table keeps as long as no start is given an id that is in use. -/
structure TableInv (s : Sys) : Prop where
  ids : ∀ i k, (s.jobs i).inUse = true → (s.jobs k).inUse = true →
    (s.jobs i).id = (s.jobs k).id → i = k
  idLt : ∀ i, (s.jobs i).inUse = true → (s.jobs i).id < 2 ^ 32
  path : ∀ i, (s.jobs i).inUse = true → (s.jobs i).outPath = outPathOf (s.jobs i).id
  nextLt : s.nextId < 2 ^ 32
  tenancy : Tenancy Tenant.slot (Occupies s.jobs) (holders s)

theorem init_tableInv (files : Files) : TableInv (init files) where
  ids := by intro i k hi; cases hi
  idLt := by intro i hi; cases hi
  path := by intro i hi; cases hi
  nextLt := by
    show 1 < 2 ^ 32
    decide
  tenancy := Tenancy.nil

theorem TableInv.starts_tenancy {s : Sys} (h : TableInv s) :
    Tenancy Tenant.slot (Occupies s.jobs) (s.starts.map Start.tenant ++ s.children) :=
  h.tenancy.sublist (List.sublist_append_left ..)

/-- A step that moves holders about and leaves every record with the same job
in the same state. -/
structure Soft (s s' : Sys) : Prop where
  same : ∀ i, SameJob (s'.jobs i) (s.jobs i)
  state : ∀ i, (s'.jobs i).state = (s.jobs i).state
  holders : (holders s').Perm (holders s)
  nextId : s'.nextId = s.nextId
  begun : s'.begun = s.begun
  shutdown : s'.shutdown = s.shutdown

theorem TableInv.soft {s s' : Sys} (h : TableInv s) (hs : Soft s s') : TableInv s' where
  ids := by
    intro i k hi hk hid
    rw [(hs.same i).inUse] at hi
    rw [(hs.same k).inUse] at hk
    rw [(hs.same i).id, (hs.same k).id] at hid
    exact h.ids i k hi hk hid
  idLt := by
    intro i hi
    rw [(hs.same i).inUse] at hi
    rw [(hs.same i).id]
    exact h.idLt i hi
  path := by
    intro i hi
    rw [(hs.same i).inUse] at hi
    rw [(hs.same i).outPath, (hs.same i).id]
    exact h.path i hi
  nextLt := by
    rw [hs.nextId]
    exact h.nextLt
  tenancy := (h.tenancy.imp fun t _ ht => ht.of_same (hs.same _) (hs.state _)).perm hs.holders

theorem soft_of_jobs_eq {s s' : Sys} (hj : s'.jobs = s.jobs)
    (hh : (holders s').Perm (holders s)) (hn : s'.nextId = s.nextId) (hb : s'.begun = s.begun)
    (hd : s'.shutdown = s.shutdown) : Soft s s' where
  same := fun i => by rw [hj]; exact SameJob.refl _
  state := fun i => by rw [hj]
  holders := hh
  nextId := hn
  begun := hb
  shutdown := hd

theorem sameJob_set (jobs : Table) (i k : Slot) {j : Job} (h : SameJob j (jobs i)) :
    SameJob (jobs.set i j k) (jobs k) := by
  by_cases hk : k = i
  · subst hk
    rw [Table.set_same]
    exact h
  · rw [Table.set_other _ _ hk]
    exact SameJob.refl _

theorem state_set (jobs : Table) (i k : Slot) {j : Job} (h : j.state = (jobs i).state) :
    (jobs.set i j k).state = (jobs k).state := by
  by_cases hk : k = i
  · subst hk
    rw [Table.set_same]
    exact h
  · rw [Table.set_other _ _ hk]

/-! ## Operations that keep every record -/

/-- A start that changes its phase stays the same holder. -/
theorem holders_startTo {s : Sys} {st : Start} (hst : st ∈ s.starts) (phase : StartPhase) :
    (holders (s.startTo st phase)).Perm (holders s) := by
  have hperm := (List.perm_cons_erase hst).symm.map Start.tenant
  exact (hperm.append_right s.children).append_right s.port

theorem startOpened_soft {s : Sys} {st : Start} (hst : st ∈ s.starts) :
    Soft s (startOpened st s) :=
  soft_of_jobs_eq rfl (holders_startTo hst .opened) rfl rfl rfl

theorem startOpenFailed_soft {s : Sys} {st : Start} (hst : st ∈ s.starts) :
    Soft s (startOpenFailed st s) :=
  soft_of_jobs_eq rfl (holders_startTo hst .failing) rfl rfl rfl

theorem startKickFailed_soft {s : Sys} {st : Start} (hst : st ∈ s.starts) :
    Soft s (startKickFailed st s) :=
  soft_of_jobs_eq rfl (holders_startTo hst .failing) rfl rfl rfl

/-- The start hands its slot to the child. -/
theorem startKicked_soft {s : Sys} {st : Start} (hst : st ∈ s.starts) :
    Soft s (startKicked st s) := by
  refine soft_of_jobs_eq rfl ?_ rfl rfl rfl
  have hperm := (List.perm_cons_erase hst).symm.map Start.tenant
  refine List.Perm.append_right s.port ?_
  refine List.Perm.trans ?_ (hperm.append_right s.children)
  exact List.perm_middle

theorem jobEntry_soft (s : Sys) (c : Tenant) (pid : Nat) : Soft s (jobEntry c pid s) where
  same := fun k => sameJob_set s.jobs c.slot k ⟨rfl, rfl, rfl⟩
  state := fun k => state_set s.jobs c.slot k rfl
  holders := List.Perm.refl _
  nextId := rfl
  begun := rfl
  shutdown := rfl

theorem childWrite_soft (s : Sys) (c : Tenant) (bytes : Bytes) : Soft s (childWrite c bytes s) := by
  rw [childWrite]
  split
  · exact soft_of_jobs_eq rfl (List.Perm.refl _) rfl rfl rfl
  · exact soft_of_jobs_eq rfl (List.Perm.refl _) rfl rfl rfl

/-- The child hands its slot to its death message. -/
theorem childExit_soft {s : Sys} {c : Tenant} (hc : c ∈ s.children) (rc result2 : Int) :
    Soft s (childExit c rc result2 s) where
  same := fun k => sameJob_set s.jobs c.slot k ⟨rfl, rfl, rfl⟩
  state := fun k => state_set s.jobs c.slot k rfl
  holders := by
    have hperm : (s.children.erase c ++ (s.port ++ [c])).Perm (s.children ++ s.port) := by
      rw [← List.append_assoc]
      refine (@List.perm_append_comm _ _ [c]).trans ?_
      exact (List.perm_cons_erase hc).symm.append_right s.port
    simpa [holders, childExit] using hperm.append_left (s.starts.map Start.tenant)
  nextId := rfl
  begun := rfl
  shutdown := rfl

theorem jobsDropOutput_soft (s : Sys) (id : Nat) : Soft s (jobsDropOutput id s) := by
  rw [jobsDropOutput]
  split
  · exact soft_of_jobs_eq rfl (List.Perm.refl _) rfl rfl rfl
  · rename_i i _
    split
    · exact
        { same := fun k => sameJob_set s.jobs i k ⟨rfl, rfl, rfl⟩
          state := fun k => state_set s.jobs i k rfl
          holders := List.Perm.refl _
          nextId := rfl
          begun := rfl
          shutdown := rfl }
    · exact soft_of_jobs_eq rfl (List.Perm.refl _) rfl rfl rfl

theorem jobsSignal_soft (s : Sys) (env : Env) (id sigmask : Nat) (found : Bool) :
    Soft (drainLocked env s) (jobsSignal env id sigmask found s).1 := by
  rw [jobsSignal]
  dsimp only
  split
  · exact soft_of_jobs_eq rfl (List.Perm.refl _) rfl rfl rfl
  · rename_i i _
    split
    · exact
        { same := fun k => sameJob_set _ i k ⟨rfl, rfl, rfl⟩
          state := fun k => state_set _ i k rfl
          holders := List.Perm.refl _
          nextId := rfl
          begun := rfl
          shutdown := rfl }
    · exact soft_of_jobs_eq rfl (List.Perm.refl _) rfl rfl rfl

/-! ## The drain -/

/-- A drain takes the messages off the port and marks their records.  Every
other holder sits in another slot, so it keeps its running record. -/
theorem TableInv.drain {s : Sys} (h : TableInv s) (env : Env) : TableInv (drainLocked env s) where
  ids := by
    intro i k hi hk hid
    have hsi := drainTable_sameJob env s.port s.jobs i
    have hsk := drainTable_sameJob env s.port s.jobs k
    exact h.ids i k (hsi.inUse ▸ hi) (hsk.inUse ▸ hk) (by rw [← hsi.id, ← hsk.id]; exact hid)
  idLt := by
    intro i hi
    have hsi := drainTable_sameJob env s.port s.jobs i
    exact hsi.id ▸ h.idLt i (hsi.inUse ▸ hi)
  path := by
    intro i hi
    have hsi := drainTable_sameJob env s.port s.jobs i
    have hp := h.path i (hsi.inUse ▸ hi)
    rw [← hsi.outPath, ← hsi.id] at hp
    exact hp
  nextLt := h.nextLt
  tenancy := by
    have hrest := h.starts_tenancy
    have heq : holders (drainLocked env s) = s.starts.map Start.tenant ++ s.children := by
      simp [holders, drainLocked]
    rw [heq]
    refine hrest.imp ?_
    intro t ht hocc
    have hoff : t.slot ∉ s.port.map Tenant.slot := by
      intro hmem
      obtain ⟨m, hm, hmt⟩ := List.mem_map.mp hmem
      exact h.tenancy.ne_of_append ht hm hmt.symm
    have happly : (drainLocked env s).jobs t.slot = s.jobs t.slot := by
      show drainTable env s.jobs s.port t.slot = s.jobs t.slot
      rw [drainTable_apply, if_neg hoff]
    exact hocc.of_same (by rw [happly]; exact SameJob.refl _) (by rw [happly])

/-! ## Starts -/

/-- A start that fills a slot nobody holds, with an id nobody has. -/
theorem TableInv.fillSlot {s : Sys} (h : TableInv s) (env : Env) (worker : Nat)
    (req : StartRequest) {i : Slot} (hfree : ¬ (s.jobs i).isRunning = true)
    (hfresh : ∀ k, k ≠ i → (s.jobs k).inUse = true → (s.jobs k).id ≠ s.nextId) :
    TableInv (fillSlot env worker req i s) where
  ids := by
    intro a b ha hb hid
    simp only [Jobs.fillSlot] at ha hb hid
    by_cases hai : a = i
    · subst hai
      by_cases hbi : b = a
      · exact hbi.symm
      · rw [Table.set_other _ _ hbi] at hb hid
        rw [Table.set_same] at hid
        exact absurd hid.symm (hfresh b hbi hb)
    · rw [Table.set_other _ _ hai] at ha hid
      by_cases hbi : b = i
      · subst hbi
        rw [Table.set_same] at hid
        exact absurd hid (hfresh a hai ha)
      · rw [Table.set_other _ _ hbi] at hb hid
        exact h.ids a b ha hb hid
  idLt := by
    intro a ha
    simp only [Jobs.fillSlot] at ha ⊢
    by_cases hai : a = i
    · subst hai
      rw [Table.set_same]
      exact h.nextLt
    · rw [Table.set_other _ _ hai] at ha ⊢
      exact h.idLt a ha
  path := by
    intro a ha
    simp only [Jobs.fillSlot] at ha ⊢
    by_cases hai : a = i
    · subst hai
      rw [Table.set_same]
      rfl
    · rw [Table.set_other _ _ hai] at ha ⊢
      exact h.path a ha
  nextLt := Nat.mod_lt _ (by decide)
  tenancy := by
    have hoff : ∀ t ∈ holders s, t.slot ≠ i := by
      intro t ht hti
      have hocc := h.tenancy.holds t ht
      rw [Occupies, hti] at hocc
      exact hfree (by simp [Job.isRunning, hocc.1, hocc.2.2])
    refine Tenancy.cons (t := ⟨i, s.nextId⟩) (h.tenancy.imp ?_) hoff ?_
    · intro t ht hocc
      have hset : (Jobs.fillSlot env worker req i s).jobs t.slot = s.jobs t.slot :=
        Table.set_other _ _ (hoff t ht)
      exact hocc.of_same (by rw [hset]; exact SameJob.refl _) (by rw [hset])
    · refine ⟨?_, ?_, ?_⟩ <;> simp [Jobs.fillSlot, newJob]

theorem TableInv.evictOutput {s : Sys} (h : TableInv s) (i : Slot) :
    TableInv (evictOutput i s) := by
  rw [Jobs.evictOutput]
  split
  · exact h
  · exact h.soft (soft_of_jobs_eq rfl (List.Perm.refl _) rfl rfl rfl)

@[simp] theorem evictOutput_jobs (i : Slot) (s : Sys) : (evictOutput i s).jobs = s.jobs := by
  rw [evictOutput]
  split <;> rfl

@[simp] theorem evictOutput_nextId (i : Slot) (s : Sys) : (evictOutput i s).nextId = s.nextId := by
  rw [evictOutput]
  split <;> rfl

@[simp] theorem evictOutput_begun (i : Slot) (s : Sys) : (evictOutput i s).begun = s.begun := by
  rw [evictOutput]
  split <;> rfl

@[simp] theorem evictOutput_shutdown (i : Slot) (s : Sys) :
    (evictOutput i s).shutdown = s.shutdown := by
  rw [evictOutput]
  split <;> rfl

/-- What the first section of `jobs_start` can do, said once. -/
theorem startClaim_cases (env : Env) (worker : Nat) (req : StartRequest) (s : Sys) :
    (∃ i, claimSlotLocked (drainLocked env s).jobs = .free i ∧
      ((drainLocked env s).jobs i).inUse = false ∧
      startClaim env worker req s = fillSlot env worker req i (drainLocked env s)) ∨
    (∃ i, claimSlotLocked (drainLocked env s).jobs = .evict i ∧
      ((drainLocked env s).jobs i).inUse = true ∧
      ((drainLocked env s).jobs i).state = .exited ∧
      startClaim env worker req s =
        fillSlot env worker req i (evictOutput i (drainLocked env s))) ∨
    (claimSlotLocked (drainLocked env s).jobs = .full ∧
      startClaim env worker req s = drainLocked env s) := by
  rw [startClaim]
  split
  · rename_i i hclaim
    exact Or.inl ⟨i, hclaim, claimSlotLocked_free hclaim, rfl⟩
  · rename_i i hclaim
    obtain ⟨huse, hex⟩ := claimSlotLocked_evict hclaim
    exact Or.inr (Or.inl ⟨i, hclaim, huse, hex, rfl⟩)
  · rename_i hclaim
    exact Or.inr (Or.inr ⟨hclaim, rfl⟩)

/-- The id that the next start would be given is not in use. -/
def FreshId (s : Sys) : Prop := ∀ k, (s.jobs k).inUse = true → (s.jobs k).id ≠ s.nextId

/-- The id that a start is given now is not that of a record that stays in use. -/
def ClaimApart (env : Env) (s : Sys) : Prop :=
  ∀ i, claimSlotLocked (drainLocked env s).jobs = .free i ∨
      claimSlotLocked (drainLocked env s).jobs = .evict i →
    ∀ k, k ≠ i → (s.jobs k).inUse = true → (s.jobs k).id ≠ s.nextId

theorem FreshId.apart {s : Sys} (h : FreshId s) (env : Env) : ClaimApart env s :=
  fun _ _ k _ hk => h k hk

theorem FreshId.drain {s : Sys} (h : FreshId s) (env : Env) : FreshId (drainLocked env s) := by
  intro k hk
  have hsk := drainTable_sameJob env s.port s.jobs k
  have hid := h k (hsk.inUse ▸ hk)
  rw [← hsk.id] at hid
  exact hid

theorem TableInv.startClaim {s : Sys} (h : TableInv s) {env : Env} (hapart : ClaimApart env s)
    (worker : Nat) (req : StartRequest) : TableInv (startClaim env worker req s) := by
  have hd := h.drain env
  have hf : ∀ i, claimSlotLocked (drainLocked env s).jobs = .free i ∨
      claimSlotLocked (drainLocked env s).jobs = .evict i → ∀ k, k ≠ i →
        ((drainLocked env s).jobs k).inUse = true → ((drainLocked env s).jobs k).id ≠ s.nextId := by
    intro i hclaim k hki hk
    have hsk := drainTable_sameJob env s.port s.jobs k
    have hid := hapart i hclaim k hki (hsk.inUse ▸ hk)
    rw [← hsk.id] at hid
    exact hid
  rcases startClaim_cases env worker req s with
    ⟨i, hfree, huse, heq⟩ | ⟨i, hevict, _, hex, heq⟩ | ⟨_, heq⟩
  · rw [heq]
    exact hd.fillSlot env worker req (by simp [Job.isRunning, huse]) (hf i (Or.inl hfree))
  · rw [heq]
    refine (hd.evictOutput i).fillSlot env worker req ?_ ?_
    · simp [Job.isRunning, hex]
    · intro k hki hk
      rw [evictOutput_jobs] at hk ⊢
      rw [evictOutput_nextId]
      exact hf i (Or.inr hevict) k hki hk
  · rw [heq]
    exact hd

/-- A failure exit frees its own slot, which nobody else holds. -/
theorem TableInv.startUndo {s : Sys} (h : TableInv s) {st : Start} (hst : st ∈ s.starts) :
    TableInv (startUndo st s) where
  ids := by
    intro a b ha hb hid
    simp only [Jobs.startUndo] at ha hb hid
    by_cases hai : a = st.tenant.slot
    · subst hai
      rw [Table.set_same] at ha
      cases ha
    · by_cases hbi : b = st.tenant.slot
      · subst hbi
        rw [Table.set_same] at hb
        cases hb
      · rw [Table.set_other _ _ hai] at ha hid
        rw [Table.set_other _ _ hbi] at hb hid
        exact h.ids a b ha hb hid
  idLt := by
    intro a ha
    simp only [Jobs.startUndo] at ha ⊢
    by_cases hai : a = st.tenant.slot
    · subst hai
      rw [Table.set_same] at ha
      cases ha
    · rw [Table.set_other _ _ hai] at ha ⊢
      exact h.idLt a ha
  path := by
    intro a ha
    simp only [Jobs.startUndo] at ha ⊢
    by_cases hai : a = st.tenant.slot
    · subst hai
      rw [Table.set_same] at ha
      cases ha
    · rw [Table.set_other _ _ hai] at ha ⊢
      exact h.path a ha
  nextLt := h.nextLt
  tenancy := by
    have hperm : (st.tenant :: holders (Jobs.startUndo st s)).Perm (holders s) := by
      have hmap := (List.perm_cons_erase hst).symm.map Start.tenant
      exact (hmap.append_right s.children).append_right s.port
    obtain ⟨hrest, hoff⟩ := (h.tenancy.perm hperm).leave
    refine hrest.imp ?_
    intro t ht hocc
    have hset : (Jobs.startUndo st s).jobs t.slot = s.jobs t.slot :=
      Table.set_other _ _ (hoff t ht)
    exact hocc.of_same (by rw [hset]; exact SameJob.refl _) (by rw [hset])

/-! ## What a step can do -/

theorem whenStart_some {s s' t : Sys} {st : Start} {phase : StartPhase}
    (h : s.whenStart st phase t = some s') : st ∈ s.starts ∧ st.phase = phase ∧ s' = t := by
  rw [Sys.whenStart] at h
  split at h
  · rename_i hst
    cases h
    exact ⟨hst.1, hst.2, rfl⟩
  · cases h

theorem whenChild_some {s s' t : Sys} {c : Tenant} (h : s.whenChild c t = some s') :
    c ∈ s.children ∧ s' = t := by
  rw [Sys.whenChild] at h
  split at h
  · rename_i hc
    cases h
    exact ⟨hc, rfl⟩
  · cases h

/-- Every step is a first section of `jobs_start`, a failure exit, a shutdown
section, or it leaves the records as they are, perhaps after a drain. -/
inductive StepKind (s : Sys) : Label → Sys → Prop where
  | claim (env : Env) (worker : Nat) (req : StartRequest) :
      StepKind s (.startClaim env worker req) (startClaim env worker req s)
  | undo {a : Label} {st : Start} (hst : st ∈ s.starts) : StepKind s a (startUndo st s)
  | soft {a : Label} {s' : Sys} (h : Soft s s') : StepKind s a s'
  | drained {a : Label} {s' : Sys} (env : Env) (h : Soft (drainLocked env s) s') :
      StepKind s a s'
  | count {a : Label} (env : Env) : StepKind s a (shutdownCount env s)
  | free {a : Label} (h : s.shutdown = .counted) : StepKind s a (shutdownFree s)

theorem soft_refl (s : Sys) : Soft s s := soft_of_jobs_eq rfl (List.Perm.refl _) rfl rfl rfl

theorem serve_kind {s s' : Sys} {a : Label} (h : serve s a = some s') : StepKind s a s' := by
  cases a with
  | startClaim env worker req =>
    cases h
    exact .claim env worker req
  | startOpened st =>
    obtain ⟨hst, _, rfl⟩ := whenStart_some h
    exact .soft (startOpened_soft hst)
  | startOpenFailed st =>
    obtain ⟨hst, _, rfl⟩ := whenStart_some h
    exact .soft (startOpenFailed_soft hst)
  | startKicked st =>
    obtain ⟨hst, _, rfl⟩ := whenStart_some h
    exact .soft (startKicked_soft hst)
  | startKickFailed st =>
    obtain ⟨hst, _, rfl⟩ := whenStart_some h
    exact .soft (startKickFailed_soft hst)
  | startUndo st =>
    obtain ⟨hst, _, rfl⟩ := whenStart_some h
    exact .undo hst
  | jobEntry c pid =>
    obtain ⟨_, rfl⟩ := whenChild_some h
    exact .soft (jobEntry_soft s c pid)
  | childWrite c bytes =>
    obtain ⟨_, rfl⟩ := whenChild_some h
    exact .soft (childWrite_soft s c bytes)
  | childExit c rc result2 =>
    obtain ⟨hc, rfl⟩ := whenChild_some h
    exact .soft (childExit_soft hc rc result2)
  | get env id =>
    cases h
    exact .drained env (soft_refl _)
  | signal env id sigmask found =>
    cases h
    exact .drained env (jobsSignal_soft s env id sigmask found)
  | dropOutput id =>
    cases h
    exact .soft (jobsDropOutput_soft s id)
  | list env =>
    cases h
    exact .drained env (soft_refl _)
  | shutdownCount env =>
    simp only [serve] at h
    split at h
    · cases h
    · cases h
      exact .count env
  | shutdownFree =>
    simp only [serve] at h
    split at h
    · rename_i hc
      cases h
      exact .free hc
    · cases h

theorem step_serve {s s' : Sys} {a : Label} (h : step s a = some s') :
    s.shutdown ≠ .released ∧ serve s a = some s' := by
  rw [step] at h
  split at h
  · cases h
  · rename_i hr
    exact ⟨hr, h⟩

theorem step_kind {s s' : Sys} {a : Label} (h : step s a = some s') :
    s.shutdown ≠ .released ∧ StepKind s a s' :=
  ⟨(step_serve h).1, serve_kind (step_serve h).2⟩

/-- The two outcomes of a counting section differ in the phase only. -/
theorem shutdownCount_soft (env : Env) (s : Sys) :
    shutdownCount env s = { drainLocked env s with shutdown := .waiting } ∨
      (shutdownCount env s = { drainLocked env s with shutdown := .counted } ∧
        ∀ i, ¬ ((drainLocked env s).jobs i).isRunning = true) := by
  rw [shutdownCount]
  split
  · exact Or.inl rfl
  · rename_i hnone
    refine Or.inr ⟨rfl, ?_⟩
    intro i hi
    exact hnone (List.any_eq_true.mpr ⟨i, List.mem_finRange i, hi⟩)

theorem TableInv.withShutdown {s : Sys} (h : TableInv s) (d : Shutdown) :
    TableInv { s with shutdown := d } := ⟨h.ids, h.idLt, h.path, h.nextLt, h.tenancy⟩

theorem TableInv.step {s s' : Sys} {a : Label} (h : TableInv s) (hk : StepKind s a s')
    (hapart : ∀ env worker req, a = .startClaim env worker req → ClaimApart env s) :
    TableInv s' := by
  cases hk with
  | claim env worker req => exact h.startClaim (hapart env worker req rfl) worker req
  | undo hst => exact h.startUndo hst
  | soft hs => exact h.soft hs
  | drained env hs => exact (h.drain env).soft hs
  | count env =>
    rcases shutdownCount_soft env s with heq | ⟨heq, _⟩ <;> rw [heq]
    · exact (h.drain env).withShutdown .waiting
    · exact (h.drain env).withShutdown .counted
  | free _ => exact ⟨h.ids, h.idLt, h.path, h.nextLt, h.tenancy⟩

/-! ## Ids below the wrap -/

/-- `g_next_id` counts the starts, and every record has the number of one of
them, as long as the counter has not wrapped. -/
structure RangeInv (s : Sys) : Prop where
  next : s.nextId = (s.begun + 1) % 2 ^ 32
  ids : s.begun < 2 ^ 32 - 1 → ∀ i, (s.jobs i).inUse = true →
    0 < (s.jobs i).id ∧ (s.jobs i).id ≤ s.begun

theorem init_rangeInv (files : Files) : RangeInv (init files) where
  next := by
    show 1 = (0 + 1) % 2 ^ 32
    decide
  ids := by
    intro _ i hi
    cases hi

theorem RangeInv.freshId {s : Sys} (h : RangeInv s) (hfew : s.begun < 2 ^ 32 - 1) : FreshId s := by
  intro k hk
  have hid := h.ids hfew k hk
  have hnext := h.next
  omega

theorem RangeInv.of_same {s s' : Sys} (h : RangeInv s)
    (hsame : ∀ i, (s'.jobs i).inUse = true → (s.jobs i).inUse = true ∧ (s'.jobs i).id = (s.jobs i).id)
    (hn : s'.nextId = s.nextId) (hb : s'.begun = s.begun) : RangeInv s' where
  next := by
    rw [hn, hb]
    exact h.next
  ids := by
    intro hfew i hi
    rw [hb] at hfew ⊢
    obtain ⟨huse, hid⟩ := hsame i hi
    rw [hid]
    exact h.ids hfew i huse

theorem RangeInv.drain {s : Sys} (h : RangeInv s) (env : Env) : RangeInv (drainLocked env s) := by
  refine h.of_same ?_ rfl rfl
  intro i hi
  have hsi := drainTable_sameJob env s.port s.jobs i
  exact ⟨hsi.inUse ▸ hi, hsi.id⟩

theorem RangeInv.soft {s s' : Sys} (h : RangeInv s) (hs : Soft s s') : RangeInv s' :=
  h.of_same (fun i hi => ⟨(hs.same i).inUse ▸ hi, (hs.same i).id⟩) hs.nextId hs.begun

theorem RangeInv.fillSlot {s : Sys} (h : RangeInv s) (env : Env) (worker : Nat)
    (req : StartRequest) (i : Slot) : RangeInv (fillSlot env worker req i s) where
  next := by
    have hnext := h.next
    simp only [Jobs.fillSlot]
    omega
  ids := by
    intro hfew k hk
    have hnext := h.next
    simp only [Jobs.fillSlot] at hfew hk ⊢
    by_cases hki : k = i
    · subst hki
      rw [Table.set_same]
      simp only [newJob]
      omega
    · rw [Table.set_other _ _ hki] at hk ⊢
      have hid := h.ids (by omega) k hk
      omega

theorem RangeInv.step {s s' : Sys} {a : Label} (h : RangeInv s) (hk : StepKind s a s') :
    RangeInv s' := by
  cases hk with
  | claim env worker req =>
    have hd := h.drain env
    rcases startClaim_cases env worker req s with ⟨i, _, _, heq⟩ | ⟨i, _, _, _, heq⟩ | ⟨_, heq⟩
    · rw [heq]
      exact hd.fillSlot env worker req i
    · rw [heq]
      refine RangeInv.fillSlot (hd.of_same ?_ ?_ ?_) env worker req i
      · intro k hk
        rw [evictOutput_jobs] at hk ⊢
        exact ⟨hk, rfl⟩
      · exact evictOutput_nextId i _
      · exact evictOutput_begun i _
    · rw [heq]
      exact hd
  | undo hst =>
    rename_i st
    refine h.of_same ?_ rfl rfl
    intro k hk
    simp only [startUndo] at hk ⊢
    by_cases hki : k = st.tenant.slot
    · subst hki
      rw [Table.set_same] at hk
      cases hk
    · rw [Table.set_other _ _ hki] at hk ⊢
      exact ⟨hk, rfl⟩
  | soft hs => exact h.soft hs
  | drained env hs => exact (h.drain env).soft hs
  | count env =>
    rcases shutdownCount_soft env s with heq | ⟨heq, _⟩ <;> rw [heq]
    · exact (h.drain env).of_same (fun _ hi => ⟨hi, rfl⟩) rfl rfl
    · exact (h.drain env).of_same (fun _ hi => ⟨hi, rfl⟩) rfl rfl
  | free _ => exact h.of_same (fun _ hi => ⟨hi, rfl⟩) rfl rfl

/-- The number of starts only grows. -/
theorem StepKind.begun_le {s s' : Sys} {a : Label} (hk : StepKind s a s') :
    s.begun ≤ s'.begun := by
  cases hk with
  | claim env worker req =>
    rcases startClaim_cases env worker req s with ⟨i, _, _, heq⟩ | ⟨i, _, _, _, heq⟩ | ⟨_, heq⟩
    · rw [heq]
      exact Nat.le_succ _
    · rw [heq]
      show s.begun ≤ (evictOutput i (drainLocked env s)).begun + 1
      rw [evictOutput_begun]
      exact Nat.le_succ _
    · rw [heq]
      exact Nat.le_refl _
  | undo _ => exact Nat.le_refl _
  | soft hs => exact Nat.le_of_eq hs.begun.symm
  | drained env hs => exact Nat.le_of_eq hs.begun.symm
  | count env => rcases shutdownCount_soft env s with heq | ⟨heq, _⟩ <;> rw [heq] <;> exact Nat.le_refl _
  | free _ => exact Nat.le_refl _

/-! ## Shutdown -/

/-- After the last count of `jobs_shutdown` nothing runs; after the free
nothing points into the table. -/
structure CountInv (s : Sys) : Prop where
  counted : s.shutdown = .counted → ∀ i, ¬ (s.jobs i).isRunning = true
  released : s.shutdown = .released → holders s = []

/-- No start enters the table once `jobs_shutdown` has counted no running job. -/
def StartsBeforeCount (s : Sys) : Label → Prop
  | .startClaim _ _ _ => s.shutdown ≠ .counted
  | _ => True

instance : ∀ (s : Sys) (a : Label), Decidable (StartsBeforeCount s a)
  | s, .startClaim _ _ _ => inferInstanceAs (Decidable (s.shutdown ≠ .counted))
  | _, .startOpened _ | _, .startOpenFailed _ | _, .startKicked _ | _, .startKickFailed _
  | _, .startUndo _ | _, .jobEntry _ _ | _, .childWrite _ _ | _, .childExit _ _ _ | _, .get _ _
  | _, .signal _ _ _ _ | _, .dropOutput _ | _, .list _ | _, .shutdownCount _
  | _, .shutdownFree => isTrue trivial

theorem init_countInv (files : Files) : CountInv (init files) where
  counted := by
    intro h
    cases h
  released := by
    intro h
    cases h

theorem isRunning_of_drain {env : Env} {s : Sys} {i : Slot}
    (h : ((drainLocked env s).jobs i).isRunning = true) : (s.jobs i).isRunning = true := by
  change (drainTable env s.jobs s.port i).isRunning = true at h
  rw [drainTable_apply] at h
  split at h
  · simp [Job.isRunning, markExited] at h
  · exact h

theorem startClaim_shutdown (env : Env) (worker : Nat) (req : StartRequest) (s : Sys) :
    (startClaim env worker req s).shutdown = s.shutdown := by
  rcases startClaim_cases env worker req s with ⟨i, _, _, heq⟩ | ⟨i, _, _, _, heq⟩ | ⟨_, heq⟩
  · rw [heq]
    rfl
  · rw [heq]
    show (evictOutput i (drainLocked env s)).shutdown = s.shutdown
    rw [evictOutput_shutdown]
    rfl
  · rw [heq]
    rfl

theorem CountInv.step {s s' : Sys} {a : Label} (h : CountInv s) (ht : TableInv s)
    (hr : s.shutdown ≠ .released) (hk : StepKind s a s') (hok : StartsBeforeCount s a) :
    CountInv s' := by
  have quiet : ∀ {t : Sys}, t.shutdown = s.shutdown →
      (∀ i, (t.jobs i).isRunning = true → (s.jobs i).isRunning = true) → CountInv t := by
    intro t hd hrun
    refine ⟨fun hc i hi => h.counted (hd ▸ hc) i (hrun i hi), fun hrel => absurd (hd ▸ hrel) hr⟩
  cases hk with
  | claim env worker req =>
    have hd := startClaim_shutdown env worker req s
    exact ⟨fun hc => absurd (hd ▸ hc) hok, fun hrel => absurd (hd ▸ hrel) hr⟩
  | undo hst =>
    rename_i st
    refine quiet rfl ?_
    intro i hi
    simp only [startUndo] at hi
    by_cases hii : i = st.tenant.slot
    · subst hii
      rw [Table.set_same] at hi
      cases hi
    · rw [Table.set_other _ _ hii] at hi
      exact hi
  | soft hs =>
    refine quiet hs.shutdown ?_
    intro i hi
    rw [Job.isRunning, (hs.same i).inUse, hs.state i] at hi
    exact hi
  | drained env hs =>
    refine quiet hs.shutdown ?_
    intro i hi
    rw [Job.isRunning, (hs.same i).inUse, hs.state i] at hi
    exact isRunning_of_drain hi
  | count env =>
    rcases shutdownCount_soft env s with heq | ⟨heq, hnone⟩ <;> rw [heq]
    · exact ⟨fun hc => (by cases hc), fun hrel => (by cases hrel)⟩
    · exact ⟨fun _ => hnone, fun hrel => (by cases hrel)⟩
  | free hc =>
    refine ⟨fun h' => (by cases h'), fun _ => ?_⟩
    have hnone := h.counted hc
    refine Tenancy.eq_nil (h := ht.tenancy) ?_
    intro t hocc
    exact hnone t.slot (by simp [Job.isRunning, hocc.1, hocc.2.2])

/-! ## Runs -/

/-- The three invariants together.  The first and the last hold as long as
the ids have not wrapped. -/
structure SafeInv (s : Sys) : Prop where
  range : RangeInv s
  table : s.begun < 2 ^ 32 - 1 → TableInv s
  count : s.begun < 2 ^ 32 - 1 → CountInv s

theorem init_safeInv (files : Files) : SafeInv (init files) :=
  ⟨init_rangeInv files, fun _ => init_tableInv files, fun _ => init_countInv files⟩

theorem SafeInv.step {s s' : Sys} {a : Label} (h : SafeInv s) (hok : StartsBeforeCount s a)
    (hstep : step s a = some s') : SafeInv s' := by
  obtain ⟨hr, hk⟩ := step_kind hstep
  have hle := hk.begun_le
  refine ⟨h.range.step hk, fun hfew => ?_, fun hfew => ?_⟩
  · have hfew' : s.begun < 2 ^ 32 - 1 := by omega
    exact (h.table hfew').step hk fun env _ _ _ => (h.range.freshId hfew').apart env
  · have hfew' : s.begun < 2 ^ 32 - 1 := by omega
    exact (h.count hfew').step (h.table hfew') hr hk hok

/-- What the job table promises. -/
structure TableSafe (s : Sys) : Prop where
  ids_ne_zero : ∀ i, (s.jobs i).inUse = true → (s.jobs i).id ≠ 0
  ids_distinct : ∀ i k, i ≠ k → (s.jobs i).inUse = true → (s.jobs k).inUse = true →
    (s.jobs i).id ≠ (s.jobs k).id
  paths_distinct : ∀ i k, i ≠ k → (s.jobs i).inUse = true → (s.jobs k).inUse = true →
    (s.jobs i).outPath ≠ (s.jobs k).outPath
  /-- A child that was started still has the running record of its own job. -/
  children_own : ∀ c ∈ s.children, Occupies s.jobs c
  /-- So has a death message in flight. -/
  deaths_own : ∀ m ∈ s.port, Occupies s.jobs m
  /-- A start that claims a record now, its drain done, takes no living child's. -/
  not_reused : ∀ env, ∀ c ∈ s.children,
    claimSlotLocked (drainLocked env s).jobs ≠ .free c.slot ∧
      claimSlotLocked (drainLocked env s).jobs ≠ .evict c.slot
  /-- The table is freed only when no child and no death message is left. -/
  freed : s.shutdown = .released → s.children = [] ∧ s.port = []

theorem SafeInv.safe {s : Sys} (h : SafeInv s) (hfew : s.begun < 2 ^ 32 - 1) : TableSafe s := by
  have ht := h.table hfew
  have hmem_child : ∀ c ∈ s.children, c ∈ holders s := fun c hc =>
    List.mem_append_left _ (List.mem_append_right _ hc)
  refine ⟨?_, ?_, ?_, ?_, ?_, ?_, ?_⟩
  · intro i hi
    have hid := h.range.ids hfew i hi
    omega
  · intro i k hik hi hk hid
    exact hik (ht.ids i k hi hk hid)
  · intro i k hik hi hk hpath
    rw [ht.path i hi, ht.path k hk] at hpath
    exact hik (ht.ids i k hi hk (outPathOf_injective (ht.idLt i hi) (ht.idLt k hk) hpath))
  · intro c hc
    exact ht.tenancy.holds c (hmem_child c hc)
  · intro m hm
    exact ht.tenancy.holds m (List.mem_append_right _ hm)
  · intro env c hc
    have hocc : Occupies (drainLocked env s).jobs c := by
      refine (ht.drain env).tenancy.holds c ?_
      exact List.mem_append_left _ (List.mem_append_right _ hc)
    refine ⟨fun hclaim => ?_, fun hclaim => ?_⟩
    · have hfree := claimSlotLocked_free hclaim
      rw [hocc.1] at hfree
      cases hfree
    · have hex := (claimSlotLocked_evict hclaim).2
      rw [hocc.2.2] at hex
      cases hex
  · intro hrel
    have hnil := (h.count hfew).released hrel
    simp only [holders, List.append_eq_nil_iff] at hnil
    exact ⟨hnil.1.2, hnil.2⟩

/-- In every run in which no start enters between the last count of
`jobs_shutdown` and the free, every state reached is safe. -/
theorem run_safe (files : Files) (as : List Label) (s : Sys)
    (hok : Along step StartsBeforeCount (init files) as)
    (hrun : run step (init files) as = some s) (hfew : s.begun < 2 ^ 32 - 1) : TableSafe s := by
  have hinv : SafeInv s :=
    run_invariant (fun _ _ _ h hok hstep => h.step hok hstep) (init_safeInv files) hok hrun
  exact hinv.safe hfew

/-- The clock and the free memory of the runs below. -/
def sampleEnv : Env := ⟨1000, ⟨1, 2, 3⟩⟩

def sampleRequest : StartRequest := ⟨"List".toList, 0, false⟩

/-- The first start of a run: job 1 in the first record. -/
def sampleTenant : Tenant := ⟨⟨0, jobSlots_pos⟩, 1⟩

/-- A job is started, ends, and is counted before the table is freed. -/
theorem run_safe_sample : ∃ s, run step (init fun _ => none)
      [.startClaim sampleEnv 0 sampleRequest, .startOpened ⟨0, .claimed, sampleTenant⟩,
        .startKicked ⟨0, .opened, sampleTenant⟩, .shutdownCount sampleEnv,
        .childExit sampleTenant 5 0, .shutdownCount sampleEnv, .shutdownFree] = some s ∧
    s.shutdown = .released ∧ TableSafe s :=
  ⟨_, rfl, rfl, run_safe (fun _ => none) [.startClaim sampleEnv 0 sampleRequest,
    .startOpened ⟨0, .claimed, sampleTenant⟩, .startKicked ⟨0, .opened, sampleTenant⟩,
    .shutdownCount sampleEnv, .childExit sampleTenant 5 0, .shutdownCount sampleEnv,
    .shutdownFree] _ (by decide) rfl (by decide)⟩

/-- The race that the code leaves open.  `jobs_shutdown` counts no running job
and leaves the semaphore; a worker starts a job; the table is freed under the
child, whose death message will be written into it. -/
theorem shutdown_race : ∃ as s, run step (init fun _ => none) as = some s ∧
    s.begun < 2 ^ 32 - 1 ∧ ¬ TableSafe s := by
  refine ⟨[.shutdownCount sampleEnv, .startClaim sampleEnv 0 sampleRequest,
    .startOpened ⟨0, .claimed, sampleTenant⟩, .startKicked ⟨0, .opened, sampleTenant⟩,
    .shutdownFree], _, rfl, by decide, ?_⟩
  intro hsafe
  have hnone := (hsafe.freed rfl).1
  revert hnone
  decide

end AmigaFleet.Mcpd.Jobs

import AmigaFleet.Mcpd.Exec
import AmigaFleet.Mcpd.JobSafety

/-!
# Records and output files

`TableInv` of `AmigaFleet.Mcpd.JobSafety` says who holds which record of the
job table.  `Record` adds, for each record in use, how the output file and the
end of its job show in it: what file the child of a start inherits, and what a
death message and an ended job leave behind.

`Record` depends on one slot.  `Record.untouched` is the frame rule: a step
that moves at another slot keeps it.  For the slot at which a step moves there
is one introduction rule for each kind of holder, `Record.of_start`,
`Record.of_child`, `Record.of_message` and `Record.of_ended`.  `Outputs` is
the invariant of all records, with one lemma for each section.
-/

namespace AmigaFleet.Mcpd.Exec

open AmigaFleet.Lib AmigaFleet.Mcpd.Jobs

variable {n : Nat}

/-! ## Who holds a record -/

theorem start_mem_holders {t : Jobs.Sys} {st : Start} (h : st ∈ t.starts) :
    st.tenant ∈ holders t :=
  List.mem_append_left _ (List.mem_append_left _ (List.mem_map_of_mem h))

theorem child_mem_holders {t : Jobs.Sys} {c : Tenant} (h : c ∈ t.children) : c ∈ holders t :=
  List.mem_append_left _ (List.mem_append_right _ h)

theorem port_mem_holders {t : Jobs.Sys} {m : Tenant} (h : m ∈ t.port) : m ∈ holders t :=
  List.mem_append_right _ h

theorem start_unique {t : Jobs.Sys} (h : TableInv t) {st st' : Start} (hst : st ∈ t.starts)
    (hst' : st' ∈ t.starts) (hslot : st'.tenant.slot = st.tenant.slot) : st' = st := by
  have hn := (h.tenancy.sublist (List.sublist_append_left ..)).nodup
  rw [List.map_append, List.map_map] at hn
  exact List.inj_on_of_nodup_map (List.nodup_append.mp hn).1 hst' hst hslot

theorem start_not_child {t : Jobs.Sys} (h : TableInv t) {st : Start} {c : Tenant}
    (hst : st ∈ t.starts) (hc : c ∈ t.children) : st.tenant.slot ≠ c.slot :=
  (h.tenancy.sublist (List.sublist_append_left ..)).ne_of_append (List.mem_map_of_mem hst) hc

theorem start_not_port {t : Jobs.Sys} (h : TableInv t) {st : Start} {m : Tenant}
    (hst : st ∈ t.starts) (hm : m ∈ t.port) : st.tenant.slot ≠ m.slot :=
  h.tenancy.ne_of_append (List.mem_append_left _ (List.mem_map_of_mem hst)) hm

theorem child_not_port {t : Jobs.Sys} (h : TableInv t) {c m : Tenant} (hc : c ∈ t.children)
    (hm : m ∈ t.port) : c.slot ≠ m.slot :=
  h.tenancy.ne_of_append (List.mem_append_right _ hc) hm

theorem path_ne {t : Jobs.Sys} (h : TableInv t) {i k : Slot} (hi : (t.jobs i).inUse = true)
    (hk : (t.jobs k).inUse = true) (hne : i ≠ k) :
    outPathOf (t.jobs i).id ≠ outPathOf (t.jobs k).id := by
  intro hpath
  exact hne (h.ids i k hi hk (outPathOf_injective (h.idLt i hi) (h.idLt k hk) hpath))

/-! ## One record -/

/-- The output file holds exactly what the job has written. -/
def Kept (s : Sys n) (id : Nat) : Prop := s.table.files (outPathOf id) = some (s.wrote id)

/-- How the job ended, as its record has it. -/
def deathOf (j : Job) : Death := ⟨j.returnCode, j.result2⟩

/-- How the output file and the end of a job show in its record. -/
structure Record (s : Sys n) (i : Slot) : Prop where
  state : (s.table.jobs i).state = .running ∨ (s.table.jobs i).state = .exited
  held : (s.table.jobs i).state = .running → ∃ t ∈ holders s.table, t.slot = i
  kept : (s.table.jobs i).state = .running → (s.table.jobs i).outputDeleted = false
  starting : ∀ st ∈ s.table.starts, st.tenant.slot = i →
    s.wrote (s.table.jobs i).id = [] ∧ s.death (s.table.jobs i).id = none ∧
      (st.phase = .opened → Kept s (s.table.jobs i).id)
  child : ∀ c ∈ s.table.children, c.slot = i →
    s.death (s.table.jobs i).id = none ∧ Kept s (s.table.jobs i).id
  message : ∀ m ∈ s.table.port, m.slot = i →
    s.death (s.table.jobs i).id = some (deathOf (s.table.jobs i)) ∧ Kept s (s.table.jobs i).id
  ended : (s.table.jobs i).state = .exited →
    s.death (s.table.jobs i).id = some (deathOf (s.table.jobs i)) ∧
      ((s.table.jobs i).outputDeleted = false → Kept s (s.table.jobs i).id)

/-- The fields of a record that `Record` speaks about. -/
structure SameView (a b : Job) : Prop where
  inUse : a.inUse = b.inUse
  id : a.id = b.id
  state : a.state = b.state
  death : deathOf a = deathOf b
  outputDeleted : a.outputDeleted = b.outputDeleted

theorem SameView.refl (a : Job) : SameView a a := ⟨rfl, rfl, rfl, rfl, rfl⟩

theorem SameView.set (jobs : Table) (i k : Slot) {j : Job} (h : SameView j (jobs i)) :
    SameView (jobs.set i j k) (jobs k) := by
  by_cases hk : k = i
  · subst hk
    rw [Table.set_same]
    exact h
  · rw [Table.set_other _ _ hk]
    exact SameView.refl _

theorem SameView.set_other (jobs : Table) {i k : Slot} (j : Job) (h : k ≠ i) :
    SameView (jobs.set i j k) (jobs k) := by
  rw [Table.set_other _ _ h]
  exact SameView.refl _

/-- A step does not move at slot `i`. -/
structure Untouched (s s' : Sys n) (i : Slot) : Prop where
  view : SameView (s'.table.jobs i) (s.table.jobs i)
  starts : ∀ st : Start, st.tenant.slot = i → (st ∈ s'.table.starts ↔ st ∈ s.table.starts)
  children : ∀ c : Tenant, c.slot = i → (c ∈ s'.table.children ↔ c ∈ s.table.children)
  port : ∀ m : Tenant, m.slot = i → (m ∈ s'.table.port ↔ m ∈ s.table.port)
  file : s'.table.files (outPathOf (s.table.jobs i).id) =
    s.table.files (outPathOf (s.table.jobs i).id)
  wrote : s'.wrote (s.table.jobs i).id = s.wrote (s.table.jobs i).id
  death : s'.death (s.table.jobs i).id = s.death (s.table.jobs i).id

theorem Untouched.kept {s s' : Sys n} {i : Slot} (h : Untouched s s' i) :
    Kept s' (s.table.jobs i).id ↔ Kept s (s.table.jobs i).id := by
  rw [Kept, Kept, h.file, h.wrote]

theorem Untouched.holder {s s' : Sys n} {i : Slot} (h : Untouched s s' i)
    (hheld : ∃ t ∈ holders s.table, t.slot = i) : ∃ t ∈ holders s'.table, t.slot = i := by
  obtain ⟨t, ht, hti⟩ := hheld
  refine ⟨t, ?_, hti⟩
  rcases List.mem_append.mp ht with ht | ht
  · rcases List.mem_append.mp ht with ht | ht
    · obtain ⟨st, hst, rfl⟩ := List.mem_map.mp ht
      exact start_mem_holders ((h.starts st hti).mpr hst)
    · exact child_mem_holders ((h.children t hti).mpr ht)
  · exact port_mem_holders ((h.port t hti).mpr ht)

/-- The frame rule. -/
theorem Record.untouched {s s' : Sys n} {i : Slot} (h : Record s i) (hu : Untouched s s' i) :
    Record s' i where
  state := by
    rw [hu.view.state]
    exact h.state
  held := by
    intro hrun
    rw [hu.view.state] at hrun
    exact hu.holder (h.held hrun)
  kept := by
    intro hrun
    rw [hu.view.state] at hrun
    rw [hu.view.outputDeleted]
    exact h.kept hrun
  starting := by
    intro st hst hslot
    rw [hu.view.id, hu.wrote, hu.death, hu.kept]
    exact h.starting st ((hu.starts st hslot).mp hst) hslot
  child := by
    intro c hc hslot
    rw [hu.view.id, hu.death, hu.kept]
    exact h.child c ((hu.children c hslot).mp hc) hslot
  message := by
    intro m hm hslot
    rw [hu.view.id, hu.view.death, hu.death, hu.kept]
    exact h.message m ((hu.port m hslot).mp hm) hslot
  ended := by
    intro hex
    rw [hu.view.state] at hex
    rw [hu.view.id, hu.view.death, hu.view.outputDeleted, hu.death, hu.kept]
    exact h.ended hex

/-! ### The record that a step moves at -/

theorem running_not_exited {s : Sys n} {t : Tenant} (hocc : Occupies s.table.jobs t) {P : Prop}
    (hex : (s.table.jobs t.slot).state = .exited) : P := by
  rw [hocc.2.2] at hex
  cases hex

/-- A record held by a start. -/
theorem Record.of_start {s : Sys n} (ht : TableInv s.table) {t : Start}
    (hst : t ∈ s.table.starts) (hdel : (s.table.jobs t.tenant.slot).outputDeleted = false)
    (hwrote : s.wrote t.tenant.id = []) (hdeath : s.death t.tenant.id = none)
    (hopen : t.phase = .opened → Kept s t.tenant.id) : Record s t.tenant.slot := by
  have hocc := ht.tenancy.holds _ (start_mem_holders hst)
  have hid := hocc.2.1
  rw [← hid] at hwrote hdeath hopen
  refine ⟨Or.inl hocc.2.2, fun _ => ⟨_, start_mem_holders hst, rfl⟩, fun _ => hdel, ?_, ?_, ?_,
    running_not_exited hocc⟩
  · intro st' hst' hslot
    rw [start_unique ht hst hst' hslot]
    exact ⟨hwrote, hdeath, hopen⟩
  · intro c hc hslot
    exact absurd hslot.symm (start_not_child ht hst hc)
  · intro m hm hslot
    exact absurd hslot.symm (start_not_port ht hst hm)

/-- A record held by a living child. -/
theorem Record.of_child {s : Sys n} (ht : TableInv s.table) {c : Tenant}
    (hc : c ∈ s.table.children) (hdel : (s.table.jobs c.slot).outputDeleted = false)
    (hdeath : s.death c.id = none) (hkept : Kept s c.id) : Record s c.slot := by
  have hocc := ht.tenancy.holds _ (child_mem_holders hc)
  have hid := hocc.2.1
  rw [← hid] at hdeath hkept
  refine ⟨Or.inl hocc.2.2, fun _ => ⟨_, child_mem_holders hc, rfl⟩, fun _ => hdel, ?_,
    fun _ _ _ => ⟨hdeath, hkept⟩, ?_, running_not_exited hocc⟩
  · intro st hst hslot
    exact absurd hslot (start_not_child ht hst hc)
  · intro m hm hslot
    exact absurd hslot.symm (child_not_port ht hc hm)

/-- A record held by a death message. -/
theorem Record.of_message {s : Sys n} (ht : TableInv s.table) {m : Tenant}
    (hm : m ∈ s.table.port) (hdel : (s.table.jobs m.slot).outputDeleted = false)
    (hdeath : s.death m.id = some (deathOf (s.table.jobs m.slot))) (hkept : Kept s m.id) :
    Record s m.slot := by
  have hocc := ht.tenancy.holds _ (port_mem_holders hm)
  have hid := hocc.2.1
  rw [← hid] at hdeath hkept
  refine ⟨Or.inl hocc.2.2, fun _ => ⟨_, port_mem_holders hm, rfl⟩, fun _ => hdel, ?_, ?_,
    fun _ _ _ => ⟨hdeath, hkept⟩, running_not_exited hocc⟩
  · intro st hst hslot
    exact absurd hslot (start_not_port ht hst hm)
  · intro c hc hslot
    exact absurd hslot (child_not_port ht hc hm)

/-- A record whose job has ended. -/
theorem Record.of_ended {s : Sys n} (ht : TableInv s.table) {i : Slot}
    (hex : (s.table.jobs i).state = .exited)
    (hdeath : s.death (s.table.jobs i).id = some (deathOf (s.table.jobs i)))
    (hkept : (s.table.jobs i).outputDeleted = false → Kept s (s.table.jobs i).id) :
    Record s i := by
  have hnone : ∀ t ∈ holders s.table, t.slot ≠ i := by
    intro t hmem hslot
    subst hslot
    exact running_not_exited (ht.tenancy.holds t hmem) hex
  have hrun : (s.table.jobs i).state = .running → False := by
    intro hrun
    rw [hrun] at hex
    cases hex
  refine ⟨Or.inr hex, fun h => (hrun h).elim, fun h => (hrun h).elim, ?_, ?_, ?_,
    fun _ => ⟨hdeath, hkept⟩⟩
  · intro st hst hslot
    exact absurd hslot (hnone _ (start_mem_holders hst))
  · intro c hc hslot
    exact absurd hslot (hnone _ (child_mem_holders hc))
  · intro m hm hslot
    exact absurd hslot (hnone _ (port_mem_holders hm))

/-! ## All records -/

structure Outputs (s : Sys n) : Prop where
  table : TableInv s.table
  records : ∀ i, (s.table.jobs i).inUse = true → Record s i

/-- A step that moves at slot `k` only. -/
theorem Outputs.move {s s' : Sys n} {k : Slot} (h : Outputs s) (ht : TableInv s'.table)
    (hview : ∀ i, i ≠ k → SameView (s'.table.jobs i) (s.table.jobs i))
    (hoff : ∀ i, i ≠ k → (s.table.jobs i).inUse = true → Untouched s s' i)
    (hk : (s'.table.jobs k).inUse = true → Record s' k) : Outputs s' where
  table := ht
  records := by
    intro i hi
    by_cases hik : i = k
    · subst hik
      exact hk hi
    · rw [(hview i hik).inUse] at hi
      exact (h.records i hi).untouched (hoff i hik hi)

/-- A step that moves at no slot. -/
theorem Outputs.still {s s' : Sys n} (h : Outputs s) (ht : TableInv s'.table)
    (hu : ∀ i, Untouched s s' i) : Outputs s' where
  table := ht
  records := by
    intro i hi
    rw [(hu i).view.inUse] at hi
    exact (h.records i hi).untouched (hu i)

/-- The table of `s` after a drain. -/
def Sys.drained (env : Env) (s : Sys n) : Sys n := { s with table := drainLocked env s.table }

theorem drained_off {e : Env} {s : Sys n} {i : Slot}
    (hi : i ∉ s.table.port.map Tenant.slot) : (s.drained e).table.jobs i = s.table.jobs i := by
  show drainTable e s.table.jobs s.table.port i = s.table.jobs i
  rw [drainTable_apply, if_neg hi]

theorem drained_on {e : Env} {s : Sys n} {i : Slot} (hi : i ∈ s.table.port.map Tenant.slot) :
    (s.drained e).table.jobs i = markExited e (s.table.jobs i) := by
  show drainTable e s.table.jobs s.table.port i = markExited e (s.table.jobs i)
  rw [drainTable_apply, if_pos hi]

/-- A drain turns the records with a message into ended ones. -/
theorem Outputs.drain {s : Sys n} (h : Outputs s) (env : Env) : Outputs (s.drained env) where
  table := h.table.drain env
  records := by
    intro i hi
    by_cases hport : i ∈ s.table.port.map Tenant.slot
    · obtain ⟨m, hm, hmi⟩ := List.mem_map.mp hport
      have hjob := drained_on (e := env) hport
      rw [hjob] at hi
      have hrec := h.records i hi
      obtain ⟨hdeath, hkept⟩ := hrec.message m hm hmi
      refine Record.of_ended (h.table.drain env) ?_ ?_ ?_
      · rw [hjob]
        rfl
      · rw [hjob]
        exact hdeath
      · intro _
        rw [hjob]
        exact hkept
    · have hjob := drained_off (e := env) hport
      rw [hjob] at hi
      refine (h.records i hi).untouched ?_
      refine ⟨by rw [hjob]; exact SameView.refl _, fun _ _ => Iff.rfl, fun _ _ => Iff.rfl, ?_,
        rfl, rfl, rfl⟩
      intro m hmi
      have hnot : m ∉ s.table.port := fun hm => hport (hmi ▸ List.mem_map_of_mem hm)
      exact ⟨fun hm => (by cases hm), fun hm => absurd hm hnot⟩

/-! ### Starts -/

theorem mem_startTo {t : Jobs.Sys} {st st' : Start} {phase : StartPhase}
    (hne : st'.tenant.slot ≠ st.tenant.slot) :
    st' ∈ (t.startTo st phase).starts ↔ st' ∈ t.starts := by
  have hst : st' ≠ st := fun heq => hne (by rw [heq])
  have hph : st' ≠ { st with phase := phase } := fun heq => hne (by rw [heq])
  show st' ∈ _ :: t.starts.erase st ↔ st' ∈ t.starts
  rw [List.mem_cons, List.mem_erase_of_ne hst]
  exact ⟨fun h => h.resolve_left hph, Or.inr⟩

/-- The path of a record in use, off the record that `t` holds. -/
theorem off_path {s : Sys n} (h : TableInv s.table) {t : Tenant} (hocc : Occupies s.table.jobs t)
    {i : Slot} (hi : (s.table.jobs i).inUse = true) (hne : i ≠ t.slot) :
    outPathOf (s.table.jobs i).id ≠ (s.table.jobs t.slot).outPath := by
  rw [h.path t.slot hocc.1]
  exact path_ne h hi hocc.1 hne

theorem off_id {s : Sys n} (h : TableInv s.table) {t : Tenant} (hocc : Occupies s.table.jobs t)
    {i : Slot} (hi : (s.table.jobs i).inUse = true) (hne : i ≠ t.slot) :
    (s.table.jobs i).id ≠ t.id := by
  intro hid
  exact hne (h.ids i t.slot hi hocc.1 (hid.trans hocc.2.1.symm))

/-- What the record of a start shows. -/
theorem Outputs.at_start {s : Sys n} (h : Outputs s) {st : Start} (hst : st ∈ s.table.starts) :
    Occupies s.table.jobs st.tenant ∧ (s.table.jobs st.tenant.slot).outputDeleted = false ∧
      s.wrote st.tenant.id = [] ∧ s.death st.tenant.id = none ∧
      (st.phase = .opened → Kept s st.tenant.id) := by
  have hocc := h.table.tenancy.holds _ (start_mem_holders hst)
  have hrec := h.records _ hocc.1
  have hfacts := hrec.starting st hst rfl
  rw [hocc.2.1] at hfacts
  exact ⟨hocc, hrec.kept hocc.2.2, hfacts⟩

theorem Outputs.startOpened {s : Sys n} (h : Outputs s) {st : Start} (hst : st ∈ s.table.starts) :
    Outputs { s with table := startOpened st s.table } := by
  obtain ⟨hocc, hdel, hwrote, hdeath, _⟩ := h.at_start hst
  have ht : TableInv (Jobs.startOpened st s.table) := h.table.soft (startOpened_soft hst)
  refine h.move (k := st.tenant.slot) ht (fun i _ => SameView.refl _) ?_ ?_
  · intro i hik hi
    refine ⟨SameView.refl _, ?_, fun _ _ => Iff.rfl, fun _ _ => Iff.rfl, ?_, rfl, rfl⟩
    · intro st' hst'
      exact mem_startTo (by rw [hst']; exact hik)
    · exact Function.update_of_ne (off_path h.table hocc hi hik) _ _
  · intro _
    refine Record.of_start (t := { st with phase := .opened }) ht (List.mem_cons_self ..) hdel
      hwrote hdeath ?_
    intro _
    show Function.update s.table.files _ (some []) (outPathOf st.tenant.id) = some (s.wrote st.tenant.id)
    rw [h.table.path _ hocc.1, hocc.2.1, Function.update_self, hwrote]

theorem Outputs.startOpenFailed {s : Sys n} (h : Outputs s) {st : Start}
    (hst : st ∈ s.table.starts) : Outputs { s with table := startOpenFailed st s.table } := by
  obtain ⟨hocc, hdel, hwrote, hdeath, _⟩ := h.at_start hst
  have ht : TableInv (Jobs.startOpenFailed st s.table) := h.table.soft (startOpenFailed_soft hst)
  refine h.move (k := st.tenant.slot) ht (fun i _ => SameView.refl _) ?_ ?_
  · intro i hik hi
    refine ⟨SameView.refl _, ?_, fun _ _ => Iff.rfl, fun _ _ => Iff.rfl, ?_, rfl, rfl⟩
    · intro st' hst'
      exact mem_startTo (by rw [hst']; exact hik)
    · exact Function.update_of_ne (off_path h.table hocc hi hik) _ _
  · intro _
    refine Record.of_start (t := { st with phase := .failing }) ht (List.mem_cons_self ..) hdel
      hwrote hdeath ?_
    intro hopen
    cases hopen

/-- The child takes over from the start that opened its output file. -/
theorem Outputs.startKicked {s : Sys n} (h : Outputs s) {st : Start} (hst : st ∈ s.table.starts)
    (hopen : st.phase = .opened) : Outputs { s with table := startKicked st s.table } := by
  obtain ⟨_, hdel, _, hdeath, hkept⟩ := h.at_start hst
  have ht : TableInv (Jobs.startKicked st s.table) := h.table.soft (startKicked_soft hst)
  refine h.move (k := st.tenant.slot) ht (fun i _ => SameView.refl _) ?_ ?_
  · intro i hik hi
    refine ⟨SameView.refl _, ?_, ?_, fun _ _ => Iff.rfl, rfl, rfl, rfl⟩
    · intro st' hst'
      exact List.mem_erase_of_ne fun heq => hik (by rw [← hst', heq])
    · intro c hc
      show c ∈ st.tenant :: s.table.children ↔ c ∈ s.table.children
      rw [List.mem_cons]
      exact ⟨fun hmem => hmem.resolve_left fun heq => hik (by rw [← hc, heq]), Or.inr⟩
  · intro _
    exact Record.of_child ht (List.mem_cons_self ..) hdel hdeath (hkept hopen)

/-- A failure exit gives its record back. -/
theorem Outputs.startUndo {s : Sys n} (h : Outputs s) {st : Start} (hst : st ∈ s.table.starts) :
    Outputs { s with table := startUndo st s.table } := by
  have hview : ∀ i, i ≠ st.tenant.slot →
      SameView ((Jobs.startUndo st s.table).jobs i) (s.table.jobs i) := by
    intro i hik
    exact SameView.set_other _ _ hik
  refine h.move (k := st.tenant.slot) (h.table.startUndo hst) hview ?_ ?_
  · intro i hik hi
    refine ⟨hview i hik, ?_, fun _ _ => Iff.rfl, fun _ _ => Iff.rfl, rfl, rfl, rfl⟩
    intro st' hst'
    exact List.mem_erase_of_ne fun heq => hik (by rw [← hst', heq])
  · intro huse
    have hfree : ((Jobs.startUndo st s.table).jobs st.tenant.slot).inUse = false := by
      show (s.table.jobs.set st.tenant.slot _ st.tenant.slot).inUse = false
      rw [Table.set_same]
    rw [hfree] at huse
    cases huse

/-! ### Children -/

/-- What the record of a living child shows. -/
theorem Outputs.at_child {s : Sys n} (h : Outputs s) {c : Tenant} (hc : c ∈ s.table.children) :
    Occupies s.table.jobs c ∧ (s.table.jobs c.slot).outputDeleted = false ∧
      s.death c.id = none ∧ Kept s c.id := by
  have hocc := h.table.tenancy.holds _ (child_mem_holders hc)
  have hrec := h.records _ hocc.1
  have hfacts := hrec.child c hc rfl
  rw [hocc.2.1] at hfacts
  exact ⟨hocc, hrec.kept hocc.2.2, hfacts.1, hfacts.2⟩

theorem Outputs.jobEntry {s : Sys n} (h : Outputs s) (c : Tenant) (pid : Nat) :
    Outputs { s with table := jobEntry c pid s.table } := by
  refine h.still (h.table.soft (jobEntry_soft s.table c pid)) fun i => ?_
  exact ⟨SameView.set _ c.slot i ⟨rfl, rfl, rfl, rfl, rfl⟩, fun _ _ => Iff.rfl, fun _ _ => Iff.rfl,
    fun _ _ => Iff.rfl, rfl, rfl, rfl⟩

theorem Outputs.childWrite {s : Sys n} (h : Outputs s) {c : Tenant} (hc : c ∈ s.table.children)
    (bytes : Bytes) :
    Outputs (s.onTable (.childWrite c bytes) (childWrite c bytes s.table)) := by
  obtain ⟨hocc, hdel, hdeath, hkept⟩ := h.at_child hc
  have ht : TableInv (Jobs.childWrite c bytes s.table) :=
    h.table.soft (childWrite_soft s.table c bytes)
  have htable : Jobs.childWrite c bytes s.table =
      { s.table with
        files := Function.update s.table.files (outPathOf c.id) (some (s.wrote c.id ++ bytes)) } := by
    rw [Jobs.childWrite, hkept]
  rw [htable] at ht ⊢
  refine h.move (k := c.slot) ht (fun i _ => SameView.refl _) ?_ ?_
  · intro i hik hi
    have hid := off_id h.table hocc hi hik
    have hpath := off_path h.table hocc hi hik
    rw [h.table.path _ hocc.1, hocc.2.1] at hpath
    exact ⟨SameView.refl _, fun _ _ => Iff.rfl, fun _ _ => Iff.rfl, fun _ _ => Iff.rfl,
      Function.update_of_ne hpath _ _, Function.update_of_ne hid _ _, rfl⟩
  · intro _
    have hwrote : Function.update s.wrote c.id (s.wrote c.id ++ bytes) c.id = s.wrote c.id ++ bytes :=
      Function.update_self ..
    refine Record.of_child ht hc hdel hdeath ?_
    show Function.update s.table.files _ _ (outPathOf c.id) = some (Function.update s.wrote _ _ c.id)
    rw [hwrote, Function.update_self]

/-- The death message takes over from the child. -/
theorem Outputs.childExit {s : Sys n} (h : Outputs s) {c : Tenant} (hc : c ∈ s.table.children)
    (rc result2 : Int) :
    Outputs (s.onTable (.childExit c rc result2) (childExit c rc result2 s.table)) := by
  obtain ⟨hocc, hdel, _, hkept⟩ := h.at_child hc
  have ht : TableInv (Jobs.childExit c rc result2 s.table) :=
    h.table.soft (childExit_soft hc rc result2)
  have hview : ∀ i, i ≠ c.slot →
      SameView ((Jobs.childExit c rc result2 s.table).jobs i) (s.table.jobs i) := by
    intro i hik
    exact SameView.set_other _ _ hik
  have hself : (Jobs.childExit c rc result2 s.table).jobs c.slot =
      { s.table.jobs c.slot with returnCode := rc, result2 := result2 } := Table.set_same ..
  refine h.move (k := c.slot) ht hview ?_ ?_
  · intro i hik hi
    have hid := off_id h.table hocc hi hik
    refine ⟨hview i hik, fun _ _ => Iff.rfl, ?_, ?_, rfl, rfl, Function.update_of_ne hid _ _⟩
    · intro d hd
      exact List.mem_erase_of_ne fun heq => hik (by rw [← hd, heq])
    · intro m hm
      show m ∈ s.table.port ++ [c] ↔ m ∈ s.table.port
      rw [List.mem_append, List.mem_singleton]
      exact ⟨fun hmem => hmem.resolve_right fun heq => hik (by rw [← hm, heq]), Or.inl⟩
  · intro _
    refine Record.of_message ht (List.mem_append_right _ (List.mem_singleton.mpr rfl)) ?_ ?_ hkept
    · show ((Jobs.childExit c rc result2 s.table).jobs c.slot).outputDeleted = false
      rw [hself]
      exact hdel
    · show Function.update s.death c.id _ c.id =
        some (deathOf ((Jobs.childExit c rc result2 s.table).jobs c.slot))
      rw [hself, Function.update_self]
      rfl

/-! ### The other sections -/

theorem Outputs.withCalls {s : Sys n} (h : Outputs s) (calls : Fin n → Call) :
    Outputs { s with calls := calls } :=
  h.still h.table fun _ => ⟨SameView.refl _, fun _ _ => Iff.rfl, fun _ _ => Iff.rfl,
    fun _ _ => Iff.rfl, rfl, rfl, rfl⟩

/-- `jobs_signal` drains, and at most notes the signal in one record. -/
theorem jobsSignal_cases (env : Env) (id sigmask : Nat) (found : Bool) (t : Jobs.Sys) :
    (jobsSignal env id sigmask found t).1 = drainLocked env t ∨
    ∃ i j, SameView j ((drainLocked env t).jobs i) ∧
      (jobsSignal env id sigmask found t).1 =
        { drainLocked env t with jobs := (drainLocked env t).jobs.set i j } := by
  rw [jobsSignal]
  dsimp only
  split
  · exact Or.inl rfl
  · split
    · rename_i i _ _
      let m := ((drainLocked env t).jobs i).signalsSent ||| sigmask
      exact Or.inr ⟨i, { (drainLocked env t).jobs i with signalsSent := m },
        ⟨rfl, rfl, rfl, rfl, rfl⟩, rfl⟩
    · exact Or.inl rfl

theorem Outputs.jobsSignal {s : Sys n} (h : Outputs s) (env : Env) (id sigmask : Nat)
    (found : Bool) : Outputs { s with table := (jobsSignal env id sigmask found s.table).1 } := by
  have hd := h.drain env
  have ht : TableInv (Jobs.jobsSignal env id sigmask found s.table).1 :=
    hd.table.soft (jobsSignal_soft s.table env id sigmask found)
  rcases jobsSignal_cases env id sigmask found s.table with heq | ⟨i, j, hj, heq⟩
  · rw [heq]
    exact hd
  · rw [heq] at ht ⊢
    refine hd.still ht fun k => ?_
    exact ⟨SameView.set _ i k hj, fun _ _ => Iff.rfl, fun _ _ => Iff.rfl, fun _ _ => Iff.rfl,
      rfl, rfl, rfl⟩

theorem findLocked_some {jobs : Table} {id : Nat} {i : Slot} (h : findLocked jobs id = some i) :
    (jobs i).inUse = true ∧ (jobs i).id = id := by
  have hp := List.find?_some h
  simpa using hp

/-- A job whose record is in use is found there. -/
theorem findLocked_of_inUse {t : Jobs.Sys} (h : TableInv t) {i : Slot}
    (hi : (t.jobs i).inUse = true) : findLocked t.jobs (t.jobs i).id = some i := by
  cases hf : findLocked t.jobs (t.jobs i).id with
  | none =>
    have hno := List.find?_eq_none.mp hf i (List.mem_finRange i)
    simp [hi] at hno
  | some k =>
    obtain ⟨hk, hid⟩ := findLocked_some hf
    rw [h.ids k i hk hi hid]

theorem Outputs.jobsDropOutput {s : Sys n} (h : Outputs s) (id : Nat) :
    Outputs { s with table := jobsDropOutput id s.table } := by
  have ht : TableInv (Jobs.jobsDropOutput id s.table) := h.table.soft (jobsDropOutput_soft s.table id)
  rw [Jobs.jobsDropOutput] at ht ⊢
  split at ht
  · exact h
  · rename_i i hfind
    obtain ⟨huse, _⟩ := findLocked_some hfind
    split at ht
    · rename_i hcond
      rw [if_pos hcond]
      have hrec := h.records i huse
      have hview : ∀ k, k ≠ i → SameView (s.table.jobs.set i
          { s.table.jobs i with outputDeleted := true } k) (s.table.jobs k) :=
        fun k hk => SameView.set_other _ _ hk
      refine h.move (k := i) ht hview ?_ ?_
      · intro k hki hk
        have hpath := path_ne h.table hk huse hki
        rw [← h.table.path i huse] at hpath
        exact ⟨hview k hki, fun _ _ => Iff.rfl, fun _ _ => Iff.rfl, fun _ _ => Iff.rfl,
          Function.update_of_ne hpath _ _, rfl, rfl⟩
      · intro _
        have hself : s.table.jobs.set i { s.table.jobs i with outputDeleted := true } i =
            { s.table.jobs i with outputDeleted := true } := Table.set_same ..
        refine Record.of_ended ht ?_ ?_ ?_
        · show (s.table.jobs.set i _ i).state = .exited
          rw [hself]
          exact hcond.2
        · show s.death (s.table.jobs.set i _ i).id = some (deathOf (s.table.jobs.set i _ i))
          rw [hself]
          exact (hrec.ended hcond.2).1
        · intro hdel
          change (s.table.jobs.set i _ i).outputDeleted = false at hdel
          rw [hself] at hdel
          cases hdel
    · rename_i hcond
      rw [if_neg hcond]
      exact h

/-- A start fills a record.  The output file of the job that was there may be
gone already. -/
theorem Outputs.fillSlot {s : Sys n} (h : Outputs s) (env : Env) (worker : Nat)
    (req : StartRequest) {i : Slot} {files : Files}
    (ht : TableInv (fillSlot env worker req i { s.table with files := files }))
    (hfresh : FreshId s.table)
    (hfiles : ∀ k, k ≠ i → (s.table.jobs k).inUse = true →
      files (outPathOf (s.table.jobs k).id) = s.table.files (outPathOf (s.table.jobs k).id)) :
    Outputs
      { s with
        table := fillSlot env worker req i { s.table with files := files }
        wrote := Function.update s.wrote s.table.nextId []
        death := Function.update s.death s.table.nextId none } := by
  have hview : ∀ k, k ≠ i →
      SameView (s.table.jobs.set i (newJob env s.table.nextId req) k) (s.table.jobs k) :=
    fun k hk => SameView.set_other _ _ hk
  refine h.move (k := i) ht hview ?_ ?_
  · intro k hki hk
    have hid := hfresh k hk
    refine ⟨hview k hki, ?_, fun _ _ => Iff.rfl, fun _ _ => Iff.rfl, hfiles k hki hk,
      Function.update_of_ne hid _ _, Function.update_of_ne hid _ _⟩
    intro st hst
    show st ∈ _ :: s.table.starts ↔ st ∈ s.table.starts
    rw [List.mem_cons]
    exact ⟨fun hmem => hmem.resolve_left fun heq => hki (by rw [← hst, heq]), Or.inr⟩
  · intro _
    have hself : (Jobs.fillSlot env worker req i { s.table with files := files }).jobs i =
        newJob env s.table.nextId req := Table.set_same ..
    refine Record.of_start (t := ⟨worker, .claimed, ⟨i, s.table.nextId⟩⟩) ht
      (List.mem_cons_self ..) ?_ (Function.update_self ..) (Function.update_self ..) ?_
    · show ((Jobs.fillSlot env worker req i { s.table with files := files }).jobs i).outputDeleted = false
      rw [hself]
      rfl
    · intro hopen
      cases hopen

end AmigaFleet.Mcpd.Exec

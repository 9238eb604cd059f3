import AmigaFleet.Mcpd.ExecKill
import AmigaFleet.Mcpd.Outputs

/-!
# Whom exec.kill signals

The process id in a record is only a number: between the drain of `jobs_signal` and
`_scan_hook` the job can end and its number can go to another process.  As long as no
new process is given the number of a job that has not been drained yet, and the ids of
the jobs have not wrapped around, a signal reaches the process of the job that it was
asked for, whatever the other tasks and the processes do in between.

* `TableMove`: what a step of the job table does to the records.
* `Inv`: the invariant; `Inv.step`: a step keeps it.
* `signals_reach_job`: the signals of a run.
* `signal_astray`: a run in which a number is given again.
-/

namespace AmigaFleet.Mcpd.ExecKill

open AmigaFleet.Lib
open AmigaFleet.Mcpd.Jobs (JobInfo Job Slot StartRequest Tenant Env Table SameJob RangeInv TableInv
  Soft findLocked drainLocked drainTable_apply drainTable_sameJob newJob)
open AmigaFleet.Mcpd.Exec (findLocked_some)

/-! ## The records under a step of the table -/

/-- The record is the job that it was. -/
structure Continues (new old : Job) : Prop where
  inUse : old.inUse = true
  id : new.id = old.id
  pid : new.pid = old.pid
  sandboxed : new.sandboxed = old.sandboxed
  signalsSent : new.signalsSent = old.signalsSent
  running : new.state = .running → old.state = .running

/-- It is, or it is free. -/
def Keeps (new old : Job) : Prop := new.inUse = true → Continues new old

theorem keeps_refl (j : Job) : Keeps j j := fun h => ⟨h, rfl, rfl, rfl, rfl, id⟩

theorem keeps_of_eq {jobs jobs' : Table} (h : jobs' = jobs) (i : Slot) :
    Keeps (jobs' i) (jobs i) := by
  rw [h]
  exact keeps_refl _

/-- A record that is written, and the others. -/
theorem keeps_set {jobs : Table} {i : Slot} {j : Job} (h : Keeps j (jobs i)) (k : Slot) :
    Keeps (jobs.set i j k) (jobs k) := by
  by_cases hk : k = i
  · subst hk
    rw [Table.set_same]
    exact h
  · rw [Table.set_other _ _ hk]
    exact keeps_refl _

theorem drainLocked_keeps (env : Env) (s : Jobs.Sys) (i : Slot) :
    Keeps ((drainLocked env s).jobs i) (s.jobs i) := by
  show Keeps (Jobs.drainTable env s.jobs s.port i) (s.jobs i)
  rw [drainTable_apply]
  split
  · exact fun h => ⟨h, rfl, rfl, rfl, rfl, fun hrun => nomatch hrun⟩
  · exact keeps_refl _

/-- What a step of the table does to the records. -/
inductive TableMove (s : Jobs.Sys) (a : Jobs.Label) (t : Jobs.Sys) : Prop where
  | kept (hbegun : t.begun = s.begun) (hkeeps : ∀ i, Keeps (t.jobs i) (s.jobs i))
  /-- a new job in record `i` -/
  | filled (env : Env) (worker : Nat) (req : StartRequest) (i : Slot)
      (hlabel : a = .startClaim env worker req) (hbegun : t.begun = s.begun + 1)
      (hnew : t.jobs i = newJob env s.nextId req)
      (hkeeps : ∀ k, k ≠ i → Keeps (t.jobs k) (s.jobs k))

/-- The record that a start fills, and the others. -/
theorem fillSlot_move {s u : Jobs.Sys} {env : Env} {worker : Nat} {req : StartRequest} (i : Slot)
    (hbegun : u.begun = s.begun) (hnext : u.nextId = s.nextId)
    (hkeeps : ∀ k, Keeps (u.jobs k) (s.jobs k)) :
    TableMove s (.startClaim env worker req) (Jobs.fillSlot env worker req i u) := by
  refine .filled env worker req i rfl (congrArg (· + 1) hbegun) ?_ fun k hk => ?_
  · show u.jobs.set i (newJob env u.nextId req) i = _
    rw [Table.set_same, hnext]
  · show Keeps (u.jobs.set i (newJob env u.nextId req) k) (s.jobs k)
    rw [Table.set_other _ _ hk]
    exact hkeeps k

theorem startClaim_move (env : Env) (worker : Nat) (req : StartRequest) (s : Jobs.Sys) :
    TableMove s (.startClaim env worker req) (Jobs.startClaim env worker req s) := by
  rcases Jobs.startClaim_cases env worker req s with
    ⟨i, -, -, heq⟩ | ⟨i, -, -, -, heq⟩ | ⟨-, heq⟩
  · rw [heq]
    exact fillSlot_move i rfl rfl (drainLocked_keeps env s)
  · rw [heq]
    refine fillSlot_move i (Jobs.evictOutput_begun ..) (Jobs.evictOutput_nextId ..) fun k => ?_
    rw [Jobs.evictOutput_jobs]
    exact drainLocked_keeps env s k
  · rw [heq]
    exact .kept rfl (drainLocked_keeps env s)

theorem jobsDropOutput_keeps (id : Nat) (s : Jobs.Sys) (k : Slot) :
    Keeps ((Jobs.jobsDropOutput id s).jobs k) (s.jobs k) := by
  unfold Jobs.jobsDropOutput
  split
  · exact keeps_refl _
  · split
    · refine keeps_set ?_ k
      exact fun h => ⟨h, rfl, rfl, rfl, rfl, fun hrun => hrun⟩
    · exact keeps_refl _

theorem serve_move {s t : Jobs.Sys} {a : Jobs.Label} (hstep : Jobs.serve s a = some t)
    (hkick : ∀ st, a ≠ .startKicked st) (hentry : ∀ c pid, a ≠ .jobEntry c pid)
    (hsignal : ∀ env id mask found, a ≠ .signal env id mask found) : TableMove s a t := by
  cases a with
  | startClaim env worker req =>
    cases hstep
    exact startClaim_move env worker req s
  | startOpened st =>
    obtain ⟨-, -, rfl⟩ := Jobs.whenStart_some hstep
    exact .kept rfl (keeps_of_eq rfl)
  | startOpenFailed st =>
    obtain ⟨-, -, rfl⟩ := Jobs.whenStart_some hstep
    exact .kept rfl (keeps_of_eq rfl)
  | startKicked st => exact absurd rfl (hkick st)
  | startKickFailed st =>
    obtain ⟨-, -, rfl⟩ := Jobs.whenStart_some hstep
    exact .kept rfl (keeps_of_eq rfl)
  | startUndo st =>
    obtain ⟨-, -, rfl⟩ := Jobs.whenStart_some hstep
    exact .kept rfl fun k => keeps_set (fun hfree => by cases hfree) k
  | jobEntry c pid => exact absurd rfl (hentry c pid)
  | childWrite c bytes =>
    obtain ⟨-, rfl⟩ := Jobs.whenChild_some hstep
    have hsoft := Jobs.childWrite_soft s c bytes
    refine .kept hsoft.begun (keeps_of_eq ?_)
    unfold Jobs.childWrite
    split <;> rfl
  | childExit c rc result2 =>
    obtain ⟨-, rfl⟩ := Jobs.whenChild_some hstep
    refine .kept rfl fun k => keeps_set ?_ k
    exact fun h => ⟨h, rfl, rfl, rfl, rfl, fun hrun => hrun⟩
  | get env id =>
    cases hstep
    exact .kept rfl (drainLocked_keeps env s)
  | signal env id mask found => exact absurd rfl (hsignal env id mask found)
  | dropOutput id =>
    cases hstep
    exact .kept (Jobs.jobsDropOutput_soft s id).begun (jobsDropOutput_keeps id s)
  | list env =>
    cases hstep
    exact .kept rfl (drainLocked_keeps env s)
  | shutdownCount env =>
    simp only [Jobs.serve] at hstep
    split at hstep
    · cases hstep
    · cases hstep
      rcases Jobs.shutdownCount_soft env s with heq | ⟨heq, -⟩
      · rw [heq]
        exact .kept rfl (drainLocked_keeps env s)
      · rw [heq]
        exact .kept rfl (drainLocked_keeps env s)
  | shutdownFree =>
    simp only [Jobs.serve] at hstep
    split at hstep
    · cases hstep
      exact .kept rfl (keeps_of_eq rfl)
    · cases hstep

/-- The steps that need no semaphore leave every record with its job. -/
theorem outside_sameJob {s : Sys} {t : Jobs.Sys} {a : Jobs.Label} (hlocked : s.locked = true)
    (hon : s.onTable a = true) (hstep : Jobs.serve s.table a = some t) (i : Slot) :
    SameJob (t.jobs i) (s.table.jobs i) := by
  cases a with
  | startOpened st =>
    obtain ⟨-, -, rfl⟩ := Jobs.whenStart_some hstep
    exact SameJob.refl _
  | startOpenFailed st =>
    obtain ⟨-, -, rfl⟩ := Jobs.whenStart_some hstep
    exact SameJob.refl _
  | startKickFailed st =>
    obtain ⟨-, -, rfl⟩ := Jobs.whenStart_some hstep
    exact SameJob.refl _
  | childWrite c bytes =>
    obtain ⟨-, rfl⟩ := Jobs.whenChild_some hstep
    exact (Jobs.childWrite_soft s.table c bytes).same i
  | childExit c rc result2 =>
    obtain ⟨hc, rfl⟩ := Jobs.whenChild_some hstep
    exact (Jobs.childExit_soft hc rc result2).same i
  | shutdownFree =>
    simp only [Jobs.serve] at hstep
    split at hstep
    · cases hstep
      exact SameJob.refl _
    · cases hstep
  | startKicked st => cases hon
  | jobEntry c pid => cases hon
  | signal env id mask found => cases hon
  | startClaim env worker req => simp [Sys.onTable, hlocked] at hon
  | startUndo st => simp [Sys.onTable, hlocked] at hon
  | get env id => simp [Sys.onTable, hlocked] at hon
  | dropOutput id => simp [Sys.onTable, hlocked] at hon
  | list env => simp [Sys.onTable, hlocked] at hon
  | shutdownCount env => simp [Sys.onTable, hlocked] at hon

/-! ## The invariant -/

/-- Every process with this number is that of the job. -/
def NamesJob (processes : List Process) (pid : Nat) (c : Tenant) : Prop :=
  ∀ p ∈ processes, p.pid = pid → p.job = some c

/-- The job was started with `sandboxed`. -/
def Sandboxed (s : Sys) (id : Nat) : Prop := ∃ req, s.requests id = some req ∧ req.sandboxed = true

def Allowed (s : Sys) (r : Request) : Prop := r.forced = true → Sandboxed s r.id

/-- What is known of a task in its phase. -/
def Known (s : Sys) (t : Task) : Prop :=
  match t.phase with
  | .signalling => Allowed s t.request
  | .scanning i pid =>
    Allowed s t.request ∧ (s.table.jobs i).inUse = true ∧ (s.table.jobs i).id = t.request.id ∧
      NamesJob s.processes pid ⟨i, t.request.id⟩
  | .checking | .polling _ _ | .done _ | .ignored => True

/-- The job has been sent this signal. -/
def Sent (signals : List Signal) (id : Nat) (b : Break) : Prop :=
  ∃ g ∈ signals, g.request.id = id ∧ g.request.signal = b

theorem sent_cons (g : Signal) (signals : List Signal) (id : Nat) (b : Break) :
    Sent (g :: signals) id b ↔
      (g.request.id = id ∧ g.request.signal = b) ∨ Sent signals id b := by
  simp [Sent]

/-- What is known of a record `j` that is in use. -/
structure Sound (s : Sys) (i : Slot) (j : Job) : Prop where
  requested : ∃ req, s.requests j.id = some req ∧ j.sandboxed = req.sandboxed
  named : j.state = .running → j.pid ≠ 0 → NamesJob s.processes j.pid ⟨i, j.id⟩
  recorded : ∀ b : Break, j.signalsSent &&& b.mask ≠ 0 ↔ Sent s.signals j.id b

/-- The signal went to the process of the job that it was asked for. -/
structure Arrived (s : Sys) (g : Signal) : Prop where
  own : ∃ c, g.process.job = some c ∧ c.id = g.request.id
  begun : g.request.id ≤ s.table.begun
  allowed : Allowed s g.request

structure Inv (s : Sys) : Prop where
  range : RangeInv s.table
  table : TableInv s.table
  records : ∀ i, (s.table.jobs i).inUse = true → Sound s i (s.table.jobs i)
  unrequested : ∀ id, s.table.begun < id → s.requests id = none
  pids : (s.processes.map Process.pid).Nodup
  tasks : ∀ t ∈ s.tasks, Known s t
  signals : ∀ g ∈ s.signals, Arrived s g

theorem init_inv (files : Jobs.Files) : Inv (init files) where
  range := Jobs.init_rangeInv files
  table := Jobs.init_tableInv files
  records := by
    intro i hi
    cases hi
  unrequested := fun _ _ => rfl
  pids := List.nodup_nil
  tasks := by
    intro t ht
    cases ht
  signals := by
    intro g hg
    cases hg

/-! ## Numbers of processes -/

def Task.scans (t : Task) (pid : Nat) : Bool :=
  match t.phase with
  | .scanning _ q => q = pid
  | _ => false

/-- No record of a running job holds the number, and no scan looks for it. -/
def FreshPid (s : Sys) (pid : Nat) : Prop :=
  (∀ i, (s.table.jobs i).isRunning = true → (s.table.jobs i).pid ≠ pid) ∧
    ∀ t ∈ s.tasks, t.scans pid = false

/-- New processes are given such numbers. -/
def FreshPids (s : Sys) : Label → Prop
  | .kicked _ pid => FreshPid s pid
  | .appears pid => FreshPid s pid
  | _ => True

instance (s : Sys) (pid : Nat) : Decidable (FreshPid s pid) := inferInstanceAs (Decidable (_ ∧ _))

instance : ∀ (s : Sys) (a : Label), Decidable (FreshPids s a)
  | s, .kicked _ pid | s, .appears pid => inferInstanceAs (Decidable (FreshPid s pid))
  | _, .table _ | _, .entered _ | _, .leaves _ | _, .kill _ | _, .shutdownSignal _
  | _, .turn _ _ => isTrue trivial

/-! ## Steps that send no signal -/

/-- What a step without a new job, a new number in a record and a signal does. -/
structure Move (s s' : Sys) : Prop where
  range : RangeInv s'.table
  table : TableInv s'.table
  begun : s'.table.begun = s.table.begun
  requests : s'.requests = s.requests
  signals : s'.signals = s.signals
  keeps : ∀ i, Keeps (s'.table.jobs i) (s.table.jobs i)
  pids : (s'.processes.map Process.pid).Nodup
  processes : ∀ p ∈ s'.processes, p ∈ s.processes ∨ FreshPid s p.pid

theorem Allowed.congr {s s' : Sys} (h : s'.requests = s.requests) {r : Request}
    (hr : Allowed s r) : Allowed s' r := by
  unfold Allowed Sandboxed at *
  rw [h]
  exact hr

theorem Move.sound {s s' : Sys} (hm : Move s s') {i : Slot} (hi : (s'.table.jobs i).inUse = true)
    (h : Sound s i (s.table.jobs i)) : Sound s' i (s'.table.jobs i) := by
  have hc := hm.keeps i hi
  refine ⟨?_, fun hrun hpid p hp heq => ?_, fun b => ?_⟩
  · rw [hm.requests, hc.id, hc.sandboxed]
    exact h.requested
  · rw [hc.id]
    rw [hc.pid] at hpid heq
    rcases hm.processes p hp with hold | hfresh
    · exact h.named (hc.running hrun) hpid p hold heq
    · have hrunning : (s.table.jobs i).isRunning = true := by
        simp [Job.isRunning, hc.inUse, hc.running hrun]
      exact absurd heq.symm (hfresh.1 i hrunning)
  · rw [hm.signals, hc.id, hc.signalsSent]
    exact h.recorded b

/-- A step that leaves the processes as they are, and each record with its job. -/
theorem Known.same {s s' : Sys} {t : Task} (h : Known s t) (hreq : s'.requests = s.requests)
    (hprocesses : s'.processes = s.processes)
    (hsame : ∀ i, SameJob (s'.table.jobs i) (s.table.jobs i)) : Known s' t := by
  obtain ⟨r, ph⟩ := t
  cases ph with
  | signalling => exact Allowed.congr hreq h
  | scanning i pid =>
    obtain ⟨hallowed, huse, hid, hnames⟩ := h
    rw [← hprocesses] at hnames
    exact ⟨hallowed.congr hreq, (hsame i).inUse.trans huse, (hsame i).id.trans hid, hnames⟩
  | checking => trivial
  | polling sent waited => trivial
  | done o => trivial
  | ignored => trivial

/-- A scanning task wants its record to stay the job's. -/
theorem Move.known {s s' : Sys} (hm : Move s s') {t : Task} (ht : t ∈ s.tasks)
    (hsame : t.isScanning = true → ∀ i, SameJob (s'.table.jobs i) (s.table.jobs i))
    (h : Known s t) : Known s' t := by
  obtain ⟨r, ph⟩ := t
  cases ph with
  | signalling => exact Allowed.congr hm.requests h
  | scanning i pid =>
    obtain ⟨hallowed, huse, hid, hnames⟩ := h
    have hs := hsame rfl i
    refine ⟨hallowed.congr hm.requests, hs.inUse.trans huse, hs.id.trans hid, fun p hp heq => ?_⟩
    rcases hm.processes p hp with hold | hfresh
    · exact hnames p hold heq
    · have hscans := hfresh.2 _ ht
      simp [Task.scans, heq] at hscans
  | checking => trivial
  | polling sent waited => trivial
  | done o => trivial
  | ignored => trivial

theorem Inv.move {s s' : Sys} (h : Inv s) (hm : Move s s') (htasks : ∀ t ∈ s'.tasks, Known s' t) :
    Inv s' where
  range := hm.range
  table := hm.table
  records := fun i hi => hm.sound hi (h.records i (hm.keeps i hi).inUse)
  unrequested := by
    rw [hm.begun, hm.requests]
    exact h.unrequested
  pids := hm.pids
  tasks := htasks
  signals := by
    rw [hm.signals]
    exact fun g hg =>
      have harrived := h.signals g hg
      ⟨harrived.own, hm.begun ▸ harrived.begun, harrived.allowed.congr hm.requests⟩

/-- Only the list of the processes changes. -/
theorem Inv.processes {s : Sys} (h : Inv s) {processes : List Process}
    (hpids : (processes.map Process.pid).Nodup)
    (hold : ∀ p ∈ processes, p ∈ s.processes ∨ FreshPid s p.pid) :
    Inv { s with processes := processes } := by
  have hm : Move s { s with processes := processes } :=
    ⟨h.range, h.table, rfl, rfl, rfl, fun i => keeps_refl _, hpids, hold⟩
  exact h.move hm fun t ht => hm.known ht (fun _ i => SameJob.refl _) (h.tasks t ht)

theorem Inv.begin {s : Sys} (h : Inv s) {r : Request} {phase : Phase}
    (hknown : Known (s.begin r phase) ⟨r, phase⟩) : Inv (s.begin r phase) := by
  have hm : Move s (s.begin r phase) :=
    ⟨h.range, h.table, rfl, rfl, rfl, fun i => keeps_refl _, h.pids, fun p hp => .inl hp⟩
  refine h.move hm fun t ht => ?_
  rcases List.mem_append.mp ht with hold | hnew
  · exact hm.known hold (fun _ i => SameJob.refl _) (h.tasks t hold)
  · rw [List.mem_singleton.mp hnew]
    exact hknown

/-! ## Sections of a task -/

theorem not_isScanning {s : Sys} (h : s.locked = false) {t : Task} (ht : t ∈ s.tasks) :
    ¬ t.isScanning = true := fun hscan => by
  have hlocked : s.locked = true := List.any_eq_true.mpr ⟨t, ht, hscan⟩
  rw [h] at hlocked
  cases hlocked

theorem Inv.drain_move {s : Sys} (h : Inv s) (env : Env) :
    Move s { s with table := drainLocked env s.table } :=
  ⟨h.range.drain env, h.table.drain env, rfl, rfl, rfl, drainLocked_keeps env s.table, h.pids,
    fun _ hp => .inl hp⟩

theorem Inv.drained {s : Sys} (h : Inv s) (hfree : s.locked = false) (env : Env) :
    Inv { s with table := drainLocked env s.table } := by
  have hm := h.drain_move env
  exact h.move hm fun t ht =>
    hm.known ht (fun hscan => absurd hscan (not_isScanning hfree ht)) (h.tasks t ht)

theorem Inv.setPhase {s : Sys} (h : Inv s) (k : Nat) {t : Task} {phase : Phase}
    (hknown : Known s ⟨t.request, phase⟩) : Inv (s.setPhase k t phase) := by
  have hm : Move s (s.setPhase k t phase) :=
    ⟨h.range, h.table, rfl, rfl, rfl, fun i => keeps_refl _, h.pids, fun p hp => .inl hp⟩
  refine h.move hm fun u hu => ?_
  rcases List.mem_or_eq_of_mem_set hu with hold | rfl
  · exact hm.known hold (fun _ i => SameJob.refl _) (h.tasks u hold)
  · exact hknown

/-- The snapshot tells whether the job is sandboxed. -/
theorem Inv.sandboxed {s : Sys} (h : Inv s) {env : Env} {id : Nat} {ji : JobInfo}
    (hinfo : infoOf env s.table.jobs id = some ji) (hji : ji.sandboxed = true) :
    Sandboxed s id := by
  obtain ⟨i, hfind, rfl⟩ := Option.map_eq_some_iff.mp hinfo
  obtain ⟨huse, rfl⟩ := findLocked_some hfind
  obtain ⟨req, hreq, hsame⟩ := (h.records i huse).requested
  exact ⟨req, hreq, hsame.symm.trans hji⟩

theorem known_checked {s : Sys} (h : Inv s) (env : Env) (r : Request) :
    Known s ⟨r, r.checked (infoOf env s.table.jobs r.id)⟩ := by
  cases hinfo : infoOf env s.table.jobs r.id with
  | none => trivial
  | some ji =>
    unfold Request.checked
    dsimp only
    split
    · rename_i hji
      exact fun _ => h.sandboxed hinfo hji
    · trivial

theorem known_signalled (s : Sys) (r : Request) (sent : Bool) :
    Known s ⟨r, r.signalled sent⟩ := by
  unfold Request.signalled
  split <;> trivial

theorem known_found {s : Sys} (h : Inv s) {r : Request} (hallowed : Allowed s r) :
    Known s ⟨r, r.found s.table.jobs⟩ := by
  unfold Request.found
  cases hfind : findLocked s.table.jobs r.id with
  | none => trivial
  | some i =>
    obtain ⟨huse, hid⟩ := findLocked_some hfind
    dsimp only
    split
    · rename_i hrunning
      have hnames := (h.records i huse).named hrunning.1 hrunning.2
      rw [hid] at hnames
      exact ⟨hallowed, huse, hid, hnames⟩
    · exact known_signalled s r false

theorem known_polled (s : Sys) (r : Request) (sent : Bool) (waited : Int)
    (answer : Option JobInfo) : Known s ⟨r, r.polled sent waited answer⟩ := by
  unfold Request.polled
  split
  · trivial
  · split
    · split <;> trivial
    · trivial

theorem Inv.section {s s' : Sys} (h : Inv s) {env : Env} {k : Nat} {t : Task}
    {phase : Table → Phase} (hstep : s.section env k t phase = some s')
    (hknown : ∀ u, Inv u → u.requests = s.requests → Known u ⟨t.request, phase u.table.jobs⟩) :
    Inv s' := by
  unfold Sys.section at hstep
  split at hstep
  · cases hstep
  · rename_i hfree
    obtain rfl := Option.some.inj hstep
    have hdrained := h.drained (Bool.eq_false_iff.mpr hfree) env
    exact hdrained.setPhase k (hknown _ hdrained rfl)

/-! ## The scan -/

theorem mask_and (b b' : Break) : b.mask &&& b'.mask ≠ 0 ↔ b = b' := by
  cases b <;> cases b' <;> decide

/-- A signal is added to those of a record. -/
theorem recorded_or (sent : Nat) (b b' : Break) :
    (sent ||| b.mask) &&& b'.mask ≠ 0 ↔ b = b' ∨ sent &&& b'.mask ≠ 0 := by
  rw [Nat.and_or_distrib_right, ne_eq, Nat.or_eq_zero_iff, not_and_or, or_comm, ← mask_and b b']

theorem signalled_soft (s : Jobs.Sys) (i : Slot) (b : Break) :
    Soft s { s with jobs := signalled s.jobs i b } where
  same := fun k => Jobs.sameJob_set s.jobs i k ⟨rfl, rfl, rfl⟩
  state := fun k => Jobs.state_set s.jobs i k rfl
  holders := List.Perm.refl _
  nextId := rfl
  begun := rfl
  shutdown := rfl

/-- The record of the job takes the signal down; no other record is that of the job. -/
theorem Inv.sent {s : Sys} (h : Inv s) {i : Slot} {g : Signal}
    (huse : (s.table.jobs i).inUse = true) (hid : (s.table.jobs i).id = g.request.id)
    (harrived : Arrived s g) :
    Inv { s with
      table := { s.table with jobs := signalled s.table.jobs i g.request.signal }
      signals := g :: s.signals } := by
  have hsoft := signalled_soft s.table i g.request.signal
  refine ⟨h.range.soft hsoft, h.table.soft hsoft, fun m hm => ?_, h.unrequested, h.pids, ?_, ?_⟩
  · have hmuse : (s.table.jobs m).inUse = true := (hsoft.same m).inUse.symm.trans hm
    have hsound := h.records m hmuse
    by_cases hmi : m = i
    · subst hmi
      have hset : signalled s.table.jobs m g.request.signal m =
          { s.table.jobs m with
            signalsSent := (s.table.jobs m).signalsSent ||| g.request.signal.mask } :=
        Table.set_same ..
      dsimp only
      rw [hset]
      refine ⟨hsound.requested, hsound.named, fun b => ?_⟩
      dsimp only
      rw [recorded_or, hsound.recorded b, sent_cons]
      exact or_congr ⟨fun hb => ⟨hid.symm, hb⟩, fun hb => hb.2⟩ Iff.rfl
    · have hset : signalled s.table.jobs i g.request.signal m = s.table.jobs m :=
        Table.set_other _ _ hmi
      have hother : g.request.id ≠ (s.table.jobs m).id := fun heq =>
        hmi (h.table.ids m i hmuse huse (heq.symm.trans hid.symm))
      dsimp only
      rw [hset]
      refine ⟨hsound.requested, hsound.named, fun b => ?_⟩
      rw [hsound.recorded b, sent_cons]
      exact ⟨.inr, fun hb => hb.resolve_left fun hb => hother hb.1⟩
  · exact fun t ht => (h.tasks t ht).same rfl rfl hsoft.same
  · intro g' hg'
    rcases List.mem_cons.mp hg' with rfl | hold
    · exact ⟨harrived.own, harrived.begun, harrived.allowed⟩
    · have hold' := h.signals g' hold
      exact ⟨hold'.own, hold'.begun, hold'.allowed⟩

theorem Inv.scan {s : Sys} (h : Inv s) (hfew : s.table.begun < 2 ^ 32 - 1) {k : Nat} {t : Task}
    (ht : t ∈ s.tasks) {i : Slot} {pid : Nat} (hphase : t.phase = .scanning i pid) :
    Inv (s.scan k t i pid) := by
  have hknown := h.tasks t ht
  unfold Known at hknown
  rw [hphase] at hknown
  obtain ⟨hallowed, huse, hid, hnames⟩ := hknown
  unfold Sys.scan
  cases hfind : s.processes.find? (·.pid = pid) with
  | none => exact h.setPhase k (known_signalled s t.request false)
  | some p =>
    have hpid : p.pid = pid := by simpa using List.find?_some hfind
    have hjob := hnames p (List.mem_of_find?_eq_some hfind) hpid
    have harrived : Arrived s ⟨k, t.request, p⟩ :=
      ⟨⟨_, hjob, rfl⟩, hid ▸ (h.range.ids hfew i huse).2, hallowed⟩
    exact (h.sent huse hid harrived).setPhase k (known_signalled _ t.request true)

/-! ## Steps of the table and the processes -/

/-- A new job in a record.  Its id is that of no start and no signal so far. -/
theorem Inv.filled {s : Sys} (h : Inv s) (hfree : s.locked = false) {t : Jobs.Sys}
    {env : Env} {req : StartRequest} {i : Slot} (hrange : RangeInv t) (htable : TableInv t)
    (hfew : t.begun < 2 ^ 32 - 1) (hbegun : t.begun = s.table.begun + 1)
    (hnew : t.jobs i = newJob env s.table.nextId req)
    (hkeeps : ∀ k, k ≠ i → Keeps (t.jobs k) (s.table.jobs k)) :
    Inv { s with
      table := t, requests := Function.update s.requests s.table.nextId (some req) } := by
  have hnext : s.table.nextId = s.table.begun + 1 := by
    have hrangeNext := h.range.next
    omega
  have hgrows : ∀ id r, s.requests id = some r →
      Function.update s.requests s.table.nextId (some req) id = some r := by
    intro id r hid
    have hne : id ≠ s.table.nextId := by
      rintro rfl
      rw [h.unrequested _ (by omega)] at hid
      cases hid
    rw [Function.update_of_ne hne, hid]
  have hallowed : ∀ r, Allowed s r → Allowed { s with
      table := t, requests := Function.update s.requests s.table.nextId (some req) } r :=
    fun r hr hforced => by
      obtain ⟨req', hreq', hsand⟩ := hr hforced
      exact ⟨req', hgrows r.id req' hreq', hsand⟩
  refine ⟨hrange, htable, fun k hk => ?_, fun id hid => ?_, h.pids, fun u hu => ?_,
    fun g hg => ?_⟩
  · by_cases hki : k = i
    · subst hki
      dsimp only
      rw [hnew]
      refine ⟨⟨req, Function.update_self .., rfl⟩, fun _ hpid => absurd rfl hpid, fun b => ?_⟩
      have hnone : ¬ Sent s.signals s.table.nextId b := by
        rintro ⟨g, hg, hid, -⟩
        have hle := (h.signals g hg).begun
        omega
      simp [newJob, hnone]
    · have hc := hkeeps k hki hk
      have hold := h.records k hc.inUse
      refine ⟨?_, fun hrun hpid => ?_, fun b => ?_⟩
      · obtain ⟨req', hreq', hsand⟩ := hold.requested
        rw [hc.id, hc.sandboxed]
        exact ⟨req', hgrows _ _ hreq', hsand⟩
      · rw [hc.pid] at hpid ⊢
        rw [hc.id]
        exact hold.named (hc.running hrun) hpid
      · rw [hc.id, hc.signalsSent]
        exact hold.recorded b
  · dsimp only at hid ⊢
    rw [hbegun] at hid
    rw [Function.update_of_ne (by omega)]
    exact h.unrequested id (by omega)
  · have hknown := h.tasks u hu
    obtain ⟨r, ph⟩ := u
    cases ph with
    | signalling => exact hallowed r hknown
    | scanning k pid => exact absurd rfl (not_isScanning hfree hu)
    | checking => trivial
    | polling sent waited => trivial
    | done o => trivial
    | ignored => trivial
  · have harrived := h.signals g hg
    refine ⟨harrived.own, ?_, hallowed _ harrived.allowed⟩
    have hle := harrived.begun
    dsimp only
    omega

theorem onTable_kind {s : Sys} {a : Jobs.Label} (h : s.onTable a = true) :
    (∀ st, a ≠ .startKicked st) ∧ (∀ c pid, a ≠ .jobEntry c pid) ∧
      ∀ env id mask found, a ≠ .signal env id mask found := by
  refine ⟨fun st heq => ?_, fun c pid heq => ?_, fun env id mask found heq => ?_⟩
  · subst heq
    cases h
  · subst heq
    cases h
  · subst heq
    cases h

/-- The invariants of the table. -/
theorem Inv.tables {s : Sys} (h : Inv s) (hfew : s.table.begun < 2 ^ 32 - 1) {a : Jobs.Label}
    {t : Jobs.Sys} (hstep : Jobs.step s.table a = some t) : RangeInv t ∧ TableInv t := by
  have hkind := (Jobs.step_kind hstep).2
  exact ⟨h.range.step hkind,
    h.table.step hkind fun env _ _ _ => (h.range.freshId hfew).apart env⟩

theorem Inv.onTable {s : Sys} (h : Inv s) {a : Jobs.Label} {t : Jobs.Sys}
    (hfew : t.begun < 2 ^ 32 - 1) (hle : s.table.begun ≤ t.begun) (hon : s.onTable a = true)
    (hstep : Jobs.step s.table a = some t) :
    Inv { s with table := t, requests := requestsAfter s t a } := by
  have hserve := (Jobs.step_serve hstep).2
  obtain ⟨hrange, htable⟩ := h.tables (by omega) hstep
  obtain ⟨hkick, hentry, hsignal⟩ := onTable_kind hon
  cases serve_move hserve hkick hentry hsignal with
  | kept hbegun hkeeps =>
    have hreq : requestsAfter s t a = s.requests := by
      unfold requestsAfter
      split
      · rw [if_pos hbegun]
      · rfl
    rw [hreq]
    have hm : Move s { s with table := t } :=
      ⟨hrange, htable, hbegun, rfl, rfl, hkeeps, h.pids, fun p hp => .inl hp⟩
    refine h.move hm fun u hu => hm.known hu (fun hscan i => ?_) (h.tasks u hu)
    have hlocked : s.locked = true := List.any_eq_true.mpr ⟨u, hu, hscan⟩
    exact outside_sameJob hlocked hon hserve i
  | filled env worker req i hlabel hbegun hnew hkeeps =>
    subst hlabel
    have hreq : requestsAfter s t (.startClaim env worker req) =
        Function.update s.requests s.table.nextId (some req) :=
      if_neg (by omega)
    rw [hreq]
    have hfree : s.locked = false := by simpa [Sys.onTable] using hon
    exact h.filled hfree hrange htable hfew hbegun hnew hkeeps

/-- The record of a job takes down the number of its process. -/
theorem Inv.entered {s : Sys} (h : Inv s) {p : Process} {c : Tenant} (hp : p ∈ s.processes)
    (hjob : p.job = some c) (hc : c ∈ s.table.children) :
    Inv { s with table := Jobs.jobEntry c p.pid s.table } := by
  have hsoft := Jobs.jobEntry_soft s.table c p.pid
  obtain ⟨-, hid, -⟩ := h.table.tenancy.holds c
    (List.mem_append_left _ (List.mem_append_right _ hc))
  refine ⟨h.range.soft hsoft, h.table.soft hsoft, fun i hi => ?_, h.unrequested, h.pids,
    fun t ht => ?_, fun g hg => ?_⟩
  · have hold := h.records i ((hsoft.same i).inUse.symm.trans hi)
    by_cases hic : i = c.slot
    · subst hic
      have hset : (Jobs.jobEntry c p.pid s.table).jobs c.slot =
          { s.table.jobs c.slot with pid := p.pid, started := true } := Table.set_same ..
      dsimp only
      rw [hset]
      refine ⟨hold.requested, fun _ _ q hq heq => ?_, hold.recorded⟩
      have hqp : q = p := List.inj_on_of_nodup_map h.pids hq hp heq
      rw [hqp, hjob, hid]
    · have hset : (Jobs.jobEntry c p.pid s.table).jobs i = s.table.jobs i :=
        Table.set_other _ _ hic
      dsimp only
      rw [hset]
      exact ⟨hold.requested, hold.named, hold.recorded⟩
  · exact (h.tasks t ht).same rfl rfl hsoft.same
  · have harrived := h.signals g hg
    exact ⟨harrived.own, harrived.begun, harrived.allowed⟩

/-! ## Runs -/

theorem section_begun {s s' : Sys} {env : Env} {k : Nat} {t : Task} {phase : Table → Phase}
    (hstep : s.section env k t phase = some s') : s'.table.begun = s.table.begun := by
  unfold Sys.section at hstep
  split at hstep
  · cases hstep
  · cases hstep
    rfl

theorem scan_begun (s : Sys) (k : Nat) (t : Task) (i : Slot) (pid : Nat) :
    (s.scan k t i pid).table.begun = s.table.begun := by
  unfold Sys.scan
  split <;> rfl

theorem turn_begun {s s' : Sys} {env : Env} {k : Nat} {t : Task}
    (hstep : turn s env k t = some s') : s'.table.begun = s.table.begun := by
  unfold turn at hstep
  split at hstep
  · exact section_begun hstep
  · exact section_begun hstep
  · cases hstep
    exact scan_begun ..
  · exact section_begun hstep
  · cases hstep
  · cases hstep

theorem Inv.turn {s s' : Sys} (h : Inv s) (hfew : s.table.begun < 2 ^ 32 - 1) {env : Env} {k : Nat}
    {t : Task} (ht : t ∈ s.tasks) (hstep : turn s env k t = some s') : Inv s' := by
  unfold ExecKill.turn at hstep
  split at hstep
  · exact h.section hstep fun u hu _ => known_checked hu env t.request
  · rename_i hphase
    have hallowed := h.tasks t ht
    unfold Known at hallowed
    rw [hphase] at hallowed
    exact h.section hstep fun u hu hreq => known_found hu (hallowed.congr hreq)
  · rename_i i pid hphase
    cases hstep
    exact h.scan hfew ht hphase
  · exact h.section hstep fun u _ _ => known_polled u ..
  · cases hstep
  · cases hstep

/-- A step of the table that is not under `Label.table`. -/
theorem Inv.kicked {s : Sys} (h : Inv s) (hfew : s.table.begun < 2 ^ 32 - 1) {st : Jobs.Start}
    {t : Jobs.Sys} (hstep : Jobs.step s.table (.startKicked st) = some t) :
    Inv { s with table := t } ∧ t.jobs = s.table.jobs := by
  obtain ⟨hrange, htable⟩ := h.tables hfew hstep
  obtain ⟨-, -, rfl⟩ := Jobs.whenStart_some (Jobs.step_serve hstep).2
  have hm : Move s { s with table := Jobs.startKicked st s.table } :=
    ⟨hrange, htable, rfl, rfl, rfl, fun i => keeps_refl _, h.pids, fun p hp => .inl hp⟩
  exact ⟨h.move hm fun u hu => (h.tasks u hu).same rfl rfl fun i => SameJob.refl _, rfl⟩

/-- A process enters the list. -/
theorem Inv.enters {s : Sys} (h : Inv s) {p : Process} (hunused : ¬ s.pidUsed p.pid = true)
    (hfresh : FreshPid s p.pid) : Inv { s with processes := p :: s.processes } := by
  refine h.processes (List.nodup_cons.mpr ⟨fun hmem => hunused ?_, h.pids⟩) fun q hq => ?_
  · obtain ⟨q, hq, heq⟩ := List.mem_map.mp hmem
    exact List.any_eq_true.mpr ⟨q, hq, decide_eq_true heq⟩
  · rcases List.mem_cons.mp hq with rfl | hold
    · exact .inr hfresh
    · exact .inl hold

/-- What a step can do. -/
inductive StepKind (s : Sys) : Label → Sys → Prop where
  | table {a : Jobs.Label} {t : Jobs.Sys} (hon : s.onTable a = true)
      (htable : Jobs.step s.table a = some t) :
      StepKind s (.table a) { s with table := t, requests := requestsAfter s t a }
  | kicked {st : Jobs.Start} {pid : Nat} {t : Jobs.Sys} (hunused : ¬ s.pidUsed pid = true)
      (htable : Jobs.step s.table (.startKicked st) = some t) :
      StepKind s (.kicked st pid)
        { s with table := t, processes := ⟨pid, some st.tenant⟩ :: s.processes }
  | entered {p : Process} {c : Tenant} {t : Jobs.Sys} (hp : p ∈ s.processes)
      (hjob : p.job = some c) (htable : Jobs.step s.table (.jobEntry c p.pid) = some t) :
      StepKind s (.entered p) { s with table := t }
  | appears {pid : Nat} (hunused : ¬ s.pidUsed pid = true) :
      StepKind s (.appears pid) { s with processes := ⟨pid, none⟩ :: s.processes }
  | leaves (p : Process) : StepKind s (.leaves p) { s with processes := s.processes.erase p }
  | refused (params : Option CJson) : StepKind s (.kill params) s
  | begins {a : Label} {r : Request} {phase : Phase}
      (hphase : phase = .checking ∨ (phase = .signalling ∧ r.forced = false)) :
      StepKind s a (s.begin r phase)
  | turn {env : Env} {k : Nat} {t : Task} {s' : Sys} (ht : s.tasks[k]? = some t)
      (hturn : turn s env k t = some s') : StepKind s (.turn env k) s'

theorem step_kind {s s' : Sys} {a : Label} (hstep : step s a = some s') : StepKind s a s' := by
  cases a with
  | table a =>
    simp only [step] at hstep
    split at hstep
    · rename_i hon
      obtain ⟨t, htable, rfl⟩ := Option.map_eq_some_iff.mp hstep
      exact .table hon htable
    · cases hstep
  | kicked st pid =>
    simp only [step] at hstep
    split at hstep
    · cases hstep
    · rename_i hunused
      obtain ⟨t, htable, rfl⟩ := Option.map_eq_some_iff.mp hstep
      exact .kicked hunused htable
  | entered p =>
    simp only [step] at hstep
    split at hstep
    · rename_i hp
      obtain ⟨c, hjob, hrest⟩ := Option.bind_eq_some_iff.mp hstep
      obtain ⟨t, htable, rfl⟩ := Option.map_eq_some_iff.mp hrest
      exact .entered hp hjob htable
    · cases hstep
  | appears pid =>
    simp only [step] at hstep
    split at hstep
    · cases hstep
    · rename_i hunused
      cases hstep
      exact .appears hunused
  | leaves p =>
    cases hstep
    exact .leaves p
  | kill params =>
    simp only [step] at hstep
    split at hstep
    · cases hstep
      exact .refused params
    · rename_i r hr
      cases hstep
      refine .begins ?_
      by_cases hforced : r.forced = true
      · rw [if_pos hforced]
        exact .inl rfl
      · rw [if_neg hforced]
        exact .inr ⟨rfl, Bool.eq_false_iff.mpr hforced⟩
  | shutdownSignal i =>
    simp only [step] at hstep
    split at hstep
    · cases hstep
      exact .begins (.inr ⟨rfl, rfl⟩)
    · cases hstep
  | turn env k =>
    simp only [step] at hstep
    split at hstep
    · cases hstep
    · obtain ⟨t, ht, hturn⟩ := Option.bind_eq_some_iff.mp hstep
      exact .turn ht hturn

/-- The number of the starts only grows. -/
theorem StepKind.begun_le {s s' : Sys} {a : Label} (h : StepKind s a s') :
    s.table.begun ≤ s'.table.begun := by
  cases h with
  | table hon htable => exact (Jobs.step_kind htable).2.begun_le
  | kicked hunused htable => exact (Jobs.step_kind htable).2.begun_le
  | entered hp hjob htable => exact (Jobs.step_kind htable).2.begun_le
  | appears hunused => exact Nat.le_refl _
  | leaves p => exact Nat.le_refl _
  | refused params => exact Nat.le_refl _
  | begins hphase => exact Nat.le_refl _
  | turn ht hturn => exact (turn_begun hturn).ge

theorem Inv.step {s s' : Sys} {a : Label} (h : Inv s) (hok : FreshPids s a) (hk : StepKind s a s')
    (hfew : s'.table.begun < 2 ^ 32 - 1) : Inv s' := by
  have hle := hk.begun_le
  cases hk with
  | table hon htable => exact h.onTable hfew hle hon htable
  | kicked hunused htable =>
    rename_i st pid t
    obtain ⟨hinv, hjobs⟩ := h.kicked (Nat.lt_of_le_of_lt hle hfew) htable
    refine hinv.enters (p := ⟨pid, some st.tenant⟩) hunused ⟨fun i hi => ?_, hok.2⟩
    dsimp only at hi ⊢
    rw [hjobs] at hi ⊢
    exact hok.1 i hi
  | entered hp hjob htable =>
    obtain ⟨hc, rfl⟩ := Jobs.whenChild_some (Jobs.step_serve htable).2
    exact h.entered hp hjob hc
  | appears hunused =>
    rename_i pid
    exact h.enters (p := ⟨pid, none⟩) hunused hok
  | leaves p =>
    exact h.processes (h.pids.sublist (List.erase_sublist.map _)) fun q hq =>
      .inl (List.mem_of_mem_erase hq)
  | refused params => exact h
  | begins hphase =>
    rcases hphase with rfl | ⟨rfl, hforced⟩
    · exact h.begin trivial
    · exact h.begin fun hf => by simp [hforced] at hf
  | turn ht hturn =>
    rw [turn_begun hturn] at hfew
    exact h.turn hfew (List.mem_of_getElem? ht) hturn

/-- The invariant, while the ids have not wrapped around. -/
def SafeInv (s : Sys) : Prop := s.table.begun < 2 ^ 32 - 1 → Inv s

theorem SafeInv.step {s s' : Sys} {a : Label} (h : SafeInv s) (hok : FreshPids s a)
    (hstep : step s a = some s') : SafeInv s' := fun hfew =>
  have hk := step_kind hstep
  (h (Nat.lt_of_le_of_lt hk.begun_le hfew)).step hok hk hfew

theorem run_inv {files : Jobs.Files} {as : List Label} {s : Sys}
    (hok : Along step FreshPids (init files) as) (hrun : run step (init files) as = some s) :
    SafeInv s :=
  run_invariant (fun _ _ _ h hok hstep => h.step hok hstep) (fun _ => init_inv files) hok hrun

/-- In every run in which new processes are given new numbers, a signal reaches a
process of the job that it is for, and a forced one that of a sandboxed job. -/
theorem signals_reach_job {files : Jobs.Files} {as : List Label} {s : Sys}
    (hok : Along step FreshPids (init files) as) (hrun : run step (init files) as = some s)
    (hfew : s.table.begun < 2 ^ 32 - 1) {g : Signal} (hg : g ∈ s.signals) :
    (∃ c, g.process.job = some c ∧ c.id = g.request.id) ∧
      (g.request.forced = true →
        ∃ req, s.requests g.request.id = some req ∧ req.sandboxed = true) := by
  have harrived := (run_inv hok hrun hfew).signals g hg
  exact ⟨harrived.own, harrived.allowed⟩

/-- A sandboxed job is started, as the process with number 7. -/
def sandboxedStart : List Label :=
  [.table (.startClaim Jobs.sampleEnv 0 ⟨"List".toList, 0, true⟩),
    .table (.startOpened ⟨0, .claimed, Jobs.sampleTenant⟩),
    .kicked ⟨0, .opened, Jobs.sampleTenant⟩ 7, .entered ⟨7, some Jobs.sampleTenant⟩]

def killParams (force : Bool) : CJson :=
  .object [(ascii "job_id", cNumber 1), (ascii "force", .bool force)]

/-- A forced `exec.kill`; another process comes in between. -/
def forcedKill : List Label :=
  sandboxedStart ++ [.kill (some (killParams true)), .turn Jobs.sampleEnv 0,
    .turn Jobs.sampleEnv 0, .appears 8, .turn Jobs.sampleEnv 0]

def forcedSignal : Signal := ⟨0, ⟨1, .f, .kill true 2000⟩, ⟨7, some Jobs.sampleTenant⟩⟩

theorem signals_reach_job_sample : ∃ s, run step (init fun _ => none) forcedKill = some s ∧
    forcedSignal ∈ s.signals ∧ ∃ req, s.requests 1 = some req ∧ req.sandboxed = true := by
  have hok : Along step FreshPids (init fun _ => none) forcedKill := by decide +kernel
  have hsent : (run step (init fun _ => none) forcedKill).any
      (fun s => decide (s.table.begun < 2 ^ 32 - 1 ∧ forcedSignal ∈ s.signals)) = true := by
    decide +kernel
  cases hrun : run step (init fun _ => none) forcedKill with
  | none => simp [hrun] at hsent
  | some s =>
    rw [hrun] at hsent
    obtain ⟨hfew, hmem⟩ := of_decide_eq_true hsent
    exact ⟨s, rfl, hmem, (signals_reach_job hok hrun hfew hmem).2 rfl⟩

/-- The job ends behind the drain, and its number is given to another process. -/
def reusedPid : List Label :=
  sandboxedStart ++ [.kill (some (killParams false)), .turn Jobs.sampleEnv 0,
    .table (.childExit Jobs.sampleTenant 0 0), .leaves ⟨7, some Jobs.sampleTenant⟩, .appears 7,
    .turn Jobs.sampleEnv 0]

/-- The signal then goes to that process. -/
theorem signal_astray : ∃ s, run step (init fun _ => none) reusedPid = some s ∧
    ⟨0, ⟨1, .c, .kill false 2000⟩, ⟨7, none⟩⟩ ∈ s.signals := by
  have hsent : (run step (init fun _ => none) reusedPid).any
      (fun s => decide (⟨0, ⟨1, .c, .kill false 2000⟩, ⟨7, none⟩⟩ ∈ s.signals)) = true := by
    decide +kernel
  cases hrun : run step (init fun _ => none) reusedPid with
  | none => simp [hrun] at hsent
  | some s =>
    rw [hrun] at hsent
    exact ⟨s, rfl, of_decide_eq_true hsent⟩

end AmigaFleet.Mcpd.ExecKill

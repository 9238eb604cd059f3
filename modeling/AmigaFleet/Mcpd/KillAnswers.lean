import AmigaFleet.Lib.Keyed
import AmigaFleet.Mcpd.KillSafety

/-!
# What is told of the signals

`exec.status` lists the signals that a job has been sent, from `signals_sent` of its
record.  `exec.kill` answers whether it has sent one.

* `status_tells_signals`: the list is that of the signals which the job's process got.
* `Tells`: what a task knows of its own signals; `CountInv`: the invariant.
* `kill_tells_sent`: the answer of `exec.kill`.
-/

namespace AmigaFleet.Mcpd.ExecKill

open AmigaFleet.Lib
open AmigaFleet.Mcpd.Jobs (JobInfo Env Table findLocked drainLocked)
open AmigaFleet.Mcpd.Exec (pJobId findLocked_some)

/-! ## exec.status -/

theorem getItem_signalsSent (ji : JobInfo) :
    (statusResult ji).getItem (ascii "signals_sent") =
      some (.array (signalLetters ji.signalsSent)) := by
  obtain ⟨id, state⟩ := ji
  cases state <;> rfl

theorem letter_inj {b b' : Break} (h : cString b.letter = cString b'.letter) : b = b' := by
  have htext := CJson.string.inj h
  cases b <;> cases b' <;> first | rfl | exact absurd htext (by decide)

theorem mem_signalLetters (sent : Nat) (b : Break) :
    cString b.letter ∈ signalLetters sent ↔ sent &&& b.mask ≠ 0 := by
  unfold signalLetters
  rw [List.mem_filterMap]
  constructor
  · rintro ⟨b', -, hb'⟩
    split at hb'
    · rename_i hsent
      obtain rfl := letter_inj (Option.some.inj hb')
      exact hsent
    · cases hb'
  · intro hsent
    refine ⟨b, ?_, if_pos hsent⟩
    cases b <;> simp

/-- The letters that `exec.status` lists are those of the signals that the job's
process has been sent. -/
theorem status_tells_signals {files : Jobs.Files} {as : List Label} {s : Sys}
    (hok : Along step FreshPids (init files) as) (hrun : run step (init files) as = some s)
    (hfew : s.table.begun < 2 ^ 32 - 1) {env : Env} {params : Option CJson} {result : CJson}
    (hresult : execStatus (fun id => (Jobs.jobsGet env id s.table).2) params = .ok result) :
    ∃ id letters, pJobId params = .ok id ∧
      result.getItem (ascii "signals_sent") = some (.array letters) ∧
      ∀ b : Break, cString b.letter ∈ letters ↔
        ∃ g ∈ s.signals, (∃ c, g.process.job = some c ∧ c.id = id) ∧ g.request.signal = b := by
  have hinv := run_inv hok hrun hfew
  unfold execStatus at hresult
  cases hid : pJobId params with
  | error e =>
    rw [hid] at hresult
    cases hresult
  | ok id =>
    rw [hid] at hresult
    cases hfind : findLocked (drainLocked env s.table).jobs id with
    | none => simp [Jobs.jobsGet, hfind, bind, Except.bind] at hresult
    | some i =>
      have hstatus : statusResult (Jobs.fillInfo env ((drainLocked env s.table).jobs i)) = result := by
        simpa [Jobs.jobsGet, hfind, bind, Except.bind] using hresult
      obtain ⟨huse, hjob⟩ := findLocked_some hfind
      have hm := hinv.drain_move env
      have hsound := hm.sound huse (hinv.records i (hm.keeps i huse).inUse)
      subst hstatus
      refine ⟨id, _, rfl, getItem_signalsSent _, fun b => ?_⟩
      rw [mem_signalLetters]
      refine (hsound.recorded b).trans ⟨?_, ?_⟩
      · rintro ⟨g, hg, hgid, hb⟩
        obtain ⟨c, hc, hcid⟩ := (hinv.signals g hg).own
        exact ⟨g, hg, ⟨c, hc, (hcid.trans hgid).trans hjob⟩, hb⟩
      · rintro ⟨g, hg, ⟨c, hc, hcid⟩, hb⟩
        obtain ⟨c', hc', hcid'⟩ := (hinv.signals g hg).own
        obtain rfl := Option.some.inj (hc.symm.trans hc')
        exact ⟨g, hg, (hcid'.symm.trans hcid).trans hjob.symm, hb⟩

/-- The job of the run above is sent a plain CTRL-C behind the forced signal. -/
def twoKills : List Label :=
  forcedKill ++ [.kill (some (killParams false)), .turn Jobs.sampleEnv 1, .turn Jobs.sampleEnv 1]

/-- `exec.status` of job 1, in any state. -/
def sampleStatus (s : Sys) : Outcome :=
  execStatus (fun id => (Jobs.jobsGet Jobs.sampleEnv id s.table).2) (some (killParams false))

theorem status_tells_signals_sample : ∃ s result letters,
    run step (init fun _ => none) twoKills = some s ∧ sampleStatus s = .ok result ∧
      result.getItem (ascii "signals_sent") = some (.array letters) ∧
        cString "f" ∈ letters := by
  have hok : Along step FreshPids (init fun _ => none) twoKills := by decide +kernel
  have hsent : (run step (init fun _ => none) twoKills).any
      (fun s => decide (s.table.begun < 2 ^ 32 - 1 ∧ forcedSignal ∈ s.signals) &&
        (sampleStatus s).isOk) = true := by
    decide +kernel
  cases hrun : run step (init fun _ => none) twoKills with
  | none => simp [hrun] at hsent
  | some s =>
    rw [hrun] at hsent
    obtain ⟨hfacts, hanswers⟩ := Bool.and_eq_true_iff.mp hsent
    obtain ⟨hfew, hmem⟩ := of_decide_eq_true hfacts
    cases hstatus : sampleStatus s with
    | error e => simp [hstatus, Except.isOk, Except.toBool] at hanswers
    | ok result =>
      obtain ⟨id, letters, hid, hget, hletters⟩ := status_tells_signals hok hrun hfew hstatus
      have hone : pJobId (some (killParams false)) = .ok 1 := by rfl
      rw [hone] at hid
      cases hid
      exact ⟨s, result, letters, rfl, hstatus, hget,
        (hletters .f).mpr ⟨forcedSignal, hmem, ⟨Jobs.sampleTenant, rfl, rfl⟩, rfl⟩⟩


/-! ## exec.kill -/

theorem getItem_sent (ji : JobInfo) (r : Request) (sent : Bool) :
    (killResult ji r sent).getItem (ascii "sent") = some (.bool sent) := by
  obtain ⟨id, state⟩ := ji
  cases state <;> rfl

/-- How many signals a task has sent in this phase. -/
def Tells (n : Nat) : Phase → Prop
  | .checking => n = 0
  | .signalling => n = 0
  | .scanning _ _ => n = 0
  | .polling sent _ => n = sent.toNat
  | .done (.ok result) => ∃ sent, result.getItem (ascii "sent") = some (.bool sent) ∧ n = sent.toNat
  | .done (.error _) => n ≤ 1
  | .ignored => n ≤ 1

theorem tells_checked (r : Request) (answer : Option JobInfo) : Tells 0 (r.checked answer) := by
  unfold Request.checked
  split
  · exact Nat.zero_le 1
  · split
    · rfl
    · exact Nat.zero_le 1

theorem tells_signalled (r : Request) (sent : Bool) : Tells sent.toNat (r.signalled sent) := by
  unfold Request.signalled
  split
  · rfl
  · exact Bool.toNat_le sent

theorem tells_found (r : Request) (jobs : Table) : Tells 0 (r.found jobs) := by
  unfold Request.found
  split
  · exact Nat.zero_le 1
  · split
    · rfl
    · exact tells_signalled r false

theorem tells_polled (r : Request) (sent : Bool) (waited : Int) (answer : Option JobInfo) :
    Tells sent.toNat (r.polled sent waited answer) := by
  unfold Request.polled
  split
  · exact Bool.toNat_le sent
  · rename_i ji
    split
    · split
      · exact ⟨sent, getItem_sent ji r sent, rfl⟩
      · rfl
    · exact Bool.toNat_le sent

/-- The signals of task `k`. -/
def signalsOf (signals : List Signal) (k : Nat) : List Signal := signals.filter (·.task = k)

/-- Every signal is one of a task, and every task knows how many it has sent. -/
structure CountInv (s : Sys) : Prop where
  own : ∀ g ∈ s.signals, ∃ t, s.tasks[g.task]? = some t ∧ t.request = g.request
  tells : ∀ k t, s.tasks[k]? = some t → Tells (signalsOf s.signals k).length t.phase

theorem init_countInv (files : Jobs.Files) : CountInv (init files) where
  own := by
    intro g hg
    cases hg
  tells := by
    intro k t ht
    cases ht

/-- The tasks and the signals are as before. -/
theorem CountInv.same {s s' : Sys} (h : CountInv s) (htasks : s'.tasks = s.tasks)
    (hsignals : s'.signals = s.signals) : CountInv s' := by
  obtain ⟨own, tells⟩ := h
  rw [← htasks, ← hsignals] at own tells
  exact ⟨own, tells⟩

theorem CountInv.begin {s : Sys} (h : CountInv s) {r : Request} {phase : Phase}
    (htells : Tells 0 phase) : CountInv (s.begin r phase) where
  own := fun g hg => by
    obtain ⟨t, ht, hr⟩ := h.own g hg
    exact ⟨t, (List.getElem?_append_left (List.getElem?_eq_some_iff.mp ht).1).trans ht, hr⟩
  tells := fun k t ht => by
    rcases Keyed.getElem?_snoc_cases ht with hold | ⟨rfl, rfl⟩
    · exact h.tells k t hold
    · have hnone : signalsOf s.signals s.tasks.length = [] := by
        refine List.filter_eq_nil_iff.mpr fun g hg => ?_
        obtain ⟨t, ht, -⟩ := h.own g hg
        have hlt := (List.getElem?_eq_some_iff.mp ht).1
        simp only [decide_eq_true_eq]
        omega
      show Tells (signalsOf s.signals s.tasks.length).length phase
      rw [hnone]
      exact htells

/-- Task `k` goes on to another phase. -/
theorem CountInv.setPhase {s s' : Sys} (h : CountInv s) {k : Nat} {t : Task} {phase : Phase}
    (ht : s.tasks[k]? = some t) (htasks : s'.tasks = s.tasks.set k { t with phase := phase })
    (hsignals : s'.signals = s.signals)
    (htells : Tells (signalsOf s.signals k).length phase) : CountInv s' where
  own := by
    rw [hsignals, htasks]
    intro g hg
    obtain ⟨u, hu, hr⟩ := h.own g hg
    by_cases hk : k = g.task
    · subst hk
      obtain rfl := Option.some.inj (hu.symm.trans ht)
      exact ⟨_, List.getElem?_set_self (List.getElem?_eq_some_iff.mp ht).1, hr⟩
    · exact ⟨u, (List.getElem?_set_ne hk).trans hu, hr⟩
  tells := by
    rw [hsignals, htasks]
    intro m u hu
    rcases Keyed.getElem?_set_cases hu with ⟨rfl, rfl⟩ | ⟨-, hold⟩
    · exact htells
    · exact h.tells m u hold

/-- Task `k` sends its only signal. -/
theorem CountInv.sent {s : Sys} (h : CountInv s) {k : Nat} {t : Task} {p : Process} {phase : Phase}
    (ht : s.tasks[k]? = some t) (hnone : (signalsOf s.signals k).length = 0)
    (htells : Tells 1 phase) {table : Jobs.Sys} :
    CountInv { s.setPhase k t phase with
      table := table, signals := ⟨k, t.request, p⟩ :: s.signals } where
  own := fun g hg => by
    rcases List.mem_cons.mp hg with rfl | hold
    · exact ⟨_, List.getElem?_set_self (List.getElem?_eq_some_iff.mp ht).1, rfl⟩
    · obtain ⟨u, hu, hr⟩ := h.own g hold
      by_cases hk : k = g.task
      · subst hk
        obtain rfl := Option.some.inj (hu.symm.trans ht)
        exact ⟨_, List.getElem?_set_self (List.getElem?_eq_some_iff.mp ht).1, hr⟩
      · exact ⟨u, (List.getElem?_set_ne hk).trans hu, hr⟩
  tells := fun m u hu => by
    show Tells (signalsOf (⟨k, t.request, p⟩ :: s.signals) m).length u.phase
    rcases Keyed.getElem?_set_cases hu with ⟨rfl, rfl⟩ | ⟨hmk, hold⟩
    · have hone : signalsOf (⟨m, t.request, p⟩ :: s.signals) m =
          ⟨m, t.request, p⟩ :: signalsOf s.signals m := List.filter_cons_of_pos (by simp)
      rw [hone, List.length_cons, hnone]
      exact htells
    · have hother : signalsOf (⟨k, t.request, p⟩ :: s.signals) m = signalsOf s.signals m :=
        List.filter_cons_of_neg (by simp [Ne.symm hmk])
      rw [hother]
      exact h.tells m u hold

theorem CountInv.section {s s' : Sys} (h : CountInv s) {env : Env} {k : Nat} {t : Task}
    {phase : Table → Phase} (ht : s.tasks[k]? = some t)
    (hstep : s.section env k t phase = some s')
    (htells : ∀ jobs, Tells (signalsOf s.signals k).length (phase jobs)) : CountInv s' := by
  unfold Sys.section at hstep
  split at hstep
  · cases hstep
  · obtain rfl := Option.some.inj hstep
    exact h.setPhase ht rfl rfl (htells _)

theorem CountInv.turn {s s' : Sys} (h : CountInv s) {env : Env} {k : Nat} {t : Task}
    (ht : s.tasks[k]? = some t) (hstep : turn s env k t = some s') : CountInv s' := by
  have htells := h.tells k t ht
  unfold ExecKill.turn at hstep
  split at hstep
  · rename_i hphase
    rw [hphase] at htells
    refine h.section ht hstep fun jobs => ?_
    rw [show (signalsOf s.signals k).length = 0 from htells]
    exact tells_checked t.request _
  · rename_i hphase
    rw [hphase] at htells
    refine h.section ht hstep fun jobs => ?_
    rw [show (signalsOf s.signals k).length = 0 from htells]
    exact tells_found t.request jobs
  · rename_i i pid hphase
    rw [hphase] at htells
    obtain rfl := Option.some.inj hstep
    have hnone : (signalsOf s.signals k).length = 0 := htells
    unfold Sys.scan
    split
    · refine h.setPhase ht rfl rfl ?_
      rw [hnone]
      exact tells_signalled t.request false
    · exact h.sent ht hnone (tells_signalled t.request true)
  · rename_i sent waited hphase
    rw [hphase] at htells
    refine h.section ht hstep fun jobs => ?_
    rw [show (signalsOf s.signals k).length = sent.toNat from htells]
    exact tells_polled t.request sent waited _
  · cases hstep
  · cases hstep

theorem CountInv.step {s s' : Sys} {a : Label} (h : CountInv s) (hstep : step s a = some s') :
    CountInv s' := by
  cases step_kind hstep with
  | table hon htable => exact h.same rfl rfl
  | kicked hunused htable => exact h.same rfl rfl
  | entered hp hjob htable => exact h.same rfl rfl
  | appears hunused => exact h.same rfl rfl
  | leaves p => exact h.same rfl rfl
  | refused params => exact h
  | begins hphase =>
    rcases hphase with rfl | ⟨rfl, -⟩
    · exact h.begin rfl
    · exact h.begin rfl
  | turn ht hturn => exact h.turn ht hturn

/-- An answer of `exec.kill` says `sent` just when its call has sent a signal, which
then is the only one and the one that it was asked for. -/
theorem kill_tells_sent {files : Jobs.Files} {as : List Label} {s : Sys}
    (hrun : run step (init files) as = some s) {k : Nat} {r : Request} {result : CJson}
    (ht : s.tasks[k]? = some ⟨r, .done (.ok result)⟩) :
    ∃ sent, result.getItem (ascii "sent") = some (.bool sent) ∧
      (signalsOf s.signals k).length = sent.toNat ∧ ∀ g ∈ signalsOf s.signals k, g.request = r := by
  have hinv : CountInv s :=
    run_invariant_all (fun _ _ _ h hstep => h.step hstep) (init_countInv files) hrun
  obtain ⟨sent, hsent, hcount⟩ := hinv.tells k _ ht
  refine ⟨sent, hsent, hcount, fun g hg => ?_⟩
  obtain ⟨hmem, htask⟩ := List.mem_filter.mp hg
  obtain ⟨t, hgt, hr⟩ := hinv.own g hmem
  rw [of_decide_eq_true htask] at hgt
  obtain rfl := Option.some.inj (hgt.symm.trans ht)
  exact hr.symm

/-- The forced kill, up to its answer. -/
def answeredKill : List Label :=
  forcedKill ++ [.table (.childExit Jobs.sampleTenant 10 0), .turn Jobs.sampleEnv 0]

def Task.result? (t : Task) : Option CJson :=
  match t.phase with
  | .done (.ok result) => some result
  | _ => none

theorem kill_tells_sent_sample : ∃ s result, run step (init fun _ => none) answeredKill = some s ∧
    s.tasks[0]? = some ⟨⟨1, .f, .kill true 2000⟩, .done (.ok result)⟩ ∧
      ∃ sent, result.getItem (ascii "sent") = some (.bool sent) ∧
        (signalsOf s.signals 0).length = sent.toNat := by
  have hdone : (run step (init fun _ => none) answeredKill).any (fun s =>
      s.tasks[0]?.any fun t => t.request = ⟨1, .f, .kill true 2000⟩ && t.result?.isSome) = true := by
    decide +kernel
  cases hrun : run step (init fun _ => none) answeredKill with
  | none => simp [hrun] at hdone
  | some s =>
    rw [hrun, Option.any_some] at hdone
    cases ht : s.tasks[0]? with
    | none => simp [ht] at hdone
    | some t =>
      obtain ⟨r, phase⟩ := t
      rw [ht, Option.any_some, Bool.and_eq_true_iff, decide_eq_true_eq] at hdone
      obtain ⟨hr, hresult⟩ := hdone
      dsimp only at hr
      subst hr
      cases phase with
      | done o =>
        cases o with
        | ok result =>
          obtain ⟨sent, hsent, hcount, -⟩ := kill_tells_sent hrun ht
          exact ⟨s, result, rfl, ht, sent, hsent, hcount⟩
        | error e => cases hresult
      | checking => cases hresult
      | signalling => cases hresult
      | scanning i pid => cases hresult
      | polling sent waited => cases hresult
      | ignored => cases hresult

end AmigaFleet.Mcpd.ExecKill

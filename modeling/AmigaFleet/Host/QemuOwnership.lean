import AmigaFleet.Host.QemuLifecycle
import AmigaFleet.Lib.Keyed
import AmigaFleet.Lib.Run

/-!
# No QEMU child is lost

A child that lives is in the registry under its target, or a start is about to
enter it; otherwise nothing in this process can stop it any more.  That holds as
long as two calls do not work on one target at the same time and no stop is left
by an exception while its child lives.

* `Good` is what is known of a target that no coroutine works on, `Busy` of one
  that a coroutine works on; `Turn` is what a coroutine does with its target.
* `turn_qemuStart`, `turn_pollLoop`, `turn_afterSettle`: one lemma for each piece.
* `children_registered` and `reports_true`: the registry, and what the calls say.
* `children_lost`: two calls on one target, or a call that is cancelled.
-/

namespace AmigaFleet.Host.QemuLifecycle

open AmigaFleet.Lib

/-! ## Targets and their children -/

/-- The child lives. -/
def Fleet.Live (f : Fleet) (t : Target) (p : Pid) : Prop := f.children[p]? = some { target := t }

instance (f : Fleet) (t : Target) (p : Pid) : Decidable (f.Live t p) :=
  inferInstanceAs (Decidable (_ = _))

/-- The child was started for the target. -/
def Fleet.IsChild (f : Fleet) (t : Target) (p : Pid) : Prop :=
  ∃ code, f.children[p]? = some ⟨t, code⟩

def Config.isQemu (cfg : Config) (t : Target) : Prop := (cfg.targets t).any (·.type = .qemu) = true

theorem Fleet.Live.poll {f : Fleet} {t : Target} {p : Pid} (h : f.Live t p) : f.poll p = none := by
  unfold Fleet.poll
  rw [h]
  rfl

theorem Fleet.not_live_of_poll {f : Fleet} {p : Pid} {code : Int} (h : f.poll p = some code)
    (t : Target) : ¬ f.Live t p :=
  fun hlive => by simp [hlive.poll] at h

/-- Whose children these are, and what the registry says of them. -/
structure Good (cfg : Config) (f : Fleet) (t : Target) : Prop where
  kept : ∀ p, f.Live t p → f.processes.get t = some p
  known : ∀ p, f.processes.get t = some p → cfg.isQemu t ∧ f.IsChild t p

/-- The registry does not tell of the target's last child. -/
structure Launch (cfg : Config) (f : Fleet) (t : Target) : Prop where
  qemu : cfg.isQemu t
  known : ∀ p, f.processes.get t = some p → f.IsChild t p

/-- What is known while a coroutine works on the target. -/
def Busy (cfg : Config) (f : Fleet) : Phase → Target → Prop
  | .launching _ _, t => Launch cfg f t ∧ ∀ p, ¬ f.Live t p
  | .launched _ p _, t => Launch cfg f t ∧ f.IsChild t p ∧ ∀ q, f.Live t q → q = p
  | .stray _, _ => False
  | .quitting _ p, t => Good cfg f t ∧ f.processes.get t = some p
  | .polling _ p _ _, t => Good cfg f t ∧ f.processes.get t = some p
  | .stopping _ p _, t => Good cfg f t ∧ f.processes.get t = some p
  | .ending u p _ rest, t =>
    Good cfg f t ∧ (Dict.keys ((u, p) :: rest)).Nodup ∧ ∀ q, f.Live t q → (t, q) ∈ (u, p) :: rest
  | .settling _, t => Good cfg f t
  | .unowned _, t => Good cfg f t ∧ f.processes.get t = none
  | .pausing _, t => Good cfg f t
  | .closing, t => Good cfg f t
  | .done _, t => Good cfg f t

def Phase.worksOn : Phase → Target → Bool
  | .launching u _, t => u = t
  | .launched u _ _, t => u = t
  | .stray u, t => u = t
  | .settling c, t => c.target = t
  | .unowned c, t => c.target = t
  | .quitting c _, t => c.target = t
  | .polling c _ _ _, t => c.target = t
  | .stopping c _ _, t => c.target = t
  | .pausing u, t => u = t
  | .closing, _ => true
  | .ending _ _ _ _, _ => true
  | .done _, _ => false

/-- The report of a coroutine that ends in the step from `f` to `f'`. -/
def Truthful (f f' : Fleet) : Outcome → Prop
  | .started t p => f'.processes.get t = some p ∧ f'.IsChild t p ∧ ∀ q, f'.Live t q → q = p
  | .reset t p => f'.processes.get t = some p ∧ f'.IsChild t p ∧ ∀ q, f'.Live t q → q = p
  | .stopped t _ exitCode =>
    -- the code of the child whose entry goes in this step, and none without an entry
    (∀ q, ¬ f'.Live t q) ∧ f'.processes.get t = none ∧
      exitCode = (f.processes.get t).bind f'.poll
  | .closed => ∀ t q, ¬ f'.Live t q
  | .raised _ => True

/-! ## Careful runs -/

def Phase.isDone : Phase → Bool
  | .done _ => true
  | _ => false

/-- A stop at this `await` may be left by an exception. -/
def Fleet.spares (f : Fleet) : Phase → Bool
  | .launching _ _ => false
  | .launched _ _ _ => false
  | .quitting _ p => (f.poll p).isSome
  | .polling _ p _ _ => (f.poll p).isSome
  | .stopping _ p _ => (f.poll p).isSome
  | _ => true

/-- A child that is killed is gone in time. -/
def Fleet.reaps (f : Fleet) : Phase → Bool
  | .stopping _ p .reaping => (f.poll p).isSome
  | .ending _ p .reaping _ => (f.poll p).isSome
  | _ => true

/-- A signal that cannot be sent finds the child gone. -/
def Fleet.signalled (f : Fleet) : Phase → Bool
  | .stopping _ p _ => (f.poll p).isSome
  | .ending _ p .killing _ => (f.poll p).isSome
  | _ => true

/-- The label does not make the coroutine give up a child that lives. -/
def Fleet.allows (f : Fleet) (ph : Phase) : Label → Bool
  | .quits _ .raises => f.spares ph
  | .signals _ false => f.signalled ph
  | .waits _ false => f.reaps ph
  | .cancel _ => f.spares ph
  | _ => true

/-- One call works on a target at a time, and none gives up a child that lives. -/
def Careful (s : Sys) (a : Label) : Prop :=
  match a with
  | .start t _ => ∀ ph ∈ s.tasks, ph.worksOn t = false
  | .stop t _ => ∀ ph ∈ s.tasks, ph.worksOn t = false
  | .reset t => ∀ ph ∈ s.tasks, ph.worksOn t = false
  | .close => ∀ ph ∈ s.tasks, ph.isDone = true
  | a => (a.task?.bind fun i => s.tasks[i]?).all (s.fleet.allows · a) = true

instance (s : Sys) (a : Label) : Decidable (Careful s a) :=
  match a with
  | .start t _ | .stop t _ | .reset t =>
    inferInstanceAs (Decidable (∀ ph ∈ s.tasks, ph.worksOn t = false))
  | .close => inferInstanceAs (Decidable (∀ ph ∈ s.tasks, ph.isDone = true))
  | .exits _ _ | .popen _ _ | .registers _ | .awakes _ _ | .settled _ _ _ | .quits _ _ | .polls _
  | .signals _ _ | .waits _ _ | .transportsClosed _ _ | .cancel _ =>
    inferInstanceAs (Decidable (_ = true))

/-! ## The turn of a coroutine -/

/-- What the coroutine leaves of its target `t`, and of the others. -/
structure Turn (cfg : Config) (t : Target) (f f' : Fleet) (ph : Phase) : Prop where
  live : ∀ k, k ≠ t → ∀ p, f'.Live k p → f.Live k p
  get : ∀ k, k ≠ t → f'.processes.get k = f.processes.get k
  child : ∀ k p, f.IsChild k p → f'.IsChild k p
  works : ∀ k, ph.worksOn k = true → k = t
  busy : Busy cfg f' ph t
  told : ∀ o, ph = .done o → Truthful f f' o

/-- The fleet is as before. -/
theorem Turn.stay {cfg : Config} {t : Target} {f : Fleet} {ph : Phase}
    (hworks : ∀ k, ph.worksOn k = true → k = t) (hbusy : Busy cfg f ph t)
    (htold : ∀ o, ph = .done o → Truthful f f o) : Turn cfg t f f ph :=
  ⟨fun _ _ _ h => h, fun _ _ => rfl, fun _ _ h => h, hworks, hbusy, htold⟩

/-- A call that is left by an exception. -/
theorem turn_raised {cfg : Config} {t : Target} {f : Fleet} (h : Good cfg f t) (e : Exn) :
    Turn cfg t f f (.done (.raised e)) :=
  Turn.stay (fun _ hk => by cases hk) h fun o ho => by
    cases ho
    trivial

theorem Fleet.get_drop_self (f : Fleet) (t : Target) : (f.drop t).processes.get t = none := by
  rw [Fleet.drop, Registry.get_pop, if_pos rfl]

theorem good_drop {cfg : Config} {t : Target} {f : Fleet} (hnone : ∀ p, ¬ f.Live t p) :
    Good cfg (f.drop t) t := by
  refine ⟨fun p hp => absurd hp (hnone p), fun p hp => ?_⟩
  rw [f.get_drop_self t] at hp
  cases hp

/-- The process of the target is dropped, when no child of it lives. -/
theorem Turn.drop {cfg : Config} {t : Target} {f : Fleet} {ph : Phase} (hnone : ∀ p, ¬ f.Live t p)
    (hworks : ∀ k, ph.worksOn k = true → k = t)
    (hbusy : Good cfg (f.drop t) t → Busy cfg (f.drop t) ph t)
    (htold : ∀ o, ph = .done o → Truthful f (f.drop t) o) : Turn cfg t f (f.drop t) ph where
  live _ _ _ h := h
  get k hk := by
    rw [Fleet.drop, Registry.get_pop, if_neg (Ne.symm hk)]
  child _ _ h := h
  works := hworks
  busy := hbusy (good_drop hnone)
  told := htold

/-- A child of a target that has exited was the last one. -/
theorem Good.none_live {cfg : Config} {t : Target} {f : Fleet} {p : Pid} (h : Good cfg f t)
    (hget : f.processes.get t = some p) (hexited : (f.poll p).isSome = true) (q : Pid) :
    ¬ f.Live t q := by
  intro hq
  obtain rfl : p = q := Option.some.inj (hget.symm.trans (h.kept q hq))
  simp [hq.poll] at hexited

theorem works_returns (c : StopCall) (method : Method) (exitCode : Option Int) (k : Target)
    (h : (c.returns method exitCode).worksOn k = true) : k = c.target := by
  unfold StopCall.returns at h
  split at h
  · exact (of_decide_eq_true h).symm
  · cases h

theorem busy_returns {cfg : Config} {f : Fleet} (c : StopCall) (method : Method)
    (exitCode : Option Int) (h : Good cfg f c.target) :
    Busy cfg f (c.returns method exitCode) c.target := by
  unfold StopCall.returns
  split <;> exact h

theorem told_returns {f f' : Fleet} {c : StopCall} {method : Method} {exitCode : Option Int}
    (h : Truthful f f' (.stopped c.target method exitCode)) (o : Outcome)
    (ho : c.returns method exitCode = .done o) : Truthful f f' o := by
  unfold StopCall.returns at ho
  split at ho
  · cases ho
  · cases ho
    exact h

/-- A stop returns, its child has exited. -/
theorem turn_exited {cfg : Config} {f : Fleet} {c : StopCall} {p : Pid} {code : Int}
    (h : Good cfg f c.target) (hget : f.processes.get c.target = some p)
    (hpoll : f.poll p = some code) (method : Method) :
    Turn cfg c.target f (f.drop c.target) (c.returns method (some code)) := by
  have hnone := h.none_live hget (by rw [hpoll]; rfl)
  refine Turn.drop hnone (works_returns c method _) (busy_returns c method _) (told_returns ?_)
  refine ⟨hnone, f.get_drop_self c.target, ?_⟩
  rw [hget, Option.bind_some]
  exact hpoll.symm

/-- A stop is left by an exception, its child has exited. -/
theorem turn_stopRaises {cfg : Config} {f : Fleet} {t : Target} {p : Pid} (h : Good cfg f t)
    (hget : f.processes.get t = some p) (hexited : (f.poll p).isSome = true) (e : Exn) :
    Turn cfg t f (stopRaises f t e).1 (stopRaises f t e).2 :=
  Turn.drop (h.none_live hget hexited) (fun _ hk => by cases hk) (fun hgood => hgood) fun o ho => by
    cases ho
    trivial

theorem worksOn_self {t k : Target} (h : decide (t = k) = true) : k = t :=
  (of_decide_eq_true h).symm

/-! ## The pieces between the awaits -/

theorem Good.launch {cfg : Config} {f : Fleet} {t : Target} (h : Good cfg f t)
    (hqemu : cfg.isQemu t) : Launch cfg f t :=
  ⟨hqemu, fun p hp => (h.known p hp).2⟩

/-- A start passes its tests only when no child of the target lives. -/
theorem Good.none_running {cfg : Config} {f : Fleet} {t : Target} (h : Good cfg f t)
    (hrunning : f.running t = none) (p : Pid) : ¬ f.Live t p := by
  intro hp
  unfold Fleet.running at hrunning
  rw [h.kept p hp] at hrunning
  simp [Option.filter, hp.poll] at hrunning

theorem turn_qemuStart {cfg : Config} {f : Fleet} {t : Target} (h : Good cfg f t) (env : StartEnv)
    (reset : Bool) : Turn cfg t f f (qemuStart cfg f t env reset) := by
  unfold qemuStart
  cases htarget : cfg.targets t with
  | none => exact turn_raised h _
  | some c =>
    dsimp only
    by_cases htype : c.type = .qemu
    · rw [if_neg (not_not.mpr htype)]
      have hqemu : cfg.isQemu t := by simp [Config.isQemu, htarget, htype]
      by_cases hconfig : c.qemuConfig = false
      · rw [if_pos hconfig]
        exact turn_raised h _
      rw [if_neg hconfig]
      by_cases hbinary : cfg.qemuBinary = false
      · rw [if_pos hbinary]
        exact turn_raised h _
      rw [if_neg hbinary]
      cases hrunning : f.running t with
      | some p => exact turn_raised h _
      | none =>
        dsimp only
        split
        · exact turn_raised h _
        · exact turn_raised h _
        · cases env.prepared with
          | false => exact turn_raised h _
          | true =>
            exact Turn.stay (fun k hk => worksOn_self hk)
              ⟨h.launch hqemu, h.none_running hrunning⟩ nofun
    · rw [if_pos htype]
      exact turn_raised h _

theorem turn_pollLoop {cfg : Config} {f : Fleet} {c : StopCall} {p : Pid} (h : Good cfg f c.target)
    (hget : f.processes.get c.target = some p) (method : Method) (left : Nat) :
    Turn cfg c.target f (pollLoop f c p method left).1 (pollLoop f c p method left).2 := by
  cases left with
  | zero => exact Turn.stay (fun k hk => worksOn_self hk) ⟨h, hget⟩ nofun
  | succ left =>
    unfold pollLoop
    cases hpoll : f.poll p with
    | some code => exact turn_exited h hget hpoll method
    | none => exact Turn.stay (fun k hk => worksOn_self hk) ⟨h, hget⟩ nofun

/-- A stop returns where the registry has nothing. -/
theorem turn_unregistered {cfg : Config} {f : Fleet} {c : StopCall} (h : Good cfg f c.target)
    (hget : f.processes.get c.target = none) (method : Method) :
    Turn cfg c.target f f (c.returns method none) :=
  Turn.stay (works_returns c method none) (busy_returns c method none h)
    (told_returns ⟨fun q hq => by simp [h.kept q hq] at hget, hget, by rw [hget]; rfl⟩)

/-- `_stop_unowned` is reached only where the registry has nothing. -/
theorem turn_stopUnowned {cfg : Config} {f : Fleet} {c : StopCall} (h : Good cfg f c.target)
    (hget : f.processes.get c.target = none) (ports : Ports) :
    Turn cfg c.target f f (stopUnowned cfg ports c) := by
  unfold stopUnowned
  split
  · exact turn_raised h _
  · split
    · split
      · exact Turn.stay (fun k hk => worksOn_self hk) ⟨h, hget⟩ nofun
      · exact turn_raised h _
    · split
      · exact turn_raised h _
      · exact turn_unregistered h hget _

theorem turn_stopOwned {cfg : Config} {f : Fleet} {c : StopCall} {p : Pid} (h : Good cfg f c.target)
    (hget : f.processes.get c.target = some p) :
    Turn cfg c.target f (stopOwned cfg f c p).1 (stopOwned cfg f c p).2 := by
  -- only targets of the type `qemu` are in the registry
  have hqemu := (h.known p hget).1
  unfold stopOwned
  cases htarget : cfg.targets c.target with
  | none => simp [Config.isQemu, htarget] at hqemu
  | some tc =>
    have htype : tc.type = .qemu := by simpa [Config.isQemu, htarget] using hqemu
    dsimp only
    rw [if_pos htype]
    split
    · exact Turn.stay (fun k hk => worksOn_self hk) ⟨h, hget⟩ nofun
    · exact turn_pollLoop h hget .terminate c.polls

theorem turn_afterSettle {cfg : Config} {f : Fleet} {c : StopCall} (h : Good cfg f c.target)
    (ports : Ports) :
    Turn cfg c.target f (afterSettle cfg f ports c).1 (afterSettle cfg f ports c).2 := by
  unfold afterSettle
  cases hget : f.processes.get c.target with
  | none => exact turn_stopUnowned h hget ports
  | some p =>
    dsimp only
    cases hpoll : f.poll p with
    | some code => exact turn_exited h hget hpoll .alreadyStopped
    | none => exact turn_stopOwned h hget

/-! ## One label of a coroutine -/

section Resume

variable {cfg : Config} {f f' : Fleet} {ph' : Phase} {a : Label}

/-- `Popen` has made the child, or has raised. -/
theorem turn_spawn {t : Target} (reset : Bool) (hlaunch : Launch cfg f t)
    (hnone : ∀ p, ¬ f.Live t p) :
    Turn cfg t f (f.spawn t) (.launched t f.children.length reset) := by
  have hchild : ∀ k p, f.IsChild k p → (f.spawn t).IsChild k p := by
    intro k p ⟨code, hcode⟩
    refine ⟨code, ?_⟩
    rw [Fleet.spawn, List.getElem?_append_left (List.getElem?_eq_some_iff.mp hcode).1, hcode]
  have hlive : ∀ k p, (f.spawn t).Live k p → f.Live k p ∨ k = t ∧ p = f.children.length := by
    intro k p hp
    rcases Keyed.getElem?_snoc_cases hp with hold | ⟨rfl, hnew⟩
    · exact .inl hold
    · exact .inr ⟨congrArg Child.target hnew, rfl⟩
  refine ⟨fun k hk p hp => ?_, fun _ _ => rfl, hchild, fun k hk => worksOn_self hk,
    ⟨⟨hlaunch.qemu, fun p hp => hchild t p (hlaunch.known p hp)⟩, ⟨none, ?_⟩, fun q hq => ?_⟩, nofun⟩
  · exact (hlive k p hp).resolve_right fun h => hk h.1
  · simp [Fleet.spawn]
  · exact ((hlive t q hq).resolve_left (hnone q)).2

/-- The start enters its child into the registry. -/
theorem turn_register {t : Target} {p : Pid} (reset : Bool) (hlaunch : Launch cfg f t)
    (hchild : f.IsChild t p) (honly : ∀ q, f.Live t q → q = p) :
    Turn cfg t f (f.register t p) (startReturns t p reset) := by
  have hget : (f.register t p).processes.get t = some p := by
    rw [Fleet.register, Registry.get_set, if_pos rfl]
  have hgood : Good cfg (f.register t p) t := by
    refine ⟨fun q hq => honly q hq ▸ hget, fun q hq => ⟨hlaunch.qemu, ?_⟩⟩
    obtain rfl := Option.some.inj (hget.symm.trans hq)
    exact hchild
  refine ⟨fun _ _ _ h => h, fun k hk => ?_, fun _ _ h => h, fun k hk => ?_, hgood, fun o ho => ?_⟩
  · rw [Fleet.register, Registry.get_set, if_neg (Ne.symm hk)]
  · cases hk
  · cases ho
    cases reset <;> exact ⟨hget, hchild, honly⟩

theorem turn_launching {t : Target} {reset : Bool}
    (hresume : resume cfg f (.launching t reset) a = some (f', ph'))
    (hok : f.allows (.launching t reset) a = true) (hbusy : Busy cfg f (.launching t reset) t) :
    Turn cfg t f f' ph' := by
  obtain ⟨hlaunch, hnone⟩ := hbusy
  have hgood : Good cfg f t :=
    ⟨fun p hp => absurd hp (hnone p), fun p hp => ⟨hlaunch.qemu, hlaunch.known p hp⟩⟩
  cases a with
  | popen i ok =>
    cases ok with
    | true =>
      cases hresume
      exact turn_spawn reset hlaunch hnone
    | false =>
      cases hresume
      exact turn_raised hgood .system
  | cancel i => cases hok
  | _ => cases hresume

theorem turn_launched {t : Target} {p : Pid} {reset : Bool}
    (hresume : resume cfg f (.launched t p reset) a = some (f', ph'))
    (hok : f.allows (.launched t p reset) a = true) (hbusy : Busy cfg f (.launched t p reset) t) :
    Turn cfg t f f' ph' := by
  cases a with
  | registers i =>
    cases hresume
    exact turn_register reset hbusy.1 hbusy.2.1 hbusy.2.2
  | cancel i => cases hok
  | _ => cases hresume

theorem turn_settling {c : StopCall} (hresume : resume cfg f (.settling c) a = some (f', ph'))
    (hbusy : Good cfg f c.target) : Turn cfg c.target f f' ph' := by
  cases a with
  | settled i ok ports =>
    cases ok with
    | true =>
      obtain ⟨rfl, rfl⟩ := Prod.mk.inj (Option.some.inj hresume)
      exact turn_afterSettle hbusy ports
    | false =>
      cases hresume
      exact turn_raised hbusy .system
  | cancel i =>
    cases hresume
    exact turn_raised hbusy .cancelled
  | _ => cases hresume

theorem turn_unowned {c : StopCall} (hresume : resume cfg f (.unowned c) a = some (f', ph'))
    (hbusy : Busy cfg f (.unowned c) c.target) : Turn cfg c.target f f' ph' := by
  obtain ⟨hgood, hget⟩ := hbusy
  cases a with
  | quits i how =>
    cases hresume
    cases how with
    | returns => exact turn_unregistered hgood hget .qmpUnowned
    | fails reason => exact turn_raised hgood _
    | raises => exact turn_raised hgood .system
  | cancel i =>
    cases hresume
    exact turn_raised hgood .cancelled
  | _ => cases hresume

theorem turn_quitting {c : StopCall} {p : Pid}
    (hresume : resume cfg f (.quitting c p) a = some (f', ph'))
    (hok : f.allows (.quitting c p) a = true) (hbusy : Busy cfg f (.quitting c p) c.target) :
    Turn cfg c.target f f' ph' := by
  obtain ⟨hgood, hget⟩ := hbusy
  cases a with
  | quits i how =>
    obtain ⟨rfl, rfl⟩ := Prod.mk.inj (Option.some.inj hresume)
    cases how with
    | returns => exact turn_pollLoop hgood hget .qmp c.polls
    | fails reason => exact turn_pollLoop hgood hget .terminate c.polls
    | raises => exact turn_stopRaises hgood hget hok .system
  | cancel i =>
    cases hresume
    exact turn_stopRaises hgood hget hok .cancelled
  | _ => cases hresume

theorem turn_polling {c : StopCall} {p : Pid} {left : Nat} {method : Method}
    (hresume : resume cfg f (.polling c p left method) a = some (f', ph'))
    (hok : f.allows (.polling c p left method) a = true)
    (hbusy : Busy cfg f (.polling c p left method) c.target) : Turn cfg c.target f f' ph' := by
  obtain ⟨hgood, hget⟩ := hbusy
  cases a with
  | polls i =>
    obtain ⟨rfl, rfl⟩ := Prod.mk.inj (Option.some.inj hresume)
    exact turn_pollLoop hgood hget method left
  | cancel i =>
    cases hresume
    exact turn_stopRaises hgood hget hok .cancelled
  | _ => cases hresume

/-- `proc.wait` has returned. -/
theorem turn_waited {c : StopCall} {p : Pid} {method : Method} (hgood : Good cfg f c.target)
    (hget : f.processes.get c.target = some p)
    (hmap : (f.poll p).map (fun code => (f.drop c.target, c.returns method (some code))) =
      some (f', ph')) : Turn cfg c.target f f' ph' := by
  obtain ⟨code, hpoll, heq⟩ := Option.map_eq_some_iff.mp hmap
  cases heq
  exact turn_exited hgood hget hpoll method

theorem turn_stopping {c : StopCall} {p : Pid} {e : Ending}
    (hresume : resume cfg f (.stopping c p e) a = some (f', ph'))
    (hok : f.allows (.stopping c p e) a = true) (hbusy : Busy cfg f (.stopping c p e) c.target) :
    Turn cfg c.target f f' ph' := by
  obtain ⟨hgood, hget⟩ := hbusy
  have hstays : ∀ e', Turn cfg c.target f f (.stopping c p e') :=
    fun e' => Turn.stay (fun k hk => worksOn_self hk) ⟨hgood, hget⟩ nofun
  cases a with
  | signals i ok =>
    cases ok with
    | true => cases e <;> cases hresume <;> exact hstays _
    | false => cases e <;> cases hresume <;> exact turn_stopRaises hgood hget hok .system
  | waits i ok =>
    cases ok with
    | true =>
      cases e with
      | waiting => exact turn_waited hgood hget hresume
      | reaping => exact turn_waited hgood hget hresume
      | _ => cases hresume
    | false =>
      cases e with
      | waiting =>
        cases hresume
        exact hstays .killing
      | reaping =>
        cases hresume
        exact turn_stopRaises hgood hget hok .timeoutExpired
      | _ => cases hresume
  | cancel i =>
    cases hresume
    exact turn_stopRaises hgood hget hok .cancelled
  | _ => cases hresume

theorem turn_pausing {t : Target} (hresume : resume cfg f (.pausing t) a = some (f', ph'))
    (hbusy : Good cfg f t) : Turn cfg t f f' ph' := by
  cases a with
  | awakes i env =>
    cases hresume
    exact turn_qemuStart hbusy env true
  | cancel i =>
    cases hresume
    exact turn_raised hbusy .cancelled
  | _ => cases hresume

end Resume

/-! ## close_all -/

section Close

variable {cfg : Config} {f f' : Fleet} {ph' : Phase} {a : Label}

/-- What `close_all` leaves of all targets. -/
structure Closes (cfg : Config) (f : Fleet) (ph : Phase) : Prop where
  works : ph.isDone = true ∨ ∀ t, ph.worksOn t = true
  busy : ∀ t, Busy cfg f ph t
  told : ∀ o, ph = .done o → ∀ f₀, Truthful f₀ f o

theorem closes_raised (h : ∀ t, Good cfg f t) (e : Exn) : Closes cfg f (.done (.raised e)) :=
  ⟨.inl rfl, h, fun o ho f₀ => by
    cases ho
    trivial⟩

/-- The loop passes over children that have exited. -/
theorem closes_next (h : ∀ t, Good cfg f t) {entries : List (Target × Pid)}
    (hnodup : (Dict.keys entries).Nodup) (hcover : ∀ t q, f.Live t q → (t, q) ∈ entries) :
    Closes cfg f (closeNext f entries) := by
  induction entries with
  | nil =>
    refine ⟨.inl rfl, h, fun o ho f₀ => ?_⟩
    cases ho
    exact fun t q hq => absurd (hcover t q hq) List.not_mem_nil
  | cons entry rest ih =>
    obtain ⟨u, p⟩ := entry
    unfold closeNext
    cases hpoll : f.poll p with
    | none => exact ⟨.inr fun _ => rfl, fun t => ⟨h t, hnodup, hcover t⟩, nofun⟩
    | some code =>
      refine ih (List.nodup_cons.mp hnodup).2 fun t q hq => ?_
      rcases List.mem_cons.mp (hcover t q hq) with heq | hrest
      · cases heq
        exact absurd hq (Fleet.not_live_of_poll hpoll _)
      · exact hrest

/-- The child of the first entry has exited, and the entry goes. -/
theorem closes_pops {u : Target} {p : Pid} {rest : List (Target × Pid)} (h : ∀ t, Good cfg f t)
    (hnodup : (Dict.keys ((u, p) :: rest)).Nodup)
    (hcover : ∀ t q, f.Live t q → (t, q) ∈ (u, p) :: rest) (hexited : (f.poll p).isSome = true) :
    Closes cfg (closePops f u rest).1 (closePops f u rest).2 := by
  have hrest : ∀ t q, f.Live t q → (t, q) ∈ rest := by
    intro t q hq
    refine (List.mem_cons.mp (hcover t q hq)).resolve_left fun heq => ?_
    cases heq
    simp [hq.poll] at hexited
  have hnone : ∀ q, ¬ f.Live u q := fun q hq =>
    (List.nodup_cons.mp hnodup).1 (List.mem_map.mpr ⟨(u, q), hrest u q hq, rfl⟩)
  refine closes_next (fun t => ?_) (List.nodup_cons.mp hnodup).2 hrest
  by_cases htu : t = u
  · subst htu
    exact good_drop hnone
  · have hget : (f.drop u).processes.get t = f.processes.get t := by
      rw [Fleet.drop, Registry.get_pop, if_neg (Ne.symm htu)]
    exact ⟨fun q hq => hget.trans ((h t).kept q hq), fun q hq => (h t).known q (hget.symm.trans hq)⟩

theorem closes_closing (hresume : resume cfg f .closing a = some (f', ph'))
    (hbusy : ∀ t, Good cfg f t) : Closes cfg f' ph' := by
  cases a with
  | transportsClosed i ok =>
    cases ok with
    | true =>
      cases hresume
      exact closes_next hbusy f.processes.nodup fun t q hq =>
        Registry.mem_of_get ((hbusy t).kept q hq)
    | false =>
      cases hresume
      exact closes_raised hbusy .system
  | cancel i =>
    cases hresume
    exact closes_raised hbusy .cancelled
  | _ => cases hresume

theorem closes_ending {u : Target} {p : Pid} {e : Ending} {rest : List (Target × Pid)}
    (hresume : resume cfg f (.ending u p e rest) a = some (f', ph'))
    (hok : f.allows (.ending u p e rest) a = true)
    (hbusy : ∀ t, Busy cfg f (.ending u p e rest) t) : Closes cfg f' ph' := by
  have hgood : ∀ t, Good cfg f t := fun t => (hbusy t).1
  have hnodup := (hbusy u).2.1
  have hcover : ∀ t q, f.Live t q → (t, q) ∈ (u, p) :: rest := fun t => (hbusy t).2.2
  have hstays : ∀ e', Closes cfg f (.ending u p e' rest) :=
    fun e' => ⟨.inr fun _ => rfl, fun t => ⟨hgood t, hnodup, hcover t⟩, nofun⟩
  have hwaited : (f.poll p).map (fun _ => closePops f u rest) = some (f', ph') →
      Closes cfg f' ph' := by
    intro hmap
    obtain ⟨code, hpoll, heq⟩ := Option.map_eq_some_iff.mp hmap
    cases heq
    exact closes_pops hgood hnodup hcover (by rw [hpoll]; rfl)
  cases a with
  | signals i ok =>
    cases e with
    | terminating =>
      cases hresume
      exact hstays .waiting
    | killing =>
      cases ok with
      | true =>
        cases hresume
        exact hstays .reaping
      | false =>
        cases hresume
        exact closes_pops hgood hnodup hcover hok
    | _ => cases hresume
  | waits i ok =>
    cases ok with
    | true =>
      cases e with
      | waiting => exact hwaited hresume
      | reaping => exact hwaited hresume
      | _ => cases hresume
    | false =>
      cases e with
      | waiting =>
        cases hresume
        exact hstays .killing
      | reaping =>
        cases hresume
        exact closes_pops hgood hnodup hcover hok
      | _ => cases hresume
  | cancel i =>
    cases hresume
    exact closes_raised hgood .cancelled
  | _ => cases hresume

end Close

/-! ## Runs -/

/-- The invariant: each target is known as `Good`, or as its coroutine knows it. -/
def Inv (cfg : Config) (s : Sys) : Prop :=
  Keyed (fun ph t => ph.worksOn t = true) (Good cfg) (Busy cfg) s.fleet s.tasks

theorem inv_boot (cfg : Config) : Inv cfg boot :=
  Keyed.nil fun _ => ⟨fun _ hp => by simp [Fleet.Live, boot] at hp, fun _ hp => by cases hp⟩

/-- A target that the fleet has not touched. -/
theorem keepsKey {cfg : Config} {f f' : Fleet} {k : Target} (hlive : ∀ p, f'.Live k p → f.Live k p)
    (hget : f'.processes.get k = f.processes.get k)
    (hchild : ∀ p, f.IsChild k p → f'.IsChild k p) : KeepsKey (Good cfg) (Busy cfg) f f' k := by
  have hgood : Good cfg f k → Good cfg f' k := fun h =>
    ⟨fun p hp => hget.trans (h.kept p (hlive p hp)), fun p hp =>
      have hknown := h.known p (hget.symm.trans hp)
      ⟨hknown.1, hchild p hknown.2⟩⟩
  have hlaunch : Launch cfg f k → Launch cfg f' k := fun h =>
    ⟨h.qemu, fun p hp => hchild p (h.known p (hget.symm.trans hp))⟩
  refine ⟨hgood, fun ph h => ?_⟩
  cases ph with
  | launching t reset => exact ⟨hlaunch h.1, fun p hp => h.2 p (hlive p hp)⟩
  | launched t p reset => exact ⟨hlaunch h.1, hchild p h.2.1, fun q hq => h.2.2 q (hlive q hq)⟩
  | stray t => exact h
  | settling c => exact hgood h
  | unowned c => exact ⟨hgood h.1, hget.trans h.2⟩
  | quitting c p => exact ⟨hgood h.1, hget.trans h.2⟩
  | polling c p left method => exact ⟨hgood h.1, hget.trans h.2⟩
  | stopping c p e => exact ⟨hgood h.1, hget.trans h.2⟩
  | pausing t => exact hgood h
  | closing => exact hgood h
  | ending u p e rest => exact ⟨hgood h.1, h.2.1, fun q hq => h.2.2 q (hlive q hq)⟩
  | done o => exact hgood h

theorem Turn.keepsKey {cfg : Config} {t k : Target} {f f' : Fleet} {ph : Phase}
    (h : Turn cfg t f f' ph) (hk : k ≠ t) : KeepsKey (Good cfg) (Busy cfg) f f' k :=
  QemuLifecycle.keepsKey (h.live k hk) (h.get k hk) (h.child k)

theorem Phase.done_or_works (ph : Phase) : (∃ o, ph = .done o) ∨ ∃ t, ph.worksOn t = true := by
  cases ph with
  | done o => exact .inl ⟨o, rfl⟩
  | closing => exact .inr ⟨[], rfl⟩
  | ending t p e rest => exact .inr ⟨t, rfl⟩
  | launching t reset => exact .inr ⟨t, decide_eq_true rfl⟩
  | launched t p reset => exact .inr ⟨t, decide_eq_true rfl⟩
  | stray t => exact .inr ⟨t, decide_eq_true rfl⟩
  | pausing t => exact .inr ⟨t, decide_eq_true rfl⟩
  | settling c => exact .inr ⟨c.target, decide_eq_true rfl⟩
  | unowned c => exact .inr ⟨c.target, decide_eq_true rfl⟩
  | quitting c p => exact .inr ⟨c.target, decide_eq_true rfl⟩
  | polling c p left method => exact .inr ⟨c.target, decide_eq_true rfl⟩
  | stopping c p e => exact .inr ⟨c.target, decide_eq_true rfl⟩

/-- A coroutine that no longer works on its target. -/
theorem Turn.good {cfg : Config} {t : Target} {f f' : Fleet} {ph : Phase}
    (h : Turn cfg t f f' ph) (hdone : ¬ ph.worksOn t = true) : Good cfg f' t := by
  rcases ph.done_or_works with ⟨o, rfl⟩ | ⟨k, hk⟩
  · exact h.busy
  · exact absurd (h.works k hk ▸ hk) hdone

theorem Inv.turn {cfg : Config} {s : Sys} {i : Nat} {ph ph' : Phase} {f' : Fleet} {t : Target}
    (h : Inv cfg s) (hph : s.tasks[i]? = some ph) (hone : ∀ k, ph.worksOn k = true ↔ k = t)
    (hturn : Turn cfg t s.fleet f' ph') : Inv cfg ⟨f', s.tasks.set i ph'⟩ :=
  Keyed.move h hph (fun k hk => (hone k).mpr (hturn.works k hk))
    (fun k hk => hturn.keepsKey fun heq => hk ((hone k).mpr heq))
    (fun k hk _ => hturn.works k hk ▸ hturn.busy)
    (fun k hk hdone _ => by
      obtain rfl := (hone k).mp hk
      exact hturn.good hdone)

theorem Inv.closes {cfg : Config} {s : Sys} {i : Nat} {ph ph' : Phase} {f' : Fleet}
    (h : Inv cfg s) (hph : s.tasks[i]? = some ph) (hall : ∀ k, ph.worksOn k = true)
    (hcloses : Closes cfg f' ph') : Inv cfg ⟨f', s.tasks.set i ph'⟩ := by
  refine Keyed.move h hph (fun k _ => hall k) (fun k hk => absurd (hall k) hk)
    (fun k _ _ => hcloses.busy k) fun k _ hidle _ => ?_
  have hbusy := hcloses.busy k
  rcases hcloses.works with hdone | hworks
  · cases ph' with
    | done o => exact hbusy
    | _ => cases hdone
  · exact absurd (hworks k) hidle

/-- A coroutine that works on `t` only goes on. -/
theorem Inv.resume {cfg : Config} {s : Sys} {i : Nat} {ph ph' : Phase} {f' : Fleet} {a : Label}
    (h : Inv cfg s) (hph : s.tasks[i]? = some ph) (hok : s.fleet.allows ph a = true)
    (hresume : resume cfg s.fleet ph a = some (f', ph')) :
    Inv cfg ⟨f', s.tasks.set i ph'⟩ ∧ ∀ o, ph' = .done o → Truthful s.fleet f' o := by
  have hbusy := h.busy ph (List.mem_of_getElem? hph)
  have hone : ∀ {t : Target} (k : Target), decide (t = k) = true ↔ k = t := by
    intro t k
    rw [decide_eq_true_iff, eq_comm]
  have hsingle : ∀ {t : Target}, (∀ k, ph.worksOn k = true ↔ k = t) → Turn cfg t s.fleet f' ph' →
      Inv cfg ⟨f', s.tasks.set i ph'⟩ ∧ ∀ o, ph' = .done o → Truthful s.fleet f' o :=
    fun ht hturn => ⟨h.turn hph ht hturn, hturn.told⟩
  have hclose : (∀ k, ph.worksOn k = true) → Closes cfg f' ph' →
      Inv cfg ⟨f', s.tasks.set i ph'⟩ ∧ ∀ o, ph' = .done o → Truthful s.fleet f' o :=
    fun hall hcloses => ⟨h.closes hph hall hcloses, fun o ho => hcloses.told o ho s.fleet⟩
  cases ph with
  | launching t reset => exact hsingle hone (turn_launching hresume hok (hbusy t (decide_eq_true rfl)))
  | launched t p reset => exact hsingle hone (turn_launched hresume hok (hbusy t (decide_eq_true rfl)))
  | stray t => exact (hbusy t (decide_eq_true rfl)).elim
  | settling c => exact hsingle hone (turn_settling hresume (hbusy _ (decide_eq_true rfl)))
  | unowned c => exact hsingle hone (turn_unowned hresume (hbusy _ (decide_eq_true rfl)))
  | quitting c p => exact hsingle hone (turn_quitting hresume hok (hbusy _ (decide_eq_true rfl)))
  | polling c p left method =>
    exact hsingle hone (turn_polling hresume hok (hbusy _ (decide_eq_true rfl)))
  | stopping c p e => exact hsingle hone (turn_stopping hresume hok (hbusy _ (decide_eq_true rfl)))
  | pausing t => exact hsingle hone (turn_pausing hresume (hbusy t (decide_eq_true rfl)))
  | closing => exact hclose (fun _ => rfl) (closes_closing hresume fun t => hbusy t rfl)
  | ending u p e rest =>
    exact hclose (fun _ => rfl) (closes_ending hresume hok fun t => hbusy t rfl)
  | done o => cases a <;> cases hresume

/-- A new call, on a target that none works on. -/
theorem Inv.begin {cfg : Config} {s : Sys} {ph : Phase} {t : Target} (h : Inv cfg s)
    (hfree : ∀ b ∈ s.tasks, b.worksOn t = false) (hworks : ∀ k, ph.worksOn k = true → k = t)
    (hbusy : Good cfg s.fleet t → Busy cfg s.fleet ph t) : Inv cfg (s.begin ph) :=
  Keyed.start h (fun b hb k hbk hk => by simp [hworks k hk, hfree b hb] at hbk)
    (fun _ _ => ⟨fun hgood => hgood, fun _ hb => hb⟩)
    (fun k hk hgood => by
      obtain rfl := hworks k hk
      exact hbusy hgood)

theorem Inv.rest {cfg : Config} {s : Sys} {t : Target} (h : Inv cfg s)
    (hfree : ∀ b ∈ s.tasks, b.worksOn t = false) : Good cfg s.fleet t :=
  Keyed.rest h t fun b hb => by simp [hfree b hb]

/-- A child exits. -/
theorem Inv.exits {cfg : Config} {s : Sys} (h : Inv cfg s) {p : Pid} {code : Int} :
    Inv cfg { s with fleet := s.fleet.exits p code } := by
  have hget : ∀ q, (s.fleet.exits p code).children[q]? =
      (s.fleet.children[q]?).map fun c => if p = q then { c with exitCode := some code } else c := by
    intro q
    rw [Fleet.exits, List.getElem?_modify]
    rfl
  refine Keyed.change h fun k => keepsKey (fun q hq => ?_) rfl fun q hq => ?_
  · unfold Fleet.Live at hq
    rw [hget, Option.map_eq_some_iff] at hq
    obtain ⟨c, hc, hcq⟩ := hq
    split at hcq
    · cases hcq
    · exact hc.trans (congrArg some hcq)
  · obtain ⟨old, hold⟩ := hq
    unfold Fleet.IsChild
    rw [hget, hold]
    by_cases hpq : p = q
    · exact ⟨some code, by simp [hpq]⟩
    · exact ⟨old, by simp [hpq]⟩

/-- A coroutine has ended in this step. -/
def Ends (s s' : Sys) (i : Nat) (o : Outcome) : Prop :=
  s'.tasks[i]? = some (.done o) ∧ s.tasks[i]? ≠ some (.done o)

theorem ends_begin {s : Sys} {ph : Phase} {i : Nat} {o : Outcome} (h : Ends s (s.begin ph) i o) :
    ph = .done o := by
  rcases Keyed.getElem?_snoc_cases h.1 with hold | ⟨-, hnew⟩
  · exact absurd hold h.2
  · exact hnew.symm

theorem step_resume {cfg : Config} {s s' : Sys} {a : Label} {i : Nat} (htask : a.task? = some i)
    (hstep : step cfg s a = some s') :
    ∃ ph ph' f', s.tasks[i]? = some ph ∧ resume cfg s.fleet ph a = some (f', ph') ∧
      s' = ⟨f', s.tasks.set i ph'⟩ := by
  have hbind : (s.tasks[i]?.bind fun ph => (resume cfg s.fleet ph a).bind fun r =>
      some (⟨r.1, s.tasks.set i r.2⟩ : Sys)) = some s' := by
    cases a <;> cases htask <;> exact hstep
  obtain ⟨ph, hph, hrest⟩ := Option.bind_eq_some_iff.mp hbind
  obtain ⟨⟨f', ph'⟩, hresume, heq⟩ := Option.bind_eq_some_iff.mp hrest
  exact ⟨ph, ph', f', hph, hresume, (Option.some.inj heq).symm⟩

/-- What a step keeps, and what a call that ends in it reports. -/
theorem inv_step {cfg : Config} {s s' : Sys} {a : Label} (h : Inv cfg s) (hok : Careful s a)
    (hstep : step cfg s a = some s') :
    Inv cfg s' ∧ ∀ i o, Ends s s' i o → Truthful s.fleet s'.fleet o := by
  have hresumes : ∀ i, a.task? = some i →
      (a.task?.bind fun i => s.tasks[i]?).all (s.fleet.allows · a) = true →
      Inv cfg s' ∧ ∀ i o, Ends s s' i o → Truthful s.fleet s'.fleet o := by
    intro i htask hallows
    obtain ⟨ph, ph', f', hph, hresume, rfl⟩ := step_resume htask hstep
    rw [htask, Option.bind_some, hph] at hallows
    obtain ⟨hinv, htold⟩ := h.resume hph hallows hresume
    refine ⟨hinv, fun j o hends => ?_⟩
    rcases Keyed.getElem?_set_cases hends.1 with ⟨-, hnew⟩ | ⟨-, hold⟩
    · exact htold o hnew.symm
    · exact absurd hold hends.2
  cases a with
  | start t env =>
    cases hstep
    have hturn := turn_qemuStart (h.rest hok) env false
    exact ⟨h.begin hok hturn.works fun _ => hturn.busy,
      fun i o hends => hturn.told o (ends_begin hends)⟩
  | stop t qmpTimeoutS =>
    cases hstep
    exact ⟨h.begin hok (fun k hk => worksOn_self hk) fun hgood => hgood,
      fun i o hends => nomatch ends_begin hends⟩
  | reset t =>
    cases hstep
    exact ⟨h.begin hok (fun k hk => worksOn_self hk) fun hgood => hgood,
      fun i o hends => nomatch ends_begin hends⟩
  | close =>
    cases hstep
    have hfree : ∀ b ∈ s.tasks, ∀ k, ¬ b.worksOn k = true := by
      intro b hb k hk
      have hdone := hok b hb
      cases b with
      | done o => cases hk
      | _ => cases hdone
    exact ⟨Keyed.start h (fun b hb k hbk => absurd hbk (hfree b hb k))
        (fun k hk => absurd rfl hk) (fun _ _ hgood => hgood),
      fun i o hends => nomatch ends_begin hends⟩
  | exits p code =>
    simp only [step] at hstep
    split at hstep
    · cases hstep
      exact ⟨h.exits, fun i o hends => absurd hends.1 hends.2⟩
    · cases hstep
  | popen i ok => exact hresumes i rfl hok
  | registers i => exact hresumes i rfl hok
  | awakes i env => exact hresumes i rfl hok
  | settled i ok ports => exact hresumes i rfl hok
  | quits i how => exact hresumes i rfl hok
  | polls i => exact hresumes i rfl hok
  | signals i ok => exact hresumes i rfl hok
  | waits i ok => exact hresumes i rfl hok
  | transportsClosed i ok => exact hresumes i rfl hok
  | cancel i => exact hresumes i rfl hok

theorem inv_run {cfg : Config} {as : List Label} {s : Sys}
    (hok : Along (step cfg) Careful boot as) (hrun : run (step cfg) boot as = some s) : Inv cfg s :=
  run_invariant (fun _ _ _ hinv hcareful hstep => (inv_step hinv hcareful hstep).1)
    (inv_boot cfg) hok hrun

/-- A start that is about to enter the child into the registry. -/
def Phase.enters : Phase → Target → Pid → Bool
  | .launched u q _, t, p => u = t ∧ q = p
  | _, _, _ => false

/-- The child is in the registry, or its start is about to enter it. -/
def Registered (s : Sys) (t : Target) (p : Pid) : Prop :=
  s.fleet.processes.get t = some p ∨ ∃ ph ∈ s.tasks, ph.enters t p = true

instance (s : Sys) (t : Target) (p : Pid) : Decidable (Registered s t p) :=
  inferInstanceAs (Decidable (_ ∨ _))

/-- What a coroutine knows of a child that lives. -/
theorem Busy.registered {cfg : Config} {s : Sys} {ph : Phase} {t : Target} {p : Pid}
    (hph : ph ∈ s.tasks) (hworks : ph.worksOn t = true) (h : Busy cfg s.fleet ph t)
    (hlive : s.fleet.Live t p) :
    Registered s t p ∧ ∀ q, s.fleet.Live t q → q = p := by
  have hgood : Good cfg s.fleet t → Registered s t p ∧ ∀ q, s.fleet.Live t q → q = p :=
    fun hgood => ⟨.inl (hgood.kept p hlive), fun q hq =>
      Option.some.inj ((hgood.kept q hq).symm.trans (hgood.kept p hlive))⟩
  cases ph with
  | launching u reset => exact absurd hlive (h.2 p)
  | launched u q reset =>
    obtain rfl := worksOn_self hworks
    obtain rfl := h.2.2 p hlive
    exact ⟨.inr ⟨_, hph, decide_eq_true ⟨rfl, rfl⟩⟩, h.2.2⟩
  | stray u => exact h.elim
  | settling c => exact hgood h
  | unowned c => exact hgood h.1
  | quitting c q => exact hgood h.1
  | polling c q left method => exact hgood h.1
  | stopping c q e => exact hgood h.1
  | pausing u => exact hgood h
  | closing => exact hgood h
  | ending u q e rest => exact hgood h.1
  | done o => cases hworks

/-- `owned` of `qemu_status` is right where no call works on the target. -/
theorem Good.running_iff {cfg : Config} {f : Fleet} {t : Target} {p : Pid} (h : Good cfg f t) :
    f.running t = some p ↔ f.Live t p := by
  unfold Fleet.running
  rw [Option.filter_eq_some_iff]
  constructor
  · rintro ⟨hget, hpoll⟩
    obtain ⟨code, hchild⟩ := (h.known p hget).2
    have hnone : f.poll p = none := by simpa using hpoll
    unfold Fleet.poll at hnone
    rw [hchild] at hnone
    obtain rfl : code = none := hnone
    exact hchild
  · exact fun hlive => ⟨h.kept p hlive, by rw [hlive.poll]; rfl⟩

/-- In a careful run a child that lives is in the registry or about to be entered,
it is the only one of its target, and where no call works on a target the registry
tells exactly whether a child of it lives. -/
theorem children_registered {cfg : Config} {as : List Label} {s : Sys}
    (hok : Along (step cfg) Careful boot as) (hrun : run (step cfg) boot as = some s) (t : Target)
    (p : Pid) :
    (s.fleet.Live t p → Registered s t p ∧ ∀ q, s.fleet.Live t q → q = p) ∧
      ((∀ ph ∈ s.tasks, ph.worksOn t = false) →
        (s.fleet.running t = some p ↔ s.fleet.Live t p)) := by
  have hinv := inv_run hok hrun
  refine ⟨fun hlive => ?_, fun hfree => (hinv.rest hfree).running_iff⟩
  by_cases hbusy : ∃ ph ∈ s.tasks, ph.worksOn t = true
  · obtain ⟨ph, hph, hworks⟩ := hbusy
    exact (hinv.busy ph hph t hworks).registered hph hworks hlive
  · have hgood := Keyed.rest hinv t fun b hb hk => hbusy ⟨b, hb, hk⟩
    exact ⟨.inl (hgood.kept p hlive), fun q hq =>
      Option.some.inj ((hgood.kept q hq).symm.trans (hgood.kept p hlive))⟩

/-- Two targets without channels. -/
def twoTargets : Config where
  targets t := if t = [97] ∨ t = [98] then some {} else none
  listTargets := [[97], [98]]
  repr t := t

/-- Two starts that overlap, and a stop of one of them. -/
def twoStarts : List Label :=
  [.start [97] {}, .start [98] {}, .popen 1 true, .popen 0 true, .registers 0, .registers 1,
    .stop [97] 1, .settled 2 true {}]

theorem children_registered_sample : ∃ s, run (step twoTargets) boot twoStarts = some s ∧
    s.fleet.Live [97] 1 ∧ Registered s [97] 1 := by
  have hok : Along (step twoTargets) Careful boot twoStarts := by decide +kernel
  have hlives : (run (step twoTargets) boot twoStarts).any
      (fun s => decide (s.fleet.Live [97] 1)) = true := by decide +kernel
  cases hrun : run (step twoTargets) boot twoStarts with
  | none => simp [hrun] at hlives
  | some s =>
    rw [hrun] at hlives
    have hlive := of_decide_eq_true hlives
    exact ⟨s, rfl, hlive, ((children_registered hok hrun [97] 1).1 hlive).1⟩

/-- In a careful run the calls report what is so when they end: a start the child in
the registry, which is the only one of its target that can live, a stop the exit code
of the child that was in the registry, when none of the target lives any more, and
`close_all` leaves none of any target. -/
theorem reports_true {cfg : Config} {as : List Label} {a : Label} {s s' : Sys} {i : Nat}
    {o : Outcome} (hok : Along (step cfg) Careful boot (as ++ [a]))
    (hrun : run (step cfg) boot as = some s) (hstep : step cfg s a = some s')
    (hends : Ends s s' i o) : Truthful s.fleet s'.fleet o :=
  (inv_step (inv_run hok.append_left hrun) (hok.append_right hrun).head hstep).2 i o hends

/-- A child exits by itself, and a stop finds it so; the next child of the target is
terminated. -/
def twoStops : List Label :=
  [.start [97] {}, .popen 0 true, .registers 0, .exits 0 9, .stop [97] 1, .settled 1 true {},
    .start [97] {}, .popen 2 true, .registers 2, .stop [97] 1, .settled 3 true {}, .polls 3,
    .polls 3, .signals 3 true, .exits 1 3]

/-- What a stop that has returned reports. -/
def Phase.stopped? : Phase → Option (Target × Method × Option Int)
  | .done (.stopped t method exitCode) => some (t, method, exitCode)
  | _ => none

theorem Phase.stopped?_some {ph : Phase} {t : Target} {method : Method} {exitCode : Option Int}
    (h : ph.stopped? = some (t, method, exitCode)) : ph = .done (.stopped t method exitCode) := by
  unfold Phase.stopped? at h
  split at h
  · cases h
    rfl
  · cases h

theorem reports_true_sample : ∃ s s', run (step twoTargets) boot twoStops = some s ∧
    step twoTargets s (.waits 3 true) = some s' ∧
      Truthful s.fleet s'.fleet (.stopped [97] .terminate (some 3)) := by
  have hok : Along (step twoTargets) Careful boot (twoStops ++ [.waits 3 true]) := by
    decide +kernel
  have hreturns : (run (step twoTargets) boot twoStops).any (fun s =>
      (s.tasks[3]?.bind Phase.stopped?).isNone &&
        (step twoTargets s (.waits 3 true)).any fun s' =>
          s'.tasks[3]?.bind Phase.stopped? = some ([97], .terminate, some 3)) = true := by
    decide +kernel
  obtain ⟨s, hrun, hs⟩ := (Option.any_eq_true ..).mp hreturns
  obtain ⟨hwaits, hstops⟩ := Bool.and_eq_true_iff.mp hs
  obtain ⟨s', hstep, hs'⟩ := (Option.any_eq_true ..).mp hstops
  obtain ⟨ph, hph, hstopped⟩ := Option.bind_eq_some_iff.mp (of_decide_eq_true hs')
  rw [Phase.stopped?_some hstopped] at hph
  refine ⟨s, s', hrun, hstep, reports_true hok hrun hstep ⟨hph, fun hsame => ?_⟩⟩
  rw [hsame] at hwaits
  cases hwaits

/-- A second start on a target, while the first one is in `Popen`. -/
def twoOnOne : List Label :=
  [.start [97] {}, .start [97] {}, .popen 0 true, .popen 1 true, .registers 0, .registers 1]

/-- A start behind the exit of a child, whose stop then drops what it enters. -/
def startInStop : List Label :=
  [.start [97] {}, .popen 0 true, .registers 0, .stop [97] 1, .settled 1 true {}, .exits 0 0,
    .start [97] {}, .popen 2 true, .registers 2, .polls 1]

/-- A stop that is cancelled. -/
def stopCancelled : List Label :=
  [.start [97] {}, .popen 0 true, .registers 0, .stop [97] 1, .settled 1 true {}, .cancel 1]

/-- In each of these runs a child lives on that is not in the registry. -/
theorem children_lost : ∀ run' ∈ [(twoOnOne, 0), (startInStop, 1), (stopCancelled, 0)],
    ∃ s, run (step twoTargets) boot run'.1 = some s ∧ s.fleet.Live [97] run'.2 ∧
      ¬ Registered s [97] run'.2 := by
  have hall : ∀ run' ∈ [(twoOnOne, 0), (startInStop, 1), (stopCancelled, 0)],
      (run (step twoTargets) boot run'.1).any
        (fun s => decide (s.fleet.Live [97] run'.2 ∧ ¬ Registered s [97] run'.2)) = true := by
    decide +kernel
  intro run' hrun'
  have hlost := hall run' hrun'
  cases hrun : run (step twoTargets) boot run'.1 with
  | none => simp [hrun] at hlost
  | some s =>
    rw [hrun] at hlost
    exact ⟨s, rfl, of_decide_eq_true hlost⟩

end AmigaFleet.Host.QemuLifecycle

import AmigaFleet.Host.Install
import AmigaFleet.Lib.Run

/-!
# Install runs

`SequenceRunner.run` of `installer/sequences/_runner.py`, for sequences of
`copy_base_os`, of updates, and of any other steps.  Only an exception stops a
run; the exit codes of the base copy and of the extractions come back as data,
and no step looks at them.

* `runSteps_spec`: a run that is not stopped executes the steps one after
  another, each once, and reports each as it was executed.
* `copyBaseOs_ok` and `applyOneUpdate_ok`: when a step returns, and what it has
  asked till then.
* `truthful_iff`: success is reported truthfully exactly when no nonzero exit
  code is passed over (`Heeded`).
-/

namespace AmigaFleet.Host.Installer

open AmigaFleet.Lib
open AmigaFleet.Mcpd (ascii)
open AmigaFleet.Host.Kicklayout (ModulesPatch TextPatch)

variable (py : PyText)

/-! ## SequenceRunner.run -/

inductive Outcome where
  | ok
  | fail
  | skipped
  | planned
deriving DecidableEq, Repr

structure StepResult where
  name : List Char
  doc : List Char
  status : Outcome
  output : Json := .null
  error : Option (List Char) := none

structure Sequence where
  machine : List Char
  description : List Char
  steps : List Step

structure SequenceResult where
  machine : List Char
  description : List Char
  overall : Outcome
  steps : List StepResult
  failedStep : Option (List Char) := none
  dryRun : Bool

structure SequenceRunner where
  sequence : Sequence
  initialCtx : Ctx

/-- The result of a step that has returned. -/
def okResult (step : Step) (output : Json) : StepResult :=
  { name := step.name, doc := step.doc, status := .ok, output }

/-- The loop of `run`, with the results so far; the name is `failed`. -/
def runSteps : List Step → Ctx → List StepResult → Install (List StepResult × Option (List Char))
  | [], _, results => pure (results, none)
  | step :: steps, ctx, results => do
    match ← (step.fn ctx).attempt with
    | .ok (output, ctx') =>
      runSteps steps ctx' (results ++ [okResult step output])
    | .error (.exception cls message) =>
      pure (results ++ [{
        name := step.name, doc := step.doc, status := .fail
        error := some (cls.toList ++ ": ".toList ++ message)
        output := py.traceback (.exception cls message) }], some step.name)
    | .error .cancelled => .raise .cancelled

/-- The truth value of `failed`. -/
def failedTruthy (failed : Option (List Char)) : Bool := failed.any (· ≠ [])

def SequenceRunner.run (r : SequenceRunner) (dryRun : Bool) : Install SequenceResult :=
  if dryRun then
    pure {
      machine := r.sequence.machine, description := r.sequence.description, overall := .planned
      dryRun := true
      steps := r.sequence.steps.map fun s => { name := s.name, doc := s.doc, status := .planned } }
  else do
    let (results, failed) ← runSteps py r.sequence.steps r.initialCtx []
    pure {
      machine := r.sequence.machine, description := r.sequence.description
      overall := if failedTruthy failed then .fail else .ok
      steps := results, failedStep := failed, dryRun := false }

/-! ## Sequences -/

/-- A step of a sequence. -/
inductive InstallStep where
  | copyBaseOs
  | applyOneUpdate (config : MachineConfig) (u : Update)
  | other (step : Step)

def InstallStep.step : InstallStep → Step
  | .copyBaseOs => Installer.copyBaseOs py
  | .applyOneUpdate config u => Installer.applyOneUpdate py config u
  | .other step => step

/-- A request with its answer. -/
abbrev Event := Request × Except Raised Json

/-- What answers the requests, from all that has been asked. -/
abbrev World := List Event → Request → Except Raised Json

variable (world : World)

/-- One step that returns, on its dict and the requests before it. -/
def next (s : Ctx × List Event) (k : InstallStep) : Option (Ctx × List Event) :=
  match Prog.exec world ((k.step py).fn s.1) s.2 with
  | (.ok (_, ctx), es) => some (ctx, s.2 ++ es)
  | (.error _, _) => none

/-- The requests that a step makes. -/
def eventsOf (s : Ctx × List Event) (k : InstallStep) : List Event :=
  (Prog.exec world ((k.step py).fn s.1) s.2).2

/-- The target's transport, `fleet.mcpd(target)`. -/
def Ctx.channel (ctx : Ctx) : Option Mcpd :=
  ctx.fleet.bind fun fleet => ctx.target.bind fun target => (fleet.mcpd target).toOption

/-- The recursive copy of the base system, and the extraction of the update's archive. -/
def critical (ctx : Ctx) : InstallStep → Option Request
  | .copyBaseOs =>
    ctx.channel.bind fun t => ctx.isoVolume.bind fun iso => ctx.destVolume.map fun dest =>
      copyRequest t (iso ++ "System/".toList) dest true true true 1800
  | .applyOneUpdate _ u =>
    ctx.channel.bind fun t => ctx.destVolume.map fun dest =>
      lhaRequest t (archivePath dest u) (scratchPath dest u) 900
  | .other _ => none

/-- The reply carries the exit code zero. -/
def exitedZero (raw : Json) : Prop := ∃ code, raw.get "exit_code" = some code ∧ intOf py code = .ok 0

/-- The step has asked for its copy or extraction, and it ended with exit code zero. -/
def EndedZero (s : Ctx × List Event) (k : InstallStep) : Prop :=
  match k with
  | .other _ => True
  | k => ∃ req, critical s.1 k = some req ∧ (∃ ev ∈ eventsOf py world s k, ev.1 = req) ∧
      ∀ ev ∈ eventsOf py world s k, ev.1 = req → ∃ raw, ev.2 = .ok raw ∧ exitedZero py raw

/-- The report of a step that was executed to its end. -/
def Reports (r : StepResult) (k : InstallStep) : Prop :=
  r.name = (k.step py).name ∧ r.doc = (k.step py).doc ∧ r.status = .ok

/-- A run that reports success has executed every step, in order and once, and the
copies and extractions have ended with exit code zero. -/
def Truthful (ctx : Ctx) (ks : List InstallStep) : Prop :=
  ∀ machine description res events,
    Prog.exec world (SequenceRunner.run py ⟨⟨machine, description, ks.map (·.step py)⟩, ctx⟩ false)
      [] = (.ok res, events) →
    res.overall = .ok →
      (∃ ctx', run (next py world) (ctx, []) ks = some (ctx', events)) ∧
      List.Forall₂ (Reports py) res.steps ks ∧
      Along (next py world) (EndedZero py world) (ctx, []) ks

/-! ## What is passed over -/

/-- `int(raw.get("exit_code", 0))` -/
def replyCode (raw : Json) : Except String Int :=
  match raw with
  | .dict _ => intOf py ((raw.get "exit_code").getD (.int 0))
  | _ => .error "AttributeError"

/-- A reply that a tool takes, although it does not carry the exit code zero. -/
def PassedOver (raw : Json) : Prop := (∃ code, replyCode py raw = .ok code) ∧ ¬ exitedZero py raw

/-- No nonzero exit code is passed over in this step: either the copy or the
extraction is not answered with one, or a request of the step that is not in a
`try` fails later.  A step of another kind that raises has a name. -/
def Heeded (s : Ctx × List Event) : InstallStep → Prop
  | .copyBaseOs => ∀ req dest t raw,
      critical s.1 .copyBaseOs = some req → s.1.destVolume = some dest → s.1.mcpd = some t →
      world s.2 req = .ok raw → PassedOver py raw →
      ∃ e, world (s.2 ++ [(req, .ok raw)]) (protectRequest t dest) = .error e
  | .applyOneUpdate config u => ∀ req fleet target dest t es raw,
      critical s.1 (.applyOneUpdate config u) = some req → s.1.fleet = some fleet →
      s.1.target = some target → s.1.destVolume = some dest → s.1.mcpd = some t →
      Prog.exec world (amigaMakedir py t (scratchPath dest u)) s.2 = (.ok (), es) →
      world (s.2 ++ es) req = .ok raw → PassedOver py raw →
      ∃ e es', Prog.exec world (installUpdate py config u t fleet target dest)
        (s.2 ++ es ++ [(req, .ok raw)]) = (.error e, es')
  | .other step => step.name = [] → ∀ cls message es,
      Prog.exec world (step.fn s.1) s.2 ≠ (.error (.exception cls message), es)

/-! ## Programs that return -/

variable {py world}

theorem return_ok {β : Type} {h es : List Event} {b c : β} :
    Prog.exec world (pure b : Install β) h = (.ok c, es) ↔ c = b ∧ es = [] := by
  simp [eq_comm]

theorem item_ok {β γ : Type} {value : Option β} {key : String} {f : β → Install γ}
    {h es : List Event} {c : γ} :
    Prog.exec world (Ctx.item value key >>= f) h = (.ok c, es) ↔
      ∃ b, value = some b ∧ Prog.exec world (f b) h = (.ok c, es) := by
  cases value <;> simp [Ctx.item]

theorem liftExcept_ok {β γ : Type} {value : Except Raised β} {f : β → Install γ}
    {h es : List Event} {c : γ} :
    Prog.exec world (liftExcept value >>= f) h = (.ok c, es) ↔
      ∃ b, value = .ok b ∧ Prog.exec world (f b) h = (.ok c, es) := by
  cases value <;> simp [liftExcept]

theorem send_ok {γ : Type} {r : Request} {f : Json → Install γ} {h es : List Event} {c : γ} :
    Prog.exec world (send r >>= f) h = (.ok c, es) ↔
      ∃ raw es', world h r = .ok raw ∧
        Prog.exec world (f raw) (h ++ [(r, .ok raw)]) = (.ok c, es') ∧ es = (r, .ok raw) :: es' := by
  simp only [send, Prog.call_bind, Prog.exec]
  cases world h r with
  | error e => simp
  | ok raw =>
    simp only [Prog.pure_bind, Except.ok.injEq, exists_eq_left', exists_and_left]
    constructor
    · intro hrun
      obtain ⟨hout, hes⟩ := Prod.mk.inj hrun
      exact ⟨_, Prod.ext hout rfl, hes.symm⟩
    · rintro ⟨es', hrun, rfl⟩
      rw [hrun]

theorem readReply_ok {γ : Type} {raw : Json} {f : List Char × Int → Install γ} {h es : List Event}
    {c : γ} :
    Prog.exec world (readReply py raw >>= f) h = (.ok c, es) ↔
      ∃ code, replyCode py raw = .ok code ∧
        Prog.exec world (f (py.str ((raw.get "output").getD (.str [])), code)) h = (.ok c, es) := by
  cases raw with
  | dict members =>
    simp only [readReply, getItem, replyCode, Prog.pure_bind, pyInt]
    cases intOf py (((Json.dict members).get "exit_code").getD (.int 0)) <;> simp [raisePy]
  | _ => simp [readReply, getItem, replyCode, raisePy]

theorem toOption_some {β : Type} {value : Except Raised β} {b : β} :
    value.toOption = some b ↔ value = .ok b := by
  cases value <;> simp [Except.toOption]

theorem critical_copy {ctx : Ctx} {req : Request} :
    critical ctx .copyBaseOs = some req ↔
      ∃ fleet target t iso dest, ctx.fleet = some fleet ∧ ctx.target = some target ∧
        fleet.mcpd target = .ok t ∧ ctx.isoVolume = some iso ∧ ctx.destVolume = some dest ∧
        req = copyRequest t (iso ++ "System/".toList) dest true true true 1800 := by
  simp only [critical, Ctx.channel, Option.bind_eq_some_iff, Option.map_eq_some_iff, toOption_some]
  constructor
  · rintro ⟨t, ⟨fleet, hfleet, target, htarget, ht⟩, iso, hiso, dest, hdest, hreq⟩
    exact ⟨fleet, target, t, iso, dest, hfleet, htarget, ht, hiso, hdest, hreq.symm⟩
  · rintro ⟨fleet, target, t, iso, dest, hfleet, htarget, ht, hiso, hdest, hreq⟩
    exact ⟨t, ⟨fleet, hfleet, target, htarget, ht⟩, iso, hiso, dest, hdest, hreq.symm⟩

theorem critical_update {ctx : Ctx} {config : MachineConfig} {u : Update} {req : Request} :
    critical ctx (.applyOneUpdate config u) = some req ↔
      ∃ fleet target t dest, ctx.fleet = some fleet ∧ ctx.target = some target ∧
        fleet.mcpd target = .ok t ∧ ctx.destVolume = some dest ∧
        req = lhaRequest t (archivePath dest u) (scratchPath dest u) 900 := by
  simp only [critical, Ctx.channel, Option.bind_eq_some_iff, Option.map_eq_some_iff, toOption_some]
  constructor
  · rintro ⟨t, ⟨fleet, hfleet, target, htarget, ht⟩, dest, hdest, hreq⟩
    exact ⟨fleet, target, t, dest, hfleet, htarget, ht, hdest, hreq.symm⟩
  · rintro ⟨fleet, target, t, dest, hfleet, htarget, ht, hdest, hreq⟩
    exact ⟨t, ⟨fleet, hfleet, target, htarget, ht⟩, dest, hdest, hreq.symm⟩

/-- When a tool returns that looks up its target, sends one request and reads the reply. -/
theorem oneRequest_ok {β : Type} {target : Except Raised Mcpd} {req : Mcpd → Request}
    {h es : List Event} (result : List Char × Int → β) :
    (∃ r, Prog.exec world (liftExcept target >>= fun t => send (req t) >>= fun raw =>
        readReply py raw >>= fun reply => pure (result reply)) h = (.ok r, es)) ↔
      ∃ t raw code, target = .ok t ∧ world h (req t) = .ok raw ∧ replyCode py raw = .ok code ∧
        es = [(req t, .ok raw)] := by
  constructor
  · rintro ⟨r, hrun⟩
    obtain ⟨t, ht, hrun⟩ := liftExcept_ok.mp hrun
    obtain ⟨raw, es', hraw, hrun, hes⟩ := send_ok.mp hrun
    obtain ⟨code, hcode, hrun⟩ := readReply_ok.mp hrun
    obtain ⟨_, hes'⟩ := return_ok.mp hrun
    exact ⟨t, raw, code, ht, hraw, hcode, by rw [hes, hes']⟩
  · rintro ⟨t, raw, code, ht, hraw, hcode, hes⟩
    exact ⟨_, liftExcept_ok.mpr ⟨t, ht, send_ok.mpr ⟨raw, [], hraw,
      readReply_ok.mpr ⟨code, hcode, return_ok.mpr ⟨rfl, rfl⟩⟩, hes⟩⟩⟩

theorem installerCopyTree_ok {fleet : Fleet} {target src dst : List Char} {timeoutS : Nat}
    {h es : List Event} :
    (∃ r, Prog.exec world (installerCopyTree py fleet target src dst true true true true timeoutS) h =
        (.ok r, es)) ↔
      ∃ t raw code, fleet.mcpd target = .ok t ∧
        world h (copyRequest t src dst true true true timeoutS) = .ok raw ∧
        replyCode py raw = .ok code ∧
        es = [(copyRequest t src dst true true true timeoutS, .ok raw)] :=
  oneRequest_ok fun reply => CopyTreeResult.mk target src dst reply.1 reply.2

theorem installerApplyLha_ok {fleet : Fleet} {target archive dest : List Char} {timeoutS : Nat}
    {h es : List Event} :
    (∃ r, Prog.exec world (installerApplyLha py fleet target archive dest true timeoutS) h =
        (.ok r, es)) ↔
      ∃ t raw code, fleet.mcpd target = .ok t ∧
        world h (lhaRequest t archive dest timeoutS) = .ok raw ∧ replyCode py raw = .ok code ∧
        es = [(lhaRequest t archive dest timeoutS, .ok raw)] :=
  oneRequest_ok fun reply => ApplyLhaResult.mk target archive dest reply.1 reply.2

/-- When `copy_base_os` returns, and what it has asked. -/
theorem copyBaseOs_ok {ctx : Ctx} {h es : List Event} :
    (∃ out, Prog.exec world ((copyBaseOs py).fn ctx) h = (.ok out, es)) ↔
      ∃ req dest t raw value, critical ctx .copyBaseOs = some req ∧ ctx.destVolume = some dest ∧
        ctx.mcpd = some t ∧ world h req = .ok raw ∧ (∃ code, replyCode py raw = .ok code) ∧
        world (h ++ [(req, .ok raw)]) (protectRequest t dest) = .ok value ∧
        es = [(req, .ok raw), (protectRequest t dest, .ok value)] := by
  constructor
  · rintro ⟨out, hrun⟩
    obtain ⟨iso, hiso, hrun⟩ := item_ok.mp hrun
    obtain ⟨dest, hdest, hrun⟩ := item_ok.mp hrun
    obtain ⟨fleet, hfleet, hrun⟩ := item_ok.mp hrun
    obtain ⟨target, htarget, hrun⟩ := item_ok.mp hrun
    obtain ⟨copy, es₁, es₂, hcopy, hprotect, hes⟩ := Prog.exec_bind_iff.mp hrun
    obtain ⟨t', raw, code, ht', hraw, hcode, rfl⟩ := installerCopyTree_ok.mp ⟨copy, hcopy⟩
    obtain ⟨t, ht, hprotect⟩ := item_ok.mp hprotect
    obtain ⟨value, es₃, hvalue, hend, rfl⟩ := send_ok.mp hprotect
    obtain ⟨_, rfl⟩ := return_ok.mp hend
    exact ⟨_, dest, t, raw, value, critical_copy.mpr ⟨fleet, target, t', iso, dest, hfleet, htarget,
      ht', hiso, hdest, rfl⟩, hdest, ht, hraw, ⟨code, hcode⟩, hvalue, hes⟩
  · rintro ⟨req, dest, t, raw, value, hreq, hdest, ht, hraw, ⟨code, hcode⟩, hvalue, hes⟩
    obtain ⟨fleet, target, t', iso, dest', hfleet, htarget, ht', hiso, hdest', rfl⟩ :=
      critical_copy.mp hreq
    rw [hdest] at hdest'
    cases hdest'
    obtain ⟨copy, hcopy⟩ := installerCopyTree_ok.mpr ⟨t', raw, code, ht', hraw, hcode, rfl⟩
    exact ⟨_, item_ok.mpr ⟨iso, hiso, item_ok.mpr ⟨dest, hdest, item_ok.mpr ⟨fleet, hfleet,
      item_ok.mpr ⟨target, htarget, Prog.exec_bind_iff.mpr ⟨copy, _, _, hcopy,
        item_ok.mpr ⟨t, ht, send_ok.mpr ⟨value, [], hvalue, return_ok.mpr ⟨rfl, rfl⟩, rfl⟩⟩,
        hes⟩⟩⟩⟩⟩⟩

/-- When an update returns, and what it has asked. -/
theorem applyOneUpdate_ok {ctx : Ctx} {config : MachineConfig} {u : Update} {h es : List Event} :
    (∃ out, Prog.exec world ((applyOneUpdate py config u).fn ctx) h = (.ok out, es)) ↔
      ∃ req fleet target dest t es₁ raw es₂, critical ctx (.applyOneUpdate config u) = some req ∧
        ctx.fleet = some fleet ∧ ctx.target = some target ∧ ctx.destVolume = some dest ∧
        ctx.mcpd = some t ∧
        Prog.exec world (amigaMakedir py t (scratchPath dest u)) h = (.ok (), es₁) ∧
        world (h ++ es₁) req = .ok raw ∧ (∃ code, replyCode py raw = .ok code) ∧
        Prog.exec world (installUpdate py config u t fleet target dest)
          (h ++ es₁ ++ [(req, .ok raw)]) = (.ok (), es₂) ∧
        es = es₁ ++ (req, .ok raw) :: es₂ := by
  constructor
  · rintro ⟨out, hrun⟩
    obtain ⟨t, ht, hrun⟩ := item_ok.mp hrun
    obtain ⟨target, htarget, hrun⟩ := item_ok.mp hrun
    obtain ⟨fleet, hfleet, hrun⟩ := item_ok.mp hrun
    obtain ⟨dest, hdest, hrun⟩ := item_ok.mp hrun
    obtain ⟨_, es₁, es₂, hmake, hrest, hes⟩ := Prog.exec_bind_iff.mp hrun
    obtain ⟨lha, es₃, es₄, hlha, hrest', hes₂⟩ := Prog.exec_bind_iff.mp hrest
    obtain ⟨t', raw, code, ht', hraw, hcode, rfl⟩ := installerApplyLha_ok.mp ⟨lha, hlha⟩
    obtain ⟨_, es₅, es₆, hinstall, hend, hes₄⟩ := Prog.exec_bind_iff.mp hrest'
    obtain ⟨_, rfl⟩ := return_ok.mp hend
    refine ⟨_, fleet, target, dest, t, es₁, raw, es₅, critical_update.mpr ⟨fleet, target, t', dest,
      hfleet, htarget, ht', hdest, rfl⟩, hfleet, htarget, hdest, ht, hmake, hraw, ⟨code, hcode⟩,
      hinstall, ?_⟩
    rw [hes, hes₂, hes₄, List.append_nil]
    rfl
  · rintro ⟨req, fleet, target, dest, t, es₁, raw, es₂, hreq, hfleet, htarget, hdest, ht, hmake,
      hraw, ⟨code, hcode⟩, hinstall, rfl⟩
    obtain ⟨fleet', target', t', dest', hfleet', htarget', ht', hdest', rfl⟩ :=
      critical_update.mp hreq
    rw [hfleet] at hfleet'
    rw [htarget] at htarget'
    rw [hdest] at hdest'
    cases hfleet'
    cases htarget'
    cases hdest'
    obtain ⟨lha, hlha⟩ := installerApplyLha_ok.mpr ⟨t', raw, code, ht', hraw, hcode, rfl⟩
    refine ⟨_, item_ok.mpr ⟨t, ht, item_ok.mpr ⟨target, htarget, item_ok.mpr ⟨fleet, hfleet,
      item_ok.mpr ⟨dest, hdest, Prog.exec_bind_iff.mpr ⟨(), es₁, _, hmake,
        Prog.exec_bind_iff.mpr ⟨lha, _, _, hlha,
          Prog.exec_bind_iff.mpr ⟨(), es₂, [], hinstall, return_ok.mpr ⟨rfl, rfl⟩, rfl⟩, rfl⟩,
        ?_⟩⟩⟩⟩⟩⟩
    rw [List.append_nil]
    rfl

/-! ## The requests of an update

No request of an update but its extraction runs a command that begins like one. -/

def NotLha (r : Request) : Prop :=
  ∀ command, r.params.head? = some ("command", .str command) → command.head? ≠ some 'L'

theorem not_notLha (t : Mcpd) (archive dest : List Char) (timeoutS : Nat) :
    ¬ NotLha (lhaRequest t archive dest timeoutS) := fun h => h _ rfl rfl

theorem makes_send {P : Request → Prop} {r : Request} (h : P r) : (send r).Makes P := by
  refine ⟨h, ?_⟩
  rintro (e | raw)
  · exact Prog.makes_raise e
  · exact Prog.makes_pure raw

theorem notLha_execRequest {t : Mcpd} {command : List Char} {timeoutMs : Int} {timeoutS : Nat}
    (h : command.head? ≠ some 'L') : NotLha (execRequest t command timeoutMs timeoutS) := by
  intro command' heq
  cases heq
  exact h

theorem makes_execCmd {t : Mcpd} {command : List Char} {timeoutMs : Int} {timeoutS : Nat}
    (h : command.head? ≠ some 'L') : (execCmd t command timeoutMs timeoutS).Makes NotLha :=
  makes_send (notLha_execRequest h)

theorem makes_request {t : Mcpd} {method : String} {key : String} {value : Param}
    {params : List (String × Param)} {timeoutS : Option Nat} (h : key ≠ "command") :
    (request t method ((key, value) :: params) timeoutS).Makes NotLha := by
  apply makes_send
  intro command heq
  cases heq
  exact absurd rfl h

theorem makes_pathRequest (t : Mcpd) (method : String) (path : List Char) (timeoutS : Option Nat) :
    (pathRequest t method path timeoutS).Makes NotLha := makes_request (by decide)

section

variable {P : Request → Prop} {β : Type}

theorem makes_tryExcept {p : Install β} {f : String → List Char → Install β} (hp : p.Makes P)
    (hf : ∀ cls message, (f cls message).Makes P) : (tryExcept p f).Makes P := by
  refine hp.attempt.bind ?_
  rintro ((⟨cls, message⟩ | _) | b)
  · exact hf cls message
  · exact Prog.makes_raise _
  · exact Prog.makes_return b

theorem makes_guarded {p : Install β} (hp : p.Makes P) : (guarded p).Makes P :=
  makes_tryExcept (hp.bind fun _ => Prog.makes_return ()) fun _ _ => Prog.makes_return ()

theorem makes_forEach {α : Type} {f : α → Install Unit} (hf : ∀ x, (f x).Makes P) (xs : List α) :
    (forEach f xs).Makes P := by
  induction xs with
  | nil => exact Prog.makes_return ()
  | cons x xs ih => exact (hf x).bind fun _ => ih

theorem makes_onlyIf {c : Prop} [Decidable c] {p : Install β} (hp : p.Makes P) :
    (onlyIf c p).Makes P := by
  unfold onlyIf
  split
  · exact hp.bind fun _ => Prog.makes_return ()
  · exact Prog.makes_return ()

theorem makes_liftExcept (value : Except Raised β) : (liftExcept value).Makes P := by
  cases value with
  | error e => exact Prog.makes_raise e
  | ok b => exact Prog.makes_pure b

theorem makes_raisePy (cls : String) (value : Json) : (raisePy py cls value : Install β).Makes P :=
  Prog.makes_raise _

theorem makes_getItem (raw : Json) (key : String) (default : Json) :
    (getItem py raw key default).Makes P := by
  cases raw with
  | dict members => exact Prog.makes_pure _
  | _ => exact makes_raisePy _ _

theorem makes_pyInt (value : Json) : (pyInt py value).Makes P := by
  unfold pyInt
  split
  · exact Prog.makes_pure _
  · exact makes_raisePy _ _

theorem makes_readReply (raw : Json) : (readReply py raw).Makes P :=
  (makes_getItem raw _ _).bind fun _ => (makes_getItem raw _ _).bind fun code =>
    (makes_pyInt code).bind fun _ => Prog.makes_return _

theorem makes_requireConfirm (confirm : Bool) (op : String) : (requireConfirm confirm op).Makes P := by
  unfold requireConfirm
  split
  · exact Prog.makes_return ()
  · exact Prog.makes_raise _

theorem makes_decodeB64 (value : Json) : (decodeB64 py value).Makes P := by
  unfold decodeB64
  split
  · split
    · cases PyBase64.b64decode _ with
      | none => exact makes_raisePy _ _
      | some bytes => exact Prog.makes_pure bytes
    · exact makes_raisePy _ _
  · exact makes_raisePy _ _

theorem makes_encodeAscii (content : List Char) : (encodeAscii py content).Makes P := by
  unfold encodeAscii
  split
  · exact Prog.makes_return _
  · exact makes_raisePy _ _

end

theorem notLha_copyRequest (t : Mcpd) (src dst : List Char) (all clone quiet : Bool)
    (timeoutS : Nat) : NotLha (copyRequest t src dst all clone quiet timeoutS) := by
  apply notLha_execRequest
  have hhead : (copyCommand src dst all clone quiet).head? = some 'C' := rfl
  rw [hhead]
  decide

theorem makes_copyContent (fleet : Fleet) (target src dst : List Char) (timeoutS : Nat) :
    (copyContent py fleet target src dst timeoutS).Makes NotLha :=
  makes_guarded ((makes_requireConfirm _ _).bind fun _ => (makes_liftExcept _).bind fun t =>
    (makes_send (notLha_copyRequest t src dst true true true timeoutS)).bind fun raw =>
      (makes_readReply raw).bind fun _ => Prog.makes_return _)

theorem makes_readKicklayout (fleet : Fleet) (target destVolume : List Char) :
    (installerReadKicklayout py fleet target destVolume).Makes NotLha :=
  (makes_liftExcept _).bind fun t => (makes_pathRequest t _ _ _).bind fun raw =>
    (makes_getItem raw _ _).bind fun value => (makes_decodeB64 value).bind fun _ =>
      Prog.makes_return _

theorem makes_backUp (t : Mcpd) (klpath : List Char) (suffix : Option (List Char)) :
    (backUp t klpath suffix).Makes NotLha := by
  unfold backUp
  split
  · exact Prog.makes_return none
  · exact Prog.makes_return none
  · exact makes_tryExcept ((makes_pathRequest t _ _ _).bind fun _ =>
      (makes_request (by decide)).bind fun _ => Prog.makes_return _) fun _ _ => Prog.makes_return none

theorem makes_writeKicklayout (fleet : Fleet) (target destVolume content : List Char)
    (suffix : Option (List Char)) :
    (installerWriteKicklayout py fleet target destVolume content true suffix).Makes NotLha := by
  refine (makes_requireConfirm _ _).bind fun _ => (makes_liftExcept _).bind fun t =>
    (makes_backUp t _ suffix).bind fun _ => (makes_encodeAscii content).bind fun bytes => ?_
  apply Prog.Makes.bind
  · exact makes_request (by decide)
  · intro _
    exact Prog.makes_return _

theorem makes_restoreDate (t : Mcpd) (path : List Char) (origMtime : Json) :
    (restoreDate py t path origMtime).Makes NotLha := by
  unfold restoreDate
  split
  · split
    · split
      · exact makes_guarded (makes_execCmd (by simp))
      · exact Prog.makes_return ()
    · exact makes_raisePy _ _
  · exact Prog.makes_return ()

theorem makes_patchKicklayout (fleet : Fleet) (target destVolume : List Char)
    (mods : List ModulesPatch) (texts : List TextPatch) (suffix : Option (List Char)) :
    (installerPatchKicklayout py fleet target destVolume mods texts true suffix).Makes NotLha := by
  refine (makes_requireConfirm _ _).bind fun _ =>
    (makes_readKicklayout fleet target destVolume).bind fun rd => ?_
  split
  rename_i newText summary heq
  split
  · exact (makes_liftExcept _).bind fun t => (makes_tryExcept ((makes_pathRequest t _ _ _).bind
      fun _ => Prog.makes_return _) fun _ _ => Prog.makes_return _).bind fun value =>
        (makes_writeKicklayout fleet target _ newText suffix).bind fun _ =>
          (makes_restoreDate t _ value).bind fun _ => Prog.makes_return _
  · exact Prog.makes_return _

theorem makes_amigaMakedir (t : Mcpd) (path : List Char) :
    (amigaMakedir py t path).Makes NotLha := by
  unfold amigaMakedir
  dsimp only
  split
  · exact Prog.makes_return ()
  · refine (makes_pathRequest t _ _ _).attempt.bind ?_
    rintro ((_ | _) | _)
    · refine (makes_pathRequest t _ _ _).attempt.bind ?_
      rintro ((_ | _) | _)
      · refine (makes_execCmd (by simp)).bind fun raw => makes_tryExcept
          ((makes_pathRequest t _ _ _).bind fun _ => Prog.makes_return ()) fun _ _ => ?_
        exact (makes_getItem _ _ _).bind fun _ => (makes_getItem _ _ _).bind fun _ =>
          Prog.makes_raise _
      · exact Prog.makes_raise _
      · exact Prog.makes_return ()
    · exact Prog.makes_raise _
    · exact Prog.makes_return ()

theorem makes_maybeRename (t : Mcpd) (srcPath dstPath : List Char) :
    (maybeRename t srcPath dstPath).Makes NotLha := by
  refine (makes_pathRequest t _ _ _).attempt.bind ?_
  rintro ((_ | _) | _)
  · exact Prog.makes_return ()
  · exact Prog.makes_raise _
  · exact (makes_guarded ((makes_pathRequest t _ _ _).bind fun _ =>
      makes_guarded (makes_execCmd (by simp)))).bind fun _ => makes_guarded (makes_execCmd (by simp))

theorem makes_withSub {f : List Char → Install Unit} (hf : ∀ sub, (f sub).Makes NotLha)
    (sub : Option (List Char)) : (withSub sub f).Makes NotLha := by
  unfold withSub
  split
  · exact Prog.makes_return ()
  · exact Prog.makes_return ()
  · exact hf _

theorem makes_deleteLink (t : Mcpd) (linkPath : List Char) :
    (deleteLink t linkPath).Makes NotLha := makes_guarded (makes_execCmd (by simp))

theorem makes_makeLink (t : Mcpd) (linkPath linkTarget : List Char) :
    (makeLink t linkPath linkTarget).Makes NotLha := makes_guarded (makes_execCmd (by simp))

theorem makes_copyUpdate (config : MachineConfig) (u : Update) (fleet : Fleet)
    (target dest : List Char) : (copyUpdate py config u fleet target dest).Makes NotLha :=
  (makes_forEach (fun _ => makes_copyContent fleet target _ _ _) _).bind fun _ =>
    (makes_withSub (fun _ => makes_copyContent fleet target _ _ _) _).bind fun _ =>
      (makes_withSub (fun _ => makes_copyContent fleet target _ _ _) _).bind fun _ =>
        makes_withSub (fun _ => makes_copyContent fleet target _ _ _) _

theorem makes_patchUpdate (config : MachineConfig) (u : Update) (fleet : Fleet)
    (target dest : List Char) : (patchUpdate py config u fleet target dest).Makes NotLha :=
  (makes_onlyIf (makes_patchKicklayout fleet target dest _ _ none)).bind fun _ =>
    makes_onlyIf (makes_patchKicklayout fleet target dest _ _ none)

theorem makes_fixLinks (t : Mcpd) (u : Update) (dest : List Char) :
    (fixLinks t u dest).Makes NotLha :=
  (makes_forEach (fun _ => (makes_deleteLink t _).bind fun _ => makes_makeLink t _ _) _).bind fun _ =>
    makes_onlyIf (makes_guarded ((makes_pathRequest t _ _ _).bind fun _ =>
      (makes_forEach (fun _ => makes_deleteLink t _) _).bind fun _ =>
        makes_forEach (fun _ => makes_makeLink t _ _) _))

theorem makes_renameMangled (t : Mcpd) (dest : List Char) :
    (renameMangled t dest).Makes NotLha :=
  (makes_maybeRename t _ _).bind fun _ =>
    (makes_forEach (fun _ => makes_maybeRename t _ _) _).bind fun _ =>
      makes_guarded (makes_execCmd (by simp))

theorem makes_backUpFiles (t : Mcpd) (dest : List Char) : (backUpFiles t dest).Makes NotLha :=
  makes_forEach (fun _ => makes_guarded (makes_request (by decide))) _

theorem makes_installUpdate (config : MachineConfig) (u : Update) (t : Mcpd) (fleet : Fleet)
    (target dest : List Char) : (installUpdate py config u t fleet target dest).Makes NotLha :=
  (makes_onlyIf (makes_backUpFiles t dest)).bind fun _ =>
    (makes_copyUpdate config u fleet target dest).bind fun _ =>
      (makes_patchUpdate config u fleet target dest).bind fun _ =>
        (makes_fixLinks t u dest).bind fun _ => makes_renameMangled t dest

/-! ## Steps -/

theorem next_some {s s' : Ctx × List Event} {k : InstallStep}
    (h : next py world s k = some s') :
    ∃ output, Prog.exec world ((k.step py).fn s.1) s.2 = (.ok (output, s'.1), eventsOf py world s k) ∧
      s'.2 = s.2 ++ eventsOf py world s k := by
  unfold next at h
  unfold eventsOf
  split at h
  · rename_i output ctx es heq
    cases h
    rw [heq]
    exact ⟨output, rfl, rfl⟩
  · cases h

theorem next_none {s : Ctx × List Event} {k : InstallStep} (h : next py world s k = none) :
    ∃ e, Prog.exec world ((k.step py).fn s.1) s.2 = (.error e, eventsOf py world s k) := by
  unfold next at h
  unfold eventsOf
  split at h
  · cases h
  · rename_i e es heq
    rw [heq]
    exact ⟨e, rfl⟩

/-- A reply with a readable exit code that is not passed over. -/
theorem exitedZero_iff {raw : Json} (h : ∃ code, replyCode py raw = .ok code) :
    exitedZero py raw ↔ ¬ PassedOver py raw := by
  unfold PassedOver
  rw [not_and, not_not]
  exact ⟨fun hzero _ => hzero, fun hzero => hzero h⟩

theorem protect_ne_copy {t t' : Mcpd} {src dst dest : List Char} {all clone quiet : Bool}
    {timeoutS : Nat} : protectRequest t dest ≠ copyRequest t' src dst all clone quiet timeoutS := by
  intro heq
  have hparam := (List.cons.inj (congrArg Request.params heq)).1
  have hcommand := Param.str.inj (Prod.mk.inj hparam).2
  have hletter : some 'P' = some 'C' := congrArg List.head? hcommand
  cases hletter

/-- A step that makes its critical request once ended with what that was answered. -/
theorem endedZero_iff {s : Ctx × List Event} {k : InstallStep} {req : Request} {raw : Json}
    (hreq : critical s.1 k = some req) (hmade : (req, .ok raw) ∈ eventsOf py world s k)
    (honce : ∀ ev ∈ eventsOf py world s k, ev.1 = req → ev = (req, .ok raw)) :
    EndedZero py world s k ↔ exitedZero py raw := by
  have hended : EndedZero py world s k ↔ ∃ req, critical s.1 k = some req ∧
      (∃ ev ∈ eventsOf py world s k, ev.1 = req) ∧
      ∀ ev ∈ eventsOf py world s k, ev.1 = req → ∃ raw, ev.2 = .ok raw ∧ exitedZero py raw := by
    cases k with
    | other step => cases hreq
    | _ => rfl
  rw [hended]
  constructor
  · intro ⟨req', hreq', _, hall⟩
    cases hreq.symm.trans hreq'
    obtain ⟨raw', hraw', hzero⟩ := hall (req, .ok raw) hmade rfl
    cases hraw'
    exact hzero
  · intro hzero
    refine ⟨req, hreq, ⟨(req, .ok raw), hmade, rfl⟩, fun ev hev heq => ?_⟩
    rw [honce ev hev heq]
    exact ⟨raw, rfl, hzero⟩

/-- In a step that returns, nothing is passed over exactly if it ended with exit code zero. -/
theorem heeded_iff {s s' : Ctx × List Event} {k : InstallStep} (h : next py world s k = some s') :
    Heeded py world s k ↔ EndedZero py world s k := by
  obtain ⟨output, hexec, _⟩ := next_some h
  cases k with
  | copyBaseOs =>
    obtain ⟨req, dest, t, raw, value, hreq, hdest, ht, hraw, hcode, hvalue, hes⟩ :=
      copyBaseOs_ok.mp ⟨_, hexec⟩
    have hended : EndedZero py world s .copyBaseOs ↔ exitedZero py raw := by
      refine endedZero_iff hreq (by rw [hes]; simp) fun ev hev heq => ?_
      rw [hes, List.mem_pair] at hev
      rcases hev with rfl | rfl
      · rfl
      · obtain ⟨_, _, _, _, _, _, _, _, _, _, rfl⟩ := critical_copy.mp hreq
        exact absurd heq protect_ne_copy
    rw [hended, exitedZero_iff hcode]
    constructor
    · intro hheeded hover
      obtain ⟨e, he⟩ := hheeded req dest t raw hreq hdest ht hraw hover
      rw [hvalue] at he
      cases he
    · intro hover req' dest' t' raw' hreq' _ _ hraw' hover'
      cases hreq.symm.trans hreq'
      cases hraw.symm.trans hraw'
      exact absurd hover' hover
  | applyOneUpdate config u =>
    obtain ⟨req, fleet, target, dest, t, es₁, raw, es₂, hreq, hfleet, htarget, hdest, ht, hmake, hraw,
      hcode, hinstall, hes⟩ := applyOneUpdate_ok.mp ⟨_, hexec⟩
    have hnot : ¬ NotLha req := by
      obtain ⟨_, _, _, _, _, _, _, _, rfl⟩ := critical_update.mp hreq
      exact not_notLha _ _ _ _
    have hended : EndedZero py world s (.applyOneUpdate config u) ↔ exitedZero py raw := by
      refine endedZero_iff hreq (by rw [hes]; simp) fun ev hev heq => ?_
      rw [hes, List.mem_append, List.mem_cons] at hev
      rcases hev with hev | rfl | hev
      · have hmade : ev ∈ (Prog.exec world (amigaMakedir py t (scratchPath dest u)) s.2).2 := by
          rw [hmake]
          exact hev
        exact absurd (heq ▸ (makes_amigaMakedir t _).events s.2 ev hmade) hnot
      · rfl
      · have hmade : ev ∈ (Prog.exec world (installUpdate py config u t fleet target dest)
            (s.2 ++ es₁ ++ [(req, .ok raw)])).2 := by
          rw [hinstall]
          exact hev
        exact absurd (heq ▸ (makes_installUpdate config u t fleet target dest).events _ ev hmade)
          hnot
    rw [hended, exitedZero_iff hcode]
    constructor
    · intro hheeded hover
      obtain ⟨e, es', he⟩ := hheeded req fleet target dest t es₁ raw hreq hfleet htarget hdest ht
        hmake hraw hover
      rw [hinstall] at he
      cases he
    · intro hover req' fleet' target' dest' t' es' raw' hreq' _ _ hdest' ht' hmake' hraw' hover'
      cases hreq.symm.trans hreq'
      cases hdest.symm.trans hdest'
      cases ht.symm.trans ht'
      cases hmake.symm.trans hmake'
      cases hraw.symm.trans hraw'
      exact absurd hover' hover
  | other step =>
    constructor
    · intro _
      trivial
    · intro _ _ cls message es heq
      rw [show (InstallStep.other step).step py = step from rfl] at hexec
      rw [hexec] at heq
      cases heq

/-- A step that raises passes nothing over, unless the raise itself goes unnoticed. -/
theorem heeded_of_raises {s : Ctx × List Event} {k : InstallStep} {e : Raised} {es : List Event}
    (h : Prog.exec world ((k.step py).fn s.1) s.2 = (.error e, es)) :
    Heeded py world s k ↔
      ((k.step py).name = [] → ∀ cls message, e ≠ .exception cls message) := by
  cases k with
  | copyBaseOs =>
    refine iff_of_true ?_ fun hname => ?_
    · intro req dest t raw hreq hdest ht hraw hover
      by_contra hno
      cases hprotect : world (s.2 ++ [(req, .ok raw)]) (protectRequest t dest) with
      | error e' => exact hno ⟨e', hprotect⟩
      | ok value =>
        obtain ⟨out, hout⟩ := copyBaseOs_ok.mpr
          ⟨req, dest, t, raw, value, hreq, hdest, ht, hraw, hover.1, hprotect, rfl⟩
        cases h.symm.trans hout
    · exact absurd hname (List.cons_ne_nil _ _)
  | applyOneUpdate config u =>
    refine iff_of_true ?_ fun hname => ?_
    · intro req fleet target dest t es₁ raw hreq hfleet htarget hdest ht hmake hraw hover
      rcases hinstall : Prog.exec world (installUpdate py config u t fleet target dest)
        (s.2 ++ es₁ ++ [(req, .ok raw)]) with ⟨e' | ⟨⟨⟩⟩, es₂⟩
      · exact ⟨e', es₂, hinstall⟩
      · obtain ⟨out, hout⟩ := applyOneUpdate_ok.mpr ⟨req, fleet, target, dest, t, es₁, raw, es₂, hreq,
          hfleet, htarget, hdest, ht, hmake, hraw, hover.1, hinstall, rfl⟩
        cases h.symm.trans hout
    · exact absurd hname (List.cons_ne_nil _ _)
  | other step =>
    constructor
    · intro hheeded hname cls message heq
      subst heq
      exact hheeded hname cls message es h
    · intro hnot hname cls message es' heq
      cases h.symm.trans heq
      exact hnot hname cls message rfl

/-! ## Runs -/

/-- The loop goes on behind the steps that have returned. -/
theorem runSteps_append {s s' : Ctx × List Event} {pre : List InstallStep}
    (hrun : run (next py world) s pre = some s') (results : List StepResult) :
    ∃ es oks, s'.2 = s.2 ++ es ∧ List.Forall₂ (Reports py) oks pre ∧ ∀ rest,
      Prog.exec world (runSteps py ((pre ++ rest).map (·.step py)) s.1 results) s.2 =
        ((Prog.exec world (runSteps py (rest.map (·.step py)) s'.1 (results ++ oks)) s'.2).1,
          es ++ (Prog.exec world (runSteps py (rest.map (·.step py)) s'.1 (results ++ oks)) s'.2).2) := by
  induction pre generalizing s results with
  | nil =>
    cases hrun
    exact ⟨[], [], by simp, .nil, by simp⟩
  | cons k pre ih =>
    obtain ⟨m, hm, hrest⟩ := run_cons_some hrun
    obtain ⟨output, hexec, hevents⟩ := next_some hm
    obtain ⟨es, oks, hes, hoks, hgo⟩ := ih hrest (results ++ [okResult (k.step py) output])
    refine ⟨eventsOf py world s k ++ es, okResult (k.step py) output :: oks, ?_,
      .cons ⟨rfl, rfl, rfl⟩ hoks, ?_⟩
    · rw [hes, hevents, List.append_assoc]
    · intro rest
      have hattempt : Prog.exec world ((k.step py).fn s.1).attempt s.2 = _ :=
        Prog.exec_attempt ((k.step py).fn s.1) s.2
      rw [hexec] at hattempt
      rw [List.cons_append, List.map_cons, runSteps, Prog.exec_bind_ok hattempt]
      dsimp only
      rw [← hevents, hgo rest, List.append_assoc, List.append_assoc]
      rfl

/-- A run whose steps have all returned reports success. -/
theorem truthful_of_returns {ctx : Ctx} {ks : List InstallStep} {s : Ctx × List Event}
    (hrun : run (next py world) (ctx, []) ks = some s) :
    Truthful py world ctx ks ↔ Along (next py world) (EndedZero py world) (ctx, []) ks := by
  obtain ⟨es, oks, hes, hoks, hgo⟩ := runSteps_append hrun []
  have hall := hgo []
  simp only [List.append_nil, List.map_nil, runSteps, Prog.exec_return, List.nil_append] at hall hes
  subst hes
  have hexec : ∀ machine description, Prog.exec world (SequenceRunner.run py
      ⟨⟨machine, description, ks.map (·.step py)⟩, ctx⟩ false) [] =
        (.ok ⟨machine, description, .ok, oks, none, false⟩, s.2) := by
    intro machine description
    rw [SequenceRunner.run, if_neg Bool.false_ne_true, Prog.exec_bind_ok hall]
    simp [failedTruthy]
  constructor
  · intro htruth
    exact (htruth [] [] _ _ (hexec [] []) rfl).2.2
  · intro hended machine description res events hres _
    rw [hexec] at hres
    cases hres
    exact ⟨⟨s.1, hrun⟩, hoks, hended⟩

/-- A run that a step has stopped reports success only if the step has no name. -/
theorem truthful_of_stops {ctx : Ctx} {pre post : List InstallStep} {k : InstallStep}
    {s : Ctx × List Event} {e : Raised} {es : List Event}
    (hrun : run (next py world) (ctx, []) pre = some s)
    (hstop : Prog.exec world ((k.step py).fn s.1) s.2 = (.error e, es)) :
    Truthful py world ctx (pre ++ k :: post) ↔
      ((k.step py).name = [] → ∀ cls message, e ≠ .exception cls message) := by
  obtain ⟨es', oks, hes, hoks, hgo⟩ := runSteps_append hrun []
  have hattempt : Prog.exec world ((k.step py).fn s.1).attempt s.2 = _ :=
    Prog.exec_attempt ((k.step py).fn s.1) s.2
  have hstuck : run (next py world) (ctx, []) (pre ++ k :: post) = none := by
    rw [run_append hrun, run, next, hstop]
  rw [hstop] at hattempt
  have hall := hgo (k :: post)
  rw [List.map_cons, runSteps, Prog.exec_bind_ok hattempt] at hall
  cases e with
  | cancelled =>
    refine iff_of_true ?_ (fun _ _ _ heq => by cases heq)
    intro machine description res events hres
    rw [SequenceRunner.run, if_neg Bool.false_ne_true, Prog.exec_bind_error hall] at hres
    cases hres
  | exception cls message =>
    constructor
    · intro htruth hname cls' message' heq
      have hexec : ∃ res events, Prog.exec world (SequenceRunner.run py
          ⟨⟨[], [], (pre ++ k :: post).map (·.step py)⟩, ctx⟩ false) [] = (.ok res, events) ∧
            res.overall = .ok := by
        rw [SequenceRunner.run, if_neg Bool.false_ne_true, Prog.exec_bind_ok hall]
        exact ⟨_, _, rfl, by simp [failedTruthy, hname]⟩
      obtain ⟨res, events, hres, hoverall⟩ := hexec
      obtain ⟨⟨ctx', hnext⟩, _⟩ := htruth _ _ res events hres hoverall
      rw [hstuck] at hnext
      cases hnext
    · intro hname machine description res events hres hoverall
      have hnonempty : (k.step py).name ≠ [] := fun h => hname h cls message rfl
      rw [SequenceRunner.run, if_neg Bool.false_ne_true, Prog.exec_bind_ok hall] at hres
      cases hres
      simp [failedTruthy, hnonempty] at hoverall

/-- Success is reported truthfully, for a sequence and for all that it begins with,
exactly when every step that is executed passes no nonzero exit code over and has a
name if it raises. -/
theorem truthful_iff (py : PyText) (world : World) (ctx : Ctx) (ks : List InstallStep) :
    (∀ pre, pre <+: ks → Truthful py world ctx pre) ↔
      Along (next py world) (Heeded py world) (ctx, []) ks := by
  constructor
  · intro htruth
    apply along_iff_snoc.mpr
    intro pre k s hpre hrun
    have hk := htruth _ hpre
    cases hnext : next py world s k with
    | some s' =>
      have hrun' : run (next py world) (ctx, []) (pre ++ [k]) = some s' := by
        rw [run_append hrun, run, hnext]
        rfl
      have hended := along_iff_snoc.mp ((truthful_of_returns hrun').mp hk) pre k s
        (List.prefix_refl _) hrun
      exact (heeded_iff hnext).mpr hended
    | none =>
      obtain ⟨e, hstop⟩ := next_none hnext
      exact (heeded_of_raises hstop).mpr ((truthful_of_stops hrun hstop).mp hk)
  · rintro halong pre ⟨post, rfl⟩
    have hpre := halong.append_left
    cases hrun : run (next py world) (ctx, []) pre with
    | some s =>
      refine (truthful_of_returns hrun).mpr (along_iff_snoc.mpr ?_)
      rintro bs k m ⟨cs, rfl⟩ hbs
      obtain ⟨m', hm', _⟩ := run_append_some hrun
      rw [run_append hbs] at hm'
      obtain ⟨m'', hnext, _⟩ := run_cons_some hm'
      exact (heeded_iff hnext).mp (along_iff_snoc.mp hpre bs k m (by simp) hbs)
    | none =>
      obtain ⟨bs, k, cs, m, rfl, hbs, hnext⟩ := run_none_split hrun
      obtain ⟨e, hstop⟩ := next_none hnext
      refine (truthful_of_stops hbs hstop).mpr ((heeded_of_raises hstop).mp ?_)
      exact along_iff_snoc.mp hpre bs k m ⟨cs, by simp⟩ hbs

/-! ## A copy that fails -/

def samplePy : PyText where
  alnum _ := false
  digit _ := false
  str _ := []
  repr _ := []
  reprStr s := s
  intOfText _ := none
  message _ _ := []
  traceback _ := .null

/-- Every request is answered, and every command ends with one exit code. -/
def answersWith (code : Int) : World := fun _ _ => .ok (.dict [(ascii "exit_code", .int code)])

def sampleCtx : Ctx where
  fleet := some ⟨fun _ => .ok 0⟩
  target := some "x5000".toList
  mcpd := some 0
  isoVolume := some "AmigaOS 4.1 Final Edition:".toList
  destVolume := some "BootTest:".toList

/-- The base copy ends with exit code 20, and the installation is reported ok. -/
theorem failed_copy_reported_ok :
    ¬ Truthful samplePy (answersWith 20) sampleCtx [.copyBaseOs] := by
  intro htruth
  have hstep : ∃ s, next samplePy (answersWith 20) (sampleCtx, []) .copyBaseOs = some s := ⟨_, rfl⟩
  obtain ⟨s, hnext⟩ := hstep
  have hrun : run (next samplePy (answersWith 20)) (sampleCtx, []) [.copyBaseOs] = some s := by
    rw [run, hnext]
    rfl
  have hended := ((truthful_of_returns hrun).mp htruth).head
  have hheeded := (heeded_iff hnext).mpr hended
  have hover : PassedOver samplePy (.dict [(ascii "exit_code", .int 20)]) := by
    refine ⟨⟨20, rfl⟩, ?_⟩
    rintro ⟨code, hcode, hzero⟩
    cases hcode
    cases hzero
  obtain ⟨e, he⟩ := hheeded _ _ _ _ rfl rfl rfl rfl hover
  cases he

end AmigaFleet.Host.Installer

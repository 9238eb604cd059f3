import AmigaFleet.Host.SandboxRun
import AmigaFleet.Lib.Keyed
import AmigaFleet.Lib.Run

/-!
# Whose output a guest run returns

The lock of a target keeps the calls apart only as long as a call leaves nothing when it
lets the lock go: no guest that lives, and no capture file.  Then what a call returns is
what its own guest has printed, whatever names the other calls give to their guests.

* `Tidy`: the labels that leave nothing.
* `Busy` is what is known of a target whose lock a call has, `Turn` what a call does with it.
* `captures_own`: the calls of a tidy run.
* `stale_told`: a file that is not deleted, and a guest that lives on.
-/

namespace AmigaFleet.Host.SandboxRun

open AmigaFleet.Lib
open SandboxBatch (Capture SandboxConfig)

variable (decode : Bytes → Text) (cfg : Target → Option SandboxConfig)

/-! ## Tidy runs -/

/-- The file that a call reads or deletes. -/
def Sys.file (s : Sys) (c : Call) (stream : Stream) : Option Bytes :=
  (s.machines c.request.target).captures c.request.runName stream

/-- The label leaves no guest and no file behind the call. -/
def TidyCall (s : Sys) (c : Call) : Label → Prop
  | .starts _ => c.phase = .executing
  | .fails _ => c.guest ∉ (s.machines c.request.target).guests
  | .reads _ .targetError => ∀ stream ∈ c.phase.reads?, s.file c stream = none
  | .reads _ .raises => c.started = false
  | .deletes _ false => ∀ stream ∈ c.phase.deletes?, s.file c stream = none
  | .cancel _ => c.started = false
  | _ => True

/-- A guest ends before its call goes on, `fs.read` and `fs.delete` fail only where there is no
file, and no call is left while there can be one. -/
def Tidy (s : Sys) (a : Label) : Prop :=
  ∀ c ∈ a.call?.bind fun i => s.calls[i]?, TidyCall s c a

instance (s : Sys) (c : Call) : ∀ a, Decidable (TidyCall s c a)
  | .starts _ => inferInstanceAs (Decidable (_ = _))
  | .fails _ => inferInstanceAs (Decidable (_ ∉ _))
  | .reads _ .targetError => inferInstanceAs (Decidable (∀ stream ∈ c.phase.reads?, _))
  | .deletes _ false => inferInstanceAs (Decidable (∀ stream ∈ c.phase.deletes?, _))
  | .reads _ .raises | .cancel _ => inferInstanceAs (Decidable (_ = _))
  | .call _ _ | .acquires _ | .writes _ _ _ _ _ | .ends _ _ | .returns _ _ _ | .reads _ .answers
  | .deletes _ true => isTrue trivial

instance (s : Sys) (a : Label) : Decidable (Tidy s a) :=
  inferInstanceAs (Decidable (∀ c ∈ a.call?.bind fun i => s.calls[i]?, _))

/-! ## What is known of a call -/

/-- The text of a file, which is empty if there is none. -/
def textOf (file : Option Bytes) : Text :=
  match file with
  | none => []
  | some content => if content = [] then [] else decode content

/-- `_read_capture` gives back what is in the file. -/
theorem readCapture_eq (file : Option Bytes) :
    readCapture decode file = (textOf decode file, file.isSome) := by
  cases file with
  | none => rfl
  | some content =>
    have hempty : Base64.encode content = [] ↔ content = [] := by
      constructor
      · intro h
        have := PyBase64.b64decode_encode content
        rw [h] at this
        exact (Option.some.inj this).symm
      · rintro rfl
        rfl
    simp only [readCapture, capturedText, textOf, hempty, PyBase64.b64decode_encode, Option.map_some,
      Option.getD_some, Option.isSome_some]

/-- What its guest has printed. -/
def Call.printed (c : Call) : Capture where
  stdout := textOf decode (c.wrote .out)
  stdoutPresent := (c.wrote .out).isSome
  stderr := textOf decode (c.wrote .err)
  stderrPresent := (c.wrote .err).isSome

/-- The files of a call that has the lock. -/
def Call.left (c : Call) (stream : Stream) : Option Bytes :=
  if c.phase = .deletingErr ∧ stream = .out then none else c.wrote stream

/-- What a call has read is what its guest has printed. -/
structure Told (c : Call) : Prop where
  waits : c.phase = .waiting → c.started = false
  silent : c.started = false → c.wrote = fun _ => none
  readOut : c.phase = .readingErr ∨ c.phase = .deletingOut ∨ c.phase = .deletingErr →
    c.capture.stdout = (c.printed decode).stdout ∧
      c.capture.stdoutPresent = (c.printed decode).stdoutPresent
  readErr : c.phase = .deletingOut ∨ c.phase = .deletingErr → c.capture = c.printed decode
  returned : ∀ r, c.phase = .done (.returned r) → ∃ raw, c.raw = some raw ∧
    r = c.request.result c.probePath (cfg c.request.target) raw (c.printed decode)

def Works (c : Call) (t : Target) : Prop := c.request.target = t ∧ c.phase.locks = true

/-- Nobody has the lock of the target. -/
structure Rest (machines : Machines) (t : Target) : Prop where
  guests : (machines t).guests = []
  captures : ∀ name stream, (machines t).captures name stream = none

/-- The call has the lock of the target. -/
structure Busy (machines : Machines) (c : Call) (t : Target) : Prop where
  guests : (machines t).guests = [] ∨
    (machines t).guests = [c.guest] ∧ c.phase = .executing ∧ c.started = true
  captures : ∀ name stream, (machines t).captures name stream =
    if name = c.request.runName then c.left stream else none

structure Inv (s : Sys) : Prop where
  keyed : Keyed Works Rest Busy s.machines s.calls
  ids : ∀ (i : Nat) (c : Call), s.calls[i]? = some c → c.id = i
  told : ∀ c ∈ s.calls, Told decode cfg c

theorem keepsKey_of_eq {machines machines' : Machines} {t : Target}
    (h : machines' t = machines t) : KeepsKey Rest Busy machines machines' t where
  rest hrest := ⟨h ▸ hrest.guests, h ▸ hrest.captures⟩
  busy _ hbusy := ⟨h ▸ hbusy.guests, h ▸ hbusy.captures⟩

theorem told_new (id : Nat) (r : RunRequest) (probePath : Text) :
    Told decode cfg { id := id, request := r, probePath := probePath } where
  waits _ := rfl
  silent _ := rfl
  readOut h := by simp at h
  readErr h := by simp at h
  returned r h := by cases h

/-- A call that is left by an exception. -/
theorem Told.raised {decode : Bytes → Text} {cfg : Target → Option SandboxConfig} {c : Call}
    (h : Told decode cfg c) : Told decode cfg { c with phase := .done .raised } where
  waits hp := by cases hp
  silent := h.silent
  readOut hp := by simp at hp
  readErr hp := by simp at hp
  returned r hp := by cases hp

theorem boot_inv : Inv decode cfg boot where
  keyed := Keyed.nil fun _ => ⟨rfl, fun _ _ => rfl⟩
  ids i c h := by simp [boot] at h
  told c h := by cases h

/-! ## The turn of a call -/

/-- What a call does with its target. -/
structure Turn (machines machines' : Machines) (c b : Call) : Prop where
  others : ∀ t, t ≠ c.request.target → machines' t = machines t
  request : b.request = c.request
  id : b.id = c.id
  busy : b.phase.locks = true → Busy machines' b c.request.target
  rest : b.phase.locks = false → Rest machines' c.request.target
  told : Told decode cfg b

section

variable {decode cfg} {s : Sys} {i : Nat} {c b : Call}

theorem Inv.atCall (h : Inv decode cfg s) (hc : s.calls[i]? = some c) (hlocks : c.phase.locks = true) :
    Busy s.machines c c.request.target :=
  h.keyed.busy c (List.mem_of_getElem? hc) _ ⟨rfl, hlocks⟩

theorem Inv.ids_set (h : Inv decode cfg s) (hc : s.calls[i]? = some c) (hid : b.id = c.id) (j : Nat)
    (d : Call) (hd : (s.calls.set i b)[j]? = some d) : d.id = j := by
  rcases Keyed.getElem?_set_cases hd with ⟨rfl, rfl⟩ | ⟨-, hold⟩
  · exact hid.trans (h.ids _ c hc)
  · exact h.ids j d hold

theorem Inv.told_set (h : Inv decode cfg s) (hb : Told decode cfg b) :
    ∀ d ∈ s.calls.set i b, Told decode cfg d := by
  intro d hd
  rcases List.mem_or_eq_of_mem_set hd with hold | rfl
  · exact h.told d hold
  · exact hb

/-- A call that has the lock goes on. -/
theorem Inv.turn (h : Inv decode cfg s) (hc : s.calls[i]? = some c) (hlocks : c.phase.locks = true)
    {machines : Machines} (hturn : Turn decode cfg s.machines machines c b) :
    Inv decode cfg ⟨machines, s.calls.set i b⟩ where
  keyed := by
    refine h.keyed.move hc (fun t hb => ⟨hturn.request ▸ hb.1, hlocks⟩) (fun t hnot => ?_)
      (fun t hb _ => ?_) fun t hct hnot _ => ?_
    · exact keepsKey_of_eq (hturn.others t fun ht => hnot ⟨ht.symm, hlocks⟩)
    · obtain ⟨htarget, hbusy⟩ := hb
      rw [hturn.request] at htarget
      exact htarget ▸ hturn.busy hbusy
    · obtain ⟨htarget, -⟩ := hct
      have hfree : b.phase.locks = false :=
        Bool.eq_false_iff.mpr fun hbusy => hnot ⟨(congrArg _ hturn.request).trans htarget, hbusy⟩
      exact htarget ▸ hturn.rest hfree
  ids := h.ids_set hc hturn.id
  told := h.told_set hturn.told

/-- A call that has no lock, and goes on without one. -/
theorem Inv.stay (h : Inv decode cfg s) (hc : s.calls[i]? = some c) (hlocks : c.phase.locks = false)
    (hb : b.phase.locks = false) (hid : b.id = c.id) (htold : Told decode cfg b) :
    Inv decode cfg (s.setCall i b) where
  keyed :=
    have hnot : ∀ t, ¬ Works c t := fun t hct => by simp [hct.2] at hlocks
    have hnotb : ∀ t, ¬ Works b t := fun t hbt => by simp [hbt.2] at hb
    h.keyed.take hc hnot (fun d hd t _ => hnotb t) (fun t _ => keepsKey_of_eq rfl)
      fun t hbt => absurd hbt (hnotb t)
  ids := h.ids_set hc hid
  told := h.told_set htold

/-- The call leaves its target as it is, and no guest lives there. -/
theorem Turn.calm (hbusy : Busy s.machines c c.request.target)
    (hguests : (s.machines c.request.target).guests = []) (hrequest : b.request = c.request)
    (hid : b.id = c.id) (hlocks : b.phase.locks = true) (hleft : b.left = c.left)
    (htold : Told decode cfg b) : Turn decode cfg s.machines s.machines c b where
  others _ _ := rfl
  request := hrequest
  id := hid
  busy _ := ⟨.inl hguests, fun name stream => by rw [hbusy.captures, hrequest, hleft]⟩
  rest h := by simp [hlocks] at h
  told := htold

/-- Only a call that executes has a guest that lives. -/
theorem Busy.no_guests {machines : Machines} {t : Target} (h : Busy machines c t)
    (hphase : c.phase ≠ .executing) : (machines t).guests = [] :=
  h.guests.resolve_right fun hg => hphase hg.2.1

/-- A call that is left by an exception before its guest has been started. -/
theorem Turn.raised (hbusy : Busy s.machines c c.request.target) (htold : Told decode cfg c)
    (hstarted : c.started = false) :
    Turn decode cfg s.machines s.machines c { c with phase := .done .raised } where
  others _ _ := rfl
  request := rfl
  id := rfl
  busy h := by cases h
  rest _ :=
    { guests := hbusy.guests.resolve_right fun hg => by simp [hstarted] at hg
      captures := fun name stream => by
        rw [hbusy.captures]
        simp [Call.left, htold.silent hstarted] }
  told := htold.raised

/-! ## The steps of a call -/

theorem inv_acquires (h : Inv decode cfg s) (hc : s.calls[i]? = some c) (hphase : c.phase = .waiting)
    (hfree : s.locked c.request.target = false) :
    Inv decode cfg (s.setCall i { c with phase := .executing }) := by
  have htold := h.told c (List.mem_of_getElem? hc)
  have hstarted := htold.waits hphase
  have hnot : ∀ t, ¬ Works c t := fun t hct => by simp [Works, hphase, Phase.locks] at hct
  have hother : ∀ d ∈ s.calls, ∀ t, Works d t → t ≠ c.request.target := by
    rintro d hd t ⟨rfl, hlocks⟩ htarget
    have := List.any_eq_false.mp hfree d hd
    simp [htarget, hlocks] at this
  refine ⟨h.keyed.take hc hnot (fun d hd t hdt hbt => hother d hd t hdt hbt.1.symm)
    (fun t _ => keepsKey_of_eq rfl) fun t _ hrest => ⟨.inl hrest.guests, fun name stream => ?_⟩,
    h.ids_set hc rfl, h.told_set ⟨nofun, htold.silent, by simp, by simp, nofun⟩⟩
  show (s.machines t).captures name stream = _
  rw [hrest.captures]
  simp [Call.left, htold.silent hstarted]

theorem turn_starts (hbusy : Busy s.machines c c.request.target) (htold : Told decode cfg c)
    (hphase : c.phase = .executing) (hstarted : c.started = false) :
    Turn decode cfg s.machines
      (Function.update s.machines c.request.target
        { s.machines c.request.target with
          guests := c.guest :: (s.machines c.request.target).guests })
      c { c with started := true } where
  others t ht := Function.update_of_ne ht _ _
  request := rfl
  id := rfl
  busy _ := by
    have hnone := hbusy.guests.resolve_right fun hg => by simp [hstarted] at hg
    refine ⟨.inr ⟨?_, hphase, rfl⟩, fun name stream => ?_⟩
    · rw [Function.update_self, hnone]
      rfl
    · rw [Function.update_self]
      exact hbusy.captures name stream
  rest hfree := by simp [hphase, Phase.locks] at hfree
  told :=
    { waits := fun hp => by simp [hphase] at hp
      silent := fun hs => by cases hs
      readOut := htold.readOut
      readErr := htold.readErr
      returned := htold.returned }

theorem locks_executing (h : c.phase = .executing) : c.phase.locks = true := by
  rw [h]
  rfl

/-- `exec.cmd` has returned or raised, and the guest does not live. -/
theorem turn_executed (hbusy : Busy s.machines c c.request.target) (htold : Told decode cfg c)
    (hphase : c.phase = .executing) (hended : c.guest ∉ (s.machines c.request.target).guests)
    (raw : Option (Int × Text)) :
    Turn decode cfg s.machines s.machines c { c with phase := .readingOut, raw := raw } := by
  refine Turn.calm hbusy ?_ rfl rfl rfl ?_ ⟨nofun, htold.silent, by simp, by simp, nofun⟩
  · rcases hbusy.guests with hnone | ⟨hone, -⟩
    · exact hnone
    · simp [hone] at hended
  · funext stream
    simp [Call.left, hphase]

theorem reads?_cases {phase : Phase} {stream : Stream} (h : phase.reads? = some stream) :
    phase = .readingOut ∧ stream = .out ∨ phase = .readingErr ∧ stream = .err := by
  cases phase <;> simp_all [Phase.reads?]

theorem deletes?_cases {phase : Phase} {stream : Stream} (h : phase.deletes? = some stream) :
    phase = .deletingOut ∧ stream = .out ∨ phase = .deletingErr ∧ stream = .err := by
  cases phase <;> simp_all [Phase.deletes?]

/-- The file that a call reads is what its guest has printed. -/
theorem Busy.file_eq (hbusy : Busy s.machines c c.request.target) {stream : Stream}
    (hreads : c.phase.reads? = some stream) : s.file c stream = c.wrote stream := by
  unfold Sys.file
  rw [hbusy.captures, if_pos rfl]
  rcases reads?_cases hreads with ⟨hphase, -⟩ | ⟨hphase, -⟩ <;> simp [Call.left, hphase]

theorem turn_reads (hbusy : Busy s.machines c c.request.target) (htold : Told decode cfg c)
    {stream : Stream} (hreads : c.phase.reads? = some stream) :
    Turn decode cfg s.machines s.machines c
      (c.read stream (readCapture decode (s.file c stream))) := by
  rw [hbusy.file_eq hreads, readCapture_eq]
  rcases reads?_cases hreads with ⟨hphase, rfl⟩ | ⟨hphase, rfl⟩
  · refine Turn.calm hbusy (hbusy.no_guests (by simp [hphase])) rfl rfl rfl ?_
      ⟨nofun, htold.silent, fun _ => ⟨rfl, rfl⟩, by simp [Call.read], nofun⟩
    funext st
    simp [Call.left, Call.read, hphase]
  · obtain ⟨hout, hpresent⟩ := htold.readOut (.inl hphase)
    refine Turn.calm hbusy (hbusy.no_guests (by simp [hphase])) rfl rfl rfl ?_
      ⟨nofun, htold.silent, fun _ => ⟨hout, hpresent⟩, fun _ => ?_, nofun⟩
    · funext st
      simp [Call.left, Call.read, hphase]
    · simp only [Call.read, hout, hpresent]
      rfl

/-- The file is not there any more, the rest of the target is as it was. -/
theorem turn_deletes (hbusy : Busy s.machines c c.request.target) (htold : Told decode cfg c)
    {stream : Stream} (hdeletes : c.phase.deletes? = some stream) {machines : Machines}
    (hothers : ∀ t, t ≠ c.request.target → machines t = s.machines t)
    (hguests : (machines c.request.target).guests = (s.machines c.request.target).guests)
    (hgone : (machines c.request.target).captures c.request.runName stream = none)
    (hkept : ∀ name st, ¬ (name = c.request.runName ∧ st = stream) →
      (machines c.request.target).captures name st =
        (s.machines c.request.target).captures name st) :
    Turn decode cfg s.machines machines c (c.deleted cfg stream) := by
  rcases deletes?_cases hdeletes with ⟨hphase, rfl⟩ | ⟨hphase, rfl⟩
  · have hnone := hguests.trans (hbusy.no_guests (by simp [hphase]))
    have hread := htold.readErr (.inl hphase)
    refine ⟨hothers, rfl, rfl, fun _ => ⟨.inl hnone, fun name st => ?_⟩, nofun,
      ⟨nofun, htold.silent, fun _ => ⟨congrArg _ hread, congrArg _ hread⟩, fun _ => hread, nofun⟩⟩
    by_cases hsame : name = c.request.runName ∧ st = .out
    · obtain ⟨rfl, rfl⟩ := hsame
      rw [hgone]
      simp [Call.deleted, Call.left]
    · rw [hkept name st hsame, hbusy.captures]
      by_cases hname : name = c.request.runName
      · have hst : st ≠ .out := fun hst => hsame ⟨hname, hst⟩
        simp [Call.deleted, Call.left, hname, hst]
      · simp [Call.deleted, hname]
  · have hnone := hguests.trans (hbusy.no_guests (by simp [hphase]))
    have hread := htold.readErr (.inr hphase)
    refine ⟨hothers, rfl, rfl, nofun, fun _ => ⟨hnone, fun name st => ?_⟩,
      ⟨nofun, htold.silent, by simp [Call.deleted], by simp [Call.deleted], fun r hr => ?_⟩⟩
    · by_cases hsame : name = c.request.runName ∧ st = .err
      · obtain ⟨rfl, rfl⟩ := hsame
        exact hgone
      · rw [hkept name st hsame, hbusy.captures]
        cases st with
        | out => simp [Call.left, hphase]
        | err => exact if_neg fun hname => hsame ⟨hname, rfl⟩
    · have houtcome : c.outcome cfg = .returned r := by simpa [Call.deleted] using hr
      unfold Call.outcome at houtcome
      split at houtcome
      · cases houtcome
      · rename_i raw hraw
        cases houtcome
        exact ⟨raw, hraw, by rw [hread]; rfl⟩

/-- A call is left by an exception while it has the lock. -/
theorem inv_raises (h : Inv decode cfg s) (hc : s.calls[i]? = some c) (hlocks : c.phase.locks = true)
    (hstarted : c.started = false) :
    Inv decode cfg (s.setCall i { c with phase := .done .raised }) :=
  h.turn hc hlocks
    (Turn.raised (h.atCall hc hlocks) (h.told c (List.mem_of_getElem? hc)) hstarted)

theorem locks_of_reads? {phase : Phase} {stream : Stream} (h : phase.reads? = some stream) :
    phase.locks = true := by
  rcases reads?_cases h with ⟨rfl, -⟩ | ⟨rfl, -⟩ <;> rfl

theorem locks_of_deletes? {phase : Phase} {stream : Stream} (h : phase.deletes? = some stream) :
    phase.locks = true := by
  rcases deletes?_cases h with ⟨rfl, -⟩ | ⟨rfl, -⟩ <;> rfl

theorem inv_readStep {s' : Sys} {how : ReadEnd} (h : Inv decode cfg s) (hc : s.calls[i]? = some c)
    (htidy : TidyCall s c (.reads i how)) (hstep : readStep decode s i c how = some s') :
    Inv decode cfg s' := by
  obtain ⟨stream, hreads, rfl⟩ := Option.map_eq_some_iff.mp hstep
  have hlocks := locks_of_reads? hreads
  have hturn := h.turn hc hlocks
    (turn_reads (h.atCall hc hlocks) (h.told c (List.mem_of_getElem? hc)) hreads)
  cases how with
  | answers => exact hturn
  | targetError =>
    -- without a file, an answer and a `TargetError` are the same to `_read_capture`
    rw [htidy stream hreads] at hturn
    exact hturn
  | raises => exact inv_raises h hc hlocks htidy

theorem inv_deleteStep {s' : Sys} {done : Bool} (h : Inv decode cfg s) (hc : s.calls[i]? = some c)
    (htidy : TidyCall s c (.deletes i done)) (hstep : deleteStep cfg s i c done = some s') :
    Inv decode cfg s' := by
  obtain ⟨stream, hdeletes, rfl⟩ := Option.map_eq_some_iff.mp hstep
  have hlocks := locks_of_deletes? hdeletes
  have htold := h.told c (List.mem_of_getElem? hc)
  cases done with
  | true =>
    show Inv decode cfg ⟨Function.update s.machines c.request.target
      ((s.machines c.request.target).setCapture c.request.runName stream none),
      s.calls.set i (c.deleted cfg stream)⟩
    refine h.turn hc hlocks (turn_deletes (h.atCall hc hlocks) htold hdeletes
      (fun t ht => Function.update_of_ne ht _ _) ?_ ?_ fun name st hne => ?_)
    · rw [Function.update_self]
      rfl
    · rw [Function.update_self]
      simp [Machine.setCapture]
    · rw [Function.update_self]
      by_cases hname : name = c.request.runName
      · have hst : st ≠ stream := fun hst => hne ⟨hname, hst⟩
        simp [Machine.setCapture, hname, hst]
      · simp [Machine.setCapture, hname]
  | false =>
    exact h.turn hc hlocks (turn_deletes (h.atCall hc hlocks) htold hdeletes (fun _ _ => rfl) rfl
      (htidy stream hdeletes) fun _ _ _ => rfl)

theorem inv_callStep {s' : Sys} {a : Label} (h : Inv decode cfg s) (hi : a.call? = some i)
    (hc : s.calls[i]? = some c) (htidy : TidyCall s c a)
    (hstep : callStep decode cfg s i c a = some s') : Inv decode cfg s' := by
  have htold := h.told c (List.mem_of_getElem? hc)
  cases a with
  | call r probePath => cases hi
  | writes t g stream fresh bytes => cases hi
  | ends t g => cases hi
  | acquires j =>
    obtain ⟨⟨hphase, hfree⟩, heq⟩ := Option.ite_none_right_eq_some.mp hstep
    cases heq
    exact inv_acquires h hc hphase hfree
  | starts j =>
    obtain ⟨⟨hstarted, -⟩, heq⟩ := Option.ite_none_right_eq_some.mp hstep
    cases heq
    have hlocks := locks_executing htidy
    exact h.turn hc hlocks (turn_starts (h.atCall hc hlocks) htold htidy hstarted)
  | returns j exitCode output =>
    obtain ⟨⟨hphase, -, hended⟩, heq⟩ := Option.ite_none_right_eq_some.mp hstep
    cases heq
    have hlocks := locks_executing hphase
    exact h.turn hc hlocks (turn_executed (h.atCall hc hlocks) htold hphase hended _)
  | fails j =>
    obtain ⟨hphase, heq⟩ := Option.ite_none_right_eq_some.mp hstep
    cases heq
    have hlocks := locks_executing hphase
    exact h.turn hc hlocks (turn_executed (h.atCall hc hlocks) htold hphase htidy _)
  | reads j how =>
    cases hi
    exact inv_readStep h hc htidy hstep
  | deletes j done =>
    cases hi
    exact inv_deleteStep h hc htidy hstep
  | cancel j =>
    obtain ⟨-, heq⟩ := Option.ite_none_left_eq_some.mp hstep
    cases heq
    cases hlocks : c.phase.locks with
    | false => exact h.stay hc hlocks rfl rfl htold.raised
    | true => exact inv_raises h hc hlocks htidy

/-! ## The steps of the guests -/

/-- A guest lives only while its call executes. -/
theorem Inv.call_of_guest (h : Inv decode cfg s) {t : Target} {g : Guest}
    (hg : g ∈ (s.machines t).guests) :
    ∃ c, s.calls[g.call]? = some c ∧ g = c.guest ∧ c.request.target = t ∧ c.phase = .executing ∧
      c.started = true := by
  by_cases hfree : ∀ c ∈ s.calls, ¬ Works c t
  · rw [(h.keyed.rest t hfree).guests] at hg
    cases hg
  · push Not at hfree
    obtain ⟨c, hmem, hworks⟩ := hfree
    rcases (h.keyed.busy c hmem t hworks).guests with hnone | ⟨hone, hphase, hstarted⟩
    · rw [hnone] at hg
      cases hg
    · rw [hone] at hg
      obtain rfl := List.mem_singleton.mp hg
      obtain ⟨j, hj⟩ := List.mem_iff_getElem?.mp hmem
      refine ⟨c, ?_, rfl, hworks.1, hphase, hstarted⟩
      rw [show c.guest.call = j from h.ids j c hj]
      exact hj

theorem turn_writes (hbusy : Busy s.machines c c.request.target) (hphase : c.phase = .executing)
    (hstarted : c.started = true) (hg : c.guest ∈ (s.machines c.request.target).guests)
    (stream : Stream) (fresh : Bool) (bytes : Bytes) :
    Turn decode cfg s.machines
      (Function.update s.machines c.request.target
        ((s.machines c.request.target).setCapture c.request.runName stream
          (appended fresh
            ((s.machines c.request.target).captures c.request.runName stream) bytes)))
      c (c.print stream fresh bytes) where
  others t ht := Function.update_of_ne ht _ _
  request := rfl
  id := rfl
  busy _ := by
    have hone := (hbusy.guests.resolve_left (List.ne_nil_of_mem hg)).1
    refine ⟨.inr ⟨?_, hphase, hstarted⟩, fun name st => ?_⟩
    · rw [Function.update_self]
      exact hone
    · rw [Function.update_self]
      by_cases hname : name = c.request.runName
      · by_cases hst : st = stream <;>
          simp [Machine.setCapture, hname, hst, hbusy.captures, Call.left, Call.print, hphase]
      · simp [Machine.setCapture, hname, hbusy.captures, Call.print]
  rest hfree := by simp [Call.print, hphase, Phase.locks] at hfree
  told := by
    refine ⟨fun hp => ?_, fun hs => ?_, fun hp => ?_, fun hp => ?_, fun r hp => ?_⟩
    · simp [Call.print, hphase] at hp
    · simp [Call.print, hstarted] at hs
    · simp [Call.print, hphase] at hp
    · simp [Call.print, hphase] at hp
    · simp [Call.print, hphase] at hp

theorem inv_writeStep {s' : Sys} {t : Target} {g : Guest} {stream : Stream} {fresh : Bool}
    {bytes : Bytes} (h : Inv decode cfg s) (hstep : writeStep s t g stream fresh bytes = some s') :
    Inv decode cfg s' := by
  unfold writeStep at hstep
  obtain ⟨d, hd, hstep⟩ := Option.bind_eq_some_iff.mp hstep
  obtain ⟨hg, heq⟩ := Option.ite_none_right_eq_some.mp hstep
  cases heq
  obtain ⟨c, hc, rfl, rfl, hphase, hstarted⟩ := h.call_of_guest hg
  obtain rfl := Option.some.inj (hd.symm.trans hc)
  have hlocks := locks_executing hphase
  exact h.turn hc hlocks (turn_writes (h.atCall hc hlocks) hphase hstarted hg stream fresh bytes)

theorem inv_ends (h : Inv decode cfg s) (t : Target) (g : Guest) :
    Inv decode cfg (s.setMachine t
      { s.machines t with guests := (s.machines t).guests.erase g }) where
  keyed := by
    refine h.keyed.change fun k => ?_
    by_cases hk : k = t
    · subst hk
      refine ⟨fun hrest => ⟨?_, fun name stream => ?_⟩, fun c hbusy => ⟨?_, fun name stream => ?_⟩⟩
      · simp [Sys.setMachine, hrest.guests]
      · simp [Sys.setMachine, hrest.captures]
      · rcases hbusy.guests with hnone | ⟨hone, hphase⟩
        · exact .inl (by simp [Sys.setMachine, hnone])
        · by_cases hg : c.guest = g
          · exact .inl (by simp [Sys.setMachine, hone, hg])
          · exact .inr ⟨by simp [Sys.setMachine, hone, hg], hphase⟩
      · simp [Sys.setMachine, hbusy.captures]
    · exact keepsKey_of_eq (Function.update_of_ne hk _ _)
  ids := h.ids
  told := h.told

theorem inv_call (h : Inv decode cfg s) (r : RunRequest) (probePath : Text) :
    Inv decode cfg { s with
      calls := s.calls ++ [{ id := s.calls.length, request := r, probePath := probePath }] } where
  keyed := by
    have hnot : ∀ t, ¬ Works { id := s.calls.length, request := r, probePath := probePath } t :=
      fun t hworks => by cases hworks.2
    exact h.keyed.start (fun d _ t _ => hnot t) (fun t _ => keepsKey_of_eq rfl)
      fun t hworks => absurd hworks (hnot t)
  ids j d hd := by
    rcases Keyed.getElem?_snoc_cases hd with hold | ⟨rfl, rfl⟩
    · exact h.ids j d hold
    · rfl
  told d hd := by
    rcases List.mem_append.mp hd with hold | hnew
    · exact h.told d hold
    · rw [List.mem_singleton.mp hnew]
      exact told_new decode cfg _ r probePath

theorem Inv.step {s' : Sys} {a : Label} (h : Inv decode cfg s) (htidy : Tidy s a)
    (hstep : SandboxRun.step decode cfg s a = some s') : Inv decode cfg s' := by
  cases a with
  | call r probePath =>
    cases hstep
    exact inv_call h r probePath
  | writes t g stream fresh bytes => exact inv_writeStep h hstep
  | ends t g =>
    cases hstep
    exact inv_ends h t g
  | _ =>
    obtain ⟨c, hc, hstep⟩ := Option.bind_eq_some_iff.mp hstep
    exact inv_callStep h rfl hc (htidy c hc) hstep

end

/-! ## Runs -/

/-- A call that returns has its own guest's output, and where no call has the lock of a target, no
guest lives and no capture file is left. -/
theorem captures_own {labels : List Label} {s : Sys} (htidy : Along (step decode cfg) Tidy boot labels)
    (hrun : run (step decode cfg) boot labels = some s) :
    (∀ c ∈ s.calls, ∀ r, c.phase = .done (.returned r) → ∃ raw, c.raw = some raw ∧
      r = c.request.result c.probePath (cfg c.request.target) raw (c.printed decode)) ∧
    ∀ t, s.locked t = false → Rest s.machines t := by
  have hinv : Inv decode cfg s :=
    run_invariant (fun _ _ _ h ha hstep => h.step ha hstep) (boot_inv decode cfg) htidy hrun
  refine ⟨fun c hc r hr => (hinv.told c hc).returned r hr, fun t hfree => hinv.keyed.rest t ?_⟩
  rintro c hc ⟨rfl, hlocks⟩
  have := List.any_eq_false.mp hfree c hc
  simp [hlocks] at this

/-! ## Two guests of one name -/

def ascii (bytes : Bytes) : Text := bytes.map fun b => Char.ofNat b.toNat

/-- A guest that is named `g`. -/
def plainGuest : RunRequest := { target := ['t'], guest := "PROGDIR:bin/g.elf".toList }

/-- Two calls of the same guest, and the run of the first one up to its `fs.delete` of the file that
it has read. -/
def firstRuns : List Label :=
  [.call plainGuest [], .call plainGuest [], .acquires 0, .starts 0,
    .writes ['t'] ⟨0, ['g']⟩ .out true [104, 105], .ends ['t'] ⟨0, ['g']⟩, .returns 0 0 [],
    .reads 0 .answers, .reads 0 .targetError]

/-- The second call, whose guest prints nothing. -/
def secondRuns : List Label :=
  [.acquires 1, .starts 1, .ends ['t'] ⟨1, ['g']⟩, .returns 1 0 [], .reads 1 .answers,
    .reads 1 .answers, .deletes 1 true, .deletes 1 false]

/-- Both, where `fs.delete` has deleted the file of the first one or not. -/
def bothRun (deleted : Bool) : List Label :=
  firstRuns ++ [.deletes 0 deleted, .deletes 0 false] ++ secondRuns

/-- The first guest has not ended when its `exec.cmd` times out, and prints then. -/
def outlived : List Label :=
  [.call plainGuest [], .call plainGuest [], .acquires 0, .starts 0, .fails 0, .reads 0 .answers,
    .reads 0 .answers, .deletes 0 false, .deletes 0 false,
    .writes ['t'] ⟨0, ['g']⟩ .out true [104, 105]] ++ secondRuns

/-- The `stdout` that a call has returned. -/
def Sys.stdoutOf (s : Sys) (i : Nat) : Option Text :=
  match s.calls[i]?.map Call.phase with
  | some (.done (.returned r)) => some r.stdout
  | _ => none

theorem captures_own_sample : ∃ s, run (step ascii fun _ => none) boot (bothRun true) = some s ∧
    s.stdoutOf 0 = some "hi".toList ∧ s.stdoutOf 1 = some [] ∧ Rest s.machines ['t'] := by
  have htidy : Along (step ascii fun _ => none) Tidy boot (bothRun true) := by decide +kernel
  have htold : (run (step ascii fun _ => none) boot (bothRun true)).any (fun s =>
      decide (s.stdoutOf 0 = some "hi".toList ∧ s.stdoutOf 1 = some [] ∧
        s.locked ['t'] = false)) = true := by decide +kernel
  cases hrun : run (step ascii fun _ => none) boot (bothRun true) with
  | none => simp [hrun] at htold
  | some s =>
    rw [hrun] at htold
    obtain ⟨hfirst, hsecond, hfree⟩ := of_decide_eq_true htold
    exact ⟨s, rfl, hfirst, hsecond, (captures_own _ _ htidy hrun).2 ['t'] hfree⟩

/-- A file that is not deleted is the output of the next guest of its name, and so is what a guest
prints that has outlived its `exec.cmd`; the second guest prints nothing in these runs. -/
theorem stale_told :
    (run (step ascii fun _ => none) boot (bothRun false)).bind (·.stdoutOf 1) = some "hi".toList ∧
    (run (step ascii fun _ => none) boot outlived).bind (·.stdoutOf 1) = some "hi".toList := by
  constructor <;> decide +kernel

end AmigaFleet.Host.SandboxRun

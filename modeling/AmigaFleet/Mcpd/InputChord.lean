import AmigaFleet.Lib.Run
import AmigaFleet.Mcpd.InputCalls

/-!
# The reset chord under several connections

Control and both Amiga keys together reset the machine.  input.key looks for
the three keys in its own request and asks for `confirm_reset`; the connections
are served by processes of their own, which press keys on one keyboard.

`Machine` holds the calls in progress and, for each key, the calls that have
pressed it since it was last let go.  A call writes its events one at a time,
in between those of the others.

* `Method.silent`: a call presses a reset key only when its request names it.
* `key_alone_apart`: the guard of input.key is enough for a call on its own.
* `reset_guarded`: it is enough for a run in which the calls without
  `confirm_reset` never claim all three keys between them.
-/

namespace AmigaFleet.Mcpd.Input

open AmigaFleet.Lib

/-! ## Calls that leave a key alone -/

/-- The event does not press the key. -/
def Event.Spares (k : UInt8) (e : Event) : Prop := e.press ≠ some (.key k)

/-- No event so far has pressed the key. -/
def Ctx.Spares (k : UInt8) (c : Ctx) : Prop := ∀ e ∈ c.written, e.Spares k

theorem up_code_not_down (code : UInt8) : ¬ code ||| upPrefix < upPrefix := by
  by_cases hcode : code < upPrefix
  · exact UInt8.not_lt.mpr (up_code hcode).1
  · rw [up_code_of_up hcode]
    exact hcode

theorem mouse_not_key : EventClass.rawMouse ≠ .rawKey := by decide

theorem Event.spares_of_mouse {k : UInt8} {e : Event} (h : e.cls ≠ .rawKey) : e.Spares k := by
  intro hpress
  unfold Event.press at hpress
  cases hcls : e.cls with
  | rawKey => exact h hcls
  | rawMouse =>
    rw [hcls] at hpress
    dsimp only at hpress
    split at hpress <;> cases hpress
  | mouseWheel =>
    rw [hcls] at hpress
    cases hpress

theorem Event.spares_up (k : UInt8) (e : Event) : e.up.Spares k := by
  by_cases hcls : e.cls = .rawKey
  · have hnone : e.up.press = none := by
      have hcls' : e.up.cls = .rawKey := hcls
      unfold Event.press
      rw [hcls']
      exact if_neg (up_code_not_down e.code)
    unfold Event.Spares
    rw [hnone]
    exact fun h => nomatch h
  · exact Event.spares_of_mouse (e := e.up) hcls

theorem keyDown_spares {k code : UInt8} (h : code ≠ k) (qual : UInt16) : (keyDown code qual).Spares k := by
  intro hpress
  change (if code < upPrefix then some (Control.key code) else none) = _ at hpress
  split at hpress
  · cases hpress
    exact h rfl
  · cases hpress

theorem Ctx.Spares.emit {k : UInt8} {c : Ctx} {e : Event} (h : c.Spares k) (he : e.Spares k) :
    (c.emit e).Spares k := by
  intro x hx
  rcases List.mem_append.mp hx with hmem | hlast
  · exact h x hmem
  · rw [List.mem_singleton.mp hlast]
    exact he

theorem Ctx.Spares.delayMs {k : UInt8} {c : Ctx} (h : c.Spares k) (ms : Nat) :
    (c.delayMs ms).Spares k := by
  unfold Ctx.Spares
  rw [delayMs_written]
  exact h

theorem Ctx.Spares.of_error {k : UInt8} {c c' : Ctx} {e : Event} (h : c.Spares k)
    (he : c.writeEvent e = .error c') : c'.Spares k := by
  rw [writeEvent_error he]
  exact h

theorem Ctx.Spares.of_ok {k : UInt8} {c c' : Ctx} {e : Event} (h : c.Spares k) (hspares : e.Spares k)
    (he : c.writeEvent e = .ok c') : c'.Spares k := by
  rw [writeEvent_ok he]
  exact h.emit hspares

theorem releaseKeys_spares {k : UInt8} (codes : List UInt8) {c : Ctx} (h : c.Spares k) :
    (c.releaseKeys codes).Spares k := by
  induction codes generalizing c with
  | nil => exact h
  | cons code codes ih => exact ih (h.emit (Event.spares_up k (keyDown code c.heldQuals)))

theorem close_spares {k : UInt8} {c : Ctx} (h : c.Spares k) : c.close.Spares k := by
  have hbuttons : c.releaseButtons.Spares k := by
    unfold Ctx.releaseButtons
    split
    · exact h
    · exact h.emit (Event.spares_up k (buttonEvent c.heldButtonCode))
  exact (releaseKeys_spares _ hbuttons).delayMs 20

theorem pushModifier_spares {k : UInt8} {c : Ctx} {key : NamedKey} (h : c.Spares k)
    (hkey : key.code ≠ k) : (finish (c.pushModifier key)).Spares k := by
  unfold Ctx.pushModifier
  split
  · exact h
  · refine finish_bind (fun c' he => h.of_error he) fun c' he => ?_
    exact (h.of_ok (keyDown_spares hkey c.heldQuals) he : c'.Spares k)

theorem pressModifiers_spares {k : UInt8} (delay : Nat) {ks : List NamedKey} {c : Ctx}
    (h : c.Spares k) (hks : ∀ key ∈ ks, key.code ≠ k) :
    (finish (pressModifiers delay ks c)).Spares k := by
  induction ks generalizing c with
  | nil => exact h
  | cons key ks ih =>
    have hpush := pushModifier_spares h (hks key (List.mem_cons_self ..))
    refine finish_then hpush fun c' _ hspares => ?_
    exact ih (hspares.delayMs delay) fun key' hmem => hks key' (List.mem_cons_of_mem _ hmem)

/-- A chord presses its own keys, and the left shift key. -/
theorem pressChord_spares {k : UInt8} {chord : Chord} {delay : Nat} {c : Ctx} (h : c.Spares k)
    (hchord : chord.has k = false) (hshift : rawLShift ≠ k) :
    (finish (pressChord chord delay c)).Spares k := by
  have hkeys : (∀ key ∈ chord.modifiers, key.code ≠ k) ∧ chord.finalCode ≠ k := by
    simpa [Chord.has] using hchord
  have hfinal : ∀ {c : Ctx}, c.Spares k → (finish (do
      let c' ← c.writeEvent (keyDown chord.finalCode c.heldQuals)
      (c'.delayMs delay).writeEvent (keyDown chord.finalCode c.heldQuals).up)).Spares k := by
    intro c hc
    refine finish_bind (fun c' he => hc.of_error he) fun c₁ h₁ => ?_
    have hdown := (hc.of_ok (keyDown_spares hkeys.2 c.heldQuals) h₁).delayMs delay
    cases hup : (c₁.delayMs delay).writeEvent (keyDown chord.finalCode c.heldQuals).up with
    | error c₂ => exact hdown.of_error hup
    | ok c₂ => exact hdown.of_ok (Event.spares_up k _) hup
  have hmods := pressModifiers_spares delay h hkeys.1
  refine finish_then hmods fun c₁ _ hspares => ?_
  cases hshifted : chord.finalShift with
  | false => exact hfinal hspares
  | true =>
    have hsh : (finish (pressShift c₁)).Spares k := by
      unfold pressShift
      rw [findNamedKey_lshift]
      exact pushModifier_spares hspares hshift
    exact finish_then hsh fun c₂ _ hspares₂ => hfinal hspares₂

/-! ### The methods -/

theorem inject_spares {k : UInt8} {w : World} {body : Ctx → Ctx × List (Bytes × CJson)}
    (h : (body { tioOpen := w.timer }).1.Spares k) : ∀ e ∈ (w.inject body).written, e.Spares k := by
  unfold World.inject
  split
  · exact fun e he => absurd he List.not_mem_nil
  · exact close_spares h

theorem fresh_spares (k : UInt8) (timer : Bool) : ({ tioOpen := timer } : Ctx).Spares k :=
  fun _ he => absurd he List.not_mem_nil

/-- A step of the pointer, a click or a turn of the wheel. -/
theorem writeEvent_spares {k : UInt8} {c : Ctx} {e : Event} (h : c.Spares k) (he : e.cls ≠ .rawKey) :
    (finish (c.writeEvent e)).Spares k := by
  cases hw : c.writeEvent e with
  | error c' => exact h.of_error hw
  | ok c' => exact h.of_ok (Event.spares_of_mouse he) hw

theorem moveSteps_spares {k : UInt8} (dx dy : Int) (steps delay n : Nat) {c : Ctx} (h : c.Spares k) :
    (finish (moveSteps dx dy steps delay n c)).Spares k := by
  induction n generalizing c with
  | zero => exact h
  | succ n ih =>
    rw [moveSteps]
    split
    · exact ih h
    · refine finish_bind (fun c' he => h.of_error he) fun c' he => ?_
      have hmoved : c'.Spares k := h.of_ok (Event.spares_of_mouse mouse_not_key) he
      split
      · exact ih (hmoved.delayMs delay)
      · exact ih hmoved

theorem dragSteps_spares {k : UInt8} (dx dy : Int) (steps delay n : Nat) {c : Ctx} (h : c.Spares k) :
    (finish (dragSteps dx dy steps delay n c)).Spares k := by
  induction n generalizing c with
  | zero => exact h
  | succ n ih =>
    rw [dragSteps]
    split
    · exact ih h
    · refine finish_bind (fun c' he => h.of_error he) fun c' he => ?_
      have hmoved : c'.Spares k := h.of_ok (Event.spares_of_mouse mouse_not_key) he
      exact ih (hmoved.delayMs delay)

theorem scrollSteps_spares {k : UInt8} {e : Event} (delay n : Nat) {c : Ctx} (h : c.Spares k)
    (he : e.cls ≠ .rawKey) : (finish (scrollSteps e delay n c)).Spares k := by
  induction n generalizing c with
  | zero => exact h
  | succ n ih =>
    refine finish_bind (fun c' hw => h.of_error hw) fun c' hw => ?_
    have hturned : c'.Spares k := h.of_ok (Event.spares_of_mouse he) hw
    split
    · exact ih hturned
    · exact ih (hturned.delayMs delay)

theorem pressButton_spares {k : UInt8} {c : Ctx} (button : UInt8 × UInt16) (h : c.Spares k) :
    (finish (c.pressButton button)).Spares k := by
  refine finish_bind (fun c' he => h.of_error he) fun c' he => ?_
  exact (h.of_ok (Event.spares_of_mouse mouse_not_key) he : c'.Spares k)

theorem clicks_spares {k : UInt8} (button : UInt8 × UInt16) (delay n : Nat) {c : Ctx}
    (h : c.Spares k) : (finish (clicks button delay n c)).Spares k := by
  induction n generalizing c with
  | zero => exact h
  | succ n ih =>
    refine finish_then (pressButton_spares button h) fun c₁ _ hpress => ?_
    have hwait := hpress.delayMs delay
    refine finish_bind (fun c' he => hwait.of_error he) fun c₂ h₂ => ?_
    have hup : c₂.Spares k := hwait.of_ok (Event.spares_up k (buttonEvent button.1)) h₂
    have hdone : ({ c₂ with heldButtonCode := 0, heldButtons := 0 } : Ctx).Spares k := hup
    split
    · exact ih hdone
    · exact ih (hdone.delayMs delay)

theorem dragPath_spares {k : UInt8} (req : DragRequest) {c : Ctx} (h : c.Spares k) :
    (finish (dragPath req c)).Spares k := by
  refine finish_bind (fun c' he => h.of_error he) fun c₁ h₁ => ?_
  have hmoved : c₁.Spares k := h.of_ok (Event.spares_of_mouse mouse_not_key) h₁
  have hdown := pressButton_spares req.button (hmoved.delayMs inputDefButtonMs)
  refine finish_then hdown fun c₂ _ hpress => ?_
  have hsteps := dragSteps_spares req.path.1 req.path.2 req.steps req.delay req.steps
    (hpress.delayMs inputDefButtonMs)
  exact finish_then hsteps fun c₃ _ hspares => hspares.delayMs inputDefButtonMs

theorem premove_spares {k : UInt8} (move : Option (Int × Int)) (delay : Nat) {c : Ctx}
    (h : c.Spares k) : (premove move delay c).Spares k := by
  unfold premove
  split
  · split
    · exact h
    · exact (writeEvent_spares h mouse_not_key).delayMs delay
  · exact h

theorem parseScroll_cls {params : Option CJson} {req : ScrollRequest}
    (h : parseScroll params = .ok req) : req.event.cls ≠ .rawKey := by
  unfold parseScroll at h
  dsimp only [bind, Except.bind] at h
  split at h
  · cases h
  · split at h
    · cases h
    · split at h
      · cases h
      · split at h
        · cases h
          exact nofun
        · split at h
          · cases h
            exact nofun
          · cases h

theorem mem_typed {timer : Bool} {delay j : Nat} {downs : List Event} {e : Event}
    (h : e ∈ typed timer delay j downs) :
    ∃ i down, downs[i]? = some down ∧ Reached timer delay (j + i) ∧ (e = down ∨ e = down.up) := by
  induction downs generalizing j with
  | nil => exact absurd h List.not_mem_nil
  | cons down downs ih =>
    rw [typed] at h
    split at h
    · rename_i hr
      have hhead : e = down ∨ e = down.up → ∃ i d, (down :: downs)[i]? = some d ∧
          Reached timer delay (j + i) ∧ (e = d ∨ e = d.up) :=
        fun hcase => ⟨0, down, rfl, hr, hcase⟩
      split at h
      · rcases List.mem_cons.mp h with rfl | h
        · exact hhead (Or.inl rfl)
        · rcases List.mem_cons.mp h with rfl | h
          · exact hhead (Or.inr rfl)
          · obtain ⟨i, d, hi, hreach, hcase⟩ := ih h
            have hindex : j + 1 + i = j + (i + 1) := by omega
            rw [hindex] at hreach
            exact ⟨i + 1, d, hi, hreach, hcase⟩
      · exact hhead (Or.inl (List.mem_singleton.mp h))
    · exact absurd h List.not_mem_nil

/-! ## The machine -/

/-- A call that has pressed a key. -/
structure Contributor where
  conn : Nat
  confirmed : Bool
deriving DecidableEq, Repr

/-- A call in progress, with the events that it has still to write. -/
structure Running where
  confirmed : Bool
  rest : List Event
deriving DecidableEq, Repr

/-- `running` is by connection; `held` are the calls that have pressed a key
since it was last let go. -/
structure Machine where
  running : Nat → Option Running
  held : UInt8 → List Contributor

def Machine.init : Machine := ⟨fun _ => none, fun _ => []⟩

/-- The request has `confirm_reset`. -/
def confirmReset (params : Option CJson) : Bool :=
  match param params "confirm_reset" with
  | some (.bool true) => true
  | _ => false

inductive Label where
  /-- a request arrives on a connection, and finds the world `w` -/
  | start (conn : Nat) (m : Method) (w : World) (params : Option CJson)
  /-- the call of a connection writes its next event -/
  | emit (conn : Nat)
  /-- the call of a connection returns -/
  | done (conn : Nat)

/-- One event reaches the keyboard. -/
def Machine.press (s : Machine) (who : Contributor) (e : Event) : UInt8 → List Contributor :=
  match e.press, e.release with
  | some (.key k), _ => Function.update s.held k (who :: s.held k)
  | none, some (.key k) => Function.update s.held k []
  | _, _ => s.held

def Machine.step (s : Machine) : Label → Option Machine
  | .start conn m w params =>
    match s.running conn with
    | some _ => none
    | none =>
      some { s with
        running := Function.update s.running conn
          (some ⟨confirmReset params, (m.call w params).written⟩) }
  | .emit conn =>
    match s.running conn with
    | some ⟨confirmed, e :: rest⟩ =>
      some
        { running := Function.update s.running conn (some ⟨confirmed, rest⟩)
          held := s.press ⟨conn, confirmed⟩ e }
    | _ => none
  | .done conn =>
    match s.running conn with
    | some ⟨_, []⟩ => some { s with running := Function.update s.running conn none }
    | _ => none

/-- The keys of the reset chord. -/
def resetKeys : List UInt8 := [rawCtrl, rawLAmiga, rawRAmiga]

/-- When the three keys are down together, a call that holds one of them was
given `confirm_reset`. -/
def Machine.Guarded (s : Machine) : Prop :=
  (∀ k ∈ resetKeys, s.held k ≠ []) → ∃ k ∈ resetKeys, ∃ who ∈ s.held k, who.confirmed = true

/-! ## Claims on a key -/

/-- The request names the key: in its chord, or through a character that the
key mapper finds on it. -/
def Method.Names (m : Method) (w : World) (params : Option CJson) (k : UInt8) : Prop :=
  w.enabled = true ∧ w.openFailure = none ∧
    match m with
    | .key => ∃ req, parseKey params = .ok req ∧ req.chord.has k = true
    | .type =>
      ∃ req, parseType params = .ok req ∧
        ∃ i down, (strokes (req.keymap w) 0 (codePoints req.text))[i]? = some down ∧
          Reached w.timer req.delay i ∧ down.code = k
    | _ => False

/-- The call was not given `confirm_reset`, and is still to press the key. -/
def Running.Awaits (r : Running) (k : UInt8) : Prop :=
  r.confirmed = false ∧ ∃ e ∈ r.rest, e.press = some (.key k)

/-- Only calls without `confirm_reset` hold the key down, or one of them is
still to press it. -/
def Machine.Claimed (s : Machine) (k : UInt8) : Prop :=
  (s.held k ≠ [] ∧ ∀ who ∈ s.held k, who.confirmed = false) ∨
    ∃ conn r, s.running conn = some r ∧ r.Awaits k

/-- A call without `confirm_reset` does not name the keys that the others leave
out of the reset chord. -/
def Apart (s : Machine) : Label → Prop
  | .start _ m w params =>
    confirmReset params = false → ¬ ∀ k ∈ resetKeys, s.Claimed k ∨ m.Names w params k
  | _ => True

theorem no_event_spares (k : UInt8) : ∀ e ∈ ([] : List Event), e.Spares k :=
  fun _ he => absurd he List.not_mem_nil

theorem inputKey_spares {w : World} {params : Option CJson} {k : UInt8} (hshift : rawLShift ≠ k)
    (h : ¬ Method.key.Names w params k) : ∀ e ∈ (inputKey w params).written, e.Spares k := by
  unfold inputKey
  split
  · exact no_event_spares k
  · rename_i henabled
    cases hreq : parseKey params with
    | error e => exact no_event_spares k
    | ok req =>
      dsimp only
      cases hopen : w.openFailure with
      | some failure =>
        unfold World.inject
        rw [hopen]
        exact no_event_spares k
      | none =>
        have hchord : req.chord.has k = false := by
          rw [← Bool.not_eq_true]
          exact fun hhas => h ⟨Bool.not_eq_false _ ▸ henabled, hopen, req, hreq, hhas⟩
        exact inject_spares (pressChord_spares (fresh_spares k w.timer) hchord hshift)

theorem inputType_spares {w : World} {params : Option CJson} {k : UInt8}
    (h : ¬ Method.type.Names w params k) : ∀ e ∈ (inputType w params).written, e.Spares k := by
  by_cases henabled : w.enabled = true
  · cases hreq : parseType params with
    | error e =>
      unfold inputType
      rw [henabled, hreq]
      exact no_event_spares k
    | ok req =>
      cases hopen : w.openFailure with
      | some failure =>
        unfold inputType World.inject
        rw [henabled, hreq, hopen]
        exact no_event_spares k
      | none =>
        intro e he
        rw [inputType_written henabled hopen hreq] at he
        obtain ⟨i, down, hi, hreach, rfl | rfl⟩ := mem_typed he
        · rw [Nat.zero_add] at hreach
          intro hpress
          have hcls := strokes_rawKey _ _ _ _ (List.mem_of_getElem? hi)
          have hcode : e.code = k := by
            unfold Event.press at hpress
            rw [hcls] at hpress
            dsimp only at hpress
            split at hpress
            · cases hpress
              rfl
            · cases hpress
          exact h ⟨henabled, hopen, req, hreq, i, e, hi, hreach, hcode⟩
        · exact Event.spares_up k down
  · unfold inputType
    rw [if_pos (Bool.eq_false_iff.mpr henabled)]
    exact no_event_spares k

theorem inputMouseMove_spares (w : World) (params : Option CJson) (k : UInt8) :
    ∀ e ∈ (inputMouseMove w params).written, e.Spares k := by
  unfold inputMouseMove
  split
  · exact no_event_spares k
  · split
    · exact no_event_spares k
    · rename_i req hreq
      refine inject_spares ?_
      cases hmotion : req.motion with
      | raw x y => exact writeEvent_spares (fresh_spares k w.timer) mouse_not_key
      | delta dx dy =>
        exact moveSteps_spares dx dy req.steps req.delay req.steps (fresh_spares k w.timer)

theorem inputClick_spares (w : World) (params : Option CJson) (k : UInt8) :
    ∀ e ∈ (inputClick w params).written, e.Spares k := by
  unfold inputClick
  split
  · exact no_event_spares k
  · split
    · exact no_event_spares k
    · rename_i req hreq
      exact inject_spares (clicks_spares req.button req.delay req.count
        (premove_spares req.move req.delay (fresh_spares k w.timer)))

theorem inputDrag_spares (w : World) (params : Option CJson) (k : UInt8) :
    ∀ e ∈ (inputDrag w params).written, e.Spares k := by
  unfold inputDrag
  split
  · exact no_event_spares k
  · split
    · exact no_event_spares k
    · rename_i req hreq
      exact inject_spares (dragPath_spares req (fresh_spares k w.timer))

theorem inputScroll_spares (w : World) (params : Option CJson) (k : UInt8) :
    ∀ e ∈ (inputScroll w params).written, e.Spares k := by
  unfold inputScroll
  split
  · exact no_event_spares k
  · split
    · exact no_event_spares k
    · rename_i req hreq
      exact inject_spares
        (scrollSteps_spares req.delay req.count (fresh_spares k w.timer) (parseScroll_cls hreq))

/-- A call presses a reset key only when its request names it. -/
theorem Method.silent {m : Method} {w : World} {params : Option CJson} {k : UInt8}
    (hk : k ∈ resetKeys) (h : ¬ m.Names w params k) :
    ∀ e ∈ (m.call w params).written, e.Spares k := by
  cases m with
  | key =>
    have hshift : ∀ k ∈ resetKeys, rawLShift ≠ k := List.all_iff_forall_prop.mp rfl
    exact inputKey_spares (hshift k hk) h
  | type => exact inputType_spares h
  | mouseMove => exact inputMouseMove_spares w params k
  | click => exact inputClick_spares w params k
  | drag => exact inputDrag_spares w params k
  | scroll => exact inputScroll_spares w params k

/-! ## Runs -/

theorem awaits_update {running : Nat → Option Running} {conn : Nat} {o : Option Running} {k : UInt8}
    (h : ∃ conn' r, Function.update running conn o conn' = some r ∧ r.Awaits k) :
    (∃ conn' r, running conn' = some r ∧ r.Awaits k) ∨ ∃ r, o = some r ∧ r.Awaits k := by
  obtain ⟨conn', r, hr, hawaits⟩ := h
  by_cases hsame : conn' = conn
  · subst hsame
    rw [Function.update_self] at hr
    exact Or.inr ⟨r, hr, hawaits⟩
  · rw [Function.update_of_ne hsame] at hr
    exact Or.inl ⟨conn', r, hr, hawaits⟩

/-- An event presses a key, or releases one, or leaves the keys alone. -/
theorem press_cases (s : Machine) (who : Contributor) (e : Event) :
    (∃ k, e.press = some (.key k) ∧ s.press who e = Function.update s.held k (who :: s.held k)) ∨
      (∃ k, s.press who e = Function.update s.held k []) ∨ s.press who e = s.held := by
  unfold Machine.press
  cases e.press with
  | none =>
    cases e.release with
    | none => exact Or.inr (Or.inr rfl)
    | some c =>
      cases c with
      | key k => exact Or.inr (Or.inl ⟨k, rfl⟩)
      | button b => exact Or.inr (Or.inr rfl)
  | some c =>
    cases c with
    | key k => exact Or.inl ⟨k, rfl, rfl⟩
    | button b => exact Or.inr (Or.inr rfl)

/-- A key that only calls without `confirm_reset` hold after an event was so
held before, or is pressed by the event. -/
theorem held_press {s : Machine} {who : Contributor} {e : Event} {k : UInt8}
    (h : s.press who e k ≠ [] ∧ ∀ x ∈ s.press who e k, x.confirmed = false) :
    (s.held k ≠ [] ∧ ∀ x ∈ s.held k, x.confirmed = false) ∨
      (who.confirmed = false ∧ e.press = some (.key k)) := by
  rcases press_cases s who e with ⟨k', hpress, heq⟩ | ⟨k', heq⟩ | heq
  · rw [heq] at h
    by_cases hkey : k = k'
    · subst hkey
      rw [Function.update_self] at h
      exact Or.inr ⟨h.2 who (List.mem_cons_self ..), hpress⟩
    · rw [Function.update_of_ne hkey] at h
      exact Or.inl h
  · rw [heq] at h
    by_cases hkey : k = k'
    · subst hkey
      rw [Function.update_self] at h
      exact absurd rfl h.1
    · rw [Function.update_of_ne hkey] at h
      exact Or.inl h
  · rw [heq] at h
    exact Or.inl h

/-- A step makes no claim that the request of a new call does not name. -/
theorem claimed_step {s s' : Machine} {a : Label} {k : UInt8} (hk : k ∈ resetKeys)
    (hstep : s.step a = some s') (h : s'.Claimed k) :
    s.Claimed k ∨ ∃ conn m w params, a = .start conn m w params ∧ confirmReset params = false ∧
      m.Names w params k := by
  cases a with
  | start conn m w params =>
    rw [Machine.step] at hstep
    split at hstep
    · cases hstep
    · cases hstep
      rcases h with hheld | hawaits
      · exact Or.inl (Or.inl hheld)
      · rcases awaits_update hawaits with hbefore | ⟨r, hr, hplain, e, he, hpress⟩
        · exact Or.inl (Or.inr hbefore)
        · cases hr
          refine Or.inr ⟨conn, m, w, params, rfl, hplain, ?_⟩
          by_contra hnames
          exact Method.silent hk hnames e he hpress
  | emit conn =>
    left
    rw [Machine.step] at hstep
    split at hstep
    · rename_i confirmed e rest hconn
      cases hstep
      rcases h with hheld | hawaits
      · rcases held_press hheld with hbefore | ⟨hwho, hpress⟩
        · exact Or.inl hbefore
        · exact Or.inr ⟨conn, _, hconn, hwho, e, List.mem_cons_self .., hpress⟩
      · rcases awaits_update hawaits with hbefore | ⟨r, hr, hwho, x, hx, hpress⟩
        · exact Or.inr hbefore
        · cases hr
          exact Or.inr ⟨conn, _, hconn, hwho, x, List.mem_cons_of_mem _ hx, hpress⟩
    · cases hstep
  | done conn =>
    left
    rw [Machine.step] at hstep
    split at hstep
    · cases hstep
      rcases h with hheld | hawaits
      · exact Or.inl hheld
      · rcases awaits_update hawaits with hbefore | ⟨r, hr, -⟩
        · exact Or.inr hbefore
        · cases hr
    · cases hstep

/-- The calls without `confirm_reset` leave one of the keys out. -/
def Machine.Contained (s : Machine) : Prop := ¬ ∀ k ∈ resetKeys, s.Claimed k

theorem init_contained : Machine.init.Contained := by
  intro h
  rcases h rawCtrl (by decide) with ⟨hdown, -⟩ | ⟨conn, r, hr, -⟩
  · exact hdown rfl
  · cases hr

theorem contained_step {s s' : Machine} {a : Label} (h : s.Contained) (hok : Apart s a)
    (hstep : s.step a = some s') : s'.Contained := by
  intro hall
  cases a with
  | start conn m w params =>
    by_cases hconfirm : confirmReset params = false
    · refine hok hconfirm fun k hk => ?_
      rcases claimed_step hk hstep (hall k hk) with hclaimed | ⟨_, _, _, _, heq, -, hnames⟩
      · exact Or.inl hclaimed
      · cases heq
        exact Or.inr hnames
    · refine h fun k hk => ?_
      rcases claimed_step hk hstep (hall k hk) with hclaimed | ⟨_, _, _, _, heq, hplain, -⟩
      · exact hclaimed
      · cases heq
        exact absurd hplain hconfirm
  | emit conn =>
    refine h fun k hk => ?_
    rcases claimed_step hk hstep (hall k hk) with hclaimed | ⟨_, _, _, _, heq, -⟩
    · exact hclaimed
    · cases heq
  | done conn =>
    refine h fun k hk => ?_
    rcases claimed_step hk hstep (hall k hk) with hclaimed | ⟨_, _, _, _, heq, -⟩
    · exact hclaimed
    · cases heq

theorem Machine.Contained.guarded {s : Machine} (h : s.Contained) : s.Guarded := by
  intro hdown
  by_contra hnone
  refine h fun k hk => Or.inl ⟨hdown k hk, fun who hwho => ?_⟩
  rw [← Bool.not_eq_true]
  exact fun hconfirmed => hnone ⟨k, hk, who, hwho, hconfirmed⟩

/-- The three reset keys are never down together without `confirm_reset`, where
no call without it names the keys that the others leave out of the chord. -/
theorem reset_guarded {as : List Label} {s : Machine} (hok : Along Machine.step Apart Machine.init as)
    (hrun : run Machine.step Machine.init as = some s) : s.Guarded :=
  (run_invariant (fun _ _ _ hinv hmeets hstep => contained_step hinv hmeets hstep) init_contained hok
    hrun).guarded

/-! ## The guard of one call -/

theorem parseKey_confirmReset {params : Option CJson} {req : KeyRequest}
    (h : parseKey params = .ok req) : req.confirmReset = confirmReset params := by
  unfold parseKey at h
  cases hconfirm : requireConfirm params "input.key" with
  | error e =>
    rw [hconfirm] at h
    cases h
  | ok _ =>
    rw [hconfirm] at h
    dsimp only [bind, Except.bind] at h
    split at h
    · split at h
      · cases h
      · split at h
        · cases h
        · split at h
          · cases h
          · obtain ⟨_, h⟩ := checked h
            cases h
            rfl
    · cases h

/-- A call of input.key finds its guard enough where nobody else claims a key
of the chord. -/
theorem key_alone_apart {s : Machine} {conn : Nat} {w : World} {params : Option CJson}
    (hfree : ∀ k ∈ resetKeys, ¬ s.Claimed k) : Apart s (.start conn .key w params) := by
  intro hplain hall
  have hnames : ∀ k ∈ resetKeys, Method.key.Names w params k := fun k hk =>
    (hall k hk).resolve_left (hfree k hk)
  obtain ⟨-, -, req, hreq, hctrl⟩ := hnames rawCtrl (by decide)
  have hhas : ∀ k ∈ resetKeys, req.chord.has k = true := by
    intro k hk
    obtain ⟨-, -, req', hreq', hkey⟩ := hnames k hk
    rw [hreq] at hreq'
    cases hreq'
    exact hkey
  have hresets : req.chord.resets = true := by
    unfold Chord.resets
    rw [hctrl, hhas rawLAmiga (by decide), hhas rawRAmiga (by decide)]
    rfl
  have hconfirmed := req.guarded hresets
  rw [parseKey_confirmReset hreq, hplain] at hconfirmed
  cases hconfirmed

/-! ## Two connections -/

/-- A request for a chord. -/
def chordRequest (keys : List String) (reset : Bool) : CJson :=
  .object [(ascii "keys", .array (keys.map cString)), (ascii "confirm", .bool true),
    (ascii "confirm_reset", .bool reset)]

/-- A call presses control and the left Amiga key, and another one the right
Amiga key. -/
def twoCalls (reset : Bool) : List Label :=
  [.start 0 .key plainWorld (some (chordRequest ["ctrl", "lamiga", "x"] false)),
    .start 1 .key plainWorld (some (chordRequest ["ramiga", "y"] reset)), .emit 0, .emit 0, .emit 1]

theorem reset_guarded_sample : ∃ s, run Machine.step Machine.init (twoCalls true) = some s ∧
    (∀ k ∈ resetKeys, s.held k ≠ []) ∧ s.Guarded := by
  have hok : Along Machine.step Apart Machine.init (twoCalls true) := by
    refine Along.cons (key_alone_apart fun k _ hclaimed => ?_) fun s _ =>
      Along.cons (fun hplain => ?_) fun s' _ => along_of_forall (fun a ha _ => ?_) s'
    · rcases hclaimed with ⟨hdown, -⟩ | ⟨conn, r, hr, -⟩
      · exact hdown rfl
      · cases hr
    · cases hplain
    · simp only [List.mem_cons, List.not_mem_nil, or_false] at ha
      rcases ha with rfl | rfl | rfl <;> trivial
  have hdown : (run Machine.step Machine.init (twoCalls true)).any
      (fun s => decide (∀ k ∈ resetKeys, s.held k ≠ [])) = true := by
    decide +kernel
  obtain ⟨s, hrun, hall⟩ := (Option.any_eq_true ..).mp hdown
  exact ⟨s, hrun, of_decide_eq_true hall, reset_guarded hok hrun⟩

/-- Neither call has `confirm_reset`, neither names all three keys, and the
machine is reset. -/
theorem reset_without_confirm : ∃ s, run Machine.step Machine.init (twoCalls false) = some s ∧
    ¬ s.Guarded := by
  have hdown : (run Machine.step Machine.init (twoCalls false)).any
      (fun s => decide ((∀ k ∈ resetKeys, s.held k ≠ []) ∧
        ∀ k ∈ resetKeys, ∀ who ∈ s.held k, who.confirmed = false)) = true := by
    decide +kernel
  obtain ⟨s, hrun, hall⟩ := (Option.any_eq_true ..).mp hdown
  obtain ⟨hheld, hplain⟩ := of_decide_eq_true hall
  refine ⟨s, hrun, fun hguarded => ?_⟩
  obtain ⟨k, hk, who, hwho, hconfirmed⟩ := hguarded hheld
  rw [hplain k hk who hwho] at hconfirmed
  cases hconfirmed

end AmigaFleet.Mcpd.Input

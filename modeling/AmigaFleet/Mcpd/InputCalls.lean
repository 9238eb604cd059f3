import AmigaFleet.Mcpd.InputRelease

/-!
# What a call of an input method leaves

A call of any of the methods leaves the keyboard and the buttons as it found
them (`calls_clean_iff`), with one exception: input.type, when its budget ends
between the press of a key and the release (`Method.Within`).

* `parseKey_ok`: the chords that input.key lets pass.
* `inject_clean`: a call is clean when its events end safe.
* `inputType_written`: the events of input.type, from the text.
-/

namespace AmigaFleet.Mcpd.Input

open AmigaFleet.Lib

/-! ## The methods -/

/-- The methods that write events. -/
inductive Method where
  | key
  | type
  | mouseMove
  | click
  | drag
  | scroll
deriving DecidableEq, Repr

def Method.call : Method → World → Option CJson → Done
  | .key => inputKey
  | .type => inputType
  | .mouseMove => inputMouseMove
  | .click => inputClick
  | .drag => inputDrag
  | .scroll => inputScroll

/-! ## Chords that pass -/

theorem resolveFinal_down {name : Bytes} {key : UInt8 × Bool} (h : resolveFinal name = .ok key) :
    key.1 < upPrefix := by
  unfold resolveFinal at h
  split at h
  · rename_i k hk
    cases h
    exact namedKeys_down k (findNamedKey_mem hk)
  · dsimp only at h
    split at h
    · rename_i code hsingle
      cases h
      split at hsingle
      · have hlow : key.1 < rawLShift := asciiToRaw_down hsingle
        exact UInt8.lt_trans hlow (by decide)
      · cases hsingle
    · cases h

theorem resolveKeys_ok {i : Nat} {keys : List CJson} {chord : Chord}
    (h : resolveKeys i keys = .ok chord) :
    chord.modifiers.length + 1 = keys.length ∧ (∀ k ∈ chord.modifiers, k ∈ namedKeys) ∧
      chord.finalCode < upPrefix := by
  fun_induction resolveKeys i keys generalizing chord with
  | case1 => cases h
  | case2 i name =>
    cases hkey : resolveFinal name with
    | error e =>
      rw [hkey] at h
      cases h
    | ok key =>
      rw [hkey] at h
      cases h
      exact ⟨rfl, fun k hk => absurd hk List.not_mem_nil, resolveFinal_down hkey⟩
  | case3 => cases h
  | case4 i name rest hrest k hk hqual ih =>
    cases hchord : resolveKeys (i + 1) rest with
    | error e =>
      rw [hchord] at h
      cases h
    | ok chord' =>
      rw [hchord] at h
      cases h
      obtain ⟨hlength, hnamed, hfinal⟩ := ih hchord
      refine ⟨congrArg (· + 1) hlength, fun k' hk' => ?_, hfinal⟩
      rcases List.mem_cons.mp hk' with rfl | hmem
      · exact findNamedKey_mem hk
      · exact hnamed k' hmem
  | case5 => cases h
  | case6 => cases h

/-- What goes on behind a check has passed it. -/
theorem checked {ε α : Type} {p : Prop} [Decidable p] {e : ε} {rest : ¬ p → Except ε α} {a : α}
    (h : (if hp : p then .error e else rest hp) = .ok a) : ∃ hp, rest hp = .ok a := by
  split at h
  · cases h
  · rename_i hp
    exact ⟨hp, h⟩

/-- A chord that passes is short, and made of keys. -/
theorem parseKey_ok {params : Option CJson} {req : KeyRequest} (h : parseKey params = .ok req) :
    req.chord.modifiers.length < inputMaxChordKeys ∧
      (∀ k ∈ req.chord.modifiers, k.code < upPrefix) ∧ req.chord.finalCode < upPrefix := by
  unfold parseKey at h
  cases hconfirm : requireConfirm params "input.key" with
  | error e =>
    rw [hconfirm] at h
    cases h
  | ok _ =>
    rw [hconfirm] at h
    dsimp only [bind, Except.bind] at h
    split at h
    · rename_i keys hkeys
      split at h
      · cases h
      · rename_i hcount
        split at h
        · cases h
        · rename_i delay hdelay
          split at h
          · cases h
          · rename_i chord hchord
            obtain ⟨_, h⟩ := checked h
            cases h
            obtain ⟨hlength, hnamed, hfinal⟩ := resolveKeys_ok hchord
            refine ⟨?_, fun k hk => namedKeys_down k (hnamed k hk), hfinal⟩
            show chord.modifiers.length < inputMaxChordKeys
            omega
    · cases h

/-! ## From the events to the call -/

theorem fresh_safe (timer : Bool) : ({ tioOpen := timer } : Ctx).Safe := by
  refine ⟨fun k hk => absurd hk (not_held_nil k), owned_nil _, fun k hk => ?_⟩
  cases k with
  | key code => exact absurd hk List.not_mem_nil
  | button code => exact absurd hk.1 hk.2

theorem clean_nil : Clean [] := ⟨released_nil, owned_nil _⟩

theorem inject_clean {w : World} {body : Ctx → Ctx × List (Bytes × CJson)}
    (h : (body { tioOpen := w.timer }).1.Safe) : Clean (w.inject body).written := by
  unfold World.inject
  split
  · exact clean_nil
  · exact close_clean h

theorem inputKey_clean (w : World) (params : Option CJson) : Clean (inputKey w params).written := by
  unfold inputKey
  split
  · exact clean_nil
  · split
    · exact clean_nil
    · rename_i req hreq
      obtain ⟨hshort, hmods, hfinal⟩ := parseKey_ok hreq
      exact inject_clean (pressChord_safe (fresh_safe w.timer) hmods hfinal hshort req.delay.property
        rfl rfl)

theorem moveSteps_safe (dx dy : Int) (steps delay n : Nat) {c : Ctx} (h : c.Safe) :
    (finish (moveSteps dx dy steps delay n c)).Safe := by
  induction n generalizing c with
  | zero => exact h
  | succ n ih =>
    rw [moveSteps]
    split
    · exact ih h
    · obtain ⟨hpress, hrelease⟩ := motionEvent_neutral (stepLength dx steps (steps - n))
        (stepLength dy steps (steps - n)) c.heldButtons
      refine finish_bind (fun c' he => h.of_error he) fun c' he => ?_
      have hmoved : c'.Safe := h.of_ok_neutral hpress hrelease he
      split
      · exact ih (hmoved.delayMs delay)
      · exact ih hmoved

theorem inputMouseMove_clean (w : World) (params : Option CJson) :
    Clean (inputMouseMove w params).written := by
  unfold inputMouseMove
  split
  · exact clean_nil
  · split
    · exact clean_nil
    · rename_i req hreq
      refine inject_clean ?_
      have hsafe := fresh_safe w.timer
      cases hmotion : req.motion with
      | raw x y =>
        dsimp only
        generalize he : (⟨.rawMouse, codeNoButton, 0, Int16.ofInt x, Int16.ofInt y, (0, 0), (0, 0)⟩ :
          Event) = e
        have hneutral : e.press = none ∧ e.release = none := by
          subst he
          refine ⟨rfl, if_neg ?_⟩
          show ¬ (upPrefix ≤ codeNoButton ∧ isButton (downCode codeNoButton) = true)
          decide
        cases hw : ({ tioOpen := w.timer } : Ctx).writeEvent e with
        | error c => exact hsafe.of_error hw
        | ok c => exact hsafe.of_ok_neutral hneutral.1 hneutral.2 hw
      | delta dx dy => exact moveSteps_safe dx dy req.steps req.delay req.steps hsafe

/-- The button of a click that passes. -/
theorem parseClick_valid {w : World} {params : Option CJson} {req : ClickRequest}
    (h : parseClick w params = .ok req) : (Control.button req.button.1).Valid := by
  unfold parseClick at h
  cases hconfirm : requireConfirm params "input.click" with
  | error e =>
    rw [hconfirm] at h
    cases h
  | ok _ =>
    rw [hconfirm] at h
    cases hbutton : parseButton params with
    | error e =>
      rw [hbutton] at h
      cases h
    | ok button =>
      rw [hbutton] at h
      have hvalid := parseButton_valid hbutton
      dsimp only [bind, Except.bind] at h
      split at h
      · cases h
      · split at h
        · cases h
        · split at h
          · split at h
            · cases h
            · cases h
              exact hvalid
          · cases h
            exact hvalid

theorem inputClick_clean (w : World) (params : Option CJson) :
    Clean (inputClick w params).written := by
  unfold inputClick
  split
  · exact clean_nil
  · split
    · exact clean_nil
    · rename_i req hreq
      obtain ⟨hsafe, hfree⟩ := premove_safe req.move req.delay (fresh_safe w.timer) rfl
      exact inject_clean (clicks_safe hsafe (parseClick_valid hreq) hfree)

theorem parseDrag_valid {w : World} {params : Option CJson} {req : DragRequest}
    (h : parseDrag w params = .ok req) : (Control.button req.button.1).Valid := by
  unfold parseDrag at h
  cases hconfirm : requireConfirm params "input.drag" with
  | error e =>
    rw [hconfirm] at h
    cases h
  | ok _ =>
    rw [hconfirm] at h
    dsimp only [bind, Except.bind] at h
    split at h
    · cases hbutton : parseButton params with
      | error e =>
        rw [hbutton] at h
        cases h
      | ok button =>
        rw [hbutton] at h
        have hvalid := parseButton_valid hbutton
        dsimp only at h
        split at h
        · cases h
        · split at h
          · cases h
          · split at h
            · cases h
            · cases h
              exact hvalid
    · cases h

theorem inputDrag_clean (w : World) (params : Option CJson) :
    Clean (inputDrag w params).written := by
  unfold inputDrag
  split
  · exact clean_nil
  · split
    · exact clean_nil
    · rename_i req hreq
      exact inject_clean (dragPath_safe (fresh_safe w.timer) (parseDrag_valid hreq) rfl)

/-- Both styles of the wheel turn without a press. -/
theorem parseScroll_neutral {params : Option CJson} {req : ScrollRequest}
    (h : parseScroll params = .ok req) : req.event.press = none ∧ req.event.release = none := by
  unfold parseScroll at h
  dsimp only [bind, Except.bind] at h
  split at h
  · cases h
  · split at h
    · cases h
    · rename_i code wx wy hwheel
      have hcode : (buttonEvent code).press = none ∧ (buttonEvent code).release = none := by
        have hwheels : code = nmWheelDown ∨ code = nmWheelUp ∨ code = nmWheelLeft ∨
            code = nmWheelRight := by
          unfold wheelCode at hwheel
          grind
        rcases hwheels with rfl | rfl | rfl | rfl <;> decide
      split at h
      · cases h
      · split at h
        · cases h
          exact ⟨rfl, rfl⟩
        · split at h
          · cases h
            exact hcode
          · cases h

theorem scrollSteps_safe {e : Event} (delay n : Nat) {c : Ctx} (h : c.Safe) (hpress : e.press = none)
    (hrelease : e.release = none) : (finish (scrollSteps e delay n c)).Safe := by
  induction n generalizing c with
  | zero => exact h
  | succ n ih =>
    refine finish_bind (fun c' he => h.of_error he) fun c' he => ?_
    have hturned : c'.Safe := h.of_ok_neutral hpress hrelease he
    split
    · exact ih hturned
    · exact ih (hturned.delayMs delay)

theorem inputScroll_clean (w : World) (params : Option CJson) :
    Clean (inputScroll w params).written := by
  unfold inputScroll
  split
  · exact clean_nil
  · split
    · exact clean_nil
    · rename_i req hreq
      obtain ⟨hpress, hrelease⟩ := parseScroll_neutral hreq
      exact inject_clean (scrollSteps_safe req.delay req.count (fresh_safe w.timer) hpress hrelease)

/-! ## input.type -/

theorem mapAnswer_rawKey {a : MapAnswer} {downs : List Event} (h : a.strokes = some downs) :
    ∀ e ∈ downs, e.cls = .rawKey := by
  unfold MapAnswer.strokes at h
  split at h
  · cases h
  · cases h
    intro e he
    have hmem := List.mem_of_mem_take he
    simp only [List.mem_cons, List.not_mem_nil, or_false] at hmem
    rcases hmem with rfl | rfl | rfl <;> rfl

theorem strokesOf_rawKey {keymap : Option Keymap} {i cp : Nat} {downs : List Event}
    (h : strokesOf keymap i cp = some downs) : ∀ e ∈ downs, e.cls = .rawKey := by
  unfold strokesOf at h
  split at h
  · cases h
  · split at h
    · exact mapAnswer_rawKey h
    · obtain ⟨k, -, rfl⟩ := Option.map_eq_some_iff.mp h
      intro e he
      rw [List.mem_singleton.mp he]
      rfl

theorem strokes_rawKey (keymap : Option Keymap) (i : Nat) (cps : List Nat) :
    ∀ e ∈ strokes keymap i cps, e.cls = .rawKey := by
  induction cps generalizing i with
  | nil => exact fun e he => absurd he List.not_mem_nil
  | cons cp cps ih =>
    intro e he
    rcases List.mem_append.mp he with hmem | hmem
    · cases hs : strokesOf keymap i cp with
      | none =>
        rw [hs] at hmem
        exact absurd hmem List.not_mem_nil
      | some downs =>
        rw [hs] at hmem
        exact strokesOf_rawKey hs e hmem
    · exact ih (i + 1) e hmem

/-- A context that holds nothing writes nothing when it closes. -/
structure Ctx.Idle (c : Ctx) : Prop where
  mods : c.heldMods = []
  button : c.heldButtonCode = 0

theorem Ctx.Idle.close_written {c : Ctx} (h : c.Idle) : c.close.written = c.written := by
  have hbuttons : c.releaseButtons = c := if_pos h.button
  unfold Ctx.close
  rw [hbuttons, delayMs_written, releaseModifiers, h.mods]
  rfl

theorem Ctx.Idle.delayMs {c : Ctx} (h : c.Idle) (ms : Nat) : (c.delayMs ms).Idle := by
  unfold Ctx.delayMs
  split
  · exact h
  · exact ⟨h.mods, h.button⟩

theorem Ctx.Idle.of_error {c c' : Ctx} {e : Event} (h : c.Idle) (he : c.writeEvent e = .error c') :
    c'.Idle := by
  rw [writeEvent_error he]
  exact ⟨h.mods, h.button⟩

theorem Ctx.Idle.of_ok {c c' : Ctx} {e : Event} (h : c.Idle) (he : c.writeEvent e = .ok c') :
    c'.Idle := by
  rw [writeEvent_ok he]
  exact ⟨h.mods, h.button⟩

theorem pressStrokes_idle {delay : Nat} {downs : List Event} {c : Ctx} (h : c.Idle) :
    (finish (pressStrokes delay downs c)).Idle := by
  induction downs generalizing c with
  | nil => exact h
  | cons down downs ih =>
    have hstroke : (finish (pressStroke delay down c)).Idle := by
      refine finish_bind (fun c' he => h.of_error he) fun c₁ h₁ => ?_
      have hheld := (h.of_ok h₁).delayMs (half delay)
      refine finish_bind (fun c' he => hheld.of_error he) fun c₂ h₂ => ?_
      have hdone : c₂.Idle := hheld.of_ok h₂
      exact hdone.delayMs delay
    exact finish_then hstroke fun c' _ hidle => ih hidle

/-- The budgets end no stroke of the request between its press and its release,
and the key mapper answers with the release of a modifier only behind the
press of this modifier. -/
def TypeRequest.Within (req : TypeRequest) (w : World) : Prop :=
  ∀ i down, (strokes (req.keymap w) 0 (codePoints req.text))[i]? = some down →
    Reached w.timer req.delay i →
    (down.code < upPrefix → Finished w.timer req.delay i) ∧
      (¬ down.code < upPrefix → Own (.key (downCode down.code)) →
        ∃ m < i, ∃ e, (strokes (req.keymap w) 0 (codePoints req.text))[m]? = some e ∧
          e.code < upPrefix ∧ e.code = downCode down.code)

/-- The events of input.type. -/
theorem inputType_written {w : World} {params : Option CJson} {req : TypeRequest}
    (henabled : w.enabled = true) (hopen : w.openFailure = none) (hreq : parseType params = .ok req) :
    (inputType w params).written =
      typed w.timer req.delay 0 (strokes (req.keymap w) 0 (codePoints req.text)) := by
  have hbefore : ({ tioOpen := w.timer } : Ctx).Before w.timer req.delay 0 := by
    refine ⟨rfl, rfl, ?_⟩
    rw [Nat.zero_mul, ite_self]
  have hidle : (finish (pressStrokes req.delay (strokes (req.keymap w) 0 (codePoints req.text))
      { tioOpen := w.timer })).Idle := pressStrokes_idle ⟨rfl, rfl⟩
  unfold inputType World.inject
  rw [henabled, hreq, hopen]
  show (typeChars (req.keymap w) req.delay 0 (codePoints req.text) { ctx := { tioOpen := w.timer } }
    ).ctx.close.written = _
  rw [typeChars_ctx, hidle.close_written, pressStrokes_written hbefore]
  rfl

theorem inputType_clean {w : World} {params : Option CJson} {req : TypeRequest}
    (henabled : w.enabled = true) (hopen : w.openFailure = none) (hreq : parseType params = .ok req) :
    Clean (inputType w params).written ↔ req.Within w := by
  have hcls := strokes_rawKey (req.keymap w) 0 (codePoints req.text)
  have howned := owned_typed w.timer req.delay 0 [] hcls
  rw [List.nil_append] at howned
  rw [inputType_written henabled hopen hreq, Clean, released_typed hcls, howned]
  constructor
  · rintro ⟨hfinished, -, hown⟩ i down hi hreach
    rw [← Nat.zero_add i] at hreach
    refine ⟨fun hcode => ?_, fun hcode hmine => ?_⟩
    · have hdone := hfinished i down hi hreach hcode
      rwa [Nat.zero_add] at hdone
    · rcases hown i down hi hreach hcode hmine with ⟨e, hmem, -⟩ | hearlier
      · exact absurd hmem List.not_mem_nil
      · exact hearlier
  · intro hwithin
    refine ⟨fun i down hi hreach hcode => ?_, owned_nil _, fun i down hi hreach hcode hmine => ?_⟩
    · rw [Nat.zero_add] at hreach ⊢
      exact (hwithin i down hi hreach).1 hcode
    · rw [Nat.zero_add] at hreach
      exact Or.inr ((hwithin i down hi hreach).2 hcode hmine)

/-! ## Every call -/

/-- The budgets of a call that types do not end between a press and its
release. -/
def Method.Within (m : Method) (w : World) (params : Option CJson) : Prop :=
  m = .type → w.enabled = true → w.openFailure = none →
    ∀ req, parseType params = .ok req → req.Within w

/-- A call leaves no key and no button down, and lets go of no modifier and no
button that it has not pressed, exactly when its budgets end at no press. -/
theorem calls_clean_iff (m : Method) (w : World) (params : Option CJson) :
    Clean (m.call w params).written ↔ m.Within w params := by
  have hother : m ≠ .type → (Clean (m.call w params).written ↔ m.Within w params) := by
    intro hne
    refine iff_of_true ?_ fun h => absurd h hne
    cases m with
    | key => exact inputKey_clean w params
    | type => exact absurd rfl hne
    | mouseMove => exact inputMouseMove_clean w params
    | click => exact inputClick_clean w params
    | drag => exact inputDrag_clean w params
    | scroll => exact inputScroll_clean w params
  by_cases hm : m = .type
  · subst hm
    by_cases henabled : w.enabled = true
    · cases hreq : parseType params with
      | error e =>
        have hwritten : (inputType w params).written = [] := by
          unfold inputType
          rw [henabled, hreq]
          rfl
        refine iff_of_true ?_ fun _ _ _ req h => ?_
        · show Clean (inputType w params).written
          rw [hwritten]
          exact clean_nil
        · rw [hreq] at h
          cases h
      | ok req =>
        cases hopen : w.openFailure with
        | some failure =>
          have hwritten : (inputType w params).written = [] := by
            unfold inputType World.inject
            rw [henabled, hreq, hopen]
            rfl
          refine iff_of_true ?_ fun _ _ hnone => ?_
          · show Clean (inputType w params).written
            rw [hwritten]
            exact clean_nil
          · rw [hopen] at hnone
            cases hnone
        | none =>
          rw [Method.call, inputType_clean henabled hopen hreq]
          constructor
          · intro hwithin _ _ _ req' hreq'
            rw [hreq] at hreq'
            cases hreq'
            exact hwithin
          · intro h
            exact h rfl henabled hopen req hreq
    · have hwritten : (inputType w params).written = [] := by
        unfold inputType
        rw [if_pos (Bool.eq_false_iff.mpr henabled)]
        rfl
      refine iff_of_true ?_ fun _ hon => absurd hon henabled
      show Clean (inputType w params).written
      rw [hwritten]
      exact clean_nil
  · exact hother hm

/-- A machine with a timer and the US layout. -/
def plainWorld : World :=
  { enabled := true
    openFailure := none
    timer := true
    keymap := none
    pointer := .error .noScreen
    landed := .error .noScreen }

/-- Fourteen characters at a second each. -/
def slowText : CJson :=
  .object [(ascii "confirm", .bool true), (ascii "text", .string (List.replicate 14 97)),
    (ascii "delay_ms", cNumber 1000)]

/-- The last character goes down at 19.5 seconds, and its release would come
at 20 seconds, when the budget is spent. -/
theorem key_left_down : ¬ Clean (Method.type.call plainWorld (some slowText)).written := by
  have hlast : (Method.type.call plainWorld (some slowText)).written =
      (Method.type.call plainWorld (some slowText)).written.take 26 ++ keyDown 0x20 0 :: [] := by
    decide +kernel
  rintro ⟨hreleased, -⟩
  obtain ⟨e, hmem, -⟩ := hreleased _ _ _ (.key 0x20) hlast (by decide)
  exact absurd hmem List.not_mem_nil

end AmigaFleet.Mcpd.Input

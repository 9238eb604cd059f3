import AmigaFleet.Lib.Holding
import AmigaFleet.Mcpd.Input

/-!
# What the input methods hold down

Which keys and buttons are still down when a call returns.  `Ctx.Safe` says
that whatever is held is remembered in the context, for `close` to let go.
Modifiers and buttons are remembered; the keys that input.type presses are
not, and a budget that ends between the press and the release of such a key
leaves it down.

* `pressChord_safe`, `clicks_safe`, `dragPath_safe`: the other methods end safe
  wherever a budget stops them.
* `typed`: the events of input.type, stroke by stroke, and `finish_pressStrokes`.
-/

namespace AmigaFleet.Mcpd.Input

open AmigaFleet.Lib

/-! ## Controls -/

/-- A key or a mouse button. -/
inductive Control where
  | key (code : UInt8)
  | button (code : UInt8)
deriving DecidableEq, Repr

/-- The code without `upPrefix`. -/
def downCode (code : UInt8) : UInt8 := code &&& 0x7F

def isButton (code : UInt8) : Bool :=
  code = codeLButton ∨ code = codeRButton ∨ code = codeMButton

/-- The control that an event presses. -/
def Event.press (e : Event) : Option Control :=
  match e.cls with
  | .rawKey => if e.code < upPrefix then some (.key e.code) else none
  | .rawMouse => if isButton e.code then some (.button e.code) else none
  | .mouseWheel => none

/-- The control that an event releases. -/
def Event.release (e : Event) : Option Control :=
  match e.cls with
  | .rawKey => if e.code < upPrefix then none else some (.key (downCode e.code))
  | .rawMouse =>
    if upPrefix ≤ e.code ∧ isButton (downCode e.code) then some (.button (downCode e.code))
    else none
  | .mouseWheel => none

/-- The controls that only their own call may let go. -/
def Control.isOwn : Control → Bool
  | .key code => rawLShift ≤ code ∧ code ≤ rawRAmiga
  | .button _ => true

abbrev Own (k : Control) : Prop := k.isOwn = true

/-- A control that an event with this code presses. -/
def Control.Valid : Control → Prop
  | .key code => code < upPrefix
  | .button code => isButton code = true

theorem up_code {code : UInt8} (h : code < upPrefix) :
    upPrefix ≤ code ||| upPrefix ∧ downCode (code ||| upPrefix) = code := by
  have hall : ∀ n < 128, upPrefix ≤ UInt8.ofNat n ||| upPrefix ∧
      downCode (UInt8.ofNat n ||| upPrefix) = UInt8.ofNat n := by decide
  have hlt : code.toNat < 128 := UInt8.lt_iff_toNat_lt.mp h
  have hcode := hall code.toNat hlt
  rw [UInt8.ofNat_toNat] at hcode
  exact hcode

theorem up_code_of_up {code : UInt8} (h : ¬ code < upPrefix) : code ||| upPrefix = code := by
  have hall : ∀ n < 256, 128 ≤ n → UInt8.ofNat n ||| upPrefix = UInt8.ofNat n := by
    decide +kernel
  have hge : ¬ code.toNat < 128 := fun hlt => h (UInt8.lt_iff_toNat_lt.mpr hlt)
  have hcode := hall code.toNat code.toNat_lt (by omega)
  rw [UInt8.ofNat_toNat] at hcode
  exact hcode

theorem Control.Valid.cases_button {code : UInt8} (h : (Control.button code).Valid) :
    code = codeLButton ∨ code = codeRButton ∨ code = codeMButton := by
  simpa [Control.Valid, isButton] using h

/-- Keys and buttons, as an event that presses them. -/
def Control.down : Control → UInt16 → Event
  | .key code, qual => keyDown code qual
  | .button code, _ => buttonEvent code

theorem Control.press_down {k : Control} (hk : k.Valid) (qual : UInt16) :
    (k.down qual).press = some k ∧ (k.down qual).release = none := by
  cases k with
  | key code => exact ⟨if_pos hk, if_pos hk⟩
  | button code =>
    refine ⟨if_pos hk, if_neg ?_⟩
    show ¬ (upPrefix ≤ code ∧ _)
    rintro ⟨hup, -⟩
    rcases hk.cases_button with rfl | rfl | rfl <;> exact absurd hup (by decide)

theorem Control.release_up {k : Control} (hk : k.Valid) (qual : UInt16) :
    (k.down qual).up.release = some k ∧ (k.down qual).up.press = none := by
  cases k with
  | key code =>
    obtain ⟨hup, hdown⟩ := up_code hk
    have hnot : ¬ code ||| upPrefix < upPrefix := UInt8.not_lt.mpr hup
    refine ⟨?_, if_neg hnot⟩
    show (if code ||| upPrefix < upPrefix then none
      else some (Control.key (downCode (code ||| upPrefix)))) = _
    rw [if_neg hnot, hdown]
  | button code =>
    have hboth : ∀ code, code = codeLButton ∨ code = codeRButton ∨ code = codeMButton →
        upPrefix ≤ code ||| upPrefix ∧ downCode (code ||| upPrefix) = code ∧
          isButton (code ||| upPrefix) = false := by
      rintro code (rfl | rfl | rfl) <;> decide
    obtain ⟨hup, hdown, hnot⟩ := hboth code hk.cases_button
    constructor
    · show (if upPrefix ≤ code ||| upPrefix ∧ isButton (downCode (code ||| upPrefix)) = true then
        some (Control.button (downCode (code ||| upPrefix))) else none) = _
      rw [hdown]
      exact if_pos ⟨hup, hk⟩
    · show (if isButton (code ||| upPrefix) = true then _ else _) = _
      rw [hnot]
      rfl

/-- Nothing is down, and nothing was let go that had not been pressed. -/
def Clean (es : List Event) : Prop :=
  Released Event.press Event.release es ∧
    Owned Event.press Event.release Own es

/-! ## What the context remembers -/

/-- The controls that `close` lets go. -/
def Ctx.Holds (c : Ctx) : Control → Prop
  | .key code => code ∈ c.heldMods
  | .button code => code = c.heldButtonCode ∧ code ≠ 0

/-- Whatever is held is remembered, up to `extra`, and whatever is remembered
was pressed. -/
structure Ctx.SafeBut (extra : Control → Prop) (c : Ctx) : Prop where
  held : ∀ k, Held Event.press Event.release c.written k → c.Holds k ∨ extra k
  owned : Owned Event.press Event.release Own c.written
  pressed : ∀ k, c.Holds k → k.Valid ∧ Pressed Event.press c.written k

/-- Whatever is held is remembered. -/
abbrev Ctx.Safe (c : Ctx) : Prop := c.SafeBut fun _ => False

/-- Another context with the same events and the same memory. -/
theorem Ctx.SafeBut.congr {extra : Control → Prop} {c c' : Ctx} (h : c.SafeBut extra)
    (hwritten : c'.written = c.written) (hmods : c'.heldMods = c.heldMods)
    (hbutton : c'.heldButtonCode = c.heldButtonCode) : c'.SafeBut extra := by
  have hholds : ∀ k, c'.Holds k ↔ c.Holds k := by
    intro k
    cases k with
    | key code => rw [Ctx.Holds, Ctx.Holds, hmods]
    | button code => rw [Ctx.Holds, Ctx.Holds, hbutton]
  refine ⟨fun k hk => ?_, by rw [hwritten]; exact h.owned, fun k hk => ?_⟩
  · rw [hholds]
    exact h.held k (by rw [← hwritten]; exact hk)
  · rw [hwritten]
    exact h.pressed k ((hholds k).mp hk)

/-- An event that presses and releases nothing. -/
theorem Ctx.SafeBut.emit_neutral {extra : Control → Prop} {c : Ctx} {e : Event}
    (h : c.SafeBut extra) (hpress : e.press = none) (hrelease : e.release = none) :
    (c.emit e).SafeBut extra := by
  refine ⟨fun k hk => ?_, ?_, fun k hk => ?_⟩
  · rcases held_snoc.mp hk with hp | ⟨hheld, -⟩
    · rw [hpress] at hp
      cases hp
    · exact h.held k hheld
  · refine owned_snoc.mpr ⟨h.owned, fun k hrel => ?_⟩
    rw [hrelease] at hrel
    cases hrel
  · obtain ⟨hvalid, hpressed⟩ := h.pressed k hk
    exact ⟨hvalid, hpressed.append⟩

/-- A press is remembered, or is the extra control. -/
theorem Ctx.SafeBut.emit_down {extra : Control → Prop} {c : Ctx} {k : Control} (h : c.SafeBut extra)
    (hk : k.Valid) (qual : UInt16) :
    (c.emit (k.down qual)).SafeBut fun k' => k' = k ∨ extra k' := by
  obtain ⟨hpress, hrelease⟩ := Control.press_down hk qual
  refine ⟨fun k' hk' => ?_, ?_, fun k' hk' => ?_⟩
  · rcases held_snoc.mp hk' with hp | ⟨hheld, -⟩
    · rw [hpress] at hp
      exact Or.inr (Or.inl (Option.some.inj hp).symm)
    · rcases h.held k' hheld with hholds | hextra
      · exact Or.inl hholds
      · exact Or.inr (Or.inr hextra)
  · refine owned_snoc.mpr ⟨h.owned, fun k' hrel => ?_⟩
    rw [hrelease] at hrel
    cases hrel
  · obtain ⟨hvalid, hpressed⟩ := h.pressed k' hk'
    exact ⟨hvalid, hpressed.append⟩

/-- A release of a control that was pressed. -/
theorem Ctx.SafeBut.emit_up {extra : Control → Prop} {c : Ctx} {k : Control} (h : c.SafeBut extra)
    (hk : k.Valid) (hpressed : Pressed Event.press c.written k) (qual : UInt16) :
    (c.emit (k.down qual).up).SafeBut (fun k' => k' ≠ k ∧ extra k') ∧
      ¬ Held Event.press Event.release (c.emit (k.down qual).up).written k := by
  obtain ⟨hrelease, hpress⟩ := Control.release_up hk qual
  refine ⟨⟨fun k' hk' => ?_, ?_, fun k' hk' => ?_⟩, fun hheld => ?_⟩
  · rcases held_snoc.mp hk' with hp | ⟨hheld, hnot⟩
    · rw [hpress] at hp
      cases hp
    · rcases h.held k' hheld with hholds | hextra
      · exact Or.inl hholds
      · refine Or.inr ⟨?_, hextra⟩
        rintro rfl
        exact hnot hrelease
  · refine owned_snoc.mpr ⟨h.owned, fun k' hrel _ => ?_⟩
    rw [hrelease] at hrel
    cases hrel
    exact hpressed
  · obtain ⟨hvalid, hp⟩ := h.pressed k' hk'
    exact ⟨hvalid, hp.append⟩
  · rcases held_snoc.mp hheld with hp | ⟨-, hnot⟩
    · rw [hpress] at hp
      cases hp
    · exact hnot hrelease

/-! ## Steps of a call -/

/-- A step that is followed by another one ends where either of them ends. -/
theorem finish_bind {P : Ctx → Prop} {r : Except Ctx Ctx} {f : Ctx → Except Ctx Ctx}
    (herror : ∀ c, r = .error c → P c) (hok : ∀ c, r = .ok c → P (finish (f c))) :
    P (finish (r >>= f)) := by
  cases r with
  | error c => exact herror c rfl
  | ok c => exact hok c rfl

/-- The same, where what the first step ends with is known. -/
theorem finish_then {P : Ctx → Prop} {r : Except Ctx Ctx} {f : Ctx → Except Ctx Ctx}
    (h : P (finish r)) (hok : ∀ c, r = .ok c → P c → P (finish (f c))) : P (finish (r >>= f)) := by
  cases r with
  | error c => exact h
  | ok c => exact hok c rfl h

theorem writeEvent_error {e : Event} {c c' : Ctx} (h : c.writeEvent e = .error c') :
    c' = { c with truncated := true } := by
  unfold Ctx.writeEvent at h
  split at h
  · cases h
    rfl
  · cases h

theorem writeEvent_ok {e : Event} {c c' : Ctx} (h : c.writeEvent e = .ok c') :
    c' = { c.emit e with events := c.events + 1 } := by
  unfold Ctx.writeEvent at h
  split at h
  · cases h
  · cases h
    rfl

theorem delayMs_spent_le (ms : Nat) (c : Ctx) : (c.delayMs ms).spentMs ≤ c.spentMs + ms := by
  unfold Ctx.delayMs
  split
  · exact Nat.le_add_right ..
  · exact Nat.le_refl _

theorem Ctx.SafeBut.delayMs {extra : Control → Prop} {c : Ctx} (h : c.SafeBut extra) (ms : Nat) :
    (c.delayMs ms).SafeBut extra := by
  refine h.congr ?_ ?_ ?_ <;> unfold Ctx.delayMs <;> split <;> rfl

@[simp] theorem delayMs_written (ms : Nat) (c : Ctx) : (c.delayMs ms).written = c.written := by
  unfold Ctx.delayMs
  split <;> rfl

@[simp] theorem delayMs_events (ms : Nat) (c : Ctx) : (c.delayMs ms).events = c.events := by
  unfold Ctx.delayMs
  split <;> rfl

@[simp] theorem delayMs_heldButtonCode (ms : Nat) (c : Ctx) :
    (c.delayMs ms).heldButtonCode = c.heldButtonCode := by
  unfold Ctx.delayMs
  split <;> rfl

theorem Ctx.SafeBut.of_error {extra : Control → Prop} {c c' : Ctx} {e : Event} (h : c.SafeBut extra)
    (he : c.writeEvent e = .error c') : c'.SafeBut extra := by
  rw [writeEvent_error he]
  exact h.congr rfl rfl rfl

theorem Ctx.SafeBut.of_ok_neutral {extra : Control → Prop} {c c' : Ctx} {e : Event}
    (h : c.SafeBut extra) (hpress : e.press = none) (hrelease : e.release = none)
    (he : c.writeEvent e = .ok c') : c'.SafeBut extra := by
  rw [writeEvent_ok he]
  exact (h.emit_neutral hpress hrelease).congr rfl rfl rfl

theorem motionEvent_neutral (dx dy : Int) (buttons : UInt16) :
    (motionEvent dx dy buttons).press = none ∧ (motionEvent dx dy buttons).release = none := by
  refine ⟨rfl, if_neg ?_⟩
  show ¬ (upPrefix ≤ codeNoButton ∧ isButton (downCode codeNoButton) = true)
  decide

/-! ### Modifiers -/

theorem pushModifier_safe {c : Ctx} {k : NamedKey} (h : c.Safe) (hk : k.code < upPrefix) :
    (finish (c.pushModifier k)).Safe := by
  unfold Ctx.pushModifier
  split
  · exact h
  · refine finish_bind (fun c' he => h.of_error he) fun c' he => ?_
    rw [writeEvent_ok he]
    have hdown := h.emit_down (k := .key k.code) hk c.heldQuals
    refine ⟨fun k' hk' => ?_, hdown.owned, fun k' hk' => ?_⟩
    · rcases hdown.held k' hk' with hholds | rfl | hfalse
      · cases k' with
        | key code => exact Or.inl (List.mem_cons_of_mem _ hholds)
        | button code => exact Or.inl hholds
      · exact Or.inl (List.mem_cons_self ..)
      · exact hfalse.elim
    · cases k' with
      | key code =>
        rcases List.mem_cons.mp hk' with rfl | hmem
        · exact ⟨hk, pressed_snoc.mpr (Or.inr (Control.press_down (k := .key _) hk _).1)⟩
        · exact hdown.pressed (.key code) hmem
      | button code => exact hdown.pressed (.button code) hk'

/-- What a modifier costs. -/
theorem pushModifier_ok {c c' : Ctx} {k : NamedKey} (h : c.pushModifier k = .ok c') :
    c'.events = c.events + 1 ∧ c'.spentMs = c.spentMs := by
  unfold Ctx.pushModifier at h
  split at h
  · cases h
  · cases hw : c.writeEvent (keyDown k.code c.heldQuals) with
    | error e =>
      rw [hw] at h
      cases h
    | ok e =>
      rw [hw] at h
      cases h
      rw [writeEvent_ok hw]
      exact ⟨rfl, rfl⟩

theorem pressModifiers_safe (delay : Nat) {ks : List NamedKey} {c : Ctx} (h : c.Safe)
    (hks : ∀ k ∈ ks, k.code < upPrefix) : (finish (pressModifiers delay ks c)).Safe := by
  induction ks generalizing c with
  | nil => exact h
  | cons k ks ih =>
    have hpush := pushModifier_safe h (hks k (List.mem_cons_self ..))
    refine finish_then hpush fun c' _ hsafe => ?_
    exact ih (hsafe.delayMs delay) fun k' hk' => hks k' (List.mem_cons_of_mem _ hk')

theorem pressModifiers_ok {delay : Nat} {ks : List NamedKey} {c c' : Ctx}
    (h : pressModifiers delay ks c = .ok c') :
    c'.events = c.events + ks.length ∧ c'.spentMs ≤ c.spentMs + ks.length * delay := by
  induction ks generalizing c with
  | nil =>
    cases h
    simp
  | cons k ks ih =>
    cases hpush : c.pushModifier k with
    | error e =>
      rw [pressModifiers, hpush] at h
      cases h
    | ok c₁ =>
      rw [pressModifiers, hpush] at h
      obtain ⟨hevents, hspent⟩ := pushModifier_ok hpush
      obtain ⟨hevents', hspent'⟩ := ih h
      have hdelay := delayMs_spent_le delay c₁
      rw [delayMs_events] at hevents'
      rw [List.length_cons, Nat.add_mul, Nat.one_mul]
      omega

/-! ### Chords -/

theorem findNamedKey_lshift : findNamedKey (ascii "lshift") = some ⟨"lshift", rawLShift, qualLShift⟩ := by
  decide +kernel

theorem pressShift_safe {c : Ctx} (h : c.Safe) : (finish (pressShift c)).Safe := by
  unfold pressShift
  rw [findNamedKey_lshift]
  exact pushModifier_safe h (by decide)

theorem pressShift_ok {c c' : Ctx} (h : pressShift c = .ok c') :
    c'.events = c.events + 1 ∧ c'.spentMs = c.spentMs := by
  unfold pressShift at h
  rw [findNamedKey_lshift] at h
  exact pushModifier_ok h

/-- The last key of a chord is let go at once: the budgets last for it. -/
theorem pressFinal_safe {c : Ctx} {code : UInt8} {delay : Nat} (h : c.Safe) (hcode : code < upPrefix)
    (hevents : c.events ≤ inputMaxChordKeys) (hspent : c.spentMs ≤ 8000) (hdelay : delay ≤ 1000) :
    (finish (do
      let c' ← c.writeEvent (keyDown code c.heldQuals)
      (c'.delayMs delay).writeEvent (keyDown code c.heldQuals).up)).Safe := by
  refine finish_bind (fun c' he => h.of_error he) fun c' he => ?_
  have hdown : c'.SafeBut fun k' => k' = .key code ∨ False := by
    rw [writeEvent_ok he]
    exact (h.emit_down (k := .key code) hcode c.heldQuals).congr rfl rfl rfl
  have hpressed : Pressed Event.press (c'.delayMs delay).written (.key code) := by
    rw [delayMs_written, writeEvent_ok he]
    exact pressed_snoc.mpr (Or.inr (Control.press_down (k := .key code) hcode _).1)
  have hroom : ¬ ((c'.delayMs delay).events ≥ inputMaxEvents ∨
      (c'.delayMs delay).spentMs ≥ inputMaxBudgetMs) := by
    have hle := delayMs_spent_le delay c'
    have heq : c'.events = c.events + 1 ∧ c'.spentMs = c.spentMs := by
      rw [writeEvent_ok he]
      exact ⟨rfl, rfl⟩
    rw [delayMs_events]
    unfold inputMaxEvents inputMaxBudgetMs
    unfold inputMaxChordKeys at hevents
    omega
  rw [Ctx.writeEvent, if_neg hroom]
  have hup := (hdown.delayMs delay).emit_up (k := .key code) hcode hpressed c.heldQuals
  refine Ctx.SafeBut.congr (c := (c'.delayMs delay).emit (keyDown code c.heldQuals).up) ?_ rfl rfl rfl
  refine ⟨fun k hk => ?_, hup.1.owned, hup.1.pressed⟩
  rcases hup.1.held k hk with hholds | ⟨hne, hcase⟩
  · exact Or.inl hholds
  · exact Or.inr (hcase.elim hne id)

theorem pressChord_safe {chord : Chord} {delay : Nat} {c : Ctx} (h : c.Safe)
    (hmods : ∀ k ∈ chord.modifiers, k.code < upPrefix) (hfinal : chord.finalCode < upPrefix)
    (hshort : chord.modifiers.length < inputMaxChordKeys) (hdelay : delay ≤ 1000)
    (hevents : c.events = 0) (hspent : c.spentMs = 0) :
    (finish (pressChord chord delay c)).Safe := by
  have hpress := pressModifiers_safe delay h hmods
  have hcost : chord.modifiers.length * delay ≤ 7000 :=
    Nat.mul_le_mul (Nat.le_of_lt_succ hshort) hdelay
  unfold inputMaxChordKeys at hshort
  refine finish_then hpress fun c₁ h₁ hsafe₁ => ?_
  obtain ⟨hevents₁, hspent₁⟩ := pressModifiers_ok h₁
  cases hshift : chord.finalShift with
  | false =>
    exact pressFinal_safe hsafe₁ hfinal (by unfold inputMaxChordKeys; omega) (by omega) hdelay
  | true =>
    refine finish_then (pressShift_safe hsafe₁) fun c₂ h₂ hsafe₂ => ?_
    obtain ⟨hevents₂, hspent₂⟩ := pressShift_ok h₂
    exact pressFinal_safe hsafe₂ hfinal (by unfold inputMaxChordKeys; omega) (by omega) hdelay

/-! ### Clicks and drags -/

/-- The button of a request. -/
theorem parseButton_valid {params : Option CJson} {button : UInt8 × UInt16}
    (h : parseButton params = .ok button) : (Control.button button.1).Valid := by
  unfold parseButton at h
  split at h
  · rename_i b hb
    cases h
    unfold buttonCode at hb
    split at hb
    · cases hb
      rfl
    · split at hb
      · cases hb
        rfl
      · split at hb
        · cases hb
          rfl
        · cases hb
  · cases h

theorem Control.Valid.ne_zero {code : UInt8} (h : (Control.button code).Valid) : code ≠ 0 := by
  rcases h.cases_button with rfl | rfl | rfl <;> decide

/-- A button that goes down while none is held is remembered. -/
theorem pressButton_safe {c : Ctx} {button : UInt8 × UInt16} (h : c.Safe)
    (hvalid : (Control.button button.1).Valid) (hfree : c.heldButtonCode = 0) :
    (finish (c.pressButton button)).Safe := by
  refine finish_bind (fun c' he => h.of_error he) fun c' he => ?_
  rw [writeEvent_ok he]
  have hdown := h.emit_down (k := .button button.1) hvalid 0
  refine ⟨fun k hk => ?_, hdown.owned, fun k hk => ?_⟩
  · rcases hdown.held k hk with hholds | rfl | hfalse
    · cases k with
      | key code => exact Or.inl hholds
      | button code => exact absurd (hholds.1.trans hfree) hholds.2
    · exact Or.inl ⟨rfl, hvalid.ne_zero⟩
    · exact hfalse.elim
  · cases k with
    | key code => exact hdown.pressed (.key code) hk
    | button code =>
      obtain ⟨rfl, -⟩ := hk
      exact ⟨hvalid, pressed_snoc.mpr (Or.inr (Control.press_down hvalid 0).1)⟩

theorem pressButton_ok {c c' : Ctx} {button : UInt8 × UInt16} (h : c.pressButton button = .ok c') :
    c'.heldButtonCode = button.1 := by
  cases hw : c.writeEvent (buttonEvent button.1) with
  | error e =>
    rw [Ctx.pressButton, hw] at h
    cases h
  | ok e =>
    rw [Ctx.pressButton, hw] at h
    cases h
    rfl

/-- The held button is let go and forgotten. -/
theorem releaseButton_safe {c : Ctx} {code : UInt8} (h : c.Safe)
    (hvalid : (Control.button code).Valid) (hheld : c.heldButtonCode = code) :
    ({ c.emit (buttonEvent code).up with heldButtonCode := 0, heldButtons := 0 } : Ctx).Safe := by
  have hholds : c.Holds (.button code) := ⟨hheld.symm, hvalid.ne_zero⟩
  obtain ⟨hup, hnot⟩ := h.emit_up hvalid (h.pressed _ hholds).2 0
  refine ⟨fun k hk => ?_, hup.owned, fun k hk => ?_⟩
  · rcases hup.held k hk with hholds | ⟨-, hfalse⟩
    · cases k with
      | key code => exact Or.inl hholds
      | button code' =>
        obtain ⟨hcode, -⟩ := hholds
        have hsame : code' = code := hcode.trans hheld
        subst hsame
        exact absurd hk hnot
    · exact hfalse.elim
  · cases k with
    | key code => exact hup.pressed (.key code) hk
    | button code => exact absurd hk.1 hk.2

theorem clicks_safe {button : UInt8 × UInt16} {delay n : Nat} {c : Ctx} (h : c.Safe)
    (hvalid : (Control.button button.1).Valid) (hfree : c.heldButtonCode = 0) :
    (finish (clicks button delay n c)).Safe := by
  induction n generalizing c with
  | zero => exact h
  | succ n ih =>
    refine finish_then (pressButton_safe h hvalid hfree) fun c₁ h₁ hpress => ?_
    have hheld : (c₁.delayMs delay).heldButtonCode = button.1 := by
      rw [delayMs_heldButtonCode]
      exact pressButton_ok h₁
    have hwait := hpress.delayMs delay
    refine finish_bind (fun c' he => hwait.of_error he) fun c₂ h₂ => ?_
    have hrelease := releaseButton_safe hwait hvalid hheld
    have hsafe : ({ c₂ with heldButtonCode := 0, heldButtons := 0 } : Ctx).Safe := by
      rw [writeEvent_ok h₂]
      exact hrelease.congr rfl rfl rfl
    dsimp only
    by_cases hlast : n = 0
    · rw [if_pos hlast]
      exact ih hsafe rfl
    · rw [if_neg hlast]
      exact ih (Ctx.SafeBut.delayMs hsafe delay) (delayMs_heldButtonCode ..)

theorem premove_safe (move : Option (Int × Int)) (delay : Nat) {c : Ctx} (h : c.Safe)
    (hfree : c.heldButtonCode = 0) :
    (premove move delay c).Safe ∧ (premove move delay c).heldButtonCode = 0 := by
  unfold premove
  split
  · rename_i dx dy
    split
    · exact ⟨h, hfree⟩
    · obtain ⟨hpress, hrelease⟩ := motionEvent_neutral dx dy 0
      rw [delayMs_heldButtonCode]
      cases hw : c.writeEvent (motionEvent dx dy 0) with
      | error c' =>
        refine ⟨(h.of_error hw).delayMs delay, ?_⟩
        rw [writeEvent_error hw]
        exact hfree
      | ok c' =>
        refine ⟨(h.of_ok_neutral hpress hrelease hw).delayMs delay, ?_⟩
        rw [writeEvent_ok hw]
        exact hfree
  · exact ⟨h, hfree⟩

theorem dragSteps_safe (dx dy : Int) (steps delay n : Nat) {c : Ctx} (h : c.Safe) :
    (finish (dragSteps dx dy steps delay n c)).Safe := by
  induction n generalizing c with
  | zero => exact h
  | succ n ih =>
    rw [dragSteps]
    split
    · exact ih h
    · obtain ⟨hpress, hrelease⟩ := motionEvent_neutral (stepLength dx steps (steps - n))
        (stepLength dy steps (steps - n)) c.heldButtons
      refine finish_bind (fun c' he => h.of_error he) fun c' he => ?_
      exact ih ((h.of_ok_neutral hpress hrelease he).delayMs delay)

theorem dragPath_safe {req : DragRequest} {c : Ctx} (h : c.Safe)
    (hvalid : (Control.button req.button.1).Valid) (hfree : c.heldButtonCode = 0) :
    (finish (dragPath req c)).Safe := by
  obtain ⟨hpress, hrelease⟩ := motionEvent_neutral req.approach.1 req.approach.2 0
  refine finish_bind (fun c' he => h.of_error he) fun c₁ h₁ => ?_
  have hmoved := (h.of_ok_neutral hpress hrelease h₁).delayMs inputDefButtonMs
  have hfree₁ : (c₁.delayMs inputDefButtonMs).heldButtonCode = 0 := by
    rw [delayMs_heldButtonCode, writeEvent_ok h₁]
    exact hfree
  refine finish_then (pressButton_safe hmoved hvalid hfree₁) fun c₂ _ hdown => ?_
  have hsteps := dragSteps_safe req.path.1 req.path.2 req.steps req.delay req.steps
    (hdown.delayMs inputDefButtonMs)
  exact finish_then hsteps fun c₃ _ hsafe => hsafe.delayMs inputDefButtonMs

/-! ### The end of a call -/

theorem releaseKeys_clean {codes : List UInt8} {c : Ctx}
    (hheld : ∀ k, Held Event.press Event.release c.written k → ∃ code ∈ codes, k = .key code)
    (howned : Owned Event.press Event.release Own c.written)
    (hpressed : ∀ code ∈ codes, code < upPrefix ∧ Pressed Event.press c.written (.key code)) :
    Clean (c.releaseKeys codes).written := by
  induction codes generalizing c with
  | nil =>
    refine ⟨released_iff.mpr fun k hk => ?_, howned⟩
    obtain ⟨code, hmem, -⟩ := hheld k hk
    exact List.not_mem_nil hmem
  | cons code codes ih =>
    obtain ⟨hdown, hpress⟩ := hpressed code (List.mem_cons_self ..)
    obtain ⟨hrel, hnone⟩ := Control.release_up (k := .key code) hdown c.heldQuals
    refine ih (c := c.emit (keyDown code c.heldQuals).up) (fun k hk => ?_) ?_ fun code' hmem => ?_
    · rcases held_snoc.mp hk with hp | ⟨hk, hnot⟩
      · exact absurd (hnone.symm.trans hp) (by simp)
      · obtain ⟨code', hmem, rfl⟩ := hheld k hk
        rcases List.mem_cons.mp hmem with rfl | hmem
        · exact absurd hrel hnot
        · exact ⟨code', hmem, rfl⟩
    · refine owned_snoc.mpr ⟨howned, fun k hk _ => ?_⟩
      cases hrel.symm.trans hk
      exact hpress
    · obtain ⟨hdown', hpress'⟩ := hpressed code' (List.mem_cons_of_mem _ hmem)
      exact ⟨hdown', hpress'.append⟩

/-- A call that ends safe is clean when it has closed. -/
theorem close_clean {c : Ctx} (h : c.Safe) : Clean c.close.written := by
  have hbuttons : c.releaseButtons.Safe ∧ c.releaseButtons.heldButtonCode = 0 := by
    unfold Ctx.releaseButtons
    split
    · rename_i hzero
      exact ⟨h, hzero⟩
    · rename_i hne
      have hholds : c.Holds (.button c.heldButtonCode) := ⟨rfl, hne⟩
      exact ⟨releaseButton_safe h (h.pressed _ hholds).1 rfl, rfl⟩
  obtain ⟨hsafe, hfree⟩ := hbuttons
  unfold Ctx.close
  rw [delayMs_written]
  refine releaseKeys_clean (fun k hk => ?_) hsafe.owned fun code hmem => hsafe.pressed (.key code) hmem
  rcases hsafe.held k hk with hholds | hfalse
  · cases k with
    | key code => exact ⟨code, hholds, rfl⟩
    | button code => exact absurd (hholds.1.trans hfree) hholds.2
  · exact hfalse.elim

/-! ## Typing -/

/-- What a stroke takes of the time budget. -/
def strokeMs (delay : Nat) : Nat := half delay + delay

/-- The budgets admit the stroke with index `j`. -/
def Reached (timer : Bool) (delay j : Nat) : Prop :=
  2 * j < inputMaxEvents ∧ (timer = true → j * strokeMs delay < inputMaxBudgetMs)

/-- They admit its release as well. -/
def Finished (timer : Bool) (delay j : Nat) : Prop :=
  timer = true → j * strokeMs delay + half delay < inputMaxBudgetMs

instance (timer : Bool) (delay j : Nat) : Decidable (Reached timer delay j) :=
  inferInstanceAs (Decidable (_ ∧ _))

instance (timer : Bool) (delay j : Nat) : Decidable (Finished timer delay j) :=
  inferInstanceAs (Decidable (_ → _))

/-- The events of the strokes from the one with index `j` on. -/
def typed (timer : Bool) (delay : Nat) : Nat → List Event → List Event
  | _, [] => []
  | j, down :: downs =>
    if Reached timer delay j then
      if Finished timer delay j then down :: down.up :: typed timer delay (j + 1) downs
      else [down]
    else []

/-- The budgets in front of the stroke with index `j`. -/
structure Ctx.Before (timer : Bool) (delay j : Nat) (c : Ctx) : Prop where
  tio : c.tioOpen = timer
  events : c.events = 2 * j
  spent : c.spentMs = if timer = true then j * strokeMs delay else 0

theorem delayMs_spent (ms : Nat) (c : Ctx) :
    (c.delayMs ms).spentMs = if c.tioOpen = true then c.spentMs + ms else c.spentMs := by
  unfold Ctx.delayMs
  cases htimer : c.tioOpen with
  | false => simp
  | true =>
    by_cases hzero : ms = 0
    · simp [hzero]
    · simp [hzero]

@[simp] theorem delayMs_tioOpen (ms : Nat) (c : Ctx) : (c.delayMs ms).tioOpen = c.tioOpen := by
  unfold Ctx.delayMs
  split <;> rfl

/-- What the press of a stroke meets. -/
theorem Ctx.Before.blown_iff {timer : Bool} {delay j : Nat} {c : Ctx} (h : c.Before timer delay j) :
    (c.events ≥ inputMaxEvents ∨ c.spentMs ≥ inputMaxBudgetMs) ↔ ¬ Reached timer delay j := by
  rw [Reached, h.events, h.spent]
  cases timer with
  | false =>
    have hbudget : ¬ 0 ≥ inputMaxBudgetMs := by decide
    simp [hbudget]
  | true =>
    simp only [if_true, true_implies]
    omega

/-- The budgets between the press of the stroke with index `j` and its release. -/
structure Ctx.Amid (timer : Bool) (delay j : Nat) (c : Ctx) : Prop where
  tio : c.tioOpen = timer
  events : c.events = 2 * j + 1
  spent : c.spentMs = if timer = true then j * strokeMs delay + half delay else 0

theorem Ctx.Before.amid {timer : Bool} {delay j : Nat} {c : Ctx} (down : Event)
    (h : c.Before timer delay j) :
    (({ c.emit down with events := c.events + 1 } : Ctx).delayMs (half delay)).Amid timer delay j := by
  refine ⟨?_, ?_, ?_⟩
  · rw [delayMs_tioOpen]
    exact h.tio
  · rw [delayMs_events, ← h.events]
  · rw [delayMs_spent]
    show (if c.tioOpen = true then c.spentMs + half delay else c.spentMs) = _
    rw [h.tio, h.spent]
    cases timer <;> rfl

/-- What the release of a stroke meets. -/
theorem Ctx.Amid.blown_iff {timer : Bool} {delay j : Nat} {c : Ctx} (h : c.Amid timer delay j)
    (hr : Reached timer delay j) :
    (c.events ≥ inputMaxEvents ∨ c.spentMs ≥ inputMaxBudgetMs) ↔ ¬ Finished timer delay j := by
  rw [h.events, h.spent, Finished]
  have hroom := hr.1
  unfold inputMaxEvents at hroom ⊢
  cases timer with
  | false =>
    have hbudget : ¬ 0 ≥ inputMaxBudgetMs := by decide
    simp only [Bool.false_eq_true, if_false, false_implies, not_true_eq_false, iff_false]
    omega
  | true =>
    simp only [if_true, true_implies]
    omega

theorem Ctx.Amid.before {timer : Bool} {delay j : Nat} {c : Ctx} (up : Event)
    (h : c.Amid timer delay j) :
    (({ c.emit up with events := c.events + 1 } : Ctx).delayMs delay).Before timer delay (j + 1) := by
  refine ⟨?_, ?_, ?_⟩
  · rw [delayMs_tioOpen]
    exact h.tio
  · rw [delayMs_events]
    show c.events + 1 = _
    rw [h.events]
    omega
  · rw [delayMs_spent]
    show (if c.tioOpen = true then c.spentMs + delay else c.spentMs) = _
    rw [h.tio, h.spent]
    cases timer with
    | false => rfl
    | true =>
      simp only [if_true, strokeMs, Nat.add_mul, Nat.one_mul]
      omega

/-- A stroke, by what the budgets admit. -/
theorem pressStroke_cases {timer : Bool} {delay j : Nat} {c : Ctx} (down : Event)
    (h : c.Before timer delay j) :
    (Reached timer delay j ∧ Finished timer delay j ∧
      ∃ c', pressStroke delay down c = .ok c' ∧ c'.Before timer delay (j + 1) ∧
        c'.written = c.written ++ [down, down.up]) ∨
      (Reached timer delay j ∧ ¬ Finished timer delay j ∧
        ∃ c', pressStroke delay down c = .error c' ∧ c'.written = c.written ++ [down]) ∨
      (¬ Reached timer delay j ∧
        ∃ c', pressStroke delay down c = .error c' ∧ c'.written = c.written) := by
  by_cases hr : Reached timer delay j
  · have hpress : c.writeEvent down = .ok { c.emit down with events := c.events + 1 } :=
      if_neg fun hblown => h.blown_iff.mp hblown hr
    have hamid := h.amid down
    have hwritten : (({ c.emit down with events := c.events + 1 } : Ctx).delayMs
        (half delay)).written = c.written ++ [down] := delayMs_written ..
    generalize hc₁ : ({ c.emit down with events := c.events + 1 } : Ctx).delayMs (half delay) = c₁
      at hamid hwritten
    have hstroke : pressStroke delay down c =
        c₁.writeEvent down.up >>= fun c => .ok (c.delayMs delay) := by
      rw [pressStroke, hpress, ← hc₁]
      rfl
    by_cases hf : Finished timer delay j
    · have hrelease : c₁.writeEvent down.up = .ok { c₁.emit down.up with events := c₁.events + 1 } :=
        if_neg fun hblown => (hamid.blown_iff hr).mp hblown hf
      refine Or.inl ⟨hr, hf, _, by rw [hstroke, hrelease]; rfl, hamid.before down.up, ?_⟩
      rw [delayMs_written]
      show c₁.written ++ [down.up] = _
      rw [hwritten, List.append_assoc]
      rfl
    · have hblown : c₁.writeEvent down.up = .error { c₁ with truncated := true } :=
        if_pos ((hamid.blown_iff hr).mpr hf)
      exact Or.inr (Or.inl ⟨hr, hf, { c₁ with truncated := true }, by rw [hstroke, hblown]; rfl,
        hwritten⟩)
  · have hblown : c.writeEvent down = .error { c with truncated := true } :=
      if_pos (h.blown_iff.mpr hr)
    exact Or.inr (Or.inr ⟨hr, { c with truncated := true }, by rw [pressStroke, hblown]; rfl, rfl⟩)

theorem pressStrokes_written {timer : Bool} {delay j : Nat} {c : Ctx} {downs : List Event}
    (h : c.Before timer delay j) :
    (finish (pressStrokes delay downs c)).written = c.written ++ typed timer delay j downs := by
  induction downs generalizing j c with
  | nil => exact (List.append_nil _).symm
  | cons down downs ih =>
    rw [pressStrokes, typed]
    rcases pressStroke_cases down h with ⟨hr, hf, c', hc', hbefore, hwritten⟩ |
      ⟨hr, hf, c', hc', hwritten⟩ | ⟨hr, c', hc', hwritten⟩
    · rw [if_pos hr, if_pos hf, hc']
      show (finish (pressStrokes delay downs c')).written = _
      rw [ih hbefore, hwritten, List.append_assoc]
      rfl
    · rw [if_pos hr, if_neg hf, hc']
      exact hwritten
    · rw [if_neg hr, hc', List.append_nil]
      exact hwritten

theorem pressStrokes_append (delay : Nat) (as bs : List Event) (c : Ctx) :
    pressStrokes delay (as ++ bs) c = pressStrokes delay as c >>= pressStrokes delay bs := by
  induction as generalizing c with
  | nil => rfl
  | cons a as ih =>
    rw [List.cons_append, pressStrokes, pressStrokes]
    cases pressStroke delay a c with
    | error c' => rfl
    | ok c' => exact ih c'

/-- The strokes of a text, from the code point with index `i` on. -/
def strokes (keymap : Option Keymap) : Nat → List Nat → List Event
  | _, [] => []
  | i, cp :: cps => (strokesOf keymap i cp).getD [] ++ strokes keymap (i + 1) cps

theorem typeChars_ctx (keymap : Option Keymap) (delay i : Nat) (cps : List Nat) (t : Typing) :
    (typeChars keymap delay i cps t).ctx = finish (pressStrokes delay (strokes keymap i cps) t.ctx) := by
  induction cps generalizing i t with
  | nil => rfl
  | cons cp cps ih =>
    rw [typeChars, strokes]
    cases hs : strokesOf keymap i cp with
    | none => exact ih (i + 1) _
    | some downs =>
      rw [Option.getD_some, pressStrokes_append]
      dsimp only
      cases hp : pressStrokes delay downs t.ctx with
      | error c => rfl
      | ok c => exact ih (i + 1) _

/-! ### What typing leaves -/

theorem Reached.of_add {timer : Bool} {delay j : Nat} (i : Nat) (h : Reached timer delay (j + i)) :
    Reached timer delay j := by
  refine ⟨by have := h.1; omega, fun ht => ?_⟩
  have hlt := h.2 ht
  rw [Nat.add_mul] at hlt
  omega

/-- A later stroke comes only behind the release of this one. -/
theorem Reached.finished {timer : Bool} {delay j : Nat} (i : Nat)
    (h : Reached timer delay (j + (i + 1))) : Finished timer delay j := by
  intro ht
  have hlt := h.2 ht
  have hsplit : (j + (i + 1)) * strokeMs delay =
      j * strokeMs delay + (i * strokeMs delay + strokeMs delay) := by
    rw [Nat.add_mul, Nat.add_mul, Nat.one_mul]
  rw [hsplit] at hlt
  have hhalf : half delay ≤ strokeMs delay := Nat.le_add_right ..
  omega

/-- The press of a stroke, and its release. -/
theorem stroke_down {down : Event} (hcls : down.cls = .rawKey) (hcode : down.code < upPrefix) :
    down.press = some (.key down.code) ∧ down.release = none ∧
      down.up.press = none ∧ down.up.release = some (.key down.code) := by
  obtain ⟨hup, hsame⟩ := up_code hcode
  have hnot : ¬ down.up.code < upPrefix := UInt8.not_lt.mpr hup
  have hcls' : down.up.cls = .rawKey := hcls
  have hsame' : downCode down.up.code = down.code := hsame
  unfold Event.press Event.release
  rw [hcls, hcls']
  dsimp only
  rw [if_pos hcode, if_pos hcode, if_neg hnot, if_neg hnot, hsame']
  exact ⟨rfl, rfl, rfl, rfl⟩

/-- An answer of the key mapper with the code of a release. -/
theorem stroke_up {down : Event} (hcls : down.cls = .rawKey) (hcode : ¬ down.code < upPrefix) :
    down.press = none ∧ down.release = some (.key (downCode down.code)) ∧ down.up = down := by
  have hup : down.up = down := by
    unfold Event.up
    rw [up_code_of_up hcode]
  unfold Event.press Event.release
  rw [hcls]
  dsimp only
  rw [if_neg hcode, if_neg hcode]
  exact ⟨rfl, rfl, hup⟩

theorem released_typed {timer : Bool} {delay j : Nat} {downs : List Event}
    (hcls : ∀ e ∈ downs, e.cls = .rawKey) :
    Released Event.press Event.release (typed timer delay j downs) ↔
      ∀ i down, downs[i]? = some down → Reached timer delay (j + i) → down.code < upPrefix →
        Finished timer delay (j + i) := by
  induction downs generalizing j with
  | nil => simp [typed, released_nil]
  | cons down downs ih =>
    have hrest := ih (j := j + 1) fun e he => hcls e (List.mem_cons_of_mem _ he)
    have hdown := hcls down (List.mem_cons_self ..)
    rw [typed]
    by_cases hr : Reached timer delay j
    · rw [if_pos hr]
      by_cases hf : Finished timer delay j
      · rw [if_pos hf, released_cons, released_cons, hrest]
        constructor
        · rintro ⟨-, -, hlater⟩ i e hi hreach hcode
          cases i with
          | zero => exact hf
          | succ i =>
            have hindex : j + (i + 1) = j + 1 + i := by omega
            rw [hindex] at hreach ⊢
            exact hlater i e hi hreach hcode
        · intro hall
          refine ⟨fun k hk => ⟨down.up, List.mem_cons_self .., ?_⟩, fun k hk => ?_, fun i e hi hreach => ?_⟩
          · by_cases hcode : down.code < upPrefix
            · obtain ⟨hpress, -, -, hrelease⟩ := stroke_down hdown hcode
              rw [hrelease, ← hk, hpress]
            · obtain ⟨hpress, -, -⟩ := stroke_up hdown hcode
              rw [hpress] at hk
              cases hk
          · by_cases hcode : down.code < upPrefix
            · obtain ⟨-, -, hpress, -⟩ := stroke_down hdown hcode
              rw [hpress] at hk
              cases hk
            · obtain ⟨hpress, -, hup⟩ := stroke_up hdown hcode
              rw [hup, hpress] at hk
              cases hk
          · have hindex : j + 1 + i = j + (i + 1) := by omega
            rw [hindex] at hreach ⊢
            exact hall (i + 1) e hi hreach
      · rw [if_neg hf, released_cons]
        constructor
        · rintro ⟨hnone, -⟩ i e hi hreach hcode
          cases i with
          | zero =>
            cases hi
            obtain ⟨_, hmem, -⟩ := hnone _ (stroke_down hdown hcode).1
            exact absurd hmem List.not_mem_nil
          | succ i => exact absurd (hreach.finished i) hf
        · intro hall
          refine ⟨fun k hk => ?_, released_nil⟩
          by_cases hcode : down.code < upPrefix
          · exact absurd (hall 0 down rfl hr hcode) hf
          · rw [(stroke_up hdown hcode).1] at hk
            cases hk
    · rw [if_neg hr]
      exact ⟨fun _ i e _ hreach => absurd (hreach.of_add i) hr, fun _ => released_nil⟩

/-- What a stroke does to the books. -/
theorem owned_stroke (seen : List Event) {down : Event} (hcls : down.cls = .rawKey) :
    (Owned Event.press Event.release Own (seen ++ [down, down.up]) ↔
      Owned Event.press Event.release Own seen ∧
        (¬ down.code < upPrefix → Own (.key (downCode down.code)) →
          Pressed Event.press seen (.key (downCode down.code)))) ∧
      (Owned Event.press Event.release Own (seen ++ [down]) ↔
        Owned Event.press Event.release Own (seen ++ [down, down.up])) ∧
      ∀ code, Pressed Event.press (seen ++ [down, down.up]) (.key code) ↔
        Pressed Event.press seen (.key code) ∨ (down.code < upPrefix ∧ down.code = code) := by
  have hsplit : seen ++ [down, down.up] = (seen ++ [down]) ++ [down.up] := by
    rw [List.append_assoc]
    rfl
  rw [hsplit, owned_snoc, owned_snoc]
  by_cases hcode : down.code < upPrefix
  · obtain ⟨hpress, hrelease, hpress', hrelease'⟩ := stroke_down hcls hcode
    rw [hrelease, hrelease']
    refine ⟨⟨fun h => ⟨h.1.1, fun hnot => absurd hcode hnot⟩, fun h => ⟨⟨h.1, ?_⟩, ?_⟩⟩,
      ⟨fun h => ⟨h, ?_⟩, fun h => h.1⟩, fun code => ?_⟩
    · intro k hk
      cases hk
    · intro k hk _
      cases hk
      exact pressed_snoc.mpr (Or.inr hpress)
    · intro k hk _
      cases hk
      exact pressed_snoc.mpr (Or.inr hpress)
    · rw [pressed_snoc, pressed_snoc, hpress, hpress']
      simp [hcode]
  · obtain ⟨hpress, hrelease, hup⟩ := stroke_up hcls hcode
    rw [hup, hrelease]
    refine ⟨⟨fun h => ⟨h.1.1, fun _ hown => h.1.2 _ rfl hown⟩, fun h => ⟨⟨h.1, ?_⟩, ?_⟩⟩,
      ⟨fun h => ⟨h, ?_⟩, fun h => h.1⟩, fun code => ?_⟩
    · intro k hk hown
      cases hk
      exact h.2 hcode hown
    · intro k hk hown
      cases hk
      exact (h.2 hcode hown).append
    · intro k hk hown
      exact (h.2 k hk hown).append
    · rw [pressed_snoc, pressed_snoc, hpress]
      simp [hcode]

theorem owned_typed (timer : Bool) (delay j : Nat) {downs : List Event} (seen : List Event)
    (hcls : ∀ e ∈ downs, e.cls = .rawKey) :
    Owned Event.press Event.release Own (seen ++ typed timer delay j downs) ↔
      Owned Event.press Event.release Own seen ∧
        ∀ i down, downs[i]? = some down → Reached timer delay (j + i) →
          ¬ down.code < upPrefix → Own (.key (downCode down.code)) →
          Pressed Event.press seen (.key (downCode down.code)) ∨
            ∃ m < i, ∃ e, downs[m]? = some e ∧ e.code < upPrefix ∧ e.code = downCode down.code := by
  induction downs generalizing j seen with
  | nil => simp [typed]
  | cons down downs ih =>
    have hdown := hcls down (List.mem_cons_self ..)
    obtain ⟨howned, hone, hpressed⟩ := owned_stroke seen hdown
    rw [typed]
    by_cases hr : Reached timer delay j
    · rw [if_pos hr]
      by_cases hf : Finished timer delay j
      · have hsplit : seen ++ down :: down.up :: typed timer delay (j + 1) downs =
            (seen ++ [down, down.up]) ++ typed timer delay (j + 1) downs := by
          rw [List.append_assoc]
          rfl
        rw [if_pos hf, hsplit, ih (j + 1) (seen ++ [down, down.up]) fun e he =>
          hcls e (List.mem_cons_of_mem _ he), howned]
        constructor
        · rintro ⟨⟨hseen, hfirst⟩, hlater⟩
          refine ⟨hseen, fun i e hi hreach hcode hown => ?_⟩
          cases i with
          | zero =>
            cases hi
            exact Or.inl (hfirst hcode hown)
          | succ i =>
            have hindex : j + (i + 1) = j + 1 + i := by omega
            rw [hindex] at hreach
            rcases hlater i e hi hreach hcode hown with hp | ⟨m, hm, x, hx, hlow, hsame⟩
            · rcases (hpressed _).mp hp with hp | ⟨hlow, hsame⟩
              · exact Or.inl hp
              · exact Or.inr ⟨0, Nat.succ_pos i, down, rfl, hlow, hsame⟩
            · exact Or.inr ⟨m + 1, Nat.succ_lt_succ hm, x, hx, hlow, hsame⟩
        · rintro ⟨hseen, hall⟩
          refine ⟨⟨hseen, fun hcode hown => ?_⟩, fun i e hi hreach hcode hown => ?_⟩
          · rcases hall 0 down rfl hr hcode hown with hp | ⟨m, hm, -⟩
            · exact hp
            · exact absurd hm (Nat.not_lt_zero m)
          · have hindex : j + 1 + i = j + (i + 1) := by omega
            rw [hindex] at hreach
            rcases hall (i + 1) e hi hreach hcode hown with hp | ⟨m, hm, x, hx, hlow, hsame⟩
            · exact Or.inl hp.append
            · cases m with
              | zero =>
                cases hx
                exact Or.inl ((hpressed _).mpr (Or.inr ⟨hlow, hsame⟩))
              | succ m => exact Or.inr ⟨m, Nat.lt_of_succ_lt_succ hm, x, hx, hlow, hsame⟩
      · rw [if_neg hf, hone, howned]
        constructor
        · rintro ⟨hseen, hfirst⟩
          refine ⟨hseen, fun i e hi hreach hcode hown => ?_⟩
          cases i with
          | zero =>
            cases hi
            exact Or.inl (hfirst hcode hown)
          | succ i => exact absurd (hreach.finished i) hf
        · rintro ⟨hseen, hall⟩
          refine ⟨hseen, fun hcode hown => ?_⟩
          rcases hall 0 down rfl hr hcode hown with hp | ⟨m, hm, -⟩
          · exact hp
          · exact absurd hm (Nat.not_lt_zero m)
    · rw [if_neg hr, List.append_nil]
      exact ⟨fun h => ⟨h, fun i e _ hreach => absurd (hreach.of_add i) hr⟩, fun h => h.1⟩

end AmigaFleet.Mcpd.Input

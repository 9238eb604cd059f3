import AmigaFleet.Lib.Approach
import AmigaFleet.Mcpd.InputCalls
import AmigaFleet.Mcpd.InputWhole

/-!
# How the pointer moves

The relative motion that input.mouse_move and input.drag emit, when no budget
ends the call.  `Moves start target es` says that the events lead from one point
to the other on both axes, without a step back or past the target.

* `moveSteps_ok`, `dragSteps_ok`: what the two loops write.
* `pointer_motion_exact`: from the pointer to the point of the request, and for
  a drag from its start to its end while the button is down.
-/

namespace AmigaFleet.Mcpd.Input

open AmigaFleet.Lib

/-! ## Motion -/

def Event.dx (e : Event) : Int := e.x.toInt

def Event.dy (e : Event) : Int := e.y.toInt

/-- Along one axis the displacements lead from the start to the target. -/
structure Exact (start target : Int) (ds : List Int) : Prop where
  total : ds.sum = target - start
  between : ∀ i, start + (ds.take i).sum ∈ Set.uIcc start target
  forward : ∀ i < ds.length,
    start + (ds.take (i + 1)).sum ∈ Set.uIcc (start + (ds.take i).sum) target

theorem exact_of_approaches {start target : Int} {ds : List Int} (h : Approaches target start ds) :
    Exact start target ds where
  total := by
    have hsum := h.add_sum
    omega
  between := h.mem_uIcc
  forward _ hi := h.step hi

/-- Events of relative motion from one point to another. -/
structure Moves (start target : Int × Int) (es : List Event) : Prop where
  relative : ∀ e ∈ es, ∃ dx dy buttons, e = motionEvent dx dy buttons
  x : Exact start.1 target.1 (es.map Event.dx)
  y : Exact start.2 target.2 (es.map Event.dy)

/-- A displacement that `ie_X` and `ie_Y` hold. -/
def Fits (d : Int) : Prop := -32767 ≤ d ∧ d ≤ 32767

theorem dx_motionEvent {dx : Int} (h : Fits dx) (dy : Int) (buttons : UInt16) :
    (motionEvent dx dy buttons).dx = dx :=
  Int16.toInt_ofInt_of_le (by have := h.1; omega) (by have := h.2; omega)

theorem dy_motionEvent (dx : Int) {dy : Int} (h : Fits dy) (buttons : UInt16) :
    (motionEvent dx dy buttons).dy = dy :=
  Int16.toInt_ofInt_of_le (by have := h.1; omega) (by have := h.2; omega)

/-! ## One step -/

theorem waypoint_eq (d : Int) (steps i : Nat) : waypoint d steps i = interpolate d steps i := rfl

/-- The step with `n` to go behind it, on the way from `start`. -/
theorem approaches_step {start d : Int} {steps n : Nat} (hn : n < steps) {ds : List Int}
    (hrest : Approaches (start + d) (start + waypoint d steps (steps - n)) ds) :
    Approaches (start + d) (start + waypoint d steps (steps - (n + 1)))
      (stepLength d steps (steps - n) :: ds) := by
  have hbefore : steps - n - 1 = steps - (n + 1) := Nat.sub_sub steps n 1
  have hsum : start + waypoint d steps (steps - (n + 1)) + stepLength d steps (steps - n) =
      start + waypoint d steps (steps - n) := by
    rw [stepLength, hbefore]
    omega
  have hmem := interpolate_mem_uIcc d (n := steps) (show steps - (n + 1) ≤ steps - n by omega)
    (Nat.sub_le steps n)
  rw [Set.mem_uIcc, ← waypoint_eq, ← waypoint_eq] at hmem
  refine ⟨?_, ?_⟩
  · rw [hsum, Set.mem_uIcc]
    omega
  · rw [hsum]
    exact hrest

theorem fits_stepLength {d : Int} (hd : Fits d) {steps i : Nat} (hi : i ≤ steps) :
    Fits (stepLength d steps i) := by
  have hbefore := interpolate_mem_uIcc d (Nat.zero_le (i - 1)) ((Nat.sub_le i 1).trans hi)
  have hstep := interpolate_mem_uIcc d (Nat.sub_le i 1) hi
  rw [interpolate_zero, Set.mem_uIcc, ← waypoint_eq] at hbefore
  rw [Set.mem_uIcc, ← waypoint_eq, ← waypoint_eq] at hstep
  unfold Fits at hd ⊢
  unfold stepLength
  omega

/-! ## The loops -/

/-- From `c` to `c'` the events are written, and nothing else changes but the budgets. -/
structure Ctx.Wrote (c : Ctx) (es : List Event) (c' : Ctx) : Prop where
  written : c'.written = c.written ++ es
  button : c'.heldButtonCode = c.heldButtonCode
  mods : c'.heldMods = c.heldMods
  truncated : c'.truncated = c.truncated

theorem Ctx.Wrote.refl (c : Ctx) : c.Wrote [] c := ⟨(List.append_nil _).symm, rfl, rfl, rfl⟩

theorem Ctx.Wrote.trans {c c' c'' : Ctx} {es fs : List Event} (h : c.Wrote es c')
    (h' : c'.Wrote fs c'') : c.Wrote (es ++ fs) c'' where
  written := by rw [h'.written, h.written, List.append_assoc]
  button := h'.button.trans h.button
  mods := h'.mods.trans h.mods
  truncated := h'.truncated.trans h.truncated

theorem Ctx.wrote_delayMs (ms : Nat) (c : Ctx) : c.Wrote [] (c.delayMs ms) := by
  unfold Ctx.delayMs
  split
  · exact Ctx.Wrote.refl c
  · exact ⟨(List.append_nil _).symm, rfl, rfl, rfl⟩

theorem Ctx.wrote_writeEvent {e : Event} {c c' : Ctx} (h : c.writeEvent e = .ok c') :
    c.Wrote [e] c' := by
  rw [writeEvent_ok h]
  exact ⟨rfl, rfl, rfl, rfl⟩

/-- The events of the last `n` steps of a way by `(dx, dy)` from `start`. -/
structure Steps (start : Int × Int) (dx dy : Int) (steps n : Nat) (es : List Event) : Prop where
  relative : ∀ e ∈ es, ∃ sx sy buttons, e = motionEvent sx sy buttons
  x : Approaches (start.1 + dx) (start.1 + waypoint dx steps (steps - n)) (es.map Event.dx)
  y : Approaches (start.2 + dy) (start.2 + waypoint dy steps (steps - n)) (es.map Event.dy)

section Loops

variable {start : Int × Int} {dx dy : Int} {steps : Nat}

theorem steps_zero (hsteps : steps ≠ 0) : Steps start dx dy steps 0 [] where
  relative e he := by cases he
  x := by
    show start.1 + waypoint dx steps steps = start.1 + dx
    rw [waypoint_eq, interpolate_self dx hsteps]
  y := by
    show start.2 + waypoint dy steps steps = start.2 + dy
    rw [waypoint_eq, interpolate_self dy hsteps]

theorem Steps.emit {n : Nat} {es : List Event} (h : Steps start dx dy steps n es) (hn : n < steps)
    (hx : Fits dx) (hy : Fits dy) (buttons : UInt16) :
    Steps start dx dy steps (n + 1)
      (motionEvent (stepLength dx steps (steps - n)) (stepLength dy steps (steps - n))
        buttons :: es) where
  relative e he := by
    rcases List.mem_cons.mp he with rfl | he
    · exact ⟨_, _, _, rfl⟩
    · exact h.relative e he
  x := by
    rw [List.map_cons, dx_motionEvent (fits_stepLength hx (Nat.sub_le steps n))]
    exact approaches_step hn h.x
  y := by
    rw [List.map_cons, dy_motionEvent _ (fits_stepLength hy (Nat.sub_le steps n))]
    exact approaches_step hn h.y

/-- A step of no length is left out. -/
theorem Steps.skip {n : Nat} {es : List Event} (h : Steps start dx dy steps n es)
    (hx : stepLength dx steps (steps - n) = 0) (hy : stepLength dy steps (steps - n) = 0) :
    Steps start dx dy steps (n + 1) es := by
  have hbefore : steps - n - 1 = steps - (n + 1) := Nat.sub_sub steps n 1
  have hsame : ∀ d : Int, stepLength d steps (steps - n) = 0 →
      waypoint d steps (steps - (n + 1)) = waypoint d steps (steps - n) := by
    intro d hd
    rw [stepLength, hbefore] at hd
    omega
  refine ⟨h.relative, ?_, ?_⟩
  · rw [hsame dx hx]
    exact h.x
  · rw [hsame dy hy]
    exact h.y

theorem moveSteps_cut (delay n : Nat) (c : Ctx) : Cut (moveSteps dx dy steps delay n c) := by
  induction n generalizing c with
  | zero => exact cut_ok c
  | succ n ih =>
    rw [moveSteps]
    split
    · exact ih c
    · exact (cut_writeEvent _ c).bind fun c' => ih _

theorem dragSteps_cut (delay n : Nat) (c : Ctx) : Cut (dragSteps dx dy steps delay n c) := by
  induction n generalizing c with
  | zero => exact cut_ok c
  | succ n ih =>
    rw [dragSteps]
    split
    · exact ih c
    · exact (cut_writeEvent _ c).bind fun c' => ih _

/-- A step that is written, and the steps behind it. -/
theorem steps_round {n : Nat} (hn : n < steps) (hx : Fits dx) (hy : Fits dy) {next : Ctx → Ctx}
    (hnext : ∀ c : Ctx, c.Wrote [] (next c)) {rest : Ctx → Except Ctx Ctx} {c c' : Ctx}
    (hrest : ∀ {c₁}, rest c₁ = .ok c' → ∃ es, c₁.Wrote es c' ∧ Steps start dx dy steps n es)
    {buttons : UInt16}
    (h : (c.writeEvent (motionEvent (stepLength dx steps (steps - n))
      (stepLength dy steps (steps - n)) buttons) >>= fun c => rest (next c)) = .ok c') :
    ∃ es, c.Wrote es c' ∧ Steps start dx dy steps (n + 1) es := by
  cases hw : c.writeEvent (motionEvent (stepLength dx steps (steps - n))
      (stepLength dy steps (steps - n)) buttons) with
  | error c₁ =>
    rw [hw] at h
    cases h
  | ok c₁ =>
    rw [hw] at h
    obtain ⟨es, hwrote, hes⟩ := hrest h
    exact ⟨_, (Ctx.wrote_writeEvent hw).trans ((hnext c₁).trans hwrote), hes.emit hn hx hy _⟩

/-- What `input_mouse_move` writes in its last `n` steps. -/
theorem moveSteps_ok (start : Int × Int) (hx : Fits dx) (hy : Fits dy) (delay : Nat) {n : Nat}
    (hn : n ≤ steps) (hsteps : steps ≠ 0) {c c' : Ctx}
    (h : moveSteps dx dy steps delay n c = .ok c') :
    ∃ es, c.Wrote es c' ∧ Steps start dx dy steps n es := by
  induction n generalizing c with
  | zero =>
    cases h
    exact ⟨[], Ctx.Wrote.refl _, steps_zero hsteps⟩
  | succ n ih =>
    have hrest := @ih (Nat.le_of_succ_le hn)
    rw [moveSteps] at h
    split at h
    · rename_i hzero
      obtain ⟨es, hwrote, hes⟩ := hrest h
      exact ⟨es, hwrote, hes.skip hzero.1 hzero.2.1⟩
    · have hdelay : ∀ c : Ctx, c.Wrote [] (if steps - n < steps then c.delayMs delay else c) := by
        intro c
        split
        · exact Ctx.wrote_delayMs delay c
        · exact Ctx.Wrote.refl c
      exact steps_round hn hx hy hdelay hrest h

/-- What `input_drag` writes in its last `n` steps. -/
theorem dragSteps_ok (start : Int × Int) (hx : Fits dx) (hy : Fits dy) (delay : Nat) {n : Nat}
    (hn : n ≤ steps) (hsteps : steps ≠ 0) {c c' : Ctx}
    (h : dragSteps dx dy steps delay n c = .ok c') :
    ∃ es, c.Wrote es c' ∧ Steps start dx dy steps n es := by
  induction n generalizing c with
  | zero =>
    cases h
    exact ⟨[], Ctx.Wrote.refl _, steps_zero hsteps⟩
  | succ n ih =>
    have hrest := @ih (Nat.le_of_succ_le hn)
    rw [dragSteps] at h
    split at h
    · rename_i hzero
      obtain ⟨es, hwrote, hes⟩ := hrest h
      exact ⟨es, hwrote, hes.skip hzero.1 hzero.2⟩
    · exact steps_round hn hx hy (Ctx.wrote_delayMs delay) hrest h

/-- All the steps lead from the start to the target. -/
theorem Steps.moves {es : List Event} (h : Steps start dx dy steps steps es) :
    Moves start (start.1 + dx, start.2 + dy) es := by
  have hx := h.x
  have hy := h.y
  rw [Nat.sub_self, waypoint_eq, interpolate_zero, Int.add_zero] at hx hy
  exact ⟨h.relative, exact_of_approaches hx, exact_of_approaches hy⟩

end Loops

/-! ## The end of a call -/

/-- What is written behind the last event, when no modifier is held. -/
theorem written_close {c : Ctx} (hmods : c.heldMods = []) :
    c.close.written =
      c.written ++ if c.heldButtonCode = 0 then [] else [(buttonEvent c.heldButtonCode).up] := by
  have hbuttons : c.releaseButtons.heldMods = [] ∧ c.releaseButtons.written =
      c.written ++ if c.heldButtonCode = 0 then [] else [(buttonEvent c.heldButtonCode).up] := by
    unfold Ctx.releaseButtons
    split
    · exact ⟨hmods, (List.append_nil _).symm⟩
    · exact ⟨hmods, rfl⟩
  rw [Ctx.close, delayMs_written, Ctx.releaseModifiers, hbuttons.1]
  exact hbuttons.2

/-- Where the pointer ends up is told under other names. -/
theorem names_landing (w : World) {fields : List (Bytes × CJson)}
    (hfields : ascii "truncated" ∉ fields.map Prod.fst) :
    ascii "truncated" ∉ (fields ++ w.landing).map Prod.fst := by
  have hlanding : w.landing.map Prod.fst = [ascii "x", ascii "y"] := by
    unfold World.landing
    cases w.landed <;> rfl
  rw [List.map_append, hlanding, List.mem_append]
  exact not_or_intro hfields (by decide)

/-! ## Requests -/

/-- The pointer is on the screen, whose `Width` and `Height` are `WORD`s. -/
structure Pointer.OnScreen (p : Pointer) : Prop where
  x : 0 ≤ p.x ∧ p.x < p.w
  y : 0 ≤ p.y ∧ p.y < p.h
  size : p.w ≤ 32767 ∧ p.h ≤ 32767

/-- A look at the pointer, if it succeeds, finds it there. -/
def World.PointerAt (w : World) (p : Pointer) : Prop := ∀ q, w.pointer = .ok q → q = p

theorem clamp_bounds (v : Int) {size : Int} (h : 0 < size) :
    0 ≤ clamp v size ∧ clamp v size < size := by
  unfold clamp
  dsimp only
  split
  · split <;> omega
  · split <;> omega

theorem fits_clamp (v : Int) {x size : Int} (hx : 0 ≤ x ∧ x < size) (hsize : size ≤ 32767) :
    Fits (clamp v size - x) := by
  have hclamp := clamp_bounds v (show 0 < size by omega)
  unfold Fits
  omega

/-- The request leaves an absolute position to input.device. -/
def rawAbsolute (params : Option CJson) : Bool :=
  (intParam params "x").isSome && (intParam params "y").isSome &&
    match param params "absolute_mode" with
    | some (.string am) => am = ascii "raw"
    | _ => false

/-- Where input.mouse_move is to lead. -/
def moveTarget (p : Pointer) (params : Option CJson) : Int × Int :=
  match intParam params "x", intParam params "y" with
  | some x, some y => (clamp x p.w, clamp y p.h)
  | _, _ => (p.x + (intParam params "dx").getD 0, p.y + (intParam params "dy").getD 0)

theorem parseMove_ok {w : World} {params : Option CJson} {req : MoveRequest} {p : Pointer}
    (h : parseMove w params = .ok req) (hpointer : w.PointerAt p) (hscreen : p.OnScreen)
    (hraw : rawAbsolute params = false) :
    req.steps ≠ 0 ∧ ∃ dx dy, req.motion = .delta dx dy ∧ Fits dx ∧ Fits dy ∧
      (p.x + dx, p.y + dy) = moveTarget p params := by
  unfold parseMove at h
  extract_lets jx jy jdx jdy absolute relative steps targetX targetY dx dy request at h
  split at h
  · cases h
  · rename_i hone
    -- what follows on `absolute_mode`
    have hrequest : ∀ raw, (raw = true → absolute = false) → request raw = .ok req →
        req.steps ≠ 0 ∧ ∃ dx dy, req.motion = .delta dx dy ∧ Fits dx ∧ Fits dy ∧
          (p.x + dx, p.y + dy) = moveTarget p params := by
      intro raw hmode hreq
      simp only [request] at hreq
      split at hreq
      · cases hreq
      · rename_i hsteps
        have hpos : steps.toNat ≠ 0 := by omega
        cases hdelay : getDelay params inputDefMoveMs with
        | error e =>
          rw [hdelay] at hreq
          cases hreq
        | ok delay =>
          rw [hdelay] at hreq
          dsimp only [bind, Except.bind] at hreq
          split at hreq
          · rename_i habsolute
            split at hreq
            · rename_i hraw
              rw [hmode hraw] at habsolute
              cases habsolute
            · cases hread : w.pointer with
              | error failure =>
                rw [hread] at hreq
                cases hreq
              | ok q =>
                rw [hread, hpointer q hread] at hreq
                cases hreq
                refine ⟨hpos, _, _, rfl, fits_clamp _ hscreen.x hscreen.size.1,
                  fits_clamp _ hscreen.y hscreen.size.2, ?_⟩
                simp only [absolute, Bool.and_eq_true, Option.isSome_iff_exists] at habsolute
                obtain ⟨⟨x, hx⟩, y, hy⟩ := habsolute
                have htarget : moveTarget p params = (clamp x p.w, clamp y p.h) := by
                  rw [moveTarget, show intParam params "x" = some x from hx,
                    show intParam params "y" = some y from hy]
                simp only [htarget, targetX, targetY, hx, hy, Option.getD_some]
                rw [add_sub_cancel, add_sub_cancel]
          · rename_i hrelative
            split at hreq
            · cases hreq
            · rename_i hrange
              cases hreq
              simp only [inputMaxMove, not_or] at hrange
              refine ⟨hpos, _, _, rfl, ?_, ?_, ?_⟩
              · exact ⟨by omega, by omega⟩
              · exact ⟨by omega, by omega⟩
              · unfold moveTarget
                split
                · rename_i x y hx hy
                  exact absurd (show absolute = true by simp [absolute, jx, jy, hx, hy]) hrelative
                · rfl
    cases hmode : param params "absolute_mode" with
    | none =>
      rw [hmode] at h
      exact hrequest false (by simp) h
    | some value =>
      rw [hmode] at h
      cases value with
      | string am =>
        dsimp only at h
        split at h
        · rename_i hraw'
          refine hrequest true (fun _ => ?_) h
          simpa [rawAbsolute, hmode, hraw', absolute, jx, jy] using hraw
        · split at h
          · cases h
          · exact hrequest false (by simp) h
      | _ => exact hrequest false (by simp) h

/-- Where input.drag is to begin. -/
def dragStart (p : Pointer) (params : Option CJson) : Int × Int :=
  (clamp ((intParam params "from_x").getD 0) p.w, clamp ((intParam params "from_y").getD 0) p.h)

/-- Where input.drag is to end. -/
def dragEnd (p : Pointer) (params : Option CJson) : Int × Int :=
  (clamp ((intParam params "to_x").getD 0) p.w, clamp ((intParam params "to_y").getD 0) p.h)

theorem parseDrag_ok {w : World} {params : Option CJson} {req : DragRequest} {p : Pointer}
    (h : parseDrag w params = .ok req) (hpointer : w.PointerAt p) :
    req.steps ≠ 0 ∧
      req.approach = ((dragStart p params).1 - p.x, (dragStart p params).2 - p.y) ∧
      req.path = ((dragEnd p params).1 - (dragStart p params).1,
        (dragEnd p params).2 - (dragStart p params).2) := by
  unfold parseDrag at h
  cases hconfirm : requireConfirm params "input.drag" with
  | error e =>
    rw [hconfirm] at h
    cases h
  | ok _ =>
    rw [hconfirm] at h
    dsimp only [bind, Except.bind] at h
    split at h
    · rename_i fromX fromY toX toY hfx hfy htx hty
      cases hbutton : parseButton params with
      | error e =>
        rw [hbutton] at h
        cases h
      | ok button =>
        rw [hbutton] at h
        dsimp only at h
        split at h
        · cases h
        · rename_i hsteps
          cases hdelay : getDelay params inputDefMoveMs with
          | error e =>
            rw [hdelay] at h
            cases h
          | ok delay =>
            rw [hdelay] at h
            cases hread : w.pointer with
            | error failure =>
              rw [hread] at h
              cases h
            | ok q =>
              rw [hread, hpointer q hread] at h
              cases h
              refine ⟨by show (pInt params "steps" 16).toNat ≠ 0; omega, ?_, ?_⟩
              · simp only [dragStart, hfx, hfy, Option.getD_some]
              · simp only [dragStart, dragEnd, hfx, hfy, htx, hty, Option.getD_some]
    · cases h

/-! ## Exact motion -/

/-- What input.mouse_move writes, but for an absolute position. -/
theorem inputMouseMove_moves {w : World} {params : Option CJson} {p : Pointer}
    (hpointer : w.PointerAt p) (hscreen : p.OnScreen) (hraw : rawAbsolute params = false)
    (hwhole : (inputMouseMove w params).Whole) :
    Moves (p.x, p.y) (moveTarget p params) (inputMouseMove w params).written := by
  unfold inputMouseMove at hwhole ⊢
  split at hwhole
  · exact absurd hwhole (not_whole_refused _)
  · rename_i henabled
    rw [if_neg henabled]
    cases hparse : parseMove w params with
    | error e =>
      rw [hparse] at hwhole
      exact absurd hwhole (not_whole_refused _)
    | ok req =>
      rw [hparse] at hwhole
      obtain ⟨hsteps, dx, dy, hmotion, hx, hy, htarget⟩ := parseMove_ok hparse hpointer hscreen hraw
      dsimp only at hwhole ⊢
      rw [hmotion] at hwhole ⊢
      have hnames : ascii "truncated" ∉ [ascii "op", ascii "mode"] := by decide
      obtain ⟨-, htruncated, hwritten⟩ := whole_inject hwhole fun _ => names_landing w hnames
      have hok := (moveSteps_cut req.delay req.steps _).ok htruncated
      obtain ⟨es, hwrote, hes⟩ := moveSteps_ok (p.x, p.y) hx hy req.delay le_rfl hsteps hok
      have hclose := written_close hwrote.mods
      rw [hwrote.button, if_pos rfl, hwrote.written, List.append_nil] at hclose
      rw [hwritten, ← htarget]
      exact hclose ▸ hes.moves

theorem dragPath_cut (req : DragRequest) (c : Ctx) : Cut (dragPath req c) := by
  refine (cut_writeEvent _ c).bind fun c₁ => ?_
  have hpress : Cut ((c₁.delayMs inputDefButtonMs).pressButton req.button) :=
    (cut_writeEvent _ _).bind fun _ => cut_ok _
  exact hpress.bind fun c₂ => (dragSteps_cut req.delay req.steps _).bind fun _ => cut_ok _

/-- The events of a drag up to the release of the button. -/
theorem dragPath_ok {req : DragRequest} (start : Int × Int) (hx : Fits req.path.1)
    (hy : Fits req.path.2)
    (hsteps : req.steps ≠ 0) {c c' : Ctx} (h : dragPath req c = .ok c') :
    ∃ during, c'.written = c.written ++ motionEvent req.approach.1 req.approach.2 0 ::
        buttonEvent req.button.1 :: during ∧
      c'.heldButtonCode = req.button.1 ∧ c'.heldMods = c.heldMods ∧
      Steps start req.path.1 req.path.2 req.steps req.steps during := by
  unfold dragPath at h
  cases hmove : c.writeEvent (motionEvent req.approach.1 req.approach.2 0) with
  | error c₁ =>
    rw [hmove] at h
    cases h
  | ok c₁ =>
    rw [hmove] at h
    have hmoved := (Ctx.wrote_writeEvent hmove).trans (Ctx.wrote_delayMs inputDefButtonMs c₁)
    change ((c₁.delayMs inputDefButtonMs).pressButton req.button >>= _) = _ at h
    cases hpress : (c₁.delayMs inputDefButtonMs).writeEvent (buttonEvent req.button.1) with
    | error c₂ =>
      rw [Ctx.pressButton, hpress] at h
      cases h
    | ok c₂ =>
      have hdown := hmoved.trans (Ctx.wrote_writeEvent hpress)
      rw [Ctx.pressButton, hpress] at h
      change (dragSteps req.path.1 req.path.2 req.steps req.delay req.steps
        (({ c₂ with heldButtonCode := req.button.1, heldButtons := req.button.2 } : Ctx).delayMs
          inputDefButtonMs) >>= _) = _ at h
      generalize hheld : ({ c₂ with heldButtonCode := req.button.1, heldButtons := req.button.2 } : Ctx) =
        c₃ at h
      cases hdrag : dragSteps req.path.1 req.path.2 req.steps req.delay req.steps
          (c₃.delayMs inputDefButtonMs) with
      | error c₄ =>
        rw [hdrag] at h
        cases h
      | ok c₄ =>
        rw [hdrag] at h
        cases h
        obtain ⟨during, hwrote, hes⟩ := dragSteps_ok start hx hy req.delay le_rfl hsteps hdrag
        have hrest := ((Ctx.wrote_delayMs inputDefButtonMs c₃).trans hwrote).trans
          (Ctx.wrote_delayMs inputDefButtonMs c₄)
        subst hheld
        refine ⟨during, ?_, hrest.button, hrest.mods.trans hdown.mods, hes⟩
        rw [hrest.written, hdown.written]
        simp

/-- One event leads to where it ends. -/
theorem moves_singleton (start target : Int × Int) (hx : Fits (target.1 - start.1))
    (hy : Fits (target.2 - start.2)) (buttons : UInt16) :
    Moves start target [motionEvent (target.1 - start.1) (target.2 - start.2) buttons] := by
  have hone : ∀ a b : Int, Approaches b a [b - a] := by
    intro a b
    have hsum : a + (b - a) = b := add_sub_cancel a b
    refine ⟨?_, hsum⟩
    rw [hsum]
    exact Set.right_mem_uIcc
  refine ⟨fun e he => ⟨_, _, _, List.mem_singleton.mp he⟩, ?_, ?_⟩
  · rw [List.map_singleton, dx_motionEvent hx]
    exact exact_of_approaches (hone _ _)
  · rw [List.map_singleton, dy_motionEvent _ hy]
    exact exact_of_approaches (hone _ _)

/-- What input.drag writes. -/
theorem inputDrag_moves {w : World} {params : Option CJson} {p : Pointer}
    (hpointer : w.PointerAt p) (hscreen : p.OnScreen) (hwhole : (inputDrag w params).Whole) :
    ∃ before during button, (inputDrag w params).written =
        before ++ buttonEvent button :: during ++ [(buttonEvent button).up] ∧
      Moves (p.x, p.y) (dragStart p params) before ∧
      Moves (dragStart p params) (dragEnd p params) during := by
  unfold inputDrag at hwhole ⊢
  split at hwhole
  · exact absurd hwhole (not_whole_refused _)
  · rename_i henabled
    rw [if_neg henabled]
    cases hparse : parseDrag w params with
    | error e =>
      rw [hparse] at hwhole
      exact absurd hwhole (not_whole_refused _)
    | ok req =>
      rw [hparse] at hwhole
      obtain ⟨hsteps, happroach, hpath⟩ := parseDrag_ok hparse hpointer
      have hsize := hscreen.size
      have hstartX := clamp_bounds ((intParam params "from_x").getD 0)
        (hscreen.x.1.trans_lt hscreen.x.2)
      have hstartY := clamp_bounds ((intParam params "from_y").getD 0)
        (hscreen.y.1.trans_lt hscreen.y.2)
      dsimp only at hwhole ⊢
      have hnames : ascii "truncated" ∉ [ascii "op", ascii "mode", ascii "button"] := by decide
      obtain ⟨-, htruncated, hwritten⟩ := whole_inject hwhole fun _ => names_landing w hnames
      have hok := (dragPath_cut req _).ok htruncated
      have hx : Fits req.path.1 := by
        rw [hpath]
        exact fits_clamp _ hstartX hsize.1
      have hy : Fits req.path.2 := by
        rw [hpath]
        exact fits_clamp _ hstartY hsize.2
      obtain ⟨during, hevents, hbutton, hmods, hes⟩ :=
        dragPath_ok (dragStart p params) hx hy hsteps hok
      have hclose := written_close hmods
      rw [hbutton, if_neg (parseDrag_valid hparse).ne_zero, hevents, happroach] at hclose
      refine ⟨[motionEvent ((dragStart p params).1 - p.x) ((dragStart p params).2 - p.y) 0], during,
        req.button.1, hwritten.trans hclose, ?_, ?_⟩
      · exact moves_singleton (p.x, p.y) _ (fits_clamp _ hscreen.x hsize.1)
          (fits_clamp _ hscreen.y hsize.2) 0
      · have hmoves := hes.moves
        rw [hpath, add_sub_cancel, add_sub_cancel] at hmoves
        exact hmoves

/-- Unless a budget ends the call, the events lead from the pointer to the point of the
request, and in a drag from its start to its end while the button is down. -/
theorem pointer_motion_exact (w : World) (params : Option CJson) {p : Pointer}
    (hpointer : w.PointerAt p) (hscreen : p.OnScreen) :
    ((inputMouseMove w params).Whole → rawAbsolute params = false →
      Moves (p.x, p.y) (moveTarget p params) (inputMouseMove w params).written) ∧
    ((inputDrag w params).Whole →
      ∃ before during button, (inputDrag w params).written =
          before ++ buttonEvent button :: during ++ [(buttonEvent button).up] ∧
        Moves (p.x, p.y) (dragStart p params) before ∧
        Moves (dragStart p params) (dragEnd p params) during) :=
  ⟨fun hwhole hraw => inputMouseMove_moves hpointer hscreen hraw hwhole,
    inputDrag_moves hpointer hscreen⟩

def deskPointer : Pointer := ⟨20, 200, 640, 480⟩

/-- A machine with a screen. -/
def deskWorld : World := { plainWorld with pointer := .ok deskPointer }

/-- To a target to the right and above, in more steps than points. -/
def deskMove : Option CJson :=
  some (.object [(ascii "x", .number 23), (ascii "y", .number (-4)), (ascii "steps", .number 7)])

def deskDrag : Option CJson :=
  some (.object [(ascii "confirm", .bool true), (ascii "from_x", .number 30),
    (ascii "from_y", .number 190),
    (ascii "to_x", .number 900), (ascii "to_y", .number 10)])

theorem desk_motion_exact :
    Moves (20, 200) (23, 0) (inputMouseMove deskWorld deskMove).written ∧
      ∃ before during button, (inputDrag deskWorld deskDrag).written =
          before ++ buttonEvent button :: during ++ [(buttonEvent button).up] ∧
        Moves (20, 200) (30, 190) before ∧ Moves (30, 190) (639, 10) during :=
  have hpointer : deskWorld.PointerAt deskPointer := fun q hq => (Except.ok.inj hq).symm
  have hscreen : deskPointer.OnScreen := ⟨by decide, by decide, by decide⟩
  ⟨(pointer_motion_exact deskWorld deskMove hpointer hscreen).1 ⟨_, rfl, rfl⟩ (by decide +kernel),
    (pointer_motion_exact deskWorld deskDrag hpointer hscreen).2 ⟨_, rfl, rfl⟩⟩

end AmigaFleet.Mcpd.Input

import AmigaFleet.Mcpd.InputRelease

/-!
# Calls that are not truncated

A call whose answer says `"truncated": false` has not been stopped by a budget:
the run behind it comes to its end (`Cut.ok`), and what the answer and the
events tell is what this run left (`whole_inject`).
-/

namespace AmigaFleet.Mcpd.Input

open AmigaFleet.Lib

/-! ## Runs -/

/-- A run that stops before its end has been truncated. -/
def Cut (r : Except Ctx Ctx) : Prop := ∀ c, r = .error c → c.truncated = true

theorem cut_ok (c : Ctx) : Cut (.ok c) := by
  intro c' h
  cases h

theorem cut_writeEvent (e : Event) (c : Ctx) : Cut (c.writeEvent e) := by
  intro c' h
  rw [writeEvent_error h]

theorem Cut.bind {r : Except Ctx Ctx} {f : Ctx → Except Ctx Ctx} (h : Cut r) (hf : ∀ c, Cut (f c)) :
    Cut (r >>= f) := by
  cases r with
  | error c => exact h
  | ok c => exact hf c

/-- A run that is not truncated comes to its end. -/
theorem Cut.ok {r : Except Ctx Ctx} (h : Cut r) (hwhole : (finish r).truncated = false) :
    r = .ok (finish r) := by
  cases r with
  | error c => exact absurd (h c rfl) (by rw [show c.truncated = false from hwhole]; decide)
  | ok c => rfl

/-! ## The end of a call -/

theorem truncated_delayMs (ms : Nat) (c : Ctx) : (c.delayMs ms).truncated = c.truncated := by
  unfold Ctx.delayMs
  split <;> rfl

theorem truncated_close (c : Ctx) : c.close.truncated = c.truncated := by
  have hkeys : ∀ (codes : List UInt8) (c : Ctx), (c.releaseKeys codes).truncated = c.truncated := by
    intro codes
    induction codes with
    | nil => exact fun c => rfl
    | cons code codes ih => exact fun c => ih _
  rw [Ctx.close, truncated_delayMs, Ctx.releaseModifiers, hkeys]
  unfold Ctx.releaseButtons
  split <;> rfl

/-- The answer of the call says that it was not truncated. -/
def Done.Whole (d : Done) : Prop :=
  ∃ result, d.outcome = .ok result ∧ CJson.getItem (ascii "truncated") result = some (.bool false)

theorem not_whole_refused (e : CJson) : ¬(refused e).Whole := by
  rintro ⟨result, hok, -⟩
  cases hok

theorem whole_inject {w : World} {body : Ctx → Ctx × List (Bytes × CJson)}
    (h : (w.inject body).Whole) (hnames : ∀ c, ascii "truncated" ∉ (body c).2.map Prod.fst) :
    w.openFailure = none ∧ (body { tioOpen := w.timer }).1.truncated = false ∧
      (w.inject body).written = (body { tioOpen := w.timer }).1.close.written := by
  unfold World.inject at h ⊢
  cases hopen : w.openFailure with
  | some failure =>
    rw [hopen] at h
    exact absurd h (not_whole_refused _)
  | none =>
    rw [hopen] at h
    obtain ⟨result, hok, htruncated⟩ := h
    dsimp only at hok
    cases hok
    have hnone : (body { tioOpen := w.timer }).2.find?
        (fun m => m.1 == ascii "truncated") = none := by
      rw [List.find?_eq_none]
      intro m hm hname
      exact hnames _ (List.mem_map.mpr ⟨m, hm, by simpa using hname⟩)
    have hother : ascii "events" ≠ ascii "truncated" ∧ ascii "duration_ms" ≠ ascii "truncated" := by
      decide
    simp only [CJson.getItem, List.find?_append, hnone, Option.none_or,
      List.find?_cons] at htruncated
    rw [beq_false_of_ne hother.1, beq_false_of_ne hother.2] at htruncated
    rw [truncated_close] at htruncated
    simpa using htruncated

end AmigaFleet.Mcpd.Input

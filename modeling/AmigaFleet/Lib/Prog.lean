import Mathlib.Data.List.Basic

/-!
# Programs that make requests

A `Prog` is a program that talks to the world in requests only: it returns,
raises an exception, or makes a request and goes on with the answer.  The world
is a function of what has been asked and answered so far, so a statement about
every world is a statement about every outcome of every request.

* `exec` runs a program from a history.  It gives the outcome and the events
  that the run appends (`exec_bind_ok`, `exec_bind_error`, `exec_attempt`).
* `Makes P p`: all requests that `p` can make satisfy `P`, whatever the answers
  are; `Makes.events` is what a run gets from it.
* `Raises env Q p`: all exceptions that `p` raises in the world `env` satisfy `Q`.
-/

namespace AmigaFleet.Lib

/-- A program with requests `Req`, answers `Ans` and exceptions `Exn`. -/
inductive Prog (Req Ans Exn β : Type) where
  | pure (b : β)
  | raise (e : Exn)
  | call (r : Req) (k : Ans → Prog Req Ans Exn β)

namespace Prog

variable {Req Ans Exn β γ : Type}

/-! ## Composition -/

protected def bind : Prog Req Ans Exn β → (β → Prog Req Ans Exn γ) → Prog Req Ans Exn γ
  | pure b, f => f b
  | raise e, _ => raise e
  | call r k, f => call r fun a => (k a).bind f

instance : Monad (Prog Req Ans Exn) where
  pure := pure
  bind := Prog.bind

/-- The outcome as a value: what `try` sees. -/
def attempt : Prog Req Ans Exn β → Prog Req Ans Exn (Except Exn β)
  | pure b => pure (.ok b)
  | raise e => pure (.error e)
  | call r k => call r fun a => (k a).attempt

@[simp] theorem pure_bind (b : β) (f : β → Prog Req Ans Exn γ) :
    (pure b : Prog Req Ans Exn β) >>= f = f b :=
  rfl

@[simp] theorem return_bind (b : β) (f : β → Prog Req Ans Exn γ) :
    ((Pure.pure b : Prog Req Ans Exn β) >>= f) = f b := rfl

@[simp] theorem raise_bind (e : Exn) (f : β → Prog Req Ans Exn γ) :
    (raise e : Prog Req Ans Exn β) >>= f = raise e := rfl

@[simp] theorem call_bind (r : Req) (k : Ans → Prog Req Ans Exn β) (f : β → Prog Req Ans Exn γ) :
    (call r k : Prog Req Ans Exn β) >>= f = call r fun a => k a >>= f := rfl

/-! ## Runs -/

variable (env : List (Req × Ans) → Req → Ans)

/-- A run from a history: its outcome, and the requests it makes with their answers. -/
def exec : Prog Req Ans Exn β → List (Req × Ans) → Except Exn β × List (Req × Ans)
  | pure b, _ => (.ok b, [])
  | raise e, _ => (.error e, [])
  | call r k, h =>
    let a := env h r
    let rest := exec (k a) (h ++ [(r, a)])
    (rest.1, (r, a) :: rest.2)

@[simp] theorem exec_pure (b : β) (h : List (Req × Ans)) :
    exec env (pure b : Prog Req Ans Exn β) h = (.ok b, []) := rfl

@[simp] theorem exec_return (b : β) (h : List (Req × Ans)) :
    exec env (Pure.pure b : Prog Req Ans Exn β) h = (.ok b, []) := rfl

@[simp] theorem exec_raise (e : Exn) (h : List (Req × Ans)) :
    exec env (raise e : Prog Req Ans Exn β) h = (.error e, []) := rfl

variable {env}

/-- A program that goes on after one that has returned. -/
theorem exec_bind_ok {p : Prog Req Ans Exn β} {f : β → Prog Req Ans Exn γ} {h es : List (Req × Ans)}
    {b : β} (hp : exec env p h = (.ok b, es)) :
    exec env (p >>= f) h = ((exec env (f b) (h ++ es)).1, es ++ (exec env (f b) (h ++ es)).2) := by
  induction p generalizing h es with
  | pure b' =>
    cases hp
    simp
  | raise e => cases hp
  | call r k ih =>
    obtain ⟨hout, hes⟩ := Prod.mk.inj hp
    subst hes
    have hrest := ih (env h r) (Prod.ext hout rfl)
    simp only [call_bind, exec, hrest, List.append_assoc, List.cons_append, List.nil_append]

/-- Nothing runs after a program that has raised. -/
theorem exec_bind_error {p : Prog Req Ans Exn β} {f : β → Prog Req Ans Exn γ}
    {h es : List (Req × Ans)} {e : Exn} (hp : exec env p h = (.error e, es)) :
    exec env (p >>= f) h = (.error e, es) := by
  induction p generalizing h es with
  | pure b => cases hp
  | raise e' =>
    cases hp
    rfl
  | call r k ih =>
    obtain ⟨hout, hes⟩ := Prod.mk.inj hp
    subst hes
    have hrest := ih (env h r) (Prod.ext hout rfl)
    simp only [call_bind, exec, hrest]

/-- A composition returns exactly when both parts do. -/
theorem exec_bind_iff {p : Prog Req Ans Exn β} {f : β → Prog Req Ans Exn γ}
    {h es : List (Req × Ans)} {c : γ} :
    exec env (p >>= f) h = (.ok c, es) ↔
      ∃ b es₁ es₂, exec env p h = (.ok b, es₁) ∧ exec env (f b) (h ++ es₁) = (.ok c, es₂) ∧
        es = es₁ ++ es₂ := by
  constructor
  · intro hrun
    rcases hp : exec env p h with ⟨e | b, es₁⟩
    · rw [exec_bind_error hp] at hrun
      cases hrun
    · rw [exec_bind_ok hp] at hrun
      obtain ⟨hout, hes⟩ := Prod.mk.inj hrun
      exact ⟨b, es₁, _, rfl, Prod.ext hout rfl, hes.symm⟩
  · rintro ⟨b, es₁, es₂, hp, hf, rfl⟩
    rw [exec_bind_ok hp, hf]

@[simp] theorem exec_attempt (p : Prog Req Ans Exn β) (h : List (Req × Ans)) :
    exec env p.attempt h = (.ok (exec env p h).1, (exec env p h).2) := by
  induction p generalizing h with
  | pure b => rfl
  | raise e => rfl
  | call r k ih => simp only [attempt, exec, ih]

/-! ## The requests of a program -/

/-- All requests that the program can make satisfy `P`. -/
def Makes (P : Req → Prop) : Prog Req Ans Exn β → Prop
  | pure _ => True
  | raise _ => True
  | call r k => P r ∧ ∀ a, (k a).Makes P

variable {P : Req → Prop}

@[simp] theorem makes_pure (b : β) : (pure b : Prog Req Ans Exn β).Makes P := trivial

@[simp] theorem makes_return (b : β) : (Pure.pure b : Prog Req Ans Exn β).Makes P := trivial

@[simp] theorem makes_raise (e : Exn) : (raise e : Prog Req Ans Exn β).Makes P := trivial

theorem Makes.bind {p : Prog Req Ans Exn β} {f : β → Prog Req Ans Exn γ} (hp : p.Makes P)
    (hf : ∀ b, (f b).Makes P) : (p >>= f).Makes P := by
  induction p with
  | pure b => exact hf b
  | raise e => trivial
  | call r k ih => exact ⟨hp.1, fun a => ih a (hp.2 a)⟩

theorem Makes.attempt {p : Prog Req Ans Exn β} (hp : p.Makes P) : p.attempt.Makes P := by
  induction p with
  | pure b => trivial
  | raise e => trivial
  | call r k ih => exact ⟨hp.1, fun a => ih a (hp.2 a)⟩

/-- What a run asks. -/
theorem Makes.events {p : Prog Req Ans Exn β} (hp : p.Makes P) (h : List (Req × Ans)) :
    ∀ ev ∈ (exec env p h).2, P ev.1 := by
  induction p generalizing h with
  | pure b => simp
  | raise e => simp
  | call r k ih =>
    simp only [exec, List.forall_mem_cons]
    exact ⟨hp.1, ih _ (hp.2 _) _⟩

/-! ## The exceptions of a program -/

/-- All exceptions that the program raises in the world satisfy `Q`. -/
def Raises (env : List (Req × Ans) → Req → Ans) (Q : Exn → Prop) (p : Prog Req Ans Exn β) : Prop :=
  ∀ h e, (exec env p h).1 = .error e → Q e

variable {Q : Exn → Prop}

theorem raises_return (b : β) : (Pure.pure b : Prog Req Ans Exn β).Raises env Q :=
  fun _ _ h => by cases h

theorem raises_raise {e : Exn} (he : Q e) : (raise e : Prog Req Ans Exn β).Raises env Q := by
  intro h e' heq
  cases heq
  exact he

theorem Raises.bind {p : Prog Req Ans Exn β} {f : β → Prog Req Ans Exn γ} (hp : p.Raises env Q)
    (hf : ∀ b, (f b).Raises env Q) : (p >>= f).Raises env Q := by
  intro h e heq
  rcases hrun : exec env p h with ⟨e' | b, es⟩
  · rw [exec_bind_error hrun] at heq
    cases heq
    exact hp h e (by rw [hrun])
  · rw [exec_bind_ok hrun] at heq
    exact hf b _ e heq

/-- A program in a `try` raises what the handler raises. -/
theorem Raises.attempt_bind {p : Prog Req Ans Exn β} {f : Except Exn β → Prog Req Ans Exn γ}
    (hp : p.Raises env Q) (hok : ∀ b, (f (.ok b)).Raises env Q)
    (herror : ∀ e, Q e → (f (.error e)).Raises env Q) : (p.attempt >>= f).Raises env Q := by
  intro h e heq
  rw [exec_bind_ok (exec_attempt p h)] at heq
  rcases hrun : (exec env p h).1 with e' | b
  · rw [hrun] at heq
    exact herror e' (hp h e' hrun) _ e heq
  · rw [hrun] at heq
    exact hok b _ e heq

end Prog

end AmigaFleet.Lib

import Mathlib.Data.List.Basic

/-!
# Fallible programs that act

A program that can fail leaves two things behind: the steps it has taken by then, and its
outcome.  Sequencing runs the second part only when the first came to its end.

`ActsLast` is the discipline of a program that validates first and acts afterwards: one
that failed has taken no step.  It is kept by putting pure checks in front
(`ActsLast.check_bind`), and it holds of steps with nothing after them that can fail
(`ActsLast.emit_pure`).
-/

namespace Whatspec.Library

variable {ε ω α β : Type}

/-- What a fallible program did, and how it ended. -/
structure Action (ε ω α : Type) where
  steps : List ε
  outcome : Except ω α

namespace Action

/-- A check: it takes no step. -/
def check (x : Except ω α) : Action ε ω α := ⟨[], x⟩

/-- Take some steps. -/
def emit (es : List ε) : Action ε ω Unit := ⟨es, .ok ()⟩

protected def bind (a : Action ε ω α) (f : α → Action ε ω β) : Action ε ω β :=
  match a.outcome with
  | .error e => ⟨a.steps, .error e⟩
  | .ok x => ⟨a.steps ++ (f x).steps, (f x).outcome⟩

instance : Monad (Action ε ω) where
  pure x := ⟨[], .ok x⟩
  bind := Action.bind

/-- A program that failed has taken no step. -/
def ActsLast (a : Action ε ω α) : Prop := ∀ e, a.outcome = .error e → a.steps = []

theorem check_bind_error {x : Except ω α} {e : ω} (h : x = .error e) (f : α → Action ε ω β) :
    (check x >>= f) = ⟨[], .error e⟩ := by
  subst h
  rfl

theorem check_bind_ok {x : Except ω α} {v : α} (h : x = .ok v) (f : α → Action ε ω β) :
    (check x >>= f) = f v := by
  subst h
  rfl

/-- A sequence that starts with a check succeeds through a check that passed. -/
theorem check_bind_outcome {x : Except ω α} {f : α → Action ε ω β} {y : β}
    (h : (check x >>= f).outcome = .ok y) :
    ∃ v, x = .ok v ∧ (f v).outcome = .ok y ∧ (check x >>= f).steps = (f v).steps := by
  cases hx : x with
  | error e =>
      rw [check_bind_error hx] at h
      cases h
  | ok v =>
      rw [check_bind_ok hx] at h
      exact ⟨v, rfl, h, rfl⟩

theorem emit_bind_steps (es : List ε) (f : Unit → Action ε ω β) :
    (emit es >>= f).steps = es ++ (f ()).steps := rfl

/-- **A check in front keeps the discipline.** -/
theorem ActsLast.check_bind (x : Except ω α) {f : α → Action ε ω β}
    (h : ∀ v, x = .ok v → ActsLast (f v)) : ActsLast (check x >>= f) := by
  intro e he
  cases hx : x with
  | error e' => rw [check_bind_error rfl]
  | ok v =>
      rw [hx, check_bind_ok rfl] at he
      rw [check_bind_ok rfl]
      exact h v hx e he

/-- Steps followed by something that cannot fail keep the discipline. -/
theorem ActsLast.emit_pure (es : List ε) (x : α) :
    ActsLast ((emit es >>= fun _ => pure x) : Action ε ω α) := by
  intro e he
  cases he

end Action

end Whatspec.Library

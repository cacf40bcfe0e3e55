import Mathlib.Data.List.Basic

/-!
# Programs of atomic steps, and the runs that stop part-way

A program is a list of steps over a state, and a step is whatever the layer below does
in one indivisible action.  A run that is cut (by a failure the program does not handle,
or by a crash) has executed a prefix of its steps and nothing else.

* `runSteps` is the state a list of steps leaves;
* `runSteps_invariant` and `runSteps_frame` carry a fact about one step to a whole run;
* `runUntil` is a loop that breaks off once its state is done; `runUntil_append` splits it, and
  `runUntil_invariant` carries a fact through it;
* `take_append_cases` says where a cut of two programs in sequence falls, which is how a
  program is read phase by phase.
-/

namespace Whatspec.Library

variable {σ ε β : Type*}

/-- The state left by the steps of a program, executed in order. -/
def runSteps (step : ε → σ → σ) : List ε → σ → σ
  | [], s => s
  | e :: es, s => runSteps step es (step e s)

@[simp] theorem runSteps_nil (step : ε → σ → σ) (s : σ) : runSteps step [] s = s := rfl

@[simp] theorem runSteps_cons (step : ε → σ → σ) (e : ε) (es : List ε) (s : σ) :
    runSteps step (e :: es) s = runSteps step es (step e s) := rfl

theorem runSteps_append (step : ε → σ → σ) (es fs : List ε) (s : σ) :
    runSteps step (es ++ fs) s = runSteps step fs (runSteps step es s) := by
  induction es generalizing s with
  | nil => rfl
  | cons e es ih => exact ih (step e s)

/-- What every step of a program keeps, the run keeps. -/
theorem runSteps_invariant (step : ε → σ → σ) (I : σ → Prop) (es : List ε) (s : σ)
    (hstep : ∀ e ∈ es, ∀ t, I t → I (step e t)) (hs : I s) : I (runSteps step es s) := by
  induction es generalizing s with
  | nil => exact hs
  | cons e es ih =>
      have htail : ∀ e' ∈ es, ∀ t, I t → I (step e' t) :=
        fun e' he' => hstep e' (List.mem_cons_of_mem e he')
      exact ih (step e s) htail (hstep e List.mem_cons_self s hs)

/-- **The frame rule.**  An observation no step of the program changes is not changed by
the run. -/
theorem runSteps_frame (step : ε → σ → σ) (observe : σ → β) (es : List ε) (s : σ)
    (hstep : ∀ e ∈ es, ∀ t, observe (step e t) = observe t) :
    observe (runSteps step es s) = observe s :=
  runSteps_invariant step (fun t => observe t = observe s) es s
    (fun e he t ht => (hstep e he t).trans ht) rfl

/-- A cut of two programs in sequence falls inside the first, or takes all of it and falls
inside the second. -/
theorem take_append_cases (es fs : List ε) (k : ℕ) :
    (k < es.length ∧ (es ++ fs).take k = es.take k) ∨
      (es.length ≤ k ∧ (es ++ fs).take k = es ++ fs.take (k - es.length)) := by
  rcases Nat.lt_or_ge k es.length with hlt | hge
  · exact Or.inl ⟨hlt, List.take_append_of_le_length (Nat.le_of_lt hlt)⟩
  · refine Or.inr ⟨hge, ?_⟩
    rw [List.take_append, List.take_of_length_le hge]

/-! ### Loops that break off -/

/-- Steps taken in turn until the state is done. -/
def runUntil (done : σ → Prop) [DecidablePred done] (step : σ → ε → σ) : σ → List ε → σ
  | s, [] => s
  | s, e :: es => if done s then s else runUntil done step (step s e) es

section RunUntil

variable (done : σ → Prop) [DecidablePred done] (step : σ → ε → σ)

/-- What every step of a loop keeps, the loop keeps. -/
theorem runUntil_invariant (I : σ → Prop) (hstep : ∀ s e, I s → I (step s e)) (es : List ε)
    {s : σ} (hs : I s) : I (runUntil done step s es) := by
  induction es generalizing s with
  | nil => exact hs
  | cons e es ih =>
      rw [runUntil]
      by_cases hdone : done s
      · rw [if_pos hdone]
        exact hs
      · rw [if_neg hdone]
        exact ih (hstep s e hs)

theorem runUntil_of_done {s : σ} (h : done s) (es : List ε) : runUntil done step s es = s := by
  cases es with
  | nil => rfl
  | cons e es => exact if_pos h

theorem runUntil_append (es fs : List ε) (s : σ) :
    runUntil done step s (es ++ fs) = runUntil done step (runUntil done step s es) fs := by
  induction es generalizing s with
  | nil => rfl
  | cons e es ih =>
      rw [List.cons_append, runUntil, runUntil]
      by_cases hdone : done s
      · rw [if_pos hdone, if_pos hdone, runUntil_of_done done step hdone]
      · rw [if_neg hdone, if_neg hdone]
        exact ih (step s e)

/-- What holds when the loop is done, is kept by every step and is brought about by the step
of some element, holds at the end of the loop. -/
theorem runUntil_through (P : σ → Prop) (hdone : ∀ s, done s → P s)
    (hkeep : ∀ s e, P s → P (step s e)) (es : List ε) (e : ε) (fs : List ε) (s : σ)
    (h : P (step (runUntil done step s es) e)) : P (runUntil done step s (es ++ e :: fs)) := by
  rw [runUntil_append, runUntil]
  by_cases hd : done (runUntil done step s es)
  · rw [if_pos hd]
    exact hdone _ hd
  · rw [if_neg hd]
    exact runUntil_invariant done step P hkeep fs h

end RunUntil

end Whatspec.Library

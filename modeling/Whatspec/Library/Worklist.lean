import Mathlib.Data.List.Basic
import Mathlib.Data.Prod.Lex
import Mathlib.Order.WellFounded

/-!
# Work lists

A work-list loop pops the first entry, processes it and appends what is asked for next.
`drain` is the loop under a fuel, which gives nothing when the fuel runs out.

* `drain_invariant`: what every round keeps holds when the list is empty;
* `exists_drain`: a loop whose rounds descend in a well-founded order comes to its end.
-/

namespace Whatspec.Library

variable {α σ β : Type*}

/-- Pop an entry, process it, and append the entries asked for, until none is left. -/
def drain (round : α → σ → σ × List α) : ℕ → List α → σ → Option σ
  | _, [], s => some s
  | 0, _ :: _, _ => none
  | fuel + 1, a :: queue, s => drain round fuel (queue ++ (round a s).2) (round a s).1

variable {round : α → σ → σ × List α}

/-- More fuel changes nothing. -/
theorem drain_mono {fuel fuel' : ℕ} {queue : List α} {s r : σ}
    (h : drain round fuel queue s = some r) (hle : fuel ≤ fuel') :
    drain round fuel' queue s = some r := by
  induction fuel generalizing fuel' queue s with
  | zero =>
    cases queue with
    | nil =>
      rw [drain] at h ⊢
      exact h
    | cons a queue =>
      rw [drain] at h
      cases h
  | succ fuel ih =>
    cases queue with
    | nil =>
      rw [drain] at h ⊢
      exact h
    | cons a queue =>
      obtain ⟨k, rfl⟩ : ∃ k, fuel' = k + 1 := ⟨fuel' - 1, by omega⟩
      rw [drain] at h ⊢
      exact ih h (by omega)

/-- The result does not depend on the fuel. -/
theorem drain_unique {fuel fuel' : ℕ} {queue : List α} {s r r' : σ}
    (h : drain round fuel queue s = some r) (h' : drain round fuel' queue s = some r') :
    r = r' := by
  have hmax := drain_mono h (le_max_left fuel fuel')
  have hmax' := drain_mono h' (le_max_right fuel fuel')
  exact Option.some.inj (hmax.symm.trans hmax')

/-- **The invariant rule.**  What holds at the start and is kept by every round holds at the
end. -/
theorem drain_invariant {I : List α → σ → Prop}
    (hround : ∀ a queue s, I (a :: queue) s → I (queue ++ (round a s).2) (round a s).1)
    {fuel : ℕ} {queue : List α} {s r : σ} (hstart : I queue s)
    (h : drain round fuel queue s = some r) : I [] r := by
  induction fuel generalizing queue s with
  | zero =>
    cases queue with
    | nil =>
      rw [drain] at h
      exact Option.some.inj h ▸ hstart
    | cons a queue =>
      rw [drain] at h
      cases h
  | succ fuel ih =>
    cases queue with
    | nil =>
      rw [drain] at h
      exact Option.some.inj h ▸ hstart
    | cons a queue =>
      rw [drain] at h
      exact ih (hround a queue s hstart) h

/-- **The loop ends.**  Every round keeps the invariant and makes the measure smaller. -/
theorem exists_drain [WellFoundedRelation β] {I : List α → σ → Prop}
    (measure : List α → σ → β)
    (hround : ∀ a queue s, I (a :: queue) s → I (queue ++ (round a s).2) (round a s).1)
    (hless : ∀ a queue s, I (a :: queue) s →
      WellFoundedRelation.rel (measure (queue ++ (round a s).2) (round a s).1)
        (measure (a :: queue) s))
    {queue : List α} {s : σ} (hstart : I queue s) :
    ∃ fuel r, drain round fuel queue s = some r := by
  induction hm : measure queue s using (WellFoundedRelation.wf (α := β)).induction
    generalizing queue s with
  | _ b ih =>
    subst hm
    cases queue with
    | nil => exact ⟨0, s, by rw [drain]⟩
    | cons a queue =>
      obtain ⟨fuel, r, h⟩ := ih _ (hless a queue s hstart) (hround a queue s hstart) rfl
      exact ⟨fuel + 1, r, by rw [drain]; exact h⟩

end Whatspec.Library

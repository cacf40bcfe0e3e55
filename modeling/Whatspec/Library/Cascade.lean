import Mathlib.Data.List.Basic

/-!
# Trying alternatives in order

A cascade tries its arms in order.  An arm is entered when its guard holds; what it reads is the
answer, and a failure to read passes on to the next arm, unless the arm is final: then it is the
answer too.

* `cascade` is the search with final arms, `firstSuccess` the plain search without;
* `Separated` says that a final arm excludes all later ones, and then both searches find the same:
  `cascade_eq_some`, `cascade_eq_none` and `cascade_eq_error`.
-/

namespace Whatspec.Library

/-- An alternative: when it is entered, what it reads, and whether a failure is final. -/
structure Arm (ν ε π : Type) where
  guard : ν → Bool
  read : ν → Except ε π
  final : Bool

variable {ν ε π : Type}

/-- The place of the arm that answers and what it reads, counting from `i`. -/
def cascade (i : ℕ) : List (Arm ν ε π) → ν → Except ε (Option (ℕ × π))
  | [], _ => .ok none
  | a :: arms, n =>
    if a.guard n then
      match a.read n with
      | .ok v => .ok (some (i, v))
      | .error e => if a.final then .error e else cascade (i + 1) arms n
    else cascade (i + 1) arms n

/-- The first arm whose guard holds and that reads something. -/
def firstSuccess (i : ℕ) : List (Arm ν ε π) → ν → Option (ℕ × π)
  | [], _ => none
  | a :: arms, n =>
    if a.guard n then
      match a.read n with
      | .ok v => some (i, v)
      | .error _ => firstSuccess (i + 1) arms n
    else firstSuccess (i + 1) arms n

/-- What a final arm lets in, no later arm lets in. -/
def Separated (arms : List (Arm ν ε π)) : Prop :=
  arms.Pairwise fun a b => a.final = true → ∀ n, a.guard n = true → b.guard n = false

/-- Where no guard holds, nothing is found. -/
theorem firstSuccess_eq_none_of_guards {arms : List (Arm ν ε π)} {n : ν} {i : ℕ}
    (h : ∀ a ∈ arms, a.guard n = false) : firstSuccess i arms n = none := by
  induction arms generalizing i with
  | nil => rfl
  | cons a arms ih =>
    rw [firstSuccess, h a List.mem_cons_self, if_neg Bool.false_ne_true]
    exact ih fun b hb => h b (List.mem_cons_of_mem _ hb)

/-- **A final failure loses nothing**: the search with final arms finds what the plain search
finds. -/
theorem cascade_eq_some {arms : List (Arm ν ε π)} (h : Separated arms) (n : ν) (i : ℕ)
    (r : ℕ × π) : cascade i arms n = .ok (some r) ↔ firstSuccess i arms n = some r := by
  induction arms generalizing i with
  | nil => exact ⟨nofun, nofun⟩
  | cons a arms ih =>
    obtain ⟨hfinal, hrest⟩ := List.pairwise_cons.mp h
    rw [cascade, firstSuccess]
    by_cases hguard : a.guard n = true
    · rw [if_pos hguard, if_pos hguard]
      cases a.read n with
      | ok v => exact ⟨fun h => Except.ok.inj h, fun h => congrArg _ h⟩
      | error e =>
        by_cases hlast : a.final = true
        · have hnone : firstSuccess (i + 1) arms n = none :=
            firstSuccess_eq_none_of_guards fun b hb => hfinal b hb hlast n hguard
          simp only [if_pos hlast, hnone]
          exact ⟨nofun, nofun⟩
        · simp only [if_neg hlast]
          exact ih hrest (i + 1)
    · rw [if_neg hguard, if_neg hguard]
      exact ih hrest (i + 1)

/-- Nothing is found and nothing is final: no arm reads anything, and no final arm is entered. -/
theorem cascade_eq_none {arms : List (Arm ν ε π)} (n : ν) (i : ℕ) :
    cascade i arms n = .ok none ↔
      firstSuccess i arms n = none ∧ ∀ a ∈ arms, a.final = true → a.guard n = false := by
  induction arms generalizing i with
  | nil => exact ⟨fun _ => ⟨rfl, nofun⟩, fun _ => rfl⟩
  | cons a arms ih =>
    rw [cascade, firstSuccess, List.forall_mem_cons]
    by_cases hguard : a.guard n = true
    · rw [if_pos hguard, if_pos hguard]
      cases a.read n with
      | ok v => exact ⟨nofun, fun h => nomatch h.1⟩
      | error e =>
        by_cases hlast : a.final = true
        · simp only [hguard, hlast]
          exact ⟨nofun, fun h => nomatch h.2.1 trivial⟩
        · simp only [if_neg hlast, ih]
          exact ⟨fun h => ⟨h.1, fun hl => absurd hl hlast, h.2⟩, fun h => ⟨h.1, h.2.2⟩⟩
    · rw [if_neg hguard, if_neg hguard, ih]
      rw [Bool.not_eq_true] at hguard
      exact ⟨fun h => ⟨h.1, fun _ => hguard, h.2⟩, fun h => ⟨h.1, h.2.2⟩⟩

/-- A final failure is the failure of an arm that was entered, and nothing is found. -/
theorem cascade_eq_error {arms : List (Arm ν ε π)} (h : Separated arms) {n : ν} {i : ℕ} {e : ε}
    (herror : cascade i arms n = .error e) :
    firstSuccess i arms n = none ∧
      ∃ a ∈ arms, a.final = true ∧ a.guard n = true ∧ a.read n = .error e := by
  have hnone : firstSuccess i arms n = none := by
    cases hfirst : firstSuccess i arms n with
    | none => rfl
    | some r =>
      rw [(cascade_eq_some h n i r).mpr hfirst] at herror
      cases herror
  refine ⟨hnone, ?_⟩
  clear hnone
  induction arms generalizing i with
  | nil => cases herror
  | cons a arms ih =>
    obtain ⟨-, hrest⟩ := List.pairwise_cons.mp h
    have hpass : ∀ {j}, cascade j arms n = .error e →
        ∃ b ∈ a :: arms, b.final = true ∧ b.guard n = true ∧ b.read n = .error e := by
      intro j hj
      obtain ⟨b, hb, hread⟩ := ih hrest hj
      exact ⟨b, List.mem_cons_of_mem _ hb, hread⟩
    rw [cascade] at herror
    by_cases hguard : a.guard n = true
    · rw [if_pos hguard] at herror
      cases hread : a.read n with
      | ok v =>
        rw [hread] at herror
        cases herror
      | error e' =>
        simp only [hread] at herror
        by_cases hlast : a.final = true
        · rw [if_pos hlast] at herror
          exact ⟨a, List.mem_cons_self, hlast, hguard, hread.trans (congrArg _
            (Except.error.inj herror))⟩
        · rw [if_neg hlast] at herror
          exact hpass herror
    · rw [if_neg hguard] at herror
      exact hpass herror

end Whatspec.Library

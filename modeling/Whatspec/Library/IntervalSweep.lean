import Mathlib.Algebra.Order.Ring.Int
import Mathlib.Data.List.Pairwise

/-!
# Covering a range by intervals

A cursor moves over a range, from one interval to the next in the order of their lower ends.  It
stands on the first number that no interval so far covers; where an interval begins past it, that
number is covered by none.

* `sweep` moves the cursor;
* **`sweep_iff`**: it gets past the range exactly when every number of the range is in an interval.
-/

namespace Whatspec.Library

/-- Move the cursor past the intervals, and see if it leaves the range. -/
def sweep (last : ℤ) : ℤ → List (ℤ × ℤ) → Bool
  | cursor, [] => last < cursor
  | cursor, (lo, hi) :: rest =>
    if cursor < lo then last < cursor
    else if last < max cursor (hi + 1) then true
    else sweep last (max cursor (hi + 1)) rest

theorem sweep_nil (last cursor : ℤ) : sweep last cursor [] = true ↔ last < cursor := by
  show decide (last < cursor) = true ↔ _
  rw [decide_eq_true_iff]

/-- The next interval, when it does not begin past the cursor. -/
theorem sweep_cons {last cursor lo hi : ℤ} {rest : List (ℤ × ℤ)} (h : lo ≤ cursor) :
    sweep last cursor ((lo, hi) :: rest) = true ↔
      last < max cursor (hi + 1) ∨ sweep last (max cursor (hi + 1)) rest = true := by
  rw [sweep, if_neg (not_lt.mpr h)]
  by_cases hlast : last < max cursor (hi + 1)
  · simp [hlast]
  · simp [hlast]

theorem sweep_cons_of_lt {last cursor lo hi : ℤ} {rest : List (ℤ × ℤ)} (h : cursor < lo) :
    sweep last cursor ((lo, hi) :: rest) = true ↔ last < cursor := by
  rw [sweep, if_pos h, decide_eq_true_iff]

/-- **The sweep decides coverage**, when the intervals come in the order of their lower ends. -/
theorem sweep_iff {last : ℤ} {bands : List (ℤ × ℤ)} (hsorted : bands.Pairwise (·.1 ≤ ·.1))
    (cursor : ℤ) :
    sweep last cursor bands = true ↔
      ∀ x, cursor ≤ x → x ≤ last → ∃ b ∈ bands, b.1 ≤ x ∧ x ≤ b.2 := by
  induction bands generalizing cursor with
  | nil =>
    rw [sweep_nil]
    constructor
    · intro hlast x hcursor hx
      omega
    · intro hcover
      by_contra hlast
      obtain ⟨b, hb, -⟩ := hcover cursor le_rfl (not_lt.mp hlast)
      cases hb
  | cons band rest ih =>
    obtain ⟨lo, hi⟩ := band
    rw [List.pairwise_cons] at hsorted
    obtain ⟨hfirst, hrest⟩ := hsorted
    by_cases hlo : cursor < lo
    · rw [sweep_cons_of_lt hlo]
      constructor
      · intro hlast x hcursor hx
        omega
      · intro hcover
        by_contra hlast
        obtain ⟨b, hb, hbx, -⟩ := hcover cursor le_rfl (not_lt.mp hlast)
        have hle : lo ≤ b.1 := by
          cases hb with
          | head => exact le_rfl
          | tail _ hb => exact hfirst b hb
        omega
    · rw [sweep_cons (not_lt.mp hlo), ih hrest]
      constructor
      · rintro hcover x hcursor hx
        by_cases hhi : x ≤ hi
        · exact ⟨(lo, hi), List.mem_cons_self .., by show lo ≤ x; omega, hhi⟩
        · have hmax : max cursor (hi + 1) ≤ x := max_le hcursor (by omega)
          cases hcover with
          | inl hlast => omega
          | inr hcover =>
            obtain ⟨b, hb, hbx⟩ := hcover x hmax hx
            exact ⟨b, List.mem_cons_of_mem _ hb, hbx⟩
      · intro hcover
        refine .inr fun x hmax hx => ?_
        have hcursor : cursor ≤ x := le_trans (le_max_left _ _) hmax
        have hhi : hi + 1 ≤ x := le_trans (le_max_right _ _) hmax
        obtain ⟨b, hb, hbx⟩ := hcover x hcursor hx
        cases hb with
        | head =>
          have := hbx.2
          simp only at this
          omega
        | tail _ hb => exact ⟨b, hb, hbx⟩

end Whatspec.Library

import Mathlib.Algebra.BigOperators.Group.List.Basic
import Mathlib.Algebra.GroupWithZero.Nat
import Mathlib.Data.List.Sort
import Mathlib.Data.List.SplitOn

/-!
# Texts joined from lines

Pieces joined with a separator between them.  Joining loses where the cuts were as soon as a
piece holds the separator itself:

* `eq_of_intercalate_eq`: pieces without the separator are told by their joined text;
* `eq_of_length_eq`: they are told among all lists of pieces of the same length;
* `intercalate_merge`: two neighbours, joined beforehand, give the same text.
-/

namespace Whatspec.Library.Lines

variable {α : Type*} {sep : α}

/-- Joining one more piece at the end. -/
theorem intercalate_snoc (init : List (List α)) (hne : init ≠ []) (l : List α) :
    List.intercalate [sep] (init ++ [l]) = List.intercalate [sep] init ++ sep :: l := by
  induction init with
  | nil => exact absurd rfl hne
  | cons x init ih =>
      cases init with
      | nil => simp
      | cons y init =>
          have hrest := ih (List.cons_ne_nil y init)
          rw [List.cons_append, List.cons_append, List.intercalate_cons_cons] at *
          rw [hrest, List.intercalate_cons_cons]
          simp [List.append_assoc]

/-- **Two neighbours joined beforehand give the same text.** -/
theorem intercalate_merge (init : List (List α)) (x y : List α) :
    List.intercalate [sep] (init ++ [x, y]) = List.intercalate [sep] (init ++ [x ++ sep :: y]) := by
  induction init with
  | nil => simp
  | cons z init ih =>
      have hne : ∀ l : List (List α), l ≠ [] → init ++ l ≠ [] := fun l hl h =>
        hl (List.append_eq_nil_iff.mp h).2
      rw [List.cons_append, List.cons_append,
        List.intercalate_cons_of_ne_nil (hne _ (List.cons_ne_nil _ _)),
        List.intercalate_cons_of_ne_nil (hne _ (List.cons_ne_nil _ _)), ih]

/-- The text of several pieces ends with its last piece. -/
theorem exists_intercalate_append (x : List α) (init : List (List α)) (l : List α) :
    ∃ r, List.intercalate [sep] (x :: (init ++ [l])) = x ++ sep :: (r ++ l) ∧
      List.intercalate [sep] (init ++ [l]) = r ++ l := by
  have hjoin : List.intercalate [sep] (x :: (init ++ [l])) =
      x ++ [sep] ++ List.intercalate [sep] (init ++ [l]) :=
    List.intercalate_cons_of_ne_nil (List.append_ne_nil_of_right_ne_nil _ (List.cons_ne_nil _ _))
  cases init with
  | nil => exact ⟨[], by simp [hjoin], by simp⟩
  | cons y init =>
      have hsnoc := @intercalate_snoc _ sep (y :: init) (List.cons_ne_nil y init) l
      refine ⟨List.intercalate [sep] (y :: init) ++ [sep], ?_, ?_⟩
      · rw [hjoin, hsnoc]
        simp
      · rw [hsnoc]
        simp

section Separate

variable [DecidableEq α]

/-- **Pieces without the separator are told by their text**, when there is a piece at all. -/
theorem eq_of_intercalate_eq {ls ms : List (List α)} (hls : ∀ l ∈ ls, sep ∉ l)
    (hms : ∀ m ∈ ms, sep ∉ m) (hls' : ls ≠ []) (hms' : ms ≠ [])
    (h : List.intercalate [sep] ls = List.intercalate [sep] ms) : ls = ms := by
  have hsplit := congrArg (List.splitOn sep) h
  rw [List.splitOn_intercalate sep hls hls', List.splitOn_intercalate sep hms hms'] at hsplit
  exact hsplit

/-- The separators of a text: one between two pieces, and those inside. -/
theorem count_intercalate (x : List α) (ls : List (List α)) :
    (List.intercalate [sep] (x :: ls)).count sep =
      ls.length + ((x :: ls).map (List.count sep)).sum := by
  induction ls generalizing x with
  | nil => simp
  | cons y ls ih =>
      rw [List.intercalate_cons_cons, List.count_append, List.count_append, ih y]
      simp only [List.map_cons, List.sum_cons, List.length_cons, List.count_cons_self,
        List.count_nil]
      omega

/-- **Pieces without the separator are told among all lists of their length.** -/
theorem eq_of_length_eq {ls ms : List (List α)} (hls : ∀ l ∈ ls, sep ∉ l)
    (hlen : ls.length = ms.length) (h : List.intercalate [sep] ls = List.intercalate [sep] ms) :
    ls = ms := by
  cases ls with
  | nil => exact (List.length_eq_zero_iff.mp hlen.symm).symm
  | cons x ls =>
      cases ms with
      | nil => exact absurd hlen (Nat.succ_ne_zero _)
      | cons y ms =>
          have hcount := congrArg (List.count sep) h
          rw [count_intercalate, count_intercalate] at hcount
          have hnone : ((x :: ls).map (List.count sep)).sum = 0 := by
            rw [List.sum_eq_zero_iff_forall_eq_nat]
            intro n hn
            obtain ⟨l, hl, rfl⟩ := List.mem_map.mp hn
            exact List.count_eq_zero.mpr (hls l hl)
          have hnone' : ((y :: ms).map (List.count sep)).sum = 0 := by
            simp only [List.length_cons] at hlen
            omega
          refine eq_of_intercalate_eq hls (fun m hm => ?_) (List.cons_ne_nil _ _)
            (List.cons_ne_nil _ _) h
          rw [List.sum_eq_zero_iff_forall_eq_nat] at hnone'
          exact List.count_eq_zero.mp (hnone' _ (List.mem_map_of_mem hm))

end Separate

end Whatspec.Library.Lines

import Mathlib.Data.List.Sort

/-!
# Ordered sets as increasing lists

The canonical form of an ordered set: its elements in increasing order, none twice.

* `insert` adds an element and `collect` a list of them; both keep the order;
* `ext_of_sorted`: two sets with the same elements are the same list, so a set does not
  tell the order in which its elements arrived.
-/

namespace Whatspec.Library.SortedSet

variable {α : Type*} [LinearOrder α]

/-- The elements are in increasing order, none twice. -/
def Sorted (s : List α) : Prop := s.Pairwise (· < ·)

/-- Add an element, if it is not there yet. -/
def insert (x : α) (s : List α) : List α :=
  if x ∈ s then s else s.orderedInsert (· ≤ ·) x

/-- The set of the listed elements. -/
def collect (xs : List α) : List α := xs.foldr insert []

@[simp] theorem mem_insert {x y : α} {s : List α} : y ∈ insert x s ↔ y = x ∨ y ∈ s := by
  unfold insert
  by_cases hx : x ∈ s
  · rw [if_pos hx]
    constructor
    · exact Or.inr
    · intro h
      cases h with
      | inl heq => exact heq ▸ hx
      | inr hmem => exact hmem
  · rw [if_neg hx]
    exact List.mem_orderedInsert (· ≤ ·)

theorem sorted_insert (x : α) {s : List α} (h : Sorted s) : Sorted (insert x s) := by
  unfold insert
  by_cases hx : x ∈ s
  · rw [if_pos hx]
    exact h
  · rw [if_neg hx]
    have hle : (s.orderedInsert (· ≤ ·) x).Pairwise (· ≤ ·) :=
      List.Pairwise.orderedInsert x s (h.imp le_of_lt)
    have hnodup : (s.orderedInsert (· ≤ ·) x).Nodup := by
      rw [(List.perm_orderedInsert (· ≤ ·) x s).nodup_iff]
      exact List.nodup_cons.mpr ⟨hx, h.imp ne_of_lt⟩
    exact (hle.and hnodup).imp fun hboth => lt_of_le_of_ne hboth.1 hboth.2

@[simp] theorem mem_collect {x : α} {xs : List α} : x ∈ collect xs ↔ x ∈ xs := by
  induction xs with
  | nil => rfl
  | cons y ys ih =>
      show x ∈ insert y (collect ys) ↔ x ∈ y :: ys
      rw [mem_insert, ih, List.mem_cons]

theorem sorted_collect (xs : List α) : Sorted (collect xs) := by
  induction xs with
  | nil => exact List.Pairwise.nil
  | cons x xs ih => exact sorted_insert x ih

theorem Sorted.nodup {s : List α} (h : Sorted s) : s.Nodup := h.imp ne_of_lt

/-- **Sets with the same elements are the same.** -/
theorem ext_of_sorted {s t : List α} (hs : Sorted s) (ht : Sorted t)
    (h : ∀ x, x ∈ s ↔ x ∈ t) : s = t :=
  List.Pairwise.eq_of_mem_iff hs ht fun x => h x

end Whatspec.Library.SortedSet

import Mathlib.Data.List.Basic

/-!
# Keeping the first of each key

Elements come in pieces, and a piece may come again.  An element whose key was seen is left out.

* `firstCopies_append`: the second part starts with the keys of the first;
* `filter_firstCopies`: a test that the keys decide may as well come first;
* **`filter_firstCopies_flatMap`**: of the pieces of one name, which are copies of each other, one
  is kept, whatever stands between them.
-/

namespace Whatspec.Library

variable {α κ ν μ : Type*} [DecidableEq κ]

/-- Leave out an element whose key was seen. -/
def firstCopies (key : α → κ) : List κ → List α → List α
  | _, [] => []
  | seen, x :: rest =>
    if key x ∈ seen then firstCopies key seen rest else x :: firstCopies key (key x :: seen) rest

variable {key : α → κ}

/-- Only which keys were seen matters. -/
theorem firstCopies_congr : ∀ {l : List α} {seen seen' : List κ},
    (∀ k, k ∈ seen ↔ k ∈ seen') → firstCopies key seen l = firstCopies key seen' l
  | [], _, _, _ => rfl
  | x :: rest, seen, seen', h => by
    have hcons : ∀ k, k ∈ key x :: seen ↔ k ∈ key x :: seen' := fun k => by
      rw [List.mem_cons, List.mem_cons, h k]
    rw [firstCopies, firstCopies, firstCopies_congr h, firstCopies_congr hcons]
    by_cases hx : key x ∈ seen
    · rw [if_pos hx, if_pos ((h _).mp hx)]
    · rw [if_neg hx, if_neg fun h' => hx ((h _).mpr h')]

theorem firstCopies_append : ∀ (l l' : List α) (seen : List κ),
    firstCopies key seen (l ++ l') =
      firstCopies key seen l ++ firstCopies key (l.map key ++ seen) l'
  | [], _, _ => rfl
  | x :: rest, l', seen => by
    rw [List.cons_append, firstCopies, firstCopies]
    by_cases hx : key x ∈ seen
    · have hsame : ∀ k, k ∈ rest.map key ++ seen ↔ k ∈ (x :: rest).map key ++ seen := fun k => by
        simp only [List.map_cons, List.cons_append, List.mem_cons, List.mem_append]
        exact ⟨Or.inr, fun h => h.elim (fun hk => Or.inr (hk ▸ hx)) id⟩
      rw [if_pos hx, if_pos hx, firstCopies_append, firstCopies_congr hsame]
    · have hsame : ∀ k, k ∈ rest.map key ++ key x :: seen ↔ k ∈ (x :: rest).map key ++ seen :=
        fun k => by
          simp only [List.map_cons, List.cons_append, List.mem_cons, List.mem_append]
          exact or_left_comm
      rw [if_neg hx, if_neg hx, firstCopies_append, firstCopies_congr hsame, List.cons_append]

theorem firstCopies_of_seen : ∀ {l : List α} {seen : List κ}, (∀ x ∈ l, key x ∈ seen) →
    firstCopies key seen l = []
  | [], _, _ => rfl
  | x :: rest, seen, h => by
    rw [firstCopies, if_pos (h x List.mem_cons_self)]
    exact firstCopies_of_seen fun y hy => h y (List.mem_cons_of_mem x hy)

/-- A test that the keys decide may as well be made first. -/
theorem filter_firstCopies {test : α → Bool} (htest : ∀ x y, key x = key y → test x = test y) :
    ∀ (l : List α) (seen : List κ),
      (firstCopies key seen l).filter test = firstCopies key seen (l.filter test)
  | [], _ => rfl
  | x :: rest, seen => by
    have ih := filter_firstCopies htest rest
    rw [firstCopies, List.filter_cons]
    by_cases hx : key x ∈ seen
    · rw [if_pos hx, ih]
      split
      · rw [firstCopies, if_pos hx]
      · rfl
    · rw [if_neg hx, List.filter_cons, ih]
      split
      · rw [firstCopies, if_neg hx]
      · next hfalse =>
        -- What is left of the list passes the test, so that its keys are not that of `x`.
        have hnew : ∀ {l : List α}, (∀ y ∈ l, test y = true) → ∀ seen,
            firstCopies key (key x :: seen) l = firstCopies key seen l := by
          intro l hl
          induction l with
          | nil => exact fun _ => rfl
          | cons y l ih =>
            intro seen
            have hne : key y ≠ key x := fun h =>
              hfalse ((htest y x h).symm.trans (hl y List.mem_cons_self))
            have hrest : ∀ z ∈ l, test z = true := fun z hz => hl z (List.mem_cons_of_mem y hz)
            have hswap : ∀ k, k ∈ key y :: key x :: seen ↔ k ∈ key x :: key y :: seen := fun k => by
              simp only [List.mem_cons]
              exact or_left_comm
            rw [firstCopies, firstCopies, ih hrest, firstCopies_congr hswap, ih hrest]
            simp only [List.mem_cons, hne, false_or]
        exact hnew (fun y hy => (List.mem_filter.mp hy).2) seen

/-- Of copies of one piece the first is kept. -/
theorem firstCopies_flatMap_same {piece : μ → List α} {copy : List α} :
    ∀ {pieces : List μ}, (∀ m ∈ pieces, piece m = copy) → pieces ≠ [] →
      firstCopies key [] (pieces.flatMap piece) = firstCopies key [] copy
  | [], _, h => absurd rfl h
  | m :: rest, hall, _ => by
    rw [List.flatMap_cons, firstCopies_append, hall m List.mem_cons_self]
    have hseen : ∀ x ∈ rest.flatMap piece, key x ∈ copy.map key ++ [] := by
      intro x hx
      obtain ⟨m', hm', hx⟩ := List.mem_flatMap.mp hx
      rw [hall m' (List.mem_cons_of_mem m hm')] at hx
      exact List.mem_append_left _ (List.mem_map_of_mem hx)
    rw [firstCopies_of_seen hseen, List.append_nil]

theorem filter_flatMap_named [DecidableEq ν] {piece : μ → List α} {name : μ → ν}
    {nameOf : α → ν} (hname : ∀ m, ∀ x ∈ piece m, nameOf x = name m) (n : ν) :
    ∀ pieces : List μ, (pieces.flatMap piece).filter (fun x => nameOf x = n) =
      (pieces.filter fun m => name m = n).flatMap piece
  | [] => rfl
  | m :: rest => by
    rw [List.flatMap_cons, List.filter_append, filter_flatMap_named hname n rest, List.filter_cons]
    by_cases hm : name m = n
    · rw [if_pos (decide_eq_true hm), List.flatMap_cons, List.filter_eq_self.mpr]
      exact fun x hx => decide_eq_true ((hname m x hx).trans hm)
    · rw [if_neg (by simpa using hm), List.filter_eq_nil_iff.mpr, List.nil_append]
      intro x hx
      simpa [hname m x hx] using hm

/-- **Copies do not depend on the order.**  Where the pieces of one name are copies of each other,
the elements kept of a name are the same in every order of the pieces. -/
theorem filter_firstCopies_flatMap [DecidableEq ν] {piece : μ → List α} {name : μ → ν}
    {nameOf : α → ν} (hname : ∀ m, ∀ x ∈ piece m, nameOf x = name m)
    (hkey : ∀ x y, key x = key y → nameOf x = nameOf y) {order pieces : List μ}
    (horder : order.Perm pieces)
    (hsame : ∀ m ∈ pieces, ∀ m' ∈ pieces, name m = name m' → piece m = piece m') (n : ν) :
    (firstCopies key [] (order.flatMap piece)).filter (fun x => nameOf x = n) =
      (firstCopies key [] (pieces.flatMap piece)).filter fun x => nameOf x = n := by
  have htest : ∀ x y, key x = key y → decide (nameOf x = n) = decide (nameOf y = n) :=
    fun x y h => by rw [hkey x y h]
  rw [filter_firstCopies htest, filter_firstCopies htest, filter_flatMap_named hname,
    filter_flatMap_named hname]
  have hperm := horder.filter fun m => decide (name m = n)
  cases hpieces : pieces.filter fun m => decide (name m = n) with
  | nil =>
    rw [hpieces] at hperm
    rw [hperm.eq_nil]
  | cons m rest =>
    have hm : m ∈ pieces.filter fun m => decide (name m = n) := hpieces ▸ List.mem_cons_self
    have hcopies : ∀ m' ∈ pieces.filter (fun m => decide (name m = n)), piece m' = piece m := by
      intro m' hm'
      obtain ⟨hmem, hn⟩ := List.mem_filter.mp hm
      obtain ⟨hmem', hn'⟩ := List.mem_filter.mp hm'
      exact hsame m' hmem' m hmem ((of_decide_eq_true hn').trans (of_decide_eq_true hn).symm)
    rw [← hpieces, firstCopies_flatMap_same hcopies (hpieces ▸ List.cons_ne_nil _ _),
      firstCopies_flatMap_same fun m' hm' => hcopies m' (hperm.mem_iff.mp hm')]
    intro hnil
    rw [hnil] at hperm
    exact List.cons_ne_nil _ _ (hpieces.symm.trans hperm.nil_eq.symm)

end Whatspec.Library

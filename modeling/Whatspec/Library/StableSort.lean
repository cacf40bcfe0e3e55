import Whatspec.Library.DecisionTable

/-!
# Sorting by a key, and dropping repeats

A stable sort by a key keeps the elements of one key in their order.  What it returns is therefore
told by the elements of each key, and repeats that a key separates from each other by other
elements of that key stay apart.

* `classOf_sortBy`: the elements of a key, after the sort, are those before it;
* `eq_of_classes`, `sortBy_congr`: sorted lists with the same elements under each key, in the same
  order, are the same;
* `nodup_dropRepeats_iff`: dropping repeated neighbours leaves no repeats exactly when nothing
  stands between two equal elements but their equals;
* **`nodup_dropRepeats_sortBy_iff`**: after the sort, when that holds of the elements of each key.
-/

namespace Whatspec.Library.StableSort

variable {α κ : Type*} [LinearOrder κ]

/-- A stable sort by a key. -/
def sortBy (key : α → κ) (l : List α) : List α := l.mergeSort fun a b => key a ≤ key b

theorem sortBy_perm (key : α → κ) (l : List α) : (sortBy key l).Perm l := List.mergeSort_perm l _

theorem pairwise_sortBy (key : α → κ) (l : List α) :
    (sortBy key l).Pairwise fun a b => key a ≤ key b := by
  have hsorted : (sortBy key l).Pairwise fun a b => decide (key a ≤ key b) := List.pairwise_mergeSort
    (fun a b c hab hbc => decide_eq_true ((of_decide_eq_true hab).trans (of_decide_eq_true hbc)))
    (fun a b => by simpa using le_total (key a) (key b)) l
  exact hsorted.imp of_decide_eq_true

theorem sortBy_of_pairwise {key : α → κ} {l : List α} (h : l.Pairwise fun a b => key a ≤ key b) :
    sortBy key l = l :=
  List.mergeSort_of_pairwise (h.imp fun hab => decide_eq_true hab)

/-- The elements of a key. -/
def classOf (key : α → κ) (k : κ) (l : List α) : List α := l.filter fun a => key a = k

theorem classOf_cons (key : α → κ) (k : κ) (a : α) (l : List α) :
    classOf key k (a :: l) = if key a = k then a :: classOf key k l else classOf key k l := by
  by_cases h : key a = k <;> simp [classOf, h]

theorem mem_classOf {key : α → κ} {k : κ} {a : α} {l : List α} :
    a ∈ classOf key k l ↔ a ∈ l ∧ key a = k := by
  simp [classOf]

/-- The elements of one key stay in their order. -/
theorem classOf_sortBy (key : α → κ) (k : κ) (l : List α) :
    classOf key k (sortBy key l) = classOf key k l := by
  have hclass : (classOf key k l).Pairwise fun a b => decide (key a ≤ key b) := by
    refine List.pairwise_of_forall_mem_list fun a ha b hb => ?_
    exact decide_eq_true ((mem_classOf.mp ha).2.trans (mem_classOf.mp hb).2.symm).le
  have hsub : (classOf key k l).Sublist (sortBy key l) :=
    List.sublist_mergeSort
      (fun a b c hab hbc => decide_eq_true ((of_decide_eq_true hab).trans (of_decide_eq_true hbc)))
      (fun a b => by simpa using le_total (key a) (key b)) hclass List.filter_sublist
  have hfilter : (classOf key k l).Sublist (classOf key k (sortBy key l)) := by
    have h := hsub.filter fun a => decide (key a = k)
    rwa [List.filter_eq_self.mpr fun a ha => decide_eq_true (mem_classOf.mp ha).2] at h
  exact (hfilter.eq_of_length (((sortBy_perm key l).filter _).length_eq.symm)).symm

theorem classOf_ne_nil (key : α → κ) (a : α) (l : List α) : classOf key (key a) (a :: l) ≠ [] := by
  rw [classOf_cons, if_pos rfl]
  exact List.cons_ne_nil _ _

/-- Sorted lists are told by the elements of each key. -/
theorem eq_of_classes (key : α → κ) :
    ∀ {l l' : List α}, l.Pairwise (fun a b => key a ≤ key b) →
      l'.Pairwise (fun a b => key a ≤ key b) →
      (∀ k, classOf key k l = classOf key k l') → l = l'
  | [], [], _, _, _ => rfl
  | [], b :: l', _, _, h => absurd (h (key b)).symm (classOf_ne_nil key b l')
  | a :: l, [], _, _, h => absurd (h (key a)) (classOf_ne_nil key a l)
  | a :: l, b :: l', hl, hl', h => by
    have hmem : ∀ x, x ∈ a :: l ↔ x ∈ b :: l' := by
      intro x
      have hx : x ∈ classOf key (key x) (a :: l) ↔ x ∈ classOf key (key x) (b :: l') := by
        rw [h (key x)]
      rwa [mem_classOf, mem_classOf, and_iff_left rfl, and_iff_left rfl] at hx
    have hba : key b ≤ key a := by
      rcases List.mem_cons.mp ((hmem a).mp List.mem_cons_self) with hab | ha
      · exact (congrArg key hab).ge
      · exact (List.pairwise_cons.mp hl').1 a ha
    have hab : key a ≤ key b := by
      rcases List.mem_cons.mp ((hmem b).mpr List.mem_cons_self) with hba | hb
      · exact (congrArg key hba).ge
      · exact (List.pairwise_cons.mp hl).1 b hb
    obtain rfl : a = b := by
      have hfirst := h (key a)
      rw [classOf_cons, classOf_cons, if_pos rfl, if_pos (le_antisymm hba hab)] at hfirst
      exact (List.cons.inj hfirst).1
    have hrest : ∀ k, classOf key k l = classOf key k l' := by
      intro k
      have hk := h k
      rw [classOf_cons, classOf_cons] at hk
      split at hk
      · exact (List.cons.inj hk).2
      · exact hk
    rw [eq_of_classes key (List.pairwise_cons.mp hl).2 (List.pairwise_cons.mp hl').2 hrest]

/-- The sort depends on the elements of each key and their order, on nothing else. -/
theorem sortBy_congr (key : α → κ) {l l' : List α}
    (h : ∀ k, classOf key k l = classOf key k l') : sortBy key l = sortBy key l' :=
  eq_of_classes key (pairwise_sortBy key l) (pairwise_sortBy key l')
    fun k => by rw [classOf_sortBy, classOf_sortBy, h k]

/-! ### Repeats -/

/-- What stands between equal elements after the sort is of their key, and stood between them. -/
theorem between_sortBy_iff (key : α → κ) (l : List α) (a b : α) :
    [a, b, a].Sublist (sortBy key l) ↔ key a = key b ∧ [a, b, a].Sublist l := by
  have hclass : key a = key b → classOf key (key a) [a, b, a] = [a, b, a] := by
    intro hab
    simp [classOf, hab]
  have hthrough : key a = key b → ∀ {l l' : List α},
      classOf key (key a) l = classOf key (key a) l' → [a, b, a].Sublist l →
        [a, b, a].Sublist l' := by
    intro hab l l' heq h
    have hfilter : (classOf key (key a) [a, b, a]).Sublist (classOf key (key a) l) := h.filter _
    rw [heq, hclass hab] at hfilter
    exact hfilter.trans List.filter_sublist
  constructor
  · intro h
    have hpair := (pairwise_sortBy key l).sublist h
    simp only [List.pairwise_cons, List.mem_cons, forall_eq_or_imp] at hpair
    have hab : key a = key b := le_antisymm hpair.1.1 hpair.2.1.1
    exact ⟨hab, hthrough hab (classOf_sortBy key (key a) l) h⟩
  · rintro ⟨hab, h⟩
    exact hthrough hab (classOf_sortBy key (key a) l).symm h

variable [DecidableEq α]

/-- **Dropping repeated neighbours** leaves no repeats exactly when nothing stands between two
equal elements but their equals. -/
theorem nodup_dropRepeats_iff :
    ∀ {l : List α}, (DecisionTable.dropRepeats l).Nodup ↔ ∀ a b, [a, b, a].Sublist l → a = b
  | [] => iff_of_true List.nodup_nil fun a b h => by cases h
  | [x] => iff_of_true (List.nodup_singleton x) fun a b h => by simpa using h.length_le
  | x :: y :: rest => by
    have ih := nodup_dropRepeats_iff (l := y :: rest)
    rw [DecisionTable.dropRepeats]
    by_cases hxy : x = y
    · subst hxy
      rw [if_pos rfl, ih]
      refine ⟨fun h a b hsub => ?_, fun h a b hsub => h a b (hsub.cons x)⟩
      rcases List.sublist_cons_iff.mp hsub with hsub | ⟨tail, htail, hsub⟩
      · exact h a b hsub
      · obtain ⟨rfl, rfl⟩ := List.cons.inj htail
        rcases List.sublist_cons_iff.mp hsub with hsub | ⟨tail, htail, -⟩
        · exact h a b (hsub.cons_cons a)
        · exact (List.cons.inj htail).1.symm
    · rw [if_neg hxy, List.nodup_cons, ih, DecisionTable.mem_dropRepeats]
      constructor
      · rintro ⟨hnew, h⟩ a b hsub
        rcases List.sublist_cons_iff.mp hsub with hsub | ⟨tail, htail, hsub⟩
        · exact h a b hsub
        · cases htail
          exact absurd (hsub.subset (List.mem_cons_of_mem _ List.mem_cons_self)) hnew
      · refine fun h => ⟨fun hx => ?_, fun a b hsub => h a b (hsub.cons x)⟩
        have hrest := (List.mem_cons.mp hx).resolve_left hxy
        exact hxy (h x y (((List.singleton_sublist.mpr hrest).cons_cons y).cons_cons x))

/-- **Repeats after a sort.**  None are left exactly when between two equal elements no different
one of their key stood. -/
theorem nodup_dropRepeats_sortBy_iff (key : α → κ) (l : List α) :
    (DecisionTable.dropRepeats (sortBy key l)).Nodup ↔
      ∀ a b, key a = key b → [a, b, a].Sublist l → a = b := by
  rw [nodup_dropRepeats_iff]
  simp only [between_sortBy_iff, and_imp]

end Whatspec.Library.StableSort

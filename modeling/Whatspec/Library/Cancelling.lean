import Mathlib.Algebra.Group.Nat.Even
import Mathlib.Data.List.Duplicate
import Mathlib.Data.List.Perm.Basic

/-!
# Slots that a second opinion empties

A slot is filled by the first value stated for it and emptied by one that differs from what it
holds.  An empty slot does not remember why it is empty, so the next value fills it again.

* `settle` is one statement and `run` a list of them;
* `run_of_agree`: values that agree are kept;
* `exists_clash`: values that do not agree clash somewhere, in any order;
* **`run_perm_eq_none_iff`**: disagreeing values leave the slot empty in every order exactly when
  no value is stated twice and their number is even.
-/

namespace Whatspec.Library.Cancelling

open scoped List

variable {α β : Type*} [DecidableEq α]

/-- One value stated for a slot. -/
def settle (slot : Option α) (v : α) : Option α :=
  match slot with
  | none => some v
  | some a => if a = v then some a else none

/-- Values stated one after the other. -/
def run (slot : Option α) (values : List α) : Option α := values.foldl settle slot

@[simp] theorem run_nil (slot : Option α) : run slot [] = slot := rfl

@[simp] theorem run_cons (slot : Option α) (v : α) (values : List α) :
    run slot (v :: values) = run (settle slot v) values := rfl

theorem run_append (slot : Option α) (front back : List α) :
    run slot (front ++ back) = run (run slot front) back := List.foldl_append

@[simp] theorem settle_none (v : α) : settle none v = some v := rfl

@[simp] theorem settle_self (v : α) : settle (some v) v = some v := if_pos rfl

theorem settle_of_ne {a v : α} (h : a ≠ v) : settle (some a) v = none := if_neg h

/-- Values of which no two differ. -/
def Agree (values : List α) : Prop := ∀ v ∈ values, ∀ w ∈ values, v = w

/-! ### Values that agree -/

theorem run_some_of_agree {v : α} :
    ∀ {values : List α}, (∀ w ∈ values, w = v) → run (some v) values = some v
  | [], _ => rfl
  | w :: rest, h => by
    obtain rfl : w = v := h w List.mem_cons_self
    rw [run_cons, settle_self]
    exact run_some_of_agree fun x hx => h x (List.mem_cons_of_mem w hx)

/-- Values that agree are kept. -/
theorem run_of_agree {values : List α} (h : Agree values) {v : α} (hv : v ∈ values) :
    run none values = some v := by
  cases values with
  | nil => exact absurd hv List.not_mem_nil
  | cons w rest =>
    have hall : ∀ x ∈ w :: rest, x = v := fun x hx => h x hx v hv
    obtain rfl : w = v := hall w List.mem_cons_self
    rw [run_cons, settle_none]
    exact run_some_of_agree fun x hx => hall x (List.mem_cons_of_mem w hx)

/-! ### Values that clash -/

theorem exists_clash_some {v : α} :
    ∀ {values : List α}, (∃ w ∈ values, w ≠ v) →
      ∃ front x back, values = front ++ x :: back ∧ run (some v) front = some v ∧ v ≠ x
  | [], h => by obtain ⟨w, hw, -⟩ := h; exact absurd hw List.not_mem_nil
  | w :: rest, h => by
    by_cases hwv : w = v
    · subst hwv
      have hrest : ∃ x ∈ rest, x ≠ w := by
        obtain ⟨x, hx, hne⟩ := h
        exact ⟨x, (List.mem_cons.mp hx).resolve_left hne, hne⟩
      obtain ⟨front, x, back, rfl, hfront, hne⟩ := exists_clash_some hrest
      exact ⟨w :: front, x, back, rfl, by rw [run_cons, settle_self, hfront], hne⟩
    · exact ⟨[], w, rest, rfl, rfl, Ne.symm hwv⟩

/-- Values that do not agree meet a slot that holds another one, in whatever order they come. -/
theorem exists_clash {values : List α} {v w : α} (hv : v ∈ values) (hw : w ∈ values)
    (hne : v ≠ w) :
    ∃ front x back a, values = front ++ x :: back ∧ run none front = some a ∧ a ≠ x := by
  cases values with
  | nil => exact absurd hv List.not_mem_nil
  | cons a rest =>
    have hother : ∃ x ∈ rest, x ≠ a := by
      by_cases hva : v = a
      · exact ⟨w, (List.mem_cons.mp hw).resolve_left fun h => hne (hva.trans h.symm),
          fun h => hne (hva.trans h.symm)⟩
      · exact ⟨v, (List.mem_cons.mp hv).resolve_left hva, hva⟩
    obtain ⟨front, x, back, rfl, hfront, hax⟩ := exists_clash_some hother
    exact ⟨a :: front, x, back, a, rfl, by rw [run_cons, settle_none, hfront], hax⟩

/-! ### Values that cancel -/

/-- Pairwise different values cancel two by two. -/
theorem run_eq_none_iff_even :
    ∀ {values : List α}, values.Nodup → (run none values = none ↔ Even values.length)
  | [], _ => by simp
  | [_], _ => by simp
  | v :: w :: rest, h => by
    have hvw : v ≠ w := fun e => (List.nodup_cons.mp h).1 (e ▸ List.mem_cons_self)
    have hrest : rest.Nodup := (List.nodup_cons.mp (List.nodup_cons.mp h).2).2
    rw [run_cons, settle_none, run_cons, settle_of_ne hvw, run_eq_none_iff_even hrest]
    simp only [List.length_cons, Nat.even_add_one, not_not]

/-- A value stated twice in a row, after a different one, stands. -/
theorem run_twice (front : List α) {a b : α} (hab : a ≠ b) :
    run none (front ++ [a, b, b]) = some b := by
  rw [run_append, run_cons, run_cons, run_cons, run_nil]
  cases hslot : run none front with
  | none => rw [settle_none, settle_of_ne hab, settle_none]
  | some c =>
    by_cases hca : c = a
    · rw [hca, settle_self, settle_of_ne hab, settle_none]
    · rw [settle_of_ne hca, settle_none, settle_self]

theorem exists_perm_of_not_nodup {values : List α} (h : ¬ values.Nodup) (hdis : ¬ Agree values) :
    ∃ front a b, a ≠ b ∧ (front ++ [a, b, b]).Perm values := by
  obtain ⟨b, hb⟩ := List.exists_duplicate_iff_not_nodup.mpr h
  obtain ⟨others, hothers⟩ := (List.duplicate_iff_sublist.mp hb).exists_perm_append
  have ha : ∃ a ∈ others, a ≠ b := by
    by_contra hnone
    push Not at hnone
    refine hdis fun v hv w hw => ?_
    have hall : ∀ x ∈ values, x = b := by
      intro x hx
      rcases List.mem_append.mp (hothers.mem_iff.mp hx) with hx | hx
      · simpa using hx
      · exact hnone x hx
    exact (hall v hv).trans (hall w hw).symm
  obtain ⟨a, ha, hab⟩ := ha
  refine ⟨others.erase a, a, b, hab, ?_⟩
  calc others.erase a ++ [a, b, b]
    _ = (others.erase a ++ [a]) ++ [b, b] := (List.append_assoc _ [a] [b, b]).symm
    _ ~ others ++ [b, b] :=
      ((List.perm_append_singleton a _).trans (List.perm_cons_erase ha).symm).append_right _
    _ ~ [b, b] ++ others := List.perm_append_comm
    _ ~ values := hothers.symm

/-- **Which disagreements show in every order.**  A slot for which two values disagree is left
empty by every order of its values exactly when none of them is stated twice and their number is
even. -/
theorem run_perm_eq_none_iff {values : List α} (hdis : ¬ Agree values) :
    (∀ order : List α, order.Perm values → run none order = none) ↔
      values.Nodup ∧ Even values.length := by
  constructor
  · intro h
    by_cases hnodup : values.Nodup
    · exact ⟨hnodup, (run_eq_none_iff_even hnodup).mp (h values (List.Perm.refl _))⟩
    · obtain ⟨front, a, b, hab, hperm⟩ := exists_perm_of_not_nodup hnodup hdis
      have hnone := h _ hperm
      rw [run_twice front hab] at hnone
      cases hnone
  · rintro ⟨hnodup, heven⟩ order hperm
    exact (run_eq_none_iff_even (hperm.nodup_iff.mpr hnodup)).mpr (hperm.length_eq ▸ heven)

omit [DecidableEq α] in
/-- An order of the values read off a list is an order of the list. -/
theorem exists_perm_filterMap (read : β → Option α) :
    ∀ {values : List α} {items : List β}, values.Perm (items.filterMap read) →
      ∃ order : List β, order.Perm items ∧ order.filterMap read = values
  | [], items, h => ⟨items, List.Perm.refl _, (h.symm.eq_nil)⟩
  | v :: rest, items, h => by
    have hv : v ∈ items.filterMap read := h.mem_iff.mp List.mem_cons_self
    obtain ⟨x, hx, hread⟩ := List.mem_filterMap.mp hv
    obtain ⟨before, after, rfl⟩ := List.append_of_mem hx
    have hmiddle : (before ++ x :: after).Perm (x :: (before ++ after)) := List.perm_middle
    have hrest : rest.Perm ((before ++ after).filterMap read) := by
      have := h.trans (hmiddle.filterMap read)
      rw [List.filterMap_cons_some hread] at this
      exact (List.perm_cons v).mp this
    obtain ⟨order, horder, heq⟩ := exists_perm_filterMap read hrest
    exact ⟨x :: order, (horder.cons x).trans hmiddle.symm,
      by rw [List.filterMap_cons_some hread, heq]⟩

end Whatspec.Library.Cancelling

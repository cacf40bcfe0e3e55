import Mathlib.Data.List.Basic
import Whatspec.Library.SortedMap

/-!
# Iterating over a hash map

A hash map yields its entries in an order of its own, the same one as long as no key is
added.  `HashOrder` is such an order: some arrangement of whatever keys there are.  A program
that iterates over hash maps takes one as a parameter, and what it computes is independent of
hashing when every order gives the same.

* `perm_entries`: an order loses and repeats nothing.
-/

namespace Whatspec.Library

/-- An order in which a hash map yields its keys. -/
structure HashOrder (κ : Type*) where
  arrange : List κ → List κ
  arrange_perm : ∀ keys, (arrange keys).Perm keys

namespace HashOrder

open SortedMap

variable {κ α : Type*}

/-- The order of the keys themselves. -/
def increasing : HashOrder κ := ⟨id, fun _ => List.Perm.refl _⟩

/-- The opposite order. -/
def decreasing : HashOrder κ := ⟨List.reverse, fun keys => keys.reverse_perm⟩

variable [LinearOrder κ]

/-- The entries of a map in an order. -/
def entries (order : HashOrder κ) (m : List (κ × α)) : List (κ × α) :=
  (order.arrange (m.map Prod.fst)).filterMap fun k => (get m k).map fun v => (k, v)

theorem perm_entries (order : HashOrder κ) {m : List (κ × α)} (h : Sorted m) :
    (order.entries m).Perm m := by
  have hkeys : (m.map Prod.fst).filterMap (fun k => (get m k).map fun v => (k, v)) = m := by
    rw [List.filterMap_map]
    have hself : ∀ e ∈ m, ((fun k => (get m k).map fun v => (k, v)) ∘ Prod.fst) e = some e := by
      intro e he
      show (get m e.1).map (fun v => (e.1, v)) = some e
      rw [get_of_mem h he]
      rfl
    rw [List.filterMap_congr hself, List.filterMap_some]
  have hperm := (order.arrange_perm (m.map Prod.fst)).filterMap
    fun k => (get m k).map fun v => (k, v)
  rw [hkeys] at hperm
  exact hperm

theorem mem_entries (order : HashOrder κ) {m : List (κ × α)} (h : Sorted m) {e : κ × α} :
    e ∈ order.entries m ↔ e ∈ m :=
  (order.perm_entries h).mem_iff

end HashOrder

end Whatspec.Library

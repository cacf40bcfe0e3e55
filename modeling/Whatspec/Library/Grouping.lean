import Whatspec.Library.SortedMap
import Whatspec.Library.SortedSet

/-!
# Maps from a key to a set of values

A map whose values are ordered sets, built by adding one pair at a time.  `mem_members` reads
it, and `group_congr` says that it depends on which pairs were added and on nothing else: a
pair may come twice, and the pairs in any order.
-/

namespace Whatspec.Library.Grouping

open SortedMap

variable {κ α : Type*} [LinearOrder κ] [LinearOrder α]

/-- The set under a key; an absent key has the empty one. -/
def members (m : List (κ × List α)) (k : κ) : List α := (get m k).getD []

/-- Add a value to the set under a key. -/
def add (m : List (κ × List α)) (p : κ × α) : List (κ × List α) :=
  insert p.1 (SortedSet.insert p.2 (members m p.1)) m

/-- The map of a list of pairs. -/
def group (pairs : List (κ × α)) : List (κ × List α) := pairs.foldl add []

theorem get_add (m : List (κ × List α)) (p : κ × α) (k : κ) :
    get (add m p) k =
      if k = p.1 then some (SortedSet.insert p.2 (members m p.1)) else get m k :=
  get_insert p.1 k _ m

/-- What a map of sets keeps while pairs are added: ordered throughout, no empty set. -/
def WellFormed (m : List (κ × List α)) : Prop :=
  Sorted m ∧ ∀ k s, get m k = some s → SortedSet.Sorted s ∧ s ≠ []

theorem wellFormed_nil : WellFormed ([] : List (κ × List α)) :=
  ⟨List.Pairwise.nil, fun _ _ h => nomatch h⟩

theorem sorted_members {m : List (κ × List α)} (h : WellFormed m) (k : κ) :
    SortedSet.Sorted (members m k) := by
  unfold members
  cases hk : get m k with
  | none => exact List.Pairwise.nil
  | some s => exact (h.2 k s hk).1

theorem wellFormed_add {m : List (κ × List α)} (h : WellFormed m) (p : κ × α) :
    WellFormed (add m p) := by
  refine ⟨sorted_insert p.1 _ h.1, fun k s hs => ?_⟩
  rw [get_add] at hs
  by_cases hk : k = p.1
  · rw [if_pos hk] at hs
    cases hs
    refine ⟨SortedSet.sorted_insert p.2 (sorted_members h p.1), fun hnil => ?_⟩
    have hmem : p.2 ∈ SortedSet.insert p.2 (members m p.1) :=
      SortedSet.mem_insert.mpr (Or.inl rfl)
    rw [hnil] at hmem
    exact List.not_mem_nil hmem
  · rw [if_neg hk] at hs
    exact h.2 k s hs

theorem mem_members_add {m : List (κ × List α)} {p : κ × α} {k : κ} {x : α} :
    x ∈ members (add m p) k ↔ (k, x) = p ∨ x ∈ members m k := by
  rw [members, get_add]
  by_cases hk : k = p.1
  · subst hk
    rw [if_pos rfl, Option.getD_some, SortedSet.mem_insert]
    have hpair : (p.1, x) = p ↔ x = p.2 :=
      ⟨fun h => congrArg Prod.snd h, fun h => by rw [h]⟩
    rw [hpair]
  · rw [if_neg hk]
    have hpair : (k, x) ≠ p := fun h => hk (congrArg Prod.fst h)
    simp only [hpair, false_or]
    rfl

/-- Adding pairs one after the other: the map stays well formed and gains just these. -/
theorem foldl_add (pairs : List (κ × α)) {m : List (κ × List α)} (h : WellFormed m) :
    WellFormed (pairs.foldl add m) ∧
      ∀ k x, x ∈ members (pairs.foldl add m) k ↔ (k, x) ∈ pairs ∨ x ∈ members m k := by
  induction pairs generalizing m with
  | nil => exact ⟨h, fun k x => by simp⟩
  | cons p pairs ih =>
      obtain ⟨hwf, hmem⟩ := ih (wellFormed_add h p)
      refine ⟨hwf, fun k x => ?_⟩
      rw [List.foldl_cons, hmem k x, mem_members_add, List.mem_cons]
      constructor
      · intro hx
        cases hx with
        | inl hp => exact Or.inl (Or.inr hp)
        | inr hrest => exact hrest.imp Or.inl id
      · intro hx
        cases hx with
        | inl hp => exact hp.elim (fun heq => Or.inr (Or.inl heq)) Or.inl
        | inr hold => exact Or.inr (Or.inr hold)

theorem wellFormed_group (pairs : List (κ × α)) : WellFormed (group pairs) :=
  (foldl_add pairs wellFormed_nil).1

@[simp] theorem mem_members_group {pairs : List (κ × α)} {k : κ} {x : α} :
    x ∈ members (group pairs) k ↔ (k, x) ∈ pairs := by
  rw [group, (foldl_add pairs wellFormed_nil).2 k x]
  simp [members]

/-- A key is there exactly when it has a member. -/
theorem mem_keys_group {pairs : List (κ × α)} {k : κ} :
    k ∈ (group pairs).map Prod.fst ↔ ∃ x, (k, x) ∈ pairs := by
  obtain ⟨hsorted, hsets⟩ := wellFormed_group pairs
  constructor
  · intro hk
    obtain ⟨⟨k', s⟩, hmem, rfl⟩ := List.mem_map.mp hk
    have hget := get_of_mem hsorted hmem
    obtain ⟨x, hx⟩ := List.exists_mem_of_ne_nil s (hsets k' s hget).2
    refine ⟨x, mem_members_group.mp ?_⟩
    rw [members, hget]
    exact hx
  · intro h
    obtain ⟨x, hx⟩ := h
    have hmem := mem_members_group.mpr hx
    rw [members] at hmem
    cases hget : get (group pairs) k with
    | none =>
        rw [hget] at hmem
        exact absurd hmem List.not_mem_nil
    | some s => exact mem_keys_of_get hget

/-- A key has one value in a map of sets when its pairs all have it. -/
theorem get_group_eq_singleton {pairs : List (κ × α)} {k : κ} {x : α} :
    get (group pairs) k = some [x] ↔ ∀ y, (k, y) ∈ pairs ↔ y = x := by
  have hwf := wellFormed_group pairs
  constructor
  · intro hget y
    rw [← mem_members_group, members, hget, Option.getD_some, List.mem_singleton]
  · intro h
    have hmembers : members (group pairs) k = [x] := by
      refine SortedSet.ext_of_sorted (sorted_members hwf k) (List.pairwise_singleton ..) ?_
      intro y
      rw [mem_members_group, h, List.mem_singleton]
    rw [members] at hmembers
    cases hget : get (group pairs) k with
    | none =>
      rw [hget] at hmembers
      cases hmembers
    | some s =>
      rw [hget, Option.getD_some] at hmembers
      rw [hmembers]

/-- **Only which pairs there are matters.** -/
theorem group_congr {pairs pairs' : List (κ × α)} (h : ∀ p, p ∈ pairs ↔ p ∈ pairs') :
    group pairs = group pairs' := by
  have hmembers : ∀ k, members (group pairs) k = members (group pairs') k := fun k =>
    SortedSet.ext_of_sorted (sorted_members (wellFormed_group pairs) k)
      (sorted_members (wellFormed_group pairs') k)
      fun x => by rw [mem_members_group, mem_members_group, h]
  -- An absent key and the empty set read alike, but no set of a grouping is empty.
  have hget : ∀ (ps : List (κ × α)) k, get (group ps) k =
      if members (group ps) k = [] then none else some (members (group ps) k) := by
    intro ps k
    rw [members]
    cases hk : get (group ps) k with
    | none => rfl
    | some s => exact (if_neg ((wellFormed_group ps).2 k s hk).2).symm
  refine ext_of_sorted (wellFormed_group pairs).1 (wellFormed_group pairs').1 fun k => ?_
  rw [hget, hget, hmembers k]

end Whatspec.Library.Grouping

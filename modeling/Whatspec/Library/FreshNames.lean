import Mathlib.Data.List.Nodup

/-!
# Names that are still free

A name is wanted, some names are taken.  The candidates are numbered from 1 and the first free one
is used.

* `firstFree` finds it, and `firstFree_not_mem` says it is free, as long as the candidates differ
  from one another;
* `allot` names several things one after the other, each apart from those before it; a first
  candidate is taken in the end, by the thing it was for or by one before (`first_mem_allot`).
-/

namespace Whatspec.Library

variable {α : Type} [DecidableEq α]

/-- The first of `name n`, `name (n + 1)`, … that is not taken, with so many tries. -/
def firstFreeFrom (taken : List α) (name : ℕ → α) : ℕ → ℕ → α
  | 0, n => name n
  | tries + 1, n =>
    if name n ∈ taken then firstFreeFrom taken name tries (n + 1) else name n

/-- The first of `name 1`, `name 2`, … that is not taken. -/
def firstFree (taken : List α) (name : ℕ → α) : α := firstFreeFrom taken name taken.length 1

theorem firstFreeFrom_not_mem {taken : List α} {name : ℕ → α} :
    ∀ (tries n : ℕ), (∃ k, k ≤ tries ∧ name (n + k) ∉ taken) →
      firstFreeFrom taken name tries n ∉ taken
  | 0, n, ⟨k, hk, hfree⟩ => by
    obtain rfl : k = 0 := by omega
    exact hfree
  | tries + 1, n, ⟨k, hk, hfree⟩ => by
    unfold firstFreeFrom
    by_cases hmem : name n ∈ taken
    · rw [if_pos hmem]
      have hpos : k ≠ 0 := by
        rintro rfl
        exact hfree hmem
      refine firstFreeFrom_not_mem tries (n + 1) ⟨k - 1, by omega, ?_⟩
      rwa [show n + 1 + (k - 1) = n + k by omega]
    · rw [if_neg hmem]
      exact hmem

/-- Among one more candidates than there are taken names, one is free. -/
theorem exists_free {taken : List α} {name : ℕ → α} (hname : Function.Injective name) (n : ℕ) :
    ∃ k, k ≤ taken.length ∧ name (n + k) ∉ taken := by
  by_contra hall
  have hsub : (List.range (taken.length + 1)).map (fun k => name (n + k)) ⊆ taken := by
    intro x hx
    obtain ⟨k, hk, rfl⟩ := List.mem_map.mp hx
    by_contra hfree
    exact hall ⟨k, by have := List.mem_range.mp hk; omega, hfree⟩
  have hnodup : ((List.range (taken.length + 1)).map fun k => name (n + k)).Nodup :=
    List.Nodup.map (fun i j hij => by have := hname hij; omega) List.nodup_range
  have hlen := hnodup.length_le_of_subset hsub
  rw [List.length_map, List.length_range] at hlen
  omega

/-- Among so many different candidates one is free, when fewer of the taken names can be one. -/
theorem exists_free_of_countP_lt (name : ℕ → α) {taken : List α} {k : ℕ} {p : α → Bool}
    (hname : ∀ i < k, ∀ j < k, name i = name j → i = j) (hp : ∀ i < k, p (name i) = true)
    (hcount : taken.countP p < k) : ∃ i < k, name i ∉ taken := by
  by_contra hall
  have hsub : (List.range k).map name ⊆ taken.filter p := by
    intro x hx
    obtain ⟨i, hi, rfl⟩ := List.mem_map.mp hx
    rw [List.mem_range] at hi
    rw [List.mem_filter]
    by_contra hfree
    exact hall ⟨i, hi, fun hmem => hfree ⟨hmem, hp i hi⟩⟩
  have hnodup : ((List.range k).map name).Nodup := by
    refine List.Nodup.map_on (fun i hi j hj hij => ?_) List.nodup_range
    exact hname i (List.mem_range.mp hi) j (List.mem_range.mp hj) hij
  have hlen := hnodup.length_le_of_subset hsub
  rw [List.length_map, List.length_range, ← List.countP_eq_length_filter] at hlen
  omega

theorem firstFree_not_mem {taken : List α} {name : ℕ → α} (hname : Function.Injective name) :
    firstFree taken name ∉ taken :=
  firstFreeFrom_not_mem _ 1 (exists_free hname 1)

/-- Fresh names, one after the other. -/
def allot : List α → List (ℕ → α) → List α
  | _, [] => []
  | taken, name :: names =>
    let x := firstFree taken name
    x :: allot (taken ++ [x]) names

theorem length_allot : ∀ (taken : List α) (names : List (ℕ → α)),
    (allot taken names).length = names.length
  | _, [] => rfl
  | _, _ :: names => congrArg (· + 1) (length_allot _ names)

theorem not_mem_of_mem_allot : ∀ {taken : List α} {names : List (ℕ → α)},
    (∀ name ∈ names, Function.Injective name) → ∀ x ∈ allot taken names, x ∉ taken
  | _, [], _, x, hx => nomatch hx
  | taken, name :: names, h, x, hx => by
    rw [List.forall_mem_cons] at h
    cases hx with
    | head => exact firstFree_not_mem h.1
    | tail _ hx =>
      intro hmem
      exact not_mem_of_mem_allot h.2 x hx (List.mem_append_left _ hmem)

theorem nodup_allot : ∀ {taken : List α} {names : List (ℕ → α)},
    (∀ name ∈ names, Function.Injective name) → (allot taken names).Nodup
  | _, [], _ => List.nodup_nil
  | _, _ :: _, h => by
    rw [List.forall_mem_cons] at h
    refine List.nodup_cons.mpr ⟨fun hmem => ?_, nodup_allot h.2⟩
    exact not_mem_of_mem_allot h.2 _ hmem (List.mem_append_right _ List.mem_cons_self)

/-- A fresh name is one of the candidates, from the first on. -/
theorem exists_firstFreeFrom (taken : List α) (name : ℕ → α) :
    ∀ tries n : ℕ, ∃ k, n ≤ k ∧ firstFreeFrom taken name tries n = name k
  | 0, n => ⟨n, Nat.le_refl n, rfl⟩
  | tries + 1, n => by
    unfold firstFreeFrom
    split_ifs
    · obtain ⟨k, hk, heq⟩ := exists_firstFreeFrom taken name tries (n + 1)
      exact ⟨k, by omega, heq⟩
    · exact ⟨n, Nat.le_refl n, rfl⟩

theorem exists_of_mem_allot : ∀ {taken : List α} {names : List (ℕ → α)} {x : α},
    x ∈ allot taken names → ∃ name ∈ names, ∃ k, 1 ≤ k ∧ x = name k
  | taken, name :: names, x, hx => by
    cases hx with
    | head =>
      obtain ⟨k, hk, heq⟩ := exists_firstFreeFrom taken name taken.length 1
      exact ⟨name, List.mem_cons_self, k, hk, heq⟩
    | tail _ hx =>
      obtain ⟨name', hname', k, hk, heq⟩ := exists_of_mem_allot hx
      exact ⟨name', List.mem_cons_of_mem _ hname', k, hk, heq⟩

theorem firstFree_of_not_mem {taken : List α} {name : ℕ → α} (h : name 1 ∉ taken) :
    firstFree taken name = name 1 := by
  unfold firstFree
  cases taken.length with
  | zero => rfl
  | succ n =>
    unfold firstFreeFrom
    rw [if_neg h]

/-- Every first candidate is taken in the end. -/
theorem first_mem_allot : ∀ (taken : List α) (names : List (ℕ → α)), ∀ name ∈ names,
    name 1 ∈ taken ∨ name 1 ∈ allot taken names
  | taken, name :: names, name', h => by
    rw [allot]
    cases h with
    | head =>
      by_cases htaken : name 1 ∈ taken
      · exact Or.inl htaken
      · rw [firstFree_of_not_mem htaken]
        exact Or.inr List.mem_cons_self
    | tail _ h =>
      obtain hmem | hmem := first_mem_allot (taken ++ [firstFree taken name]) names name' h
      · obtain hmem | hmem := List.mem_append.mp hmem
        · exact Or.inl hmem
        · rw [List.mem_singleton.mp hmem]
          exact Or.inr List.mem_cons_self
      · exact Or.inr (List.mem_cons_of_mem _ hmem)

end Whatspec.Library

import Whatspec.Library.SortedSet

/-!
# Connected components by depth-first search

A graph is given by the neighbours of each node.  `walk` is the search with an explicit
stack: it pops a node, skips it when it was visited, and otherwise pushes its neighbours.
`components` starts one walk at every node that no earlier walk has visited.

* `walk_spec` is what a walk with enough fuel has done, and `effort` is enough;
* `mem_component_iff`: in a graph whose edges go both ways, a component is what can be
  reached from the node it started at;
* `exists_component`, `components_disjoint`: every start is in one component and only one.
-/

namespace Whatspec.Library.Component

variable {α : Type*} [LinearOrder α] (adj : α → List α)

/-- `b` can be reached from `a`. -/
def Reach : α → α → Prop := Relation.ReflTransGen fun a b => b ∈ adj a

/-- The nodes visited by all walks so far, and those found by the present one. -/
structure Walk (α : Type*) where
  visited : List α
  found : List α

/-- Pop, skip or visit, push the neighbours not visited yet. -/
def walk : ℕ → List α → Walk α → Walk α
  | 0, _, w => w
  | _ + 1, [], w => w
  | fuel + 1, n :: stack, w =>
      if n ∈ w.visited then walk fuel stack w
      else
        walk fuel (((adj n).filter (· ∉ SortedSet.insert n w.visited)).reverse ++ stack)
          ⟨SortedSet.insert n w.visited, SortedSet.insert n w.found⟩

/-- How many neighbours the unvisited ones among the nodes have still to push. -/
def work (visited : List α) : List α → ℕ
  | [] => 0
  | x :: xs => (if x ∈ visited then 0 else (adj x).length) + work visited xs

/-- Enough pops for one walk from one node. -/
def effort (nodes : List α) : ℕ := 1 + work adj [] nodes

/-- One walk from every start that is not visited when its turn comes. -/
def components (nodes : List α) : List α → List α → List (List α)
  | [], _ => []
  | s :: starts, visited =>
      if s ∈ visited then components nodes starts visited
      else
        (walk adj (effort adj nodes) [s] ⟨visited, []⟩).found ::
          components nodes starts (walk adj (effort adj nodes) [s] ⟨visited, []⟩).visited

variable {adj}

theorem work_cons (visited : List α) (x : α) (xs : List α) :
    work adj visited (x :: xs) =
      (if x ∈ visited then 0 else (adj x).length) + work adj visited xs := rfl

theorem walk_cons (fuel : ℕ) (n : α) (stack : List α) (w : Walk α) :
    walk adj (fuel + 1) (n :: stack) w =
      if n ∈ w.visited then walk adj fuel stack w
      else
        walk adj fuel (((adj n).filter (· ∉ SortedSet.insert n w.visited)).reverse ++ stack)
          ⟨SortedSet.insert n w.visited, SortedSet.insert n w.found⟩ := rfl

theorem components_cons (nodes : List α) (s : α) (starts visited : List α) :
    components adj nodes (s :: starts) visited =
      if s ∈ visited then components adj nodes starts visited
      else
        (walk adj (effort adj nodes) [s] ⟨visited, []⟩).found ::
          components adj nodes starts (walk adj (effort adj nodes) [s] ⟨visited, []⟩).visited := rfl

/-! ### One walk -/

theorem work_anti {visited visited' : List α} (h : ∀ x ∈ visited, x ∈ visited')
    (nodes : List α) : work adj visited' nodes ≤ work adj visited nodes := by
  induction nodes with
  | nil => exact le_refl _
  | cons x xs ih =>
      rw [work_cons, work_cons]
      by_cases hx : x ∈ visited
      · rw [if_pos hx, if_pos (h x hx)]
        omega
      · rw [if_neg hx]
        split_ifs <;> omega

/-- Visiting a node takes its neighbours out of the pending work. -/
theorem work_insert {nodes : List α} {n : α} {visited : List α} (hnew : n ∉ visited)
    (hnode : adj n ≠ [] → n ∈ nodes) :
    (adj n).length + work adj (SortedSet.insert n visited) nodes ≤ work adj visited nodes := by
  have hanti : ∀ xs, work adj (SortedSet.insert n visited) xs ≤ work adj visited xs :=
    work_anti fun x hx => SortedSet.mem_insert.mpr (Or.inr hx)
  by_cases hedges : adj n = []
  · rw [hedges, List.length_nil, Nat.zero_add]
    exact hanti nodes
  have hmem := hnode hedges
  clear hnode
  induction nodes with
  | nil => exact absurd hmem List.not_mem_nil
  | cons x xs ih =>
      rw [work_cons, work_cons]
      by_cases hxn : x = n
      · subst hxn
        have hxs := hanti xs
        rw [if_pos (SortedSet.mem_insert.mpr (Or.inl rfl)), if_neg hnew]
        omega
      · have hrest := ih ((List.mem_cons.mp hmem).resolve_left (Ne.symm hxn))
        by_cases hx : x ∈ visited
        · rw [if_pos hx, if_pos (SortedSet.mem_insert.mpr (Or.inr hx))]
          omega
        · rw [if_neg hx, if_neg fun h => (SortedSet.mem_insert.mp h).elim hxn hx]
          omega

/-- What a walk from a stack has done when it is over. -/
structure Walked (adj : α → List α) (stack : List α) (w w' : Walk α) : Prop where
  keeps : ∀ x ∈ w.visited, x ∈ w'.visited
  visits : ∀ x ∈ stack, x ∈ w'.visited
  reaches : ∀ x ∈ w'.visited, x ∈ w.visited ∨ ∃ s ∈ stack, Reach adj s x
  closed : (∀ v ∈ w.visited, ∀ m ∈ adj v, m ∈ w.visited ∨ m ∈ stack) →
    ∀ v ∈ w'.visited, ∀ m ∈ adj v, m ∈ w'.visited
  found : ∀ x, x ∈ w'.found ↔ x ∈ w.found ∨ x ∈ w'.visited ∧ x ∉ w.visited
  sorted : SortedSet.Sorted w.found → SortedSet.Sorted w'.found

/-- **A walk with fuel for its stack and its pending neighbours runs to the end.** -/
theorem walk_spec {nodes : List α} (hnodes : ∀ n, adj n ≠ [] → n ∈ nodes) :
    ∀ (fuel : ℕ) (stack : List α) (w : Walk α),
      stack.length + work adj w.visited nodes ≤ fuel →
        Walked adj stack w (walk adj fuel stack w) := by
  intro fuel
  induction fuel with
  | zero =>
      intro stack w hfuel
      have hnil : stack = [] := List.eq_nil_of_length_eq_zero (by omega)
      subst hnil
      exact ⟨fun x hx => hx, fun x hx => absurd hx List.not_mem_nil, fun x hx => Or.inl hx,
        fun h v hv m hm => (h v hv m hm).resolve_right List.not_mem_nil,
        fun x => ⟨Or.inl, fun h => h.elim id fun h => absurd h.1 h.2⟩, fun h => h⟩
  | succ fuel ih =>
      intro stack w hfuel
      cases stack with
      | nil =>
          exact ⟨fun x hx => hx, fun x hx => absurd hx List.not_mem_nil, fun x hx => Or.inl hx,
            fun h v hv m hm => (h v hv m hm).resolve_right List.not_mem_nil,
            fun x => ⟨Or.inl, fun h => h.elim id fun h => absurd h.1 h.2⟩, fun h => h⟩
      | cons n stack =>
          rw [walk_cons]
          by_cases hn : n ∈ w.visited
          · rw [if_pos hn]
            have hw := ih stack w (by rw [List.length_cons] at hfuel; omega)
            refine ⟨hw.keeps, fun x hx => ?_, fun x hx => ?_, fun h => hw.closed fun v hv m hm => ?_,
              hw.found, hw.sorted⟩
            · cases List.mem_cons.mp hx with
              | inl heq => exact heq ▸ hw.keeps n hn
              | inr hrest => exact hw.visits x hrest
            · refine (hw.reaches x hx).imp id fun hs => ?_
              obtain ⟨s, hs, hreach⟩ := hs
              exact ⟨s, List.mem_cons_of_mem n hs, hreach⟩
            · cases h v hv m hm with
              | inl hold => exact Or.inl hold
              | inr hstack =>
                  cases List.mem_cons.mp hstack with
                  | inl heq => exact Or.inl (heq ▸ hn)
                  | inr hrest => exact Or.inr hrest
          · rw [if_neg hn]
            -- The new node leaves the pending work and its neighbours enter the stack.
            have hwork := work_insert hn (hnodes n)
            have hlen : ((adj n).filter (· ∉ SortedSet.insert n w.visited)).length ≤
                (adj n).length := List.length_filter_le _ _
            have hw := ih (((adj n).filter (· ∉ SortedSet.insert n w.visited)).reverse ++ stack)
              ⟨SortedSet.insert n w.visited, SortedSet.insert n w.found⟩
              (by
                rw [List.length_append, List.length_reverse]
                rw [List.length_cons] at hfuel
                show _ + work adj (SortedSet.insert n w.visited) nodes ≤ fuel
                omega)
            have hpush : ∀ m ∈ adj n, m ∈ SortedSet.insert n w.visited ∨
                m ∈ ((adj n).filter (· ∉ SortedSet.insert n w.visited)).reverse ++ stack := by
              intro m hm
              by_cases hmv : m ∈ SortedSet.insert n w.visited
              · exact Or.inl hmv
              · refine Or.inr (List.mem_append_left stack ?_)
                exact List.mem_reverse.mpr (List.mem_filter.mpr ⟨hm, decide_eq_true hmv⟩)
            refine ⟨fun x hx => hw.keeps x (SortedSet.mem_insert.mpr (Or.inr hx)), fun x hx => ?_,
              fun x hx => ?_, fun h => hw.closed fun v hv m hm => ?_, fun x => ?_,
              fun h => hw.sorted (SortedSet.sorted_insert n h)⟩
            · cases List.mem_cons.mp hx with
              | inl heq => exact hw.keeps x (SortedSet.mem_insert.mpr (Or.inl heq))
              | inr hrest => exact hw.visits x (List.mem_append_right _ hrest)
            · cases hw.reaches x hx with
              | inl hold =>
                  cases SortedSet.mem_insert.mp hold with
                  | inl heq => exact Or.inr ⟨n, List.mem_cons_self, heq ▸ Relation.ReflTransGen.refl⟩
                  | inr hvisited => exact Or.inl hvisited
              | inr hs =>
                  obtain ⟨s, hs, hreach⟩ := hs
                  cases List.mem_append.mp hs with
                  | inl hpushed =>
                      have hadj := (List.mem_filter.mp (List.mem_reverse.mp hpushed)).1
                      exact Or.inr ⟨n, List.mem_cons_self, Relation.ReflTransGen.head hadj hreach⟩
                  | inr hrest => exact Or.inr ⟨s, List.mem_cons_of_mem n hrest, hreach⟩
            · cases SortedSet.mem_insert.mp hv with
              | inl heq => exact hpush m (heq ▸ hm)
              | inr hvisited =>
                  cases h v hvisited m hm with
                  | inl hold => exact Or.inl (SortedSet.mem_insert.mpr (Or.inr hold))
                  | inr hstack =>
                      cases List.mem_cons.mp hstack with
                      | inl heq => exact Or.inl (SortedSet.mem_insert.mpr (Or.inl heq))
                      | inr hrest => exact Or.inr (List.mem_append_right _ hrest)
            · rw [hw.found x, SortedSet.mem_insert, SortedSet.mem_insert]
              have hnv : n ∈ (walk adj fuel _ _).visited :=
                hw.keeps n (SortedSet.mem_insert.mpr (Or.inl rfl))
              by_cases hxn : x = n
              · subst hxn
                simp only [true_or, not_true, and_false, or_false, true_iff]
                exact Or.inr ⟨hnv, hn⟩
              · simp only [hxn, false_or]

/-- A walk from one unvisited node, in a closed set of visited ones. -/
theorem walk_from {nodes : List α} (hnodes : ∀ n, adj n ≠ [] → n ∈ nodes) (s : α)
    (visited : List α) :
    Walked adj [s] ⟨visited, []⟩ (walk adj (effort adj nodes) [s] ⟨visited, []⟩) := by
  refine walk_spec hnodes _ _ _ ?_
  have hwork : work adj visited nodes ≤ work adj [] nodes :=
    work_anti (fun x hx => absurd hx List.not_mem_nil) nodes
  rw [List.length_singleton, effort]
  show 1 + work adj visited nodes ≤ _
  omega

/-! ### All components -/

/-- No edge leads out. -/
def Closed (adj : α → List α) (visited : List α) : Prop :=
  ∀ v ∈ visited, ∀ m ∈ adj v, m ∈ visited

omit [LinearOrder α] in
theorem Closed.reach {visited : List α} (h : Closed adj visited) {a b : α} (ha : a ∈ visited)
    (hreach : Reach adj a b) : b ∈ visited := by
  induction hreach with
  | refl => exact ha
  | tail _ hedge ih => exact h _ ih _ hedge

omit [LinearOrder α] in
theorem reach_symm (hsymm : ∀ a b, b ∈ adj a → a ∈ adj b) {a b : α} (h : Reach adj a b) :
    Reach adj b a := by
  induction h with
  | refl => exact Relation.ReflTransGen.refl
  | tail _ hedge ih => exact Relation.ReflTransGen.head (hsymm _ _ hedge) ih

section Symmetric

variable {nodes : List α} (hnodes : ∀ n, adj n ≠ [] → n ∈ nodes)
  (hsymm : ∀ a b, b ∈ adj a → a ∈ adj b)

include hnodes in
theorem closed_walk {s : α} {visited : List α} (hclosed : Closed adj visited) :
    Closed adj (walk adj (effort adj nodes) [s] ⟨visited, []⟩).visited :=
  (walk_from hnodes s visited).closed fun v hv m hm => Or.inl (hclosed v hv m hm)

include hnodes hsymm in
/-- A walk from an unvisited node finds what can be reached from it. -/
theorem mem_found_iff {s : α} {visited : List α} (hclosed : Closed adj visited)
    (hs : s ∉ visited) (x : α) :
    x ∈ (walk adj (effort adj nodes) [s] ⟨visited, []⟩).found ↔ Reach adj s x := by
  have hw := walk_from hnodes s visited
  rw [hw.found x]
  constructor
  · intro hx
    cases hx with
    | inl hnil => exact absurd hnil List.not_mem_nil
    | inr hnew =>
        obtain ⟨t, ht, hreach⟩ := (hw.reaches x hnew.1).resolve_left hnew.2
        rwa [List.mem_singleton.mp ht] at hreach
  · intro hreach
    refine Or.inr ⟨?_, fun hx => ?_⟩
    · exact (closed_walk hnodes hclosed).reach (hw.visits s List.mem_cons_self) hreach
    · exact hs (hclosed.reach hx (reach_symm hsymm hreach))

include hnodes hsymm in
/-- **A component is what can be reached from the start it belongs to.** -/
theorem mem_component_iff (starts : List α) {visited : List α} (hclosed : Closed adj visited)
    {C : List α} (hC : C ∈ components adj nodes starts visited) :
    ∃ s ∈ starts, s ∉ visited ∧ (∀ x, x ∈ C ↔ Reach adj s x) ∧ SortedSet.Sorted C := by
  induction starts generalizing visited with
  | nil => exact absurd hC List.not_mem_nil
  | cons s starts ih =>
      rw [components_cons] at hC
      by_cases hs : s ∈ visited
      · rw [if_pos hs] at hC
        obtain ⟨t, ht, htv, hmem⟩ := ih hclosed hC
        exact ⟨t, List.mem_cons_of_mem s ht, htv, hmem⟩
      · rw [if_neg hs] at hC
        have hw := walk_from hnodes s visited
        cases List.mem_cons.mp hC with
        | inl heq =>
            subst heq
            exact ⟨s, List.mem_cons_self, hs, mem_found_iff hnodes hsymm hclosed hs,
              hw.sorted List.Pairwise.nil⟩
        | inr hrest =>
            obtain ⟨t, ht, htv, hmem⟩ := ih (closed_walk hnodes hclosed) hrest
            exact ⟨t, List.mem_cons_of_mem s ht, fun h => htv (hw.keeps t h), hmem⟩

include hnodes hsymm in
/-- Every start belongs to a component. -/
theorem exists_component (starts : List α) {visited : List α} (hclosed : Closed adj visited)
    {s : α} (hs : s ∈ starts) (hnew : s ∉ visited) :
    ∃ C ∈ components adj nodes starts visited, s ∈ C := by
  induction starts generalizing visited with
  | nil => exact absurd hs List.not_mem_nil
  | cons t starts ih =>
      rw [components_cons]
      by_cases ht : t ∈ visited
      · rw [if_pos ht]
        cases List.mem_cons.mp hs with
        | inl heq => exact absurd ht (heq ▸ hnew)
        | inr hrest => exact ih hclosed hrest hnew
      · rw [if_neg ht]
        by_cases hreach : Reach adj t s
        · exact ⟨_, List.mem_cons_self, (mem_found_iff hnodes hsymm hclosed ht s).mpr hreach⟩
        · have hw := walk_from hnodes t visited
          have hstill : s ∉ (walk adj (effort adj nodes) [t] ⟨visited, []⟩).visited := by
            intro hvisited
            have hfound := (hw.found s).mpr (Or.inr ⟨hvisited, hnew⟩)
            exact hreach ((mem_found_iff hnodes hsymm hclosed ht s).mp hfound)
          cases List.mem_cons.mp hs with
          | inl heq => exact absurd (heq ▸ Relation.ReflTransGen.refl) hreach
          | inr hrest =>
              obtain ⟨C, hC, hmem⟩ := ih (closed_walk hnodes hclosed) hrest hstill
              exact ⟨C, List.mem_cons_of_mem _ hC, hmem⟩

include hnodes hsymm in
/-- **No node is in two components.** -/
theorem components_disjoint (starts : List α) {visited : List α} (hclosed : Closed adj visited) :
    (components adj nodes starts visited).Pairwise fun C D => ∀ x ∈ C, x ∉ D := by
  induction starts generalizing visited with
  | nil => exact List.Pairwise.nil
  | cons s starts ih =>
      rw [components_cons]
      by_cases hs : s ∈ visited
      · rw [if_pos hs]
        exact ih hclosed
      · rw [if_neg hs]
        have hw := walk_from hnodes s visited
        have hclosed' := closed_walk hnodes (s := s) hclosed
        refine List.pairwise_cons.mpr ⟨fun D hD x hx hxD => ?_, ih hclosed'⟩
        -- The later component starts outside what the first walk has visited.
        obtain ⟨t, _, htv, hmem, _⟩ := mem_component_iff hnodes hsymm starts hclosed' hD
        have hxv : x ∈ (walk adj (effort adj nodes) [s] ⟨visited, []⟩).visited :=
          hclosed'.reach (hw.visits s List.mem_cons_self)
            ((mem_found_iff hnodes hsymm hclosed hs x).mp hx)
        exact htv (hclosed'.reach hxv (reach_symm hsymm ((hmem x).mp hxD)))

end Symmetric

end Whatspec.Library.Component

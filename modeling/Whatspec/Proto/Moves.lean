import Whatspec.Proto.Relocate

/-!
# Which enums move, and where

The clash components and keepers of the pass, said without them: an enum leaves the package
when an enum connected to it by shared value names outranks it (`Leaves`); it then moves into
its first referencing message (`MovesTo`), or keeps its place with prefixed values
(`Prefixed`).

* `mem_moves_iff`, `mem_prefixes_iff`: the pass decides just this;
* `adjacency_order`: the order of the hash map of owners does not show;
* `disjoint_of_stays`: two enums that both stay, unprefixed, share no value name.
-/

namespace Whatspec.Proto

open Whatspec.Library

/-- Two top-level enums that share a value name. -/
def Clash (es : List ProtoEntity) (a b : String) : Prop :=
  a ≠ b ∧ ∃ x y : ProtoEnum, .enum x ∈ es ∧ .enum y ∈ es ∧ x.name = a ∧ y.name = b ∧
    ∃ v ∈ x.valueNames, v ∈ y.valueNames

/-- Enums linked by a chain of clashes. -/
def Connected (es : List ProtoEntity) : String → String → Prop :=
  Relation.ReflTransGen (Clash es)

/-- An enum that cannot stay as it is: a connected one outranks it. -/
def Leaves (es : List ProtoEntity) (a : String) : Prop :=
  ∃ b, Connected es a b ∧ Outranks (referencers es) b a

/-- The enum leaves for the message. -/
def MovesTo (es : List ProtoEntity) (a host : String) : Prop :=
  Leaves es a ∧ hostOf (referencers es) a = some host

/-- The enum would have to leave, but no message references it. -/
def Prefixed (es : List ProtoEntity) (a : String) : Prop :=
  Leaves es a ∧ hostOf (referencers es) a = none

theorem clash_symm {es : List ProtoEntity} {a b : String} (h : Clash es a b) : Clash es b a := by
  obtain ⟨hne, x, y, hx, hy, hxa, hyb, v, hvx, hvy⟩ := h
  exact ⟨hne.symm, y, x, hy, hx, hyb, hxa, v, hvy, hvx⟩

/-! ### The clash graph -/

theorem mem_owners {es : List ProtoEntity} {v n : String} :
    n ∈ Grouping.members (owners es) v ↔
      ∃ x : ProtoEnum, .enum x ∈ es ∧ x.name = n ∧ v ∈ x.valueNames := by
  rw [owners, Grouping.mem_members_group, List.mem_flatMap]
  constructor
  · intro h
    obtain ⟨e, he, hpair⟩ := h
    cases e with
    | message _ _ _ => exact absurd hpair List.not_mem_nil
    | enum x =>
        obtain ⟨w, hw, heq⟩ := List.mem_map.mp hpair
        cases heq
        exact ⟨x, he, rfl, hw⟩
  · intro h
    obtain ⟨x, hx, hn, hv⟩ := h
    exact ⟨.enum x, hx, List.mem_map.mpr ⟨v, hv, by rw [hn]⟩⟩

theorem sorted_owners (es : List ProtoEntity) : SortedMap.Sorted (owners es) :=
  (Grouping.wellFormed_group _).1

theorem owners_entry {es : List ProtoEntity} {v : String} {set : List String}
    (h : (v, set) ∈ owners es) : set = Grouping.members (owners es) v := by
  rw [Grouping.members, SortedMap.get_of_mem (sorted_owners es) h]
  rfl

/-- The graph has an edge between enums sharing a value name, whatever the order. -/
theorem mem_adjacency {es : List ProtoEntity} (order : HashOrder String) {a b : String} :
    b ∈ Grouping.members (adjacency order (owners es)) a ↔ Clash es a b := by
  rw [adjacency, Grouping.mem_members_group]
  simp only [List.mem_flatMap, List.mem_filter, List.mem_map, Prod.mk.injEq, decide_eq_true_eq]
  constructor
  · intro h
    obtain ⟨set, ⟨⟨⟨v, set'⟩, hentry, rfl⟩, _⟩, a', ha, b', ⟨hb, hne⟩, rfl, rfl⟩ := h
    rw [owners_entry ((order.mem_entries (sorted_owners es)).mp hentry)] at ha hb
    obtain ⟨x, hx, hxa, hvx⟩ := mem_owners.mp ha
    obtain ⟨y, hy, hyb, hvy⟩ := mem_owners.mp hb
    exact ⟨fun heq => hne heq.symm, x, y, hx, hy, hxa, hyb, v, hvx, hvy⟩
  · intro h
    obtain ⟨hne, x, y, hx, hy, hxa, hyb, v, hvx, hvy⟩ := h
    have ha := mem_owners.mpr ⟨x, hx, hxa, hvx⟩
    have hb := mem_owners.mpr ⟨y, hy, hyb, hvy⟩
    have hentry : (v, Grouping.members (owners es) v) ∈ owners es := by
      cases hget : SortedMap.get (owners es) v with
      | none =>
          rw [Grouping.members, hget] at ha
          exact absurd ha List.not_mem_nil
      | some set =>
          rw [Grouping.members, hget]
          exact SortedMap.mem_of_get hget
    refine ⟨_, ⟨⟨_, (order.mem_entries (sorted_owners es)).mpr hentry, rfl⟩, ?_⟩, a, ha, b,
      ⟨hb, fun heq => hne heq.symm⟩, rfl, rfl⟩
    -- Two different owners: the set has more than one element.
    have hpair : [a, b].Subperm (Grouping.members (owners es) v) := by
      refine List.subperm_of_subset (by simp [hne]) fun z hz => ?_
      simp only [List.mem_cons, List.not_mem_nil, or_false] at hz
      exact hz.elim (fun heq => heq ▸ ha) fun heq => heq ▸ hb
    exact hpair.length_le

/-- **The order in which the owners are visited does not show.** -/
theorem adjacency_order (order order' : HashOrder String) (es : List ProtoEntity) :
    adjacency order (owners es) = adjacency order' (owners es) := by
  refine Grouping.group_congr fun p => ?_
  obtain ⟨a, b⟩ := p
  have h : b ∈ Grouping.members (adjacency order (owners es)) a ↔
      b ∈ Grouping.members (adjacency order' (owners es)) a :=
    (mem_adjacency order).trans (mem_adjacency order').symm
  rw [adjacency, adjacency, Grouping.mem_members_group, Grouping.mem_members_group] at h
  exact h

/-- The clash graph of the top-level entities. -/
def clashGraph (es : List ProtoEntity) : List (String × List String) :=
  adjacency HashOrder.increasing (owners es)

/-- The components of the clash graph. -/
def componentsOf (es : List ProtoEntity) : List (List String) := clashComponents (clashGraph es)

theorem mem_clashGraph {es : List ProtoEntity} {a b : String} :
    b ∈ Grouping.members (clashGraph es) a ↔ Clash es a b :=
  mem_adjacency _

theorem mem_keys_clashGraph {es : List ProtoEntity} {a : String} :
    a ∈ (clashGraph es).map Prod.fst ↔ ∃ b, Clash es a b := by
  have hmem : ∀ b, b ∈ Grouping.members (clashGraph es) a ↔ Clash es a b := fun b =>
    mem_clashGraph
  rw [clashGraph, adjacency] at hmem ⊢
  rw [Grouping.mem_keys_group]
  exact exists_congr fun b => by rw [← Grouping.mem_members_group, hmem b]

theorem reach_iff_connected {es : List ProtoEntity} {a b : String} :
    Component.Reach (Grouping.members (clashGraph es)) a b ↔ Connected es a b := by
  have hrel : (fun a b => b ∈ Grouping.members (clashGraph es) a) = Clash es := by
    funext a b
    exact propext mem_clashGraph
  rw [Component.Reach, Connected, hrel]

theorem clashGraph_nodes (es : List ProtoEntity) (n : String)
    (h : Grouping.members (clashGraph es) n ≠ []) : n ∈ (clashGraph es).map Prod.fst := by
  obtain ⟨b, hb⟩ := List.exists_mem_of_ne_nil _ h
  exact mem_keys_clashGraph.mpr ⟨b, mem_clashGraph.mp hb⟩

theorem clashGraph_symm (es : List ProtoEntity) (a b : String)
    (h : b ∈ Grouping.members (clashGraph es) a) : a ∈ Grouping.members (clashGraph es) b :=
  mem_clashGraph.mpr (clash_symm (mem_clashGraph.mp h))

theorem connected_symm {es : List ProtoEntity} {a b : String} (h : Connected es a b) :
    Connected es b a :=
  reach_iff_connected.mp (Component.reach_symm (clashGraph_symm es) (reach_iff_connected.mpr h))

/-- A component is what is connected to any of its enums. -/
theorem mem_component {es : List ProtoEntity} {C : List String} (hC : C ∈ componentsOf es) :
    (∃ s, s ∈ C) ∧ SortedSet.Sorted C ∧ ∀ a ∈ C, ∀ b, b ∈ C ↔ Connected es a b := by
  obtain ⟨s, _, _, hmem, hsorted⟩ := Component.mem_component_iff (clashGraph_nodes es)
    (clashGraph_symm es) _ (fun v hv => absurd hv List.not_mem_nil) hC
  have hconn : ∀ x, x ∈ C ↔ Connected es s x := fun x => (hmem x).trans reach_iff_connected
  refine ⟨⟨s, (hconn s).mpr Relation.ReflTransGen.refl⟩, hsorted, fun a ha b => ?_⟩
  have hsa := (hconn a).mp ha
  rw [hconn b]
  exact ⟨fun hsb => (connected_symm hsa).trans hsb, fun hab => hsa.trans hab⟩

/-- An enum that clashes is in a component. -/
theorem exists_component {es : List ProtoEntity} {a b : String} (h : Clash es a b) :
    ∃ C ∈ componentsOf es, a ∈ C := by
  refine Component.exists_component (clashGraph_nodes es) (clashGraph_symm es) _
    (fun v hv => absurd hv List.not_mem_nil) ?_ List.not_mem_nil
  exact SortedSet.mem_collect.mpr (mem_keys_clashGraph.mpr ⟨b, h⟩)

theorem components_disjoint (es : List ProtoEntity) :
    (componentsOf es).Pairwise fun C D => ∀ x ∈ C, x ∉ D :=
  Component.components_disjoint (clashGraph_nodes es) (clashGraph_symm es) _
    fun _ hv => absurd hv List.not_mem_nil

/-! ### Keepers -/

theorem outranks_trans {refs : List (String × List String)} {a b c : String}
    (hab : Outranks refs a b) (hbc : Outranks refs b c) : Outranks refs a c := by
  unfold Outranks at *
  rcases hab with hlt | ⟨heq, hlt⟩ <;> rcases hbc with hlt' | ⟨heq', hlt'⟩
  · exact Or.inl (hlt'.trans hlt)
  · exact Or.inl (heq' ▸ hlt)
  · exact Or.inl (heq ▸ hlt')
  · exact Or.inr ⟨heq.trans heq', hlt.trans hlt'⟩

theorem outranks_irrefl {refs : List (String × List String)} (a : String) :
    ¬ Outranks refs a a := by
  intro h
  cases h with
  | inl hlt => exact lt_irrefl _ hlt
  | inr htie => exact lt_irrefl _ htie.2

theorem outranks_total {refs : List (String × List String)} {a b : String} (hne : a ≠ b) :
    Outranks refs a b ∨ Outranks refs b a := by
  unfold Outranks
  rcases lt_trichotomy (refCount refs a) (refCount refs b) with hlt | heq | hgt
  · exact Or.inr (Or.inl hlt)
  · rcases lt_or_gt_of_ne hne with hab | hba
    · exact Or.inl (Or.inr ⟨heq, hab⟩)
    · exact Or.inr (Or.inr ⟨heq.symm, hba⟩)
  · exact Or.inl (Or.inl hgt)

/-- The keeper outranks every other enum of the component. -/
theorem keeperOf_spec {refs : List (String × List String)} {C : List String} {k : String}
    (h : keeperOf refs C = some k) : k ∈ C ∧ ∀ x ∈ C, x ≠ k → Outranks refs k x := by
  cases C with
  | nil => cases h
  | cons c cs =>
      have hfold : ∀ (xs : List String) (best : String),
          (xs.foldl (fun best y => if Outranks refs best y then best else y) best) ∈ best :: xs ∧
            ∀ x ∈ best :: xs,
              x ≠ xs.foldl (fun best y => if Outranks refs best y then best else y) best →
                Outranks refs
                  (xs.foldl (fun best y => if Outranks refs best y then best else y) best) x := by
        intro xs
        induction xs with
        | nil =>
            intro best
            refine ⟨List.mem_cons_self, fun x hx hne => ?_⟩
            exact absurd (List.mem_singleton.mp hx) hne
        | cons y ys ih =>
            intro best
            rw [List.foldl_cons]
            by_cases hrank : Outranks refs best y
            · rw [if_pos hrank]
              obtain ⟨hmem, hall⟩ := ih best
              refine ⟨?_, fun x hx hne => ?_⟩
              · cases List.mem_cons.mp hmem with
                | inl heq => exact List.mem_cons.mpr (Or.inl heq)
                | inr hrest => exact List.mem_cons_of_mem _ (List.mem_cons_of_mem _ hrest)
              · by_cases hxy : x = y
                · subst hxy
                  by_cases hbest : best = ys.foldl
                      (fun best y => if Outranks refs best y then best else y) best
                  · rw [← hbest]
                    exact hrank
                  · exact outranks_trans (hall best List.mem_cons_self hbest) hrank
                · refine hall x ?_ hne
                  rcases List.mem_cons.mp hx with heq | hrest
                  · exact List.mem_cons.mpr (Or.inl heq)
                  · exact List.mem_cons_of_mem _ ((List.mem_cons.mp hrest).resolve_left hxy)
            · rw [if_neg hrank]
              obtain ⟨hmem, hall⟩ := ih y
              refine ⟨List.mem_cons_of_mem _ hmem, fun x hx hne => ?_⟩
              rcases List.mem_cons.mp hx with heq | hrest
              · subst heq
                by_cases hxy : x = y
                · exact hall x (List.mem_cons.mpr (Or.inl hxy)) hne
                · have hyx := (outranks_total hxy).resolve_left hrank
                  by_cases hy : y = ys.foldl
                      (fun best y => if Outranks refs best y then best else y) y
                  · rw [← hy]
                    exact hyx
                  · exact outranks_trans (hall y List.mem_cons_self hy) hyx
              · exact hall x hrest hne
      cases h
      exact hfold cs c

/-- **An enum of a component cannot stay exactly when a connected one outranks it.** -/
theorem mem_leavers_iff {es : List ProtoEntity} {C : List String} (hC : C ∈ componentsOf es)
    {a : String} : a ∈ leavers (referencers es) C ↔ a ∈ C ∧ Leaves es a := by
  obtain ⟨⟨s, hs⟩, _, hmem⟩ := mem_component hC
  rw [leavers, List.mem_filter, decide_eq_true_iff]
  refine and_congr_right fun ha => ?_
  cases hk : keeperOf (referencers es) C with
  | none =>
      cases C with
      | nil => exact absurd hs List.not_mem_nil
      | cons c cs => cases hk
  | some k =>
      obtain ⟨hkC, hall⟩ := keeperOf_spec hk
      constructor
      · intro hne
        have hka : a ≠ k := fun heq => hne (congrArg some heq.symm)
        exact ⟨k, (hmem a ha k).mp hkC, hall a ha hka⟩
      · intro hleaves heq
        cases heq
        obtain ⟨b, hconn, hrank⟩ := hleaves
        by_cases hb : b = a
        · exact outranks_irrefl a (hb ▸ hrank)
        · have hback := hall b ((hmem a ha b).mpr hconn) hb
          exact outranks_irrefl a (outranks_trans hback hrank)

/-- An enum that leaves clashes with some enum. -/
theorem Leaves.exists_clash {es : List ProtoEntity} {a : String} (h : Leaves es a) :
    ∃ b, Clash es a b := by
  obtain ⟨b, hconn, hrank⟩ := h
  cases Relation.ReflTransGen.cases_head hconn with
  | inl heq => exact absurd (heq ▸ hrank) (outranks_irrefl _)
  | inr hstep =>
      obtain ⟨c, hclash, _⟩ := hstep
      exact ⟨c, hclash⟩

/-- An enum that leaves is a top-level enum. -/
theorem Leaves.exists_enum {es : List ProtoEntity} {a : String} (h : Leaves es a) :
    ∃ x : ProtoEnum, .enum x ∈ es ∧ x.name = a := by
  obtain ⟨b, _, x, _, hx, _, hxa, _⟩ := h.exists_clash
  exact ⟨x, hx, hxa⟩

/-! ### What the pass decides -/

/-- The moves of the pass. -/
def moves (es : List ProtoEntity) : List (String × String) :=
  decisions (referencers es) (componentsOf es)

/-- The enums whose values the pass prefixes. -/
def prefixes (es : List ProtoEntity) : List String :=
  prefixOnly (referencers es) (componentsOf es)

/-- **The pass moves the enums that leave and have a host.** -/
theorem mem_moves_iff {es : List ProtoEntity} {a h : String} :
    (a, h) ∈ moves es ↔ MovesTo es a h := by
  rw [moves, decisions, List.mem_flatMap]
  constructor
  · intro hmem
    obtain ⟨C, hC, hpair⟩ := hmem
    obtain ⟨e, he, hmap⟩ := List.mem_filterMap.mp hpair
    obtain ⟨host, hhost, heq⟩ := Option.map_eq_some_iff.mp hmap
    cases heq
    exact ⟨((mem_leavers_iff hC).mp he).2, hhost⟩
  · intro hmoves
    obtain ⟨hleaves, hhost⟩ := hmoves
    obtain ⟨b, hclash⟩ := hleaves.exists_clash
    obtain ⟨C, hC, ha⟩ := exists_component hclash
    refine ⟨C, hC, List.mem_filterMap.mpr ⟨a, (mem_leavers_iff hC).mpr ⟨ha, hleaves⟩, ?_⟩⟩
    rw [hhost]
    rfl

/-- **The pass prefixes the enums that would leave and have no host.** -/
theorem mem_prefixes_iff {es : List ProtoEntity} {a : String} :
    a ∈ prefixes es ↔ Prefixed es a := by
  rw [prefixes, prefixOnly, List.mem_flatMap]
  constructor
  · intro hmem
    obtain ⟨C, hC, hfilter⟩ := hmem
    obtain ⟨ha, hnone⟩ := List.mem_filter.mp hfilter
    exact ⟨((mem_leavers_iff hC).mp ha).2, of_decide_eq_true hnone⟩
  · intro hprefixed
    obtain ⟨hleaves, hnone⟩ := hprefixed
    obtain ⟨b, hclash⟩ := hleaves.exists_clash
    obtain ⟨C, hC, ha⟩ := exists_component hclash
    exact ⟨C, hC, List.mem_filter.mpr
      ⟨(mem_leavers_iff hC).mpr ⟨ha, hleaves⟩, decide_eq_true hnone⟩⟩

/-- An enum is moved at most once. -/
theorem nodup_moves (es : List ProtoEntity) : ((moves es).map Prod.fst).Nodup := by
  have hfst : (moves es).map Prod.fst = (componentsOf es).flatMap fun C =>
      (leavers (referencers es) C).filter fun e => (hostOf (referencers es) e).isSome := by
    rw [moves, decisions, List.map_flatMap]
    refine congrArg (fun f => (componentsOf es).flatMap f) (funext fun C => ?_)
    induction leavers (referencers es) C with
    | nil => rfl
    | cons e rest ih =>
        cases hhost : hostOf (referencers es) e with
        | none => simpa [List.filterMap_cons, List.filter_cons, hhost] using ih
        | some h => simpa [List.filterMap_cons, List.filter_cons, hhost] using ih
  rw [hfst, List.nodup_flatMap]
  constructor
  · intro C hC
    exact ((mem_component hC).2.1.nodup.filter _).filter _
  · refine (components_disjoint es).imp fun hdisj x hx hx' => ?_
    exact hdisj x (List.mem_filter.mp (List.mem_filter.mp hx).1).1
      (List.mem_filter.mp (List.mem_filter.mp hx').1).1

/-- **Two enums that stay as they are share no value name.** -/
theorem disjoint_of_stays {es : List ProtoEntity} {x y : ProtoEnum} (hx : .enum x ∈ es)
    (hy : .enum y ∈ es) (hne : x.name ≠ y.name) (hxs : ¬ Leaves es x.name)
    (hys : ¬ Leaves es y.name) : ∀ v ∈ x.valueNames, v ∉ y.valueNames := by
  intro v hvx hvy
  have hclash : Clash es x.name y.name := ⟨hne, x, y, hx, hy, rfl, rfl, v, hvx, hvy⟩
  rcases @outranks_total (referencers es) _ _ hne with hrank | hrank
  · exact hys ⟨x.name, Relation.ReflTransGen.single (clash_symm hclash), hrank⟩
  · exact hxs ⟨y.name, Relation.ReflTransGen.single hclash, hrank⟩

end Whatspec.Proto

import Mathlib.Data.List.Nodup
import Whatspec.Library.LabelFlow
import Whatspec.Scan.MixinIndex

/-!
# The frames the folds assign

Both loops over the mixins are work lists of labels that flow along the edges of the merge graph:
the labels are the merge arguments, composed along walks, and `unnameable` is what nothing is
known of.

* `Frame` is the label that all walks to a module have in common;
* `resolving_frames` and `reaching_frames`: both loops end, with every module reached in its
  frame and no other module.
-/

namespace Whatspec.Scan

open Whatspec.Library Whatspec.Library.LabelFlow

/-! ### Merge arguments compose -/

/-- The path a merge argument stands for. -/
def MergeArg.path : MergeArg → Option WapArgPath
  | .prefixed path _ => some path
  | .whole => some []
  | .unnameable => none

theorem MergeArg.path_injective : Function.Injective MergeArg.path := by
  intro a b h
  cases a with
  | prefixed p hp =>
    cases b with
    | prefixed q hq =>
      obtain rfl : p = q := Option.some.inj h
      rfl
    | whole => exact absurd (Option.some.inj h) hp
    | unnameable => cases h
  | whole =>
    cases b with
    | prefixed q hq => exact absurd (Option.some.inj h).symm hq
    | whole => rfl
    | unnameable => cases h
  | unnameable =>
    cases b with
    | prefixed q hq => cases h
    | whole => cases h
    | unnameable => rfl

theorem MergeArg.path_andThen (a b : MergeArg) :
    (a.andThen b).path = a.path.bind fun p => b.path.map (p ++ ·) := by
  cases a with
  | prefixed p hp =>
    cases b with
    | prefixed q hq => rfl
    | whole => simp [andThen, path]
    | unnameable => rfl
  | whole => cases b <;> simp [andThen, path]
  | unnameable => cases b <;> rfl

theorem MergeArg.path_eq_none {a : MergeArg} : a.path = none ↔ a = .unnameable :=
  ⟨fun h => MergeArg.path_injective h, fun h => h ▸ rfl⟩

/-- Merge arguments as labels. -/
def composition : Composition MergeArg where
  comp := MergeArg.andThen
  top := .unnameable
  top_comp := fun a => by cases a <;> rfl
  comp_top := fun a => by cases a <;> rfl
  cancel := by
    intro a b c h
    rcases hc : c.path with _ | r
    · exact .inr (MergeArg.path_eq_none.mp hc)
    · left
      have hpaths := congrArg MergeArg.path h
      have hcompose : ∀ o : Option WapArgPath,
          (o.bind fun p => (some r).map (p ++ ·)) = o.map (· ++ r) := by
        intro o
        cases o <;> rfl
      rw [MergeArg.path_andThen, MergeArg.path_andThen, hc, hcompose, hcompose] at hpaths
      have hinjective : Function.Injective (Option.map (· ++ r)) :=
        Option.map_injective (List.append_left_injective r)
      exact MergeArg.path_injective (hinjective hpaths)

theorem MergeArg.rebase_eq (a : MergeArg) (p : WapArgPath) :
    a.rebase p = a.path.map (· ++ p) := by
  cases a with
  | prefixed q hq =>
    have hempty : q.isEmpty = false := by
      cases q with
      | nil => exact absurd rfl hq
      | cons _ _ => rfl
    rw [rebase, apply, prefixArgPaths, hempty]
    rfl
  | whole => rfl
  | unnameable => rfl

/-! ### The graph of merges -/

section Graph

variable (index : MixinIndex) (mixinModules : List MergeCallee)

/-- The mixins a module folds in. -/
def merges (module : String) : List (String × MergeArg) :=
  match index.get module with
  | none => []
  | some frag => callees frag.mergedCallees

/-- The module can be reached from the callees of a request. -/
def Reached (module : String) : Prop :=
  Reachable composition (callees mixinModules) (merges index) module

/-- The frame of a module: what the merge arguments of all walks to it compose to, or
`unnameable` when two of them differ. -/
def Frame (module : String) (frame : MergeArg) : Prop :=
  Assigned composition (callees mixinModules) (merges index) module frame

theorem expand_eq (module : String) (acc : MergeArg) :
    expand index module acc =
      (merges index module).map fun e => (e.1, composition.comp acc e.2) := by
  rw [expand, merges]
  cases index.get module with
  | none => rfl
  | some frag => simp only [callees, List.map_map]; rfl

/-- All modules that the request and the index name. -/
def named : List String :=
  (callees mixinModules).map Prod.fst ++
    index.byModule.flatMap fun e => (callees e.2.mergedCallees).map Prod.fst

theorem merges_named (module : String) :
    ∀ e ∈ merges index module, e.1 ∈ named index mixinModules := by
  intro e he
  rw [merges] at he
  cases hget : index.get module with
  | none =>
    rw [hget] at he
    cases he
  | some frag =>
    rw [hget] at he
    refine List.mem_append_right _ (List.mem_flatMap.mpr ⟨(module, frag), ?_, ?_⟩)
    · exact SortedMap.mem_of_get hget
    · exact List.mem_map_of_mem he

theorem callees_named : ∀ e ∈ callees mixinModules, e.1 ∈ named index mixinModules :=
  fun _ he => List.mem_append_left _ (List.mem_map_of_mem he)

end Graph

/-! ### Frames -/

theorem frameOf_setReached (name : String) (acc : MergeArg) (reached : List (String × MergeArg)) :
    frameOf (setReached name acc reached) =
      Function.update (frameOf reached) name (some acc) := by
  funext m
  induction reached with
  | nil =>
    rw [setReached, frameOf, List.lookup_cons, List.lookup_nil]
    rcases eq_or_ne m name with rfl | hne
    · rw [Function.update_self, beq_self_eq_true]
    · rw [Function.update_of_ne hne, beq_false_of_ne hne]
      rfl
  | cons e rest ih =>
    obtain ⟨k, prev⟩ := e
    rw [frameOf] at ih
    rw [setReached, frameOf]
    rcases eq_or_ne m name with rfl | hne
    · rw [Function.update_self] at ih ⊢
      rcases eq_or_ne k m with rfl | hk
      · rw [if_pos rfl, List.lookup_cons, beq_self_eq_true]
      · rw [if_neg hk, List.lookup_cons, beq_false_of_ne hk.symm]
        exact ih
    · rw [Function.update_of_ne hne] at ih ⊢
      rw [frameOf] at ih ⊢
      rcases eq_or_ne k name with rfl | hk
      · rw [if_pos rfl, List.lookup_cons, List.lookup_cons, beq_false_of_ne hne]
      · rw [if_neg hk, List.lookup_cons, List.lookup_cons, ih]

section Loops

variable {index : MixinIndex} {mixinModules : List MergeCallee}

theorem visit_reached (name : String) (acc : MergeArg) (s : Resolving) :
    frameOf (s.visit index name acc).1.reached =
      Function.update (frameOf s.reached) name (some acc) := by
  rw [← frameOf_setReached, Resolving.visit]
  cases index.get name <;> rfl

theorem visit_pushed (name : String) (acc : MergeArg) (s : Resolving) :
    (s.visit index name acc).2 = expand index name acc := by
  rw [Resolving.visit]
  cases hget : index.get name with
  | none => rw [expand, hget]
  | some frag => rfl

/-- A round of the union delivers a label. -/
theorem resolving_delivery (name : String) (acc : MergeArg) (s : Resolving) :
    Delivery composition (merges index) (frameOf s.reached) name acc
      (frameOf (Resolving.round index (name, acc) s).1.reached)
      (Resolving.round index (name, acc) s).2 := by
  rw [Resolving.round]
  cases hlookup : frameOf s.reached name with
  | none =>
    simp only
    rw [visit_reached, visit_pushed, expand_eq]
    exact .first hlookup
  | some prev =>
    simp only
    split_ifs with hsame htop
    · exact .dropped (.inl (hsame ▸ hlookup))
    · exact .dropped (.inr (hlookup.trans (congrArg some htop)))
    · rw [visit_reached, visit_pushed, expand_eq]
      exact .clash hlookup hsame

theorem frameOf_cons (name : String) (acc : MergeArg)
    (reach : List (String × MergeArg)) :
    frameOf ((name, acc) :: reach) = Function.update (frameOf reach) name (some acc) := by
  funext m
  rw [frameOf, List.lookup_cons]
  rcases eq_or_ne m name with rfl | hne
  · rw [Function.update_self, beq_self_eq_true]
  · rw [Function.update_of_ne hne, beq_false_of_ne hne]
    rfl

/-- A round of the collection delivers a label. -/
theorem reaching_delivery (name : String) (acc : MergeArg) (s : Reaching) :
    Delivery composition (merges index) (frameOf s.reach) name acc
      (frameOf (Reaching.round index (name, acc) s).1.reach)
      (Reaching.round index (name, acc) s).2 := by
  rw [Reaching.round]
  cases hlookup : frameOf s.reach name with
  | none =>
    simp only
    rw [frameOf_cons, expand_eq]
    exact .first hlookup
  | some prev =>
    simp only
    split_ifs with hsame
    · exact .dropped (.inl (hsame ▸ hlookup))
    · simp only
      rw [frameOf_cons, expand_eq]
      exact .clash hlookup hsame

/-- **The union ends**, with every module reached in its frame. -/
theorem resolving_frames (index : MixinIndex) (mixinModules : List MergeCallee) :
    ∃ fuel s, resolving index mixinModules fuel = some s ∧
      ∀ m v, frameOf s.reached m = some v ↔ Frame index mixinModules m v :=
  exists_drain_assigned (fun s : Resolving => frameOf s.reached)
    (fun name acc s => resolving_delivery name acc s) (callees_named index mixinModules)
    (merges_named index mixinModules) rfl

/-- **The collection ends**, with every module reached in its frame. -/
theorem reaching_frames (index : MixinIndex) (mixinModules : List MergeCallee) :
    ∃ fuel s, reaching index mixinModules fuel = some s ∧
      ∀ m v, frameOf s.reach m = some v ↔ Frame index mixinModules m v :=
  exists_drain_assigned (fun s : Reaching => frameOf s.reach)
    (fun name acc s => reaching_delivery name acc s) (callees_named index mixinModules)
    (merges_named index mixinModules) rfl

/-- The collection lists each module once. -/
theorem reaching_order {fuel : ℕ} {s : Reaching} (h : reaching index mixinModules fuel = some s) :
    s.order.Nodup ∧ ∀ m, m ∈ s.order ↔ (frameOf s.reach m).isSome := by
  refine drain_invariant (I := fun _ (s : Reaching) =>
    s.order.Nodup ∧ ∀ m, m ∈ s.order ↔ (frameOf s.reach m).isSome) ?_ ?_ h
  · rintro ⟨name, acc⟩ _ s ⟨hnodup, hmem⟩
    rw [Reaching.round]
    cases hlookup : frameOf s.reach name with
    | none =>
      have hnew : name ∉ s.order := fun hin => by
        rw [hmem, hlookup] at hin
        cases hin
      refine ⟨List.nodup_append.mpr ⟨hnodup, List.nodup_singleton name, ?_⟩, fun m => ?_⟩
      · intro x hx y hy
        rintro rfl
        exact hnew (List.mem_singleton.mp hy ▸ hx)
      · show m ∈ s.order ++ [name] ↔ (frameOf ((name, acc) :: s.reach) m).isSome
        rw [frameOf_cons, List.mem_append, List.mem_singleton, hmem]
        rcases eq_or_ne m name with rfl | hne
        · simp only [Function.update_self, Option.isSome_some, or_true]
        · rw [Function.update_of_ne hne]
          exact or_iff_left hne
    | some prev =>
      simp only
      split_ifs with hsame
      · exact ⟨hnodup, hmem⟩
      · refine ⟨hnodup, fun m => ?_⟩
        show m ∈ s.order ↔ (frameOf ((name, .unnameable) :: s.reach) m).isSome
        rw [frameOf_cons, hmem]
        rcases eq_or_ne m name with rfl | hne
        · simp only [Function.update_self, Option.isSome_some, hlookup]
        · rw [Function.update_of_ne hne]
  · exact ⟨List.nodup_nil, fun m => ⟨nofun, nofun⟩⟩

end Loops

end Whatspec.Scan

import Whatspec.Mex.MergeOrder
import Whatspec.Mex.TypeNode

/-!
# Presence aligned with a shape

The shape of the variables and the presence of their keys are found separately and published side
by side.  `alignWithShape` gives the presence tree a verdict for exactly the keys of the shape.

* `alignNode_child`: what is one step down after an alignment;
* `at?_alignNode`: what is at the end of a path;
* **`align_laws`**: the keys, the verdicts that stay and that are added, a second alignment, and the
  totals.
-/

namespace Whatspec.Mex

open Whatspec.Library VariablePresenceNode

/-! ### The alignment -/

/-- Keep the keys that the shape has. -/
def retain (shape : List (String × TypeNode)) (presence : List (String × VariablePresenceNode)) :
    List (String × VariablePresenceNode) :=
  presence.filter fun e => (SortedMap.get shape e.1).isSome

mutual

def alignNode : TypeNode → VariablePresenceNode → VariablePresenceNode
  | .object fields, n => .mk n.presence (alignFields fields (retain fields n.fields)) none
  | .array items, n => .mk n.presence [] (alignItems items n.items)
  | .leaf _, n => .mk n.presence [] none

/-- Every key of the shape: a key that is new is `undetermined`. -/
def alignFields : List (String × TypeNode) → List (String × VariablePresenceNode) →
    List (String × VariablePresenceNode)
  | [], presence => presence
  | (key, node) :: rest, presence =>
    alignFields rest (SortedMap.insert key
      (alignNode node ((SortedMap.get presence key).getD (leaf .undetermined))) presence)

/-- A list element is not a key and has no verdict of its own. -/
def alignItems : List TypeNode → Option VariablePresenceNode → Option VariablePresenceNode
  | [], _ => none
  | element :: _, items =>
    if element.isLeaf then none else some (alignNode element (items.getD (leaf .always)))

end

/-- Publish a verdict for exactly the keys the shape types. -/
def alignWithShape (shape : List (String × TypeNode))
    (presence : List (String × VariablePresenceNode)) : List (String × VariablePresenceNode) :=
  alignFields shape (retain shape presence)

/-! ### The totals -/

/-- The counters of the keys, by verdict. -/
structure PresenceCounts where
  presenceAlways : ℕ
  presenceConditional : ℕ
  presenceUndetermined : ℕ

namespace PresenceCounts

def zero : PresenceCounts := ⟨0, 0, 0⟩

def add (diag : PresenceCounts) : VariablePresence → PresenceCounts
  | .always => { diag with presenceAlways := diag.presenceAlways + 1 }
  | .conditional => { diag with presenceConditional := diag.presenceConditional + 1 }
  | .undetermined => { diag with presenceUndetermined := diag.presenceUndetermined + 1 }

def total (diag : PresenceCounts) : ℕ :=
  diag.presenceAlways + diag.presenceConditional + diag.presenceUndetermined

theorem total_add (diag : PresenceCounts) (p : VariablePresence) :
    (diag.add p).total = diag.total + 1 := by
  cases p <;> simp only [add, total] <;> omega

end PresenceCounts

mutual

/-- Tally every key of a presence tree, nested keys included. -/
def countPresence : List (String × VariablePresenceNode) → PresenceCounts → PresenceCounts
  | [], diag => diag
  | (_, n) :: rest, diag => countPresence rest (countKeysUnder n (diag.add n.presence))

/-- The keys nested under one node, at every layer. -/
def countKeysUnder : VariablePresenceNode → PresenceCounts → PresenceCounts
  | .mk _ fields items, diag => countItems items (countPresence fields diag)

def countItems : Option VariablePresenceNode → PresenceCounts → PresenceCounts
  | none, diag => diag
  | some n, diag => countKeysUnder n diag

end

mutual

/-- The number of keys under a node of a shape. -/
def TypeNode.keyCount : TypeNode → ℕ
  | .object fields => fieldsKeyCount fields
  | .array items => itemsKeyCount items
  | .leaf _ => 0

def fieldsKeyCount : List (String × TypeNode) → ℕ
  | [] => 0
  | (_, node) :: rest => 1 + node.keyCount + fieldsKeyCount rest

def itemsKeyCount : List TypeNode → ℕ
  | [] => 0
  | element :: _ => element.keyCount

end

/-! ### One level -/

theorem get_alignFields {shape : List (String × TypeNode)} (hshape : SortedMap.Sorted shape)
    (presence : List (String × VariablePresenceNode)) (key : String) :
    SortedMap.get (alignFields shape presence) key =
      match SortedMap.get shape key with
      | some node =>
        some (alignNode node ((SortedMap.get presence key).getD (leaf .undetermined)))
      | none => SortedMap.get presence key := by
  induction shape generalizing presence with
  | nil => rfl
  | cons e rest ih =>
    obtain ⟨k, node⟩ := e
    obtain ⟨hhead, hrest⟩ := List.pairwise_cons.mp hshape
    rw [alignFields, ih hrest, SortedMap.get_insert, SortedMap.get_cons]
    by_cases hk : key = k
    · subst hk
      rw [SortedMap.get_eq_none_of_lt hhead, if_pos rfl, if_pos rfl]
    · rw [if_neg hk, if_neg hk]

theorem sorted_alignFields (shape : List (String × TypeNode))
    {presence : List (String × VariablePresenceNode)} (h : SortedMap.Sorted presence) :
    SortedMap.Sorted (alignFields shape presence) := by
  induction shape generalizing presence with
  | nil => exact h
  | cons e rest ih =>
    rw [alignFields]
    exact ih (SortedMap.sorted_insert _ _ h)

/-- The keys of the shape, and only those. -/
theorem get_alignWithShape {shape : List (String × TypeNode)} (hshape : SortedMap.Sorted shape)
    (presence : List (String × VariablePresenceNode)) (key : String) :
    SortedMap.get (alignWithShape shape presence) key = (SortedMap.get shape key).map fun node =>
      alignNode node ((SortedMap.get presence key).getD (leaf .undetermined)) := by
  rw [alignWithShape, get_alignFields hshape, retain,
    SortedMap.get_filter_key presence fun k => (SortedMap.get shape k).isSome]
  cases SortedMap.get shape key <;> rfl

/-- The aligned fields, key by key of the shape. -/
theorem alignWithShape_eq {shape : List (String × TypeNode)} (hshape : SortedMap.Sorted shape)
    {presence : List (String × VariablePresenceNode)} (hpresence : SortedMap.Sorted presence) :
    alignWithShape shape presence = shape.map fun e => (e.1, alignNode e.2
      ((SortedMap.get presence e.1).getD (leaf .undetermined))) := by
  have hretain : SortedMap.Sorted (retain shape presence) := List.Pairwise.filter _ hpresence
  let aligned := fun (key : String) node =>
    alignNode node ((SortedMap.get presence key).getD (leaf .undetermined))
  refine SortedMap.ext_of_sorted (sorted_alignFields shape hretain)
    (SortedMap.sorted_map aligned hshape) fun key => ?_
  rw [get_alignWithShape hshape, SortedMap.get_map aligned]

/-- What an alignment starts from where the presence tree has nothing. -/
def fresh : Step → VariablePresenceNode
  | .field _ => leaf .undetermined
  | .item => leaf .always

/-- What the presence tree has a place for one step down: a leaf element has none. -/
def TypeNode.room (n : TypeNode) : Step → Option TypeNode
  | .field key => n.child (.field key)
  | .item => (n.child .item).filter fun element => !element.isLeaf

theorem alignNode_presence (node : TypeNode) (n : VariablePresenceNode) :
    (alignNode node n).presence = n.presence := by
  cases node <;> rw [alignNode] <;> rfl

theorem alignNode_child {node : TypeNode} (hnode : node.Canonical) (n : VariablePresenceNode)
    (s : Step) : (alignNode node n).child s = (node.room s).map fun c =>
      alignNode c ((n.child s).getD (fresh s)) := by
  cases hnode with
  | @object fields sorted _ =>
    rw [alignNode]
    cases s with
    | field key => exact get_alignWithShape sorted n.fields key
    | item => rfl
  | @array items _ =>
    rw [alignNode]
    cases s with
    | field key => rfl
    | item =>
      cases items with
      | nil => rw [alignItems]; rfl
      | cons element rest =>
        change alignItems (element :: rest) n.items = _
        rw [alignItems]
        rw [TypeNode.room, TypeNode.child, List.head?_cons, Option.filter_some]
        cases element.isLeaf <;> rfl
  | leaf tag =>
    rw [alignNode]
    cases s <;> rfl

/-! ### Paths -/

/-- The shape at the end of a path, where the presence tree has a place for it. -/
def TypeNode.roomAt (n : TypeNode) : List Step → Option TypeNode
  | [] => some n
  | s :: path => (n.room s).bind fun c => c.roomAt path

/-- What an alignment starts from at the end of a path. -/
def heldAt (n : VariablePresenceNode) : List Step → VariablePresenceNode
  | [] => n
  | s :: path => heldAt ((n.child s).getD (fresh s)) path

theorem TypeNode.child_of_room {n c : TypeNode} {s : Step} (h : n.room s = some c) :
    n.child s = some c := by
  cases s with
  | field key => exact h
  | item => exact (Option.filter_eq_some_iff.mp h).1

theorem TypeNode.at?_of_roomAt {n c : TypeNode} {path : List Step} (h : n.roomAt path = some c) :
    n.at? path = some c := by
  induction path generalizing n with
  | nil => exact h
  | cons s path ih =>
    obtain ⟨d, hd, hc⟩ := Option.bind_eq_some_iff.mp h
    exact Option.bind_eq_some_iff.mpr ⟨d, child_of_room hd, ih hc⟩

/-- A leaf element has nothing below it, so only the last step matters. -/
theorem TypeNode.roomAt_concat (n : TypeNode) (path : List Step) (s : Step) :
    n.roomAt (path ++ [s]) = (n.at? path).bind fun c => c.room s := by
  induction path generalizing n with
  | nil =>
    rw [List.nil_append, roomAt, at?, Option.bind_some]
    exact Option.bind_fun_some _
  | cons t path ih =>
    rw [List.cons_append, roomAt, at?, Option.bind_assoc]
    simp only [ih]
    cases t with
    | field key => rfl
    | item =>
      rw [room]
      cases hchild : n.child .item with
      | none => rfl
      | some element =>
        rw [Option.filter_some]
        cases element with
        | object fields => rfl
        | array items => rfl
        | leaf tag =>
          cases path with
          | nil => cases s <;> rfl
          | cons r path => cases r <;> rfl

/-- **What is at the end of a path after an alignment.** -/
theorem at?_alignNode {node : TypeNode} (hnode : node.Canonical) (n : VariablePresenceNode)
    (path : List Step) : (alignNode node n).at? path =
      (node.roomAt path).map fun c => alignNode c (heldAt n path) := by
  induction path generalizing node n with
  | nil => rfl
  | cons s path ih =>
    rw [VariablePresenceNode.at?, TypeNode.roomAt, alignNode_child hnode]
    cases hroom : node.room s with
    | none => rfl
    | some c => exact ih (hnode.child (TypeNode.child_of_room hroom)) _

theorem heldAt_of_some {n m : VariablePresenceNode} {path : List Step}
    (h : n.at? path = some m) : heldAt n path = m := by
  induction path generalizing n with
  | nil => exact Option.some.inj h
  | cons s path ih =>
    obtain ⟨c, hc, hm⟩ := Option.bind_eq_some_iff.mp h
    rw [heldAt, hc]
    exact ih hm

theorem heldAt_fresh {t s : Step} (path : List Step) :
    heldAt (fresh t) (path ++ [s]) = fresh s := by
  induction path generalizing t with
  | nil => cases t <;> cases s <;> rfl
  | cons r path ih =>
    have hchild : (fresh t).child r = none := by cases t <;> cases r <;> rfl
    rw [List.cons_append, heldAt, hchild]
    exact ih

theorem heldAt_of_none {n : VariablePresenceNode} {path : List Step} {s : Step}
    (h : n.at? (path ++ [s]) = none) : heldAt n (path ++ [s]) = fresh s := by
  induction path generalizing n with
  | nil =>
    have hchild : n.child s = none := by simpa [VariablePresenceNode.at?] using h
    rw [List.nil_append, heldAt, hchild]
    rfl
  | cons r path ih =>
    rw [List.cons_append, heldAt]
    rw [List.cons_append, VariablePresenceNode.at?] at h
    cases hchild : n.child r with
    | none => exact heldAt_fresh path
    | some c =>
      rw [hchild] at h
      exact ih h

/-! ### A second alignment -/

theorem canonical_alignNode {node : TypeNode} (hnode : node.Canonical) {n : VariablePresenceNode}
    (hn : Canonical n) : Canonical (alignNode node n) := by
  induction node using TypeNode.induct generalizing n with
  | object fields ih =>
    obtain ⟨sorted, nodes⟩ := hnode
    have hsorted := canonical_sorted hn
    change Canonical (.mk n.presence (alignWithShape fields n.fields) none)
    rw [alignWithShape_eq sorted hsorted]
    refine ⟨?_, ?_, nofun⟩
    · rw [← alignWithShape_eq sorted hsorted]
      exact sorted_alignFields fields (List.Pairwise.filter _ hsorted)
    · intro e he
      obtain ⟨f, hf, rfl⟩ := List.mem_map.mp he
      refine ih f hf (nodes f hf) ?_
      cases hget : SortedMap.get n.fields f.1 with
      | none => exact canonical_leaf .undetermined
      | some c => exact canonical_child (s := .field f.1) hn hget
  | array items ih =>
    have nodes : ∀ element ∈ items, element.Canonical := by
      cases hnode
      assumption
    rw [alignNode]
    refine ⟨List.Pairwise.nil, nofun, fun m hm => ?_⟩
    cases items with
    | nil => cases hm
    | cons element rest =>
      rw [alignItems] at hm
      split at hm
      · cases hm
      · cases hm
        refine ih element List.mem_cons_self (nodes element List.mem_cons_self) ?_
        cases hitems : n.items with
        | none => exact canonical_leaf .always
        | some c => exact canonical_child (s := .item) hn hitems
  | leaf tag =>
    rw [alignNode]
    exact ⟨List.Pairwise.nil, nofun, nofun⟩

theorem report_alignNode_alignNode {node : TypeNode} (hnode : node.Canonical)
    (n : VariablePresenceNode) (path : List Step) :
    report (alignNode node (alignNode node n)) path = report (alignNode node n) path := by
  induction path generalizing node n with
  | nil => rw [report, report, alignNode_presence]
  | cons s path ih =>
    rw [report, report, alignNode_child hnode, alignNode_child hnode]
    cases hroom : node.room s with
    | none => rfl
    | some c => exact congrArg deeper (ih (hnode.child (TypeNode.child_of_room hroom)) _)

theorem alignNode_alignNode {node : TypeNode} (hnode : node.Canonical) {n : VariablePresenceNode}
    (hn : Canonical n) : alignNode node (alignNode node n) = alignNode node n :=
  have haligned := canonical_alignNode hnode hn
  (canonical_alignNode hnode haligned).ext haligned (report_alignNode_alignNode hnode n)

/-! ### The keys that are counted -/

/-- The keys under an aligned node are the keys of its shape. -/
theorem total_countKeysUnder {node : TypeNode} (hnode : node.Canonical)
    {n : VariablePresenceNode} (hn : Canonical n) (diag : PresenceCounts) :
    (countKeysUnder (alignNode node n) diag).total = diag.total + node.keyCount := by
  induction node using TypeNode.induct generalizing n diag with
  | object fields ih =>
    obtain ⟨sorted, nodes⟩ := hnode
    change (countPresence (alignWithShape fields n.fields) diag).total = _
    rw [alignWithShape_eq sorted (canonical_sorted hn), TypeNode.keyCount]
    clear sorted
    induction fields generalizing diag with
    | nil => rfl
    | cons e rest ihRest =>
      rw [List.forall_mem_cons] at nodes ih
      have hheld : Canonical ((SortedMap.get n.fields e.1).getD (leaf .undetermined)) := by
        cases hget : SortedMap.get n.fields e.1 with
        | none => exact canonical_leaf .undetermined
        | some c => exact canonical_child (s := .field e.1) hn hget
      rw [List.map_cons, countPresence, ihRest ih.2 _ nodes.2, ih.1 nodes.1 hheld,
        PresenceCounts.total_add, fieldsKeyCount]
      omega
  | array items ih =>
    rw [alignNode, countKeysUnder, countPresence, TypeNode.keyCount]
    cases items with
    | nil => rfl
    | cons element rest =>
      rw [alignItems, itemsKeyCount]
      have helement : element.Canonical := by
        cases hnode with
        | array nodes => exact nodes element List.mem_cons_self
      have hheld : Canonical (n.items.getD (leaf .always)) := by
        cases hitems : n.items with
        | none => exact canonical_leaf .always
        | some c => exact canonical_child (s := .item) hn hitems
      cases element with
      | leaf tag => rfl
      | object fields => exact ih _ List.mem_cons_self helement hheld diag
      | array items => exact ih _ List.mem_cons_self helement hheld diag
  | leaf tag => rfl

/-! ### Whole trees -/

/-- Align a presence tree with a shape. -/
def SiteTree.align (presence : SiteTree) (shape : ShapeTree) : SiteTree where
  fields := alignWithShape shape.fields presence.fields
  canonical := canonical_alignNode shape.canonical presence.canonical

/-- The number of keys of a shape. -/
def ShapeTree.keyCount (shape : ShapeTree) : ℕ := shape.root.keyCount

theorem at?_align (presence : SiteTree) (shape : ShapeTree) (path : List Step) :
    (presence.align shape).root.at? path =
      (shape.root.roomAt path).map fun c => alignNode c (heldAt presence.root path) :=
  at?_alignNode shape.canonical presence.root path

/-- The keys of the aligned tree are the keys of the shape. -/
theorem isSome_at?_align (presence : SiteTree) (shape : ShapeTree) (path : List Step)
    (key : String) :
    ((presence.align shape).root.at? (path ++ [.field key])).isSome =
      (shape.root.at? (path ++ [.field key])).isSome := by
  rw [at?_align, Option.isSome_map, TypeNode.roomAt_concat, TypeNode.at?_concat]
  rfl

/-- There is a layer exactly where the shape has a list of objects or of lists. -/
theorem layer_align (presence : SiteTree) (shape : ShapeTree) (path : List Step) :
    ((presence.align shape).root.at? (path ++ [.item])).isSome ↔
      ∃ element, shape.root.at? (path ++ [.item]) = some element ∧ element.isLeaf = false := by
  rw [at?_align, Option.isSome_map, TypeNode.roomAt_concat, TypeNode.at?_concat]
  cases shape.root.at? path with
  | none => simp
  | some c =>
    change ((c.child .item).filter fun element => !element.isLeaf).isSome ↔ _
    rw [Option.isSome_iff_exists]
    simp only [Option.filter_eq_some_iff, Bool.not_eq_true', Option.bind_some]

/-- There are fields only at an object. -/
theorem nested_align (presence : SiteTree) (shape : ShapeTree) {path : List Step}
    {n : VariablePresenceNode} (h : (presence.align shape).root.at? path = some n)
    (hnested : n.fields ≠ []) : ∃ fields, shape.root.at? path = some (.object fields) := by
  rw [at?_align] at h
  obtain ⟨c, hc, rfl⟩ := Option.map_eq_some_iff.mp h
  rw [TypeNode.at?_of_roomAt hc]
  cases c with
  | object fields => exact ⟨fields, rfl⟩
  | array items => exact absurd rfl hnested
  | leaf tag => exact absurd rfl hnested

/-- The verdict at a key of the aligned tree: the one that was there, or `undetermined`. -/
theorem presence_align (presence : SiteTree) (shape : ShapeTree) {path : List Step} {key : String}
    {n : VariablePresenceNode}
    (h : (presence.align shape).root.at? (path ++ [.field key]) = some n) :
    n.presence = ((presence.root.at? (path ++ [.field key])).map
      VariablePresenceNode.presence).getD .undetermined := by
  rw [at?_align] at h
  obtain ⟨c, -, rfl⟩ := Option.map_eq_some_iff.mp h
  rw [alignNode_presence]
  cases hbefore : presence.root.at? (path ++ [.field key]) with
  | none =>
    rw [heldAt_of_none hbefore]
    rfl
  | some m =>
    rw [heldAt_of_some hbefore]
    rfl

/-- **What an alignment leaves.**  The keys of the shape, under the layers of its lists, and
nothing nested where it has no object; the verdicts that were there, and `undetermined` for the keys
that are new; a second alignment changes nothing; the counters add up to the keys of the shape. -/
theorem align_laws (presence : SiteTree) (shape : ShapeTree) :
    (∀ path key, ((presence.align shape).root.at? (path ++ [.field key])).isSome =
      (shape.root.at? (path ++ [.field key])).isSome) ∧
    (∀ path, ((presence.align shape).root.at? (path ++ [.item])).isSome ↔
      ∃ element, shape.root.at? (path ++ [.item]) = some element ∧ element.isLeaf = false) ∧
    (∀ path n, (presence.align shape).root.at? path = some n → n.fields ≠ [] →
      ∃ fields, shape.root.at? path = some (.object fields)) ∧
    (∀ path key before after, presence.root.at? (path ++ [.field key]) = some before →
      (presence.align shape).root.at? (path ++ [.field key]) = some after →
      after.presence = before.presence) ∧
    (∀ path key after, presence.root.at? (path ++ [.field key]) = none →
      (presence.align shape).root.at? (path ++ [.field key]) = some after →
      after.presence = .undetermined) ∧
    (presence.align shape).align shape = presence.align shape ∧
    (countPresence (presence.align shape).fields .zero).total = shape.keyCount := by
  refine ⟨isSome_at?_align presence shape, layer_align presence shape,
    fun path n h => nested_align presence shape h, ?_, ?_, ?_, ?_⟩
  · intro path key before after hbefore hafter
    rw [presence_align presence shape hafter, hbefore]
    rfl
  · intro path key after hbefore hafter
    rw [presence_align presence shape hafter, hbefore]
    rfl
  · have hroot := alignNode_alignNode shape.canonical presence.canonical
    exact SiteTree.ext (congrArg VariablePresenceNode.fields hroot)
  · have htotal := total_countKeysUnder shape.canonical presence.canonical .zero
    rw [← Nat.zero_add shape.keyCount]
    exact htotal

end Whatspec.Mex

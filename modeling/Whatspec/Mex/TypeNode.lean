import Whatspec.Mex.PresenceTree

/-!
# Type trees

The shape of an operation's variables or of its response: an object has fields, a list shows one
element, everything else is a leaf.  A tree is canonical when its fields are ordered maps at every
level.
-/

namespace Whatspec.Mex

open Whatspec.Library

/-- A node of a `variablesShape` or `response` tree. -/
inductive TypeNode where
  | object (fields : List (String × TypeNode))
  | array (items : List TypeNode)
  | leaf (tag : String)

namespace TypeNode

/-- The tag of a leaf whose type is not known. -/
def unknown : String := "unknown"

def isLeaf : TypeNode → Bool
  | leaf _ => true
  | _ => false

/-- The node one step down; a list is read through its first element. -/
def child : TypeNode → Step → Option TypeNode
  | object fields, .field key => SortedMap.get fields key
  | array items, .item => items.head?
  | _, _ => none

/-- The node at the end of a path. -/
def at? (n : TypeNode) : List Step → Option TypeNode
  | [] => some n
  | s :: path => (n.child s).bind fun c => c.at? path

theorem at?_concat (n : TypeNode) (path : List Step) (s : Step) :
    n.at? (path ++ [s]) = (n.at? path).bind fun c => c.child s := by
  induction path generalizing n with
  | nil => exact (Option.bind_some ..).symm ▸ Option.bind_fun_some ..
  | cons t path ih =>
    rw [List.cons_append, at?, at?, Option.bind_assoc]
    simp only [ih]

/-- The fields of every object are an ordered map. -/
inductive Canonical : TypeNode → Prop
  | object {fields : List (String × TypeNode)} (sorted : SortedMap.Sorted fields)
      (nodes : ∀ e ∈ fields, Canonical e.2) : Canonical (.object fields)
  | array {items : List TypeNode} (nodes : ∀ n ∈ items, Canonical n) : Canonical (.array items)
  | leaf (tag : String) : Canonical (.leaf tag)

/-- Induction over type trees: a node after those below it. -/
@[elab_as_elim]
theorem induct {motive : TypeNode → Prop}
    (object : ∀ fields, (∀ e ∈ fields, motive e.2) → motive (.object fields))
    (array : ∀ items, (∀ n ∈ items, motive n) → motive (.array items))
    (leaf : ∀ tag, motive (.leaf tag)) : ∀ n, motive n
  | .object fields => object fields fun ⟨key, node⟩ he =>
      have : sizeOf node < sizeOf fields := by
        have hlt := List.sizeOf_lt_of_mem he
        rw [Prod.mk.sizeOf_spec] at hlt
        omega
      induct object array leaf node
  | .array items => array items fun n hn =>
      have : sizeOf n < sizeOf items := List.sizeOf_lt_of_mem hn
      induct object array leaf n
  | .leaf tag => leaf tag

theorem Canonical.child {n c : TypeNode} {s : Step} (h : Canonical n) (hc : n.child s = some c) :
    Canonical c := by
  cases h with
  | object sorted nodes =>
    cases s with
    | field key => exact nodes (key, c) (SortedMap.mem_of_get hc)
    | item => cases hc
  | array nodes =>
    cases s with
    | field key => cases hc
    | item => exact nodes c (List.mem_of_mem_head? hc)
  | leaf tag => cases s <;> cases hc

end TypeNode

/-- The shape of a whole variables object or response. -/
structure ShapeTree where
  fields : List (String × TypeNode)
  canonical : (TypeNode.object fields).Canonical

def ShapeTree.root (t : ShapeTree) : TypeNode := .object t.fields

end Whatspec.Mex

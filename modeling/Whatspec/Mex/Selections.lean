import Mathlib.Order.WithBot
import Whatspec.Mex.TypeNode

/-!
# The response tree of a selections literal

A compiled operation holds its selections as a literal.  `shapeFromSelections` walks it: a scalar
gives a leaf, a linked field an object or a list of one, and a fragment or a condition gives what its
own selections give.  A key that comes again is merged with what it had.
-/

namespace Whatspec.Mex

open Whatspec.Library

/-- A parsed literal. -/
inductive Val where
  | str (s : String)
  | bool (b : Bool)
  | null
  | undefined
  | num
  | obj (props : List (String × Val))
  | arr (items : List Val)
  /-- An expression that was not resolved to a literal. -/
  | ref (name : String)

namespace Val

def get (v : Val) (key : String) : Option Val :=
  match v with
  | obj props => props.lookup key
  | _ => none

def asStr : Val → Option String
  | str s => some s
  | _ => none

def isTruthyBool : Val → Bool
  | bool b => b
  | _ => false

/-- What a selection is. -/
def kind (sel : Val) : String := ((sel.get "kind").bind asStr).getD ""

/-- The response key of a selection: its alias, or else its name. -/
def responseKey (sel : Val) : Option String :=
  ((sel.get "alias").bind asStr).or ((sel.get "name").bind asStr)

def scalarKey (sel : Val) : String := sel.responseKey.getD "__typename"

def plural (sel : Val) : Bool := ((sel.get "plural").map isTruthyBool).getD false

end Val

/-! ### Merging -/

mutual

/-- Merge two nodes: a leaf gives way, objects are merged field by field, lists by their element, and
a list stands against an object. -/
def mergeShapeNode (a : TypeNode) : TypeNode → TypeNode
  | .leaf tag =>
    match a with
    | .leaf _ => .leaf tag
    | other => other
  | .array bs =>
    match a with
    | .leaf _ => .array bs
    | .array as => .array [mergeFirst as.getLast? bs]
    | .object _ => .array bs
  | .object bs =>
    match a with
    | .leaf _ => .object bs
    | .array as => .array as
    | .object as => .object (mergeFields as bs)

def mergeFirst (a : Option TypeNode) : List TypeNode → TypeNode
  | [] => a.getD (.leaf TypeNode.unknown)
  | b :: _ =>
    match a with
    | none => b
    | some a => mergeShapeNode a b

/-- Take each key out, merge, and put it back. -/
def mergeFields (fields : List (String × TypeNode)) :
    List (String × TypeNode) → List (String × TypeNode)
  | [] => fields
  | (key, node) :: rest =>
    mergeFields (SortedMap.insert key
      (match SortedMap.get fields key with
        | some existing => mergeShapeNode existing node
        | none => node) (SortedMap.remove key fields)) rest

end

/-- Merge a node into the one of its key. -/
def putMerged (key : String) (node : TypeNode) (fields : List (String × TypeNode)) :
    List (String × TypeNode) :=
  SortedMap.insert key
    (match SortedMap.get fields key with
      | some existing => mergeShapeNode existing node
      | none => node) (SortedMap.remove key fields)

theorem mergeFields_cons (fields : List (String × TypeNode)) (key : String) (node : TypeNode)
    (rest : List (String × TypeNode)) :
    mergeFields fields ((key, node) :: rest) = mergeFields (putMerged key node fields) rest := by
  rw [mergeFields, putMerged]

/-! ### The walk -/

/-- What one link gives for its response key. -/
def linkedNode (plural : Bool) (inner : List (String × TypeNode)) : TypeNode :=
  if plural then .array [.object inner] else .object inner

mutual

/-- Walk a selections array. -/
def shapeFromSelections : Val → List (String × TypeNode)
  | .arr items => addSelections items []
  | _ => []

def addSelections : List Val → List (String × TypeNode) → List (String × TypeNode)
  | [], fields => fields
  | sel :: rest, fields => addSelections rest (addSelection sel fields)

/-- One selection. -/
def addSelection : Val → List (String × TypeNode) → List (String × TypeNode)
  | .obj props, fields =>
    let sel := Val.obj props
    if sel.kind = "ScalarField" ∨ sel.kind = "TypeDiscriminator" then
      if (SortedMap.get fields sel.scalarKey).isSome then fields
      else SortedMap.insert sel.scalarKey (.leaf TypeNode.unknown) fields
    else if sel.kind = "LinkedField" then
      match sel.responseKey with
      | some key => putMerged key (linkedNode sel.plural ((innerShape props).getD [])) fields
      | none => fields
    else if sel.kind = "InlineFragment" ∨ sel.kind = "Condition" then
      mergeFields fields ((innerShape props).getD [])
    else fields
  | _, fields => fields

/-- The shape of the selections of a selection, if it has any. -/
def innerShape : List (String × Val) → Option (List (String × TypeNode))
  | [] => none
  | (key, v) :: rest =>
    if key = "selections" then some (shapeFromSelections v) else innerShape rest

end

theorem innerShape_eq (props : List (String × Val)) :
    innerShape props = ((Val.obj props).get "selections").map shapeFromSelections := by
  induction props with
  | nil => rfl
  | cons e rest ih =>
    obtain ⟨key, v⟩ := e
    rw [innerShape, Val.get, List.lookup_cons]
    by_cases hkey : key = "selections"
    · rw [if_pos hkey, hkey]
      rfl
    · rw [if_neg hkey, beq_false_of_ne (Ne.symm hkey), ih]
      rfl

/-! ### Chains of selections -/

/-- What kind of node a chain asks for: the later wins over the earlier. -/
inductive Form where
  | leaf
  | object
  | array
  deriving DecidableEq

namespace Form

def rank : Form → ℕ
  | leaf => 0
  | object => 1
  | array => 2

theorem rank_injective : Function.Injective rank := by
  intro a b h
  cases a <;> cases b <;> first | rfl | cases h

instance : LinearOrder Form := LinearOrder.lift' rank rank_injective

end Form

/-- The steps a link adds: its key, and the element of a list. -/
def linkSteps (key : String) (plural : Bool) : List Step :=
  if plural then [.field key, .item] else [.field key]

/-- A chain of selections leads along a path and asks for a node there.  A fragment or a condition
adds no step. -/
inductive Produces : Val → List Step → Form → Prop
  | scalar {items : List Val} {sel : Val} (mem : sel ∈ items)
      (kind : sel.kind = "ScalarField" ∨ sel.kind = "TypeDiscriminator") :
      Produces (.arr items) [.field sel.scalarKey] .leaf
  | list {items : List Val} {sel : Val} {key : String} (mem : sel ∈ items)
      (kind : sel.kind = "LinkedField") (name : sel.responseKey = some key)
      (plural : sel.plural = true) : Produces (.arr items) [.field key] .array
  | link {items : List Val} {sel : Val} {key : String} (mem : sel ∈ items)
      (kind : sel.kind = "LinkedField") (name : sel.responseKey = some key) :
      Produces (.arr items) (linkSteps key sel.plural) .object
  | within {items : List Val} {sel inner : Val} {key : String} {path : List Step} {form : Form}
      (mem : sel ∈ items) (kind : sel.kind = "LinkedField") (name : sel.responseKey = some key)
      (selections : sel.get "selections" = some inner) (chain : Produces inner path form) :
      Produces (.arr items) (linkSteps key sel.plural ++ path) form
  | inside {items : List Val} {sel inner : Val} {path : List Step} {form : Form}
      (mem : sel ∈ items) (kind : sel.kind = "InlineFragment" ∨ sel.kind = "Condition")
      (selections : sel.get "selections" = some inner) (chain : Produces inner path form) :
      Produces (.arr items) path form

/-- A key that is linked again is linked with the same plurality. -/
def Consistent (selections : Val) : Prop :=
  ∀ path, Produces selections path .object → ¬ Produces selections path .array

/-- The same selections in another order, at any depth. -/
inductive Reordered : Val → Val → Prop
  | perm {items items' : List Val} (h : items.Perm items') : Reordered (.arr items) (.arr items')
  | inside {above below : List Val} {before after : List (String × Val)} {v v' : Val}
      (h : Reordered v v') :
      Reordered (.arr (above ++ .obj (before ++ ("selections", v) :: after) :: below))
        (.arr (above ++ .obj (before ++ ("selections", v') :: after) :: below))
  | trans {v v' v'' : Val} (h : Reordered v v') (h' : Reordered v' v'') : Reordered v v''

end Whatspec.Mex

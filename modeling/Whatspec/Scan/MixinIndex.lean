import Mathlib.Data.String.Basic
import Whatspec.Library.SortedMap
import Whatspec.Library.Worklist
import Whatspec.Scan.Request

/-!
# Folding mixins into a request

The scanner knows what each mixin module contributes to a request and which mixins it folds in
itself.  From the mixins a request names, two loops go through everything reached: `resolve`
unions namespace, type and addressee, and `resolveFragmentChildren` collects the children.  Both
carry along where in the request's argument object the mixin reads, and both take two different
answers for none.
-/

namespace Whatspec.Scan

open Whatspec.Library

/-- A mixin folded in, and what it is handed. -/
structure MergeCallee where
  module : String
  arg : MergeArg
  deriving DecidableEq

/-- What a mixin contributes. -/
structure MixinIqFragment where
  xmlns : Option String
  iqType : Option IqType
  target : Option IqTarget
  targetArgPath : Option WapArgPath
  mergedCallees : List MergeCallee
  children : List WapChildNode

structure MixinIndex where
  byModule : List (String × MixinIqFragment)
  sorted : SortedMap.Sorted byModule

def MixinIndex.get (index : MixinIndex) (module : String) : Option MixinIqFragment :=
  SortedMap.get index.byModule module

/-- A value stated by fragments, and whether two of them disagree. -/
structure Stated (α : Type) where
  value : Option α
  conflict : Bool

namespace Stated

variable {α : Type} [DecidableEq α]

def none : Stated α := ⟨Option.none, false⟩

/-- One more fragment, which may state a value. -/
def note (s : Stated α) : Option α → Stated α
  | Option.none => s
  | some x =>
    match s.value with
    | Option.none => ⟨some x, s.conflict⟩
    | some prev => ⟨some prev, s.conflict || prev ≠ x⟩

end Stated

/-- Where an addressee is read, from where the mixin was reached. -/
def MergeArg.rebase (acc : MergeArg) (path : WapArgPath) : Option WapArgPath :=
  match acc.apply [{ WapChildNode.default with argPath := some path }] with
  | node :: _ => node.argPath
  | [] => none

/-- One more fragment, which may state an addressee's path. -/
def notePath (s : Stated WapArgPath) (acc : MergeArg) : Option WapArgPath → Stated WapArgPath
  | none => s
  | some path =>
    match acc.rebase path with
    | none => ⟨s.value, true⟩
    | some now => s.note (some now)

/-- The frame a module was reached through. -/
def frameOf (reached : List (String × MergeArg)) (module : String) : Option MergeArg :=
  reached.lookup module

/-- The state of the union. -/
structure Resolving where
  reached : List (String × MergeArg)
  targetPath : Stated WapArgPath
  xmlns : Stated String
  iqType : Stated IqType
  target : Stated IqTarget

/-- Remember the frame a module was reached through. -/
def setReached (name : String) (acc : MergeArg) : List (String × MergeArg) →
    List (String × MergeArg)
  | [] => [(name, acc)]
  | (m, prev) :: rest =>
    if m = name then (m, acc) :: rest else (m, prev) :: setReached name acc rest

/-- What a module hands on to the mixins it folds in. -/
def expand (index : MixinIndex) (name : String) (acc : MergeArg) : List (String × MergeArg) :=
  match index.get name with
  | none => []
  | some frag => frag.mergedCallees.map fun c => (c.module, acc.andThen c.arg)

/-- Take in what a module states. -/
def Resolving.contribute (s : Resolving) (frag : MixinIqFragment) (acc : MergeArg) :
    Resolving :=
  { s with
    targetPath := notePath s.targetPath acc frag.targetArgPath
    xmlns := s.xmlns.note frag.xmlns
    iqType := s.iqType.note frag.iqType
    target := s.target.note frag.target }

def Resolving.visit (index : MixinIndex) (name : String) (acc : MergeArg) (s : Resolving) :
    Resolving × List (String × MergeArg) :=
  let s := { s with reached := setReached name acc s.reached }
  match index.get name with
  | none => (s, [])
  | some frag => (s.contribute frag acc, expand index name acc)

/-- One round of the union. -/
def Resolving.round (index : MixinIndex) :
    String × MergeArg → Resolving → Resolving × List (String × MergeArg)
  | (name, acc), s =>
    match frameOf s.reached name with
    | none => s.visit index name acc
    | some prev =>
      if prev = acc then (s, [])
      -- A second frame is a disagreement; one that is known already has been passed on.
      else if prev = .unnameable then (s, [])
      else s.visit index name .unnameable

/-- What a request takes from the mixins it folds in. -/
structure Resolved where
  xmlns : Option String
  iqType : Option IqType
  target : Option IqTarget
  targetArgPath : Option WapArgPath
  deriving DecidableEq

def Resolving.result (s : Resolving) : Resolved where
  xmlns := if s.xmlns.conflict then none else s.xmlns.value
  iqType := if s.iqType.conflict then none else s.iqType.value
  target := if s.target.conflict then some .unknown else s.target.value
  targetArgPath :=
    if s.targetPath.conflict || s.target.conflict then none else s.targetPath.value

def callees (mixinModules : List MergeCallee) : List (String × MergeArg) :=
  mixinModules.map fun c => (c.module, c.arg)

/-- The loop of `resolve`. -/
def resolving (index : MixinIndex) (mixinModules : List MergeCallee) (fuel : ℕ) :
    Option Resolving :=
  drain (Resolving.round index) fuel (callees mixinModules) ⟨[], .none, .none, .none, .none⟩

def resolve (index : MixinIndex) (mixinModules : List MergeCallee) (fuel : ℕ) :
    Option Resolved :=
  (resolving index mixinModules fuel).map Resolving.result

/-- The state of the collection of children: modules in the order they were first reached, and
their frames, the latest first. -/
structure Reaching where
  order : List String
  reach : List (String × MergeArg)

/-- One round of the collection. -/
def Reaching.round (index : MixinIndex) :
    String × MergeArg → Reaching → Reaching × List (String × MergeArg)
  | (name, acc), s =>
    match frameOf s.reach name with
    | some prev =>
      if prev = acc then (s, [])
      else ({ s with reach := (name, .unnameable) :: s.reach }, expand index name .unnameable)
    | none => (⟨s.order ++ [name], (name, acc) :: s.reach⟩, expand index name acc)

/-- The first pass of `resolveFragmentChildren`. -/
def reaching (index : MixinIndex) (mixinModules : List MergeCallee) (fuel : ℕ) :
    Option Reaching :=
  drain (Reaching.round index) fuel (callees mixinModules) ⟨[], []⟩

/-- The second pass: what each module contributes, in the order they were reached. -/
def Reaching.children (index : MixinIndex) (s : Reaching) : List WapChildNode :=
  s.order.foldl (fun out name =>
    match index.get name, frameOf s.reach name with
    | some frag, some frame => mergeChildren out (frame.apply frag.children)
    | _, _ => out) []

def resolveFragmentChildren (index : MixinIndex) (mixinModules : List MergeCallee) (fuel : ℕ) :
    Option (List WapChildNode) :=
  (reaching index mixinModules fuel).map (Reaching.children index)

end Whatspec.Scan

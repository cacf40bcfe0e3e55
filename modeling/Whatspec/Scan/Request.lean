import Mathlib.Data.List.Basic

/-!
# Request trees and argument paths

A request is a tree of stanza nodes.  Its attributes, contents and children say where in the
argument object of the request builder their values are read.

* `WapChildNode` is a node, `WapArgPath` a place in an argument object;
* `MergeArg` says what a merge call hands to the mixin it folds in: the whole argument object, a
  part of it, or something no path names.  A path of a part is never empty;
* `mergeChildren` folds the children of a fragment into those of a request, by tag.
-/

namespace Whatspec.Scan

/-- One step of a path: a key, and whether it holds a list that is gone through. -/
structure WapArgSegment where
  key : String
  list : Bool
  deriving DecidableEq

abbrev WapArgPath := List WapArgSegment

inductive WapAttrKind where
  | const
  | string
  | integer
  | userJid
  | deviceJid
  | groupJid
  | generatedId
  | optional
  | dynamic
  deriving DecidableEq

structure AttrEnumVariant where
  name : String
  value : String
  deriving DecidableEq

structure AttrEnumRef where
  name : String
  module : String
  variants : List AttrEnumVariant
  deriving DecidableEq

structure WapAttrDef where
  presenceArgPath : Option WapArgPath
  name : String
  kind : WapAttrKind
  value : Option String
  required : Bool
  enumRef : Option AttrEnumRef
  argPath : Option WapArgPath
  deriving DecidableEq

inductive WapContentKind where
  | bytes
  | const
  | dynamic
  deriving DecidableEq

structure WapContent where
  kind : WapContentKind
  byteLength : Option ℕ
  byteLengthSource : Option String
  value : Option String
  constBytes : Option String
  valueSource : Option String
  argPath : Option WapArgPath
  deriving DecidableEq

inductive WapChildPresence where
  | required
  | optional
  | presenceFlag
  deriving DecidableEq

/-- One alternative of a group, over the type of its children. -/
structure WapVariant (χ : Type) where
  attrs : List WapAttrDef
  children : List χ

structure WapVariantGroup (χ : Type) where
  optional : Bool
  variants : List (WapVariant χ)

/-- A node of a request stanza. -/
structure WapChildNode where
  tag : String
  attrs : List WapAttrDef
  children : List WapChildNode
  content : Option WapContent
  repeats : Bool
  presence : WapChildPresence
  repeatMin : Option ℕ
  repeatMax : Option ℕ
  argPath : Option WapArgPath
  variantGroups : List (WapVariantGroup WapChildNode)

/-- A node of which nothing is said. -/
def WapChildNode.default : WapChildNode :=
  ⟨"", [], [], none, false, .required, none, none, none, []⟩

inductive IqType where
  | get
  | set
  deriving DecidableEq

/-- Who a request is addressed to. -/
inductive IqTarget where
  | server
  | groupServer
  | groupJid
  | unset
  | unknown
  deriving DecidableEq

/-! ### Equality of nodes -/

mutual

def WapChildNode.beq : WapChildNode → WapChildNode → Bool
  | ⟨tag, attrs, children, content, repeats, presence, least, most, path, groups⟩,
    ⟨tag', attrs', children', content', repeats', presence', least', most', path', groups'⟩ =>
    tag = tag' && attrs = attrs' && beqChildren children children' && content = content' &&
      repeats = repeats' && presence = presence' && least = least' && most = most' &&
      path = path' && beqGroups groups groups'

def beqChildren : List WapChildNode → List WapChildNode → Bool
  | [], [] => true
  | n :: ns, n' :: ns' => n.beq n' && beqChildren ns ns'
  | _, _ => false

def beqGroup : WapVariantGroup WapChildNode → WapVariantGroup WapChildNode → Bool
  | ⟨optional, variants⟩, ⟨optional', variants'⟩ =>
    optional = optional' && beqVariants variants variants'

def beqGroups : List (WapVariantGroup WapChildNode) → List (WapVariantGroup WapChildNode) → Bool
  | [], [] => true
  | g :: gs, g' :: gs' => beqGroup g g' && beqGroups gs gs'
  | _, _ => false

def beqVariants : List (WapVariant WapChildNode) → List (WapVariant WapChildNode) → Bool
  | [], [] => true
  | ⟨attrs, children⟩ :: vs, ⟨attrs', children'⟩ :: vs' =>
    attrs = attrs' && beqChildren children children' && beqVariants vs vs'
  | _, _ => false

end

/-! ### Argument paths -/

def WapAttrDef.mapArgPaths (f : Option WapArgPath → Option WapArgPath) (a : WapAttrDef) :
    WapAttrDef :=
  { a with argPath := f a.argPath, presenceArgPath := f a.presenceArgPath }

mutual

/-- Change every argument path of a node and of what is below it. -/
def WapChildNode.mapArgPaths (f : Option WapArgPath → Option WapArgPath) :
    WapChildNode → WapChildNode
  | ⟨tag, attrs, children, content, repeats, presence, least, most, path, groups⟩ =>
    ⟨tag, attrs.map (·.mapArgPaths f), mapArgPathsChildren f children,
      content.map fun c => { c with argPath := f c.argPath }, repeats, presence, least, most,
      f path, mapArgPathsGroups f groups⟩

def mapArgPathsChildren (f : Option WapArgPath → Option WapArgPath) :
    List WapChildNode → List WapChildNode
  | [] => []
  | n :: ns => n.mapArgPaths f :: mapArgPathsChildren f ns

def mapArgPathsGroups (f : Option WapArgPath → Option WapArgPath) :
    List (WapVariantGroup WapChildNode) → List (WapVariantGroup WapChildNode)
  | [] => []
  | ⟨optional, variants⟩ :: gs =>
    ⟨optional, mapArgPathsVariants f variants⟩ :: mapArgPathsGroups f gs

def mapArgPathsVariants (f : Option WapArgPath → Option WapArgPath) :
    List (WapVariant WapChildNode) → List (WapVariant WapChildNode)
  | [] => []
  | ⟨attrs, children⟩ :: vs =>
    ⟨attrs.map (·.mapArgPaths f), mapArgPathsChildren f children⟩ :: mapArgPathsVariants f vs

end

def prefixArgPaths (nodes : List WapChildNode) (path : WapArgPath) : List WapChildNode :=
  if path.isEmpty then nodes else mapArgPathsChildren (Option.map (path ++ ·)) nodes

def clearArgPaths (nodes : List WapChildNode) : List WapChildNode :=
  mapArgPathsChildren (fun _ => none) nodes

/-- What a merge call hands to the mixin it folds in. -/
inductive MergeArg where
  | prefixed (path : WapArgPath) (nonempty : path ≠ [])
  | whole
  | unnameable
  deriving DecidableEq

namespace MergeArg

/-- What the path of a merge call's second argument says, when it has one. -/
def read : Option WapArgPath → MergeArg
  | none => .unnameable
  | some path => if h : path = [] then .whole else .prefixed path h

/-- One hop after another. -/
def andThen : MergeArg → MergeArg → MergeArg
  | .unnameable, _ => .unnameable
  | _, .unnameable => .unnameable
  | .whole, x => x
  | x, .whole => x
  | .prefixed a ha, .prefixed b _ =>
    .prefixed (a ++ b) fun h => ha (List.append_eq_nil_iff.mp h).1

/-- Rebase what a mixin contributes. -/
def apply : MergeArg → List WapChildNode → List WapChildNode
  | .prefixed path _, nodes => prefixArgPaths nodes path
  | .whole, nodes => nodes
  | .unnameable, nodes => clearArgPaths nodes

end MergeArg

/-! ### Folding children -/

/-- Take over what a fragment says of a node's content and bounds. -/
def adoptBuilderFacts (d src : WapChildNode) : WapChildNode :=
  let d := if d.content.isNone then { d with content := src.content } else d
  if d.repeatMin.isNone && d.repeatMax.isNone then
    { d with repeatMin := src.repeatMin, repeatMax := src.repeatMax }
  else d

/-- Add what is not there yet. -/
def addMissing {α : Type} (same : α → α → Bool) (into : List α) : List α → List α
  | [] => into
  | x :: xs => addMissing same (if into.any (same x) then into else into ++ [x]) xs

/-- Change the first item that satisfies a test, if there is one. -/
def modifyFirst {α : Type} (p : α → Bool) (f : α → α) : List α → Option (List α)
  | [] => none
  | x :: xs => if p x then some (f x :: xs) else (modifyFirst p f xs).map (x :: ·)

mutual

/-- Fold a fragment's node into the node of its tag. -/
def mergeNode (existing : WapChildNode) : WapChildNode → WapChildNode
  | ⟨tag, attrs, children, content, repeats, presence, least, most, path, groups⟩ =>
    let existing :=
      { existing with
        attrs := addMissing (fun fa a => a.name = fa.name) existing.attrs attrs
        repeats := existing.repeats || repeats }
    let existing := adoptBuilderFacts existing
      ⟨tag, attrs, children, content, repeats, presence, least, most, path, groups⟩
    { existing with
      variantGroups := addMissing (fun g g' => beqGroup g' g) existing.variantGroups groups
      children := mergeChildren existing.children children }

/-- Fold a fragment's children into a request's, by tag. -/
def mergeChildren (into : List WapChildNode) : List WapChildNode → List WapChildNode
  | [] => into
  | fc :: rest =>
    match modifyFirst (fun c => c.tag = fc.tag) (fun existing => mergeNode existing fc) into with
    | some into' => mergeChildren into' rest
    | none => mergeChildren (into ++ [fc]) rest

end

end Whatspec.Scan

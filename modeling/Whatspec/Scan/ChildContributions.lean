import Mathlib.Algebra.Group.Int.Defs
import Whatspec.Scan.ChildExpressions

/-!
# What is done to the children that were resolved

The steps that a resolution takes on nodes it has: rebasing their argument paths to the call that
names the argument, folding the contribution of a mixin into a destination, and joining the
branches of a union.
-/

namespace Whatspec.Scan.ChildNodes

def wildcardTag : String := "smax$any"

/-! ### Contributions -/

/-- Fold a contributed node into a destination. -/
def mergeNodeInto (d src : WapChildNode) (optional : Bool) : WapChildNode :=
  let d :=
    { d with
      attrs := addMissing (fun fa a => a.name = fa.name) d.attrs src.attrs
      repeats := d.repeats || src.repeats }
  let d := adoptBuilderFacts d src
  { d with
    children := mergeChildren d.children src.children
    variantGroups := d.variantGroups ++
      src.variantGroups.map fun g => { g with optional := g.optional || optional } }

/-- A contributed node that no destination takes. -/
def markOptional (optional : Bool) (n : WapChildNode) : WapChildNode :=
  if optional then
    { n with
      variantGroups := n.variantGroups.map fun g => { g with optional := true }
      presence := if n.presence = .required then .optional else n.presence }
  else n

def applyRoot (optional : Bool) (dst : List WapChildNode) (root : WapChildNode) :
    List WapChildNode :=
  if root.tag = wildcardTag ∧ dst ≠ [] then dst.map fun d => mergeNodeInto d root optional
  else
    (modifyFirst (fun d => root.tag ≠ wildcardTag ∧ d.tag = root.tag)
      (fun d => mergeNodeInto d root optional) dst).getD (dst ++ [markOptional optional root])

/-- Fold a contribution into the destinations. -/
def applyContribution (dst contrib : List WapChildNode) (optional : Bool) : List WapChildNode :=
  contrib.foldl (applyRoot optional) dst

/-! ### Guards -/

/-- Where the presence of something in an optional merge is read. -/
def guardPath (guard : Option WapArgPath) : Option WapArgPath → Option WapArgPath
  | some inner => if guard.any (·.isPrefixOf inner) then some inner else none
  | none => guard.filter (!·.isEmpty)

def guardAttr (guard : Option WapArgPath) (a : WapAttrDef) : WapAttrDef :=
  { a with required := false, presenceArgPath := guardPath guard a.presenceArgPath }

mutual

def guardNode (guard : Option WapArgPath) : WapChildNode → WapChildNode
  | ⟨tag, attrs, children, content, repeats, presence, least, most, path, groups⟩ =>
    let guard := if presence = .required then guard else path.or guard
    ⟨tag, attrs.map (guardAttr guard), guardOptionalAttributes guard children, content, repeats,
      presence, least, most, path, guardGroups guard groups⟩

def guardOptionalAttributes (guard : Option WapArgPath) : List WapChildNode → List WapChildNode
  | [] => []
  | n :: ns => guardNode guard n :: guardOptionalAttributes guard ns

def guardGroups (guard : Option WapArgPath) :
    List (WapVariantGroup WapChildNode) → List (WapVariantGroup WapChildNode)
  | [] => []
  | ⟨_, variants⟩ :: gs => ⟨true, guardVariants guard variants⟩ :: guardGroups guard gs

def guardVariants (guard : Option WapArgPath) :
    List (WapVariant WapChildNode) → List (WapVariant WapChildNode)
  | [] => []
  | ⟨attrs, children⟩ :: vs =>
    ⟨attrs.map (guardAttr guard), guardOptionalAttributes guard children⟩ :: guardVariants guard vs

end

/-- The required children of a wildcard are there when the guard is. -/
def guardWildcard (guard : Option WapArgPath) (n : WapChildNode) : WapChildNode :=
  if n.tag = wildcardTag then
    { n with
      children := n.children.map fun c =>
        if c.presence = .required then { c with presence := .optional, argPath := guard } else c }
  else n

/-! ### Rebasing -/

/-- The path of an argument; that of a list ends in a list segment. -/
def listPath (list : Bool) (path : WapArgPath) : WapArgPath :=
  if list then path.modifyLast fun last => { last with list := true } else path

/-- Rebase what a template reads to the argument it was called with, and say where that is. -/
def rebaseTemplate (nodes : List WapChildNode) (argPath : Option WapArgPath) (list : Bool)
    (scope : VarScope) (refOff : Option ℕ) : List WapChildNode × Option WapArgPath :=
  match argPath.map (listPath list) with
  | some (segment :: path) => (prefixArgPaths nodes (segment :: path), some (segment :: path))
  | some [] =>
    if list && refOff.any scope.hasArgRoot then (clearArgPaths nodes, none) else (nodes, none)
  | none => if refOff.any scope.hasArgRoot then (clearArgPaths nodes, none) else (nodes, none)

/-- The bounds of `REPEATED_CHILD(template, list, min, max)`. -/
def repeatBounds (arguments : List (Option Expression)) : Option ℕ × Option ℕ :=
  let argument (i : ℕ) := (arguments[i]?).join
  let literal (i : ℕ) := (argument i).bind fun e =>
    e.asInt.bind fun n => if 0 ≤ n ∧ n < 2 ^ 32 then some n.toNat else none
  match literal 2, literal 3 with
  | some min, some max => (some min, some max)
  | some min, none =>
    if (argument 3).any Expression.isInfinity then (some min, none) else (none, none)
  | none, _ => (none, none)

/-! ### Unions -/

/-- Take an attribute that all variants of an `iq` share out of them, or one of its name. -/
def hoistAttr (state : List (WapVariant WapChildNode) × List WapAttrDef) (name : String) :
    List (WapVariant WapChildNode) × List WapAttrDef :=
  match (state.1.flatMap (·.attrs)).find? (·.name = name) with
  | none => state
  | some first =>
    if state.1.all fun v => v.attrs.contains first then
      (state.1.map fun v => { v with attrs := v.attrs.filter (· ≠ first) }, state.2 ++ [first])
    else
      (state.1, state.2 ++ [{ first with kind := .dynamic, value := none, argPath := none }])

/-- The branches of a union, one node for all of them when two are there. -/
def joinBranches (branches : List (List WapChildNode)) : List WapChildNode :=
  let roots := branches.filterMap List.head?
  let variants := roots.map fun root => WapVariant.mk root.attrs root.children
  if 2 ≤ variants.length then
    let tag := (roots.map (·.tag)).headD ""
    let names := ((variants.flatMap fun v => v.attrs.map (·.name)).dedup).mergeSort (· ≤ ·)
    let hoisted := if tag = "iq" then names.foldl hoistAttr (variants, []) else (variants, [])
    [{ WapChildNode.default with
       tag := tag, attrs := hoisted.2, variantGroups := [⟨false, hoisted.1⟩] }]
  else branches.flatten

end Whatspec.Scan.ChildNodes

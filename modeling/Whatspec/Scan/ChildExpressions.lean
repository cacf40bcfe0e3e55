import Mathlib.Algebra.Group.Nat.Defs
import Mathlib.Data.List.MinMax
import Whatspec.Scan.Request

/-!
# The expressions a child is built by

What the resolution of a child reads: the expression, the variables in scope with the spans of their
initializers, and the aliases of the builder modules.

* `Expression` are the forms the resolution tells apart, `parseWapCall` recognizes a builder call;
* `VarScope` are the initializers of each name, and which functions a name stands for;
* `scopeInside` is the scope a function body is resolved in.
-/

namespace Whatspec.Scan.ChildNodes

/-- An expression.  The arguments of a call and the elements of an array are `none` where they are
spread. -/
inductive Expression where
  | parenthesized (e : Expression)
  | identifier (name : String)
  | string (value : String)
  /-- A number, with its value when it is an integer of 64 bits. -/
  | number (value : Option ℤ)
  | negation (e : Expression)
  | division (left right : Expression)
  | conditional (test consequent alternate : Expression)
  | array (elements : List (Option Expression))
  /-- A member; no property where it is not a fixed name. -/
  | member (object : Expression) (property : Option String)
  | call (callee : Expression) (arguments : List (Option Expression))
  | assignment (right : Expression)
  /-- A function expression; no body text, no parameters when one of them is no plain name. -/
  | function (params : List String) (body : Option String)
  /-- Any other form. -/
  | other (text : String)

namespace Expression

def asIdentifier : Expression → Option String
  | identifier name => some name
  | _ => none

def asString : Expression → Option String
  | string value => some value
  | _ => none

/-- The object and the property of a static member. -/
def asMember : Expression → Option (Expression × String)
  | member object (some property) => some (object, property)
  | _ => none

def asInt : Expression → Option ℤ
  | number value => value
  | negation e => (asInt e).bind fun n => if n = -2 ^ 63 then none else some (-n)
  | _ => none

/-- Positive infinity as a minifier writes it. -/
def isInfinity : Expression → Bool
  | identifier name => name = "Infinity"
  | division left right => (left.asInt.any fun n => 0 < n) && right.asInt = some 0
  | _ => false

/-- `o("Module")` names the module. -/
def requireModuleName : Expression → Option String
  | call _ (some e :: _) => e.asString
  | _ => none

/-- `o("Module").fn`. -/
def requireMemberCall (callee : Expression) : Option (String × String) :=
  callee.asMember.bind fun m => m.1.requireModuleName.map (·, m.2)

/-- The module a reference to a merge function belongs to. -/
def mergeRefOwner : Expression → Option String
  | call callee _ => callee.asMember.bind fun m => m.1.requireModuleName
  | member object _ => object.requireModuleName
  | _ => none

end Expression

/-! ### Aliases -/

def trackedOwners : List String :=
  ["WASmaxJsx", "WAWap", "WASmaxAttrs", "WASmaxChildren", "WASmaxMixins"]

/-- Local names of the tracked modules. -/
abbrev AliasMap := List (String × String)

def requireOwner (e : Expression) : Option String :=
  e.requireModuleName.filter (trackedOwners.contains ·)

/-- The tracked module an expression denotes. -/
def resolveOwner (aliases : AliasMap) : Expression → Option String
  | .parenthesized e => resolveOwner aliases e
  | .identifier name => aliases.lookup name
  | .assignment right => resolveOwner aliases right
  | e => requireOwner e

structure WapCall where
  tag : String
  attrsNode : Option Expression
  childArgs : List (Option Expression)

/-- Recognize `X.wap("tag", …)`, or `X.smax("tag", …)` where `X` is `WASmaxJsx`. -/
def parseWapCall (aliases : AliasMap) (callee : Expression) (arguments : List (Option Expression)) :
    Option WapCall :=
  match callee.asMember with
  | none => none
  | some (object, method) =>
    if method = "wap" ∨ (method = "smax" ∧ resolveOwner aliases object = some "WASmaxJsx") then
      match arguments with
      | some first :: rest =>
        first.asString.map fun tag => ⟨tag, rest.headD none, rest.drop 1⟩
      | _ => none
    else none

/-! ### Scopes -/

abbrev Span := ℕ × ℕ

def Span.contains (span : Span) (offset : ℕ) : Bool := span.1 ≤ offset && offset < span.2

def Span.shift (start : ℕ) (span : Span) : Span := (span.1 + start, span.2 + start)

/-- One initializer of a name. -/
structure VarInit where
  initStart : ℕ
  initEnd : ℕ
  /-- The body, when the initializer or declaration is a function. -/
  fnBody : Option Span
  /-- The body of the function the initializer stands in, when only that one sees it. -/
  ownerFn : Option Span

/-- Whether an initializer is one for a reference at an offset. -/
def VarInit.appliesTo (init : VarInit) (refOff : Option ℕ) : Bool :=
  init.ownerFn.all fun owner => refOff.any owner.contains

structure VarScope where
  bundledRpc : Bool
  guardOptionalDescendants : Bool
  localMerges : List Span
  vars : List (String × List VarInit)
  /-- Every function, as the span of its body and its parameters. -/
  fnParams : List (Span × List String)
  lexicalParams : List (Span × List String)

namespace VarScope

/-- The initializers of a name. -/
def inits (scope : VarScope) (name : String) : List VarInit := (scope.vars.lookup name).getD []

def maxFnDepth (scope : VarScope) : ℕ := if scope.bundledRpc then 32 else 8

/-- The width of the function an initializer is owned by; the module is wider than any. -/
def width : Option Span → ℕ
  | some owner => owner.2 - owner.1
  | none => 2 ^ 64 - 1

/-- The function the closest visible binding of a name is, if it is one. -/
def visibleFunction (scope : VarScope) (name : String) (refOff : Option ℕ) : Option Span :=
  refOff.bind fun offset =>
    let visible := (scope.inits name).filter fun init => init.ownerFn.all (·.contains offset)
    (visible.argmin fun init => width init.ownerFn).bind fun closest =>
      let shadowed := scope.lexicalParams.any fun p =>
        p.1.contains offset && p.2.contains name && decide (p.1.2 - p.1.1 < width closest.ownerFn)
      if shadowed then none
      else
        match ((scope.inits name).filter (·.ownerFn = closest.ownerFn)).filterMap (·.fnBody) with
        | [] => none
        | function :: others => if others.all (· = function) then some function else none

/-- The functions a call of a name may run. -/
def callableSpans (scope : VarScope) (name : String) (refOff : Option ℕ) : List Span :=
  if scope.bundledRpc || scope.guardOptionalDescendants then
    (scope.visibleFunction name refOff).toList
  else (scope.inits name).filterMap (·.fnBody)

/-- Whether the innermost function around an offset takes exactly one parameter. -/
def hasArgRoot (scope : VarScope) (offset : ℕ) : Bool :=
  let around := scope.fnParams.filter fun p => p.1.contains offset
  (around.argmin fun p => p.1.2 - p.1.1).any fun p => p.2.length = 1

end VarScope

/-- The local merge function a name stands for. -/
def localMergeSpan (scope : VarScope) (name : String) (refOff : Option ℕ) : Option Span :=
  (scope.visibleFunction name refOff).filter (scope.localMerges.contains ·)

/-- Add initializers to those of a name. -/
def addInits (name : String) (inits : List VarInit) :
    List (String × List VarInit) → List (String × List VarInit)
  | [] => [(name, inits)]
  | v :: vars =>
    if v.1 = name then (v.1, v.2 ++ inits) :: vars else v :: addInits name inits vars

/-- An initializer found in the text of a function body, in the offsets of the module. -/
def VarInit.inside (body : Span) (init : VarInit) : VarInit where
  initStart := init.initStart + body.1
  initEnd := init.initEnd + body.1
  fnBody := init.fnBody.map (Span.shift body.1)
  ownerFn := some ((init.ownerFn.map (Span.shift body.1)).getD body)

/-- The scope a function body is resolved in: its own names, then those of the scope around it. -/
def scopeInside (scope own : VarScope) (body : Span) : VarScope where
  bundledRpc := scope.bundledRpc
  guardOptionalDescendants := scope.guardOptionalDescendants
  localMerges := scope.localMerges
  vars := scope.vars.foldl (fun vars v => addInits v.1 v.2 vars)
    (own.vars.map fun v => (v.1, v.2.map (VarInit.inside body)))
  fnParams := own.fnParams.map (fun p => (p.1.shift body.1, p.2)) ++ scope.fnParams
  lexicalParams := own.lexicalParams.map (fun p => (p.1.shift body.1, p.2)) ++ scope.lexicalParams

/-- The frame of a merge function, whose first parameter is the destination. -/
def mergeFrame (scope : VarScope) (span : Span) : VarScope :=
  { scope with
    fnParams := scope.fnParams.map fun p => if p.1 = span then (p.1, p.2.drop 1) else p }

end Whatspec.Scan.ChildNodes

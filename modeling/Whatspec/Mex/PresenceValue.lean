import Whatspec.Mex.PresenceTree

/-!
# What an expression can evaluate to

A value expression is kept as far as presence depends on it: `Value` says whether it can be
`undefined` and, when it is an object, what keys it carries.

* `Scopes` are the bindings around an expression, and `Scopes.lookup` reads a name;
* `definedness` answers whether a value can evaluate to `undefined`, or to a function, whose key is
  dropped.

How deep a walk may go is given by the steps that remain.
-/

namespace Whatspec.Mex

open Whatspec.Library

mutual

/-- A value expression, kept only as far as presence depends on it. -/
inductive Value where
  /-- A literal, a comparison or a coercion. -/
  | defined
  /-- May be `undefined`. -/
  | maybeUndefined
  /-- A form that is not judged. -/
  | unjudged
  /-- A function or a class. -/
  | dropped
  /-- Defined and truthy. -/
  | truthy
  /-- An accessor without a getter. -/
  | writeOnly
  /-- A property read that could not be followed. -/
  | read
  /-- A parameter. -/
  | given
  /-- An accessor with a getter. -/
  | getter
  | null
  | ref (name : String)
  | object (props : List Property)
  | array (items : List Value)
  | orElse (lhs rhs : Value)
  | coalesce (lhs rhs : Value)
  | andThen (lhs rhs : Value)
  | either (a b : Value)
  | call (module : Option String)

/-- A property of an object literal. -/
inductive Property where
  | key (name : String) (value : Value)
  | spread (source : Value)
  /-- A computed key. -/
  | unreadable

end

/-- The values of the names of one frame. -/
abbrev Bindings := List (String × Value)

/-- Local bindings, innermost frame last. -/
structure Scopes where
  frames : List Bindings
  /-- Per frame, the names its function declares with `var`. -/
  frameHoisted : List Bindings
  /-- The names of the module's top level. -/
  hoisted : Bindings
  /-- The names that the module writes again. -/
  moduleRewritten : Bindings

namespace Scopes

/-- The value of a name: what the module leaves it at, for a name of the module read inside a
function, or else that of the innermost frame, and last that of the module's top level. -/
def lookup (scopes : Scopes) (name : String) : Option Value :=
  let pairs := scopes.frames.zip scopes.frameHoisted
  let inFrames := pairs.reverse.findSome? fun p =>
    (SortedMap.get p.1 name).or (SortedMap.get p.2 name)
  let standing := inFrames.or (SortedMap.get scopes.hoisted name)
  let shadowed := (pairs.drop 1).any fun p =>
    (SortedMap.get p.1 name).isSome || (SortedMap.get p.2 name).isSome
  if 1 < scopes.frames.length && !shadowed then
    (SortedMap.get scopes.moduleRewritten name).or standing
  else standing

/-- Follow a name to what it is bound to. -/
def resolve (scopes : Scopes) : ℕ → Value → Value
  | remaining + 1, .ref name =>
      match scopes.lookup name with
      | some bound => resolve scopes remaining bound
      | none => .ref name
  | _, value => value

end Scopes

def maxDepth : ℕ := 12

/-! ### Definedness -/

/-- What an expression can evaluate to. -/
inductive Definedness where
  | defined
  | maybeUndefined
  | unjudged
  deriving DecidableEq

namespace Definedness

def presence : Definedness → VariablePresence
  | defined => .always
  | maybeUndefined => .conditional
  | unjudged => .undetermined

theorem presence_injective : Function.Injective presence := by
  intro a b h
  cases a <;> cases b <;> first | rfl | cases h

instance : LinearOrder Definedness := LinearOrder.lift' presence presence_injective

theorem max_eq_defined {a b : Definedness} : max a b = defined ↔ a = defined ∧ b = defined := by
  cases a <;> cases b <;> decide

end Definedness

/-- A name that nothing binds: two of them are numbers. -/
def unboundDefinedness (name : String) : Definedness :=
  if name = "NaN" ∨ name = "Infinity" then .defined else .maybeUndefined

/-- Whether a value can evaluate to `undefined`, or is dropped. -/
def definedness (scopes : Scopes) : ℕ → Value → Definedness
  | 0, _ => .unjudged
  | remaining + 1, value =>
    match value with
    | .defined | .truthy | .null | .object _ | .array _ => .defined
    | .maybeUndefined | .read | .given | .dropped | .writeOnly => .maybeUndefined
    | .unjudged | .call _ | .getter => .unjudged
    | .orElse lhs rhs =>
      match scopes.resolve maxDepth lhs with
      | .truthy | .object _ | .array _ => definedness scopes remaining lhs
      | .dropped => .maybeUndefined
      | .either a b => max (definedness scopes remaining (.orElse a rhs))
          (definedness scopes remaining (.orElse b rhs))
      | _ => definedness scopes remaining rhs
    | .coalesce lhs rhs =>
      match scopes.resolve maxDepth lhs with
      | .defined | .truthy | .object _ | .array _ => definedness scopes remaining lhs
      | .dropped => .maybeUndefined
      | .either a b => max (definedness scopes remaining (.coalesce a rhs))
          (definedness scopes remaining (.coalesce b rhs))
      | _ => definedness scopes remaining rhs
    | .andThen lhs rhs =>
      match scopes.resolve maxDepth lhs with
      | .dropped => definedness scopes remaining rhs
      | .null => .defined
      | _ => max (definedness scopes remaining lhs) (definedness scopes remaining rhs)
    | .either a b => max (definedness scopes remaining a) (definedness scopes remaining b)
    | .ref name =>
      match scopes.lookup name with
      | some bound => definedness scopes remaining bound
      | none => unboundDefinedness name

end Whatspec.Mex

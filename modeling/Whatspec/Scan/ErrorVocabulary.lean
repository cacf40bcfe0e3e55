import Mathlib.Data.String.Basic
import Whatspec.Codegen.Accessors
import Whatspec.Library.Upsert

/-!
# The errors a response accepts

An error variant of a response reads the code and the text of an `<error>` node, and sometimes of
the node that encloses it.  The vocabulary is what it accepts, in two pieces: the arms, one for each
way through the unions of the variant, and the envelope of the enclosing node.

* `Pin` is what one field requires, `ErrorArm` what an arm does;
* `armPins` gathers the pins of one shape, `collectUnionArms` the arms of the alternatives,
  `pinsByPath` the pins outside them by the path they are read on;
* `errorVocabulary` puts them together;
* `FieldsHold` reads the fields as a conjunction and each union as a disjunction.
-/

namespace Whatspec.Scan.Errors

open Whatspec.Library
open Whatspec.Codegen (parseInteger IntegerWidth)

/-- One accepted `<error>` shape. -/
structure ErrorArm where
  name : Option String
  code : Option ℤ
  text : Option String
  codeMin : Option ℤ
  codeMax : Option ℤ
  deriving DecidableEq

def ErrorArm.default : ErrorArm := ⟨none, none, none, none, none⟩

structure ErrorVocabulary where
  arms : List ErrorArm
  envelope : Option ErrorArm
  deriving DecidableEq

/-- What a field says apart from the fields below it. -/
structure FieldHead where
  name : String
  wireName : Option String
  literalValue : Option String
  intMin : Option ℤ
  intMax : Option ℤ
  tag : Option String
  sameNode : Bool
  sourcePath : Option (List String)
  deriving DecidableEq

mutual

/-- A field of a response: what it says, the fields of its child, and its alternatives. -/
inductive ParsedField where
  | mk (head : FieldHead) (children : List ParsedField)
      (unionVariants : Option (List UnionVariant))

inductive UnionVariant where
  | mk (name : String) (fields : List ParsedField)

end

/-! ### Pins -/

/-- What a field requires of the code or the text of its node. -/
inductive Pin where
  | code (n : ℤ)
  | text (s : String)
  | range (lo hi : ℤ)
  deriving DecidableEq

def FieldHead.wire (h : FieldHead) : String := h.wireName.getD h.name

/-- The pin of a field: a literal code, a literal text, or a range of codes. -/
def FieldHead.pin (h : FieldHead) : Option Pin :=
  if h.wire = "code" then
    match h.literalValue, h.intMin, h.intMax with
    | some lit, _, _ => (parseInteger .i64 lit).map .code
    | none, some lo, some hi => some (.range lo hi)
    | _, _, _ => none
  else if h.wire = "text" then h.literalValue.map .text
  else none

/-- A pin replaces the one of its kind. -/
def ErrorArm.put (arm : ErrorArm) : Pin → ErrorArm
  | .code n => { arm with code := some n }
  | .text s => { arm with text := some s }
  | .range lo hi => { arm with codeMin := some lo, codeMax := some hi }

/-- What an arm has none of comes from the other one. -/
def ErrorArm.inherit (arm outer : ErrorArm) : ErrorArm where
  name := arm.name
  code := arm.code.or outer.code
  text := arm.text.or outer.text
  codeMin := arm.codeMin.or outer.codeMin
  codeMax := arm.codeMax.or outer.codeMax

/-- `arm_pins`: the pins of one error shape, without its alternatives. -/
def armPinsFrom : List ParsedField → ErrorArm → ErrorArm
  | [], arm => arm
  | ⟨head, children, _⟩ :: rest, arm =>
    let arm := match head.pin with
      | some pin => arm.put pin
      | none => arm
    armPinsFrom rest (armPinsFrom children arm)

def armPins (fields : List ParsedField) : ErrorArm := armPinsFrom fields .default

/-- `pins_by_path`: the pins outside the alternatives, by the path they are read on. -/
def pinsByPath : List ParsedField → List String → List (List String × ErrorArm) →
    List (List String × ErrorArm)
  | [], _, out => out
  | ⟨head, children, _⟩ :: rest, base, out =>
    let path := base ++ head.sourcePath.getD []
    let out := match head.pin with
      | some pin => Upsert.upsert (fun arm p => (arm.getD .default).put p) out (path, pin)
      | none => out
    pinsByPath rest base (pinsByPath children path out)

/-- `reads_error_fields`: a code or a text is read at all. -/
def readsErrorFields : List ParsedField → Bool
  | [] => false
  | ⟨head, children, _⟩ :: rest =>
    head.wire = "code" || head.wire = "text" || readsErrorFields children || readsErrorFields rest

/-! ### Arms -/

mutual

/-- `collect_union_arms`: the arms of the alternatives, and whether there is one. -/
def collectUnionArms : List ParsedField → List ErrorArm × Bool
  | [] => ([], false)
  | ⟨_, children, unionVariants⟩ :: rest =>
    let own := unionArms unionVariants
    let below := collectUnionArms children
    let next := collectUnionArms rest
    (own.1 ++ (below.1 ++ next.1), own.2 || (below.2 || next.2))

def unionArms : Option (List UnionVariant) → List ErrorArm × Bool
  | none => ([], false)
  | some variants => (variantArms variants, !variants.isEmpty)

def variantArms : List UnionVariant → List ErrorArm
  | [] => []
  | ⟨name, fields⟩ :: rest =>
    let own := armPins fields
    let nested := collectUnionArms fields
    (if nested.2 then
      nested.1.map fun arm => { arm.inherit own with name := some (arm.name.getD name) }
    else [{ own with name := some name }]) ++ variantArms rest

end

/-- `collect_error_arms`: the arms, and whether they come from a union. -/
def collectErrorArms (fields : List ParsedField) : List ErrorArm × Bool :=
  let arms := collectUnionArms fields
  if arms.2 then arms
  else
    let arm := armPins fields
    (if arm ≠ .default ∨ readsErrorFields fields then [arm] else [], false)

/-- The least an arm inherits from all of these, the first ones first. -/
def inheritAll (arm : ErrorArm) (outer : List ErrorArm) : ErrorArm :=
  outer.foldl ErrorArm.inherit arm

/-- `error_vocabulary`. -/
def errorVocabulary (fields : List ParsedField) : ErrorVocabulary :=
  let arms := collectErrorArms fields
  let byPath := pinsByPath fields [] []
  if arms.2 && !byPath.isEmpty then
    -- The deepest pins sit on the node the arms discriminate, anything shallower encloses it.
    let deepest := (byPath.map fun e => e.1.length).foldl max 0
    let inner := (byPath.filter fun e => e.1.length = deepest).map Prod.snd
    let outer := (byPath.filter fun e => e.1.length ≠ deepest).map Prod.snd
    let envelope := inheritAll .default outer
    ⟨arms.1.map fun arm => inheritAll arm inner,
      if envelope = .default then none else some envelope⟩
  else ⟨arms.1, none⟩

/-! ### Meaning -/

/-- The code and the text of a node. -/
structure Reading where
  code : ℤ
  text : String
  deriving DecidableEq

/-- What a pin requires. -/
def Pin.Holds (x : Reading) : Pin → Prop
  | .code n => x.code = n
  | .text s => x.text = s
  | .range lo hi => lo ≤ x.code ∧ x.code ≤ hi

/-- What an arm accepts. -/
structure ErrorArm.Accepts (arm : ErrorArm) (x : Reading) : Prop where
  code : ∀ n, arm.code = some n → x.code = n
  text : ∀ s, arm.text = some s → x.text = s
  codeMin : ∀ lo, arm.codeMin = some lo → lo ≤ x.code
  codeMax : ∀ hi, arm.codeMax = some hi → x.code ≤ hi

/-- What a required field says of the code and the text of its node. -/
def FieldHead.Holds (h : FieldHead) (x : Reading) : Prop :=
  (h.wire = "code" →
    (∀ lit, h.literalValue = some lit → parseInteger .i64 lit = some x.code) ∧
    (∀ lo, h.intMin = some lo → lo ≤ x.code) ∧ ∀ hi, h.intMax = some hi → x.code ≤ hi) ∧
  (h.wire = "text" → ∀ lit, h.literalValue = some lit → x.text = lit)

/-- The node that a field is read from, below the one its parent is read from. -/
def FieldHead.node (h : FieldHead) (base : List String) : List String :=
  base ++ h.sourcePath.getD []

/-- The node that the fields of a field's child are read from. -/
def FieldHead.childNode (h : FieldHead) (base : List String) : List String :=
  h.node base ++ if h.sameNode then [] else h.tag.toList

mutual

/-- The fields as a conjunction and each union as a disjunction, on the readings of the nodes. -/
def FieldsHold (ρ : List String → Reading) : List String → List ParsedField → Prop
  | _, [] => True
  | base, ⟨head, children, unionVariants⟩ :: rest =>
    head.Holds (ρ (head.node base)) ∧ FieldsHold ρ (head.childNode base) children ∧
      UnionHolds ρ (head.node base) unionVariants ∧ FieldsHold ρ base rest

def UnionHolds (ρ : List String → Reading) : List String → Option (List UnionVariant) → Prop
  | _, none => True
  | base, some variants => SomeVariantHolds ρ base variants

def SomeVariantHolds (ρ : List String → Reading) : List String → List UnionVariant → Prop
  | _, [] => False
  | base, ⟨_, fields⟩ :: rest => FieldsHold ρ base fields ∨ SomeVariantHolds ρ base rest

end

/-- What the vocabulary accepts of the enclosing and the discriminated node. -/
def ErrorVocabulary.Accepts (v : ErrorVocabulary) (outer inner : Reading) : Prop :=
  (∀ envelope, v.envelope = some envelope → envelope.Accepts outer) ∧
    ∃ arm ∈ v.arms, arm.Accepts inner

end Whatspec.Scan.Errors

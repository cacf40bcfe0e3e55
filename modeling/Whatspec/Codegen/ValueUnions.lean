import Whatspec.Codegen.Accessors
import Whatspec.Codegen.Cascades

/-!
# Unions of values

A field of a response may be a union: alternatives that one node is read as.  Three shapes carry
values read off one node, and become an enumeration whose variants have these values as members.

* `classifyValueUnion` finds the shape: by the text of a child, by the value of one attribute, or
  by what the alternatives pin and require;
* `leafGuard` is everything that is checked of one leaf before an alternative is taken, and
  `fieldExpr` is how the leaf is then read;
* `ValueShape.read` is what the generated code does with a node.

Names stand as they are in the fields; the generator only changes their case.
-/

namespace Whatspec.Codegen

/-! ### Values -/

/-- How nodes and their values are read. -/
structure ValueReader (ν J : Type) extends NodeReader ν where
  toJid : String → Option J
  defaultJid : J

inductive WireValue (J : Type) where
  | text (s : String)
  | integer (n : ℤ)
  | bytes (b : List UInt8)
  | jid (j : J)

/-- A member of a variant: its type is an `Option` or it is not. -/
inductive Stored (J : Type) where
  | plain (v : WireValue J)
  | option (v : Option (WireValue J))

/-- A variant that was taken, with its members. -/
structure Selection (J : Type) where
  variant : String
  payload : List (String × Stored J)

/-- How a raw value is decoded. -/
inductive Decoder where
  | text
  | integer (w : IntegerWidth)
  | jid
  | bytes
  | uint

/-- Big-endian bytes, folded into 64 bits. -/
def foldUint (b : List UInt8) : UInt64 := b.foldl (fun acc x => acc <<< 8 ||| x.toUInt64) 0

def contentDecoder (f : ParsedField) : Decoder :=
  if f.method = "contentUint" then .uint
  else
    match methodFieldType f.method with
    | .bytes => .bytes
    | .integer => .integer (integerWidth f)
    | _ => .text

def attrDecoder (f : ParsedField) : Decoder :=
  match methodFieldType f.method with
  | .integer => .integer (integerWidth f)
  | t => if t.isJid then .jid else .text

/-- The expression that a leaf is read with.  Without an attribute it reads the content. -/
structure FieldExpr where
  wire : Option String
  decoder : Decoder
  optional : Bool

def fieldExpr (f : ParsedField) : FieldExpr :=
  if isContentMethod f.method then ⟨none, contentDecoder f, !f.parserRequired⟩
  else ⟨some f.wire, attrDecoder f, isOptionalMethod f.method || !f.parserRequired⟩

section Reading

variable {ν J : Type} (nodes : ValueReader ν J)

def Decoder.content (node : ν) : Decoder → Option (WireValue J)
  | .text => (nodes.contentStr node).map .text
  | .integer w => (nodes.contentStr node).bind fun s => (parseInteger w s).map .integer
  | .bytes => (nodes.contentBytes node).map .bytes
  | .uint => (nodes.contentBytes node).map fun b => .integer (foldUint b).toNat
  | .jid => none

def Decoder.attr (node : ν) (wire : String) : Decoder → Option (WireValue J)
  | .integer w => (nodes.getAttr node wire).bind fun s => (parseInteger w s).map .integer
  | .jid => (nodes.getAttr node wire).bind fun s => (nodes.toJid s).map .jid
  | _ => (nodes.getAttr node wire).map .text

/-- `Default::default` of the decoded type. -/
def Decoder.default : Decoder → WireValue J
  | .text => .text ""
  | .integer _ | .uint => .integer 0
  | .bytes => .bytes []
  | .jid => .jid nodes.defaultJid

def FieldExpr.read (node : ν) (e : FieldExpr) : Option (WireValue J) :=
  match e.wire with
  | none => e.decoder.content nodes node
  | some wire => e.decoder.attr nodes node wire

def FieldExpr.eval (node : ν) (e : FieldExpr) : Stored J :=
  if e.optional then .option (e.read nodes node)
  else .plain ((e.read nodes node).getD (e.decoder.default nodes))

end Reading

/-! ### Guards -/

/-- The accessor of the content that is asked whether it is there. -/
inductive RawContent where
  | bytes
  | text
  deriving DecidableEq

/-- A conjunct of a guard, about one leaf.  The type of a number that no band bounds is left to
the compiler; it is read at the width of the leaf here. -/
inductive LeafTest where
  | attrAmong (wire : String) (absent : Bool) (values : List String)
  | contentAmong (absent : Bool) (values : List String)
  | textParses (w : IntegerWidth) (band : Option IntBand)
  | contentThere (raw : RawContent) (band : Option ByteBand)
  | attrIs (wire value : String)
  | attrParsesTo (wire : String) (w : IntegerWidth) (n : ℤ)
  | hasAttr (wire : String)
  | attrDecodes (wire : String) (decoder : Decoder) (band : Option IntBand)
  | absentAttrOr (wire : String) (test : LeafTest)
  | absentContentOr (raw : RawContent) (test : LeafTest)

def WireValue.within {J : Type} (band : IntBand) : WireValue J → Bool
  | .integer n => band.holds n
  | _ => false

section Guards

variable {ν J : Type} (nodes : ValueReader ν J)

/-- The length of the raw content, where there is any. -/
def RawContent.size (node : ν) : RawContent → Option ℕ
  | .bytes => (nodes.contentBytes node).map List.length
  | .text => (nodes.contentStr node).map String.utf8ByteSize

def LeafTest.holds (node : ν) : LeafTest → Bool
  | .attrAmong wire absent values => (nodes.getAttr node wire).elim absent (· ∈ values)
  | .contentAmong absent values => (nodes.contentStr node).elim absent (· ∈ values)
  | .textParses w band =>
    ((nodes.contentStr node).bind (parseInteger w)).any fun n => band.all (·.holds n)
  | .contentThere raw band => (raw.size nodes node).any fun len => band.all (·.holds len)
  | .attrIs wire value => nodes.getAttr node wire = some value
  | .attrParsesTo wire w n => (nodes.getAttr node wire).bind (parseInteger w) = some n
  | .hasAttr wire => (nodes.getAttr node wire).isSome
  | .attrDecodes wire decoder band =>
    (decoder.attr nodes node wire).any fun v => band.all v.within
  | .absentAttrOr wire test => (nodes.getAttr node wire).isNone || LeafTest.holds node test
  | .absentContentOr raw test => (raw.size nodes node).isNone || LeafTest.holds node test

end Guards

def isTyped (f : ParsedField) : Bool :=
  let t := methodFieldType f.method
  t = .integer || t.isJid || isContentMethod f.method

def rawContent (f : ParsedField) : RawContent :=
  match methodFieldType f.method with
  | .bytes => .bytes
  | .integer => if f.method = "contentUint" then .bytes else .text
  | _ => .text

/-- The number that an integer is pinned to, where the width of the field holds it. -/
def pinnedInteger (f : ParsedField) (lit : String) : Option ℤ :=
  if methodFieldType f.method = .integer then
    (parseInteger .i128 lit).filter (integerWidth f).fits
  else none

/-- The guard of a content leaf without a vocabulary. -/
def contentGuard (f : ParsedField) : Option LeafTest :=
  let raw := rawContent f
  let guarded := fun test : LeafTest =>
    if f.parserRequired then test else .absentContentOr raw test
  if raw = .text ∧ methodFieldType f.method = .integer then
    some (guarded (.textParses (integerWidth f) (intBand f)))
  else
    match byteBand f with
    | some band => some (guarded (.contentThere raw (some band)))
    | none => if f.parserRequired then some (.contentThere raw none) else none

/-- The guard of an attribute without a vocabulary. -/
def attrGuard (f : ParsedField) : Option LeafTest :=
  let guarded := fun test : LeafTest =>
    if f.parserRequired then test else .absentAttrOr f.wire test
  match f.literalValue with
  | some lit =>
    some <| guarded <| match pinnedInteger f lit with
      | some n => .attrParsesTo f.wire (integerWidth f) n
      | none => .attrIs f.wire lit
  | none =>
    if !isTyped f && (intBand f).isNone then
      if f.parserRequired then some (.hasAttr f.wire) else none
    else some (guarded (.attrDecodes f.wire (attrDecoder f) (intBand f)))

/-- Everything that is checked of one leaf before its alternative is taken. -/
def leafGuard (f : ParsedField) : Option LeafTest :=
  match enumValues f with
  | some values =>
    if isContentMethod f.method then some (.contentAmong (!f.parserRequired) values)
    else some (.attrAmong f.wire (!f.parserRequired) values)
  | none => if isContentMethod f.method then contentGuard f else attrGuard f

/-! ### Shapes -/

/-- An alternative that is chosen by a content. -/
structure ContentArm where
  variant : String
  content : String

/-- An alternative that is chosen by the value of an attribute. -/
structure AttrArm where
  variant : String
  value : String
  children : List String
  fields : List ParsedField

/-- An alternative that carries leaves. -/
structure ValueArm where
  variant : String
  fields : List ParsedField
  assertions : List ResponseAssertion

inductive ValueShape where
  | content (descend : List String) (arms : List ContentArm) (fallback : Option ValueArm)
  | attrDiscriminated (attr : String) (arms : List AttrArm)
  | sameNode (arms : List ValueArm)

def tagAssert (assertions : List ResponseAssertion) : Option String :=
  (assertions.find? (·.kind = .tag)).bind (·.name)

def contentAssert (assertions : List ResponseAssertion) : Option String :=
  (assertions.find? (·.kind = .content)).bind (·.value)

/-- A leaf that a variant can carry: an attribute or a content. -/
def isSimpleLeaf (f : ParsedField) : Bool :=
  f.fieldType ≠ .union && (f.children.all (·.isEmpty)) && isAttrField f &&
    f.method ≠ hasAttrMethod

/-- No leaf has a check that a guard cannot spell. -/
def armPayloadRepresentable (fields : List ParsedField) : Bool :=
  !fields.any fun f =>
    (isContentMethod f.method && f.literalValue.isSome) || f.referencePath.isSome ||
      contradictoryBand f ||
      (methodFieldType f.method = .integer &&
        f.literalValue.any fun lit => (pinnedInteger f lit).isNone)

/-- The alternatives that are pinned to contents, and the one that is not. -/
def contentArms : List UnionVariant → List ContentArm → Option ValueArm →
    Option (List ContentArm × Option ValueArm)
  | [], arms, fallback => some (arms, fallback)
  | v :: variants, arms, fallback =>
    match contentAssert v.assertions with
    | some c =>
      if !v.fields.isEmpty || c ∈ arms.map ContentArm.content then none
      else contentArms variants (arms ++ [⟨v.name, c⟩]) fallback
    | none =>
      if fallback.isSome || !v.fields.all isSimpleLeaf then none
      else contentArms variants arms (some ⟨v.name, v.fields, v.assertions⟩)

/-- The tags down to the child with the content. -/
def contentDescend (f : ParsedField) (variants : List UnionVariant) : Option (List String) :=
  match f.sourcePath.filter (· ≠ []) with
  | some path => some path
  | none => do
    let first ← variants.head?
    let tag ← tagAssert first.assertions
    if variants.all fun v => tagAssert v.assertions = some tag then some [tag] else none

def classifyContent (f : ParsedField) (variants : List UnionVariant) : Option ValueShape := do
  let (arms, fallback) ← contentArms variants [] none
  if arms.isEmpty then none
  else
    let descend ← contentDescend f variants
    some (.content descend arms fallback)

/-- The one attribute that an alternative pins, and the children that it requires. -/
def attrPin : List ResponseAssertion → Option (String × String) → List String →
    Option ((String × String) × List String)
  | [], pin, children => pin.map fun pin => (pin, children)
  | a :: assertions, pin, children =>
    match a.kind with
    | .attr =>
      match a.name, a.value, pin with
      | some name, some value, none => attrPin assertions (some (name, value)) children
      | _, _, _ => none
    | .child =>
      match a.name with
      | some tag => attrPin assertions pin (children ++ [tag])
      | none => none
    | _ => none

/-- The alternatives of an attribute, which they pin to different values. -/
def attrArms : List UnionVariant → Option String → List AttrArm → Option (String × List AttrArm)
  | [], attr, arms => attr.map fun attr => (attr, arms)
  | v :: variants, attr, arms =>
    if (tagAssert v.assertions).isSome || (contentAssert v.assertions).isSome ||
        !v.fields.all isSimpleLeaf || !armPayloadRepresentable v.fields then none
    else
      match attrPin v.assertions none [] with
      | none => none
      | some ((name, value), children) =>
        if attr.any (· ≠ name) || value ∈ arms.map AttrArm.value ||
            pascalCase v.name ∈ arms.map fun a => pascalCase a.variant then none
        else attrArms variants (some name) (arms ++ [⟨v.name, value, children, v.fields⟩])

def classifyAttrDiscriminated (f : ParsedField) (variants : List UnionVariant) :
    Option ValueShape :=
  if f.sourcePath.any (· ≠ []) then none
  else (attrArms variants none []).map fun (attr, arms) => .attrDiscriminated attr arms

/-- The attributes that an alternative cannot do without. -/
def requiredAttrs (v : UnionVariant) : List String :=
  (v.fields.filter fun f => f.parserRequired && startsWith "attr" f.method).map ParsedField.wire

/-- No alternative requires a part of what a later one requires. -/
def separable : List UnionVariant → Bool
  | [] => true
  | v :: variants =>
    (variants.all fun later => !(requiredAttrs v).all (· ∈ requiredAttrs later)) &&
      separable variants

def classifySameNode (f : ParsedField) (variants : List UnionVariant) : Option ValueShape :=
  if f.sourcePath.any (· ≠ []) then none
  else if variants.any fun v =>
      (v.assertions.any fun a => a.name.isNone || !(a.kind = .attr || a.kind = .child)) ||
        v.fields.isEmpty || !v.fields.all isSimpleLeaf || !armPayloadRepresentable v.fields then
    none
  else if separable variants then
    some (.sameNode (variants.map fun v => ⟨v.name, v.fields, v.assertions⟩))
  else none

/-- The shape of a union of values.  Nodes with a payload of their own are tried after these. -/
def classifyValueUnion (f : ParsedField) : Option ValueShape :=
  if f.fieldType ≠ .union then none
  else do
    let variants ← f.unionVariants
    if variants.length < 2 then none
    else
      classifyContent f variants <|> classifyAttrDiscriminated f variants <|>
        classifySameNode f variants

/-! ### What is emitted -/

/-- The condition of an assertion of a same-node alternative. -/
def sameNodeCondition (a : ResponseAssertion) : Option Condition :=
  match a.kind with
  | .child => a.name.map .hasChild
  | .attr => a.name.map fun name => a.value.elim (.hasAttr name) (.attrIs name)
  | _ => none

/-- The attributes that an alternative pins to a value. -/
def ValueArm.pinned (arm : ValueArm) : List String :=
  arm.assertions.filterMap fun a => if a.kind = .attr ∧ a.value.isSome then a.name else none

/-- A leaf constrains more than a pin on its attribute says. -/
def constrainsMore (f : ParsedField) : Bool :=
  isTyped f || (enumValues f).isSome || (intBand f).isSome || (byteBand f).isSome

def ValueArm.tests (arm : ValueArm) : List LeafTest :=
  (arm.fields.filter fun f =>
    (isAttrMethod f.method || isContentMethod f.method) &&
      (isContentMethod f.method || f.wire ∉ arm.pinned || constrainsMore f)).filterMap leafGuard

/-- The leaves of an alternative of an attribute that are checked. -/
def AttrArm.tests (arm : AttrArm) : List LeafTest :=
  (arm.fields.filter fun f =>
    (isAttrMethod f.method || isContentMethod f.method) &&
      (f.parserRequired || (enumValues f).isSome || isTyped f || f.literalValue.isSome)).filterMap
    leafGuard

section Emitted

variable {ν J : Type} (nodes : ValueReader ν J)

/-- The guard of a same-node alternative. -/
def sameNodeGuard (node : ν) (arm : ValueArm) : Bool :=
  ((arm.assertions.filterMap sameNodeCondition).all (·.holds nodes.toNodeReader node)) &&
    arm.tests.all (·.holds nodes node)

def valuePayload (node : ν) (variant : String) (fields : List ParsedField) : Selection J :=
  ⟨variant, fields.map fun f => (f.name, (fieldExpr f).eval nodes node)⟩

/-- The text of a content selects an alternative, or what is left the fallback. -/
def readContent (descend : List String) (arms : List ContentArm) (fallback : Option ValueArm)
    (node : ν) : Option (Selection J) :=
  (descendOpt nodes.toNodeReader node descend).bind fun n =>
    match arms.find? fun arm => arm.content = (nodes.contentStr n).getD "" with
    | some arm => some ⟨arm.variant, []⟩
    | none =>
      fallback.bind fun arm =>
        if sameNodeGuard nodes n arm then some (valuePayload nodes n arm.variant arm.fields)
        else none

/-- The value of an attribute selects an alternative.  Its payload has to hold then; the error
names the field and the value. -/
def readAttrDiscriminated (field attr : String) (arms : List AttrArm) (node : ν) :
    Except (String × String) (Option (Selection J)) :=
  match (nodes.getAttr node attr).bind fun value => arms.find? (·.value = value) with
  | none => .ok none
  | some arm =>
    if arm.tests.all (·.holds nodes node) &&
        arm.children.all fun tag => (nodes.optionalChild node tag).isSome then
      .ok (some (valuePayload nodes node arm.variant arm.fields))
    else .error (field, arm.value)

/-- The first alternative whose guard holds.  One without a guard is the last that is tried. -/
def readSameNode (arms : List ValueArm) (node : ν) : Option (Selection J) :=
  (arms.find? (sameNodeGuard nodes node)).map fun arm =>
    valuePayload nodes node arm.variant arm.fields

/-- What generated code reads off a node. -/
def ValueShape.read (field : String) (node : ν) :
    ValueShape → Except (String × String) (Option (Selection J))
  | .content descend arms fallback => .ok (readContent nodes descend arms fallback node)
  | .attrDiscriminated attr arms => readAttrDiscriminated nodes field attr arms node
  | .sameNode arms => .ok (readSameNode nodes arms node)

end Emitted

end Whatspec.Codegen

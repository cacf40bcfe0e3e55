import Whatspec.Codegen.Accessors
import Whatspec.Codegen.ErrorCoverage

/-!
# Errors with a code, a text and optional children

An outcome of a response is a direct error when its payload is a union of arms, each with a code and
a text of its own and with optional children of which only attributes are read.  A decoder is
emitted for it that tries one arm after the other, and an outcome is left out when those before it
accept all that it accepts.

* `directErrorPayload` are the checks of the form, `ErrorOutcome` an outcome that passes them;
* `armReads` are the reads that are emitted for an arm, and `armAccepts` is when the arm is taken;
* `errorOutcomesCover` asks whether earlier outcomes cover a later one.

A name that was read once is not read again in the same arm, wherever it stands.
-/

namespace Whatspec.Codegen.ErrorOutcomes

/-! ### The form -/

/-- An outcome of a response, as far as direct errors look at it. -/
structure ResponseVariant where
  fields : List ParsedField
  errorArms : List IrErrorArm
  hasErrorEnvelope : Bool

/-- The least and the greatest code of an arm, where it has them. -/
def leastCode (arm : ErrorArm) : Option ℤ := arm.code.or arm.codeMin

def greatestCode (arm : ErrorArm) : Option ℤ := arm.code.or arm.codeMax

def i32Max : ℤ := 2 ^ 31 - 1

/-- The tag of a child. -/
def tagOrName (f : ParsedField) : String := f.tag.getD f.name

/-- An optional child of which attributes are read. -/
def childShape (f : ParsedField) : Bool :=
  f.method = "child" && !f.parserRequired && f.repeats ≠ some true && f.sourcePath.isNone &&
    f.children.any fun children => children.all fun c =>
      c.method = "attrString" && c.sourcePath.isNone && c.children.isNone

def codeShape (code : ParsedField) (arm : ErrorArm) : Bool :=
  code.method = "attrInt" && code.parserRequired && code.fieldType = .integer &&
    code.literalValue.bind (parseInteger .i64) = arm.code && code.intMin = arm.codeMin &&
    code.intMax = arm.codeMax

def textShape (text : ParsedField) (arm : ErrorArm) : Bool :=
  text.method = "attrString" && text.parserRequired && text.literalValue = arm.text

/-- What `direct_error_payload_shape` asks of one arm. -/
def armShape (variant : UnionVariant) (arm : ErrorArm) : Bool :=
  match leastCode arm, greatestCode arm with
  | some lo, some hi =>
    0 ≤ lo && hi ≤ i32Max && lo ≤ hi && arm.name = some variant.name &&
      match variant.fields.find? (·.wire = "code"), variant.fields.find? (·.wire = "text") with
      | some code, some text =>
        codeShape code arm && textShape text arm &&
          variant.fields.all fun f => f.wire = "code" || f.wire = "text" || childShape f
      | _, _ => false
  | _, _ => false

/-- The code and the text have no constraints besides those of the arm. -/
def unconstrained (f : ParsedField) : Bool :=
  f.sourcePath.isNone && f.children.isNone && f.unionVariants.isNone && f.enumKeys.isNone &&
    f.enumRef.isNone && f.byteLength.isNone && f.byteMin.isNone && f.byteMax.isNone &&
    (f.wire ≠ "text" || (f.fieldType = .string && f.intMin.isNone && f.intMax.isNone))

/-- An assertion that the decoder enforces. -/
def assertionEnforced (arm : ErrorArm) (a : ResponseAssertion) : Bool :=
  match a.kind with
  | .tag => a.name = some "error"
  | .attr =>
    match a.name with
    | some "code" =>
      a.value.all fun value => arm.code.isSome && parseInteger .i64 value = arm.code
    | some "text" => a.value.isNone || a.value = arm.text
    | _ => false
  | _ => false

/-- What `direct_error_payload` asks of one arm besides. -/
def armEnforced (variant : UnionVariant) (arm : ErrorArm) : Bool :=
  ((variant.fields.filter fun f => f.wire = "code" || f.wire = "text").all unconstrained) &&
    variant.assertions.all (assertionEnforced arm)

/-- The attribute `type` of the response, which is `error`. -/
def typeField (f : ParsedField) : Bool :=
  f.method = "attrString" && f.parserRequired && f.wire = "type" && f.literalValue = some "error"

def headerShape (header : ParsedField) : Bool :=
  header.fieldType = .string && header.sourcePath.isNone && header.enumKeys.isNone &&
    header.enumRef.isNone && header.children.isNone && header.unionVariants.isNone &&
    header.byteLength.isNone && header.byteMin.isNone && header.byteMax.isNone &&
    header.intMin.isNone && header.intMax.isNone

section Form

-- `classify_union` finds a shape for a union.
variable (classified : ParsedField → Bool)

/-- `direct_error_payload_shape`. -/
def directErrorPayloadShape (v : ResponseVariant) : Option ParsedField := do
  guard (!v.errorArms.isEmpty && !v.hasErrorEnvelope && v.fields.length = 2)
  let payload ← v.fields.find? fun f =>
    f.parserRequired && f.sourcePath = some ["error"] && f.fieldType = .union
  guard (v.fields.any typeField)
  let variants ← payload.unionVariants
  guard (classified payload && variants.length = v.errorArms.length)
  guard ((variants.zip v.errorArms).all fun p => armShape p.1 p.2.toErrorArm)
  some payload

/-- `direct_error_payload`. -/
def directErrorPayload (v : ResponseVariant) : Option ParsedField := do
  let payload ← directErrorPayloadShape classified v
  let header ← v.fields.find? (·.fieldType ≠ .union)
  guard (headerShape header)
  let variants ← payload.unionVariants
  guard ((variants.zip v.errorArms).all fun p => armEnforced p.1 p.2.toErrorArm)
  some payload

/-- The reads that the emitted decoder has for the arm: attributes that are texts, and children of
which such attributes are read.  The code is read apart from them. -/
def textReads (variant : UnionVariant) : Bool :=
  variant.fields.all fun f =>
    if f.wire = "code" then f.method ≠ "child"
    else f.fieldType ≠ .union && (f.method = "attrString" ||
      (childShape f && f.children.all fun children => children.all (·.fieldType ≠ .union)))

/-- A bounded outcome. -/
structure ErrorOutcome where
  variant : ResponseVariant
  payload : ParsedField
  bounded : directErrorPayload classified variant = some payload
  reads : ((payload.unionVariants.getD []).all textReads) = true

end Form

/-- An arm with the fields of its payload. -/
abbrev Arm := UnionVariant × IrErrorArm

variable {classified : ParsedField → Bool}

def ErrorOutcome.arms (o : ErrorOutcome classified) : List Arm :=
  (o.payload.unionVariants.getD []).zip o.variant.errorArms

/-! ### The emitted decoder -/

/-- A field that is lifted out of an optional place. -/
def weakened (f : ParsedField) : ParsedField :=
  { f with
    parserRequired := false
    method :=
      if f.method = "attrString" then "maybeAttrString"
      else if f.method = "attrInt" then "maybeAttrInt"
      else if f.method = "attrEnum" then "maybeAttrEnum"
      else f.method }

/-- `flatten_same_node` on fields without children. -/
def flattenLeaves (optional : Bool) (leaves : List ParsedField) : List ParsedField :=
  (leaves.filter fun l => !l.sameNode).map fun l => if optional then weakened l else l

/-- A field with the fields in its place lifted out of it, one level down. -/
def flattenField (f : ParsedField) : List ParsedField :=
  if f.sameNode then flattenLeaves (!f.parserRequired) (f.children.getD [])
  else [{ f with children := f.children.map (flattenLeaves false) }]

/-- A read of a text attribute, off the error or off a child of it. -/
structure Read where
  child : Option String
  leaf : ParsedField

/-- The attributes of one node that were not read before, and the names that have been read. -/
def leafReads (child : Option String) (seen : List String) :
    List ParsedField → List Read × List String
  | [] => ([], seen)
  | l :: ls =>
    if rustIdent l.name ∈ seen then leafReads child seen ls
    else
      let (reads, seen) := leafReads child (rustIdent l.name :: seen) ls
      (⟨child, l⟩ :: reads, seen)

/-- `emit_struct_reads`, on the fields that an arm may have.  A child whose content is its value is
read without failing. -/
def fieldReads (seen : List String) : List ParsedField → List Read
  | [] => []
  | f :: fs =>
    if isAttrField f && f.method ≠ hasAttrMethod then
      if rustIdent f.name ∈ seen then fieldReads seen fs
      else ⟨none, f⟩ :: fieldReads (rustIdent f.name :: seen) fs
    else if !isChildMethod f.method then fieldReads seen fs
    else if f.contentType.isSome then
      if rustIdent (tagOrName f) ∈ seen then fieldReads seen fs
      else fieldReads (rustIdent (tagOrName f) :: seen) fs
    else
      let (reads, seen) := leafReads (some (tagOrName f)) seen (f.children.getD [])
      reads ++ fieldReads seen fs

/-- The fields that the decoder of an arm reads: the code is read before. -/
def readFields (variant : UnionVariant) : List ParsedField :=
  variant.fields.filter fun f => f.wire ≠ "code"

def armReads (variant : UnionVariant) : List Read :=
  fieldReads [] ((readFields variant).flatMap flattenField)

def readChildren (variant : UnionVariant) : List ParsedField :=
  (readFields variant).filter fun f => f.method = "child"

section Nodes

variable {ν : Type} (nodes : NodeReader ν)

/-- A text attribute is read: it is there, or need not be, and has the values it may have. -/
def leafPasses (node : ν) (l : ParsedField) : Bool :=
  match nodes.getAttr node l.wire with
  | none => isOptionalMethod l.method || !l.parserRequired
  | some s => ((enumValues l).all fun values => s ∈ values) && l.literalValue.all fun pin => s = pin

def Read.passes (node : ν) (r : Read) : Bool :=
  match r.child with
  | none => leafPasses nodes node r.leaf
  | some tag => (nodes.optionalChild node tag).all fun c => leafPasses nodes c r.leaf

/-- One arm of the decoder. -/
def armAccepts (arm : Arm) (error : ν) (code : ℤ) : Bool :=
  arm.2.holds nodes error code &&
    ((readChildren arm.1).isEmpty || (nodes.contentBytes error).isNone) &&
    ((readChildren arm.1).all fun c => (nodes.childrenByTag error (tagOrName c)).length ≤ 1) &&
    (armReads arm.1).all (·.passes nodes error)

/-- What the selection of an outcome asks of its error: it has a text, and a code. -/
def hasText (error : ν) : Bool := (nodes.getAttr error "text").isSome

/-- The decoder of an outcome takes an error. -/
def ErrorOutcome.accepts (o : ErrorOutcome classified) (error : ν) : Bool :=
  ((nodes.getAttr error "code").bind iqErrorCode).any fun code =>
    o.arms.any fun arm => armAccepts nodes arm error code

end Nodes

/-! ### Coverage -/

/-- The derived equality of fields, which also compares what is left out of `ParsedField`. -/
structure FieldEquality where
  same : ParsedField → ParsedField → Bool
  eq_of_same : ∀ {a b : ParsedField}, same a b = true → a = b

variable (eq : FieldEquality)

def childFields (variant : UnionVariant) : List ParsedField :=
  variant.fields.filter fun f => f.method = "child"

/-- No error has a code and a text of both. -/
def apart (later arm : ErrorArm) : Bool :=
  (greatestCode arm).getD 0 < (leastCode later).getD 0 ||
    (greatestCode later).getD 0 < (leastCode arm).getD 0 ||
    (arm.text.isSome && later.text.isSome && arm.text ≠ later.text)

/-- Every child of the earlier arm is one of the later arm. -/
def childrenAmong (later arm : UnionVariant) : Bool :=
  (childFields arm).all fun c => (childFields later).any fun other => eq.same other c

/-- The earlier arm can fail where the later one does not: by a child that is there twice, or by a
body of bytes. -/
def failsBesides (later arm : UnionVariant) : Bool :=
  (childFields later).isEmpty ||
    (childFields arm).any fun c =>
      !(childFields later).any fun other => tagOrName c = tagOrName other

/-- The earlier arms that are counted for a later one. -/
def coveringArms (later : Arm) : List Arm → Except String (List Arm)
  | [] => .ok []
  | arm :: arms =>
    if apart later.2.toErrorArm arm.2.toErrorArm then coveringArms later arms
    else if childrenAmong eq later.1 arm.1 then (coveringArms later arms).map (arm :: ·)
    else if failsBesides later.1 arm.1 then coveringArms later arms
    else .error ("outcomes.payload_coverage_unknown: differing optional-child contracts require " ++
      "a payload implication proof")

/-- The later arms one after the other. -/
def armsCover (earlier : List Arm) : List Arm → Except String Bool
  | [] => .ok true
  | later :: arms => do
    let covering ← coveringArms eq later earlier
    if errorArmsCover (covering.map fun arm => arm.2.toErrorArm) [later.2.toErrorArm] then
      armsCover earlier arms
    else .ok false

/-- `error_outcomes_cover`. -/
def errorOutcomesCover (earlier : List (ErrorOutcome classified))
    (later : ErrorOutcome classified) : Except String Bool :=
  armsCover eq (earlier.flatMap ErrorOutcome.arms) later.arms

end Whatspec.Codegen.ErrorOutcomes

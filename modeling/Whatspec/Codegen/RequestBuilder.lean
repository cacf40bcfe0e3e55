import Whatspec.Codegen.RequestFields
import Whatspec.Text

/-!
# Request builders

The code that `build_iq` is made of, and what running it builds.

* `emitChildBuilder` is the code of one node: statements on its builder, after the code of the
  nodes below it;
* a node with variants that contribute children, or with children that may be several, keeps them
  in a list which is attached at the end; any other node sets its children at once;
* `NodeCode.run` runs the code with a value of the struct it reads.

Variables that only the emitted text names are left out: every statement is about the builder of
its own node.
-/

namespace Whatspec.Codegen

open Whatspec.Scan Whatspec.Text

/-! ### Nodes and values -/

mutual

inductive Node where
  | mk (tag : String) (attrs : List (String × String)) (content : Option NodeContent)

inductive NodeContent where
  | bytes (b : List UInt8)
  | nodes (ns : List Node)

end

/-- One step into a value: a member of a struct, what an option holds, an item of a list. -/
inductive Access where
  | field (name : String)
  | held
  | item (i : ℕ)

/-- What code makes of a value: the text of an attribute, bytes, a flag, a ready node, an option
that holds something or not, a list of some length, or one of the variants of a type. -/
structure Uses where
  shown : String
  bytes : List UInt8
  flag : Bool
  node : Node
  holds : Bool
  length : ℕ
  variant : List String → String

/-- A value of the generated code, by the uses of its parts.  Code that compiles uses each part
only as its type allows. -/
structure Val where
  uses : List Access → Uses

namespace Val

/-- The part that a step leads to. -/
def part (v : Val) (step : Access) : Val := ⟨fun path => v.uses (step :: path)⟩

def field (v : Val) (name : String) : Val := v.part (.field name)

def shown (v : Val) : String := (v.uses []).shown

def bytes (v : Val) : List UInt8 := (v.uses []).bytes

def flag (v : Val) : Bool := (v.uses []).flag

def node (v : Val) : Node := (v.uses []).node

def variant (v : Val) (names : List String) : String := (v.uses []).variant names

def option (v : Val) : Option Val := if (v.uses []).holds then some (v.part .held) else none

def items (v : Val) : List Val := (List.range (v.uses []).length).map fun i => v.part (.item i)

end Val

/-! ### The code of a node -/

/-- Where a statement reads: a field of the struct, a member that a pattern binds, or a member of
the item that is being built. -/
inductive Operand where
  | self (field : String)
  | bound (name : String)
  | item (field : String)

/-- `.attr(name, …)` with a literal, with a value, or with what an option holds. -/
inductive AttrStatement where
  | literal (name value : String)
  | value (name : String) (o : Operand)
  | ifSome (name : String) (o : Operand)

/-- A statement, and the presence argument that it is only run for. -/
structure GuardedAttr where
  guard : Option String
  statement : AttrStatement

/-- The code of a child that a variant contributes. -/
inductive ChildCode where
  | given (member : String) (repeats : Bool)
  | built (member tag : String) (repeats : Bool) (attrs : List GuardedAttr)

structure ArmCode where
  variant : String
  attrs : List GuardedAttr
  children : List ChildCode

inductive BytesExpr where
  | literal (b : List UInt8)
  | self (field : String)

/-- A statement on the builder of a node. -/
inductive BuilderStatement where
  | attr (a : GuardedAttr)
  | matchOn (field : String) (optional : Bool) (arms : List ArmCode)
  | bytes (e : BytesExpr)
  /-- `.children([…])` with the nodes built before. -/
  | children
  /-- `.children(…)` with the list that was kept, unless it is empty. -/
  | attach

inductive NodeCode where
  | node (tag : String) (nested : List NodeCode) (accumulates : Bool)
      (body : List BuilderStatement)
  | payloads (tag field : String)
  | flag (field : String) (body : NodeCode)
  | owned (field : String) (optional repeats : Bool) (body : NodeCode)

def NodeCode.isList : NodeCode → Bool
  | .node .. => false
  | _ => true

/-! ### Emitting -/

/-- The statement of an attribute.  Whether a generated id has one depends on where it stands. -/
def attrStatement (generated : Bool) (o : Operand) (a : WapAttrDef) : Option AttrStatement :=
  match a.kind with
  | .const => a.value.map (.literal a.name)
  | .optional => some (.ifSome a.name o)
  | .generatedId => if generated then some (.value a.name o) else none
  | .string | .dynamic | .integer | .userJid | .deviceJid | .groupJid => some (.value a.name o)

def emitAttr (generated : Bool) (operand : String → Operand) (a : SpecAttr) :
    Option GuardedAttr :=
  (attrStatement generated (operand a.field) a.attr).map fun statement => ⟨a.presence, statement⟩

def variantChildBuild (c : SpecChild) : ChildCode :=
  if c.isOpaque then .given c.member c.repeats
  else .built c.member c.tag c.repeats (c.attrs.filterMap (emitAttr true .item))

def variantArm (v : SpecVariant) : ArmCode where
  variant := v.name
  attrs := v.attrs.filterMap (emitAttr false .bound)
  children := v.children.map variantChildBuild

def emitVariantGroups (groups : List SpecGroup) : List BuilderStatement :=
  groups.map fun g => .matchOn g.field g.optional (g.variants.map variantArm)

/-- A digit of a hexadecimal number. -/
def constDigit (c : Char) : Option ℕ :=
  if isAsciiDigit c then some (c.toNat - '0'.toNat)
  else if 'a' ≤ c ∧ c ≤ 'f' then some (c.toNat - 'a'.toNat + 10)
  else if 'A' ≤ c ∧ c ≤ 'F' then some (c.toNat - 'A'.toNat + 10)
  else none

/-- Bytes spelled by two digits each; a sign may stand for the first. -/
def decodeHexChars : List Char → Option (List UInt8)
  | [] => some []
  | a :: b :: cs => do
    let high ← if a = '+' then some 0 else constDigit a
    let low ← constDigit b
    let rest ← decodeHexChars cs
    return UInt8.ofNat (16 * high + low) :: rest
  | [_] => none

def decodeHex (s : String) : Option (List UInt8) := decodeHexChars s.toList

def emitNodeContent (content : WapContent) (field : String) : Option BytesExpr :=
  match content.constBytes with
  | some hex => (decodeHex hex).map .literal
  | none =>
    match content.kind with
    | .bytes | .dynamic => some (.self field)
    | .const => content.value.map fun value => .literal (utf8 value)

/-- A variant contributes children. -/
def hasVariantChildren (groups : List SpecGroup) : Bool :=
  groups.any fun g => g.variants.any fun v => !v.children.isEmpty

mutual

def emitChildBuilder : SpecNode → NodeCode
  | .node tag _ attrs groups content children =>
    let nested := emitChildBuilders children
    let accumulates := hasVariantChildren groups || nested.any (·.isList)
    .node tag nested accumulates
      ((attrs.filterMap (emitAttr true .self)).map .attr ++ emitVariantGroups groups ++
        (content.bind fun (c, field) => emitNodeContent c field).toList.map .bytes ++
        if accumulates then [.attach] else if nested.isEmpty then [] else [.children])
  | .payloads tag field => .payloads tag field
  | .flag field body => .flag field (emitChildBuilder body)
  | .owned field optional repeats body => .owned field optional repeats (emitChildBuilder body)

def emitChildBuilders : List SpecNode → List NodeCode
  | [] => []
  | n :: ns => emitChildBuilder n :: emitChildBuilders ns

end

/-! ### Running -/

/-- The node being built, and the children that are kept for it. -/
structure Building where
  attrs : List (String × String)
  content : Option NodeContent
  kept : List Node

/-- The values that statements read. -/
structure Frame where
  self : Val
  bound : Val
  item : Val

namespace Frame

def eval (frame : Frame) : Operand → Val
  | .self f => frame.self.field f
  | .bound x => frame.bound.field x
  | .item f => frame.item.field f

/-- The attributes that a statement writes. -/
def write (frame : Frame) : AttrStatement → List (String × String)
  | .literal name value => [(name, value)]
  | .value name o => [(name, (frame.eval o).shown)]
  | .ifSome name o => ((frame.eval o).option.map fun v => (name, v.shown)).toList

def writeGuarded (frame : Frame) (a : GuardedAttr) : List (String × String) :=
  match a.guard with
  | some field => if (frame.self.field field).option.isSome then frame.write a.statement else []
  | none => frame.write a.statement

def writeAll (frame : Frame) (as : List GuardedAttr) : List (String × String) :=
  as.flatMap frame.writeGuarded

/-- The nodes of a child that the variant at hand contributes. -/
def childNodes (frame : Frame) : ChildCode → List Node
  | .given member repeats =>
    let v := frame.bound.field member
    if repeats then v.items.map (·.node) else [v.node]
  | .built member tag repeats attrs =>
    let v := frame.bound.field member
    (if repeats then v.items else [v]).map fun item =>
      .mk tag (Frame.writeAll { frame with item := item } attrs) none

end Frame

def ArmCode.run (arm : ArmCode) (self payload : Val) (b : Building) : Building :=
  let frame : Frame := ⟨self, payload, payload⟩
  { b with
    attrs := b.attrs ++ frame.writeAll arm.attrs
    kept := b.kept ++ arm.children.flatMap frame.childNodes }

/-- The arm of the variant that a value is. -/
def runMatch (arms : List ArmCode) (self payload : Val) (b : Building) : Option Building :=
  let chosen := payload.variant (arms.map (·.variant))
  (arms.find? (·.variant = chosen)).map fun arm => arm.run self payload b

def NodeContent.ofBytes (self : Val) : BytesExpr → NodeContent
  | .literal b => .bytes b
  | .self field => .bytes (self.field field).bytes

def BuilderStatement.run (self : Val) (nested : List Node) (b : Building) :
    BuilderStatement → Option Building
  | .attr a => some { b with attrs := b.attrs ++ Frame.writeGuarded ⟨self, self, self⟩ a }
  | .matchOn field optional arms =>
    let v := self.field field
    if optional then
      match v.option with
      | none => some b
      | some v => runMatch arms self v b
    else runMatch arms self v b
  | .bytes e => some { b with content := some (.ofBytes self e) }
  | .children => some { b with content := some (.nodes nested) }
  | .attach => some (if b.kept.isEmpty then b else { b with content := some (.nodes b.kept) })

def runBody (self : Val) (nested : List Node) (b : Building) (body : List BuilderStatement) :
    Option Building :=
  body.foldlM (BuilderStatement.run self nested) b

/-- The payloads that a field holds. -/
def heldItems (self : Val) (field : String) (optional repeats : Bool) : List Val :=
  let held := self.field field
  match if optional then held.option else some held with
  | none => []
  | some v => if repeats then v.items else [v]

mutual

/-- Run the code of a node: the nodes it builds. -/
def NodeCode.run : NodeCode → Val → Option (List Node)
  | .node tag nested accumulates body, self => do
    let nodes ← runNested nested self
    let b ← runBody self nodes ⟨[], none, if accumulates then nodes else []⟩ body
    return [.mk tag b.attrs b.content]
  | .payloads tag field, self =>
    some ((self.field field).items.map fun payload => .mk tag [] (some (.bytes payload.bytes)))
  | .flag field body, self => if (self.field field).flag then body.run self else some []
  | .owned field optional repeats body, self =>
    ((heldItems self field optional repeats).mapM body.run).map List.flatten

def runNested : List NodeCode → Val → Option (List Node)
  | [], _ => some []
  | code :: codes, self => do
    let ns ← code.run self
    let rest ← runNested codes self
    return ns ++ rest

end

/-! ### The request -/

/-- What a request says: whom it is addressed to, and what it carries. -/
structure IqRequest where
  target : IqTarget
  children : List WapChildNode
  variantGroups : List (WapVariantGroup WapChildNode)

/-- The node that holds the payload of a request with variants. -/
def IqRequest.rootPayload (r : IqRequest) : WapChildNode :=
  { WapChildNode.default with
    tag := "iq_payload"
    children := r.children
    variantGroups := r.variantGroups }

def IqRequest.requestNodes (r : IqRequest) : List WapChildNode :=
  if r.variantGroups.isEmpty then r.children else [r.rootPayload]

/-- The addressee that is written. -/
inductive Addressee where
  | groupServer
  | server
  | given (field : String)

/-- The nodes of a request with their fields: below one payload node, or by themselves. -/
inductive SpecRoot where
  | payload (n : SpecNode)
  | children (ns : List SpecNode)

structure SpecRequest where
  addressee : Addressee
  root : SpecRoot
  collected : Collected
  declared : Declared

/-- The fields of a request's own struct, and of its payloads. -/
def IqRequest.assign (r : IqRequest) (specBase : String) : SpecRequest :=
  let collected := collectFields r.requestNodes
  let reserved := collected.out.map (·.1)
  let scope : RequestScope := ⟨specBase, reserved, collected.map⟩
  let name := if "target" ∈ reserved then "iq_target" else "target"
  let (addressee, fields) : Addressee × List (String × FieldType) :=
    match r.target with
    | .groupServer => (.groupServer, [])
    | .server => (.server, [])
    | .groupJid | .unset | .unknown => (.given name, [(name, .jid)])
  let s : Declared := ⟨fields, [], []⟩
  if r.variantGroups.isEmpty then
    let (ns, s) := assignChildren scope [] s r.children
    ⟨addressee, .children ns, collected, s⟩
  else
    let (n, s) := assignNode scope [] false s r.rootPayload
    ⟨addressee, .payload n, collected, s⟩

/-- Alternatives of the request's own attributes are not generated: the builder would panic. -/
def IqRequest.accepted (r : IqRequest) : Bool :=
  r.variantGroups.all fun g => g.variants.all fun v => v.attrs.isEmpty

structure InfoQuery where
  addressee : Addressee
  content : Option NodeContent

/-- The list spelling of a request's own children. -/
def topContent (codes : List NodeCode) (nodes : List Node) : Option NodeContent :=
  if codes.any (·.isList) then (if nodes.isEmpty then none else some (.nodes nodes))
  else some (.nodes nodes)

/-- What `build_iq` returns for a value of the spec struct. -/
def IqRequest.buildIq (r : IqRequest) (specBase : String) (self : Val) : Option InfoQuery :=
  if !r.accepted then none
  else
    let spec := r.assign specBase
    match spec.root with
    | .payload n => do
      match ← (emitChildBuilder n).run self with
      | [.mk _ _ content] => return ⟨spec.addressee, content⟩
      | _ => none
    | .children ns => do
      if ns.isEmpty then return ⟨spec.addressee, none⟩
      let codes := emitChildBuilders ns
      let nodes ← runNested codes self
      return ⟨spec.addressee, topContent codes nodes⟩

end Whatspec.Codegen

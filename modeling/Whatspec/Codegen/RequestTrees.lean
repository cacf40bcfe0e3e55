import Whatspec.Codegen.RequestBuilder

/-!
# What request trees mean

What a request tree says for given values: the nodes that a builder has to send.

* `SpecNode.meaning` is the tree a node stands for, with the values of its fields put in; it is
  undefined where the values do not say what to send;
* `Writable` is when the code of a request writes all of it: every attribute has a statement and
  its presence argument a field, contents stand on nodes without children, and what repeats or is
  optional has a field that says so.

The nodes of a variant's child that is more than attributes are the caller's: they stand for the
child as they are.
-/

namespace Whatspec.Codegen

open Whatspec.Scan Whatspec.Text

/-! ### Instances -/

/-- What is on the wire for an attribute with a value: a constant is what it is, and an optional
attribute is there when the option holds something. -/
def WapAttrDef.wireValue (a : WapAttrDef) (v : Val) : Option (List (String × String)) :=
  match a.kind with
  | .const => a.value.map fun value => [(a.name, value)]
  | .optional =>
    match v.option with
    | none => some []
    | some x => some [(a.name, a.value.getD x.shown)]
  | _ => some [(a.name, v.shown)]

/-- An attribute with a presence argument is there exactly when that argument is not null. -/
def SpecAttr.meaning (self v : Val) (a : SpecAttr) : Option (List (String × String)) :=
  match a.attr.presenceArgPath, a.presence with
  | none, _ => WapAttrDef.wireValue a.attr v
  | some _, some field =>
    if (self.field field).option.isSome then WapAttrDef.wireValue a.attr v else some []
  | some _, none => none

/-- All of a list, one after the other. -/
def concatM {α β : Type} (f : α → Option (List β)) : List α → Option (List β)
  | [] => some []
  | x :: xs => do
    let y ← f x
    let ys ← concatM f xs
    return y ++ ys

/-- The nodes of a variant's child: one, or one for each item. -/
def SpecChild.meaning (self payload : Val) (c : SpecChild) : Option (List Node) :=
  if c.presence ≠ .required then none
  else
    let v := payload.field c.member
    let items := if c.repeats then v.items else [v]
    if c.isOpaque then some (items.map (·.node))
    else concatM (fun item => do
      let attrs ← concatM (fun a => a.meaning self (item.field a.field)) c.attrs
      return [Node.mk c.tag attrs none]) items

/-- What a node gets besides its own: attributes and children. -/
structure Contribution where
  attrs : List (String × String)
  children : List Node

def SpecVariant.meaning (self payload : Val) (v : SpecVariant) : Option Contribution := do
  let attrs ← concatM (fun a => a.meaning self (payload.field a.field)) v.attrs
  let children ← concatM (SpecChild.meaning self payload) v.children
  return ⟨attrs, children⟩

/-- The variant of a group that a value is. -/
def SpecGroup.chosen (g : SpecGroup) (v : Val) : Option SpecVariant :=
  let name := v.variant (g.variants.map (·.name))
  g.variants.find? (·.name = name)

/-- The choice of a group: exactly one variant, or at most one of an optional group. -/
def SpecGroup.choice (g : SpecGroup) (self : Val) : Option Val :=
  if g.optional then (self.field g.field).option else some (self.field g.field)

def SpecGroup.meaning (self : Val) (g : SpecGroup) : Option Contribution :=
  match g.choice self with
  | none => some ⟨[], []⟩
  | some v => (g.chosen v).bind (·.meaning self v)

def groupMeaning (self : Val) : List SpecGroup → Option Contribution
  | [] => some ⟨[], []⟩
  | g :: gs => do
    let c ← g.meaning self
    let cs ← groupMeaning self gs
    return ⟨c.attrs ++ cs.attrs, c.children ++ cs.children⟩

/-- The bytes that a content stands for. -/
def contentBytes (self : Val) (content : WapContent) (field : String) : Option (List UInt8) :=
  match content.constBytes with
  | some hex => decodeHex hex
  | none =>
    match content.kind with
    | .bytes | .dynamic => some (self.field field).bytes
    | .const => content.value.map utf8

def contentMeaning (self : Val) :
    Option (WapContent × String) → Option (Option (List UInt8))
  | none => some none
  | some (c, field) => (contentBytes self c field).map some

/-- A node has a content of bytes, or it has children. -/
def nodeContent : Option (List UInt8) → List Node → Option (Option NodeContent)
  | none, [] => some none
  | none, ns => some (some (.nodes ns))
  | some b, [] => some (some (.bytes b))
  | some _, _ :: _ => none

mutual

/-- The nodes that a request node stands for, with the values of a struct. -/
def SpecNode.meaning : SpecNode → Val → Option (List Node)
  | .node tag repeats attrs groups content children, self => do
    -- nothing says how often
    if repeats then none
    let own ← concatM (fun a => a.meaning self (self.field a.field)) attrs
    let nested ← meaningAmong children self
    let contributed ← groupMeaning self groups
    let bytes ← contentMeaning self content
    let content ← nodeContent bytes (nested ++ contributed.children)
    return [.mk tag (own ++ contributed.attrs) content]
  | .payloads tag field, self =>
    some ((self.field field).items.map fun payload => .mk tag [] (some (.bytes payload.bytes)))
  | .flag field body, self => if (self.field field).flag then body.meaning self else some []
  | .owned field optional repeats body, self =>
    ((heldItems self field optional repeats).mapM body.meaning).map List.flatten

def meaningAmong : List SpecNode → Val → Option (List Node)
  | [], _ => some []
  | n :: ns, self => do
    let x ← n.meaning self
    let xs ← meaningAmong ns self
    return x ++ xs

end

/-- What the request stands for: its addressee, and its children if it has any. -/
def SpecRequest.meaning (spec : SpecRequest) (self : Val) : Option InfoQuery :=
  match spec.root with
  | .payload n => do
    match ← n.meaning self with
    | [.mk _ _ content] => return ⟨spec.addressee, content⟩
    | _ => none
  | .children ns => do
    let nodes ← meaningAmong ns self
    return ⟨spec.addressee, if nodes.isEmpty then none else some (.nodes nodes)⟩

/-! ### Choices -/

/-- A group's value is one of its variants. -/
def SpecGroup.Chooses (self : Val) (g : SpecGroup) : Prop :=
  ∀ v, g.choice self = some v → (g.chosen v).isSome

mutual

/-- Every value that is matched on is one of the variants, as its type says. -/
def SpecNode.Chooses : SpecNode → Val → Prop
  | .node _ _ _ groups _ children, self =>
    (∀ g ∈ groups, g.Chooses self) ∧ ChoosesAmong children self
  | .payloads _ _, _ => True
  | .flag _ body, self => body.Chooses self
  | .owned field optional repeats body, self =>
    ∀ item ∈ heldItems self field optional repeats, body.Chooses item

def ChoosesAmong : List SpecNode → Val → Prop
  | [], _ => True
  | n :: ns, self => n.Chooses self ∧ ChoosesAmong ns self

end

def SpecRequest.Chooses (spec : SpecRequest) (self : Val) : Prop :=
  match spec.root with
  | .payload n => n.Chooses self
  | .children ns => ChoosesAmong ns self

/-! ### Requests whose code writes all of them -/

/-- The value of an attribute is known, and so is when it is there. -/
structure WritableAttr (paths : List WapArgPath) (generated : Bool) (a : WapAttrDef) : Prop where
  constant : a.kind = .const → a.value.isSome
  optional : a.kind = .optional → a.value = none
  generatedId : a.kind = .generatedId → generated
  presence : ∀ path, a.presenceArgPath = some path → path ∈ paths

/-- A child of a variant: there once or once for each item, from a struct or ready-made. -/
structure WritableChild (paths : List WapArgPath) (c : WapChildNode) : Prop where
  required : c.presence = .required
  attrs : isOpaque c = false → ∀ a ∈ c.attrs, WritableAttr paths true a

structure WritableVariant (paths : List WapArgPath) (v : WapVariant WapChildNode) : Prop where
  attrs : ∀ a ∈ v.attrs, WritableAttr paths false a
  children : ∀ c ∈ v.children, WritableChild paths c

/-- A content has bytes. -/
def hasBytes (content : WapContent) : Bool :=
  match content.constBytes with
  | some hex => (decodeHex hex).isSome
  | none => content.kind != .const || content.value.isSome

/-- A content has bytes, and nothing else wants its place. -/
def WritableContent (content : Option WapContent) (children : List WapChildNode)
    (groups : List (WapVariantGroup WapChildNode)) : Prop :=
  ∀ c, content = some c →
    hasBytes c ∧ children = [] ∧ ∀ g ∈ groups, ∀ v ∈ g.variants, v.children = []

mutual

/-- The code of a node writes all of it.  The paths are the presence arguments that are fields of
the struct around it. -/
def Writable (paths : List WapArgPath) : WapChildNode → Prop
  | ⟨_, attrs, children, content, _, _, _, _, _, groups⟩ =>
    (∀ a ∈ attrs, WritableAttr paths true a) ∧
      (∀ g ∈ groups, ∀ v ∈ g.variants, WritableVariant paths v) ∧
      WritableContent content children groups ∧ WritableAmong paths children

def WritableAmong (paths : List WapArgPath) : List WapChildNode → Prop
  | [] => True
  | c :: cs =>
    (if ownsPayload c then Writable (presencePaths c) c
      else
        (c.repeats → isPayloadList true c.attrs c.children c.content c.variantGroups) ∧
          Writable paths c) ∧
      WritableAmong paths cs

end

def IqRequest.Writable (r : IqRequest) : Prop :=
  WritableAmong (presencePathsAmong r.requestNodes) r.requestNodes

mutual

/-- Every group of a node, and of the nodes below it, has an alternative. -/
def GroupsNonempty : WapChildNode → Prop
  | ⟨_, _, children, _, _, _, _, _, _, groups⟩ =>
    (∀ g ∈ groups, g.variants ≠ []) ∧ GroupsNonemptyAmong children

def GroupsNonemptyAmong : List WapChildNode → Prop
  | [] => True
  | c :: cs => GroupsNonempty c ∧ GroupsNonemptyAmong cs

end

end Whatspec.Codegen

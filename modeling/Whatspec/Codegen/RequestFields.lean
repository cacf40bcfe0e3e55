import Whatspec.Codegen.Naming
import Whatspec.Library.FreshNames
import Whatspec.Library.Rendering
import Whatspec.Scan.Request

/-!
# The inputs of a request builder

What a request needs of its caller becomes fields of generated structs.  A node that is there once
keeps its inputs in the struct around it; an optional node, or a repeated one with structure, owns
a payload struct.

* `collectAttrs` and `collectPresenceFields` give fields to the attributes of a struct's nodes and
  to the arguments whose presence they depend on;
* `assignNode` walks a node as the builder does and gives fields to everything else: generated
  ids, contents, groups of variants and payloads;
* `SpecNode` is a request node with the fields that its sites read.
-/

namespace Whatspec.Codegen

open Whatspec.Scan Whatspec.Library

/-- A base spelling, and `base_2`, `base_3`, … after it. -/
def suffixed (base : String) (n : ℕ) : String :=
  if n = 1 then base else base ++ "_" ++ toString n

/-! ### Fields and types -/

/-- The type of a field of a generated struct. -/
inductive FieldType where
  | text
  | integer
  | jid
  | optionalText
  | optionalBool
  | bool
  | byteArray (n : ℕ)
  | byteVec
  | node
  | named (name : String)
  | vec (t : FieldType)
  | option (t : FieldType)
  deriving DecidableEq

def rustAttrType : WapAttrKind → FieldType
  | .const | .string | .dynamic => .text
  | .integer => .integer
  | .userJid | .deviceJid | .groupJid => .jid
  | .optional => .optionalText
  | .generatedId => .text

/-- A type that a request generates, with the names it declares. -/
inductive TypeDef where
  | struct (name : String) (fields : List (String × FieldType))
  | enum (name : String) (variants : List (String × List (String × FieldType)))
  deriving DecidableEq

def TypeDef.name : TypeDef → String
  | .struct name _ => name
  | .enum name _ => name

/-! ### Attributes -/

/-- Optional nodes and structured repeated items own their payload. -/
def ownsPayload (child : WapChildNode) : Bool :=
  child.presence != .required ||
    (child.repeats &&
      (!child.attrs.isEmpty || !child.children.isEmpty || !child.variantGroups.isEmpty))

/-- The fields that attributes were given: by the path of tags down to the node, and by the
argument whose presence counts. -/
structure AttrFieldMap where
  values : List ((List String × String) × String)
  presence : List (WapArgPath × String)

def AttrFieldMap.get (m : AttrFieldMap) (key : List String × String) : Option String :=
  m.values.lookup key

def AttrFieldMap.presenceField (m : AttrFieldMap) (attr : WapAttrDef) : Option String :=
  attr.presenceArgPath.bind fun path => m.presence.lookup path

theorem AttrFieldMap.presenceField_none (m : AttrFieldMap) {attr : WapAttrDef}
    (h : attr.presenceArgPath = none) : m.presenceField attr = none := by
  rw [presenceField, h, Option.bind_none]

/-- The fields of a struct that attributes ask for, while they are collected. -/
structure Collected where
  out : List (String × FieldType)
  seen : List String
  map : AttrFieldMap

def Collected.empty : Collected := ⟨[], [], ⟨[], []⟩⟩

structure AttrSite where
  path : List String
  tag : String
  attr : WapAttrDef

mutual

/-- The attributes of a node that is there once, and of such nodes below it. -/
def attrSites (path : List String) : WapChildNode → List AttrSite
  | ⟨tag, attrs, children, _, _, _, _, _, _, _⟩ =>
    attrs.map (⟨path ++ [tag], tag, ·⟩) ++ attrSitesAmong (path ++ [tag]) children

def attrSitesAmong (path : List String) : List WapChildNode → List AttrSite
  | [] => []
  | c :: cs =>
    (if ownsPayload c then [] else attrSites path c) ++ attrSitesAmong path cs

end

/-- The field of an attribute: its own spelling, with the tag before it, then with a number. -/
def attrFieldName (seen : List String) (site : AttrSite) : String :=
  let ident := rustIdent site.attr.name
  if ident ∈ seen then
    firstFree seen (suffixed (rustIdent (site.tag ++ "_" ++ site.attr.name)))
  else ident

def collectAttr (s : Collected) (site : AttrSite) : Collected :=
  let key := (site.path, site.attr.name)
  if site.attr.kind = .const ∨ site.attr.kind = .generatedId ∨ (s.map.get key).isSome then s
  else
    let field := attrFieldName s.seen site
    { out := s.out ++ [(field, rustAttrType site.attr.kind)]
      seen := s.seen ++ [field]
      map := { s.map with values := s.map.values ++ [(key, field)] } }

def collectAttrs (s : Collected) (path : List String) (children : List WapChildNode) : Collected :=
  (attrSitesAmong path children).foldl collectAttr s

/-- The presence argument of an attribute, unless it is the whole argument object. -/
def presencePath (attr : WapAttrDef) : Option WapArgPath := attr.presenceArgPath.filter (· ≠ [])

mutual

/-- The presence arguments that a node which is there once depends on, variants included. -/
def presencePaths : WapChildNode → List WapArgPath
  | ⟨_, attrs, children, _, _, _, _, _, _, groups⟩ =>
    attrs.filterMap presencePath ++ presencePathsOfGroups groups ++
      presencePathsAmong children ++ presencePathsBelow groups

def presencePathsAmong : List WapChildNode → List WapArgPath
  | [] => []
  | c :: cs => (if ownsPayload c then [] else presencePaths c) ++ presencePathsAmong cs

/-- Those of the attributes that variants contribute. -/
def presencePathsOfGroups : List (WapVariantGroup WapChildNode) → List WapArgPath
  | [] => []
  | ⟨_, variants⟩ :: gs =>
    (variants.flatMap fun v => v.attrs.filterMap presencePath) ++ presencePathsOfGroups gs

/-- Those of the children that variants contribute. -/
def presencePathsBelow : List (WapVariantGroup WapChildNode) → List WapArgPath
  | [] => []
  | ⟨_, variants⟩ :: gs => presencePathsOfVariants variants ++ presencePathsBelow gs

def presencePathsOfVariants : List (WapVariant WapChildNode) → List WapArgPath
  | [] => []
  | ⟨_, children⟩ :: vs => presencePathsAmong children ++ presencePathsOfVariants vs

end

def presenceBase (path : WapArgPath) : String :=
  String.intercalate "_" (path.map (·.key)) ++ "_present"

def collectPresence (s : Collected) (path : WapArgPath) : Collected :=
  if (s.map.presence.lookup path).isSome then s
  else
    let field := firstFree s.seen fun n => rustIdent (suffixed (presenceBase path) n)
    { out := s.out ++ [(field, .optionalBool)]
      seen := s.seen ++ [field]
      map := { s.map with presence := s.map.presence ++ [(path, field)] } }

def collectPresenceFields (s : Collected) (children : List WapChildNode) : Collected :=
  (presencePathsAmong children).foldl collectPresence s

/-- What the attributes of a struct's nodes need. -/
def collectFields (children : List WapChildNode) : Collected :=
  collectPresenceFields (collectAttrs .empty [] children) children

/-! ### Variants -/

/-- A constant attribute of every variant, with a value of its own in each. -/
def variantDiscriminator (group : WapVariantGroup WapChildNode) : Option String :=
  match group.variants with
  | [] => none
  | first :: _ =>
    (first.attrs.find? fun a =>
      a.kind = .const &&
        match group.variants.mapM fun v =>
            (v.attrs.find? fun x => x.name = a.name && x.kind = .const).map (·.value.getD "") with
        | some values => decide values.Nodup
        | none => false).map (·.name)

def isCallerAttr (a : WapAttrDef) : Bool := a.kind != .const && a.kind != .generatedId

def variantName (v : WapVariant WapChildNode) (disc : Option String) (idx : ℕ) : String :=
  let value := disc.bind fun d => (v.attrs.find? (·.name = d)).bind (·.value)
  match value, v.attrs.find? isCallerAttr with
  | some val, _ => pascalCase val
  | none, some a => pascalCase a.name
  | none, none => "Variant" ++ toString (idx + 1)

/-- A base spelling, and `base2`, `base3`, … after it. -/
def numbered (base : String) (n : ℕ) : String := if n = 1 then base else base ++ toString n

theorem toList_numbered (base : String) (n : ℕ) :
    (base ++ toString n).toList = base.toList ++ Nat.toDigits 10 n := by
  rw [String.toList_append]
  exact congrArg _ Nat.toList_repr

theorem numbered_injective (base : String) : Function.Injective (numbered base) := by
  have hne : ∀ n : ℕ, base ≠ base ++ toString n := by
    intro n h
    have hlist := congrArg String.toList h
    rw [toList_numbered] at hlist
    have hlen := congrArg List.length hlist
    rw [List.length_append] at hlen
    have hpos : 0 < (Nat.toDigits 10 n).length := Nat.length_toDigits_pos
    omega
  intro m n h
  unfold numbered at h
  by_cases hm : m = 1
  · by_cases hn : n = 1
    · rw [hm, hn]
    · rw [if_pos hm, if_neg hn] at h
      exact absurd h (hne n)
  · by_cases hn : n = 1
    · rw [if_neg hm, if_pos hn] at h
      exact absurd h.symm (hne m)
    · rw [if_neg hm, if_neg hn] at h
      have hlist := congrArg String.toList h
      rw [toList_numbered, toList_numbered] at hlist
      exact Rendering.toDigits_injective (by decide) (by decide) (List.append_cancel_left hlist)

def dedupVariantNames (group : WapVariantGroup WapChildNode) : List String :=
  allot [] (group.variants.zipIdx.map fun (v, i) =>
    numbered (variantName v (variantDiscriminator group) i))

/-- A child of a variant that is more than attributes: the caller hands its nodes over. -/
def isOpaque (c : WapChildNode) : Bool :=
  !c.children.isEmpty || c.content.isSome || !c.variantGroups.isEmpty

/-- The struct of a variant's child, and the type of the member that holds it. -/
def variantChildMember (enumName vname : String) (c : WapChildNode) :
    FieldType × List TypeDef :=
  if isOpaque c then (if c.repeats then .vec .node else .node, [])
  else
    let sname := enumName ++ vname ++ pascalCase c.tag
    let fields := (c.attrs.filter (·.kind != .const)).map fun a =>
      (rustIdent a.name, rustAttrType a.kind)
    (if c.repeats then .vec (.named sname) else .named sname, [.struct sname fields])

/-- The members that hold a variant's children, apart from those of its attributes. -/
def variantChildMembers (v : WapVariant WapChildNode) : List String :=
  allot ((v.attrs.filter (·.kind != .const)).map (rustIdent ·.name))
    (v.children.map fun c n => rustIdent (suffixed (snakeCase c.tag) n))

/-! ### Contents -/

/-- A text around the last place where a pattern stands in it. -/
def splitAtLast (pattern : List Char) : List Char → Option (List Char × List Char)
  | [] => none
  | c :: cs =>
    match splitAtLast pattern cs with
    | some (before, after) => some (c :: before, after)
    | none =>
      if pattern.isPrefixOf (c :: cs) then some ([], (c :: cs).drop pattern.length) else none

/-- The field of a node's content: the `_node` of its variable renamed. -/
def contentFieldName (varName : String) : String :=
  match splitAtLast "_node".toList varName.toList with
  | some (before, after) => String.ofList before ++ "_content" ++ String.ofList after
  | none => varName ++ "_content"

def payloadType (content : WapContent) : FieldType :=
  match content.byteLength with
  | some n => .byteArray n
  | none => .byteVec

/-- Repeated opaque content, which stays one field: as many nodes as there are payloads. -/
def isPayloadList (repeats : Bool) (attrs : List WapAttrDef) (children : List WapChildNode)
    (content : Option WapContent) (groups : List (WapVariantGroup WapChildNode)) : Bool :=
  repeats && children.isEmpty && groups.isEmpty && attrs.isEmpty &&
    content.any fun c => c.kind = .dynamic && c.constBytes.isNone

/-- The caller supplies the content. -/
def isCallerContent (content : WapContent) : Bool :=
  content.constBytes.isNone && (content.kind = .bytes || content.kind = .dynamic)

/-! ### Giving fields to a request -/

/-- An attribute and what it reads: the field of its value, and that of the presence argument. -/
structure SpecAttr where
  attr : WapAttrDef
  field : String
  presence : Option String
  presence_none : attr.presenceArgPath = none → presence = none

/-- A child of a variant and the member it is built from. -/
structure SpecChild where
  tag : String
  attrs : List SpecAttr
  isOpaque : Bool
  repeats : Bool
  presence : WapChildPresence
  member : String

structure SpecVariant where
  name : String
  attrs : List SpecAttr
  children : List SpecChild

structure SpecGroup where
  field : String
  optional : Bool
  variants : List SpecVariant

/-- A request node with the fields that its sites read. -/
inductive SpecNode where
  | node (tag : String) (repeats : Bool) (attrs : List SpecAttr) (groups : List SpecGroup)
      (content : Option (WapContent × String)) (children : List SpecNode)
  | payloads (tag : String) (field : String)
  | flag (field : String) (body : SpecNode)
  | owned (field : String) (optional repeats : Bool) (body : SpecNode)

/-- What is the same for all nodes of one struct. -/
structure RequestScope where
  specBase : String
  reserved : List String
  attrFields : AttrFieldMap

/-- What was declared so far: the fields of the struct, the types of the whole request, and how
often each variable of the builder was named. -/
structure Declared where
  fields : List (String × FieldType)
  typeDefs : List TypeDef
  used : List (String × ℕ)

/-- A field that the struct does not have yet. -/
def uniqueField (scope : RequestScope) (s : Declared) (base : String) : String :=
  firstFree (scope.reserved ++ s.fields.map (·.1)) (suffixed base)

def Declared.push (s : Declared) (field : String) (type : FieldType) : Declared :=
  { s with fields := s.fields ++ [(field, type)] }

/-- The variable that a node is built in. -/
def Declared.variable (s : Declared) (tag : String) : String × Declared :=
  let base := snakeCase tag ++ "_node"
  let count := (s.used.lookup base).getD 0
  (suffixed base (count + 1), { s with used := (base, count + 1) :: s.used })

section Assigning

variable (scope : RequestScope)

def assignAttr (here : List String) (s : Declared) (a : WapAttrDef) : SpecAttr × Declared :=
  let ident := (scope.attrFields.get (here, a.name)).getD (rustIdent a.name)
  let reading (field : String) : SpecAttr :=
    ⟨a, field, scope.attrFields.presenceField a, scope.attrFields.presenceField_none⟩
  if a.kind = .generatedId then
    let field := uniqueField scope s ident
    (reading field, s.push field .text)
  else (reading ident, s)

def assignAttrs (here : List String) : Declared → List WapAttrDef → List SpecAttr × Declared
  | s, [] => ([], s)
  | s, a :: as =>
    let (x, s) := assignAttr scope here s a
    let (xs, s) := assignAttrs here s as
    (x :: xs, s)

/-- An attribute whose value is a member of a variant or of an item. -/
def memberAttr (a : WapAttrDef) : SpecAttr :=
  ⟨a, rustIdent a.name, scope.attrFields.presenceField a, scope.attrFields.presenceField_none⟩

def specVariant (name : String) (v : WapVariant WapChildNode) : SpecVariant where
  name := name
  attrs := v.attrs.map (memberAttr scope)
  children := (v.children.zip (variantChildMembers v)).map fun (c, member) =>
    ⟨c.tag, c.attrs.map (memberAttr scope), isOpaque c, c.repeats, c.presence, member⟩

/-- The members of a variant, and the structs of its children. -/
def variantPayload (enumName vname : String) (v : WapVariant WapChildNode) :
    List (String × FieldType) × List TypeDef :=
  let members := v.children.map (variantChildMember enumName vname)
  ((v.attrs.filter isCallerAttr).map (fun a => (rustIdent a.name, rustAttrType a.kind)) ++
      (variantChildMembers v).zip (members.map (·.1)),
    members.flatMap (·.2))

/-- The enumeration of a group, the field that holds the choice, and its variants. -/
def assignGroup (tag : String) (multi : Bool) (s : Declared)
    (gi : ℕ) (group : WapVariantGroup WapChildNode) : SpecGroup × Declared :=
  let base := scope.specBase ++ pascalCase tag
  let enumName := if multi then base ++ "Variant" ++ toString (gi + 1) else base ++ "Variant"
  let plain := snakeCase tag
  let field := rustIdent (if multi then plain ++ "_v" ++ toString (gi + 1) else plain)
  let vnames := dedupVariantNames group
  let payloads := (group.variants.zip vnames).map fun (v, name) => variantPayload enumName name v
  let type := FieldType.named enumName
  (⟨field, group.optional, (group.variants.zip vnames).map fun (v, name) =>
      specVariant scope name v⟩,
    { s with
      typeDefs := s.typeDefs ++ payloads.flatMap (·.2) ++
        [.enum enumName (vnames.zip (payloads.map (·.1)))]
      fields := s.fields ++ [(field, if group.optional then .option type else type)] })

def assignGroups (tag : String) (multi : Bool) :
    Declared → ℕ → List (WapVariantGroup WapChildNode) → List SpecGroup × Declared
  | s, _, [] => ([], s)
  | s, gi, g :: gs =>
    let (x, s) := assignGroup scope tag multi s gi g
    let (xs, s) := assignGroups tag multi s (gi + 1) gs
    (x :: xs, s)

/-- The content with its field, which constants do not read. -/
def assignContent (varName : String) (s : Declared) :
    Option WapContent → Option (WapContent × String) × Declared
  | none => (none, s)
  | some content =>
    if isCallerContent content then
      let field := uniqueField scope s (contentFieldName varName)
      (some (content, field), s.push field (payloadType content))
    else (some (content, ""), s)

end Assigning

/-- The scope of a payload struct. -/
def payloadScope (specBase : String) (child : WapChildNode) : RequestScope :=
  let collected := collectFields [{ child with presence := .required, repeats := false }]
  ⟨specBase, collected.out.map (·.1), collected.map⟩

/-- A node that owns its payload, around what is done with its body in the payload's scope. -/
def assignPayload (scope : RequestScope) (s : Declared) (child : WapChildNode)
    (assignBody : RequestScope → Declared → SpecNode × Declared) : SpecNode × Declared :=
  let field := uniqueField scope s (rustIdent child.tag)
  let type := scope.specBase ++ pascalCase field ++ "Input"
  let collected := collectFields [{ child with presence := .required, repeats := false }]
  let (body, inner) := assignBody (payloadScope type child) { s with fields := [] }
  if child.presence = .presenceFlag ∧ !child.repeats ∧ collected.out = [] ∧ inner.fields = [] then
    (.flag field body, { inner with fields := s.fields ++ [(field, .bool)] })
  else
    let payload := if child.repeats then FieldType.vec (.named type) else .named type
    let optional := child.presence != .required
    (.owned field optional child.repeats body,
      { inner with
        typeDefs := inner.typeDefs ++ [.struct type (collected.out ++ inner.fields)]
        fields := s.fields ++ [(field, if optional then .option payload else payload)] })

mutual

/-- A node that does not own its payload. -/
def assignNode (scope : RequestScope) (path : List String) (repeats : Bool) (s : Declared) :
    WapChildNode → SpecNode × Declared
  | ⟨tag, attrs, children, content, _, _, _, _, _, groups⟩ =>
    let here := path ++ [tag]
    let (varName, s) := s.variable tag
    let (nested, s) := assignChildren scope here s children
    match isPayloadList repeats attrs children content groups, content with
    | true, some c =>
      let field := uniqueField scope s (contentFieldName varName)
      (.payloads tag field, s.push field (.vec (payloadType c)))
    | _, _ =>
      let (attrs, s) := assignAttrs scope here s attrs
      let (groups, s) := assignGroups scope tag (decide (1 < groups.length)) s 0 groups
      let (content, s) := assignContent scope varName s content
      (.node tag repeats attrs groups content nested, s)

def assignChildren (scope : RequestScope) (path : List String) (s : Declared) :
    List WapChildNode → List SpecNode × Declared
  | [] => ([], s)
  | c :: cs =>
    let (n, s) :=
      if ownsPayload c then
        assignPayload scope s c fun inner s => assignNode inner [] false s c
      else assignNode scope path c.repeats s c
    let (ns, s) := assignChildren scope path s cs
    (n :: ns, s)

end

end Whatspec.Codegen

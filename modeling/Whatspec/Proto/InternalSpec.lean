import Mathlib.Data.List.Perm.Basic
import Mathlib.Data.List.ReduceOption
import Whatspec.Library.Binary64

/-!
# The members of an internal specification

A message is declared by an object: a field is a key with an array, and `__oneofs__` says by name
which fields are in which group.  `parseInternalSpec` reads the fields and takes those that a group
names out of the flat list.

* `Expression` is the part of the syntax trees that is looked at;
* `parseField` reads one field;
* `takeNamed` and `spliceGroups` take fields out of their slots;
* **`parseInternalSpec_partition`**: every field is in one place, once.
-/

namespace Whatspec.Proto

open Whatspec.Library

/-! ### Syntax -/

/-- A number of the source text. -/
structure NumericLiteral where
  value : Binary64.Word
  raw : Option String
  deriving DecidableEq

/-- Expressions, as far as they are looked at.  The name of a member is there only when it is
static; an element is there only when it is neither a hole nor a spread. -/
inductive Expression where
  | number (n : NumericLiteral)
  | string (s : String)
  | identifier (name : String)
  | member (object : Expression) (property : Option String)
  | array (elements : List (Option Expression))
  | object (properties : List (Option (Option String × Expression)))
  | negation (e : Expression)
  | bitwiseOr (left right : Expression)
  | assignment (target : Option String) (right : Expression)
  | call (callee : Expression)
  | other

/-- A property of an object: its key, when it is static, and its value; nothing for a spread. -/
abbrev ObjectProperty := Option (Option String × Expression)

def asIdentifier : Expression → Option String
  | .identifier name => some name
  | _ => none

def asStringLit : Expression → Option String
  | .string s => some s
  | _ => none

def asMember : Expression → Option (Expression × String)
  | .member object (some property) => some (object, property)
  | _ => none

/-- The integers of 64 bits. -/
def isI64 (n : ℤ) : Bool := -2 ^ 63 ≤ n && n < 2 ^ 63

/-- An integer of 64 bits.  The least one is only written as a negation. -/
def asInt : Expression → Option ℤ
  | .number n => (Binary64.integer n.value).filter isI64
  | .negation e =>
      match e with
      | .number n =>
          if Binary64.integer n.value = some (2 ^ 63) ∧ n.raw = some "9223372036854775808" then
            some (-2 ^ 63)
          else ((Binary64.integer n.value).filter isI64).bind fun k =>
            if isI64 (-k) then some (-k) else none
      | e => (asInt e).bind fun k => if isI64 (-k) then some (-k) else none
  | _ => none

/-! ### Descriptors -/

/-- The type of a field, before references are resolved. -/
inductive TypeDesc where
  | scalar (name : String)
  | map (key value : TypeDesc)
  | identAlias (name : String)
  | memberRef (elem1IsEnum : Bool) (object : Option String) (property : String)
  | unresolved
  deriving DecidableEq

structure FieldDesc where
  name : String
  id : ℤ
  type : TypeDesc
  flags : List String
  deriving DecidableEq

inductive MemberDesc where
  | field (f : FieldDesc)
  | oneOf (name : String) (fields : List FieldDesc)
  deriving DecidableEq

def constraintPrefix : String := "__"
def keyOneofs : String := "__oneofs__"
def nsTypes : String := "TYPES"
def nsFlags : String := "FLAGS"
def typeMessage : String := "message"
def typeEnum : String := "enum"
def typeMap : String := "map"
def enumTypeProp : String := "ENUM"

/-! ### One field -/

/-- The operands of a chain of `|`. -/
def flattenOr : Expression → List Expression
  | .bitwiseOr left right => flattenOr left ++ flattenOr right
  | e => [e]

/-- One side of a map. -/
def mapPart (e : Option Expression) : TypeDesc :=
  match e with
  | none => .scalar "?"
  | some e =>
    match asMember e with
    | some (_, property) => .scalar property.toLower
    | none =>
      match asIdentifier e with
      | some name => .identAlias name
      | none => .scalar "?"

def parseMapType (elem2 : Option Expression) : TypeDesc :=
  match elem2 with
  | some (.array elements) => .map (mapPart elements[0]?.join) (mapPart elements[1]?.join)
  | _ => .map (.scalar "?") (.scalar "?")

/-- The object of a reference: a name, an assigned name or a called one. -/
def referredName : Expression → Option String
  | .identifier name => some name
  | .assignment target _ => target
  | .call callee => asIdentifier callee
  | _ => none

def typeRefFromElem2 (elem1 elem2 : Option Expression) : TypeDesc :=
  match elem2 with
  | none => .unresolved
  | some e2 =>
    match asIdentifier e2 with
    | some name => .identAlias name
    | none =>
      match asMember e2 with
      | some (object, property) =>
          let elem1IsEnum := (elem1.bind asMember).any fun m => m.2 = enumTypeProp
          .memberRef elem1IsEnum (referredName object) property
      | none => .unresolved

/-- What the parts of the second element have said so far. -/
structure FieldParts where
  scalarType : Option String := none
  mapType : Option TypeDesc := none
  isMessageOrEnum : Bool := false
  flags : List String := []

def FieldParts.add (elem2 : Option Expression) (parts : FieldParts) (m : Expression) :
    FieldParts :=
  match asMember m with
  | none => parts
  | some (object, property) =>
    match asMember object with
    | none => parts
    | some (_, container) =>
      if container = nsTypes then
        let t := property.toLower
        if t = typeMessage ∨ t = typeEnum then { parts with isMessageOrEnum := true }
        else if t = typeMap then { parts with mapType := some (parseMapType elem2) }
        else { parts with scalarType := some t }
      else if container = nsFlags then { parts with flags := parts.flags ++ [property.toLower] }
      else parts

def parseField (name : String) (elements : List (Option Expression)) : Option FieldDesc := do
  let id ← asInt (← (← elements[0]?))
  let elem1 := elements[1]?.join
  let elem2 := elements[2]?.join
  let parts := ((elem1.map flattenOr).getD []).foldl (FieldParts.add elem2) {}
  let type :=
    if parts.isMessageOrEnum then typeRefFromElem2 elem1 elem2
    else parts.mapType.getD (.scalar (parts.scalarType.getD "/*?*/"))
  return ⟨name, id, type, parts.flags⟩

/-! ### The fields and the groups of an object -/

/-- The field of a property, when it declares one. -/
def fieldOf (property : ObjectProperty) : Option FieldDesc :=
  match property with
  | some (some key, .array elements) =>
      if constraintPrefix.toList.isPrefixOf key.toList then none else parseField key elements
  | _ => none

/-- The groups of a property: none, but for `__oneofs__`. -/
def groupsOf (property : ObjectProperty) : List (String × List String) :=
  match property with
  | some (some key, .object groups) =>
      if key = keyOneofs then
        groups.filterMap fun group =>
          match group with
          | some (some name, .array elements) =>
              some (name, elements.filterMap fun e => e.bind asStringLit)
          | _ => none
      else []
  | _ => []

def parsedFields (properties : List ObjectProperty) : List FieldDesc := properties.filterMap fieldOf

def oneofGroups (properties : List ObjectProperty) : List (String × List String) :=
  properties.flatMap groupsOf

/-! ### Slots -/

/-- The first field of a name. -/
def byName (fields : List FieldDesc) (name : String) : Option ℕ :=
  fields.findIdx? fun f => f.name = name

/-- Take the fields of some names out of their slots. -/
def takeNamed (index : String → Option ℕ) :
    List String → List (Option FieldDesc) → List FieldDesc × List (Option FieldDesc)
  | [], slots => ([], slots)
  | n :: names, slots =>
    match index n with
    | none => takeNamed index names slots
    | some i =>
      match slots[i]? with
      | some (some f) =>
          let (group, rest) := takeNamed index names (slots.set i none)
          (f :: group, rest)
      | _ => takeNamed index names slots

/-- Take the fields of each group out. -/
def spliceGroups (index : String → Option ℕ) :
    List (String × List String) → List (Option FieldDesc) →
      List (String × List FieldDesc) × List (Option FieldDesc)
  | [], slots => ([], slots)
  | (name, names) :: groups, slots =>
      let (group, slots') := takeNamed index names slots
      let (oneofs, rest) := spliceGroups index groups slots'
      ((name, group) :: oneofs, rest)

/-- The members of an object: the fields in no group, then the groups. -/
def parseInternalSpec (properties : List ObjectProperty) : List MemberDesc :=
  let fields := parsedFields properties
  let (oneofs, slots) :=
    spliceGroups (byName fields) (oneofGroups properties) (fields.map some)
  slots.reduceOption.map .field ++ oneofs.map fun o => .oneOf o.1 o.2

/-! ### Every field is in one place -/

/-- The fields in a member. -/
def MemberDesc.fields : MemberDesc → List FieldDesc
  | .field f => [f]
  | .oneOf _ fields => fields

/-- Taking an element out of its slot leaves the others, in their order. -/
theorem reduceOption_set_none {α : Type*} {slots : List (Option α)} {i : ℕ} {a : α}
    (h : slots[i]? = some (some a)) :
    slots.reduceOption.Perm (a :: (slots.set i none).reduceOption) ∧
      (slots.set i none).reduceOption.Sublist slots.reduceOption := by
  induction slots generalizing i with
  | nil => cases h
  | cons slot slots ih =>
    cases i with
    | zero =>
      obtain rfl : slot = some a := Option.some.inj h
      rw [List.set_cons_zero, List.reduceOption_cons_of_some, List.reduceOption_cons_of_none]
      exact ⟨List.Perm.refl _, List.sublist_cons_self _ _⟩
    | succ i =>
      obtain ⟨hperm, hsub⟩ := ih h
      rw [List.set_cons_succ]
      cases slot with
      | none =>
        rw [List.reduceOption_cons_of_none, List.reduceOption_cons_of_none]
        exact ⟨hperm, hsub⟩
      | some b =>
        rw [List.reduceOption_cons_of_some, List.reduceOption_cons_of_some]
        exact ⟨(hperm.cons b).trans (List.Perm.swap _ _ _), hsub.cons_cons b⟩

/-- A slot holds nothing but the field whose name has its index. -/
def Slotted (fields : List FieldDesc) (slots : List (Option FieldDesc)) : Prop :=
  ∀ (i : ℕ) (f : FieldDesc), slots[i]? = some (some f) → fields[i]? = some f

theorem Slotted.set_none {fields : List FieldDesc} {slots : List (Option FieldDesc)}
    (h : Slotted fields slots) (i : ℕ) : Slotted fields (slots.set i none) := by
  intro j f hj
  rw [List.getElem?_set] at hj
  split_ifs at hj with hij hlt
  · cases Option.some.inj hj
  · exact h j f hj

theorem name_of_byName {fields : List FieldDesc} {name : String} {i : ℕ} {f : FieldDesc}
    (h : byName fields name = some i) (hf : fields[i]? = some f) : f.name = name := by
  obtain ⟨hlt, hname, -⟩ := List.findIdx?_eq_some_iff_getElem.mp h
  rw [List.getElem?_eq_getElem hlt] at hf
  rw [← Option.some.inj hf]
  exact of_decide_eq_true hname

/-- What taking some names out of the slots does. -/
structure Takes (fields : List FieldDesc) (names : List String) (slots : List (Option FieldDesc))
    (group : List FieldDesc) (rest : List (Option FieldDesc)) : Prop where
  perm : slots.reduceOption.Perm (group ++ rest.reduceOption)
  sublist : rest.reduceOption.Sublist slots.reduceOption
  named : (group.map FieldDesc.name).Sublist names
  slotted : Slotted fields rest

theorem takeNamed_takes {fields : List FieldDesc} : ∀ (names : List String)
    {slots : List (Option FieldDesc)}, Slotted fields slots →
      Takes fields names slots (takeNamed (byName fields) names slots).1
        (takeNamed (byName fields) names slots).2
  | [], slots, h => ⟨List.Perm.refl _, List.Sublist.refl _, List.Sublist.refl _, h⟩
  | n :: names, slots, h => by
    have hskip : Takes fields (n :: names) slots (takeNamed (byName fields) names slots).1
        (takeNamed (byName fields) names slots).2 := by
      have htake := takeNamed_takes names h
      exact ⟨htake.perm, htake.sublist, htake.named.cons n, htake.slotted⟩
    rw [takeNamed]
    split
    · exact hskip
    · rename_i i hindex
      split
      · rename_i f hslot
        obtain ⟨hperm, hsub⟩ := reduceOption_set_none hslot
        have htake := takeNamed_takes names (h.set_none i)
        have hname : f.name = n := name_of_byName hindex (h i f hslot)
        refine ⟨hperm.trans (htake.perm.cons f), htake.sublist.trans hsub, ?_, htake.slotted⟩
        rw [List.map_cons, hname]
        exact htake.named.cons_cons n
      · exact hskip

/-- What taking the fields of all groups out does. -/
structure Splices (groups : List (String × List String)) (slots : List (Option FieldDesc))
    (oneofs : List (String × List FieldDesc)) (rest : List (Option FieldDesc)) : Prop where
  perm : slots.reduceOption.Perm (rest.reduceOption ++ oneofs.flatMap Prod.snd)
  sublist : rest.reduceOption.Sublist slots.reduceOption
  grouped : List.Forall₂ (fun group oneof => oneof.1 = group.1 ∧
    (oneof.2.map FieldDesc.name).Sublist group.2) groups oneofs

theorem spliceGroups_splices {fields : List FieldDesc} :
    ∀ (groups : List (String × List String)) {slots : List (Option FieldDesc)},
      Slotted fields slots →
      Splices groups slots (spliceGroups (byName fields) groups slots).1
        (spliceGroups (byName fields) groups slots).2
  | [], slots, _ => by
    refine ⟨?_, List.Sublist.refl _, .nil⟩
    rw [spliceGroups, List.flatMap_nil, List.append_nil]
  | (name, names) :: groups, slots, h => by
    have htake := takeNamed_takes names h
    have hsplice := spliceGroups_splices groups htake.slotted
    refine ⟨?_, hsplice.sublist.trans htake.sublist, .cons ⟨rfl, htake.named⟩ hsplice.grouped⟩
    have hrest := htake.perm.trans (hsplice.perm.append_left _)
    refine hrest.trans ?_
    rw [spliceGroups, List.flatMap_cons]
    exact List.perm_append_comm_assoc _ _ _

/-- **Every field of a specification is in one place, once.**  The members are the fields in no
group, in the order they are declared in, and then the groups in theirs; in a group the fields are
in the order in which the group names them. -/
theorem parseInternalSpec_partition (properties : List ObjectProperty) :
    ∃ (flat : List FieldDesc) (oneofs : List (String × List FieldDesc)),
      parseInternalSpec properties =
        flat.map MemberDesc.field ++ oneofs.map (fun o => MemberDesc.oneOf o.1 o.2) ∧
      ((parseInternalSpec properties).flatMap MemberDesc.fields).Perm (parsedFields properties) ∧
      flat.Sublist (parsedFields properties) ∧
      List.Forall₂ (fun group oneof => oneof.1 = group.1 ∧
        (oneof.2.map FieldDesc.name).Sublist group.2) (oneofGroups properties) oneofs := by
  have hslots : Slotted (parsedFields properties) ((parsedFields properties).map some) := by
    intro i f hf
    rw [List.getElem?_map] at hf
    obtain ⟨g, hg, heq⟩ := Option.map_eq_some_iff.mp hf
    rw [hg, Option.some.inj heq]
  have hall : ((parsedFields properties).map some).reduceOption = parsedFields properties := by
    rw [List.reduceOption, List.filterMap_map]
    exact List.filterMap_some
  have hsplice := spliceGroups_splices (oneofGroups properties) hslots
  have hsub := hsplice.sublist
  have hperm := hsplice.perm
  rw [hall] at hsub hperm
  refine ⟨_, _, rfl, ?_, hsub, hsplice.grouped⟩
  refine List.Perm.trans (List.Perm.of_eq ?_) hperm.symm
  rw [parseInternalSpec, List.flatMap_append, List.flatMap_map, List.flatMap_map]
  exact congrArg (· ++ _) (List.flatMap_singleton' _)

/-- A specification of two fields, `first` and `second`, whose only group names them the other way
round. -/
def groupedBackwards : List ObjectProperty :=
  let field := fun (key : String) (id : ℤ) =>
    some (some key, Expression.array [some (.number ⟨Binary64.ofInt id, none⟩)])
  [field "first" 1, field "second" 2, some (some keyOneofs, .object
    [some (some "either", .array [some (.string "second"), some (.string "first")])])]

/-- In a group the fields need not be in the order they are declared in. -/
theorem parseInternalSpec_group_order : ¬ ∀ m ∈ parseInternalSpec groupedBackwards,
    m.fields.Sublist (parsedFields groupedBackwards) := by
  decide +kernel

end Whatspec.Proto

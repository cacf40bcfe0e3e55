import Whatspec.Library.Rendering

/-!
# The protobuf tree

The resolved messages and enums of a `.proto` file, as the extractor hands them on: field
types are already the printed strings, nested declarations hang under their message.

`debugEntity` is the derived debug text of an entity, by which equally named entities are
ordered.  `debugEntity_injective`: entities with one debug text are one entity, whichever
characters the debug text prints as they are.
-/

namespace Whatspec.Proto

open Whatspec.Library Whatspec.Library.Rendering

@[ext]
structure ProtoEnumValue where
  name : String
  id : ℤ
  deriving DecidableEq, Repr

@[ext]
structure ProtoEnum where
  name : String
  values : List ProtoEnumValue
  deriving DecidableEq, Repr

@[ext]
structure ProtoField where
  name : String
  id : ℤ
  /-- The printed type: a scalar, a possibly qualified name, or `map<K, V>`. -/
  typeName : String
  flags : List String
  packed : Bool
  default : Option String
  deriving DecidableEq, Repr

@[ext]
structure ProtoOneOf where
  name : String
  fields : List ProtoField
  deriving DecidableEq, Repr

/-- A message member: a plain field or a `oneof` group. -/
inductive ProtoMember where
  | field (f : ProtoField)
  | oneOf (o : ProtoOneOf)
  deriving DecidableEq, Repr

/-- A declaration: a message with what it declares in turn, or an enum. -/
inductive ProtoEntity where
  | message (name : String) (members : List ProtoMember) (nested : List ProtoEntity)
  | enum (e : ProtoEnum)
  deriving Repr

namespace ProtoEntity

/-- Display name used for sorting and in the header of the declaration. -/
def name : ProtoEntity → String
  | message n _ _ => n
  | enum e => e.name

@[simp] theorem name_message (n : String) (ms : List ProtoMember) (es : List ProtoEntity) :
    (message n ms es).name = n := rfl

@[simp] theorem name_enum (e : ProtoEnum) : (enum e).name = e.name := rfl

/-- Induction over declarations: a message after everything it declares. -/
@[elab_as_elim, induction_eliminator]
theorem induct {motive : ProtoEntity → Prop}
    (message : ∀ n ms es, (∀ e ∈ es, motive e) → motive (message n ms es))
    (enum : ∀ e, motive (enum e)) (e : ProtoEntity) : motive e := by
  refine @ProtoEntity.rec motive (fun es => ∀ e ∈ es, motive e) message enum ?_ ?_ e
  · intro e he
    exact absurd he List.not_mem_nil
  · intro head tail hhead htail e he
    cases List.mem_cons.mp he with
    | inl heq => exact heq ▸ hhead
    | inr hmem => exact htail e hmem

end ProtoEntity

/-! ### Debug text -/

section Debug

variable (printable : Char → Bool)

def debugEnumValue (v : ProtoEnumValue) : List Char :=
  text "ProtoEnumValue \x7b name: " ++ quoted printable v.name ++ text ", id: " ++
    int v.id ++ text " \x7d"

def debugEnum (e : ProtoEnum) : List Char :=
  text "ProtoEnum \x7b name: " ++ quoted printable e.name ++ text ", values: " ++
    list (debugEnumValue printable) e.values ++ text " \x7d"

def debugField (f : ProtoField) : List Char :=
  text "ProtoField \x7b name: " ++ quoted printable f.name ++ text ", id: " ++ int f.id ++
    text ", type_name: " ++ quoted printable f.typeName ++ text ", flags: " ++
    list (quoted printable) f.flags ++ text ", packed: " ++ bool f.packed ++
    text ", default: " ++ option (quoted printable) f.default ++ text " \x7d"

def debugMember : ProtoMember → List Char
  | .field f => text "Field(" ++ debugField printable f ++ text ")"
  | .oneOf o =>
      text "OneOf(ProtoOneOf \x7b name: " ++ quoted printable o.name ++ text ", fields: " ++
        list (debugField printable) o.fields ++ text " \x7d)"

mutual

def debugEntity : ProtoEntity → List Char
  | .message name members nested =>
      text "Message(ProtoMessage \x7b name: " ++ quoted printable name ++
        text ", members: " ++ list (debugMember printable) members ++ text ", nested: " ++
        debugNested nested ++ text " \x7d)"
  | .enum e => text "Enum(" ++ debugEnum printable e ++ text ")"

def debugNested : List ProtoEntity → List Char
  | [] => text "[" ++ text "]"
  | e :: es => text "[" ++ debugEntity e ++ debugNestedTail es

def debugNestedTail : List ProtoEntity → List Char
  | [] => text "]"
  | e :: es => text ", " ++ debugEntity e ++ debugNestedTail es

end

variable {printable}

theorem debugNestedTail_eq (es : List ProtoEntity) :
    debugNestedTail printable es = listTail (debugEntity printable) es := by
  induction es with
  | nil => rw [debugNestedTail, listTail]
  | cons e es ih => rw [debugNestedTail, listTail, ih]

theorem debugNested_eq (es : List ProtoEntity) :
    debugNested printable es = list (debugEntity printable) es := by
  cases es with
  | nil => rw [debugNested, list]
  | cons e es => rw [debugNested, list, debugNestedTail_eq]

/-! The fields of each record are read off from left to right. -/

theorem debugEnumValue_notClosing : NotClosing (debugEnumValue printable) := by
  intro v s t
  simp only [debugEnumValue, List.append_assoc]
  exact text_ne_text (by decide) _ _

theorem debugField_notClosing : NotClosing (debugField printable) := by
  intro f s t
  simp only [debugField, List.append_assoc]
  exact text_ne_text (by decide) _ _

theorem debugEnumValue_delimited : Delimited (debugEnumValue printable) := by
  intro a b s t h
  simp only [debugEnumValue, List.append_assoc] at h
  obtain ⟨hname, h⟩ := quoted_delimited printable _ _ _ _ (List.append_cancel_left h)
  obtain ⟨hid, h⟩ := int_append_inj (endsNumber_text (by decide)) (List.append_cancel_left h)
  exact ⟨ProtoEnumValue.ext hname hid, h⟩

theorem debugEnum_delimited : Delimited (debugEnum printable) := by
  intro a b s t h
  simp only [debugEnum, List.append_assoc] at h
  obtain ⟨hname, h⟩ := quoted_delimited printable _ _ _ _ (List.append_cancel_left h)
  obtain ⟨hvalues, h⟩ := list_delimited debugEnumValue_notClosing debugEnumValue_delimited _ _ _ _
    (List.append_cancel_left h)
  exact ⟨ProtoEnum.ext hname hvalues, List.append_cancel_left h⟩

theorem debugField_delimited : Delimited (debugField printable) := by
  intro a b s t h
  simp only [debugField, List.append_assoc] at h
  obtain ⟨hname, h⟩ := quoted_delimited printable _ _ _ _ (List.append_cancel_left h)
  obtain ⟨hid, h⟩ := int_append_inj (endsNumber_text (by decide)) (List.append_cancel_left h)
  obtain ⟨htype, h⟩ := quoted_delimited printable _ _ _ _ h
  obtain ⟨hflags, h⟩ := list_delimited (quoted_notClosing printable)
    (quoted_delimited printable) _ _ _ _ (List.append_cancel_left h)
  obtain ⟨hpacked, h⟩ := bool_delimited _ _ _ _ (List.append_cancel_left h)
  obtain ⟨hdefault, h⟩ := option_delimited (quoted_delimited printable) _ _ _ _
    (List.append_cancel_left h)
  exact ⟨ProtoField.ext hname hid htype hflags hpacked hdefault, List.append_cancel_left h⟩

theorem debugMember_delimited : Delimited (debugMember printable) := by
  intro a b s t h
  cases a with
  | field f =>
      cases b with
      | field g =>
          simp only [debugMember, List.append_assoc] at h
          obtain ⟨hfg, h⟩ := debugField_delimited _ _ _ _ (List.append_cancel_left h)
          exact ⟨by rw [hfg], List.append_cancel_left h⟩
      | oneOf o =>
          simp only [debugMember, List.append_assoc] at h
          exact absurd h (text_ne_text (by decide) _ _)
  | oneOf o =>
      cases b with
      | field g =>
          simp only [debugMember, List.append_assoc] at h
          exact absurd h (text_ne_text (by decide) _ _)
      | oneOf p =>
          simp only [debugMember, List.append_assoc] at h
          obtain ⟨hname, h⟩ := quoted_delimited printable _ _ _ _ (List.append_cancel_left h)
          obtain ⟨hfields, h⟩ := list_delimited debugField_notClosing
            debugField_delimited _ _ _ _ (List.append_cancel_left h)
          exact ⟨by rw [ProtoOneOf.ext hname hfields], List.append_cancel_left h⟩

theorem debugMember_notClosing : NotClosing (debugMember printable) := by
  intro m s t
  cases m with
  | field f =>
      rw [debugMember, List.append_assoc, List.append_assoc]
      exact text_ne_text (by decide) _ _
  | oneOf o =>
      simp only [debugMember, List.append_assoc]
      exact text_ne_text (by decide) _ _

theorem debugEntity_notClosing : NotClosing (debugEntity printable) := by
  intro e s t
  cases e with
  | message n ms es =>
      simp only [debugEntity, List.append_assoc]
      exact text_ne_text (by decide) _ _
  | enum e =>
      simp only [debugEntity, List.append_assoc]
      exact text_ne_text (by decide) _ _

theorem debugEntity_delimited : Delimited (debugEntity printable) := by
  intro a
  induction a with
  | message n ms es ih =>
      intro b s t h
      cases b with
      | message n' ms' es' =>
          simp only [debugEntity, debugNested_eq, List.append_assoc] at h
          obtain ⟨hname, h⟩ := quoted_delimited printable _ _ _ _ (List.append_cancel_left h)
          obtain ⟨hmembers, h⟩ := list_delimited debugMember_notClosing
            debugMember_delimited _ _ _ _ (List.append_cancel_left h)
          obtain ⟨hnested, h⟩ := list_delimited_of debugEntity_notClosing ih _ _ _
            (List.append_cancel_left h)
          exact ⟨by rw [hname, hmembers, hnested], List.append_cancel_left h⟩
      | enum e =>
          simp only [debugEntity, List.append_assoc] at h
          exact absurd h (text_ne_text (by decide) _ _)
  | enum e =>
      intro b s t h
      cases b with
      | message n' ms' es' =>
          simp only [debugEntity, List.append_assoc] at h
          exact absurd h (text_ne_text (by decide) _ _)
      | enum e' =>
          simp only [debugEntity, List.append_assoc] at h
          obtain ⟨henum, h⟩ := debugEnum_delimited _ _ _ _ (List.append_cancel_left h)
          exact ⟨by rw [henum], List.append_cancel_left h⟩

variable (printable)

/-- **An entity's debug text tells the entity.** -/
theorem debugEntity_injective : Function.Injective (debugEntity printable) :=
  debugEntity_delimited.injective

end Debug

instance : DecidableEq ProtoEntity := fun a b =>
  decidable_of_iff (debugEntity (fun _ => true) a = debugEntity (fun _ => true) b)
    (debugEntity_injective fun _ => true).eq_iff

end Whatspec.Proto

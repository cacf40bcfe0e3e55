import Mathlib.Data.List.Perm.Basic
import Whatspec.Proto.Placement

/-!
# What the clean-up keeps

A declaration is a message by itself or an enum, wherever in the tree it is.

* `dedupTopLevel_least`: of the entities of one top-level name the least is kept;
* `Carried` is what may become of a declaration: type names are qualified, the values of an enum are
  prefixed with its name, and nothing else changes;
* **`makeProtocValid_conserves`**: the declarations of the kept entities are carried over one by
  one, and there are no others.
-/

namespace Whatspec.Proto

open Whatspec.Library Whatspec.Text

/-! ### Declarations -/

/-- A declaration by itself, without what is declared in it. -/
inductive Declaration where
  | message (name : String) (members : List ProtoMember)
  | enum (e : ProtoEnum)
  deriving DecidableEq

mutual

/-- The declarations of an entity, from the outside in. -/
def declarations : ProtoEntity → List Declaration
  | .message name members nested => .message name members :: nestedDeclarations nested
  | .enum e => [.enum e]

def nestedDeclarations : List ProtoEntity → List Declaration
  | [] => []
  | e :: es => declarations e ++ nestedDeclarations es

end

theorem nestedDeclarations_eq (es : List ProtoEntity) :
    nestedDeclarations es = es.flatMap declarations := by
  induction es with
  | nil => rfl
  | cons e es ih => rw [nestedDeclarations, ih, List.flatMap_cons]

theorem declarations_message (n : String) (ms : List ProtoMember) (nested : List ProtoEntity) :
    declarations (.message n ms nested) = .message n ms :: nested.flatMap declarations := by
  rw [declarations, nestedDeclarations_eq]

/-! ### What may become of a declaration -/

section Carried

variable (es : List ProtoEntity)

/-- A name in a type is kept, or qualified with the host of the enum it spells. -/
inductive NameCarried (name : String) : String → Prop
  | same : NameCarried name name
  | moved {host : String} (h : MovesTo es name host) : NameCarried name (host ++ "." ++ name)

/-- A type is a name, or a map whose sides are names; the sides are printed without the space that
was around them. -/
inductive TypeCarried (t : String) : String → Prop
  | name {t' : String} (h : NameCarried es t t') : TypeCarried t t'
  | map {inner : List Char} {parts : List String} (h : mapInner t = some inner)
      (hparts : List.Forall₂ (fun p => NameCarried es (String.ofList (trim p)))
        (inner.splitOn ',') parts) : TypeCarried t ("map<" ++ String.intercalate ", " parts ++ ">")

/-- A field keeps everything but the spelling of its type. -/
structure FieldCarried (f f' : ProtoField) : Prop where
  name : f'.name = f.name
  id : f'.id = f.id
  type : TypeCarried es f.typeName f'.typeName
  flags : f'.flags = f.flags
  packed : f'.packed = f.packed
  default : f'.default = f.default

inductive MemberCarried : ProtoMember → ProtoMember → Prop
  | field {f f' : ProtoField} (h : FieldCarried es f f') : MemberCarried (.field f) (.field f')
  | oneOf {name : String} {fields fields' : List ProtoField}
      (h : List.Forall₂ (FieldCarried es) fields fields') :
      MemberCarried (.oneOf ⟨name, fields⟩) (.oneOf ⟨name, fields'⟩)

inductive Carried : Declaration → Declaration → Prop
  | message {name : String} {ms ms' : List ProtoMember}
      (h : List.Forall₂ (MemberCarried es) ms ms') : Carried (.message name ms) (.message name ms')
  | enum (e : ProtoEnum) : Carried (.enum e) (.enum e)
  | prefixed {e : ProtoEnum} (h : Prefixed es e.name) : Carried (.enum e) (.enum (prefixValues e))

/-- The name a part of a type is rewritten to. -/
theorem nameCarried_get (name : String) :
    NameCarried es name ((SortedMap.get (qualifiedNames es) name).getD name) := by
  cases hget : SortedMap.get (qualifiedNames es) name with
  | none => exact .same
  | some s =>
    obtain ⟨h, hmoves, -, rfl⟩ := get_qualifiedNames.mp hget
    exact .moved hmoves

theorem typeCarried_rewriteType (t : String) :
    TypeCarried es t (rewriteType (qualifiedNames es) t) := by
  rw [rewriteType]
  cases hget : SortedMap.get (qualifiedNames es) t with
  | some s =>
    have hname := nameCarried_get es t
    rw [hget] at hname
    exact .name hname
  | none =>
    cases hmap : mapInner t with
    | none => exact .name .same
    | some inner =>
      refine .map hmap ?_
      rw [List.forall₂_map_right_iff]
      exact List.forall₂_same.mpr fun p _ => nameCarried_get es _

theorem fieldCarried_rewriteField (f : ProtoField) :
    FieldCarried es f (rewriteField (qualifiedNames es) f) := by
  have htype := typeCarried_rewriteType es f.typeName
  rw [rewriteField]
  refine ⟨?_, ?_, ?_, ?_, ?_, ?_⟩ <;> dsimp only
  exact htype

theorem memberCarried_refl (m : ProtoMember) : MemberCarried es m m := by
  have hfield : ∀ f, FieldCarried es f f := fun f => ⟨rfl, rfl, .name .same, rfl, rfl, rfl⟩
  cases m with
  | field f => exact .field (hfield f)
  | oneOf o => exact .oneOf (List.forall₂_same.mpr fun f _ => hfield f)

theorem memberCarried_requalifyMember (m : ProtoMember) :
    MemberCarried es m (requalifyMember es m) := by
  rw [requalifyMember]
  split_ifs
  · exact memberCarried_refl es m
  · cases m with
    | field f => exact .field (fieldCarried_rewriteField es f)
    | oneOf o =>
      refine .oneOf ?_
      rw [List.forall₂_map_right_iff]
      exact List.forall₂_same.mpr fun f _ => fieldCarried_rewriteField es f

theorem forall₂_flatMap {α β γ : Type*} {r : β → γ → Prop} {f : α → List β} {g : α → List γ} :
    ∀ {xs : List α}, (∀ x ∈ xs, List.Forall₂ r (f x) (g x)) →
      List.Forall₂ r (xs.flatMap f) (xs.flatMap g)
  | [], _ => .nil
  | x :: xs, h => by
    obtain ⟨hx, hxs⟩ := List.forall_mem_cons.mp h
    rw [List.flatMap_cons, List.flatMap_cons]
    exact List.rel_append hx (forall₂_flatMap hxs)

/-- Rewriting the types carries every declaration of an entity. -/
theorem carried_requalify (e : ProtoEntity) :
    List.Forall₂ (Carried es) (declarations e) (declarations (requalify es e)) := by
  induction e with
  | message n ms nested ih =>
    rw [requalify_message, declarations_message, declarations_message, List.flatMap_map]
    refine .cons (.message ?_) (forall₂_flatMap ih)
    rw [List.forall₂_map_right_iff]
    exact List.forall₂_same.mpr fun m _ => memberCarried_requalifyMember es m
  | enum x =>
    rw [requalify_enum]
    exact .cons (.enum x) .nil

/-- The changes to an entity carry every declaration of it. -/
theorem carried_changed (e : ProtoEntity) :
    List.Forall₂ (Carried es) (declarations e)
      (declarations (requalify es (prefixNamed (prefixes es) e))) := by
  cases e with
  | message n ms nested => exact carried_requalify es _
  | enum x =>
    rw [prefixNamed]
    split_ifs with hprefixed
    · rw [requalify_enum]
      exact .cons (.prefixed (mem_prefixes_iff.mp hprefixed)) .nil
    · exact carried_requalify es _

end Carried

/-! ### Moving enums -/

section Moving

variable {es : List ProtoEntity} (hnodup : (es.map ProtoEntity.name).Nodup)

/-- The enums that move. -/
def movedEnums (es : List ProtoEntity) : List ProtoEntity :=
  es.filter (isEnumNamed ((moves es).map Prod.fst))

/-- The entities that stay at the top level. -/
def stayingEntities (es : List ProtoEntity) : List ProtoEntity :=
  es.filter fun e => !isEnumNamed ((moves es).map Prod.fst) e

theorem mem_movedEnums {e : ProtoEntity} :
    e ∈ movedEnums es ↔ e ∈ es ∧ ∃ x h, e = .enum x ∧ MovesTo es x.name h := by
  rw [movedEnums, List.mem_filter, isEnumNamed_iff]
  refine and_congr_right fun _ => ⟨?_, ?_⟩
  · rintro ⟨x, rfl, hx⟩
    obtain ⟨h, hmoves⟩ := mem_fst_moves.mp hx
    exact ⟨x, h, rfl, hmoves⟩
  · rintro ⟨x, h, rfl, hmoves⟩
    exact ⟨x, rfl, mem_fst_moves.mpr ⟨h, hmoves⟩⟩

/-- An enum that moves keeps its values. -/
theorem changed_of_moved {e : ProtoEntity} (he : e ∈ movedEnums es) :
    requalify es (prefixNamed (prefixes es) e) = e := by
  obtain ⟨-, x, h, rfl, hmoves⟩ := mem_movedEnums.mp he
  rw [prefixNamed, if_neg, requalify_enum]
  intro hprefixed
  have hnone := (mem_prefixes_iff.mp hprefixed).2
  rw [hmoves.2] at hnone
  cases hnone

include hnodup in
/-- **Every enum that moves arrives in one place.** -/
theorem perm_arrivals :
    ((stayingEntities es).flatMap fun e => arrivals es e.name).Perm (movedEnums es) := by
  have hmoved : (movedEnums es).Nodup := (hnodup.of_map _).filter _
  have hnames : ((stayingEntities es).map ProtoEntity.name).Nodup :=
    hnodup.sublist (List.filter_sublist.map _)
  have harrivals : ((stayingEntities es).flatMap fun e => arrivals es e.name).Nodup := by
    rw [List.nodup_flatMap]
    refine ⟨fun e _ => (nodup_arrivals hnodup e.name).of_map _, ?_⟩
    refine (List.pairwise_map.mp hnames).imp fun {e f} hne x hx hx' => hne ?_
    obtain ⟨y, rfl, -, hy⟩ := (mem_arrivals_iff hnodup).mp hx
    obtain ⟨y', heq, -, hy'⟩ := (mem_arrivals_iff hnodup).mp hx'
    cases heq
    exact movesTo_unique hy hy'
  refine (List.perm_ext_iff_of_nodup harrivals hmoved).mpr fun e => ?_
  rw [List.mem_flatMap, mem_movedEnums]
  constructor
  · rintro ⟨host, -, he⟩
    obtain ⟨x, rfl, hx, hmoves⟩ := (mem_arrivals_iff hnodup).mp he
    exact ⟨hx, x, host.name, rfl, hmoves⟩
  · rintro ⟨he, x, h, rfl, hmoves⟩
    obtain ⟨ms, nested, hhost⟩ := (isMessageNamed_of_hostOf hmoves.2).1
    exact ⟨.message h ms nested, List.mem_filter.mpr ⟨hhost, rfl⟩,
      (mem_arrivals_iff hnodup).mpr ⟨x, rfl, he, hmoves⟩⟩

include hnodup in
/-- The declarations of an entity with the enums that arrive in it. -/
theorem perm_declarations_settle {e : ProtoEntity} (he : e ∈ es) :
    (declarations (settle es e)).Perm
      (declarations (requalify es (prefixNamed (prefixes es) e)) ++
        (arrivals es e.name).flatMap declarations) := by
  cases e with
  | message n ms nested =>
    rw [settle, prefixNamed, requalify_message, addNested, declarations_message,
      declarations_message, List.flatMap_append]
    exact List.Perm.refl _
  | enum x =>
    -- An enum is no host: the host of its name would be another entity of that name.
    have hnone : arrivals es (ProtoEntity.enum x).name = [] := by
      rw [List.eq_nil_iff_forall_not_mem]
      intro f hf
      obtain ⟨y, -, -, hmoves⟩ := (mem_arrivals_iff hnodup).mp hf
      obtain ⟨ms, nested, hhost⟩ := (isMessageNamed_of_hostOf hmoves.2).1
      cases eq_of_name_eq hnodup he hhost rfl
    rw [settle, hnone, addNested_nil, List.flatMap_nil, List.append_nil]

include hnodup in
/-- **Relocation loses nothing and doubles nothing.** -/
theorem perm_relocate (order : HashOrder String) :
    ((relocateCollidingEnums order es).flatMap declarations).Perm
      (es.flatMap fun e => declarations (requalify es (prefixNamed (prefixes es) e))) := by
  have hsettled : ((relocateCollidingEnums order es).flatMap declarations).Perm
      ((stayingEntities es).flatMap fun e =>
        declarations (requalify es (prefixNamed (prefixes es) e)) ++
          (arrivals es e.name).flatMap declarations) := by
    rw [relocate_eq order hnodup, List.flatMap_map]
    exact List.Perm.flatMap_left _ fun e he =>
      perm_declarations_settle hnodup (List.mem_filter.mp he).1
  have hmoved : ((stayingEntities es).flatMap fun e => (arrivals es e.name).flatMap declarations).Perm
      ((movedEnums es).flatMap fun e =>
        declarations (requalify es (prefixNamed (prefixes es) e))) := by
    rw [← List.flatMap_assoc]
    refine ((perm_arrivals hnodup).flatMap_right declarations).trans (List.Perm.of_eq ?_)
    exact List.flatMap_congr fun e he => by rw [changed_of_moved he]
  have hsplit : (movedEnums es ++ stayingEntities es).Perm es := List.filter_append_perm _ es
  have hchanged := hsplit.flatMap_right fun e =>
    declarations (requalify es (prefixNamed (prefixes es) e))
  rw [List.flatMap_append] at hchanged
  refine hsettled.trans ?_
  refine (List.flatMap_append_perm _ _ _).symm.trans ?_
  refine (hmoved.append_left _).trans ?_
  exact List.perm_append_comm.trans hchanged

end Moving

/-! ### One entity per name -/

section Dedup

variable (printable : Char → Bool)

/-- Of a sorted list the first entity of every name is kept, but for the name that was kept last. -/
theorem keepFirst_least {es : List ProtoEntity}
    (h : es.Pairwise fun a b => sortKey printable a ≤ sortKey printable b) (last : Option String) :
    ∀ e ∈ es, last = some e.name ∨ ∃ k ∈ keepFirst last es, k.name = e.name ∧
      sortKey printable k ≤ sortKey printable e := by
  induction es generalizing last with
  | nil => exact nofun
  | cons f es ih =>
    obtain ⟨hle, hrest⟩ := List.pairwise_cons.mp h
    intro e he
    rw [keepFirst]
    by_cases hlast : last = some f.name
    · rw [if_pos hlast]
      obtain rfl | he := List.mem_cons.mp he
      · exact Or.inl hlast
      · exact ih hrest last e he
    · rw [if_neg hlast]
      obtain rfl | he := List.mem_cons.mp he
      · exact Or.inr ⟨e, List.mem_cons_self, rfl, le_refl _⟩
      · obtain hname | ⟨k, hk, hname, hkey⟩ := ih hrest (some f.name) e he
        · exact Or.inr ⟨f, List.mem_cons_self, Option.some.inj hname, hle e he⟩
        · exact Or.inr ⟨k, List.mem_cons_of_mem _ hk, hname, hkey⟩

/-- **Of the entities of one name the least is kept.** -/
theorem dedupTopLevel_least (es : List ProtoEntity) :
    ∀ e ∈ es, ∃ k ∈ dedupTopLevel printable es, k.name = e.name ∧
      sortKey printable k ≤ sortKey printable e := by
  intro e he
  have hsorted := List.pairwise_insertionSort
    (fun a b => sortKey printable a ≤ sortKey printable b) es
  obtain hlast | hkept := keepFirst_least printable hsorted none e
    ((List.mem_insertionSort _).mpr he)
  · cases hlast
  · exact hkept

end Dedup

/-! ### The clean-up -/

/-- **The clean-up keeps one entity of every top-level name, and every declaration of those it
keeps.**  Its declarations are those of the kept entities, each carried over once. -/
theorem makeProtocValid_conserves (printable : Char → Bool) (order : HashOrder String)
    (es : List ProtoEntity) :
    ((dedupTopLevel printable es).map ProtoEntity.name).Nodup ∧
    (∀ k ∈ dedupTopLevel printable es, k ∈ es) ∧
    (∀ e ∈ es, ∃ k ∈ dedupTopLevel printable es, k.name = e.name ∧
      sortKey printable k ≤ sortKey printable e) ∧
    ∃ carried, List.Forall₂ (Carried (dedupTopLevel printable es))
        ((dedupTopLevel printable es).flatMap declarations) carried ∧
      ((makeProtocValid printable order es).flatMap declarations).Perm carried := by
  have hnodup := nodup_dedupTopLevel printable es
  refine ⟨hnodup, fun k => mem_of_mem_dedupTopLevel printable, dedupTopLevel_least printable es,
    _, ?_, perm_relocate hnodup order⟩
  exact forall₂_flatMap fun e _ => carried_changed _ e

/-- Two messages of one name and with different fields. -/
def divergedMessages : List ProtoEntity :=
  [.message "Key" [.field ⟨"id", 1, "string", ["optional"], false, none⟩] [],
    .message "Key" [.field ⟨"raw", 1, "bytes", ["optional"], false, none⟩] []]

theorem pairwise_divergedMessages : divergedMessages.Pairwise fun a b =>
    sortKey (fun _ => true) a ≤ sortKey (fun _ => true) b := by
  refine List.pairwise_pair.mpr (Prod.Lex.toLex_le_toLex.mpr (Or.inr ⟨rfl, ?_⟩))
  rw [String.le_iff_toList_le, String.toList_ofList, String.toList_ofList]
  decide +kernel

/-- One of two messages of one name is lost, also when they differ. -/
theorem makeProtocValid_drops_diverged : ∃ d ∈ divergedMessages.flatMap declarations,
    ¬ ∃ d' ∈ (makeProtocValid (fun _ => true) HashOrder.increasing divergedMessages).flatMap
      declarations, Carried divergedMessages d d' := by
  refine ⟨.message "Key" [.field ⟨"raw", 1, "bytes", ["optional"], false, none⟩], by decide, ?_⟩
  rintro ⟨d', hd', hcarried⟩
  have hout : (makeProtocValid (fun _ => true) HashOrder.increasing divergedMessages).flatMap
      declarations = [.message "Key" [.field ⟨"id", 1, "string", ["optional"], false, none⟩]] := by
    rw [makeProtocValid, dedupTopLevel, pairwise_divergedMessages.insertionSort_eq]
    decide +kernel
  rw [hout, List.mem_singleton] at hd'
  subst hd'
  cases hcarried with
  | message h =>
    cases h with
    | cons hmember _ =>
      cases hmember with
      | field hfield => exact absurd hfield.name (by decide)

end Whatspec.Proto

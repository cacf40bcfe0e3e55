import Whatspec.Proto.ProtocValid
import Whatspec.Proto.References

/-!
# Finding a reference again

A reference stands at the same place after the pass: under the same top-level message, the
same way down, in the same field.  `referenceAt_settled` says so, with the messages around it
as `carried` and its name as `renamed`.
-/

namespace Whatspec.Proto

open Whatspec.Library Whatspec.Text

section Sites

variable (es : List ProtoEntity)

/-- Rewrite a field when some enum needs it. -/
def requalifyField (f : ProtoField) : ProtoField :=
  if qualifiedNames es = [] then f else rewriteField (qualifiedNames es) f

theorem fields_requalifyMember (m : ProtoMember) :
    (requalifyMember es m).fields = m.fields.map (requalifyField es) := by
  unfold requalifyMember requalifyField
  by_cases h : qualifiedNames es = []
  · simp only [if_pos h, List.map_id']
  · simp only [if_neg h]
    cases m with
    | field f => rfl
    | oneOf o => rfl

theorem fieldsOf_requalify (e : ProtoEntity) :
    fieldsOf (requalify es e) = (fieldsOf e).map (requalifyField es) := by
  cases e with
  | enum x =>
      rw [requalify_enum]
      rfl
  | message n ms nested =>
      rw [requalify_message, fieldsOf, fieldsOf, List.flatMap_map, List.map_flatMap]
      exact List.flatMap_congr fun m _ => fields_requalifyMember es m

/-- A place inside a nested message, after the pass. -/
theorem descend_requalify {m o : ProtoEntity} {outer chain : List ProtoEntity} {path : List ℕ}
    (h : descend m (o :: outer) path = some chain) :
    descend (requalify es m) (carried es (o :: outer)) path = some (carried es chain) := by
  induction path generalizing m o outer with
  | nil =>
      rw [descend] at h ⊢
      rw [← Option.some.inj h, carried]
  | cons i path ih =>
      rw [descend, Option.bind_eq_some_iff] at h
      obtain ⟨e, he, hrest⟩ := h
      rw [descend, nested_requalify, List.getElem?_map, he]
      exact ih hrest

/-- A place inside a top-level message, after the pass. -/
theorem descend_settle {n : String} {ms : List ProtoMember} {nested chain : List ProtoEntity}
    {path : List ℕ} (h : descend (.message n ms nested) [] path = some chain) :
    descend (settle es (.message n ms nested)) [] path = some (carried es chain) := by
  cases path with
  | nil =>
      rw [descend] at h ⊢
      rw [← Option.some.inj h, carried]
  | cons i path =>
      rw [descend, Option.bind_eq_some_iff] at h
      obtain ⟨e, he, hrest⟩ := h
      have hi : i < nested.length := (List.getElem?_eq_some_iff.mp he).1
      rw [descend, settle_message, ProtoEntity.nested,
        List.getElem?_append_left (by rw [List.length_map]; exact hi), List.getElem?_map]
      rw [ProtoEntity.nested] at he
      rw [he]
      have hinner := descend_requalify es hrest
      rw [carried, settle_message] at hinner
      exact hinner

/-- The innermost message of a place keeps its fields, up to rewriting. -/
theorem fields_carried (m : ProtoEntity) (outer : List ProtoEntity)
    (hroot : outer = [] → ∃ n ms nested, m = .message n ms nested) :
    (carried es (m :: outer)).head?.map fieldsOf = some ((fieldsOf m).map (requalifyField es)) := by
  cases outer with
  | cons o outer =>
      rw [carried, List.head?_cons, Option.map_some, fieldsOf_requalify]
  | nil =>
      obtain ⟨n, ms, nested, rfl⟩ := hroot rfl
      rw [carried, settle_message, List.head?_cons, Option.map_some,
        ← fieldsOf_requalify, requalify_message, fieldsOf, fieldsOf]

end Sites

/-- The way down ends at the top-level message it started from. -/
theorem getLast?_descend {m : ProtoEntity} {outer chain : List ProtoEntity} {path : List ℕ}
    (h : descend m outer path = some chain) : chain.getLast? = (m :: outer).getLast? := by
  induction path generalizing m outer with
  | nil =>
      rw [descend] at h
      rw [← Option.some.inj h]
  | cons i path ih =>
      rw [descend, Option.bind_eq_some_iff] at h
      obtain ⟨e, _, hrest⟩ := h
      rw [ih hrest, List.getLast?_cons_cons]

theorem descend_ne_nil {m : ProtoEntity} {outer chain : List ProtoEntity} {path : List ℕ}
    (h : descend m outer path = some chain) : chain ≠ [] := by
  intro hnil
  have hlast := getLast?_descend h
  rw [hnil] at hlast
  cases hlast

/-- An entity is found by its name. -/
theorem find?_of_mem {es : List ProtoEntity} (hnodup : (es.map ProtoEntity.name).Nodup)
    {e : ProtoEntity} (he : e ∈ es) {n : String} (hn : e.name = n) :
    es.find? (fun f => f.name = n) = some e := by
  cases hfind : es.find? (fun f => f.name = n) with
  | none => exact absurd (decide_eq_true hn) (List.find?_eq_none.mp hfind e he)
  | some f =>
      have hname : f.name = n := by simpa using List.find?_some hfind
      rw [eq_of_name_eq hnodup (List.mem_of_find?_eq_some hfind) he (hname.trans hn.symm)]

/-- A chain of messages that ends at a top-level one. -/
def Rooted (es chain : List ProtoEntity) : Prop :=
  ∃ n ms nested, chain.getLast? = some (.message n ms nested) ∧ .message n ms nested ∈ es

/-- Where a reference stands. -/
theorem referenceAt_spec {es : List ProtoEntity} {site : ReferenceSite}
    {chain : List ProtoEntity} {r : String} (h : referenceAt es site = some (chain, r)) :
    ∃ n ms nested m outer f, .message n ms nested ∈ es ∧ n = site.message ∧
      descend (.message n ms nested) [] site.path = some chain ∧ chain = m :: outer ∧
      (fieldsOf m)[site.field]? = some f ∧ (typeRefs f.typeName)[site.ref]? = some r := by
  rw [referenceAt, Option.bind_eq_some_iff] at h
  obtain ⟨top, htop, h⟩ := h
  obtain ⟨chain', hchain, h⟩ := Option.bind_eq_some_iff.mp h
  obtain ⟨f, hfield, h⟩ := Option.bind_eq_some_iff.mp h
  obtain ⟨m, hm, hf⟩ := Option.bind_eq_some_iff.mp hfield
  obtain ⟨r', hr, h⟩ := Option.map_eq_some_iff.mp h
  obtain ⟨rfl, rfl⟩ := Prod.mk.inj h
  have hname : top.name = site.message := by simpa using List.find?_some htop
  have hmem := List.mem_of_find?_eq_some htop
  have hcons : chain' = m :: chain'.tail := by
    cases hc : chain' with
    | nil => exact absurd hc (descend_ne_nil hchain)
    | cons x xs =>
        rw [hc, List.head?_cons] at hm
        rw [Option.some.inj hm, List.tail_cons]
  cases top with
  | message n ms nested => exact ⟨n, ms, nested, m, chain'.tail, f, hmem, hname, hchain, hcons, hf, hr⟩
  | enum x =>
      -- An enum has no fields.
      have hlast := getLast?_descend hchain
      cases hpath : site.path with
      | nil =>
          rw [hpath, descend] at hchain
          rw [← Option.some.inj hchain, List.head?_cons] at hm
          rw [← Option.some.inj hm] at hf
          cases hf
      | cons i path =>
          rw [hpath, descend] at hchain
          cases hchain

/-- The names that are rewritten, and their replacements, are made of identifiers. -/
theorem plainText_of_wellNamed {es : List ProtoEntity} (hwell : ∀ e ∈ es, WellNamed e)
    {k v : String} (h : SortedMap.get (qualifiedNames es) k = some v) :
    PlainText k ∧ PlainText v := by
  obtain ⟨host, hmoves, _, rfl⟩ := get_qualifiedNames.mp h
  obtain ⟨x, hx, rfl⟩ := hmoves.1.exists_enum
  obtain ⟨ms, nested, hmsg⟩ := (isMessageNamed_of_hostOf hmoves.2).1
  have hk : isIdent x.name = true := by
    cases hwell _ hx with
    | enum hname => exact hname
  have hhost : isIdent host = true := by
    cases hwell _ hmsg with
    | message hname _ => exact hname
  exact ⟨plainText_of_isIdent hk, plainText_qualified hhost hk⟩

/-- The tree after the pass. -/
def settledEntities (es : List ProtoEntity) : List ProtoEntity :=
  (es.filter fun e => !isEnumNamed ((moves es).map Prod.fst) e).map (settle es)

theorem mem_settledEntities {es : List ProtoEntity} {e : ProtoEntity} (he : e ∈ es)
    (hstays : Stays es e) : settle es e ∈ settledEntities es :=
  List.mem_map_of_mem (List.mem_filter.mpr ⟨he, stays_iff.mpr hstays⟩)

theorem nodup_settledEntities {es : List ProtoEntity} (hnodup : (es.map ProtoEntity.name).Nodup) :
    ((settledEntities es).map ProtoEntity.name).Nodup :=
  name_filter_kept (name_settle es) _ hnodup

section Transport

theorem typeName_rewriteField (qualified : List (String × String)) (f : ProtoField) :
    (rewriteField qualified f).typeName = rewriteType qualified f.typeName := rfl

variable {es : List ProtoEntity} (hnodup : (es.map ProtoEntity.name).Nodup)

theorem typeRefs_requalifyField (hwell : ∀ e ∈ es, WellNamed e) (f : ProtoField) :
    typeRefs (requalifyField es f).typeName =
      (typeRefs f.typeName).map (renamed (qualifiedNames es)) := by
  rw [requalifyField]
  by_cases h : qualifiedNames es = []
  · have hid : renamed (qualifiedNames es) = id := by
      rw [h]
      rfl
    rw [if_pos h, hid, List.map_id]
  · rw [if_neg h, typeName_rewriteField,
      typeRefs_rewriteType fun k v => plainText_of_wellNamed hwell]

include hnodup in
/-- **Every reference is found again**, with its name rewritten. -/
theorem referenceAt_settled (hwell : ∀ e ∈ es, WellNamed e) {site : ReferenceSite}
    {chain : List ProtoEntity} {r : String} (h : referenceAt es site = some (chain, r)) :
    referenceAt (settledEntities es) site =
      some (carried es chain, renamed (qualifiedNames es) r) := by
  obtain ⟨n, ms, nested, m, outer, f, hmem, hname, hchain, rfl, hf, hr⟩ := referenceAt_spec h
  have htop := find?_of_mem (nodup_settledEntities hnodup) (mem_settledEntities hmem trivial)
    (n := site.message) (by rw [name_settle]; exact hname)
  have hroot : outer = [] → ∃ n ms nested, m = .message n ms nested := by
    intro hnil
    have hlast := getLast?_descend hchain
    rw [hnil, List.getLast?_singleton, List.getLast?_singleton] at hlast
    exact ⟨n, ms, nested, Option.some.inj hlast⟩
  have hfields := fields_carried es m outer hroot
  obtain ⟨m', hm', hfields⟩ := Option.map_eq_some_iff.mp hfields
  rw [referenceAt, htop, Option.bind_some, descend_settle es hchain, Option.bind_some, hm',
    Option.bind_some, hfields, List.getElem?_map, hf, Option.map_some, Option.bind_some,
    typeRefs_requalifyField hwell, List.getElem?_map, hr, Option.map_some, Option.map_some]

theorem rooted_of_referenceAt {site : ReferenceSite} {chain : List ProtoEntity} {r : String}
    (h : referenceAt es site = some (chain, r)) : Rooted es chain := by
  obtain ⟨n, ms, nested, m, outer, f, hmem, _, hchain, _, _, _⟩ := referenceAt_spec h
  exact ⟨n, ms, nested, getLast?_descend hchain, hmem⟩

end Transport

end Whatspec.Proto

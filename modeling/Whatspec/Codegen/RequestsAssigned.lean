import Mathlib
import Whatspec.Codegen.RequestsProbed

/-!
# Sites and the request tree

Whether the sites of a request have what they need can be read off the request tree.

* a presence argument has a field exactly when a node of the struct that is there once, or a
  variant of such a node, depends on it (`collectFields_isSome`);
* `assignNode_faithful` and `assignChildren_faithful` carry that over the tree;
* the names of a group's variants differ from one another.
-/

namespace Whatspec.Codegen

open Whatspec.Scan Whatspec.Text Whatspec.Library

/-! ### The fields that sites are given -/

theorem length_dedupVariantNames (group : WapVariantGroup WapChildNode) :
    (dedupVariantNames group).length = group.variants.length := by
  simp [dedupVariantNames, length_allot]

theorem nodup_dedupVariantNames (group : WapVariantGroup WapChildNode) :
    (dedupVariantNames group).Nodup := by
  refine nodup_allot fun name hname => ?_
  obtain ⟨x, _, rfl⟩ := List.mem_map.mp hname
  exact numbered_injective _

theorem length_variantChildMembers (v : WapVariant WapChildNode) :
    (variantChildMembers v).length = v.children.length := by
  simp [variantChildMembers, length_allot]

/-- The presence arguments with a field are those of some paths. -/
def RequestScope.Knows (scope : RequestScope) (paths : List WapArgPath) : Prop :=
  ∀ path, (scope.attrFields.presence.lookup path).isSome ↔ path ∈ paths

theorem foldl_collectAttr_presence (sites : List AttrSite) :
    ∀ s : Collected, (sites.foldl collectAttr s).map.presence = s.map.presence := by
  induction sites with
  | nil => intro s; rfl
  | cons site sites ih =>
    intro s
    rw [List.foldl_cons, ih]
    unfold collectAttr
    by_cases h : site.attr.kind = .const ∨ site.attr.kind = .generatedId ∨
        (s.map.get (site.path, site.attr.name)).isSome
    · simp only [if_pos h]
    · simp only [if_neg h]

theorem lookup_append_isSome {α β : Type} [BEq α] [LawfulBEq α] (l : List (α × β)) (k a : α)
    (b : β) : ((l ++ [(k, b)]).lookup a).isSome ↔ (l.lookup a).isSome ∨ a = k := by
  rw [List.lookup_append]
  cases h : l.lookup a with
  | some x => simp
  | none =>
    by_cases hak : a = k
    · simp [hak]
    · simp [List.lookup, hak, beq_eq_false_iff_ne.mpr hak]

theorem foldl_collectPresence_isSome (paths : List WapArgPath) (p : WapArgPath) :
    ∀ s : Collected, ((paths.foldl collectPresence s).map.presence.lookup p).isSome ↔
      (s.map.presence.lookup p).isSome ∨ p ∈ paths := by
  induction paths with
  | nil => intro s; simp
  | cons path paths ih =>
    intro s
    rw [List.foldl_cons, ih, List.mem_cons]
    unfold collectPresence
    by_cases h : (s.map.presence.lookup path).isSome
    · simp only [if_pos h]
      constructor
      · rintro (hs | hp)
        · exact .inl hs
        · exact .inr (.inr hp)
      · rintro (hs | rfl | hp)
        · exact .inl hs
        · exact .inl h
        · exact .inr hp
    · simp only [if_neg h, lookup_append_isSome, or_assoc]

theorem collectFields_isSome (children : List WapChildNode) (p : WapArgPath) :
    ((collectFields children).map.presence.lookup p).isSome ↔ p ∈ presencePathsAmong children := by
  rw [collectFields, collectPresenceFields, foldl_collectPresence_isSome, collectAttrs,
    foldl_collectAttr_presence]
  simp [Collected.empty]

theorem payloadScope_knows (specBase : String) (c : WapChildNode) :
    (payloadScope specBase c).Knows (presencePaths c) := by
  intro p
  refine (collectFields_isSome _ p).trans ?_
  obtain ⟨tag, attrs, children, content, repeats, presence, least, most, path, groups⟩ := c
  simp [presencePathsAmong, ownsPayload, presencePaths]

section Assigned

variable {scope : RequestScope} {paths : List WapArgPath} (hscope : scope.Knows paths)
include hscope

/-- An attribute with its fields has what it needs exactly when it is writable. -/
theorem faithful_iff_writable {generated : Bool} {x : SpecAttr} {a : WapAttrDef}
    (hattr : x.attr = a) (hpresence : x.presence = scope.attrFields.presenceField a) :
    x.Faithful generated ↔ WritableAttr paths generated a := by
  subst hattr
  have hp : (x.attr.presenceArgPath.isSome → x.presence.isSome) ↔
      ∀ path, x.attr.presenceArgPath = some path → path ∈ paths := by
    rw [hpresence, AttrFieldMap.presenceField]
    cases x.attr.presenceArgPath with
    | none => simp
    | some path => simpa using hscope path
  constructor
  · rintro ⟨hc, ho, hg, hpres⟩
    exact ⟨hc, ho, hg, hp.mp hpres⟩
  · rintro ⟨hc, ho, hg, hpres⟩
    exact ⟨hc, ho, hg, hp.mpr hpres⟩

theorem memberAttr_faithful {generated : Bool} {a : WapAttrDef} :
    (memberAttr scope a).Faithful generated ↔ WritableAttr paths generated a :=
  faithful_iff_writable hscope rfl rfl

theorem assignAttrs_faithful {here : List String} : ∀ (as : List WapAttrDef) (s : Declared),
    (∀ x ∈ (assignAttrs scope here s as).1, x.Faithful true) ↔ ∀ a ∈ as, WritableAttr paths true a
  | [], s => by simp [assignAttrs]
  | a :: as, s => by
    have hfirst : (assignAttr scope here s a).1.Faithful true ↔ WritableAttr paths true a := by
      unfold assignAttr
      by_cases hk : a.kind = .generatedId
      · simp only [if_pos hk]
        exact faithful_iff_writable hscope rfl rfl
      · simp only [if_neg hk]
        exact faithful_iff_writable hscope rfl rfl
    simp only [assignAttrs, List.forall_mem_cons, hfirst, assignAttrs_faithful as]

end Assigned

section Assigned

variable {scope : RequestScope} {paths : List WapArgPath} (hscope : scope.Knows paths)
include hscope

theorem specVariant_faithful (name : String) (v : WapVariant WapChildNode) :
    (specVariant scope name v).Faithful ↔ WritableVariant paths v := by
  have hattrs : (∀ x ∈ (specVariant scope name v).attrs, x.Faithful false) ↔
      ∀ a ∈ v.attrs, WritableAttr paths false a := by
    simp only [specVariant, List.forall_mem_map, memberAttr_faithful hscope]
  have hchild : ∀ (c : WapChildNode) (member : String),
      (SpecChild.mk c.tag (c.attrs.map (memberAttr scope)) (isOpaque c) c.repeats c.presence
        member).Faithful ↔ WritableChild paths c := by
    intro c member
    constructor
    · rintro ⟨hrequired, hattrs⟩
      refine ⟨hrequired, fun ho a ha => (memberAttr_faithful hscope).mp (hattrs ho _ ?_)⟩
      exact List.mem_map_of_mem ha
    · rintro ⟨hrequired, hattrs⟩
      refine ⟨hrequired, fun ho x hx => ?_⟩
      obtain ⟨a, ha, rfl⟩ := List.mem_map.mp hx
      exact (memberAttr_faithful hscope).mpr (hattrs ho a ha)
  have hchildren : (∀ x ∈ (specVariant scope name v).children, x.Faithful) ↔
      ∀ c ∈ v.children, WritableChild paths c := by
    constructor
    · intro h c hc
      have hmem : c ∈ (v.children.zip (variantChildMembers v)).map Prod.fst := by
        rw [List.map_fst_zip (length_variantChildMembers v).ge]
        exact hc
      obtain ⟨⟨_, member⟩, hpair, rfl⟩ := List.mem_map.mp hmem
      exact (hchild _ member).mp (h _ (List.mem_map_of_mem hpair))
    · intro h x hx
      obtain ⟨⟨c, member⟩, hpair, rfl⟩ := List.mem_map.mp hx
      exact (hchild c member).mpr (h c (List.of_mem_zip hpair).1)
  constructor
  · rintro ⟨ha, hc⟩
    exact ⟨hattrs.mp ha, hchildren.mp hc⟩
  · rintro ⟨ha, hc⟩
    exact ⟨hattrs.mpr ha, hchildren.mpr hc⟩

omit hscope in
/-- A property of the variants of a group with fields is one of its alternatives. -/
theorem forall_mem_assignGroup {tag : String} {multi : Bool} {s : Declared} {gi : ℕ}
    {g : WapVariantGroup WapChildNode} {p : SpecVariant → Prop}
    {q : WapVariant WapChildNode → Prop} (h : ∀ name v, p (specVariant scope name v) ↔ q v) :
    (∀ v ∈ (assignGroup scope tag multi s gi g).1.variants, p v) ↔ ∀ v ∈ g.variants, q v := by
  have hzip : (g.variants.zip (dedupVariantNames g)).map Prod.fst = g.variants :=
    List.map_fst_zip (length_dedupVariantNames g).ge
  constructor
  · intro hall v hv
    rw [← hzip] at hv
    obtain ⟨⟨_, name⟩, hpair, rfl⟩ := List.mem_map.mp hv
    exact (h name _).mp (hall _ (List.mem_map_of_mem hpair))
  · intro hall x hx
    obtain ⟨⟨v, name⟩, hpair, rfl⟩ := List.mem_map.mp hx
    exact (h name v).mpr (hall v (List.of_mem_zip hpair).1)

omit hscope in
theorem forall_mem_assignGroups {tag : String} {multi : Bool} {p : SpecVariant → Prop}
    {q : WapVariant WapChildNode → Prop} (h : ∀ name v, p (specVariant scope name v) ↔ q v) :
    ∀ (gs : List (WapVariantGroup WapChildNode)) (s : Declared) (gi : ℕ),
      (∀ g ∈ (assignGroups scope tag multi s gi gs).1, ∀ v ∈ g.variants, p v) ↔
        ∀ g ∈ gs, ∀ v ∈ g.variants, q v
  | [], s, gi => by simp [assignGroups]
  | g :: gs, s, gi => by
    simp only [assignGroups, List.forall_mem_cons, forall_mem_assignGroup h,
      forall_mem_assignGroups h gs]

omit hscope in
theorem specVariant_children_eq_nil (name : String) (v : WapVariant WapChildNode) :
    (specVariant scope name v).children = [] ↔ v.children = [] := by
  have hlen : (specVariant scope name v).children.length = v.children.length := by
    simp [specVariant, length_variantChildMembers]
  rw [← List.length_eq_zero_iff, hlen, List.length_eq_zero_iff]

omit hscope in
theorem assignContent_fst (varName : String) (s : Declared) (content : Option WapContent) :
    (assignContent scope varName s content).1.map Prod.fst = content := by
  cases content with
  | none => rfl
  | some c =>
    unfold assignContent
    by_cases hc : isCallerContent c
    · simp [hc]
    · simp [hc]

omit hscope in
theorem assignChildren_eq_nil (path : List String) (s : Declared) (cs : List WapChildNode) :
    (assignChildren scope path s cs).1 = [] ↔ cs = [] := by
  cases cs with
  | nil => simp [assignChildren]
  | cons c cs => simp [assignChildren]

omit hscope in
theorem hasBytes_of_isPayloadList {attrs : List WapAttrDef} {children : List WapChildNode}
    {content : Option WapContent} {groups : List (WapVariantGroup WapChildNode)}
    (h : isPayloadList true attrs children content groups) :
    attrs = [] ∧ children = [] ∧ groups = [] ∧ ∃ c, content = some c ∧ hasBytes c := by
  simp only [isPayloadList, Bool.true_and, Bool.and_eq_true, List.isEmpty_iff] at h
  obtain ⟨⟨⟨rfl, rfl⟩, rfl⟩, hcontent⟩ := h
  cases content with
  | none => cases hcontent
  | some c =>
    simp only [Option.any_some, Bool.and_eq_true, decide_eq_true_eq, Option.isNone_iff_eq_none]
      at hcontent
    exact ⟨rfl, rfl, rfl, c, rfl, by simp [hasBytes, hcontent]⟩

omit hscope in
theorem assignContent_faithful {varName tag : String} {multi : Bool} {path : List String}
    {s s' s'' : Declared} {gi : ℕ} {content : Option WapContent} {children : List WapChildNode}
    {groups : List (WapVariantGroup WapChildNode)} :
    FaithfulContent (assignContent scope varName s content).1 (assignChildren scope path s' children).1
        (assignGroups scope tag multi s'' gi groups).1 ↔
      WritableContent content children groups := by
  have hempty : (∀ g ∈ (assignGroups scope tag multi s'' gi groups).1, ∀ v ∈ g.variants,
      v.children = []) ↔ ∀ g ∈ groups, ∀ v ∈ g.variants, v.children = [] :=
    forall_mem_assignGroups (p := (·.children = [])) (q := (·.children = []))
      specVariant_children_eq_nil groups s'' gi
  have hfst : (assignContent scope varName s content).1.map Prod.fst = content :=
    assignContent_fst varName s content
  unfold FaithfulContent WritableContent
  rw [assignChildren_eq_nil, hempty]
  constructor
  · intro h c hc
    rw [← hfst] at hc
    obtain ⟨⟨_, field⟩, hpair, rfl⟩ := Option.map_eq_some_iff.mp hc
    exact h _ field hpair
  · intro h c field hc
    rw [hc] at hfst
    exact h c hfst.symm

omit hscope in
/-- A node that is no list of payloads, with its fields. -/
theorem assignNode_of_not_list (scope : RequestScope) (path : List String) (repeats : Bool)
    (s : Declared) (c : WapChildNode)
    (h : isPayloadList repeats c.attrs c.children c.content c.variantGroups = false) :
    ∃ varName s₀ s₁ s₂ s₃ multi, (assignNode scope path repeats s c).1 =
      .node c.tag repeats (assignAttrs scope (path ++ [c.tag]) s₁ c.attrs).1
        (assignGroups scope c.tag multi s₂ 0 c.variantGroups).1
        (assignContent scope varName s₃ c.content).1
        (assignChildren scope (path ++ [c.tag]) s₀ c.children).1 := by
  obtain ⟨tag, attrs, children, content, r, presence, least, most, argPath, groups⟩ := c
  unfold assignNode
  cases content with
  | none => simp only [h]; exact ⟨_, _, _, _, _, _, rfl⟩
  | some c => simp only [h]; exact ⟨_, _, _, _, _, _, rfl⟩

omit hscope in
/-- A payload has what it needs when its body does. -/
theorem assignPayload_faithful {s : Declared} {c : WapChildNode}
    {assignBody : RequestScope → Declared → SpecNode × Declared} :
    (assignPayload scope s c assignBody).1.Faithful ↔
      (assignBody (payloadScope (scope.specBase ++
        pascalCase (uniqueField scope s (rustIdent c.tag)) ++ "Input") c)
        { s with fields := [] }).1.Faithful := by
  unfold assignPayload
  dsimp only
  generalize assignBody _ _ = x
  obtain ⟨body, inner⟩ := x
  by_cases hflag : c.presence = .presenceFlag ∧ (!c.repeats) = true ∧
      (collectFields [{ c with presence := .required, repeats := false }]).out = [] ∧
      inner.fields = []
  · simp only [if_pos hflag, SpecNode.Faithful]
  · simp only [if_neg hflag, SpecNode.Faithful]

omit hscope in
theorem assignPayload_wellNamed {s : Declared} {c : WapChildNode}
    {assignBody : RequestScope → Declared → SpecNode × Declared}
    (h : ∀ inner s, (assignBody inner s).1.WellNamed) :
    (assignPayload scope s c assignBody).1.WellNamed := by
  unfold assignPayload
  dsimp only
  have hbody := h (payloadScope (scope.specBase ++
    pascalCase (uniqueField scope s (rustIdent c.tag)) ++ "Input") c) { s with fields := [] }
  generalize assignBody _ _ = x at hbody ⊢
  obtain ⟨body, inner⟩ := x
  by_cases hflag : c.presence = .presenceFlag ∧ (!c.repeats) = true ∧
      (collectFields [{ c with presence := .required, repeats := false }]).out = [] ∧
      inner.fields = []
  · simp only [if_pos hflag]
    exact hbody
  · simp only [if_neg hflag]
    exact hbody

end Assigned

mutual

/-- **A node with its fields has what it needs exactly when its code can write it.** -/
theorem assignNode_faithful : ∀ (c : WapChildNode) {scope : RequestScope} {paths : List WapArgPath}
    (_ : scope.Knows paths) (path : List String) (repeats : Bool) (s : Declared),
    (assignNode scope path repeats s c).1.Faithful ↔
      (repeats → isPayloadList true c.attrs c.children c.content c.variantGroups) ∧
        Writable paths c
  | ⟨tag, attrs, children, content, r, presence, least, most, argPath, groups⟩, scope, paths,
      hscope, path, repeats, s => by
    cases hlist : isPayloadList repeats attrs children content groups with
    | true =>
      obtain rfl : repeats = true := by
        cases repeats with
        | true => rfl
        | false => simp [isPayloadList] at hlist
      obtain ⟨rfl, rfl, rfl, c, rfl, hbytes⟩ := hasBytes_of_isPayloadList hlist
      simp [assignNode, hlist, SpecNode.Faithful, Writable, WritableContent, WritableAmong, hbytes]
    | false =>
      obtain ⟨varName, s₀, s₁, s₂, s₃, multi, hnode⟩ :=
        assignNode_of_not_list scope path repeats s
          ⟨tag, attrs, children, content, r, presence, least, most, argPath, groups⟩ hlist
      have hrepeats : (repeats → isPayloadList true attrs children content groups) ↔
          repeats = false := by
        cases repeats with
        | true => simp [hlist]
        | false => simp
      simp only [hnode, SpecNode.Faithful, Writable, hrepeats, assignAttrs_faithful hscope,
        forall_mem_assignGroups (specVariant_faithful hscope),
        assignChildren_faithful children hscope, assignContent_faithful]

theorem assignChildren_faithful : ∀ (cs : List WapChildNode) {scope : RequestScope}
    {paths : List WapArgPath} (_ : scope.Knows paths) (path : List String) (s : Declared),
    FaithfulAmong (assignChildren scope path s cs).1 ↔ WritableAmong paths cs
  | [], scope, paths, _, path, s => Iff.rfl
  | c :: cs, scope, paths, hscope, path, s => by
    unfold assignChildren WritableAmong
    by_cases ho : ownsPayload c
    · have hbody : ∀ s, (assignPayload scope s c fun inner s =>
          assignNode inner [] false s c).1.Faithful ↔ Writable (presencePaths c) c := by
        intro s
        rw [assignPayload_faithful, assignNode_faithful c (payloadScope_knows _ c)]
        simp
      simp only [if_pos ho, FaithfulAmong, hbody, assignChildren_faithful cs hscope]
    · simp only [if_neg ho, FaithfulAmong, assignNode_faithful c hscope,
        assignChildren_faithful cs hscope]

end

/-! ### Names of variants -/

theorem assignGroups_wellNamed {scope : RequestScope} {tag : String} {multi : Bool} :
    ∀ (gs : List (WapVariantGroup WapChildNode)) (s : Declared) (gi : ℕ),
      (∀ g ∈ gs, g.variants ≠ []) → ∀ g ∈ (assignGroups scope tag multi s gi gs).1, g.WellNamed
  | [], s, gi, _ => by simp [assignGroups]
  | g :: gs, s, gi, h => by
    rw [List.forall_mem_cons] at h
    simp only [assignGroups, List.forall_mem_cons]
    refine ⟨?_, assignGroups_wellNamed gs _ _ h.2⟩
    have hnames : (assignGroup scope tag multi s gi g).1.variants.map (·.name) =
        dedupVariantNames g := by
      have hsnd := List.map_snd_zip (length_dedupVariantNames g).le
      simpa [assignGroup, specVariant, Function.comp_def] using hsnd
    refine ⟨fun hnil => h.1 ?_, hnames ▸ nodup_dedupVariantNames g⟩
    have hlen := congrArg List.length hnames
    rw [hnil, length_dedupVariantNames] at hlen
    exact List.length_eq_zero_iff.mp hlen.symm

mutual

theorem assignNode_wellNamed : ∀ (c : WapChildNode) (scope : RequestScope) (path : List String)
    (repeats : Bool) (s : Declared), GroupsNonempty c →
    (assignNode scope path repeats s c).1.WellNamed
  | ⟨tag, attrs, children, content, r, presence, least, most, argPath, groups⟩, scope, path,
      repeats, s, h => by
    cases hlist : isPayloadList repeats attrs children content groups with
    | true =>
      obtain rfl : repeats = true := by
        cases repeats with
        | true => rfl
        | false => simp [isPayloadList] at hlist
      obtain ⟨rfl, rfl, rfl, c, rfl, _⟩ := hasBytes_of_isPayloadList hlist
      simp [assignNode, hlist, SpecNode.WellNamed]
    | false =>
      obtain ⟨varName, s₀, s₁, s₂, s₃, multi, hnode⟩ :=
        assignNode_of_not_list scope path repeats s
          ⟨tag, attrs, children, content, r, presence, least, most, argPath, groups⟩ hlist
      rw [hnode]
      exact ⟨assignGroups_wellNamed groups s₂ 0 h.1,
        assignChildren_wellNamed children scope (path ++ [tag]) s₀ h.2⟩

theorem assignChildren_wellNamed : ∀ (cs : List WapChildNode) (scope : RequestScope)
    (path : List String) (s : Declared), GroupsNonemptyAmong cs →
    WellNamedAmong (assignChildren scope path s cs).1
  | [], scope, path, s, _ => trivial
  | c :: cs, scope, path, s, h => by
    by_cases ho : ownsPayload c
    · simp only [assignChildren, if_pos ho, WellNamedAmong]
      refine ⟨?_, assignChildren_wellNamed cs scope path _ h.2⟩
      exact assignPayload_wellNamed fun inner s => assignNode_wellNamed c inner [] false s h.1
    · simp only [assignChildren, if_neg ho, WellNamedAmong]
      refine ⟨?_, assignChildren_wellNamed cs scope path _ h.2⟩
      exact assignNode_wellNamed c scope path c.repeats s h.1

end

end Whatspec.Codegen

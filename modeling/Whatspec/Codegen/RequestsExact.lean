import Whatspec.Codegen.RequestsAssigned

/-!
# Requests whose builders write all of them

A generated `build_iq` builds, for every value of the spec struct, the tree that the request
means exactly when the request is writable.  The conditions are about the request tree alone.

* every attribute has a statement: a constant has a value, an optional one has no fixed value, and
  a generated id does not stand among the attributes that a variant contributes;
* an attribute with a presence argument has a field for it;
* a content has bytes and stands on a node without children;
* a node that repeats is a list of payloads or owns its payload, and a variant's child is required.
-/

namespace Whatspec.Codegen

open Whatspec.Scan

variable {s : String} {χ : List String → String}

/-! ### Whole requests -/

/-- Without attributes in the variants, groups contribute none. -/
theorem groupsBuilt_attrs : ∀ {groups : List SpecGroup} {self : Val} {c : Contribution},
    groupsBuilt self groups = some c → (∀ g ∈ groups, ∀ v ∈ g.variants, v.attrs = []) →
    c.attrs = []
  | [], _, _, hc, _ => by
    cases hc
    rfl
  | g :: gs, self, c, hc, hempty => by
    simp only [groupsBuilt, Option.bind_eq_bind, Option.bind_eq_some_iff] at hc
    obtain ⟨c₁, hc₁, c₂, hc₂, heq⟩ := hc
    cases heq
    rw [List.forall_mem_cons] at hempty
    have hfirst : c₁.attrs = [] := by
      unfold SpecGroup.built at hc₁
      cases hv : g.choice self with
      | none => rw [hv] at hc₁; cases hc₁; rfl
      | some v =>
        cases hx : g.chosen v with
        | none => simp [hv, hx] at hc₁
        | some x =>
          simp only [hv, hx, Option.map_some, Option.some.injEq] at hc₁
          simp [← hc₁, SpecVariant.built, hempty.1 x (List.mem_of_find?_eq_some hx)]
    rw [hfirst, groupsBuilt_attrs hc₂ hempty.2, List.append_nil]

theorem groupMeaning_attrs : ∀ {groups : List SpecGroup} {self : Val} {c : Contribution},
    groupMeaning self groups = some c → (∀ g ∈ groups, ∀ v ∈ g.variants, v.attrs = []) →
    c.attrs = []
  | [], _, _, hc, _ => by
    cases hc
    rfl
  | g :: gs, self, c, hc, hempty => by
    simp only [groupMeaning, Option.bind_eq_bind, Option.bind_eq_some_iff] at hc
    obtain ⟨c₁, hc₁, c₂, hc₂, heq⟩ := hc
    cases heq
    rw [List.forall_mem_cons] at hempty
    have hfirst : c₁.attrs = [] := by
      unfold SpecGroup.meaning at hc₁
      cases hv : g.choice self with
      | none => rw [hv] at hc₁; cases hc₁; rfl
      | some v =>
        cases hx : g.chosen v with
        | none => simp [hv, hx] at hc₁
        | some x =>
          have hattrs := hempty.1 x (List.mem_of_find?_eq_some hx)
          simp only [hv, hx, Option.bind_some, SpecVariant.meaning, hattrs, concatM,
            Option.bind_eq_bind, Option.bind_eq_some_iff] at hc₁
          obtain ⟨children, _, heq⟩ := hc₁
          cases heq
          rfl
    rw [hfirst, groupMeaning_attrs hc₂ hempty.2, List.append_nil]

mutual

/-- A value of which everything is there chooses among the variants. -/
theorem chooses_fullVal (hχ : ValidChoice χ) : ∀ n : SpecNode, n.WellNamed →
    n.Chooses (fullVal s χ)
  | .node tag repeats attrs groups content children, h => by
    refine ⟨fun g hg v hv => ?_, choosesAmong_fullVal hχ children h.2⟩
    rw [SpecGroup.choice_fullVal, Option.some.injEq] at hv
    subst hv
    have hmem : χ (g.variants.map (·.name)) ∈ g.variants.map (·.name) :=
      hχ _ (by simpa using (h.1 g hg).nonempty)
    obtain ⟨v, hv, hname⟩ := List.mem_map.mp hmem
    exact List.find?_isSome.mpr ⟨v, hv, decide_eq_true hname⟩
  | .payloads _ _, _ => trivial
  | .flag field body, h => chooses_fullVal hχ body h
  | .owned field optional repeats body, h => by
    intro item hitem
    rw [heldItems_fullVal, List.mem_singleton] at hitem
    subst hitem
    exact chooses_fullVal hχ body h

theorem choosesAmong_fullVal (hχ : ValidChoice χ) : ∀ ns : List SpecNode, WellNamedAmong ns →
    ChoosesAmong ns (fullVal s χ)
  | [], _ => trivial
  | n :: ns, h => ⟨chooses_fullVal hχ n h.1, choosesAmong_fullVal hχ ns h.2⟩

end

/-- Every group of a request has an alternative. -/
def IqRequest.GroupsNonempty (r : IqRequest) : Prop := GroupsNonemptyAmong r.requestNodes

/-- What is built for every value of the spec struct is what the request means. -/
def IqRequest.WritesAll (r : IqRequest) (specBase : String) : Prop :=
  ∀ self, (r.assign specBase).Chooses self →
    ∃ q, r.buildIq specBase self = some q ∧ (r.assign specBase).meaning self = some q

section Root

variable (r : IqRequest) (specBase : String)

/-- The scope of the request's own struct. -/
def IqRequest.scope : RequestScope :=
  let collected := collectFields r.requestNodes
  ⟨specBase, collected.out.map (·.1), collected.map⟩

theorem IqRequest.scope_knows : (r.scope specBase).Knows (presencePathsAmong r.requestNodes) :=
  fun p => collectFields_isSome r.requestNodes p

variable {r specBase}

/-- A request without groups of its own. -/
theorem assign_children (specBase : String) (h : r.variantGroups.isEmpty) : ∃ s,
    (r.assign specBase).root = .children (assignChildren (r.scope specBase) [] s r.children).1 := by
  unfold IqRequest.assign
  simp only [if_pos h]
  exact ⟨_, rfl⟩

/-- A request with groups of its own. -/
theorem assign_payload (specBase : String) (h : ¬r.variantGroups.isEmpty) : ∃ s,
    (r.assign specBase).root =
      .payload (assignNode (r.scope specBase) [] false s r.rootPayload).1 := by
  unfold IqRequest.assign
  simp only [if_neg h]
  exact ⟨_, rfl⟩

/-- The nodes of a list spelling say whether there are any. -/
theorem topContent_eq {ns : List SpecNode} {self : Val} {nodes : List Node}
    (h : runNested (emitChildBuilders ns) self = some nodes) (hne : ns ≠ []) :
    topContent (emitChildBuilders ns) nodes = if nodes.isEmpty then none else some (.nodes nodes) := by
  unfold topContent
  cases hlist : (emitChildBuilders ns).any (·.isList) with
  | true => rfl
  | false =>
    have hnodes := runNested_ne_nil h hlist (mt emitChildBuilders_eq_nil.mp hne)
    simp [hnodes]

theorem buildIq_children {ns : List SpecNode} (haccepted : r.accepted)
    (h : (r.assign specBase).root = .children ns) (self : Val) :
    r.buildIq specBase self = (runNested (emitChildBuilders ns) self).map fun nodes =>
      ⟨(r.assign specBase).addressee, if nodes.isEmpty then none else some (.nodes nodes)⟩ := by
  unfold IqRequest.buildIq
  simp only [haccepted, Bool.not_true, Bool.false_eq_true, if_false, h]
  by_cases hne : ns = []
  · subst hne
    rfl
  · cases hrun : runNested (emitChildBuilders ns) self with
    | none => simp [hne]
    | some nodes => simp [hne, topContent_eq hrun hne]

theorem buildIq_payload {n : SpecNode} (haccepted : r.accepted)
    (h : (r.assign specBase).root = .payload n) (self : Val) :
    r.buildIq specBase self = ((emitChildBuilder n).run self).bind fun nodes =>
      match nodes with
      | [.mk _ _ content] => some ⟨(r.assign specBase).addressee, content⟩
      | _ => none := by
  unfold IqRequest.buildIq
  simp only [haccepted, Bool.not_true, Bool.false_eq_true, if_false, h]
  rfl

theorem writesAll_children_iff (haccepted : r.accepted) (hgroups : r.GroupsNonempty)
    (h : r.variantGroups.isEmpty) : r.WritesAll specBase ↔ r.Writable := by
  obtain ⟨s, hroot⟩ := assign_children specBase h
  have hnodes : r.requestNodes = r.children := if_pos h
  have hfaithful := assignChildren_faithful r.children (r.scope_knows specBase) [] s
  have hnamed := assignChildren_wellNamed r.children (r.scope specBase) [] s
    (by simpa only [IqRequest.GroupsNonempty, hnodes] using hgroups)
  rw [IqRequest.Writable]
  rw [hnodes] at hfaithful ⊢
  rw [← hfaithful]
  generalize (assignChildren (r.scope specBase) [] s r.children).1 = ns at hroot hnamed hfaithful ⊢
  constructor
  · intro hwrites
    refine faithfulAmong_of_run ns hnamed fun s χ hχ => ?_
    have hch : (r.assign specBase).Chooses (fullVal s χ) := by
      rw [SpecRequest.Chooses, hroot]
      exact choosesAmong_fullVal hχ ns hnamed
    obtain ⟨q, hq, hq'⟩ := hwrites _ hch
    rw [buildIq_children haccepted hroot, Option.map_eq_some_iff] at hq
    obtain ⟨nodes, hrun, rfl⟩ := hq
    simp only [SpecRequest.meaning, hroot, Option.bind_eq_bind, Option.bind_eq_some_iff] at hq'
    obtain ⟨nodes', hmeaning, heq⟩ := hq'
    refine ⟨nodes, hrun, ?_⟩
    have hlen : nodes'.length = nodes.length := by
      rw [runNested_fullVal_length ns hrun, meaningAmong_fullVal_length ns hmeaning]
    have heq' : (if nodes'.isEmpty then none else some (NodeContent.nodes nodes')) =
        if nodes.isEmpty then none else some (NodeContent.nodes nodes) :=
      congrArg InfoQuery.content (Option.some.inj heq)
    cases nodes with
    | nil => rw [hmeaning, List.length_eq_zero_iff.mp hlen]
    | cons x xs =>
      cases nodes' with
      | nil => cases hlen
      | cons y ys =>
        rw [hmeaning]
        cases heq'
        rfl
  · intro hf self hch
    rw [SpecRequest.Chooses, hroot] at hch
    obtain ⟨nodes, hrun, hmeaning⟩ := runNested_eq_meaning ns self hf hch
    refine ⟨_, (buildIq_children haccepted hroot self).trans (by rw [hrun]; rfl), ?_⟩
    simp [SpecRequest.meaning, hroot, hmeaning]

theorem writesAll_payload_iff (haccepted : r.accepted) (hgroups : r.GroupsNonempty)
    (h : ¬r.variantGroups.isEmpty) : r.WritesAll specBase ↔ r.Writable := by
  obtain ⟨s, hroot⟩ := assign_payload specBase h
  have hnodes : r.requestNodes = [r.rootPayload] := if_neg h
  have hfaithful := assignNode_faithful r.rootPayload (r.scope_knows specBase) [] false s
  have hnamed := assignNode_wellNamed r.rootPayload (r.scope specBase) [] false s
    (by simpa only [IqRequest.GroupsNonempty, hnodes, GroupsNonemptyAmong, and_true] using hgroups)
  have hwritable : r.Writable ↔
      (assignNode (r.scope specBase) [] false s r.rootPayload).1.Faithful := by
    rw [hfaithful, IqRequest.Writable]
    have howns : ownsPayload r.rootPayload = false := rfl
    have hrepeats : r.rootPayload.repeats = false := rfl
    simp only [hnodes, WritableAmong, howns, hrepeats, and_true, Bool.false_eq_true, if_false,
      false_implies, true_and]
  obtain ⟨varName, s₀, s₁, s₂, s₃, multi, hnode⟩ :=
    assignNode_of_not_list (r.scope specBase) [] false s r.rootPayload rfl
  have hattrs : ∀ g ∈ (assignGroups (r.scope specBase) r.rootPayload.tag multi s₂ 0
      r.rootPayload.variantGroups).1, ∀ v ∈ g.variants, v.attrs = [] := by
    rw [forall_mem_assignGroups (p := (·.attrs = [])) (q := (·.attrs = [])) fun name v => by
      simp [specVariant]]
    show ∀ g ∈ r.variantGroups, _
    simpa [IqRequest.accepted] using haccepted
  rw [hwritable]
  constructor
  · intro hwrites
    refine faithful_of_run _ hnamed fun s χ hχ => ?_
    have hch : (r.assign specBase).Chooses (fullVal s χ) := by
      rw [SpecRequest.Chooses, hroot]
      exact chooses_fullVal hχ _ hnamed
    obtain ⟨q, hq, hq'⟩ := hwrites _ hch
    rw [buildIq_payload haccepted hroot, Option.bind_eq_some_iff] at hq
    obtain ⟨nodes, hrun, hcontent⟩ := hq
    simp only [SpecRequest.meaning, hroot, Option.bind_eq_bind, Option.bind_eq_some_iff] at hq'
    obtain ⟨nodes', hmeaning, hcontent'⟩ := hq'
    refine ⟨nodes, hrun, hmeaning.trans ?_⟩
    -- the payload node has no attributes, so its content is all of it
    rw [hnode] at hrun hmeaning
    rw [run_emitChildBuilder_node] at hrun
    simp only [Option.bind_eq_bind, Option.bind_eq_some_iff] at hrun
    obtain ⟨_, _, c, hc, hb⟩ := hrun
    cases hb
    simp only [SpecNode.meaning, Bool.false_eq_true, if_false, Option.bind_eq_bind,
      Option.bind_eq_some_iff] at hmeaning
    obtain ⟨own, hown, _, _, m, hm, _, _, _, _, hb⟩ := hmeaning
    cases hb
    cases hown
    cases hcontent'
    simp only [Option.some.injEq, InfoQuery.mk.injEq, true_and] at hcontent
    rw [hcontent, groupsBuilt_attrs hc hattrs, groupMeaning_attrs hm hattrs]
    rfl
  · intro hf self hch
    rw [SpecRequest.Chooses, hroot] at hch
    obtain ⟨nodes, hrun, hmeaning⟩ := run_eq_meaning _ self hf hch
    have hsingle : ∃ tag attrs content, nodes = [.mk tag attrs content] := by
      rw [hnode, run_emitChildBuilder_node] at hrun
      simp only [Option.bind_eq_bind, Option.bind_eq_some_iff] at hrun
      obtain ⟨_, _, _, _, hb⟩ := hrun
      cases hb
      exact ⟨_, _, _, rfl⟩
    obtain ⟨tag, attrs, content, rfl⟩ := hsingle
    refine ⟨_, (buildIq_payload haccepted hroot self).trans (by rw [hrun]; rfl), ?_⟩
    simp [SpecRequest.meaning, hroot, hmeaning]

end Root

/-- An attribute that reads its value from an argument. -/
def plainAttr (name : String) (kind : WapAttrKind) (value : Option String) : WapAttrDef :=
  { presenceArgPath := none, name, kind, value, required := true, enumRef := none, argPath := none }

/-- `<config platform=…>`, sent with items or not, around an optional `<note>`.  The platform is
there only with its argument. -/
def configRequest : IqRequest where
  target := .server
  variantGroups := []
  children := [{ WapChildNode.default with
    tag := "config"
    attrs := [{ plainAttr "platform" .string none with
      presenceArgPath := some [⟨"hasPlatform", false⟩] }]
    children := [{ WapChildNode.default with
      tag := "note"
      presence := .optional
      content := some ⟨.bytes, none, none, none, none, none, none⟩ }]
    variantGroups := [{
      optional := false
      variants := [⟨[plainAttr "mode" .const (some "list")], [{ WapChildNode.default with
          tag := "item"
          repeats := true
          attrs := [plainAttr "jid" .userJid none] }]⟩,
        ⟨[plainAttr "mode" .const (some "none")], []⟩] }] }]

/-- `<ticket>`, new with an id that the client generates, or closed. -/
def ticketRequest : IqRequest where
  target := .server
  variantGroups := []
  children := [{ WapChildNode.default with
    tag := "ticket"
    variantGroups := [{
      optional := false
      variants := [⟨[plainAttr "state" .const (some "new"), plainAttr "id" .generatedId none], []⟩,
        ⟨[plainAttr "state" .const (some "closed")], []⟩] }] }]

end Whatspec.Codegen

import Whatspec.Codegen.RequestTrees

/-!
# What request builders write

Running the code of a request builds what the request means, wherever every site has what it
needs.

* `run_emitChildBuilder_node` runs the statements of a node: attributes in order, then the chosen
  variants, and at the end a content or children;
* `SpecNode.Faithful` is what the sites of a node need, once they have their fields;
* `run_eq_meaning`: then the nodes that are built are the nodes that are meant.
-/

namespace Whatspec.Codegen

open Whatspec.Scan Whatspec.Text

/-! ### What the code of a node builds -/

/-- What the statement of an attribute writes, if it has one. -/
def SpecAttr.built (generated : Bool) (operand : String → Operand) (frame : Frame)
    (a : SpecAttr) : List (String × String) :=
  ((emitAttr generated operand a).map frame.writeGuarded).getD []

theorem writeAll_emitAttr (generated : Bool) (operand : String → Operand) (frame : Frame)
    (as : List SpecAttr) :
    frame.writeAll (as.filterMap (emitAttr generated operand)) =
      as.flatMap (SpecAttr.built generated operand frame) := by
  induction as with
  | nil => rfl
  | cons a as ih =>
    rw [List.filterMap_cons, List.flatMap_cons, ← ih]
    cases h : emitAttr generated operand a with
    | none => simp [SpecAttr.built, h]
    | some g => simp [SpecAttr.built, h, Frame.writeAll]

/-- The nodes built for a variant's child. -/
def SpecChild.built (self payload : Val) (c : SpecChild) : List Node :=
  let v := payload.field c.member
  let items := if c.repeats then v.items else [v]
  if c.isOpaque then items.map (·.node)
  else items.map fun item =>
    .mk c.tag (c.attrs.flatMap (SpecAttr.built true .item ⟨self, payload, item⟩)) none

theorem childNodes_variantChildBuild (self payload : Val) (c : SpecChild) :
    Frame.childNodes ⟨self, payload, payload⟩ (variantChildBuild c) = c.built self payload := by
  unfold variantChildBuild SpecChild.built
  by_cases ho : c.isOpaque
  · by_cases hr : c.repeats
    · simp [ho, hr, Frame.childNodes]
    · simp [ho, hr, Frame.childNodes]
  · by_cases hr : c.repeats
    · simp [ho, hr, Frame.childNodes, writeAll_emitAttr]
    · simp [ho, hr, Frame.childNodes, writeAll_emitAttr]

/-- What the arm of a variant adds to the node. -/
def SpecVariant.built (self payload : Val) (v : SpecVariant) : Contribution where
  attrs := v.attrs.flatMap (SpecAttr.built false .bound ⟨self, payload, payload⟩)
  children := v.children.flatMap (SpecChild.built self payload)

def Building.add (b : Building) (c : Contribution) : Building :=
  { b with attrs := b.attrs ++ c.attrs, kept := b.kept ++ c.children }

theorem run_variantArm (self payload : Val) (v : SpecVariant) (b : Building) :
    (variantArm v).run self payload b = b.add (v.built self payload) := by
  simp only [ArmCode.run, variantArm, Building.add, SpecVariant.built, writeAll_emitAttr,
    List.flatMap_map, childNodes_variantChildBuild]

def SpecGroup.built (self : Val) (g : SpecGroup) : Option Contribution :=
  match g.choice self with
  | none => some ⟨[], []⟩
  | some v => (g.chosen v).map (·.built self v)

theorem runMatch_variantArm (self v : Val) (g : SpecGroup) (b : Building) :
    runMatch (g.variants.map variantArm) self v b =
      ((g.chosen v).map (·.built self v)).map b.add := by
  have hnames : (g.variants.map variantArm).map (·.variant) = g.variants.map (·.name) := by
    rw [List.map_map]
    rfl
  simp only [runMatch, hnames, SpecGroup.chosen, List.find?_map, Option.map_map]
  congr 1
  funext x
  exact run_variantArm self v x b

theorem run_matchOn (self : Val) (nested : List Node) (g : SpecGroup) (b : Building) :
    BuilderStatement.run self nested b (.matchOn g.field g.optional (g.variants.map variantArm)) =
      (g.built self).map b.add := by
  have hnone : b.add ⟨[], []⟩ = b := by simp [Building.add]
  unfold BuilderStatement.run SpecGroup.built SpecGroup.choice
  by_cases ho : g.optional
  · cases hv : (self.field g.field).option with
    | none => simp [ho, hv, hnone]
    | some v => simp [ho, hv, runMatch_variantArm]
  · simp [ho, runMatch_variantArm]

def groupsBuilt (self : Val) : List SpecGroup → Option Contribution
  | [] => some ⟨[], []⟩
  | g :: gs => do
    let c ← g.built self
    let cs ← groupsBuilt self gs
    return ⟨c.attrs ++ cs.attrs, c.children ++ cs.children⟩

theorem runBody_append (self : Val) (nested : List Node) (b : Building)
    (xs ys : List BuilderStatement) :
    runBody self nested b (xs ++ ys) =
      (runBody self nested b xs).bind fun b => runBody self nested b ys := by
  simp [runBody, List.foldlM_append]

theorem runBody_attrs (self : Val) (nested : List Node) (as : List GuardedAttr) :
    ∀ b : Building, runBody self nested b (as.map .attr) =
      some { b with attrs := b.attrs ++ Frame.writeAll ⟨self, self, self⟩ as } := by
  induction as with
  | nil => intro b; simp [runBody, Frame.writeAll]
  | cons a as ih =>
    intro b
    have hcons := ih { b with attrs := b.attrs ++ Frame.writeGuarded ⟨self, self, self⟩ a }
    simp only [runBody, List.map_cons, List.foldlM_cons, BuilderStatement.run] at hcons ⊢
    simpa [Frame.writeAll] using hcons

theorem runBody_groups (self : Val) (nested : List Node) (groups : List SpecGroup) :
    ∀ b : Building, runBody self nested b (emitVariantGroups groups) =
      (groupsBuilt self groups).map b.add := by
  induction groups with
  | nil => intro b; simp [runBody, emitVariantGroups, groupsBuilt, Building.add]
  | cons g gs ih =>
    intro b
    have hstep : runBody self nested b (emitVariantGroups (g :: gs)) =
        ((g.built self).map b.add).bind fun b =>
          runBody self nested b (emitVariantGroups gs) := by
      rw [← run_matchOn self nested g b]
      simp [runBody, emitVariantGroups]
    rw [hstep, groupsBuilt]
    cases hg : g.built self with
    | none => simp
    | some c =>
      cases hgs : groupsBuilt self gs with
      | none => simp [ih, hgs]
      | some cs => simp [ih, hgs, Building.add]

/-- The content that the statements at the end of a node leave. -/
def finalContent (self : Val) (bytes : Option BytesExpr) (accumulates : Bool)
    (noneNested : Bool) (nested contributed : List Node) : Option NodeContent :=
  let content := bytes.map (NodeContent.ofBytes self)
  if accumulates then
    if (nested ++ contributed).isEmpty then content else some (.nodes (nested ++ contributed))
  else if noneNested then content else some (.nodes nested)

theorem runBody_end (self : Val) (nested : List Node) (b : Building) (bytes : Option BytesExpr)
    (accumulates noneNested : Bool) (hb : b.content = none) :
    runBody self nested b (bytes.toList.map .bytes ++
        if accumulates then [.attach] else if noneNested then [] else [.children]) =
      some { b with
        content :=
          let content := bytes.map (NodeContent.ofBytes self)
          if accumulates then
            if b.kept.isEmpty then content else some (.nodes b.kept)
          else if noneNested then content else some (.nodes nested) } := by
  obtain ⟨as, _, kept⟩ := b
  obtain rfl : _ = none := hb
  cases bytes with
  | none =>
    cases accumulates with
    | true =>
      by_cases hk : kept = []
      · simp [runBody, BuilderStatement.run, hk]
      · simp [runBody, BuilderStatement.run, hk]
    | false =>
      cases noneNested with
      | true => simp [runBody]
      | false => simp [runBody, BuilderStatement.run]
  | some e =>
    cases accumulates with
    | true =>
      by_cases hk : kept = []
      · simp [runBody, BuilderStatement.run, hk]
      · simp [runBody, BuilderStatement.run, hk]
    | false =>
      cases noneNested with
      | true => simp [runBody, BuilderStatement.run]
      | false => simp [runBody, BuilderStatement.run]

/-- **The code of a node, run.**  Its own attributes come first, then those of the chosen
variants; the nodes built before it come before the variants' children. -/
theorem run_emitChildBuilder_node (tag : String) (repeats : Bool) (attrs : List SpecAttr)
    (groups : List SpecGroup) (content : Option (WapContent × String)) (children : List SpecNode)
    (self : Val) :
    (emitChildBuilder (.node tag repeats attrs groups content children)).run self = do
      let nested ← runNested (emitChildBuilders children) self
      let c ← groupsBuilt self groups
      let accumulates := hasVariantChildren groups ||
        (emitChildBuilders children).any (·.isList)
      return [.mk tag (attrs.flatMap (SpecAttr.built true .self ⟨self, self, self⟩) ++ c.attrs)
        (finalContent self (content.bind fun (c, field) => emitNodeContent c field) accumulates
          (emitChildBuilders children).isEmpty nested c.children)] := by
  simp only [emitChildBuilder, NodeCode.run]
  cases hn : runNested (emitChildBuilders children) self with
  | none => rfl
  | some nested =>
    simp only [List.append_assoc, Option.bind_eq_bind, Option.bind_some]
    rw [runBody_append, runBody_attrs, Option.bind_some, runBody_append, runBody_groups]
    cases hg : groupsBuilt self groups with
    | none => rfl
    | some c =>
      rw [Option.map_some, Option.bind_some, runBody_end _ _ _ _ _ _ rfl]
      simp only [Building.add, writeAll_emitAttr, List.nil_append, Option.bind_some, finalContent]
      cases hasVariantChildren groups || (emitChildBuilders children).any (·.isList) with
      | true => rfl
      | false => rfl

/-! ### Sites with all they need -/

/-- `WritableAttr`, of an attribute with its fields. -/
structure SpecAttr.Faithful (generated : Bool) (a : SpecAttr) : Prop where
  constant : a.attr.kind = .const → a.attr.value.isSome
  optional : a.attr.kind = .optional → a.attr.value = none
  generatedId : a.attr.kind = .generatedId → generated
  presence : a.attr.presenceArgPath.isSome → a.presence.isSome

structure SpecChild.Faithful (c : SpecChild) : Prop where
  required : c.presence = .required
  attrs : c.isOpaque = false → ∀ a ∈ c.attrs, a.Faithful true

structure SpecVariant.Faithful (v : SpecVariant) : Prop where
  attrs : ∀ a ∈ v.attrs, a.Faithful false
  children : ∀ c ∈ v.children, c.Faithful

def FaithfulContent (content : Option (WapContent × String)) (children : List SpecNode)
    (groups : List SpecGroup) : Prop :=
  ∀ c field, content = some (c, field) →
    hasBytes c ∧ children = [] ∧ ∀ g ∈ groups, ∀ v ∈ g.variants, v.children = []

mutual

def SpecNode.Faithful : SpecNode → Prop
  | .node _ repeats attrs groups content children =>
    repeats = false ∧ (∀ a ∈ attrs, a.Faithful true) ∧
      (∀ g ∈ groups, ∀ v ∈ g.variants, v.Faithful) ∧
      FaithfulContent content children groups ∧ FaithfulAmong children
  | .payloads _ _ => True
  | .flag _ body => body.Faithful
  | .owned _ _ _ body => body.Faithful

def FaithfulAmong : List SpecNode → Prop
  | [] => True
  | n :: ns => n.Faithful ∧ FaithfulAmong ns

end

/-! ### What is built is the instance -/

theorem wireValue_of_faithful {generated : Bool} {operand : String → Operand} {frame : Frame}
    {a : SpecAttr} {v : Val} (h : a.Faithful generated) (hv : frame.eval (operand a.field) = v) :
    WapAttrDef.wireValue a.attr v =
      some (((attrStatement generated (operand a.field) a.attr).map frame.write).getD []) := by
  unfold WapAttrDef.wireValue attrStatement
  cases hk : a.attr.kind with
  | const =>
    obtain ⟨value, hvalue⟩ := Option.isSome_iff_exists.mp (h.constant hk)
    simp [hvalue, Frame.write]
  | optional =>
    cases ho : v.option with
    | none => simp [Frame.write, hv, ho]
    | some x => simp [Frame.write, hv, ho, h.optional hk]
  | generatedId => simp [Frame.write, hv, h.generatedId hk]
  | string | dynamic | integer | userJid | deviceJid | groupJid => simp [Frame.write, hv]

theorem SpecAttr.Faithful.meaning_eq {generated : Bool} {a : SpecAttr} {v : Val}
    (h : a.Faithful generated) (operand : String → Operand) (frame : Frame)
    (hv : frame.eval (operand a.field) = v) :
    a.meaning frame.self v = some (a.built generated operand frame) := by
  have hwire := wireValue_of_faithful h hv
  unfold SpecAttr.meaning SpecAttr.built emitAttr
  cases hpath : a.attr.presenceArgPath with
  | none =>
    rw [hwire, Option.map_map]
    simp [a.presence_none hpath, Frame.writeGuarded, Function.comp_def]
  | some path =>
    obtain ⟨field, hfield⟩ := Option.isSome_iff_exists.mp (h.presence (by rw [hpath]; rfl))
    by_cases hsome : (frame.self.field field).option.isSome
    · simp [hfield, hsome, hwire, Frame.writeGuarded, Function.comp_def]
    · cases hs : attrStatement generated (operand a.field) a.attr with
      | none => simp [hfield, hsome]
      | some s => simp [hfield, hsome, Frame.writeGuarded]

theorem concatM_eq {α β : Type} {f : α → Option (List β)} {g : α → List β} {xs : List α}
    (h : ∀ x ∈ xs, f x = some (g x)) : concatM f xs = some (xs.flatMap g) := by
  induction xs with
  | nil => rfl
  | cons x xs ih =>
    rw [List.forall_mem_cons] at h
    simp [concatM, h.1, ih h.2]

theorem SpecChild.Faithful.meaning_eq {c : SpecChild} (h : c.Faithful) (self payload : Val) :
    c.meaning self payload = some (c.built self payload) := by
  unfold SpecChild.meaning SpecChild.built
  rw [if_neg (not_not.mpr h.required)]
  by_cases ho : c.isOpaque
  · simp [ho]
  · have hitem : ∀ item : Val,
        concatM (fun a => a.meaning self (item.field a.field)) c.attrs =
          some (c.attrs.flatMap (SpecAttr.built true .item ⟨self, payload, item⟩)) := fun item =>
      concatM_eq fun a ha =>
        (h.attrs (by simpa using ho) a ha).meaning_eq .item ⟨self, payload, item⟩ rfl
    rw [if_neg ho, if_neg ho]
    refine (concatM_eq (g := fun item => [Node.mk c.tag
      (c.attrs.flatMap (SpecAttr.built true .item ⟨self, payload, item⟩)) none])
      fun item _ => ?_).trans ?_
    · rw [hitem]
      rfl
    · rw [List.map_eq_flatMap]

theorem SpecVariant.Faithful.meaning_eq {v : SpecVariant} (h : v.Faithful) (self payload : Val) :
    v.meaning self payload = some (v.built self payload) := by
  have hattrs := concatM_eq (f := fun a => a.meaning self (payload.field a.field))
    fun a ha => (h.attrs a ha).meaning_eq .bound ⟨self, payload, payload⟩ rfl
  have hchildren := concatM_eq fun c hc => (h.children c hc).meaning_eq self payload
  simp [SpecVariant.meaning, SpecVariant.built, hattrs, hchildren]

theorem SpecGroup.meaning_eq {g : SpecGroup} (h : ∀ v ∈ g.variants, v.Faithful)
    (self : Val) : g.meaning self = g.built self := by
  unfold SpecGroup.meaning SpecGroup.built
  cases g.choice self with
  | none => rfl
  | some v =>
    cases hc : g.chosen v with
    | none => simp [hc]
    | some x => simp [hc, (h x (List.mem_of_find?_eq_some hc)).meaning_eq]

theorem groupMeaning_eq {groups : List SpecGroup}
    (h : ∀ g ∈ groups, ∀ v ∈ g.variants, v.Faithful) (self : Val) :
    groupMeaning self groups = groupsBuilt self groups := by
  induction groups with
  | nil => rfl
  | cons g gs ih =>
    rw [List.forall_mem_cons] at h
    rw [groupMeaning, groupsBuilt, SpecGroup.meaning_eq h.1, ih h.2]

/-- A group whose value is one of its variants contributes something. -/
theorem groupsBuilt_isSome {groups : List SpecGroup} {self : Val}
    (h : ∀ g ∈ groups, g.Chooses self) : ∃ c, groupsBuilt self groups = some c := by
  induction groups with
  | nil => exact ⟨_, rfl⟩
  | cons g gs ih =>
    rw [List.forall_mem_cons] at h
    obtain ⟨cs, hcs⟩ := ih h.2
    have hg : ∃ c, g.built self = some c := by
      unfold SpecGroup.built
      cases hv : g.choice self with
      | none => exact ⟨_, rfl⟩
      | some v =>
        obtain ⟨x, hx⟩ := Option.isSome_iff_exists.mp (h.1 v hv)
        exact ⟨x.built self v, by simp [hx]⟩
    obtain ⟨c, hc⟩ := hg
    exact ⟨⟨c.attrs ++ cs.attrs, c.children ++ cs.children⟩, by simp [groupsBuilt, hc, hcs]⟩

/-- Groups whose variants have no children contribute attributes only. -/
theorem groupsBuilt_children : ∀ {groups : List SpecGroup} {self : Val} {c : Contribution},
    groupsBuilt self groups = some c → hasVariantChildren groups = false → c.children = []
  | [], _, _, hc, _ => by
    cases hc
    rfl
  | g :: gs, self, c, hc, hempty => by
    simp only [groupsBuilt, Option.bind_eq_bind, Option.bind_eq_some_iff] at hc
    obtain ⟨c₁, hc₁, c₂, hc₂, heq⟩ := hc
    cases heq
    simp only [hasVariantChildren, List.any_cons, Bool.or_eq_false_iff] at hempty
    have hvariants : ∀ v ∈ g.variants, v.children = [] := by simpa using hempty.1
    have hfirst : c₁.children = [] := by
      unfold SpecGroup.built at hc₁
      cases hv : g.choice self with
      | none => rw [hv] at hc₁; cases hc₁; rfl
      | some v =>
        cases hx : g.chosen v with
        | none => simp [hv, hx] at hc₁
        | some x =>
          simp only [hv, hx, Option.map_some, Option.some.injEq] at hc₁
          simp [← hc₁, SpecVariant.built, hvariants x (List.mem_of_find?_eq_some hx)]
    rw [hfirst, groupsBuilt_children hc₂ hempty.2, List.append_nil]

theorem contentBytes_of_hasBytes {c : WapContent} (h : hasBytes c) (self : Val) (field : String) :
    ∃ b e, contentBytes self c field = some b ∧ emitNodeContent c field = some e ∧
      NodeContent.ofBytes self e = .bytes b := by
  unfold contentBytes emitNodeContent
  unfold hasBytes at h
  cases hc : c.constBytes with
  | some hex =>
    rw [hc] at h
    obtain ⟨b, hb⟩ := Option.isSome_iff_exists.mp h
    exact ⟨b, .literal b, hb, by simp [hb], rfl⟩
  | none =>
    rw [hc] at h
    cases hk : c.kind with
    | bytes => exact ⟨_, .self field, rfl, rfl, rfl⟩
    | dynamic => exact ⟨_, .self field, rfl, rfl, rfl⟩
    | const =>
      obtain ⟨value, hvalue⟩ := Option.isSome_iff_exists.mp (show c.value.isSome by simpa [hk] using h)
      exact ⟨_, .literal (utf8 value), by simp [hvalue], by simp [hvalue], rfl⟩

/-- A code that is no list builds one node. -/
theorem runNested_ne_nil {codes : List NodeCode} {self : Val} {nodes : List Node}
    (h : runNested codes self = some nodes) (hlist : codes.any (·.isList) = false)
    (hne : codes ≠ []) : nodes ≠ [] := by
  cases codes with
  | nil => exact absurd rfl hne
  | cons code codes =>
    rw [List.any_cons, Bool.or_eq_false_iff] at hlist
    cases code with
    | node tag nested accumulates body =>
      simp only [runNested, NodeCode.run, Option.bind_eq_bind, Option.bind_eq_some_iff] at h
      obtain ⟨ns, ⟨_, _, b, _, hb⟩, rest, _, hnodes⟩ := h
      cases hb
      cases hnodes
      simp
    | payloads tag field => cases hlist.1
    | flag field body => cases hlist.1
    | owned field optional repeats body => cases hlist.1

theorem emitChildBuilders_eq_nil {ns : List SpecNode} : emitChildBuilders ns = [] ↔ ns = [] := by
  cases ns with
  | nil => simp [emitChildBuilders]
  | cons n ns => simp [emitChildBuilders]

/-- Without a content, the statements at the end leave the children. -/
theorem finalContent_none (self : Val) {codes : List NodeCode} {groups : List SpecGroup}
    {nested contributed : List Node} (hn : runNested codes self = some nested)
    (hc : hasVariantChildren groups = false → contributed = []) :
    nodeContent none (nested ++ contributed) =
      some (finalContent self none (hasVariantChildren groups || codes.any (·.isList))
        codes.isEmpty nested contributed) := by
  have hchildren : ∀ ns : List Node,
      nodeContent none ns = some (if ns.isEmpty then none else some (.nodes ns)) := by
    intro ns
    cases ns <;> rfl
  rw [hchildren, finalContent]
  cases hv : hasVariantChildren groups with
  | true => rfl
  | false =>
    rw [hc hv, List.append_nil, Bool.false_or]
    cases hl : codes.any (·.isList) with
    | true => rfl
    | false =>
      by_cases he : codes = []
      · subst he
        cases hn
        rfl
      · have hne : nested ≠ [] := runNested_ne_nil hn hl he
        simp [he, hne]

mutual

/-- **What is built is what the request means**, where every site has what it needs. -/
theorem run_eq_meaning : ∀ (n : SpecNode) (self : Val), n.Faithful → n.Chooses self →
    ∃ nodes, (emitChildBuilder n).run self = some nodes ∧ n.meaning self = some nodes
  | .node tag repeats attrs groups content children, self, hf, hch => by
    obtain ⟨hrepeats, hattrs, hgroups, hcontent, hchildren⟩ := hf
    obtain ⟨nested, hrun, hmeaning⟩ := runNested_eq_meaning children self hchildren hch.2
    obtain ⟨c, hc⟩ := groupsBuilt_isSome hch.1
    have hcnone := groupsBuilt_children hc
    have hown := concatM_eq (f := fun a : SpecAttr => a.meaning self (self.field a.field))
      fun a ha => (hattrs a ha).meaning_eq .self ⟨self, self, self⟩ rfl
    rw [run_emitChildBuilder_node]
    simp only [SpecNode.meaning, hrepeats, hrun, hmeaning, hown, groupMeaning_eq hgroups, hc]
    cases content with
    | none =>
      refine ⟨_, rfl, ?_⟩
      have hfinal := finalContent_none self hrun hcnone
      simp [contentMeaning, hfinal]
    | some content =>
      obtain ⟨content, field⟩ := content
      obtain ⟨hbytes, hnone, hempty⟩ := hcontent content field rfl
      obtain ⟨b, e, hb, he, hbe⟩ := contentBytes_of_hasBytes hbytes self field
      have hnochildren : hasVariantChildren groups = false := by
        simpa [hasVariantChildren] using hempty
      subst hnone
      cases hrun
      refine ⟨_, rfl, ?_⟩
      simp [hb, he, hbe, hcnone hnochildren, hnochildren, nodeContent, finalContent,
        contentMeaning, emitChildBuilders]
  | .payloads tag field, self, _, _ => ⟨_, rfl, rfl⟩
  | .flag field body, self, hf, hch => by
    simp only [emitChildBuilder, NodeCode.run, SpecNode.meaning]
    by_cases hflag : (self.field field).flag
    · simpa [hflag] using run_eq_meaning body self hf hch
    · exact ⟨[], by simp [hflag], by simp [hflag]⟩
  | .owned field optional repeats body, self, hf, hch => by
    simp only [emitChildBuilder, NodeCode.run, SpecNode.meaning]
    have hlist : ∀ items : List Val, (∀ item ∈ items, body.Chooses item) →
        ∃ nodes, items.mapM (emitChildBuilder body).run = some nodes ∧
          items.mapM body.meaning = some nodes := by
      intro items
      induction items with
      | nil => intro _; exact ⟨[], rfl, rfl⟩
      | cons item items ih =>
        intro h
        rw [List.forall_mem_cons] at h
        obtain ⟨x, hx, hx'⟩ := run_eq_meaning body item hf h.1
        obtain ⟨xs, hxs, hxs'⟩ := ih h.2
        exact ⟨x :: xs, by simp [hx, hxs], by simp [hx', hxs']⟩
    obtain ⟨nodes, hnodes, hnodes'⟩ := hlist _ hch
    exact ⟨nodes.flatten, by simp [hnodes], by simp [hnodes']⟩

theorem runNested_eq_meaning : ∀ (ns : List SpecNode) (self : Val), FaithfulAmong ns →
    ChoosesAmong ns self →
    ∃ nodes, runNested (emitChildBuilders ns) self = some nodes ∧ meaningAmong ns self = some nodes
  | [], _, _, _ => ⟨[], rfl, rfl⟩
  | n :: ns, self, hf, hch => by
    obtain ⟨x, hx, hx'⟩ := run_eq_meaning n self hf.1 hch.1
    obtain ⟨xs, hxs, hxs'⟩ := runNested_eq_meaning ns self hf.2 hch.2
    exact ⟨x ++ xs, by simp [emitChildBuilders, runNested, hx, hxs],
      by simp [meaningAmong, hx', hxs']⟩

end

end Whatspec.Codegen

import Mathlib.Data.List.Forall2
import Whatspec.Codegen.LeafGuards

/-!
# What a selected variant guarantees

A variant of a union of values is selected only where every assertion of its alternative holds and
every leaf is enforced, for the three shapes of such unions.

* `ValueShape.Covered` is when the check of an alternative covers what it declares;
* `mem_attrArms` and `mem_contentArms` say which alternative an arm stands for;
* the main result is for every union, every node and every way of reading nodes.
-/

namespace Whatspec.Codegen

/-! ### Unions -/

section Union

variable {ν J : Type} (nodes : ValueReader ν J) (flavored : ParsedFieldType → J → Bool)
  (elsewhere : ResponseAssertion → ν → Prop)

/-- What an assertion says of a node.  Echoes of the request and checks on the server are decided
elsewhere. -/
def ResponseAssertion.HoldsAt (node : ν) (a : ResponseAssertion) : Prop :=
  match a.kind with
  | .tag => ∀ tag, a.name = some tag → nodes.tag node = tag
  | .attr => ∀ name, a.name = some name →
      (nodes.getAttr node name).isSome = true ∧
        ∀ value, a.value = some value → nodes.getAttr node name = some value
  | .content => ∀ value, a.value = some value → nodes.contentStr node = some value
  | .child => ∀ tag, a.name = some tag → (nodes.optionalChild node tag).isSome = true
  | .reference | .fromServer => elsewhere a node

/-- Everything that a selected variant promises of the node it is read off. -/
def Selection.Enforces (s : Selection J) (node : ν) (v : UnionVariant) : Prop :=
  s.variant = v.name ∧
    List.Forall₂ (fun f (m : String × Stored J) => m.1 = f.name ∧ f.Enforced nodes flavored node m.2)
      v.fields s.payload ∧
    ∀ a ∈ v.assertions, a.HoldsAt nodes elsewhere node

/-- The node that a shape reads off. -/
def ValueShape.node (node : ν) : ValueShape → Option ν
  | .content descend _ _ => descendOpt nodes.toNodeReader node descend
  | .attrDiscriminated _ _ | .sameNode _ => some node

/-- The leaves are covered, and none of them is pinned against an assertion. -/
def UnionVariant.LeavesCovered (node : ν) (v : UnionVariant) : Prop :=
  ∀ f ∈ v.fields, f.Covered nodes flavored node ∧
    (constrainsMore f = false → ∀ lit, f.literalValue = some lit → ∀ a ∈ v.assertions,
      a.kind = .attr → a.name = some f.wire → a.value = none ∨ a.value = some lit)

/-- The text of the content decides all that an alternative asserts: its tag is the one that was
descended to, its contents are one and not empty, and only a fallback asserts anything else. -/
def UnionVariant.AssertionsCovered (descend : List String) (node : ν) (v : UnionVariant) : Prop :=
  (∀ a ∈ v.assertions, match a.kind with
    | .tag => ∀ tag, a.name = some tag → descend.getLast? = some tag
    | .content => ∀ value, a.value = some value → contentAssert v.assertions = some value
    | .attr | .child => contentAssert v.assertions = none
    | .reference | .fromServer => False) ∧
  (contentAssert v.assertions = some "" → (nodes.contentStr node).isSome = true)

def ValueShape.Covered (variants : List UnionVariant) (node : ν) : ValueShape → Prop
  | .content descend _ _ => ∀ place, descendOpt nodes.toNodeReader node descend = some place →
      ∀ v ∈ variants, v.LeavesCovered nodes flavored place ∧ v.AssertionsCovered nodes descend place
  | .attrDiscriminated _ _ => ∀ v ∈ variants, ∀ f ∈ v.fields, f.Covered nodes flavored node
  | .sameNode _ => ∀ v ∈ variants, v.LeavesCovered nodes flavored node

variable {nodes flavored elsewhere} {node : ν}

/-- The members of a payload are enforced when their leaves are. -/
theorem payload_enforced {variant : String} {fields : List ParsedField}
    (h : ∀ f ∈ fields, (∃ raw v, f.raw nodes node = some raw ∧ f.Accepts nodes flavored raw v) ∨
      (f.raw nodes node = none ∧ f.parserRequired = false))
    (hcovered : ∀ f ∈ fields, f.Covered nodes flavored node) :
    List.Forall₂
      (fun f (m : String × Stored J) => m.1 = f.name ∧ f.Enforced nodes flavored node m.2)
      fields (valuePayload nodes node variant fields).payload := by
  rw [valuePayload, List.forall₂_map_right_iff, List.forall₂_same]
  exact fun f hf => ⟨rfl, enforced_of_accepts (hcovered f hf) (h f hf)⟩

theorem reads_of_isSimpleLeaf {f : ParsedField} (h : isSimpleLeaf f = true) :
    (isAttrMethod f.method || isContentMethod f.method) = true := by
  simp only [isSimpleLeaf, isAttrField, Bool.and_eq_true, Bool.or_eq_true, decide_eq_true_eq,
    ne_eq] at h
  obtain ⟨⟨-, hattr⟩, hnot⟩ := h
  rw [Bool.or_eq_true]
  exact hattr.resolve_right fun heq => by simp_all

/-- The guard of an alternative holds of each of its leaves that is tested. -/
theorem guard_of_tests {fields : List ParsedField} {tested : ParsedField → Bool}
    (h : ((fields.filter tested).filterMap leafGuard).all (·.holds nodes node) = true)
    {f : ParsedField} (hf : f ∈ fields) (htested : tested f = true) :
    (leafGuard f).all (·.holds nodes node) = true := by
  cases hguard : leafGuard f with
  | none => rfl
  | some test =>
    exact List.all_eq_true.mp h test
      (List.mem_filterMap.mpr ⟨f, List.mem_filter.mpr ⟨hf, htested⟩, hguard⟩)

/-- **The guard of a same-node alternative** covers its leaves, its attributes and its children. -/
theorem enforced_of_sameNodeGuard {v : UnionVariant} (hsimple : v.fields.all isSimpleLeaf = true)
    (hcovered : v.LeavesCovered nodes flavored node)
    (hguard : sameNodeGuard nodes node ⟨v.name, v.fields, v.assertions⟩ = true) :
    (List.Forall₂
      (fun f (m : String × Stored J) => m.1 = f.name ∧ f.Enforced nodes flavored node m.2)
      v.fields (valuePayload nodes node v.name v.fields).payload) ∧
    ∀ a ∈ v.assertions, a.kind = .attr ∨ a.kind = .child → a.HoldsAt nodes elsewhere node := by
  obtain ⟨hconditions, htests⟩ := Bool.and_eq_true_iff.mp hguard
  have hcondition : ∀ a ∈ v.assertions, ∀ c, sameNodeCondition a = some c →
      c.holds nodes.toNodeReader node = true := fun a ha c hc =>
    List.all_eq_true.mp hconditions c (List.mem_filterMap.mpr ⟨a, ha, hc⟩)
  have hassertions : ∀ a ∈ v.assertions, a.kind = .attr ∨ a.kind = .child →
      a.HoldsAt nodes elsewhere node := by
    intro a ha hkind
    have hc := hcondition a ha
    obtain hkind | hkind := hkind
    · simp only [ResponseAssertion.HoldsAt, hkind]
      intro name hname
      cases hvalue : a.value with
      | none =>
        have hhas := hc (.hasAttr name) (by simp only [sameNodeCondition, hkind, hname, hvalue]; rfl)
        exact ⟨hhas, nofun⟩
      | some value =>
        have his := hc (.attrIs name value)
          (by simp only [sameNodeCondition, hkind, hname, hvalue]; rfl)
        have heq : nodes.getAttr node name = some value := of_decide_eq_true his
        refine ⟨by rw [heq]; rfl, ?_⟩
        rintro _ ⟨⟩
        exact heq
    · simp only [ResponseAssertion.HoldsAt, hkind]
      intro tag htag
      exact hc (.hasChild tag) (by simp only [sameNodeCondition, hkind, htag]; rfl)
  refine ⟨payload_enforced (fun f hf => ?_) fun f hf => (hcovered f hf).1, hassertions⟩
  have hreads := reads_of_isSimpleLeaf (List.all_eq_true.mp hsimple f hf)
  by_cases htested : (isContentMethod f.method || (f.wire ∉
      (ValueArm.pinned ⟨v.name, v.fields, v.assertions⟩) || constrainsMore f)) = true
  · exact accepts_of_guard (hcovered f hf).1
      (guard_of_tests htests hf (by rw [hreads, Bool.true_and]; simpa [Bool.or_assoc] using htested))
  · -- A plain attribute that an assertion pins.
    simp only [Bool.or_eq_true, not_or, Bool.not_eq_true, decide_eq_true_eq, not_not] at htested
    obtain ⟨hattr, hpinned, hless⟩ := htested
    obtain ⟨a, ha, hname⟩ := List.mem_filterMap.mp hpinned
    split_ifs at hname with hvalued
    obtain ⟨hkind, hvalued⟩ := hvalued
    obtain ⟨value, hvalue⟩ := Option.isSome_iff_exists.mp hvalued
    have hholds := hassertions a ha (.inl hkind)
    simp only [ResponseAssertion.HoldsAt, hkind] at hholds
    refine .inl (accepts_of_assertion (hcovered f hf).1 hattr hless (fun lit hlit => ?_)
      ((hholds _ hname).2 value hvalue))
    obtain hnone | hsome := (hcovered f hf).2 hless lit hlit a ha hkind hname
    · rw [hnone] at hvalue
      cases hvalue
    · exact Option.some.inj (hvalue.symm.trans hsome)

/-- What the assertions of an alternative of an attribute are: the pin, and required children. -/
theorem mem_of_attrPin {assertions : List ResponseAssertion} {pin : Option (String × String)}
    {children cs : List String} {p : String × String}
    (h : attrPin assertions pin children = some (p, cs)) :
    (∀ q, pin = some q → q = p) ∧ (∀ tag ∈ children, tag ∈ cs) ∧ ∀ a ∈ assertions,
      (a.kind = .attr ∧ a.name = some p.1 ∧ a.value = some p.2) ∨
        (a.kind = .child ∧ ∃ tag ∈ cs, a.name = some tag) := by
  induction assertions generalizing pin children with
  | nil =>
    obtain ⟨q, rfl, heq⟩ := Option.map_eq_some_iff.mp h
    obtain ⟨rfl, rfl⟩ := Prod.mk.inj heq
    exact ⟨fun _ hq => (Option.some.inj hq).symm, fun _ h => h, nofun⟩
  | cons a assertions ih =>
    unfold attrPin at h
    cases hkind : a.kind with
    | attr =>
      simp only [hkind] at h
      cases hname : a.name with
      | none => simp only [hname, reduceCtorEq] at h
      | some name =>
        cases hvalue : a.value with
        | none => simp only [hname, hvalue, reduceCtorEq] at h
        | some value =>
          cases pin with
          | some q => simp only [hname, hvalue, reduceCtorEq] at h
          | none =>
            simp only [hname, hvalue] at h
            obtain ⟨hpin, hchildren, hrest⟩ := ih h
            refine ⟨nofun, hchildren, List.forall_mem_cons.mpr ⟨.inl ?_, hrest⟩⟩
            rw [← hpin _ rfl]
            exact ⟨hkind, hname, hvalue⟩
    | child =>
      simp only [hkind] at h
      cases hname : a.name with
      | none => simp only [hname, reduceCtorEq] at h
      | some tag =>
        simp only [hname] at h
        obtain ⟨hpin, hchildren, hrest⟩ := ih h
        refine ⟨hpin, fun t ht => hchildren t (List.mem_append_left _ ht),
          List.forall_mem_cons.mpr ⟨.inr ⟨hkind, tag, hchildren tag ?_, hname⟩, hrest⟩⟩
        exact List.mem_append_right _ List.mem_cons_self
    | _ => simp only [hkind, reduceCtorEq] at h

/-- An alternative of an attribute, and the variant that it stands for. -/
def AttrArm.Of (attr : String) (v : UnionVariant) (a : AttrArm) : Prop :=
  a.variant = v.name ∧ a.fields = v.fields ∧ v.fields.all isSimpleLeaf = true ∧
    attrPin v.assertions none [] = some ((attr, a.value), a.children)

theorem mem_attrArms {variants : List UnionVariant} {attr₀ : Option String} {arms₀ : List AttrArm}
    {attr : String} {arms : List AttrArm} (h : attrArms variants attr₀ arms₀ = some (attr, arms)) :
    (∀ x, attr₀ = some x → x = attr) ∧
      ∀ a ∈ arms, a ∈ arms₀ ∨ ∃ v ∈ variants, a.Of attr v := by
  induction variants generalizing attr₀ arms₀ with
  | nil =>
    obtain ⟨x, rfl, heq⟩ := Option.map_eq_some_iff.mp h
    obtain ⟨rfl, rfl⟩ := Prod.mk.inj heq
    exact ⟨fun _ hx => (Option.some.inj hx).symm, fun _ ha => .inl ha⟩
  | cons v variants ih =>
    rw [attrArms] at h
    split_ifs at h with hgate
    simp only [Bool.or_eq_true, not_or, Bool.not_eq_true, Bool.not_eq_false'] at hgate
    cases hpin : attrPin v.assertions none [] with
    | none => simp only [hpin, reduceCtorEq] at h
    | some found =>
      obtain ⟨⟨name, value⟩, children⟩ := found
      simp only [hpin] at h
      split_ifs at h with hclash
      obtain ⟨hattr, hrest⟩ := ih h
      obtain rfl := hattr name rfl
      refine ⟨?_, fun a ha => ?_⟩
      · rintro x rfl
        simp only [Option.any_some, Bool.or_eq_true, not_or, decide_eq_true_eq, not_not] at hclash
        exact hclash.1.1
      · obtain ha | ⟨w, hw, hof⟩ := hrest a ha
        · obtain ha | ha := List.mem_append.mp ha
          · exact .inl ha
          · obtain rfl := List.mem_singleton.mp ha
            exact .inr ⟨v, List.mem_cons_self, rfl, rfl, hgate.1.2, hpin⟩
        · exact .inr ⟨w, List.mem_cons_of_mem _ hw, hof⟩

/-- A leaf that is not tested has nothing to test. -/
theorem leafGuard_of_untested {f : ParsedField}
    (h : (f.parserRequired || (enumValues f).isSome || isTyped f || f.literalValue.isSome) = false) :
    leafGuard f = none := by
  simp only [Bool.or_eq_false_iff, Option.isSome_eq_false_iff, Option.isNone_iff_eq_none] at h
  obtain ⟨⟨⟨hrequired, hvalues⟩, htyped⟩, hpin⟩ := h
  have hattr : isContentMethod f.method = false := by
    rw [isTyped, Bool.or_eq_false_iff] at htyped
    exact htyped.2
  have hband : intBand f = none := by
    rw [isTyped, Bool.or_eq_false_iff, Bool.or_eq_false_iff] at htyped
    rw [intBand, if_pos (of_decide_eq_false htyped.1.1)]
  simp only [leafGuard, hvalues, hattr, attrGuard, hpin, htyped, hband, hrequired]
  rfl

/-- **Alternatives of an attribute** enforce what the variant says. -/
theorem enforces_of_attrArm {attr : String} {v : UnionVariant} {arm : AttrArm}
    (hof : arm.Of attr v) (hcovered : ∀ f ∈ v.fields, f.Covered nodes flavored node)
    (hvalue : nodes.getAttr node attr = some arm.value)
    (htests : arm.tests.all (·.holds nodes node) = true)
    (hchildren : (arm.children.all fun tag => (nodes.optionalChild node tag).isSome) = true) :
    (valuePayload nodes node arm.variant arm.fields).Enforces nodes flavored elsewhere node v := by
  obtain ⟨variant, value, children, fields⟩ := arm
  obtain ⟨rfl, rfl, hsimple, hpin⟩ := hof
  refine ⟨rfl, payload_enforced (fun f hf => ?_) hcovered, fun a ha => ?_⟩
  · refine accepts_of_guard (hcovered f hf) ?_
    have hreads := reads_of_isSimpleLeaf (List.all_eq_true.mp hsimple f hf)
    by_cases htested : (f.parserRequired || (enumValues f).isSome || isTyped f ||
        f.literalValue.isSome) = true
    · exact guard_of_tests htests hf (by rw [hreads, Bool.true_and]; exact htested)
    · rw [leafGuard_of_untested (Bool.not_eq_true _ ▸ htested)]
      rfl
  · obtain ⟨-, -, hassertions⟩ := mem_of_attrPin hpin
    obtain ⟨hkind, hname, hpinned⟩ | ⟨hkind, tag, htag, hname⟩ := hassertions a ha
    · simp only [ResponseAssertion.HoldsAt, hkind]
      intro name hthis
      obtain rfl := Option.some.inj (hname.symm.trans hthis)
      refine ⟨by rw [hvalue]; rfl, fun value' hthis => ?_⟩
      obtain rfl := Option.some.inj (hpinned.symm.trans hthis)
      exact hvalue
    · simp only [ResponseAssertion.HoldsAt, hkind]
      intro tag' hthis
      obtain rfl := Option.some.inj (hname.symm.trans hthis)
      exact List.all_eq_true.mp hchildren tag htag

theorem mem_contentArms {variants : List UnionVariant} {arms₀ arms : List ContentArm}
    {fallback₀ fallback : Option ValueArm}
    (h : contentArms variants arms₀ fallback₀ = some (arms, fallback)) :
    (∀ a ∈ arms, a ∈ arms₀ ∨ ∃ v ∈ variants,
      a.variant = v.name ∧ v.fields = [] ∧ contentAssert v.assertions = some a.content) ∧
    ∀ a, fallback = some a → fallback₀ = some a ∨ ∃ v ∈ variants,
      a = ⟨v.name, v.fields, v.assertions⟩ ∧ v.fields.all isSimpleLeaf = true ∧
        contentAssert v.assertions = none := by
  induction variants generalizing arms₀ fallback₀ with
  | nil =>
    obtain ⟨rfl, rfl⟩ := Prod.mk.inj (Option.some.inj h)
    exact ⟨fun _ ha => .inl ha, fun _ ha => .inl ha⟩
  | cons v variants ih =>
    rw [contentArms] at h
    cases hcontent : contentAssert v.assertions with
    | some c =>
      simp only [hcontent] at h
      split_ifs at h with hgate
      simp only [Bool.or_eq_true, not_or, Bool.not_eq_true, Bool.not_eq_false',
        List.isEmpty_iff] at hgate
      obtain ⟨harms, hfallback⟩ := ih h
      refine ⟨fun a ha => ?_, fun a ha => ?_⟩
      · obtain ha | ⟨w, hw, hof⟩ := harms a ha
        · obtain ha | ha := List.mem_append.mp ha
          · exact .inl ha
          · obtain rfl := List.mem_singleton.mp ha
            exact .inr ⟨v, List.mem_cons_self, rfl, hgate.1, hcontent⟩
        · exact .inr ⟨w, List.mem_cons_of_mem _ hw, hof⟩
      · exact (hfallback a ha).imp_right fun ⟨w, hw, hof⟩ => ⟨w, List.mem_cons_of_mem _ hw, hof⟩
    | none =>
      simp only [hcontent] at h
      split_ifs at h with hgate
      simp only [Bool.or_eq_true, not_or, Bool.not_eq_true, Bool.not_eq_false'] at hgate
      obtain ⟨harms, hfallback⟩ := ih h
      refine ⟨fun a ha => ?_, fun a ha => ?_⟩
      · exact (harms a ha).imp_right fun ⟨w, hw, hof⟩ => ⟨w, List.mem_cons_of_mem _ hw, hof⟩
      · obtain ha | ⟨w, hw, hof⟩ := hfallback a ha
        · obtain rfl := Option.some.inj ha
          exact .inr ⟨v, List.mem_cons_self, rfl, hgate.2, hcontent⟩
        · exact .inr ⟨w, List.mem_cons_of_mem _ hw, hof⟩

/-- The node that tags lead down to has the last of them. -/
theorem tag_of_descendOpt (htag : ∀ n tag c, nodes.optionalChild n tag = some c → nodes.tag c = tag)
    {descend : List String} {place : ν} {tag : String}
    (h : descendOpt nodes.toNodeReader node descend = some place)
    (hlast : descend.getLast? = some tag) : nodes.tag place = tag := by
  induction descend generalizing node with
  | nil => cases hlast
  | cons t descend ih =>
    obtain ⟨n, hn, hrest⟩ := Option.bind_eq_some_iff.mp h
    cases descend with
    | nil =>
      obtain rfl := Option.some.inj hrest
      obtain rfl := Option.some.inj hlast
      exact htag _ _ _ hn
    | cons t' descend => exact ih hrest hlast

/-- **A content** selects a variant whose assertions hold. -/
theorem enforces_of_readContent
    (htag : ∀ n tag c, nodes.optionalChild n tag = some c → nodes.tag c = tag)
    {variants : List UnionVariant} {descend : List String} {arms : List ContentArm}
    {fallback : Option ValueArm} (harms : contentArms variants [] none = some (arms, fallback))
    (hcovered : (ValueShape.content descend arms fallback).Covered nodes flavored variants node)
    {s : Selection J} (hread : readContent nodes descend arms fallback node = some s) :
    ∃ place, descendOpt nodes.toNodeReader node descend = some place ∧
      ∃ v ∈ variants, s.Enforces nodes flavored elsewhere place v := by
  obtain ⟨hpinned, hleft⟩ := mem_contentArms harms
  obtain ⟨place, hplace, hread⟩ := Option.bind_eq_some_iff.mp hread
  refine ⟨place, hplace, ?_⟩
  cases hfound : arms.find? fun arm => arm.content = (nodes.contentStr place).getD "" with
  | some arm =>
    simp only [hfound, Option.some.injEq] at hread
    obtain ⟨v, hv, hname, hfields, hcontent⟩ :=
      (hpinned arm (List.mem_of_find?_eq_some hfound)).resolve_left List.not_mem_nil
    have htext : nodes.contentStr place = some arm.content := by
      have heq : arm.content = (nodes.contentStr place).getD "" :=
        of_decide_eq_true (List.find?_some hfound :)
      cases hstr : nodes.contentStr place with
      | some text => rw [heq, hstr, Option.getD_some]
      | none =>
        rw [hstr, Option.getD_none] at heq
        have hthere := (hcovered place hplace v hv).2.2 (heq ▸ hcontent)
        rw [hstr] at hthere
        cases hthere
    refine ⟨v, hv, hread ▸ hname, ?_, fun a ha => ?_⟩
    · rw [← hread, hfields]
      exact .nil
    · have hkept := (hcovered place hplace v hv).2.1 a ha
      cases hkind : a.kind <;> simp only [hkind, ResponseAssertion.HoldsAt] at hkept ⊢
      · exact fun tag hthis => tag_of_descendOpt htag hplace (hkept tag hthis)
      · rw [hcontent] at hkept
        cases hkept
      · intro value hvalue
        rw [htext, ← hcontent, hkept value hvalue]
      · rw [hcontent] at hkept
        cases hkept
  | none =>
    simp only [hfound] at hread
    obtain ⟨arm, harm, hread⟩ := Option.bind_eq_some_iff.mp hread
    split_ifs at hread with hguard
    obtain ⟨v, hv, rfl, hsimple, hcontent⟩ := (hleft arm harm).resolve_left nofun
    obtain ⟨hleaves, hassertions⟩ := hcovered place hplace v hv
    obtain ⟨hpayload, hholds⟩ := enforced_of_sameNodeGuard hsimple hleaves hguard
    obtain rfl := Option.some.inj hread
    refine ⟨v, hv, rfl, hpayload, fun a ha => ?_⟩
    have hkept := hassertions.1 a ha
    cases hkind : a.kind with
    | attr => exact hholds a ha (.inl hkind)
    | child => exact hholds a ha (.inr hkind)
    | tag =>
      simp only [hkind, ResponseAssertion.HoldsAt] at hkept ⊢
      exact fun tag hthis => tag_of_descendOpt htag hplace (hkept tag hthis)
    | content =>
      simp only [hkind, ResponseAssertion.HoldsAt] at hkept ⊢
      intro value hvalue
      have hthis := hkept value hvalue
      rw [hcontent] at hthis
      cases hthis
    | reference => simp only [hkind] at hkept
    | fromServer => simp only [hkind] at hkept

/-- The shapes are tried in order. -/
theorem classifyValueUnion_some {f : ParsedField} {variants : List UnionVariant}
    (hvariants : f.unionVariants = some variants) {shape : ValueShape}
    (h : classifyValueUnion f = some shape) :
    classifyContent f variants = some shape ∨ classifyAttrDiscriminated f variants = some shape ∨
      classifySameNode f variants = some shape := by
  rw [classifyValueUnion, hvariants] at h
  split_ifs at h
  simp only [Option.bind_eq_bind, Option.bind_some] at h
  split_ifs at h
  cases hcontent : classifyContent f variants with
  | some _ => exact .inl (by rwa [hcontent] at h)
  | none =>
    cases hattr : classifyAttrDiscriminated f variants with
    | some _ => exact .inr (.inl (by rwa [hcontent, hattr] at h))
    | none => exact .inr (.inr (by rwa [hcontent, hattr] at h))

end Union

/-! ### Two unions -/

/-- A node without content. -/
structure Element where
  tag : String
  attrs : List (String × String)
  children : List Element

def elementReader : ValueReader Element String where
  tag := Element.tag
  getAttr node name := node.attrs.lookup name
  contentStr _ := none
  contentBytes _ := none
  childrenByTag node tag := node.children.filter fun c => c.tag = tag
  optionalChild node tag := node.children.find? fun c => c.tag = tag
  toJid s := if '@' ∈ s.toList then some s else none
  defaultJid := ""

/-- A union `outcome` with a leaf, told apart by the attribute `kind`. -/
def outcomeUnion (leaf : ParsedField) : ParsedField :=
  { ParsedField.plain "" "outcome" with
    fieldType := .union
    unionVariants := some [⟨"Done", [leaf], [⟨.attr, some "kind", some "done", none⟩]⟩,
      ⟨"Failed", [], [⟨.attr, some "kind", some "failed", none⟩]⟩] }

/-- `<outcome kind="done" code="7"><detail/></outcome>` -/
def doneElement : Element := ⟨"outcome", [("kind", "done"), ("code", "7")], [⟨"detail", [], []⟩]⟩

theorem elementReader_tag (n : Element) (tag : String) (c : Element)
    (h : elementReader.optionalChild n tag = some c) : elementReader.tag c = tag :=
  of_decide_eq_true (List.find?_some h :)

end Whatspec.Codegen

import Mathlib
import Whatspec.Codegen.ErrorCodes
import Whatspec.Codegen.ErrorOutcomes

/-!
# Do earlier outcomes take what a later one takes?

The answer is given by the bands of codes, the texts and the children of the arms.  The reads of the
emitted decoder also depend on the names that an arm has read before.

* `accepts_of_among`: an earlier arm whose children are among those of the later arm takes what this
  takes, where its reads are among the reads of the later arm;
* `exists_refused`: where the answer is no, there is an error that the later outcome takes and none
  of the earlier ones does;
* **`errorOutcomesCover_exact`** is both, and `errorOutcomesCover_shadowed` an answer that is wrong,
  since a name of one child shadows that of another.
-/

namespace Whatspec.Codegen.ErrorOutcomes

open Whatspec.Library

variable {classified : ParsedField → Bool}

/-! ### Arms that are admitted -/

/-- What the checks and the reads say of one arm. -/
structure Admitted (arm : Arm) : Prop where
  shape : armShape arm.1 arm.2.toErrorArm = true
  enforced : armEnforced arm.1 arm.2.toErrorArm = true
  reads : textReads arm.1 = true

theorem guard_eq_some_iff {p : Bool} {x : Unit} :
    (guard (p = true) : Option Unit) = some x ↔ p = true := by
  cases p <;> simp [guard]

theorem ErrorOutcome.admitted (o : ErrorOutcome classified) : ∀ arm ∈ o.arms, Admitted arm := by
  have hbounded := o.bounded
  simp only [directErrorPayload, directErrorPayloadShape, Option.bind_eq_bind,
    Option.bind_eq_some_iff, guard_eq_some_iff, Option.some_inj] at hbounded
  obtain ⟨payload, ⟨-, -, payload', -, -, -, variants', hvariants', -, -, -, hshape, rfl⟩, header,
    -, -, -, variants, hvariants, -, henforced, hpayload⟩ := hbounded
  subst hpayload
  rw [hvariants] at hvariants'
  cases hvariants'
  intro arm harm
  have hreads := o.reads
  rw [ErrorOutcome.arms, hvariants, Option.getD_some] at harm
  rw [hvariants, Option.getD_some] at hreads
  exact ⟨List.all_eq_true.mp hshape arm harm, List.all_eq_true.mp henforced arm harm,
    List.all_eq_true.mp hreads arm.1 (List.of_mem_zip harm).1⟩

/-- The band of an admitted arm, and its text. -/
theorem Admitted.band {arm : Arm} (h : Admitted arm) :
    leastCode arm.2.toErrorArm = some arm.2.band.1 ∧
      greatestCode arm.2.toErrorArm = some arm.2.band.2 ∧ 0 ≤ arm.2.band.1 ∧
      arm.2.band.1 ≤ arm.2.band.2 ∧ arm.2.band.2 ≤ i32Max := by
  have hshape := h.shape
  rw [armShape] at hshape
  split at hshape
  · next lo hi hlo hhi =>
    have hband : arm.2.band = (lo, hi) := by
      rw [ErrorArm.band, ← leastCode, ← greatestCode, hlo, hhi]
      rfl
    simp only [Bool.and_eq_true, decide_eq_true_eq] at hshape
    rw [hband]
    exact ⟨hlo, hhi, hshape.1.1.1.1, hshape.1.1.2, hshape.1.1.1.2⟩
  · cases hshape

/-- The attribute `text` of an arm. -/
def textField (variant : UnionVariant) : Option ParsedField :=
  variant.fields.find? (·.wire = "text")

/-- The read of the attribute `text`. -/
def textRead (variant : UnionVariant) : Option Read :=
  (textField variant).map fun f =>
    ⟨none, { f with children := f.children.map (flattenLeaves false) }⟩

theorem Admitted.text {arm : Arm} (h : Admitted arm) :
    ∃ f, textField arm.1 = some f ∧ f.method = "attrString" ∧ f.parserRequired = true ∧
      f.wire = "text" ∧ f.literalValue = arm.2.text ∧ enumValues f = none := by
  have hshape := h.shape
  rw [armShape] at hshape
  split at hshape
  · rw [Bool.and_eq_true] at hshape
    have hfields := hshape.2
    split at hfields
    · next code text _ htext =>
      simp only [Bool.and_eq_true, textShape, decide_eq_true_eq] at hfields
      obtain ⟨⟨-, ⟨hmethod, hrequired⟩, hliteral⟩, -⟩ := hfields
      have hwire : text.wire = "text" := of_decide_eq_true (List.find?_some htext :)
      have henforced := (Bool.and_eq_true_iff.mp h.enforced).1
      have hfree := List.all_eq_true.mp henforced text
        (List.mem_filter.mpr ⟨List.mem_of_find?_eq_some htext, by simp [hwire]⟩)
      simp only [unconstrained, Bool.and_eq_true, Option.isNone_iff_eq_none] at hfree
      obtain ⟨⟨⟨⟨⟨⟨-, hkeys⟩, href⟩, -⟩, -⟩, -⟩, -⟩ := hfree
      refine ⟨text, htext, hmethod, hrequired, hwire, hliteral, ?_⟩
      rw [enumValues, href, hkeys]
      rfl
    · cases hfields
  · cases hshape

/-- The code is not read off a child. -/
theorem Admitted.readChildren_eq {arm : Arm} (h : Admitted arm) :
    readChildren arm.1 = childFields arm.1 := by
  rw [readChildren, readFields, List.filter_filter, childFields]
  refine List.filter_congr fun f hf => ?_
  have hreads := List.all_eq_true.mp h.reads f hf
  by_cases hwire : f.wire = "code"
  · rw [if_pos hwire] at hreads
    simp only [ne_eq, decide_not, Bool.not_eq_true', decide_eq_false_iff_not] at hreads
    simp [hreads]
  · simp [hwire]

theorem childShape_method {f : ParsedField} (h : childShape f = true) : f.method = "child" := by
  simp only [childShape, Bool.and_eq_true, decide_eq_true_eq] at h
  exact h.1.1.1.1

/-- The attributes of a child are texts. -/
theorem childShape_leaf {f l : ParsedField} (h : childShape f = true)
    (hl : l ∈ f.children.getD []) : l.method = "attrString" := by
  simp only [childShape, Bool.and_eq_true] at h
  cases hchildren : f.children with
  | none =>
    rw [hchildren] at hl
    cases hl
  | some leaves =>
    rw [hchildren] at h hl
    have hleaf := List.all_eq_true.mp h.2 l hl
    simp only [Bool.and_eq_true, decide_eq_true_eq] at hleaf
    exact hleaf.1.1

/-- What is read of an arm besides the code: texts, and children. -/
theorem Admitted.read {arm : Arm} (h : Admitted arm) {f : ParsedField}
    (hf : f ∈ readFields arm.1) :
    (f.method = "attrString" ∧ f.children = none) ∨ childShape f = true := by
  obtain ⟨hmem, hwire⟩ := List.mem_filter.mp hf
  have hwire : f.wire ≠ "code" := of_decide_eq_true hwire
  by_cases hchild : childShape f = true
  · exact Or.inr hchild
  left
  have hreads := List.all_eq_true.mp h.reads f hmem
  rw [if_neg hwire, Bool.and_eq_true, Bool.or_eq_true, Bool.and_eq_true] at hreads
  have hmethod : f.method = "attrString" :=
    of_decide_eq_true (hreads.2.resolve_right fun h => hchild h.1)
  refine ⟨hmethod, ?_⟩
  have hshape := h.shape
  rw [armShape] at hshape
  split at hshape
  · rw [Bool.and_eq_true] at hshape
    have hfields := hshape.2
    split at hfields
    · have hall := List.all_eq_true.mp (Bool.and_eq_true_iff.mp hfields).2 f hmem
      simp only [Bool.or_eq_true, decide_eq_true_eq] at hall
      have htext : f.wire = "text" := (hall.resolve_right hchild).resolve_left hwire
      have henforced := (Bool.and_eq_true_iff.mp h.enforced).1
      have hfree := List.all_eq_true.mp henforced f (List.mem_filter.mpr ⟨hmem, by simp [htext]⟩)
      simp only [unconstrained, Bool.and_eq_true, Option.isNone_iff_eq_none] at hfree
      exact hfree.1.1.1.1.1.1.1.2
    · cases hfields
  · cases hshape

/-! ### Reads -/

theorem child_of_mem_leafReads {child : Option String} {r : Read} :
    ∀ {leaves : List ParsedField} {seen : List String},
      r ∈ (leafReads child seen leaves).1 → r.child = child
  | [], _, h => absurd h List.not_mem_nil
  | l :: ls, seen, h => by
    rw [leafReads] at h
    split_ifs at h
    · exact child_of_mem_leafReads h
    · rcases List.mem_cons.mp h with rfl | h
      · rfl
      · exact child_of_mem_leafReads h

/-- A child that is read is one of the fields. -/
theorem exists_child_of_mem_fieldReads {r : Read} {tag : String} (htag : r.child = some tag) :
    ∀ {fields : List ParsedField} {seen : List String}, r ∈ fieldReads seen fields →
      ∃ f ∈ fields, isChildMethod f.method = true ∧ tagOrName f = tag
  | [], _, h => absurd h List.not_mem_nil
  | f :: fs, seen, h => by
    have hrest : ∀ {seen}, r ∈ fieldReads seen fs →
        ∃ g ∈ f :: fs, isChildMethod g.method = true ∧ tagOrName g = tag := fun h => by
      obtain ⟨g, hg, hchild⟩ := exists_child_of_mem_fieldReads htag h
      exact ⟨g, List.mem_cons_of_mem f hg, hchild⟩
    rw [fieldReads] at h
    split_ifs at h with hattr hseen hskip hcontent hseen'
    · exact hrest h
    · rcases List.mem_cons.mp h with rfl | h
      · cases htag
      · exact hrest h
    · exact hrest h
    · exact hrest h
    · exact hrest h
    · rcases List.mem_append.mp h with h | h
      · have hchild := (child_of_mem_leafReads h).symm.trans htag
        exact ⟨f, List.mem_cons_self, by simpa using hskip, Option.some_inj.mp hchild⟩
      · exact hrest h

theorem mem_flattenLeaves {optional : Bool} {leaves : List ParsedField} {f : ParsedField}
    (h : f ∈ flattenLeaves optional leaves) :
    ∃ l ∈ leaves, f = if optional then weakened l else l := by
  obtain ⟨l, hl, rfl⟩ := List.mem_map.mp h
  exact ⟨l, (List.mem_filter.mp hl).1, rfl⟩

/-- A text attribute is none of the children, lifted or not. -/
theorem not_child_of_lifted {optional : Bool} {l : ParsedField} (h : l.method = "attrString") :
    isChildMethod (if optional then weakened l else l).method = false := by
  cases optional with
  | false =>
    show isChildMethod l.method = false
    rw [h]
    decide
  | true =>
    have hmethod : (weakened l).method = "maybeAttrString" := if_pos h
    show isChildMethod (weakened l).method = false
    rw [hmethod]
    decide

/-- **The children that are read are those of the arm.** -/
theorem Admitted.child_of_mem_armReads {arm : Arm} (h : Admitted arm) {r : Read} {tag : String}
    (hr : r ∈ armReads arm.1) (htag : r.child = some tag) :
    ∃ c ∈ childFields arm.1, tagOrName c = tag := by
  obtain ⟨f, hf, hmethod, htagf⟩ := exists_child_of_mem_fieldReads htag hr
  obtain ⟨g, hg, hf⟩ := List.mem_flatMap.mp hf
  have hread := h.read hg
  rw [flattenField] at hf
  split_ifs at hf with hsame
  · -- what is lifted out of a child is an attribute
    obtain ⟨l, hl, rfl⟩ := mem_flattenLeaves hf
    have hleaf : l.method = "attrString" := by
      rcases hread with ⟨-, hnone⟩ | hchild
      · rw [hnone] at hl
        cases hl
      · exact childShape_leaf hchild hl
    rw [not_child_of_lifted hleaf] at hmethod
    cases hmethod
  · rw [List.mem_singleton] at hf
    subst hf
    have hchild : g.method = "child" := by
      rcases hread with ⟨hattr, -⟩ | hchild
      · have hmethod : isChildMethod g.method = true := hmethod
        rw [hattr] at hmethod
        exact absurd hmethod (by decide)
      · exact childShape_method hchild
    refine ⟨g, List.mem_filter.mpr ⟨(List.mem_filter.mp hg).1, by simp [hchild]⟩, ?_⟩
    exact htagf

section Reading

variable {ν : Type} (nodes : NodeReader ν)

/-- The text of an error is read. -/
theorem Admitted.textRead_passes {arm : Arm} (h : Admitted arm) {r : Read}
    (hr : some r = textRead arm.1) {error : ν} {text : String}
    (htext : nodes.getAttr error "text" = some text) (hpin : ∀ t ∈ arm.2.text, text = t) :
    r.passes nodes error = true := by
  obtain ⟨f, hf, -, -, hwire, hliteral, hvalues⟩ := h.text
  rw [textRead, hf, Option.map_some, Option.some_inj] at hr
  subst hr
  have hget : nodes.getAttr error f.wire = some text := by rw [hwire, htext]
  show leafPasses nodes error { f with children := f.children.map (flattenLeaves false) } = true
  have hleaf : leafPasses nodes error { f with children := f.children.map (flattenLeaves false) } =
      leafPasses nodes error f := rfl
  rw [hleaf, leafPasses, hget]
  dsimp only
  rw [hvalues, hliteral, Option.all_none, Bool.true_and, Option.all_eq_true]
  exact fun t ht => decide_eq_true (hpin t ht)

/-- A condition on code and text. -/
theorem holds_iff {arm : ErrorArm} {error : ν} {code : ℤ} {text : String}
    (htext : nodes.getAttr error "text" = some text) :
    arm.holds nodes error code = true ↔ arm.Accepts code text := by
  simp only [ErrorArm.holds, htext, Bool.and_eq_true, Option.all_eq_true, decide_eq_true_eq,
    Option.some_inj]
  constructor
  · rintro ⟨⟨⟨hexact, hleast⟩, hmost⟩, hpinned⟩
    exact ⟨hexact, hleast, hmost, hpinned⟩
  · rintro ⟨hexact, hleast, hmost, hpinned⟩
    exact ⟨⟨⟨hexact, hleast⟩, hmost⟩, hpinned⟩

end Reading

/-! ### The arms that are counted -/

section Counting

variable {eq : FieldEquality}

theorem mem_coveringArms {later : Arm} : ∀ {arms covering : List Arm},
    coveringArms eq later arms = .ok covering →
      (∀ arm ∈ covering, arm ∈ arms ∧ apart later.2.toErrorArm arm.2.toErrorArm = false ∧
        childrenAmong eq later.1 arm.1 = true) ∧
      ∀ arm ∈ arms, apart later.2.toErrorArm arm.2.toErrorArm = true ∨ arm ∈ covering ∨
        (childrenAmong eq later.1 arm.1 = false ∧ failsBesides later.1 arm.1 = true)
  | [], _, h => by
    cases h
    exact ⟨nofun, nofun⟩
  | arm :: arms, covering, h => by
    rw [coveringArms] at h
    have hskip : ∀ {covering}, coveringArms eq later arms = .ok covering →
        (apart later.2.toErrorArm arm.2.toErrorArm = true ∨ arm ∈ covering ∨
          (childrenAmong eq later.1 arm.1 = false ∧ failsBesides later.1 arm.1 = true)) →
        (∀ a ∈ covering, a ∈ arm :: arms ∧ apart later.2.toErrorArm a.2.toErrorArm = false ∧
          childrenAmong eq later.1 a.1 = true) ∧
        ∀ a ∈ arm :: arms, apart later.2.toErrorArm a.2.toErrorArm = true ∨ a ∈ covering ∨
          (childrenAmong eq later.1 a.1 = false ∧ failsBesides later.1 a.1 = true) := by
      intro covering h harm
      obtain ⟨hcounted, hall⟩ := mem_coveringArms h
      refine ⟨fun a ha => ⟨List.mem_cons_of_mem arm (hcounted a ha).1, (hcounted a ha).2⟩, ?_⟩
      intro a ha
      rcases List.mem_cons.mp ha with rfl | ha
      · exact harm
      · exact hall a ha
    split_ifs at h with hapart hamong hbesides
    · exact hskip h (Or.inl hapart)
    · cases hrest : coveringArms eq later arms with
      | error e =>
        rw [hrest] at h
        cases h
      | ok rest =>
        rw [hrest] at h
        cases h
        obtain ⟨hcounted, hall⟩ := mem_coveringArms hrest
        refine ⟨fun a ha => ?_, fun a ha => ?_⟩
        · rcases List.mem_cons.mp ha with rfl | ha
          · exact ⟨List.mem_cons_self, Bool.not_eq_true _ ▸ hapart, hamong⟩
          · exact ⟨List.mem_cons_of_mem arm (hcounted a ha).1, (hcounted a ha).2⟩
        · rcases List.mem_cons.mp ha with rfl | ha
          · exact Or.inr (Or.inl List.mem_cons_self)
          · exact (hall a ha).imp_right (Or.imp_left (List.mem_cons_of_mem arm))
    · exact hskip h (Or.inr (Or.inr ⟨Bool.not_eq_true _ ▸ hamong, hbesides⟩))

/-- The answer is yes when it is yes for every later arm, and no when it is no for one. -/
theorem armsCover_spec {earlier : List Arm} : ∀ {later : List Arm} {answer : Bool},
    armsCover eq earlier later = .ok answer →
      if answer then ∀ arm ∈ later, ∃ covering, coveringArms eq arm earlier = .ok covering ∧
        errorArmsCover (covering.map fun a => a.2.toErrorArm) [arm.2.toErrorArm] = true
      else ∃ arm ∈ later, ∃ covering, coveringArms eq arm earlier = .ok covering ∧
        errorArmsCover (covering.map fun a => a.2.toErrorArm) [arm.2.toErrorArm] = false
  | [], answer, h => by
    cases h
    exact nofun
  | arm :: later, answer, h => by
    rw [armsCover] at h
    cases hcovering : coveringArms eq arm earlier with
    | error e =>
      rw [hcovering] at h
      cases h
    | ok covering =>
      rw [hcovering] at h
      simp only [Bind.bind, Except.bind] at h
      split_ifs at h with hcover
      · have hrest := armsCover_spec h
        cases answer with
        | true =>
          intro a ha
          rcases List.mem_cons.mp ha with rfl | ha
          · exact ⟨covering, hcovering, hcover⟩
          · exact hrest a ha
        | false =>
          obtain ⟨a, ha, hno⟩ := hrest
          exact ⟨a, List.mem_cons_of_mem arm ha, hno⟩
      · cases h
        exact ⟨arm, List.mem_cons_self, covering, hcovering, Bool.not_eq_true _ ▸ hcover⟩

theorem errorArmsCover_one {earlier : List ErrorArm} {arm : ErrorArm} :
    errorArmsCover earlier [arm] = true ↔ ∀ x, arm.band.1 ≤ x → x ≤ arm.band.2 →
      ∃ a ∈ earlier, wider a arm = true ∧ a.band.1 ≤ x ∧ x ≤ a.band.2 := by
  rw [errorArmsCover, List.all_cons, List.all_nil, Bool.and_true, sweep_bandsFor]

end Counting

/-! ### What is taken -/

theorem iqErrorCode_range {s : String} {code : ℤ} (h : iqErrorCode s = some code) :
    i64Min ≤ code ∧ code ≤ i64Max := by
  have hfinish : ∀ (digits : List Char) (n : ℤ), (if digits.isEmpty then none
      else if -2 ^ 63 ≤ n ∧ n < 2 ^ 63 then some n else none) = some code →
        i64Min ≤ code ∧ code ≤ i64Max := by
    intro digits n h
    split_ifs at h with hempty hrange
    cases h
    exact ⟨hrange.1, Int.le_sub_one_of_lt hrange.2⟩
  unfold iqErrorCode at h
  dsimp only at h
  split at h <;> exact hfinish _ _ h

/-- The reads of an earlier arm are among those of the later one, up to the text. -/
def ReadsKept (later arm : UnionVariant) : Prop :=
  ∀ r ∈ armReads arm, r ∈ armReads later ∨ some r = textRead arm

section Taking

variable {eq : FieldEquality} {ν : Type} {nodes : NodeReader ν}

/-- **An arm whose children are among those of a later one takes what this takes**, in its band. -/
theorem accepts_of_among {later arm : Arm} (hlater : Admitted later) (harm : Admitted arm)
    (hamong : childrenAmong eq later.1 arm.1 = true) (hkept : ReadsKept later.1 arm.1) {error : ν}
    {code : ℤ} {text : String} (htext : nodes.getAttr error "text" = some text)
    (haccepts : arm.2.Accepts code text)
    (h : armAccepts nodes later error code = true) : armAccepts nodes arm error code = true := by
  have hchildren : ∀ c ∈ childFields arm.1, c ∈ childFields later.1 := by
    intro c hc
    obtain ⟨other, hother, hsame⟩ := List.any_eq_true.mp (List.all_eq_true.mp hamong c hc)
    exact eq.eq_of_same hsame ▸ hother
  simp only [armAccepts, Bool.and_eq_true, hlater.readChildren_eq, harm.readChildren_eq] at h ⊢
  obtain ⟨⟨⟨-, hcontent⟩, hcounts⟩, hreads⟩ := h
  refine ⟨⟨⟨(holds_iff nodes htext).mpr haccepts, ?_⟩, ?_⟩, ?_⟩
  · rw [Bool.or_eq_true, List.isEmpty_iff] at hcontent ⊢
    refine hcontent.imp_left fun hempty => ?_
    exact List.eq_nil_iff_forall_not_mem.mpr fun c hc =>
      List.not_mem_nil (hempty ▸ hchildren c hc)
  · exact List.all_eq_true.mpr fun c hc => List.all_eq_true.mp hcounts c (hchildren c hc)
  · refine List.all_eq_true.mpr fun r hr => ?_
    rcases hkept r hr with hr | hr
    · exact List.all_eq_true.mp hreads r hr
    · exact harm.textRead_passes nodes hr htext haccepts.pinned

/-- Where the answer is yes, an earlier arm takes what a later one takes. -/
theorem exists_accepts {earlier later : List Arm} (hadmitted : ∀ arm ∈ earlier, Admitted arm)
    (hlater : ∀ arm ∈ later, Admitted arm)
    (hkept : ∀ l ∈ later, ∀ a ∈ earlier, apart l.2.toErrorArm a.2.toErrorArm = false →
      childrenAmong eq l.1 a.1 = true → ReadsKept l.1 a.1)
    (hcover : armsCover eq earlier later = .ok true) {error : ν} {code : ℤ}
    (hcode : i64Min ≤ code ∧ code ≤ i64Max) (htext : hasText nodes error = true)
    (h : ∃ arm ∈ later, armAccepts nodes arm error code = true) :
    ∃ arm ∈ earlier, armAccepts nodes arm error code = true := by
  obtain ⟨l, hl, haccepts⟩ := h
  obtain ⟨text, htext⟩ := Option.isSome_iff_exists.mp htext
  obtain ⟨covering, hcovering, hbands⟩ := armsCover_spec hcover l hl
  have hholds : l.2.holds nodes error code = true := by
    simp only [armAccepts, Bool.and_eq_true] at haccepts
    exact haccepts.1.1.1
  have hband := (l.2.accepts_iff hcode).mp ((holds_iff nodes htext).mp hholds)
  obtain ⟨a, ha, hwider, hx⟩ := errorArmsCover_one.mp hbands code hband.1.1 hband.1.2
  obtain ⟨arm, harm, rfl⟩ := List.mem_map.mp ha
  obtain ⟨hearlier, hapart, hamong⟩ := (mem_coveringArms hcovering).1 arm harm
  refine ⟨arm, hearlier, accepts_of_among (hlater l hl) (hadmitted arm hearlier) hamong
    (hkept l hl arm hearlier hapart hamong) htext ?_ haccepts⟩
  exact (arm.2.accepts_iff hcode).mpr ⟨hx, pinned_of_wider hwider hband.2⟩

end Taking

/-! ### What is refused -/

/-- Nodes can be read, and built: an element with children that are empty, and one with a body of
bytes. -/
structure NodeLibrary (ν : Type) extends NodeReader ν where
  element : List (String × String) → List String → ν
  binary : List (String × String) → ν
  getAttr_element : ∀ attrs tags name, getAttr (element attrs tags) name = attrs.lookup name
  getAttr_binary : ∀ attrs name, getAttr (binary attrs) name = attrs.lookup name
  contentBytes_element : ∀ attrs tags, contentBytes (element attrs tags) = none
  contentBytes_binary : ∀ attrs, (contentBytes (binary attrs)).isSome = true
  childrenByTag_element : ∀ attrs tags tag,
    (childrenByTag (element attrs tags) tag).length = tags.count tag
  optionalChild_element : ∀ attrs tags tag, tag ∉ tags →
    optionalChild (element attrs tags) tag = none
  optionalChild_binary : ∀ attrs tag, optionalChild (binary attrs) tag = none

/-- The attributes of the error itself that are read besides the text are neither the code nor the
text, and may be absent. -/
def PlacesApart (arm : UnionVariant) : Prop :=
  ∀ r ∈ armReads arm, r.child = none → some r = textRead arm ∨
    (r.leaf.wire ≠ "code" ∧ r.leaf.wire ≠ "text" ∧
      (isOptionalMethod r.leaf.method || !r.leaf.parserRequired) = true)

theorem not_isStrWhiteSpace_of_isDigit {c : Char} (h : c.isDigit = true) :
    Scripts.isStrWhiteSpace c = false := by
  have hrange : 48 ≤ c.toNat ∧ c.toNat ≤ 57 := by
    simp only [Char.isDigit, Bool.and_eq_true, decide_eq_true_eq] at h
    exact ⟨UInt32.le_iff_toNat_le.mp h.1, UInt32.le_iff_toNat_le.mp h.2⟩
  simp only [Scripts.isStrWhiteSpace, List.mem_cons, List.not_mem_nil, or_false,
    decide_eq_false_iff_not]
  omega

/-- The decoder reads a number that is written in digits. -/
theorem iqErrorCode_repr {n : ℕ} (hn : n < 2 ^ 63) : iqErrorCode (toString n) = some (n : ℤ) := by
  have hdigits : ∀ c ∈ Nat.toDigits 10 n, c.isDigit = true := fun c hc =>
    Nat.isDigit_of_mem_toDigits (by decide) (by decide) hc
  have htext : (toString n).toList = Nat.toDigits 10 n := Nat.toList_repr
  have hne : Nat.toDigits 10 n ≠ [] := List.ne_nil_of_length_pos Nat.length_toDigits_pos
  have hsign : Scripts.splitSign ((toString n).toList.dropWhile Scripts.isStrWhiteSpace) =
      (false, Nat.toDigits 10 n) := by
    rw [htext]
    cases hcs : Nat.toDigits 10 n with
    | nil => exact absurd hcs hne
    | cons c cs =>
      have hc : c.isDigit = true := hdigits c (hcs ▸ List.mem_cons_self)
      rw [List.dropWhile_cons_of_neg]
      · unfold Scripts.splitSign
        split
        · next heq => cases heq; exact absurd hc (by decide)
        · next heq => cases heq; exact absurd hc (by decide)
        · rfl
      · rw [not_isStrWhiteSpace_of_isDigit hc]
        exact Bool.false_ne_true
  have htake : (Nat.toDigits 10 n).takeWhile Char.isDigit = Nat.toDigits 10 n := by
    have happend := @List.takeWhile_append_of_pos _ Char.isDigit _ [] hdigits
    rwa [List.append_nil, List.takeWhile_nil, List.append_nil] at happend
  rw [iqErrorCode_eq_some_iff (toString n) ⟨by omega, by omega⟩ hsign, htake,
    Nat.ofDigitChars_toDigits (by decide) (by decide)]
  exact ⟨hne, rfl⟩

/-- Two arms that have an error in common are not apart. -/
theorem not_apart {later arm : Arm} (hlater : Admitted later) (harm : Admitted arm) {x : ℤ}
    {text : String} (hx : later.2.band.1 ≤ x ∧ x ≤ later.2.band.2)
    (htext : ∀ t ∈ later.2.text, text = t) (hband : arm.2.band.1 ≤ x ∧ x ≤ arm.2.band.2)
    (hpins : ∀ t ∈ arm.2.text, text = t) :
    ¬apart later.2.toErrorArm arm.2.toErrorArm = true := by
  obtain ⟨hlo, hhi, -⟩ := hlater.band
  obtain ⟨hlo', hhi', -⟩ := harm.band
  rw [apart, hlo, hhi, hlo', hhi']
  simp only [Option.getD_some, Bool.or_eq_true, Bool.and_eq_true, decide_eq_true_eq]
  rintro ((hbelow | habove) | ⟨⟨hsome, hsome'⟩, hne⟩)
  · omega
  · omega
  · obtain ⟨t, ht⟩ := Option.isSome_iff_exists.mp hsome
    obtain ⟨u, hu⟩ := Option.isSome_iff_exists.mp hsome'
    rw [ht, hu, ← hpins t ht, ← htext u hu] at hne
    exact hne rfl

section Refusing

variable {eq : FieldEquality} {ν : Type} (lib : NodeLibrary ν)

/-- The tags that make an earlier arm fail, twice each. -/
def extraTags (later : UnionVariant) (earlier : List Arm) : List String :=
  (earlier.flatMap fun arm => ((childFields arm.1).map tagOrName).filter fun tag =>
    tag ∉ (childFields later).map tagOrName).flatMap fun tag => [tag, tag]

/-- An error with a code and a text, and a body that earlier arms refuse. -/
def refusedError (later : UnionVariant) (earlier : List Arm) (code : ℕ) (text : String) : ν :=
  let attrs := [("code", toString code), ("text", text)]
  if (childFields later).isEmpty then lib.binary attrs
  else lib.element attrs (extraTags later earlier)

theorem getAttr_refusedError {later : UnionVariant} {earlier : List Arm} {code : ℕ}
    {text name : String} : lib.getAttr (refusedError lib later earlier code text) name =
      [("code", toString code), ("text", text)].lookup name := by
  rw [refusedError]
  split_ifs
  · exact lib.getAttr_binary _ name
  · exact lib.getAttr_element _ _ name

/-- A tag of the later arm is not among those that make earlier ones fail. -/
theorem not_mem_extraTags {later : UnionVariant} {earlier : List Arm} {c : ParsedField}
    (hc : c ∈ childFields later) : tagOrName c ∉ extraTags later earlier := by
  intro h
  obtain ⟨tag, htag, hmem⟩ := List.mem_flatMap.mp h
  obtain rfl : tagOrName c = tag := by simpa using hmem
  obtain ⟨arm, -, htag⟩ := List.mem_flatMap.mp htag
  have hnot := of_decide_eq_true (List.mem_filter.mp htag).2
  exact hnot (List.mem_map_of_mem hc)

theorem two_le_count {tags : List String} {tag : String} (h : tag ∈ tags) :
    2 ≤ (tags.flatMap fun t => [t, t]).count tag := by
  obtain ⟨before, after, rfl⟩ := List.append_of_mem h
  rw [List.flatMap_append, List.flatMap_cons, List.count_append, List.count_append]
  have hpair : [tag, tag].count tag = 2 := by simp
  omega

/-- The later arm takes the error. -/
theorem accepts_refusedError {later : Arm} (hlater : Admitted later) (hplaces : PlacesApart later.1)
    (earlier : List Arm) {code : ℕ} {text : String} (haccepts : later.2.Accepts code text) :
    armAccepts lib.toNodeReader later (refusedError lib later.1 earlier code text) code = true := by
  have htext : lib.getAttr (refusedError lib later.1 earlier code text) "text" = some text :=
    getAttr_refusedError lib
  simp only [armAccepts, Bool.and_eq_true, hlater.readChildren_eq]
  refine ⟨⟨⟨(holds_iff lib.toNodeReader htext).mpr haccepts, ?_⟩, ?_⟩, ?_⟩
  · rw [Bool.or_eq_true, refusedError]
    split_ifs with hempty
    · exact Or.inl hempty
    · right
      rw [lib.contentBytes_element]
      rfl
  · refine List.all_eq_true.mpr fun c hc => decide_eq_true ?_
    have hne : ¬(childFields later.1).isEmpty = true := fun hempty =>
      List.not_mem_nil (List.isEmpty_iff.mp hempty ▸ hc)
    rw [refusedError, if_neg hne, lib.childrenByTag_element,
      List.count_eq_zero.mpr (not_mem_extraTags hc)]
    exact Nat.zero_le 1
  · refine List.all_eq_true.mpr fun r hr => ?_
    cases htag : r.child with
    | some tag =>
      obtain ⟨c, hc, rfl⟩ := hlater.child_of_mem_armReads hr htag
      have hchild : lib.optionalChild (refusedError lib later.1 earlier code text) (tagOrName c) =
          none := by
        rw [refusedError]
        split_ifs
        · exact lib.optionalChild_binary _ _
        · exact lib.optionalChild_element _ _ _ (not_mem_extraTags hc)
      rw [Read.passes, htag]
      dsimp only
      rw [hchild]
      rfl
    | none =>
      rcases hplaces r hr htag with htextRead | ⟨hcode, htextWire, hoptional⟩
      · exact hlater.textRead_passes lib.toNodeReader htextRead htext haccepts.pinned
      · have habsent : lib.getAttr (refusedError lib later.1 earlier code text) r.leaf.wire =
            none := by
          rw [getAttr_refusedError]
          simp [List.lookup, beq_eq_false_iff_ne.mpr hcode, beq_eq_false_iff_ne.mpr htextWire]
        rw [Read.passes, htag]
        dsimp only
        rw [leafPasses, habsent]
        exact hoptional

/-- An earlier arm that can fail besides refuses the error. -/
theorem refused_of_failsBesides {later arm : Arm} (harm : Admitted arm) {earlier : List Arm}
    (hmem : arm ∈ earlier) (hamong : childrenAmong eq later.1 arm.1 = false)
    (hfails : failsBesides later.1 arm.1 = true) {code : ℕ} {text : String} :
    armAccepts lib.toNodeReader arm (refusedError lib later.1 earlier code text) code = false := by
  rw [← Bool.not_eq_true]
  intro h
  simp only [armAccepts, Bool.and_eq_true, harm.readChildren_eq] at h
  obtain ⟨⟨⟨-, hcontent⟩, hcounts⟩, -⟩ := h
  by_cases hempty : (childFields later.1).isEmpty = true
  · -- a body of bytes
    have hchildren : ¬(childFields arm.1).isEmpty = true := by
      intro hnone
      rw [childrenAmong, List.isEmpty_iff.mp hnone] at hamong
      cases hamong
    rw [Bool.or_eq_true] at hcontent
    have hbytes := hcontent.resolve_left hchildren
    rw [refusedError, if_pos hempty, ← Option.not_isSome, lib.contentBytes_binary] at hbytes
    cases hbytes
  · -- a child that is there twice
    rw [failsBesides, Bool.or_eq_true] at hfails
    obtain ⟨c, hc, hnot⟩ := List.any_eq_true.mp (hfails.resolve_left hempty)
    have hextra : tagOrName c ∉ (childFields later.1).map tagOrName := by
      intro hmem
      obtain ⟨other, hother, htag⟩ := List.mem_map.mp hmem
      rw [Bool.not_eq_true'] at hnot
      exact absurd (decide_eq_true htag.symm) (List.any_eq_false.mp hnot other hother)
    have htwice : 2 ≤ (extraTags later.1 earlier).count (tagOrName c) := by
      refine two_le_count (List.mem_flatMap.mpr ⟨arm, hmem, List.mem_filter.mpr ⟨?_, ?_⟩⟩)
      · exact List.mem_map_of_mem hc
      · exact decide_eq_true hextra
    have hcount := of_decide_eq_true (List.all_eq_true.mp hcounts c hc)
    rw [refusedError, if_neg hempty, lib.childrenByTag_element] at hcount
    omega

/-- Where the answer is no, there is an error that a later arm takes and no earlier one does. -/
theorem exists_refused {earlier later : List Arm} (hadmitted : ∀ arm ∈ earlier, Admitted arm)
    (hlater : ∀ arm ∈ later, Admitted arm) (hplaces : ∀ arm ∈ later, PlacesApart arm.1)
    (hcover : armsCover eq earlier later = .ok false) :
    ∃ (error : ν) (code : ℤ), hasText lib.toNodeReader error = true ∧
      (lib.getAttr error "code").bind iqErrorCode = some code ∧
      (∃ arm ∈ later, armAccepts lib.toNodeReader arm error code = true) ∧
      ∀ arm ∈ earlier, armAccepts lib.toNodeReader arm error code = false := by
  obtain ⟨l, hl, covering, hcovering, hno⟩ := armsCover_spec hcover
  obtain ⟨hlo, hhi, hnonneg, -, hmax⟩ := (hlater l hl).band
  -- a code that no counted arm has
  have hgap : ∃ x, l.2.band.1 ≤ x ∧ x ≤ l.2.band.2 ∧ ∀ arm ∈ covering,
      wider arm.2.toErrorArm l.2.toErrorArm = true → ¬(arm.2.band.1 ≤ x ∧ x ≤ arm.2.band.2) := by
    by_contra hnone
    have hyes :
        errorArmsCover (covering.map fun arm => arm.2.toErrorArm) [l.2.toErrorArm] = true := by
      refine errorArmsCover_one.mpr fun x hx hx' => ?_
      by_contra hfree
      refine hnone ⟨x, hx, hx', fun arm harm hwider hband => hfree ?_⟩
      exact ⟨arm.2.toErrorArm, List.mem_map.mpr ⟨arm, harm, rfl⟩, hwider, hband⟩
    rw [hno] at hyes
    cases hyes
  obtain ⟨x, hx, hx', hgap⟩ := hgap
  -- and a text that only the arms accept that are wide enough
  obtain ⟨text, htext, honly⟩ :=
    exists_text (earlier.map fun arm => arm.2.toErrorArm) l.2.toErrorArm
  obtain ⟨code, rfl⟩ := Int.eq_ofNat_of_zero_le (hnonneg.trans hx)
  have hcode : i64Min ≤ (code : ℤ) ∧ (code : ℤ) ≤ i64Max := by
    have hi32 := hx'.trans hmax
    rw [i32Max] at hi32
    rw [i64Min, i64Max]
    omega
  have haccepts : l.2.Accepts code text := (l.2.accepts_iff hcode).mpr ⟨⟨hx, hx'⟩, htext⟩
  have hget : lib.getAttr (refusedError lib l.1 earlier code text) "text" = some text :=
    getAttr_refusedError lib
  refine ⟨refusedError lib l.1 earlier code text, code, ?_, ?_, ⟨l, hl, ?_⟩, fun arm harm => ?_⟩
  · rw [hasText, hget]
    rfl
  · rw [getAttr_refusedError]
    have hrange := hcode.2
    rw [i64Max] at hrange
    exact iqErrorCode_repr (by omega)
  · exact accepts_refusedError lib (hlater l hl) (hplaces l hl) earlier haccepts
  · have hpinned : armAccepts lib.toNodeReader arm (refusedError lib l.1 earlier code text) code =
        true → (arm.2.band.1 ≤ code ∧ code ≤ arm.2.band.2) ∧ ∀ t ∈ arm.2.text, text = t := by
      intro h
      simp only [armAccepts, Bool.and_eq_true] at h
      exact (arm.2.accepts_iff hcode).mp ((holds_iff lib.toNodeReader hget).mp h.1.1.1)
    rcases (mem_coveringArms hcovering).2 arm harm with hapart | hcounted | ⟨hamong, hfails⟩
    · rw [← Bool.not_eq_true]
      intro h
      obtain ⟨hband, hpins⟩ := hpinned h
      exact not_apart (hlater l hl) (hadmitted arm harm) ⟨hx, hx'⟩ htext hband hpins hapart
    · rw [← Bool.not_eq_true]
      intro h
      obtain ⟨hband, hpins⟩ := hpinned h
      have hwider := honly arm.2.toErrorArm (List.mem_map.mpr ⟨arm, harm, rfl⟩) hpins
      exact hgap arm hcounted hwider hband
    · exact refused_of_failsBesides lib (hadmitted arm harm) harm hamong hfails

end Refusing

/-! ### Outcomes -/

/-- Wherever an earlier arm is counted for a later one, the reads of the earlier arm are among those
of the later one: no name of the later arm shadows one that the earlier arm reads. -/
def NamesKept (eq : FieldEquality) (earlier : List (ErrorOutcome classified))
    (later : ErrorOutcome classified) : Prop :=
  ∀ l ∈ later.arms, ∀ arm ∈ earlier.flatMap ErrorOutcome.arms,
    apart l.2.toErrorArm arm.2.toErrorArm = false → childrenAmong eq l.1 arm.1 = true →
      ReadsKept l.1 arm.1

theorem ErrorOutcome.accepts_iff {ν : Type} {nodes : NodeReader ν} {o : ErrorOutcome classified}
    {error : ν} : o.accepts nodes error = true ↔
      ∃ code, (nodes.getAttr error "code").bind iqErrorCode = some code ∧
        ∃ arm ∈ o.arms, armAccepts nodes arm error code = true := by
  rw [ErrorOutcome.accepts, Option.any_eq_true]
  exact exists_congr fun code => and_congr_right fun _ => List.any_eq_true

theorem admitted_of_mem {earlier : List (ErrorOutcome classified)} :
    ∀ arm ∈ earlier.flatMap ErrorOutcome.arms, Admitted arm := by
  intro arm harm
  obtain ⟨o, -, harm⟩ := List.mem_flatMap.mp harm
  exact o.admitted arm harm

/-- **The answer is right both ways, unless names shadow one another**: where it is yes, what the
later outcome takes one of the earlier ones takes, and where it is no, there is an error that the
later outcome takes and none of the earlier ones. -/
theorem errorOutcomesCover_exact (eq : FieldEquality) (earlier : List (ErrorOutcome classified))
    (later : ErrorOutcome classified) :
    (NamesKept eq earlier later → errorOutcomesCover eq earlier later = .ok true →
      ∀ (ν : Type) (nodes : NodeReader ν) (error : ν), hasText nodes error = true →
        later.accepts nodes error = true → ∃ o ∈ earlier, o.accepts nodes error = true) ∧
    ((∀ l ∈ later.arms, PlacesApart l.1) → errorOutcomesCover eq earlier later = .ok false →
      ∀ (ν : Type) (lib : NodeLibrary ν), ∃ error, hasText lib.toNodeReader error = true ∧
        later.accepts lib.toNodeReader error = true ∧
          ∀ o ∈ earlier, o.accepts lib.toNodeReader error = false) := by
  constructor
  · intro hkept hcover ν nodes error htext haccepts
    obtain ⟨code, hcode, htaken⟩ := ErrorOutcome.accepts_iff.mp haccepts
    obtain ⟨s, -, hs⟩ := Option.bind_eq_some_iff.mp hcode
    obtain ⟨arm, harm, htakes⟩ := exists_accepts admitted_of_mem later.admitted hkept hcover
      (iqErrorCode_range hs) htext htaken
    obtain ⟨o, ho, harm⟩ := List.mem_flatMap.mp harm
    exact ⟨o, ho, ErrorOutcome.accepts_iff.mpr ⟨code, hcode, arm, harm, htakes⟩⟩
  · intro hplaces hcover ν lib
    obtain ⟨error, code, htext, hcode, htaken, hrefused⟩ :=
      exists_refused lib admitted_of_mem later.admitted hplaces hcover
    refine ⟨error, htext, ErrorOutcome.accepts_iff.mpr ⟨code, hcode, htaken⟩, fun o ho => ?_⟩
    rw [← Bool.not_eq_true]
    intro haccepts
    obtain ⟨code', hcode', arm, harm, htakes⟩ := ErrorOutcome.accepts_iff.mp haccepts
    rw [hcode] at hcode'
    cases hcode'
    rw [hrefused arm (List.mem_flatMap.mpr ⟨o, ho, harm⟩)] at htakes
    cases htakes

/-! ### A name that shadows another -/

/-- A node with attributes, and with bytes or children. -/
inductive WireNode where
  | mk (tag : String) (attrs : List (String × String)) (bytes : Option (List UInt8))
    (children : List WireNode)

namespace WireNode

def tag : WireNode → String
  | mk tag _ _ _ => tag

def attrs : WireNode → List (String × String)
  | mk _ attrs _ _ => attrs

def bytes : WireNode → Option (List UInt8)
  | mk _ _ bytes _ => bytes

def children : WireNode → List WireNode
  | mk _ _ _ children => children

@[simp] theorem tag_mk (tag : String) (attrs : List (String × String)) (bytes : Option (List UInt8))
    (children : List WireNode) : (mk tag attrs bytes children).tag = tag := rfl

end WireNode

def wireLibrary : NodeLibrary WireNode where
  tag := WireNode.tag
  getAttr node name := node.attrs.lookup name
  contentStr _ := none
  contentBytes := WireNode.bytes
  childrenByTag node tag := node.children.filter fun c => c.tag = tag
  optionalChild node tag := node.children.find? fun c => c.tag = tag
  element attrs tags := .mk "error" attrs none (tags.map fun tag => .mk tag [] none [])
  binary attrs := .mk "error" attrs (some []) []
  getAttr_element _ _ _ := rfl
  getAttr_binary _ _ := rfl
  contentBytes_element _ _ := rfl
  contentBytes_binary _ := rfl
  childrenByTag_element attrs tags tag := by
    show ((tags.map _).filter _).length = tags.count tag
    induction tags with
    | nil => rfl
    | cons t tags ih =>
      rw [List.map_cons, List.filter_cons, List.count_cons]
      by_cases ht : t = tag
      · simp [ht, ih]
      · simp [ht, ih]
  optionalChild_element attrs tags tag h := by
    show (tags.map _).find? _ = none
    refine List.find?_eq_none.mpr fun c hc => ?_
    obtain ⟨t, ht, rfl⟩ := List.mem_map.mp hc
    simp only [decide_eq_true_eq]
    exact fun htag => h (htag ▸ ht)
  optionalChild_binary _ _ := rfl

/-- The equality of fields. -/
noncomputable def fieldEquality : FieldEquality := by
  classical
  exact ⟨fun a b => decide (a = b), of_decide_eq_true⟩

theorem fieldEquality_self (f : ParsedField) : fieldEquality.same f f = true := by
  classical
  exact decide_eq_true rfl

/-- A child of which the attribute `name` is read. -/
def namedChild (tag : String) : ParsedField :=
  { ParsedField.plain "child" tag with
    parserRequired := false
    children := some [ParsedField.plain "attrString" "name"] }

def codeField (literal : Option String) (least most : Option ℤ) : ParsedField :=
  { ParsedField.plain "attrInt" "code" with
    fieldType := .integer
    literalValue := literal
    intMin := least
    intMax := most }

/-- The arm for the code 400. -/
def badRequest (children : List ParsedField) : Arm :=
  (⟨"Bad", codeField (some "400") none none :: ParsedField.plain "attrString" "text" :: children,
      [⟨.tag, some "error", none, none⟩, ⟨.attr, some "code", some "400", none⟩]⟩,
    ⟨⟨some "Bad", some 400, none, none, none⟩, by simp [i64Min, i64Max], nofun, nofun,
      fun _ _ => ⟨nofun, nofun⟩⟩)

/-- The arm for the codes from 500. -/
def serverError : Arm :=
  (⟨"Fallback", [codeField none (some 500) (some 599), ParsedField.plain "attrString" "text"],
      [⟨.tag, some "error", none, none⟩]⟩,
    ⟨⟨some "Fallback", none, none, some 500, some 599⟩, nofun, by simp [i64Min, i64Max],
      by simp [i64Min, i64Max], nofun⟩)

def errorPayload (children : List ParsedField) : ParsedField :=
  { ParsedField.plain "" "error" with
    fieldType := .union
    sourcePath := some ["error"]
    unionVariants := some [(badRequest children).1, serverError.1] }

def errorVariant (children : List ParsedField) : ResponseVariant where
  fields := [{ ParsedField.plain "attrString" "type" with literalValue := some "error" },
    errorPayload children]
  errorArms := [(badRequest children).2, serverError.2]
  hasErrorEnvelope := false

/-- The name of the child `b` is read. -/
def earlierOutcome : ErrorOutcome fun _ => true where
  variant := errorVariant [namedChild "b"]
  payload := errorPayload [namedChild "b"]
  bounded := rfl
  reads := by decide +kernel

/-- The name of the child `a` is read, and that of the child `b` is not. -/
def laterOutcome : ErrorOutcome fun _ => true where
  variant := errorVariant [namedChild "a", namedChild "b"]
  payload := errorPayload [namedChild "a", namedChild "b"]
  bounded := rfl
  reads := by decide +kernel

/-- An error with a child `b` that has no name. -/
def shadowedNode : WireNode :=
  .mk "error" [("code", "400"), ("text", "bad")] none [.mk "b" [] none []]

theorem errorOutcomesCover_shadowed :
    errorOutcomesCover fieldEquality [earlierOutcome] laterOutcome = .ok true ∧
      hasText wireLibrary.toNodeReader shadowedNode = true ∧
      laterOutcome.accepts wireLibrary.toNodeReader shadowedNode = true ∧
      ∀ o ∈ [earlierOutcome], o.accepts wireLibrary.toNodeReader shadowedNode = false := by
  refine ⟨?_, by decide +kernel, by decide +kernel, ?_⟩
  · have hb : fieldEquality.same (namedChild "b") (namedChild "b") = true := fieldEquality_self _
    have hamong : childrenAmong fieldEquality (badRequest [namedChild "a", namedChild "b"]).1
        (badRequest [namedChild "b"]).1 = true := by
      show ([namedChild "b"].all fun c =>
        [namedChild "a", namedChild "b"].any fun other => fieldEquality.same other c) = true
      simp [hb]
    have hbad : coveringArms fieldEquality (badRequest [namedChild "a", namedChild "b"])
        [badRequest [namedChild "b"], serverError] = .ok [badRequest [namedChild "b"]] := by
      rw [coveringArms, if_neg (by decide +kernel), if_pos hamong, coveringArms,
        if_pos (by decide +kernel)]
      rfl
    have hserver : coveringArms fieldEquality serverError
        [badRequest [namedChild "b"], serverError] = .ok [serverError] := by
      rw [coveringArms, if_pos (by decide +kernel), coveringArms, if_neg (by decide +kernel),
        if_pos (show childrenAmong fieldEquality serverError.1 serverError.1 = true from rfl)]
      rfl
    show armsCover fieldEquality [badRequest [namedChild "b"], serverError]
      [badRequest [namedChild "a", namedChild "b"], serverError] = .ok true
    rw [armsCover, hbad, armsCover, hserver]
    decide +kernel
  · intro o ho
    obtain rfl := List.mem_singleton.mp ho
    decide +kernel

end Whatspec.Codegen.ErrorOutcomes

import Whatspec.Scan.MixinMerge

/-!
# Folding the same fragment a second time

A second fold matches a child by its tag, but a subtree that is appended whole may hold two children
of one tag; what the second of them says is then folded into the first.

* `mergeChildren_eq_self_iff`: a fragment that is `Covered` changes nothing;
* `Supplied`: what a node says is said where it is matched, by the node that was there or by those
  that are folded into it;
* **`merge_laws_iff`**: folding only adds, and a second fold changes nothing exactly when all nodes
  of the fragment are `Supplied`.
-/

namespace Whatspec.Scan

/-- What a node says of itself, some node of a list says. -/
structure Says (l : List WapChildNode) (x : WapChildNode) : Prop where
  attrs : ∀ a ∈ x.attrs, ∃ n ∈ l, a.name ∈ n.attrs.map WapAttrDef.name
  groups : ∀ g ∈ x.variantGroups, ∃ n ∈ l, g ∈ n.variantGroups
  repeats : x.repeats = true → ∃ n ∈ l, n.repeats = true
  content : x.content.isSome = true → ∃ n ∈ l, n.content.isSome = true
  bounds : x.bounded = true → ∃ n ∈ l, n.bounded = true

theorem says_foldl_iff (e : WapChildNode) (fs : List WapChildNode) (x : WapChildNode) :
    Says [fs.foldl mergeNode e] x ↔ Says (e :: fs) x := by
  have hattr := fun a : WapAttrDef => foldl_mergeNode_iff
    (P := fun n => a.name ∈ n.attrs.map WapAttrDef.name) (attr_mergeNode a.name) e fs
  have hgroup := fun g : WapVariantGroup WapChildNode => foldl_mergeNode_iff
    (P := fun n => g ∈ n.variantGroups) (group_mergeNode g) e fs
  have hrepeats := foldl_mergeNode_iff (P := fun n => n.repeats = true) repeats_mergeNode e fs
  have hcontent := foldl_mergeNode_iff (P := fun n => n.content.isSome = true)
    content_mergeNode e fs
  have hbounds := foldl_mergeNode_iff (P := fun n => n.bounded = true) bounded_mergeNode e fs
  constructor
  · rintro ⟨attrs, groups, repeats, content, bounds⟩
    simp only [List.mem_singleton, exists_eq_left] at attrs groups repeats content bounds
    exact ⟨fun a ha => (hattr a).mp (attrs a ha), fun g hg => (hgroup g).mp (groups g hg),
      fun h => hrepeats.mp (repeats h), fun h => hcontent.mp (content h),
      fun h => hbounds.mp (bounds h)⟩
  · rintro ⟨attrs, groups, repeats, content, bounds⟩
    refine ⟨fun a ha => ⟨_, List.mem_singleton_self _, (hattr a).mpr (attrs a ha)⟩,
      fun g hg => ⟨_, List.mem_singleton_self _, (hgroup g).mpr (groups g hg)⟩,
      fun h => ⟨_, List.mem_singleton_self _, hrepeats.mpr (repeats h)⟩,
      fun h => ⟨_, List.mem_singleton_self _, hcontent.mpr (content h)⟩,
      fun h => ⟨_, List.mem_singleton_self _, hbounds.mpr (bounds h)⟩⟩

/-! ### A fragment that changes nothing -/

theorem Grows.antisymm {l l' : List WapChildNode} (h : Grows l l') (h' : Grows l' l) : l = l' := by
  induction h with
  | nil added =>
    cases h'
    rfl
  | @cons e e' es es' tag presence argPath attrs groups repeats content bounds children rest
      ihChildren ihRest =>
    cases h' with
    | cons _ _ _ attrs' groups' repeats' content' bounds' children' rest' =>
      have hattrs : e.attrs = e'.attrs := attrs.eq_of_length_le attrs'.length_le
      have hgroups : e.variantGroups = e'.variantGroups :=
        groups.eq_of_length_le groups'.length_le
      have hrepeats : e.repeats = e'.repeats := Bool.eq_iff_iff.mpr ⟨repeats, repeats'⟩
      have hcontent : e.content = e'.content := by
        cases hc : e'.content with
        | none =>
          cases hd : e.content with
          | none => rfl
          | some d => rw [← hc, content (by rw [hd]; rfl), hd]
        | some c => rw [← hc, content' (by rw [hc]; rfl)]
      have hbounds : e.repeatMin = e'.repeatMin ∧ e.repeatMax = e'.repeatMax := by
        cases hb : e.bounded with
        | true => exact (bounds hb).imp Eq.symm Eq.symm
        | false =>
          cases hb' : e'.bounded with
          | true => exact bounds' hb'
          | false => simp_all [WapChildNode.bounded]
      have hnode : e = e' := by
        obtain ⟨tag, attrs, children, content, repeats, presence, least, most, path, groups⟩ := e
        cases e'
        simp_all
      rw [hnode, ihRest rest']

theorem mergeNode_eq_self_iff (e f : WapChildNode) :
    mergeNode e f = e ↔ Says [e] f ∧ mergeChildren e.children f.children = e.children := by
  have hattrs := addMissing_eq_self_iff same_name e.attrs f.attrs
  have hgroups := addMissing_eq_self_iff same_group e.variantGroups f.variantGroups
  rw [mergeNode_eq]
  constructor
  · intro h
    have hrepeats := congrArg WapChildNode.repeats h
    have hcontent := congrArg WapChildNode.content h
    have hleast := congrArg WapChildNode.repeatMin h
    have hmost := congrArg WapChildNode.repeatMax h
    dsimp only at hrepeats hcontent hleast hmost
    refine ⟨⟨fun a ha => ⟨e, by simp, hattrs.mp (congrArg WapChildNode.attrs h) a ha⟩,
      fun g hg => ⟨e, by simp, ?_⟩, fun hf => ⟨e, by simp, ?_⟩, fun hf => ⟨e, by simp, ?_⟩,
      fun hf => ⟨e, by simp, ?_⟩⟩, congrArg WapChildNode.children h⟩
    · simpa using hgroups.mp (congrArg WapChildNode.variantGroups h) g hg
    · rw [← hrepeats, hf, Bool.or_true]
    · rw [← hcontent, Option.isSome_or, hf, Bool.or_true]
    · cases he : e.bounded with
      | true => rfl
      | false =>
        rw [he] at hleast hmost
        rw [WapChildNode.bounded, ← hleast, ← hmost] at he
        exact he.symm.trans hf
  · rintro ⟨⟨attrs, groups, repeats, content, bounds⟩, hchildren⟩
    simp only [List.mem_singleton, exists_eq_left] at attrs groups repeats content bounds
    rw [hattrs.mpr attrs, hgroups.mpr (by simpa using groups), hchildren]
    have hcontent : e.content.or f.content = e.content := by
      cases he : e.content with
      | some c => rfl
      | none =>
        cases hf : f.content with
        | none => rfl
        | some c =>
          rw [he, hf] at content
          cases content rfl
    have hrepeats : (e.repeats || f.repeats) = e.repeats := by
      cases hf : f.repeats with
      | true => rw [repeats hf, Bool.or_true]
      | false => rw [Bool.or_false]
    have hbounds : (if e.bounded then e.repeatMin else f.repeatMin) = e.repeatMin ∧
        (if e.bounded then e.repeatMax else f.repeatMax) = e.repeatMax := by
      cases he : e.bounded with
      | true => exact ⟨rfl, rfl⟩
      | false =>
        cases hf : f.bounded with
        | true =>
          rw [bounds hf] at he
          cases he
        | false => simp_all [WapChildNode.bounded]
    rw [hcontent, hrepeats, hbounds.1, hbounds.2]
    cases e
    rfl

/-- A node brings nothing: it is matched, and what it and its children say is said. -/
inductive Covered : List WapChildNode → WapChildNode → Prop
  | intro {into : List WapChildNode} {f e : WapChildNode}
      (found : firstNamed into f.tag = some e) (told : Says [e] f)
      (children : ∀ c ∈ f.children, Covered e.children c) : Covered into f

theorem eq_self_of_one {from' : List WapChildNode}
    (h : ∀ f ∈ from', ∀ into, mergeChildren into [f] = into ↔ Covered into f)
    (into : List WapChildNode) :
    mergeChildren into from' = into ↔ ∀ f ∈ from', Covered into f := by
  induction from' generalizing into with
  | nil => simp [mergeChildren]
  | cons f rest ih =>
    rw [List.forall_mem_cons] at h ⊢
    rw [mergeChildren_cons]
    constructor
    · intro hself
      have hback := grows_mergeChildren (mergeChildren into [f]) rest
      rw [hself] at hback
      have hone : mergeChildren into [f] = into :=
        hback.antisymm (grows_mergeChildren into [f])
      rw [hone] at hself
      exact ⟨(h.1 into).mp hone, (ih h.2 into).mp hself⟩
    · rintro ⟨hf, hrest⟩
      rw [(h.1 into).mpr hf]
      exact (ih h.2 into).mpr hrest

theorem mergeChildren_one_eq_self_iff (f : WapChildNode) :
    ∀ into, mergeChildren into [f] = into ↔ Covered into f := by
  induction f using WapChildNode.induct with
  | node f ih =>
    intro into
    obtain ⟨above, e, below, rfl, habove, htag, hmerge⟩ | ⟨hnone, hmerge⟩ :=
      mergeChildren_one into f
    · have hnamed : firstNamed (above ++ e :: below) f.tag = some e := by
        have hmiss : above.find? (fun c => c.tag = f.tag) = none := by
          rw [List.find?_eq_none]
          exact fun y hy => by simpa using habove y hy
        rw [firstNamed, List.find?_append, hmiss, List.find?_cons]
        simp [htag]
      rw [hmerge, List.append_cancel_left_eq, List.cons.injEq, and_iff_left rfl,
        mergeNode_eq_self_iff, eq_self_of_one ih e.children]
      constructor
      · rintro ⟨htold, hchildren⟩
        exact ⟨hnamed, htold, hchildren⟩
      · rintro ⟨hnamed', htold, hchildren⟩
        obtain rfl := Option.some.inj (hnamed.symm.trans hnamed')
        exact ⟨htold, hchildren⟩
    · rw [hmerge]
      constructor
      · intro h
        simp at h
      · rintro ⟨hnamed, -, -⟩
        have htag := List.find?_some hnamed
        exact absurd (by simpa using htag) (hnone _ (List.mem_of_find?_eq_some hnamed))

/-- A fragment changes nothing exactly when all its nodes are covered. -/
theorem mergeChildren_eq_self_iff (into from' : List WapChildNode) :
    mergeChildren into from' = into ↔ ∀ f ∈ from', Covered into f :=
  eq_self_of_one (fun f _ => mergeChildren_one_eq_self_iff f) into

/-! ### A fragment that was folded -/

/-- What a node says is said where it is matched, by the node that was there or by those that are
folded into it, and so for its children. -/
inductive Supplied : List WapChildNode → List WapChildNode → WapChildNode → Prop
  | intro {into from' fs : List WapChildNode} {e x : WapChildNode}
      (folded : folded into from' x.tag = some (e, fs)) (told : Says (e :: fs) x)
      (children : ∀ c ∈ x.children,
        Supplied e.children (fs.flatMap WapChildNode.children) c) : Supplied into from' x

theorem covered_mergeChildren_iff (x : WapChildNode) : ∀ into from' : List WapChildNode,
    Covered (mergeChildren into from') x ↔ Supplied into from' x := by
  induction x using WapChildNode.induct with
  | node x ih =>
    intro into from'
    have hnamed := firstNamed_mergeChildren into from' x.tag
    constructor
    · rintro ⟨hn, htold, hchildren⟩
      rw [hn] at hnamed
      obtain ⟨⟨e, fs⟩, hfolded, rfl⟩ := Option.map_eq_some_iff.mp hnamed.symm
      refine ⟨hfolded, (says_foldl_iff e fs x).mp htold, fun c hc => ?_⟩
      have hcovered := hchildren c hc
      rw [foldl_mergeNode_children] at hcovered
      exact (ih c hc _ _).mp hcovered
    · rintro ⟨hfolded, htold, hchildren⟩
      rw [hfolded] at hnamed
      refine ⟨hnamed, (says_foldl_iff _ _ x).mpr htold, fun c hc => ?_⟩
      rw [foldl_mergeNode_children]
      exact (ih c hc _ _).mpr (hchildren c hc)

/-- **What folding a fragment does**: it only adds, the fragment's tags are there, and folding it
again changes nothing, exactly when what each node of the fragment says is said where the node is
matched. -/
theorem merge_laws_iff (into from' : List WapChildNode) :
    (Grows into (mergeChildren into from') ∧
      (∀ f ∈ from', Present (mergeChildren into from') f) ∧
      mergeChildren (mergeChildren into from') from' = mergeChildren into from') ↔
    ∀ f ∈ from', Supplied into from' f := by
  rw [and_iff_right (grows_mergeChildren into from'),
    and_iff_right (present_mergeChildren into from'), mergeChildren_eq_self_iff]
  exact forall₂_congr fun f _ => covered_mergeChildren_iff f into from'

/-- A fragment with one child `x`, which has two children `c`. -/
def twins : List WapChildNode :=
  let c : WapChildNode := { WapChildNode.default with tag := "c" }
  let a : WapAttrDef := ⟨none, "a", .string, none, true, none, none⟩
  [{ WapChildNode.default with tag := "x", children := [c, { c with attrs := [a] }] }]

/-- The second fold gives the first `c` the attribute of the second. -/
theorem remerge_changes :
    mergeChildren (mergeChildren [] twins) twins ≠ mergeChildren [] twins := by
  intro h
  have hcounts := congrArg (List.map fun n : WapChildNode =>
    n.children.map fun c => c.attrs.length) h
  revert hcounts
  decide

end Whatspec.Scan

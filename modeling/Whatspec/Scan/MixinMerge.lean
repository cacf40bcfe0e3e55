import Whatspec.Scan.Request
import Mathlib.Data.List.Infix

/-!
# Folding a fragment's children

What `mergeChildren` does to a request's children.

* `Grows`: everything that was there stays, in its order; `grows_mergeChildren`;
* `Present`: the tags of a fragment are there at their level; `present_mergeChildren`;
* `find_mergeChildren`: the first node of a tag is the one that was there, or the fragment's first,
  with the other nodes of that tag folded in.
-/

namespace Whatspec.Scan

/-- Induction over nodes: a node after its children. -/
@[elab_as_elim]
theorem WapChildNode.induct {motive : WapChildNode → Prop}
    (node : ∀ n : WapChildNode, (∀ c ∈ n.children, motive c) → motive n) :
    ∀ n : WapChildNode, motive n
  | ⟨tag, attrs, children, content, repeats, presence, least, most, path, groups⟩ =>
    node _ fun c hc =>
      have : sizeOf c < sizeOf children := List.sizeOf_lt_of_mem hc
      WapChildNode.induct node c

/-! ### Equality of groups -/

mutual

theorem WapChildNode.beq_iff : ∀ a b : WapChildNode, a.beq b = true ↔ a = b
  | ⟨tag, attrs, children, content, repeats, presence, least, most, path, groups⟩,
    ⟨tag', attrs', children', content', repeats', presence', least', most', path', groups'⟩ => by
    simp only [WapChildNode.beq, Bool.and_eq_true, decide_eq_true_eq, WapChildNode.mk.injEq,
      beqChildren_iff children children', beqGroups_iff groups groups']
    tauto

theorem beqChildren_iff : ∀ as bs : List WapChildNode, beqChildren as bs = true ↔ as = bs
  | [], [] => by simp [beqChildren]
  | [], _ :: _ => by simp [beqChildren]
  | _ :: _, [] => by simp [beqChildren]
  | a :: as, b :: bs => by
    simp only [beqChildren, Bool.and_eq_true, List.cons.injEq, WapChildNode.beq_iff a b,
      beqChildren_iff as bs]

theorem beqGroup_iff : ∀ a b : WapVariantGroup WapChildNode, beqGroup a b = true ↔ a = b
  | ⟨optional, variants⟩, ⟨optional', variants'⟩ => by
    simp only [beqGroup, Bool.and_eq_true, decide_eq_true_eq, WapVariantGroup.mk.injEq,
      beqVariants_iff variants variants']

theorem beqGroups_iff : ∀ as bs : List (WapVariantGroup WapChildNode),
    beqGroups as bs = true ↔ as = bs
  | [], [] => by simp [beqGroups]
  | [], _ :: _ => by simp [beqGroups]
  | _ :: _, [] => by simp [beqGroups]
  | a :: as, b :: bs => by
    simp only [beqGroups, Bool.and_eq_true, List.cons.injEq, beqGroup_iff a b, beqGroups_iff as bs]

theorem beqVariants_iff : ∀ as bs : List (WapVariant WapChildNode),
    beqVariants as bs = true ↔ as = bs
  | [], [] => by simp [beqVariants]
  | [], _ :: _ => by simp [beqVariants]
  | _ :: _, [] => by simp [beqVariants]
  | ⟨attrs, children⟩ :: as, ⟨attrs', children'⟩ :: bs => by
    simp only [beqVariants, Bool.and_eq_true, decide_eq_true_eq, List.cons.injEq,
      WapVariant.mk.injEq, beqChildren_iff children children', beqVariants_iff as bs]

end

/-! ### Adding what is missing -/

section AddMissing

variable {α κ : Type} {same : α → α → Bool} {key : α → κ}

theorem prefix_addMissing (into xs : List α) : into <+: addMissing same into xs := by
  induction xs generalizing into with
  | nil => exact List.prefix_rfl
  | cons x xs ih =>
    refine List.IsPrefix.trans ?_ (ih _)
    split
    · exact List.prefix_rfl
    · exact List.prefix_append into [x]

variable (hsame : ∀ x a, same x a = true ↔ key a = key x)

include hsame

theorem any_same (into : List α) (x : α) : into.any (same x) = true ↔ key x ∈ into.map key := by
  simp only [List.any_eq_true, hsame, List.mem_map]

/-- The keys that are there in the end. -/
theorem mem_keys_addMissing (into xs : List α) (k : κ) :
    k ∈ (addMissing same into xs).map key ↔ k ∈ into.map key ∨ k ∈ xs.map key := by
  induction xs generalizing into with
  | nil => simp [addMissing]
  | cons x xs ih =>
    rw [addMissing, ih]
    split
    · next hthere =>
      rw [any_same hsame] at hthere
      rw [List.map_cons, List.mem_cons]
      refine or_congr_right' fun hk => (or_iff_right ?_).symm
      rintro rfl
      exact hk hthere
    · rw [List.map_append, List.map_cons, List.map_cons, List.mem_append, List.mem_cons, or_assoc]
      simp

theorem addMissing_eq_self_iff (into xs : List α) :
    addMissing same into xs = into ↔ ∀ x ∈ xs, key x ∈ into.map key := by
  induction xs generalizing into with
  | nil => simp [addMissing]
  | cons x xs ih =>
    rw [addMissing, List.forall_mem_cons, ← any_same hsame]
    split
    · next hthere =>
      rw [ih]
      exact ⟨fun h => ⟨hthere, h⟩, And.right⟩
    · next hthere =>
      refine ⟨fun h => ?_, fun h => absurd h.1 hthere⟩
      have hlength := (prefix_addMissing (into ++ [x]) xs : _ <+: addMissing same _ xs).length_le
      rw [h, List.length_append, List.length_singleton] at hlength
      omega

end AddMissing

theorem same_name (fa a : WapAttrDef) : decide (a.name = fa.name) = true ↔ a.name = fa.name :=
  decide_eq_true_iff

theorem same_group (g g' : WapVariantGroup WapChildNode) : beqGroup g' g = true ↔ id g' = id g :=
  beqGroup_iff g' g

/-! ### One node into another -/

/-- Whether a node says how often it repeats. -/
def WapChildNode.bounded (n : WapChildNode) : Bool := n.repeatMin.isSome || n.repeatMax.isSome

theorem mergeNode_eq (e f : WapChildNode) : mergeNode e f =
    { tag := e.tag
      attrs := addMissing (fun fa a => decide (a.name = fa.name)) e.attrs f.attrs
      children := mergeChildren e.children f.children
      content := e.content.or f.content
      repeats := e.repeats || f.repeats
      presence := e.presence
      repeatMin := if e.bounded then e.repeatMin else f.repeatMin
      repeatMax := if e.bounded then e.repeatMax else f.repeatMax
      argPath := e.argPath
      variantGroups :=
        addMissing (fun g g' => beqGroup g' g) e.variantGroups f.variantGroups } := by
  obtain ⟨tag, attrs, children, content, repeats, presence, least, most, path, groups⟩ := e
  cases f
  unfold mergeNode adoptBuilderFacts WapChildNode.bounded
  cases content <;> cases least <;> cases most <;> simp

/-! ### One node after the other -/

theorem modifyFirst_eq_none {α : Type} {p : α → Bool} {f : α → α} {l : List α} :
    modifyFirst p f l = none ↔ ∀ x ∈ l, p x = false := by
  induction l with
  | nil => simp [modifyFirst]
  | cons x xs ih =>
    rw [modifyFirst, List.forall_mem_cons]
    split
    · next hx => simp [hx]
    · next hx =>
      rw [Option.map_eq_none_iff, ih]
      simp [hx]

theorem modifyFirst_eq_some {α : Type} {p : α → Bool} {f : α → α} {l l' : List α}
    (h : modifyFirst p f l = some l') :
    ∃ above x below, l = above ++ x :: below ∧ (∀ y ∈ above, p y = false) ∧ p x = true ∧
      l' = above ++ f x :: below := by
  induction l generalizing l' with
  | nil => cases h
  | cons x xs ih =>
    rw [modifyFirst] at h
    split at h
    · next hx =>
      cases h
      exact ⟨[], x, xs, rfl, nofun, hx, rfl⟩
    · next hx =>
      obtain ⟨rest, hrest, rfl⟩ := Option.map_eq_some_iff.mp h
      obtain ⟨above, y, below, rfl, habove, hy, rfl⟩ := ih hrest
      refine ⟨x :: above, y, below, rfl, ?_, hy, rfl⟩
      rw [List.forall_mem_cons]
      exact ⟨by simpa using hx, habove⟩

theorem mergeChildren_cons (into : List WapChildNode) (f : WapChildNode)
    (rest : List WapChildNode) :
    mergeChildren into (f :: rest) = mergeChildren (mergeChildren into [f]) rest := by
  rw [mergeChildren, mergeChildren]
  split
  · rw [mergeChildren]
  · rw [mergeChildren]

theorem mergeChildren_append (into from₁ from₂ : List WapChildNode) :
    mergeChildren into (from₁ ++ from₂) = mergeChildren (mergeChildren into from₁) from₂ := by
  induction from₁ generalizing into with
  | nil => rw [List.nil_append, mergeChildren]
  | cons f rest ih => rw [List.cons_append, mergeChildren_cons, ih, ← mergeChildren_cons]

/-- A node is folded into the first of its tag, or comes last. -/
theorem mergeChildren_one (into : List WapChildNode) (f : WapChildNode) :
    (∃ above e below, into = above ++ e :: below ∧ (∀ y ∈ above, y.tag ≠ f.tag) ∧ e.tag = f.tag ∧
      mergeChildren into [f] = above ++ mergeNode e f :: below) ∨
    ((∀ y ∈ into, y.tag ≠ f.tag) ∧ mergeChildren into [f] = into ++ [f]) := by
  rw [mergeChildren]
  split
  · next into' h =>
    obtain ⟨above, e, below, rfl, habove, he, rfl⟩ := modifyFirst_eq_some h
    refine .inl ⟨above, e, below, rfl, fun y hy => ?_, by simpa using he, rfl⟩
    simpa using habove y hy
  · next h =>
    exact .inr ⟨fun y hy => by simpa using modifyFirst_eq_none.mp h y hy, rfl⟩

/-! ### What was there stays -/

/-- Every node of the first list is in the second, in its order, with what it says; only what it
left open may be said, and what is new comes behind. -/
inductive Grows : List WapChildNode → List WapChildNode → Prop
  | nil (added : List WapChildNode) : Grows [] added
  | cons {e e' : WapChildNode} {es es' : List WapChildNode} (tag : e'.tag = e.tag)
      (presence : e'.presence = e.presence) (argPath : e'.argPath = e.argPath)
      (attrs : e.attrs <+: e'.attrs) (groups : e.variantGroups <+: e'.variantGroups)
      (repeats : e.repeats = true → e'.repeats = true)
      (content : e.content.isSome → e'.content = e.content)
      (bounds : e.bounded = true → e'.repeatMin = e.repeatMin ∧ e'.repeatMax = e.repeatMax)
      (children : Grows e.children e'.children) (rest : Grows es es') : Grows (e :: es) (e' :: es')

namespace Grows

theorem refl_of {into : List WapChildNode} (h : ∀ e ∈ into, Grows e.children e.children) :
    Grows into into := by
  induction into with
  | nil => exact .nil []
  | cons e es ih =>
    rw [List.forall_mem_cons] at h
    exact .cons rfl rfl rfl List.prefix_rfl List.prefix_rfl id (fun _ => rfl) (fun _ => ⟨rfl, rfl⟩)
      h.1 (ih h.2)

theorem refl_node (n : WapChildNode) : Grows n.children n.children := by
  induction n using WapChildNode.induct with
  | node n ih => exact refl_of ih

theorem refl (into : List WapChildNode) : Grows into into := refl_of fun e _ => refl_node e

theorem trans {l₁ l₂ l₃ : List WapChildNode} (h : Grows l₁ l₂) (h' : Grows l₂ l₃) :
    Grows l₁ l₃ := by
  induction h generalizing l₃ with
  | nil added => exact .nil l₃
  | cons tag presence argPath attrs groups repeats content bounds children rest ihChildren ihRest =>
    cases h' with
    | cons tag' presence' argPath' attrs' groups' repeats' content' bounds' children' rest' =>
      refine .cons (tag'.trans tag) (presence'.trans presence) (argPath'.trans argPath)
        (attrs.trans attrs') (groups.trans groups') (repeats' ∘ repeats) (fun h => ?_)
        (fun h => ?_) (ihChildren children') (ihRest rest')
      · have heq := content h
        rw [← heq] at h
        exact (content' h).trans heq
      · obtain ⟨hleast, hmost⟩ := bounds h
        rw [WapChildNode.bounded, ← hleast, ← hmost] at h
        obtain ⟨hleast', hmost'⟩ := bounds' h
        exact ⟨hleast'.trans hleast, hmost'.trans hmost⟩

theorem append_right (into added : List WapChildNode) : Grows into (into ++ added) := by
  induction into with
  | nil => exact .nil _
  | cons e es ih =>
    exact .cons rfl rfl rfl List.prefix_rfl List.prefix_rfl id (fun _ => rfl) (fun _ => ⟨rfl, rfl⟩)
      (refl e.children) ih

theorem append_left (above : List WapChildNode) {l l' : List WapChildNode} (h : Grows l l') :
    Grows (above ++ l) (above ++ l') := by
  induction above with
  | nil => exact h
  | cons e es ih =>
    exact .cons rfl rfl rfl List.prefix_rfl List.prefix_rfl id (fun _ => rfl) (fun _ => ⟨rfl, rfl⟩)
      (refl e.children) ih

theorem mergeNode (e f : WapChildNode) (below : List WapChildNode)
    (h : Grows e.children (mergeChildren e.children f.children)) :
    Grows (e :: below) (Scan.mergeNode e f :: below) := by
  rw [mergeNode_eq]
  refine .cons rfl rfl rfl (prefix_addMissing ..) (prefix_addMissing ..) (fun h => ?_) (fun h => ?_)
    (fun h => ?_) h (refl below)
  · rw [h, Bool.true_or]
  · obtain ⟨c, hc⟩ := Option.isSome_iff_exists.mp h
    rw [hc]
    rfl
  · rw [if_pos h, if_pos h]
    exact ⟨rfl, rfl⟩

end Grows

/-- Folding one node after the other. -/
theorem grows_of_one {from' : List WapChildNode}
    (h : ∀ f ∈ from', ∀ into, Grows into (mergeChildren into [f])) (into : List WapChildNode) :
    Grows into (mergeChildren into from') := by
  induction from' generalizing into with
  | nil =>
    rw [mergeChildren]
    exact .refl into
  | cons f rest ih =>
    rw [List.forall_mem_cons] at h
    rw [mergeChildren_cons]
    exact (h.1 into).trans (ih h.2 _)

theorem grows_mergeChildren_one (f : WapChildNode) :
    ∀ into, Grows into (mergeChildren into [f]) := by
  induction f using WapChildNode.induct with
  | node f ih =>
    intro into
    obtain ⟨above, e, below, rfl, -, -, hmerge⟩ | ⟨-, hmerge⟩ := mergeChildren_one into f
    · rw [hmerge]
      exact (Grows.mergeNode e f below (grows_of_one ih e.children)).append_left above
    · rw [hmerge]
      exact .append_right into [f]

/-- **Folding only adds.** -/
theorem grows_mergeChildren (into from' : List WapChildNode) :
    Grows into (mergeChildren into from') :=
  grows_of_one (fun f _ => grows_mergeChildren_one f) into

/-! ### The tags of a fragment are there -/

/-- The tag of a node is there, and below it the tags of its children. -/
inductive Present : List WapChildNode → WapChildNode → Prop
  | intro {into : List WapChildNode} {f e : WapChildNode} (mem : e ∈ into) (tag : e.tag = f.tag)
      (children : ∀ c ∈ f.children, Present e.children c) : Present into f

theorem Grows.exists_mem {into into' : List WapChildNode} (h : Grows into into')
    {e : WapChildNode} (he : e ∈ into) :
    ∃ e' ∈ into', e'.tag = e.tag ∧ Grows e.children e'.children := by
  induction h with
  | nil => cases he
  | @cons d d' ds ds' tag _ _ _ _ _ _ _ children _ _ ih =>
    obtain rfl | he := List.mem_cons.mp he
    · exact ⟨d', List.mem_cons_self, tag, children⟩
    · obtain ⟨e', he', h⟩ := ih he
      exact ⟨e', List.mem_cons_of_mem _ he', h⟩

theorem Present.grows {into into' : List WapChildNode} {f : WapChildNode} (h : Present into f)
    (hgrows : Grows into into') : Present into' f := by
  induction h generalizing into' with
  | intro mem tag _ ih =>
    obtain ⟨e', he', htag, hchildren⟩ := hgrows.exists_mem mem
    exact ⟨he', htag.trans tag, fun c hc => ih c hc hchildren⟩

theorem Present.self {into : List WapChildNode} {f : WapChildNode} (h : f ∈ into) :
    Present into f := by
  induction f using WapChildNode.induct generalizing into with
  | node f ih => exact ⟨h, rfl, fun c hc => ih c hc hc⟩

theorem present_of_one {from' : List WapChildNode}
    (h : ∀ f ∈ from', ∀ into, Present (mergeChildren into [f]) f) (into : List WapChildNode) :
    ∀ f ∈ from', Present (mergeChildren into from') f := by
  induction from' generalizing into with
  | nil => exact nofun
  | cons f rest ih =>
    rw [List.forall_mem_cons] at h
    rw [mergeChildren_cons, List.forall_mem_cons]
    exact ⟨(h.1 into).grows (grows_mergeChildren _ rest), ih h.2 _⟩

theorem present_mergeChildren_one (f : WapChildNode) :
    ∀ into, Present (mergeChildren into [f]) f := by
  induction f using WapChildNode.induct with
  | node f ih =>
    intro into
    obtain ⟨above, e, below, rfl, -, htag, hmerge⟩ | ⟨-, hmerge⟩ := mergeChildren_one into f
    · rw [hmerge, mergeNode_eq]
      exact ⟨List.mem_append_right above List.mem_cons_self, htag,
        present_of_one ih e.children⟩
    · rw [hmerge]
      exact .self (List.mem_append_right into (List.mem_singleton_self f))

/-- Every tag of the fragment is there at its level. -/
theorem present_mergeChildren (into from' : List WapChildNode) :
    ∀ f ∈ from', Present (mergeChildren into from') f :=
  present_of_one (fun f _ => present_mergeChildren_one f) into

/-! ### The first node of a tag -/

/-- The node that is matched for a tag. -/
def firstNamed (into : List WapChildNode) (tag : String) : Option WapChildNode :=
  into.find? fun c => c.tag = tag

/-- The nodes of a tag that a fragment brings. -/
def brought (from' : List WapChildNode) (tag : String) : List WapChildNode :=
  from'.filter fun c => c.tag = tag

/-- The node of a tag that others are folded into, and those others. -/
def folded (into from' : List WapChildNode) (tag : String) :
    Option (WapChildNode × List WapChildNode) :=
  match firstNamed into tag, brought from' tag with
  | some e, fs => some (e, fs)
  | none, f :: fs => some (f, fs)
  | none, [] => none

theorem firstNamed_one (into : List WapChildNode) (f : WapChildNode) (tag : String) :
    firstNamed (mergeChildren into [f]) tag =
      if f.tag = tag then some ((firstNamed into tag).elim f fun e => mergeNode e f)
      else firstNamed into tag := by
  obtain ⟨above, e, below, rfl, habove, htag, hmerge⟩ | ⟨hnone, hmerge⟩ := mergeChildren_one into f
  · have hkept : (mergeNode e f).tag = e.tag := by rw [mergeNode_eq]
    rw [hmerge, firstNamed, firstNamed, List.find?_append, List.find?_append, List.find?_cons,
      List.find?_cons, hkept, htag]
    by_cases ht : f.tag = tag
    · have hmiss : above.find? (fun c => c.tag = tag) = none := by
        rw [List.find?_eq_none]
        exact fun y hy => by simpa [← ht] using habove y hy
      simp [ht, hmiss]
    · simp [ht]
  · rw [hmerge, firstNamed, firstNamed, List.find?_append, List.find?_cons]
    by_cases ht : f.tag = tag
    · have hmiss : into.find? (fun c => c.tag = tag) = none := by
        rw [List.find?_eq_none]
        exact fun y hy => by simpa [← ht] using hnone y hy
      simp [ht, hmiss]
    · simp [ht]

theorem firstNamed_mergeChildren (into from' : List WapChildNode) (tag : String) :
    firstNamed (mergeChildren into from') tag =
      (folded into from' tag).map fun p => p.2.foldl mergeNode p.1 := by
  induction from' generalizing into with
  | nil =>
    rw [mergeChildren, folded, brought]
    cases firstNamed into tag <;> rfl
  | cons f rest ih =>
    rw [mergeChildren_cons, ih, folded, folded, firstNamed_one, brought, brought, List.filter_cons]
    by_cases ht : f.tag = tag
    · rw [if_pos ht, if_pos (by simpa using ht)]
      cases firstNamed into tag <;> rfl
    · rw [if_neg ht, if_neg (by simpa using ht)]

/-- What folding two nodes unites, folding a list of them unites. -/
theorem foldl_mergeNode_iff {P : WapChildNode → Prop}
    (hP : ∀ e f, P (mergeNode e f) ↔ P e ∨ P f) (e : WapChildNode) (fs : List WapChildNode) :
    P (fs.foldl mergeNode e) ↔ ∃ n ∈ e :: fs, P n := by
  induction fs generalizing e with
  | nil => simp
  | cons f fs ih =>
    rw [List.foldl_cons, ih]
    simp only [List.exists_mem_cons_iff, hP, or_assoc]

theorem foldl_mergeNode_children (e : WapChildNode) (fs : List WapChildNode) :
    (fs.foldl mergeNode e).children =
      mergeChildren e.children (fs.flatMap WapChildNode.children) := by
  induction fs generalizing e with
  | nil =>
    rw [List.flatMap_nil, mergeChildren]
    rfl
  | cons f fs ih => rw [List.foldl_cons, ih, List.flatMap_cons, mergeChildren_append, mergeNode_eq]

theorem attr_mergeNode (name : String) (e f : WapChildNode) :
    name ∈ (mergeNode e f).attrs.map WapAttrDef.name ↔
      name ∈ e.attrs.map WapAttrDef.name ∨ name ∈ f.attrs.map WapAttrDef.name := by
  rw [mergeNode_eq]
  exact mem_keys_addMissing same_name _ _ name

theorem group_mergeNode (g : WapVariantGroup WapChildNode) (e f : WapChildNode) :
    g ∈ (mergeNode e f).variantGroups ↔ g ∈ e.variantGroups ∨ g ∈ f.variantGroups := by
  rw [mergeNode_eq]
  have hmem := mem_keys_addMissing same_group e.variantGroups f.variantGroups g
  simpa only [List.map_id] using hmem

theorem repeats_mergeNode (e f : WapChildNode) :
    (mergeNode e f).repeats = true ↔ e.repeats = true ∨ f.repeats = true := by
  rw [mergeNode_eq, Bool.or_eq_true]

theorem content_mergeNode (e f : WapChildNode) :
    (mergeNode e f).content.isSome = true ↔ e.content.isSome = true ∨ f.content.isSome = true := by
  rw [mergeNode_eq, Option.isSome_or, Bool.or_eq_true]

theorem bounded_mergeNode (e f : WapChildNode) :
    (mergeNode e f).bounded = true ↔ e.bounded = true ∨ f.bounded = true := by
  rw [mergeNode_eq]
  cases he : e.bounded with
  | true => simpa [WapChildNode.bounded] using he
  | false => simp [WapChildNode.bounded]

end Whatspec.Scan

import Mathlib.Algebra.GroupWithZero.Nat
import Mathlib.Algebra.Order.BigOperators.Group.List
import Whatspec.Scan.MixinMerge

/-!
# Counting what a fold adds

`countRecoveredFields` looks at a fragment and at the children it is going to be folded into.  It
counts every node of the fragment against the same children, while the fold sees those that the
nodes before it left.

* **`mergeChildren_count_iff`**: the fold adds as much exactly when no two entries of the fragment are
  folded into one.
-/

namespace Whatspec.Scan

/-! ### Entries -/

mutual

/-- The tags and attributes of a subtree, without the node's own tag. -/
def subtreeFieldCount : WapChildNode → ℕ
  | ⟨_, attrs, children, _, _, _, _, _, _, groups⟩ =>
    attrs.length + groupsFieldCount groups + childrenFieldCount children

def childrenFieldCount : List WapChildNode → ℕ
  | [] => 0
  | c :: cs => 1 + subtreeFieldCount c + childrenFieldCount cs

def groupsFieldCount : List (WapVariantGroup WapChildNode) → ℕ
  | [] => 0
  | ⟨_, variants⟩ :: gs => variantsFieldCount variants + groupsFieldCount gs

def variantsFieldCount : List (WapVariant WapChildNode) → ℕ
  | [] => 0
  | ⟨attrs, children⟩ :: vs => attrs.length + childrenFieldCount children + variantsFieldCount vs

end

/-- The attributes, and what is below, in all variants of a group. -/
def variantGroupFieldCount (g : WapVariantGroup WapChildNode) : ℕ := variantsFieldCount g.variants

mutual

/-- What a node brings to the node of its tag. -/
def countRecoveredNode (existing : WapChildNode) : WapChildNode → ℕ
  | ⟨_, attrs, children, _, _, _, _, _, _, groups⟩ =>
    (attrs.filter fun fa => !existing.attrs.any fun a => decide (a.name = fa.name)).length +
      countRecoveredFields existing.children children +
      ((groups.filter fun g => !existing.variantGroups.any fun g' =>
        beqGroup g' g).map variantGroupFieldCount).sum

/-- The entries that are absent. -/
def countRecoveredFields (into : List WapChildNode) : List WapChildNode → ℕ
  | [] => 0
  | fc :: rest =>
    (match firstNamed into fc.tag with
      | some existing => countRecoveredNode existing fc
      | none => 1 + subtreeFieldCount fc) + countRecoveredFields into rest

end

/-- What one node brings. -/
def countOne (into : List WapChildNode) (f : WapChildNode) : ℕ :=
  match firstNamed into f.tag with
  | some existing => countRecoveredNode existing f
  | none => 1 + subtreeFieldCount f

theorem countRecoveredFields_eq (into from' : List WapChildNode) :
    countRecoveredFields into from' = (from'.map (countOne into)).sum := by
  induction from' with
  | nil => rfl
  | cons f rest ih => rw [countRecoveredFields, ih, List.map_cons, List.sum_cons, countOne]

theorem childrenFieldCount_eq (cs : List WapChildNode) :
    childrenFieldCount cs = (cs.map fun c => 1 + subtreeFieldCount c).sum := by
  induction cs with
  | nil => rfl
  | cons c cs ih => rw [childrenFieldCount, ih, List.map_cons, List.sum_cons]

theorem groupsFieldCount_eq (gs : List (WapVariantGroup WapChildNode)) :
    groupsFieldCount gs = (gs.map variantGroupFieldCount).sum := by
  induction gs with
  | nil => rfl
  | cons g gs ih =>
    rw [groupsFieldCount, ih, List.map_cons, List.sum_cons, variantGroupFieldCount]

theorem subtreeFieldCount_eq (n : WapChildNode) : subtreeFieldCount n =
    (n.attrs.map fun _ => 1).sum + (n.variantGroups.map variantGroupFieldCount).sum +
      childrenFieldCount n.children := by
  obtain ⟨tag, attrs, children, content, repeats, presence, least, most, path, groups⟩ := n
  rw [subtreeFieldCount, groupsFieldCount_eq]
  simp

/-! ### Adding what is missing -/

section Weights

variable {α κ : Type} {same : α → α → Bool} {key : α → κ}

/-- The items that are not there and weigh something. -/
def weighing (same : α → α → Bool) (w : α → ℕ) (into xs : List α) : List α :=
  xs.filter fun x => !into.any (same x) && w x ≠ 0

theorem sum_filter_le (w : α → ℕ) (p : α → Bool) (xs : List α) :
    ((xs.filter p).map w).sum ≤ (xs.map w).sum ∧
      (((xs.filter p).map w).sum = (xs.map w).sum ↔ ∀ x ∈ xs, w x ≠ 0 → p x = true) := by
  induction xs with
  | nil => simp
  | cons x xs ih =>
    obtain ⟨hle, hiff⟩ := ih
    rw [List.filter_cons, List.forall_mem_cons, List.map_cons, List.sum_cons]
    cases hp : p x with
    | true =>
      simp only [if_true, List.map_cons, List.sum_cons]
      refine ⟨by omega, ?_⟩
      rw [Nat.add_left_cancel_iff, hiff]
      simp
    | false =>
      simp only [Bool.false_eq_true, if_false, imp_false, not_not]
      refine ⟨by omega, ?_⟩
      rw [← hiff]
      omega

theorem mem_weighing {w : α → ℕ} {into xs : List α} {x : α} :
    x ∈ weighing same w into xs ↔ x ∈ xs ∧ into.any (same x) = false ∧ w x ≠ 0 := by
  simp [weighing]

/-- What weighs nothing does not count. -/
theorem sum_filter_weighing (w : α → ℕ) (into xs : List α) :
    ((xs.filter fun x => !into.any (same x)).map w).sum =
      ((weighing same w into xs).map w).sum := by
  have hsplit : weighing same w into xs =
      (xs.filter fun x => !into.any (same x)).filter fun x => w x ≠ 0 := by
    rw [List.filter_filter, weighing]
    exact List.filter_congr fun x _ => Bool.and_comm ..
  rw [hsplit]
  exact ((sum_filter_le w _ _).2.mpr fun x _ hx => by simpa using hx).symm

variable (hsame : ∀ x a, same x a = true ↔ key a = key x)

include hsame

/-- The weight of what is there in the end. -/
theorem sum_addMissing {w : α → ℕ} (hw : ∀ x y, key x = key y → w x = w y) (into xs : List α) :
    ((addMissing same into xs).map w).sum ≤
        (into.map w).sum + ((weighing same w into xs).map w).sum ∧
      (((addMissing same into xs).map w).sum =
        (into.map w).sum + ((weighing same w into xs).map w).sum ↔
          ((weighing same w into xs).map key).Nodup) := by
  induction xs generalizing into with
  | nil => simp [addMissing, weighing]
  | cons x xs ih =>
    rw [addMissing]
    cases hx : into.any (same x) with
    | true =>
      have hskip : weighing same w into (x :: xs) = weighing same w into xs := by
        rw [weighing, List.filter_cons_of_neg (by simp [hx])]
        rfl
      rw [if_pos rfl, hskip]
      exact ih into
    | false =>
      rw [if_neg (by simp)]
      obtain ⟨hle, hiff⟩ := ih (into ++ [x])
      have hrest : weighing same w (into ++ [x]) xs =
          (weighing same w into xs).filter fun y => !same y x := by
        rw [weighing, weighing, List.filter_filter]
        refine List.filter_congr fun y _ => ?_
        simp only [List.any_append, List.any_cons, List.any_nil, Bool.or_false, Bool.not_or]
        rw [← Bool.and_assoc, Bool.and_comm (!same y x)]
      have hinto : ((into ++ [x]).map w).sum = (into.map w).sum + w x := by simp
      rw [hinto, hrest] at hle hiff
      obtain ⟨hfilter, hkeeps⟩ := sum_filter_le w (fun y => !same y x) (weighing same w into xs)
      have hall : (∀ y ∈ weighing same w into xs, w y ≠ 0 → (!same y x) = true) ↔
          key x ∉ (weighing same w into xs).map key := by
        simp only [List.mem_map, not_exists, not_and, Bool.not_eq_true']
        refine forall₂_congr fun y hy => ⟨fun h heq => ?_, fun h _ => ?_⟩
        · have hyes := (hsame y x).mpr heq.symm
          rw [h (mem_weighing.mp hy).2.2] at hyes
          cases hyes
        · cases hyes : same y x with
          | false => rfl
          | true => exact absurd ((hsame y x).mp hyes).symm h
      by_cases hzero : w x = 0
      · have hskip : weighing same w into (x :: xs) = weighing same w into xs := by
          rw [weighing, List.filter_cons_of_neg (by simp [hzero])]
          rfl
        have hsame' : (weighing same w into xs).filter (fun y => !same y x) =
            weighing same w into xs := by
          rw [List.filter_eq_self]
          intro y hy
          cases hyes : same y x with
          | false => rfl
          | true =>
            exact absurd (hw _ _ ((hsame y x).mp hyes) ▸ hzero) (mem_weighing.mp hy).2.2
        rw [hsame', hzero, Nat.add_zero] at hle hiff
        rw [hskip]
        exact ⟨hle, hiff⟩
      · have htake : weighing same w into (x :: xs) = x :: weighing same w into xs := by
          rw [weighing, List.filter_cons_of_pos (by simp [hx, hzero])]
          rfl
        rw [htake, List.map_cons, List.sum_cons, List.map_cons, List.nodup_cons]
        refine ⟨by omega, ⟨fun heq => ?_, fun hnew => ?_⟩⟩
        · have hfull := hkeeps.mp (by omega)
          have hself : (weighing same w into xs).filter (fun y => !same y x) =
              weighing same w into xs :=
            List.filter_eq_self.mpr fun y hy => hfull y hy (mem_weighing.mp hy).2.2
          rw [hself] at hiff
          exact ⟨hall.mp hfull, hiff.mp (by omega)⟩
        · obtain ⟨hnot, hnodup⟩ := hnew
          have hfull := hall.mpr hnot
          have hself : (weighing same w into xs).filter (fun y => !same y x) =
              weighing same w into xs :=
            List.filter_eq_self.mpr fun y hy => hfull y hy (mem_weighing.mp hy).2.2
          rw [hself] at hiff
          have heq := hiff.mpr hnodup
          omega

end Weights

theorem sum_map_le {α : Type} {w w' : α → ℕ} {xs : List α} (h : ∀ x ∈ xs, w' x ≤ w x) :
    (xs.map w').sum ≤ (xs.map w).sum ∧
      ((xs.map w').sum = (xs.map w).sum ↔ ∀ x ∈ xs, w' x = w x) := by
  induction xs with
  | nil => simp
  | cons x xs ih =>
    rw [List.forall_mem_cons] at h
    obtain ⟨hle, hiff⟩ := ih h.2
    rw [List.forall_mem_cons, List.map_cons, List.map_cons, List.sum_cons, List.sum_cons, ← hiff]
    omega

/-! ### What a node brings -/

/-- The attributes that are not there. -/
def newAttrs (e f : WapChildNode) : List WapAttrDef :=
  weighing (fun fa a => decide (a.name = fa.name)) (fun _ => 1) e.attrs f.attrs

/-- The groups that are not there and have an entry. -/
def newGroups (e f : WapChildNode) : List (WapVariantGroup WapChildNode) :=
  weighing (fun g g' => beqGroup g' g) variantGroupFieldCount e.variantGroups f.variantGroups

theorem any_name (attrs : List WapAttrDef) (b : WapAttrDef) :
    (attrs.any fun a => decide (a.name = b.name)) = true ↔ b.name ∈ attrs.map WapAttrDef.name :=
  any_same same_name attrs b

theorem any_group (groups : List (WapVariantGroup WapChildNode))
    (g : WapVariantGroup WapChildNode) :
    (groups.any fun g' => beqGroup g' g) = true ↔ g ∈ groups := by
  simpa using any_same same_group groups g

theorem mem_newAttrs {e f : WapChildNode} {a : WapAttrDef} :
    a ∈ newAttrs e f ↔ a ∈ f.attrs ∧ a.name ∉ e.attrs.map WapAttrDef.name := by
  rw [newAttrs, mem_weighing, ← any_name, Bool.not_eq_true]
  exact and_congr_right fun _ => and_iff_left one_ne_zero

theorem mem_newGroups {e f : WapChildNode} {g : WapVariantGroup WapChildNode} :
    g ∈ newGroups e f ↔ g ∈ f.variantGroups ∧ g ∉ e.variantGroups ∧
      variantGroupFieldCount g ≠ 0 := by
  rw [newGroups, mem_weighing, ← any_group e.variantGroups, Bool.not_eq_true]

theorem countRecoveredNode_eq (e f : WapChildNode) : countRecoveredNode e f =
    ((newAttrs e f).map fun _ => 1).sum + ((newGroups e f).map variantGroupFieldCount).sum +
      (f.children.map (countOne e.children)).sum := by
  obtain ⟨tag, attrs, children, content, repeats, presence, least, most, path, groups⟩ := f
  have hlength : ∀ as : List WapAttrDef, (as.map fun _ => 1).sum = as.length := fun as => by simp
  rw [countRecoveredNode, countRecoveredFields_eq, newAttrs, newGroups, ← sum_filter_weighing,
    ← sum_filter_weighing, hlength, Nat.add_right_comm]

/-- A node brings no more than it holds. -/
theorem countRecoveredNode_le (f : WapChildNode) :
    ∀ e, countRecoveredNode e f ≤ subtreeFieldCount f := by
  induction f using WapChildNode.induct with
  | node f ih =>
    intro e
    have hone : ∀ c ∈ f.children, countOne e.children c ≤ 1 + subtreeFieldCount c := by
      intro c hc
      rw [countOne]
      split
      · next d _ =>
        have hd := ih c hc d
        omega
      · exact le_rfl
    have hchildren := (sum_map_le hone).1
    have hattrs : ((newAttrs e f).map fun _ => 1).sum ≤ (f.attrs.map fun _ => 1).sum :=
      (sum_filter_le (fun _ => 1) _ f.attrs).1
    have hgroups : ((newGroups e f).map variantGroupFieldCount).sum ≤
        (f.variantGroups.map variantGroupFieldCount).sum :=
      (sum_filter_le variantGroupFieldCount _ f.variantGroups).1
    rw [countRecoveredNode_eq, subtreeFieldCount_eq, childrenFieldCount_eq]
    omega

/-! ### What was folded before -/

/-- Two nodes bring no entry in common. -/
inductive Apart : List WapChildNode → WapChildNode → WapChildNode → Prop
  | tags {into : List WapChildNode} {f g : WapChildNode} (h : g.tag ≠ f.tag) : Apart into f g
  | within {into : List WapChildNode} {f g e : WapChildNode} (tag : g.tag = f.tag)
      (found : firstNamed into g.tag = some e)
      (attrs : ∀ a ∈ newAttrs e f, ∀ b ∈ newAttrs e g, a.name ≠ b.name)
      (groups : ∀ x ∈ newGroups e f, x ∉ newGroups e g)
      (children : ∀ c ∈ f.children, ∀ d ∈ g.children, Apart e.children c d) : Apart into f g

theorem apart_iff {into : List WapChildNode} {e g : WapChildNode}
    (he : firstNamed into g.tag = some e) (f : WapChildNode) :
    Apart into f g ↔ (f.tag = g.tag →
      (∀ b ∈ newAttrs e g, b.name ∉ f.attrs.map WapAttrDef.name) ∧
      (∀ x ∈ newGroups e g, x ∉ f.variantGroups) ∧
      ∀ d ∈ g.children, ∀ c ∈ f.children, Apart e.children c d) := by
  constructor
  · intro h htag
    cases h with
    | tags hne => exact absurd htag.symm hne
    | @within _ _ _ e' _ he' attrs groups children =>
      obtain rfl : e = e' := Option.some.inj (he.symm.trans he')
      refine ⟨fun b hb hmem => ?_, fun x hx hmem => ?_, fun d hd c hc => children c hc d hd⟩
      · obtain ⟨a, ha, hab⟩ := List.mem_map.mp hmem
        exact attrs a (mem_newAttrs.mpr ⟨ha, hab ▸ (mem_newAttrs.mp hb).2⟩) b hb hab
      · exact groups x (mem_newGroups.mpr ⟨hmem, (mem_newGroups.mp hx).2⟩) hx
  · intro h
    by_cases htag : f.tag = g.tag
    · obtain ⟨hattrs, hgroups, hchildren⟩ := h htag
      refine .within htag.symm he (fun a ha b hb hab => ?_) (fun x hx hx' => ?_)
        fun c hc d hd => hchildren d hd c hc
      · exact hattrs b hb (hab ▸ List.mem_map_of_mem (mem_newAttrs.mp ha).1)
      · exact hgroups x hx' (mem_newGroups.mp hx).1
    · exact .tags (Ne.symm htag)

theorem newAttrs_foldl (e : WapChildNode) (fs : List WapChildNode) (g : WapChildNode) :
    newAttrs (fs.foldl mergeNode e) g =
      (newAttrs e g).filter fun b => !fs.any fun f => f.attrs.any fun a => a.name = b.name := by
  rw [newAttrs, newAttrs, weighing, weighing, List.filter_filter]
  refine List.filter_congr fun b _ => ?_
  have hfold := foldl_mergeNode_iff (P := fun n => b.name ∈ n.attrs.map WapAttrDef.name)
    (attr_mergeNode b.name) e fs
  simp only [← any_name, List.exists_mem_cons_iff, ← List.any_eq_true, ← Bool.or_eq_true] at hfold
  rw [Bool.eq_iff_iff.mpr hfold, Bool.not_or, Bool.and_comm (!_) (!_), Bool.and_assoc]

theorem newGroups_foldl (e : WapChildNode) (fs : List WapChildNode) (g : WapChildNode) :
    newGroups (fs.foldl mergeNode e) g =
      (newGroups e g).filter fun x =>
        !fs.any fun f => f.variantGroups.any fun y => beqGroup y x := by
  rw [newGroups, newGroups, weighing, weighing, List.filter_filter]
  refine List.filter_congr fun x _ => ?_
  have hfold := foldl_mergeNode_iff (P := fun n => x ∈ n.variantGroups) (group_mergeNode x) e fs
  simp only [← any_group, List.exists_mem_cons_iff, ← List.any_eq_true, ← Bool.or_eq_true] at hfold
  rw [Bool.eq_iff_iff.mpr hfold, Bool.not_or, Bool.and_comm (!_) (!_), Bool.and_assoc]

theorem mem_brought {fs : List WapChildNode} {tag : String} {f : WapChildNode} :
    f ∈ brought fs tag ↔ f ∈ fs ∧ f.tag = tag := by
  rw [brought, List.mem_filter, decide_eq_true_eq]

/-- What a node brings after others were folded. -/
theorem countOne_mergeChildren (g : WapChildNode) : ∀ into fs : List WapChildNode,
    countOne (mergeChildren into fs) g ≤ countOne into g ∧
      (countOne (mergeChildren into fs) g = countOne into g ↔ ∀ f ∈ fs, Apart into f g) := by
  induction g using WapChildNode.induct with
  | node g ih =>
    intro into fs
    rw [countOne, countOne, firstNamed_mergeChildren into fs g.tag, folded]
    cases hinto : firstNamed into g.tag with
    | none =>
      cases hfs : brought fs g.tag with
      | nil =>
        refine ⟨le_rfl, fun _ f hf => .tags fun htag => ?_, fun _ => rfl⟩
        have hmem := mem_brought.mpr ⟨hf, htag.symm⟩
        rw [hfs] at hmem
        cases hmem
      | cons f rest =>
        have hlt := Nat.lt_one_add_iff.mpr (countRecoveredNode_le g (rest.foldl mergeNode f))
        refine ⟨hlt.le, fun heq => absurd heq hlt.ne, fun hapart => ?_⟩
        obtain ⟨hf, htag⟩ := mem_brought.mp (hfs ▸ List.mem_cons_self)
        cases hapart f hf with
        | tags h => exact absurd htag.symm h
        | within _ h => rw [hinto] at h; cases h
    | some e =>
      change countRecoveredNode ((brought fs g.tag).foldl mergeNode e) g ≤ countRecoveredNode e g ∧
        (countRecoveredNode ((brought fs g.tag).foldl mergeNode e) g = countRecoveredNode e g ↔ _)
      rw [countRecoveredNode_eq, countRecoveredNode_eq, newAttrs_foldl, newGroups_foldl,
        foldl_mergeNode_children]
      -- the fold has united the nodes of the tag, so each part is looked up in all of them
      have hattrs := sum_filter_le (fun _ => 1)
        (fun b => !(brought fs g.tag).any fun f => f.attrs.any fun a => a.name = b.name)
        (newAttrs e g)
      have hgroups := sum_filter_le variantGroupFieldCount
        (fun x => !(brought fs g.tag).any fun f => f.variantGroups.any fun y => beqGroup y x)
        (newGroups e g)
      have hchildren := sum_map_le fun d hd =>
        (ih d hd e.children ((brought fs g.tag).flatMap WapChildNode.children)).1
      have hattrs_iff : (∀ b ∈ newAttrs e g, 1 ≠ 0 →
          (!(brought fs g.tag).any fun f => f.attrs.any fun a => a.name = b.name) = true) ↔
          ∀ f ∈ fs, f.tag = g.tag →
            ∀ b ∈ newAttrs e g, b.name ∉ f.attrs.map WapAttrDef.name := by
        simp only [Bool.not_eq_true', List.any_eq_false, mem_brought, and_imp, any_name]
        exact ⟨fun h f hf htag b hb => h b hb one_ne_zero f hf htag,
          fun h b hb _ f hf htag => h f hf htag b hb⟩
      have hgroups_iff : (∀ x ∈ newGroups e g, variantGroupFieldCount x ≠ 0 →
          (!(brought fs g.tag).any fun f => f.variantGroups.any fun y => beqGroup y x) = true) ↔
          ∀ f ∈ fs, f.tag = g.tag → ∀ x ∈ newGroups e g, x ∉ f.variantGroups := by
        simp only [Bool.not_eq_true', List.any_eq_false, mem_brought, and_imp, any_group]
        exact ⟨fun h f hf htag x hx => h x hx (mem_newGroups.mp hx).2.2 f hf htag,
          fun h x hx _ f hf htag => h f hf htag x hx⟩
      have hchildren_iff : (∀ d ∈ g.children,
          countOne (mergeChildren e.children ((brought fs g.tag).flatMap WapChildNode.children)) d =
            countOne e.children d) ↔
          ∀ f ∈ fs, f.tag = g.tag → ∀ d ∈ g.children, ∀ c ∈ f.children, Apart e.children c d := by
        refine (forall₂_congr fun d hd => (ih d hd _ _).2).trans ?_
        simp only [List.mem_flatMap, mem_brought]
        refine ⟨fun h f hf htag d hd c hc => h d hd c ⟨f, ⟨hf, htag⟩, hc⟩, ?_⟩
        intro h d hd c hsome
        obtain ⟨f, ⟨hf, htag⟩, hc⟩ := hsome
        exact h f hf htag d hd c hc
      have hapart : (∀ f ∈ fs, Apart into f g) ↔ _ := forall₂_congr fun f _ => apart_iff hinto f
      rw [hapart]
      simp only [imp_and, forall_and]
      rw [← hattrs_iff, ← hgroups_iff, ← hchildren_iff, ← hattrs.2, ← hgroups.2, ← hchildren.2]
      omega

/-- Beside nodes it has nothing in common with, a node brings the same to the same node. -/
theorem firstNamed_apart {into fs : List WapChildNode} {g e : WapChildNode}
    (h : ∀ f ∈ fs, Apart into f g) (he : firstNamed into g.tag = some e) :
    ∃ e', firstNamed (mergeChildren into fs) g.tag = some e' ∧ newAttrs e' g = newAttrs e g ∧
      newGroups e' g = newGroups e g ∧
      e'.children = mergeChildren e.children ((brought fs g.tag).flatMap WapChildNode.children) ∧
      ∀ c ∈ (brought fs g.tag).flatMap WapChildNode.children, ∀ d ∈ g.children,
        Apart e.children c d := by
  have hapart : ∀ f ∈ brought fs g.tag, _ := fun f hf =>
    (apart_iff he f).mp (h f (mem_brought.mp hf).1) (mem_brought.mp hf).2
  refine ⟨(brought fs g.tag).foldl mergeNode e, ?_, ?_, ?_, foldl_mergeNode_children _ _, ?_⟩
  · rw [firstNamed_mergeChildren, folded, he]
    rfl
  · rw [newAttrs_foldl, List.filter_eq_self]
    intro b hb
    simp only [Bool.not_eq_true', List.any_eq_false, any_name]
    exact fun f hf => (hapart f hf).1 b hb
  · rw [newGroups_foldl, List.filter_eq_self]
    intro x hx
    simp only [Bool.not_eq_true', List.any_eq_false, any_group]
    exact fun f hf => (hapart f hf).2.1 x hx
  · intro c hc d hd
    obtain ⟨f, hf, hc⟩ := List.mem_flatMap.mp hc
    exact (hapart f hf).2.2 d hd c hc

theorem firstNamed_apart_none {into fs : List WapChildNode} {g : WapChildNode}
    (h : ∀ f ∈ fs, Apart into f g) (hnone : firstNamed into g.tag = none) :
    firstNamed (mergeChildren into fs) g.tag = none := by
  have hbrought : brought fs g.tag = [] := by
    rw [List.eq_nil_iff_forall_not_mem]
    intro f hf
    obtain ⟨hf, htag⟩ := mem_brought.mp hf
    cases h f hf with
    | tags hne => exact hne htag.symm
    | within _ he => rw [hnone] at he; cases he
  rw [firstNamed_mergeChildren, folded, hnone, hbrought]
  rfl

theorem apart_mergeChildren (g : WapChildNode) : ∀ (into fs : List WapChildNode) (f : WapChildNode),
    (∀ x ∈ fs, Apart into x f) → (∀ x ∈ fs, Apart into x g) →
    (Apart (mergeChildren into fs) f g ↔ Apart into f g) := by
  induction g using WapChildNode.induct with
  | node g ih =>
    intro into fs f hf hg
    by_cases htag : f.tag = g.tag
    · cases he : firstNamed into g.tag with
      | none =>
        have hnone := firstNamed_apart_none hg he
        constructor
        · intro h
          cases h with
          | tags h => exact .tags h
          | within _ he' => rw [hnone] at he'; cases he'
        · intro h
          cases h with
          | tags h => exact .tags h
          | within _ he' => rw [he] at he'; cases he'
      | some e =>
        obtain ⟨e', he', hattrs, hgroups, hchildren, hapart⟩ := firstNamed_apart hg he
        obtain ⟨e'', he'', -, -, -, hapart'⟩ := firstNamed_apart hf (htag ▸ he)
        obtain rfl : e' = e'' := Option.some.inj (he'.symm.trans (htag ▸ he''))
        rw [apart_iff he', apart_iff he, hattrs, hgroups, hchildren]
        refine imp_congr_right fun _ => and_congr_right fun _ => and_congr_right fun _ =>
          forall₂_congr fun d hd => forall₂_congr fun c hc => ?_
        exact ih d hd e.children _ c (fun x hx => hapart' x (htag ▸ hx) c hc)
          fun x hx => hapart x hx d hd
    · exact ⟨fun _ => .tags (Ne.symm htag), fun _ => .tags (Ne.symm htag)⟩

/-! ### Fragments that are counted right -/

/-- No two entries of a fragment are folded into one. -/
inductive Exact : List WapChildNode → List WapChildNode → Prop
  | intro {into from' : List WapChildNode}
      (attrs : ∀ f ∈ from', ∀ e, firstNamed into f.tag = some e →
        ((newAttrs e f).map WapAttrDef.name).Nodup)
      (groups : ∀ f ∈ from', ∀ e, firstNamed into f.tag = some e → (newGroups e f).Nodup)
      (children : ∀ f ∈ from', ∀ e, firstNamed into f.tag = some e → Exact e.children f.children)
      (apart : from'.Pairwise (Apart into)) : Exact into from'

theorem exact_append {into fs gs : List WapChildNode} :
    Exact into (fs ++ gs) ↔
      Exact into fs ∧ Exact into gs ∧ ∀ f ∈ fs, ∀ g ∈ gs, Apart into f g := by
  constructor
  · intro h
    cases h with
    | intro attrs groups children apart =>
      rw [List.forall_mem_append] at attrs groups children
      rw [List.pairwise_append] at apart
      exact ⟨.intro attrs.1 groups.1 children.1 apart.1,
        .intro attrs.2 groups.2 children.2 apart.2.1, apart.2.2⟩
  · rintro ⟨⟨attrs, groups, children, apart⟩, ⟨attrs', groups', children', apart'⟩, hapart⟩
    refine .intro ?_ ?_ ?_ (List.pairwise_append.mpr ⟨apart, apart', hapart⟩)
    · exact List.forall_mem_append.mpr ⟨attrs, attrs'⟩
    · exact List.forall_mem_append.mpr ⟨groups, groups'⟩
    · exact List.forall_mem_append.mpr ⟨children, children'⟩

theorem exact_nil (into : List WapChildNode) : Exact into [] :=
  .intro nofun nofun nofun .nil

theorem exact_one {into : List WapChildNode} {f : WapChildNode} :
    Exact into [f] ↔ ∀ e, firstNamed into f.tag = some e →
      ((newAttrs e f).map WapAttrDef.name).Nodup ∧ (newGroups e f).Nodup ∧
        Exact e.children f.children := by
  constructor
  · rintro ⟨attrs, groups, children, -⟩ e he
    have hf := List.mem_singleton_self f
    exact ⟨attrs f hf e he, groups f hf e he, children f hf e he⟩
  · intro h
    refine .intro ?_ ?_ ?_ (List.pairwise_singleton _ f)
    · exact List.forall_mem_singleton.mpr fun e he => (h e he).1
    · exact List.forall_mem_singleton.mpr fun e he => (h e he).2.1
    · exact List.forall_mem_singleton.mpr fun e he => (h e he).2.2

/-- Nodes that have nothing in common with those before them are counted as without them. -/
theorem exact_mergeChildren_of_one {gs : List WapChildNode}
    (hone : ∀ g ∈ gs, ∀ into fs, (∀ f ∈ fs, Apart into f g) →
      (Exact (mergeChildren into fs) [g] ↔ Exact into [g]))
    (into fs : List WapChildNode) (h : ∀ f ∈ fs, ∀ g ∈ gs, Apart into f g) :
    Exact (mergeChildren into fs) gs ↔ Exact into gs := by
  induction gs with
  | nil => exact iff_of_true (exact_nil _) (exact_nil _)
  | cons g gs ih =>
    rw [List.forall_mem_cons] at hone
    rw [← List.singleton_append, exact_append, exact_append,
      hone.1 into fs fun f hf => h f hf g List.mem_cons_self,
      ih hone.2 fun f hf d hd => h f hf d (List.mem_cons_of_mem g hd)]
    refine and_congr_right fun _ => and_congr_right fun _ => ?_
    rw [List.forall_mem_singleton, List.forall_mem_singleton]
    exact forall₂_congr fun d hd => apart_mergeChildren d into fs g
      (fun f hf => h f hf g List.mem_cons_self) fun f hf => h f hf d (List.mem_cons_of_mem g hd)

theorem exact_mergeChildren_one (g : WapChildNode) : ∀ into fs, (∀ f ∈ fs, Apart into f g) →
    (Exact (mergeChildren into fs) [g] ↔ Exact into [g]) := by
  induction g using WapChildNode.induct with
  | node g ih =>
    intro into fs h
    rw [exact_one, exact_one]
    cases he : firstNamed into g.tag with
    | none => simp [firstNamed_apart_none h he]
    | some e =>
      obtain ⟨e', he', hattrs, hgroups, hchildren, hapart⟩ := firstNamed_apart h he
      simp only [he', Option.some.injEq, forall_eq']
      rw [hattrs, hgroups, hchildren, exact_mergeChildren_of_one ih _ _ hapart]

/-! ### What the fold adds -/

theorem childrenFieldCount_append (as bs : List WapChildNode) :
    childrenFieldCount (as ++ bs) = childrenFieldCount as + childrenFieldCount bs := by
  simp only [childrenFieldCount_eq, List.map_append, List.sum_append]

/-- Folding one node after the other. -/
theorem mergeChildren_count_of_one {fs : List WapChildNode}
    (hone : ∀ f ∈ fs, ∀ into,
      childrenFieldCount (mergeChildren into [f]) ≤ childrenFieldCount into + countOne into f ∧
      (childrenFieldCount (mergeChildren into [f]) = childrenFieldCount into + countOne into f ↔
        Exact into [f])) (into : List WapChildNode) :
    childrenFieldCount (mergeChildren into fs) ≤
        childrenFieldCount into + (fs.map (countOne into)).sum ∧
      (childrenFieldCount (mergeChildren into fs) =
        childrenFieldCount into + (fs.map (countOne into)).sum ↔ Exact into fs) := by
  induction fs using List.reverseRecOn with
  | nil =>
    rw [mergeChildren]
    exact ⟨le_rfl, iff_of_true rfl (exact_nil into)⟩
  | append_singleton fs g ih =>
    rw [List.forall_mem_append, List.forall_mem_singleton] at hone
    obtain ⟨hle, hiff⟩ := ih hone.1
    obtain ⟨hle', hiff'⟩ := hone.2 (mergeChildren into fs)
    obtain ⟨hbefore, hbefore_iff⟩ := countOne_mergeChildren g into fs
    have hexact : Exact into (fs ++ [g]) ↔ (Exact into fs ∧ Exact (mergeChildren into fs) [g] ∧
        ∀ f ∈ fs, Apart into f g) := by
      rw [exact_append]
      simp only [List.forall_mem_singleton]
      refine and_congr_right fun _ => and_congr_left fun hapart => ?_
      exact (exact_mergeChildren_one g into fs hapart).symm
    rw [mergeChildren_append, hexact, ← hiff, ← hiff', ← hbefore_iff, List.map_append,
      List.sum_append, List.map_singleton, List.sum_singleton]
    omega

theorem mergeChildren_count_one (f : WapChildNode) : ∀ into,
    childrenFieldCount (mergeChildren into [f]) ≤ childrenFieldCount into + countOne into f ∧
      (childrenFieldCount (mergeChildren into [f]) = childrenFieldCount into + countOne into f ↔
        Exact into [f]) := by
  induction f using WapChildNode.induct with
  | node f ih =>
    intro into
    obtain ⟨above, e, below, rfl, habove, htag, hmerge⟩ | ⟨hnone, hmerge⟩ :=
      mergeChildren_one into f
    · have he : firstNamed (above ++ e :: below) f.tag = some e := by
        rw [firstNamed, List.find?_append, List.find?_cons_of_pos (by simpa using htag),
          List.find?_eq_none.mpr fun y hy => by simpa using habove y hy]
        rfl
      have hattrs := sum_addMissing (w := fun _ => 1) same_name (fun _ _ _ => rfl) e.attrs f.attrs
      have hgroups := sum_addMissing (w := variantGroupFieldCount) same_group
        (fun _ _ h => congrArg _ h) e.variantGroups f.variantGroups
      have hchildren := mergeChildren_count_of_one ih e.children
      rw [List.map_id] at hgroups
      have hnode : subtreeFieldCount (mergeNode e f) =
          ((addMissing (fun fa a => decide (a.name = fa.name)) e.attrs f.attrs).map
              fun _ => 1).sum +
            ((addMissing (fun g g' => beqGroup g' g) e.variantGroups f.variantGroups).map
              variantGroupFieldCount).sum +
            childrenFieldCount (mergeChildren e.children f.children) := by
        rw [subtreeFieldCount_eq, mergeNode_eq]
      have hcount : countOne (above ++ e :: below) f = countRecoveredNode e f := by
        rw [countOne, he]
      have hexact : Exact (above ++ e :: below) [f] ↔ ((newAttrs e f).map WapAttrDef.name).Nodup ∧
          (newGroups e f).Nodup ∧ Exact e.children f.children := by
        rw [exact_one, he]
        simp
      rw [hmerge, childrenFieldCount_append, childrenFieldCount_append, childrenFieldCount,
        childrenFieldCount, hcount, hexact, countRecoveredNode_eq, newAttrs, newGroups, ← hattrs.2,
        ← hgroups.2, ← hchildren.2, hnode, subtreeFieldCount_eq e]
      omega
    · have hnamed : firstNamed into f.tag = none := by
        rw [firstNamed, List.find?_eq_none]
        exact fun y hy => by simpa using hnone y hy
      rw [hmerge, childrenFieldCount_append, countOne, hnamed, exact_one, hnamed]
      exact ⟨le_rfl, iff_of_true rfl (by simp)⟩

end Whatspec.Scan

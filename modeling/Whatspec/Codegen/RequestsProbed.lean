import Whatspec.Codegen.RequestsWritten

/-!
# Values that show every site

A builder that writes what a request means has everything its sites need.  To see it, the code is
run on values of which everything is there: every option holds something, every list has one item,
and any variant of a group can be chosen.

* on such a value no site writes more than it is meant to, so what is written agrees with what is
  meant only if it agrees site by site;
* `faithful_of_run` collects that over a whole node.
-/

namespace Whatspec.Codegen

open Whatspec.Scan Whatspec.Text

/-! ### Lists of equal parts -/

/-- Two lists that agree, one part of each not longer than that of the other, agree part by
part. -/
theorem append_eq_append_of_length_le {α : Type} {a b c d : List α} (h : a ++ b = c ++ d)
    (hac : a.length ≤ c.length) (hbd : b.length ≤ d.length) : a = c ∧ b = d := by
  have hlen := congrArg List.length h
  simp only [List.length_append] at hlen
  exact List.append_inj h (by omega)

theorem length_flatMap_le_concatM {α β : Type} {f : α → Option (List β)} {g : α → List β}
    {xs : List α} {ys : List β} (hle : ∀ x ∈ xs, ∀ l, f x = some l → (g x).length ≤ l.length)
    (h : concatM f xs = some ys) : (xs.flatMap g).length ≤ ys.length := by
  induction xs generalizing ys with
  | nil => exact Nat.zero_le _
  | cons x xs ih =>
    simp only [concatM, Option.bind_eq_bind, Option.bind_eq_some_iff] at h
    obtain ⟨y, hy, zs, hzs, heq⟩ := h
    cases heq
    rw [List.forall_mem_cons] at hle
    simp only [List.flatMap_cons, List.length_append]
    exact Nat.add_le_add (hle.1 y hy) (ih hle.2 hzs)

theorem eq_of_concatM_eq {α β : Type} {f : α → Option (List β)} {g : α → List β} {xs : List α}
    (hle : ∀ x ∈ xs, ∀ l, f x = some l → (g x).length ≤ l.length)
    (h : concatM f xs = some (xs.flatMap g)) : ∀ x ∈ xs, f x = some (g x) := by
  induction xs with
  | nil => intro x hx; cases hx
  | cons x xs ih =>
    simp only [concatM, Option.bind_eq_bind, Option.bind_eq_some_iff, List.flatMap_cons] at h
    obtain ⟨y, hy, zs, hzs, heq⟩ := h
    rw [List.forall_mem_cons] at hle ⊢
    obtain ⟨rfl, rfl⟩ := append_eq_append_of_length_le (Option.some.inj heq).symm (hle.1 y hy)
      (length_flatMap_le_concatM hle.2 hzs)
    exact ⟨hy, ih hle.2 hzs⟩

/-! ### A value of which everything is there -/

/-- Every option holds something, every list has one item, every flag is set. -/
def fullVal (shown : String) (variant : List String → String) : Val :=
  ⟨fun _ => ⟨shown, [], true, .mk "" [] none, true, 1, variant⟩⟩

variable {s : String} {χ : List String → String}

theorem fullVal_field (name : String) : (fullVal s χ).field name = fullVal s χ := rfl

theorem fullVal_option : (fullVal s χ).option = some (fullVal s χ) := rfl

theorem fullVal_shown : (fullVal s χ).shown = s := rfl

theorem fullVal_flag : (fullVal s χ).flag = true := rfl

/-- The frame in which everything is read off such a value. -/
def fullFrame (s : String) (χ : List String → String) : Frame :=
  ⟨fullVal s χ, fullVal s χ, fullVal s χ⟩

theorem eval_fullFrame (o : Operand) : (fullFrame s χ).eval o = fullVal s χ := by
  cases o <;> rfl

theorem write_fullFrame_length (a : AttrStatement) : ((fullFrame s χ).write a).length = 1 := by
  cases a with
  | literal name value => rfl
  | value name o => rfl
  | ifSome name o => rw [Frame.write, eval_fullFrame, fullVal_option]; rfl

theorem SpecAttr.built_length_le (generated : Bool) (operand : String → Operand) (a : SpecAttr) :
    (a.built generated operand (fullFrame s χ)).length ≤ 1 := by
  unfold SpecAttr.built
  cases emitAttr generated operand a with
  | none => exact Nat.zero_le 1
  | some g =>
    rw [Option.map_some, Option.getD_some, Frame.writeGuarded]
    cases g.guard with
    | none => exact (write_fullFrame_length _).le
    | some field => exact (write_fullFrame_length _).le

theorem wireValue_length {a : WapAttrDef} {l : List (String × String)}
    (h : WapAttrDef.wireValue a (fullVal s χ) = some l) : l.length = 1 := by
  unfold WapAttrDef.wireValue at h
  rw [fullVal_option] at h
  cases hk : a.kind with
  | const =>
    simp only [hk, Option.map_eq_some_iff] at h
    obtain ⟨_, _, rfl⟩ := h
    rfl
  | optional => simp only [hk] at h; cases h; rfl
  | string | dynamic | integer | userJid | deviceJid | groupJid | generatedId =>
    simp only [hk] at h; cases h; rfl

theorem SpecAttr.meaning_fullVal {a : SpecAttr} {l : List (String × String)}
    (h : a.meaning (fullVal s χ) (fullVal s χ) = some l) :
    (a.attr.presenceArgPath.isSome → a.presence.isSome) ∧
      WapAttrDef.wireValue a.attr (fullVal s χ) = some l := by
  unfold SpecAttr.meaning at h
  cases hp : a.attr.presenceArgPath with
  | none => rw [hp] at h; exact ⟨(nomatch ·), h⟩
  | some path =>
    cases hf : a.presence with
    | none => rw [hp, hf] at h; cases h
    | some field => rw [hp, hf] at h; exact ⟨fun _ => rfl, h⟩

theorem SpecAttr.built_fullVal (generated : Bool) (operand : String → Operand) (a : SpecAttr) :
    a.built generated operand (fullFrame s χ) =
      ((attrStatement generated (operand a.field) a.attr).map (fullFrame s χ).write).getD [] := by
  unfold SpecAttr.built emitAttr
  cases attrStatement generated (operand a.field) a.attr with
  | none => rfl
  | some st =>
    rw [Option.map_some, Option.map_some, Option.map_some, Option.getD_some, Option.getD_some,
      Frame.writeGuarded]
    cases a.presence with
    | none => rfl
    | some field => rfl

/-- An attribute that is written as it is meant, whatever is shown, has what it needs. -/
theorem SpecAttr.faithful_of_built {generated : Bool} {a : SpecAttr}
    (operand : String → Operand)
    (h : ∀ s : String, ∃ χ, a.meaning (fullVal s χ) (fullVal s χ) =
      some (a.built generated operand (fullFrame s χ))) : a.Faithful generated := by
  have hwire : ∀ s : String, ∃ χ, WapAttrDef.wireValue a.attr (fullVal s χ) =
      some (((attrStatement generated (operand a.field) a.attr).map
        (fullFrame s χ).write).getD []) := by
    intro s
    obtain ⟨χ, hχ⟩ := h s
    exact ⟨χ, by rw [← SpecAttr.built_fullVal]; exact (SpecAttr.meaning_fullVal hχ).2⟩
  refine ⟨fun hk => ?_, fun hk => ?_, fun hk => ?_, fun hp => ?_⟩
  · obtain ⟨χ, hχ⟩ := hwire ""
    cases hv : a.attr.value with
    | none => simp [WapAttrDef.wireValue, hk, hv] at hχ
    | some value => rfl
  · cases hv : a.attr.value with
    | none => rfl
    | some value =>
      obtain ⟨χ, hχ⟩ := hwire (value ++ "x")
      have heq : value = value ++ "x" := by
        simpa [WapAttrDef.wireValue, hk, hv, attrStatement, Frame.write, eval_fullFrame,
          fullVal_option, fullVal_shown] using hχ
      exact absurd (congrArg String.length heq) (by simp [String.length_append])
  · obtain ⟨χ, hχ⟩ := hwire ""
    cases generated with
    | true => rfl
    | false => simp [WapAttrDef.wireValue, hk, attrStatement] at hχ
  · obtain ⟨χ, hχ⟩ := h ""
    exact (SpecAttr.meaning_fullVal hχ).1 hp

/-! ### Variants -/

theorem concatM_length {α β : Type} {f : α → Option (List β)} {xs : List α} {ys : List β} {k : ℕ}
    (hf : ∀ x ∈ xs, ∀ l, f x = some l → l.length = k) (h : concatM f xs = some ys) :
    ys.length = xs.length * k := by
  induction xs generalizing ys with
  | nil => cases h; simp
  | cons x xs ih =>
    simp only [concatM, Option.bind_eq_bind, Option.bind_eq_some_iff] at h
    obtain ⟨y, hy, zs, hzs, heq⟩ := h
    cases heq
    rw [List.forall_mem_cons] at hf
    rw [List.length_append, hf.1 y hy, ih hf.2 hzs, List.length_cons, Nat.succ_mul, Nat.add_comm]

theorem SpecChild.built_length (c : SpecChild) :
    (c.built (fullVal s χ) (fullVal s χ)).length = 1 := by
  unfold SpecChild.built
  cases c.isOpaque <;> cases c.repeats <;> rfl

theorem SpecChild.meaning_length {c : SpecChild} {l : List Node}
    (h : c.meaning (fullVal s χ) (fullVal s χ) = some l) : l.length = 1 := by
  unfold SpecChild.meaning at h
  by_cases hp : c.presence ≠ .required
  · rw [if_pos hp] at h; cases h
  · have hitems : (if c.repeats then ((fullVal s χ).field c.member).items
        else [(fullVal s χ).field c.member]) = [fullVal s χ] := by
      cases c.repeats <;> rfl
    rw [if_neg hp] at h
    simp only [hitems] at h
    by_cases ho : c.isOpaque
    · rw [if_pos ho] at h; cases h; rfl
    · rw [if_neg ho] at h
      refine concatM_length (k := 1) (fun item _ l hl => ?_) h
      simp only [Option.bind_eq_bind, Option.bind_eq_some_iff] at hl
      obtain ⟨attrs, _, hl⟩ := hl
      cases hl
      rfl

theorem SpecChild.faithful_of_built {c : SpecChild}
    (h : ∀ s : String, ∃ χ, c.meaning (fullVal s χ) (fullVal s χ) =
      some (c.built (fullVal s χ) (fullVal s χ))) : c.Faithful := by
  have hitems : ∀ (s : String) (χ : List String → String),
      (if c.repeats then ((fullVal s χ).field c.member).items
        else [(fullVal s χ).field c.member]) = [fullVal s χ] := by
    intro s χ
    cases c.repeats <;> rfl
  have hrequired : c.presence = .required := by
    obtain ⟨χ, hχ⟩ := h ""
    by_contra hp
    rw [SpecChild.meaning, if_pos hp] at hχ
    cases hχ
  refine ⟨hrequired, fun ho a ha => SpecAttr.faithful_of_built .item fun s => ?_⟩
  obtain ⟨χ, hχ⟩ := h s
  refine ⟨χ, ?_⟩
  simp only [SpecChild.meaning, SpecChild.built, hrequired, ne_eq, not_true_eq_false, if_false,
    hitems, ho, Bool.false_eq_true, concatM, Option.bind_eq_bind, Option.bind_some,
    Option.bind_eq_some_iff, List.map_cons, List.map_nil] at hχ
  obtain ⟨_, ⟨attrs, hattrs, hnode⟩, heq⟩ := hχ
  cases hnode
  obtain rfl : attrs = c.attrs.flatMap (SpecAttr.built true .item (fullFrame s χ)) := by
    cases heq
    rfl
  exact eq_of_concatM_eq (f := fun a : SpecAttr => a.meaning (fullVal s χ) (fullVal s χ))
    (fun a _ l hl => by
      rw [wireValue_length (SpecAttr.meaning_fullVal hl).2]
      exact a.built_length_le true .item) hattrs a ha

/-- No part of what the arm of a variant adds is longer than it is meant to be. -/
theorem SpecVariant.built_length_le {v : SpecVariant} {c : Contribution}
    (h : v.meaning (fullVal s χ) (fullVal s χ) = some c) :
    (v.built (fullVal s χ) (fullVal s χ)).attrs.length ≤ c.attrs.length ∧
      (v.built (fullVal s χ) (fullVal s χ)).children.length = c.children.length := by
  simp only [SpecVariant.meaning, Option.bind_eq_bind, Option.bind_eq_some_iff] at h
  obtain ⟨attrs, hattrs, children, hchildren, heq⟩ := h
  cases heq
  refine ⟨length_flatMap_le_concatM (fun a _ l hl => ?_) hattrs, ?_⟩
  · rw [wireValue_length (SpecAttr.meaning_fullVal hl).2]
    exact a.built_length_le false .bound
  · rw [concatM_length (fun c _ l hl => SpecChild.meaning_length hl) hchildren]
    simp [SpecVariant.built, SpecChild.built_length, List.length_flatMap]

theorem SpecVariant.faithful_of_built {v : SpecVariant}
    (h : ∀ s : String, ∃ χ, v.meaning (fullVal s χ) (fullVal s χ) =
      some (v.built (fullVal s χ) (fullVal s χ))) : v.Faithful := by
  have hparts : ∀ s : String, ∃ χ,
      concatM (fun a : SpecAttr => a.meaning (fullVal s χ) (fullVal s χ)) v.attrs =
        some (v.attrs.flatMap (SpecAttr.built false .bound (fullFrame s χ))) ∧
      concatM (SpecChild.meaning (fullVal s χ) (fullVal s χ)) v.children =
        some (v.children.flatMap (SpecChild.built (fullVal s χ) (fullVal s χ))) := by
    intro s
    obtain ⟨χ, hχ⟩ := h s
    simp only [SpecVariant.meaning, Option.bind_eq_bind, Option.bind_eq_some_iff] at hχ
    obtain ⟨attrs, hattrs, children, hchildren, heq⟩ := hχ
    cases heq
    exact ⟨χ, hattrs, hchildren⟩
  refine ⟨fun a ha => SpecAttr.faithful_of_built .bound fun s => ?_,
    fun c hc => SpecChild.faithful_of_built fun s => ?_⟩
  · obtain ⟨χ, hattrs, _⟩ := hparts s
    refine ⟨χ, eq_of_concatM_eq
      (f := fun a : SpecAttr => a.meaning (fullVal s χ) (fullVal s χ)) (fun a _ l hl => ?_)
      hattrs a ha⟩
    rw [wireValue_length (SpecAttr.meaning_fullVal hl).2]
    exact a.built_length_le false .bound
  · obtain ⟨χ, _, hchildren⟩ := hparts s
    refine ⟨χ, eq_of_concatM_eq (fun c _ l hl => ?_) hchildren c hc⟩
    rw [SpecChild.built_length, SpecChild.meaning_length hl]

/-! ### Groups -/

/-- The alternatives of a group exist and have names of their own. -/
structure SpecGroup.WellNamed (g : SpecGroup) : Prop where
  nonempty : g.variants ≠ []
  nodup : (g.variants.map (·.name)).Nodup

/-- A choice among names is one of them. -/
def ValidChoice (χ : List String → String) : Prop := ∀ names, names ≠ [] → χ names ∈ names

/-- The choice of one name among some names, and of the first one elsewhere. -/
def choosing (names : List String) (name : String) (ns : List String) : String :=
  if ns = names then name else ns.headD ""

theorem validChoice_choosing {names : List String} {name : String} (h : name ∈ names) :
    ValidChoice (choosing names name) := by
  intro ns hns
  unfold choosing
  by_cases heq : ns = names
  · rw [if_pos heq, heq]
    exact h
  · rw [if_neg heq]
    cases ns with
    | nil => exact absurd rfl hns
    | cons n ns => exact List.mem_cons_self

theorem SpecGroup.choice_fullVal (g : SpecGroup) : g.choice (fullVal s χ) = some (fullVal s χ) := by
  unfold SpecGroup.choice
  cases g.optional <;> rfl

theorem SpecGroup.chosen_choosing {g : SpecGroup} (hg : g.WellNamed) {v : SpecVariant}
    (hv : v ∈ g.variants) :
    g.chosen (fullVal s (choosing (g.variants.map (·.name)) v.name)) = some v := by
  have hname : (fullVal s (choosing (g.variants.map (·.name)) v.name)).variant
      (g.variants.map (·.name)) = v.name := if_pos rfl
  simp only [SpecGroup.chosen, hname]
  obtain ⟨x, hx⟩ : ∃ x, g.variants.find? (·.name = v.name) = some x :=
    Option.isSome_iff_exists.mp (List.find?_isSome.mpr ⟨v, hv, by simp⟩)
  have hxname : x.name = v.name := by simpa using List.find?_some hx
  rw [hx, List.inj_on_of_nodup_map hg.nodup (List.mem_of_find?_eq_some hx) hv hxname]

/-- No part of what groups add is longer than it is meant to be. -/
theorem groupsBuilt_length_le : ∀ {groups : List SpecGroup} {c m : Contribution},
    groupsBuilt (fullVal s χ) groups = some c → groupMeaning (fullVal s χ) groups = some m →
    c.attrs.length ≤ m.attrs.length ∧ c.children.length = m.children.length
  | [], c, m, hc, hm => by
    cases hc
    cases hm
    exact ⟨le_rfl, rfl⟩
  | g :: gs, c, m, hc, hm => by
    simp only [groupsBuilt, groupMeaning, Option.bind_eq_bind, Option.bind_eq_some_iff] at hc hm
    obtain ⟨c₁, hc₁, c₂, hc₂, heq⟩ := hc
    obtain ⟨m₁, hm₁, m₂, hm₂, heq'⟩ := hm
    cases heq
    cases heq'
    have hrest := groupsBuilt_length_le hc₂ hm₂
    have hfirst : c₁.attrs.length ≤ m₁.attrs.length ∧ c₁.children.length = m₁.children.length := by
      simp only [SpecGroup.built, SpecGroup.meaning, SpecGroup.choice_fullVal] at hc₁ hm₁
      cases hx : g.chosen (fullVal s χ) with
      | none => rw [hx] at hc₁; cases hc₁
      | some x =>
        rw [hx] at hc₁ hm₁
        cases hc₁
        exact SpecVariant.built_length_le hm₁
    simp only [List.length_append]
    omega

/-- Where no children are added, the chosen variant has none. -/
theorem children_eq_nil_of_groupsBuilt : ∀ {groups : List SpecGroup} {c : Contribution},
    groupsBuilt (fullVal s χ) groups = some c → ∀ {g : SpecGroup}, g ∈ groups →
    ∀ {v : SpecVariant}, g.chosen (fullVal s χ) = some v → c.children = [] → v.children = []
  | [], _, _, _, hg, _, _, _ => nomatch hg
  | g' :: gs, c, hc, g, hg, v, hv, hnil => by
    simp only [groupsBuilt, Option.bind_eq_bind, Option.bind_eq_some_iff] at hc
    obtain ⟨c₁, hc₁, c₂, hc₂, heq⟩ := hc
    cases heq
    obtain ⟨hnil₁, hnil₂⟩ := List.append_eq_nil_iff.mp hnil
    cases hg with
    | head =>
      simp only [SpecGroup.built, SpecGroup.choice_fullVal, hv, Option.map_some,
        Option.some.injEq] at hc₁
      rw [← hc₁] at hnil₁
      cases hc : v.children with
      | nil => rfl
      | cons x xs =>
        have hlen := congrArg List.length hnil₁
        simp [SpecVariant.built, hc, SpecChild.built_length] at hlen
    | tail _ hg => exact children_eq_nil_of_groupsBuilt hc₂ hg hv hnil₂

/-- Groups that add what they are meant to do so one by one. -/
theorem SpecGroup.built_eq_meaning : ∀ {groups : List SpecGroup} {c : Contribution},
    groupsBuilt (fullVal s χ) groups = some c → groupMeaning (fullVal s χ) groups = some c →
    ∀ g ∈ groups, g.built (fullVal s χ) = g.meaning (fullVal s χ)
  | [], _, _, _ => fun g hg => nomatch hg
  | g :: gs, c, hc, hm => by
    have hle : ∀ {c m : Contribution}, g.built (fullVal s χ) = some c →
        g.meaning (fullVal s χ) = some m →
        c.attrs.length ≤ m.attrs.length ∧ c.children.length = m.children.length := by
      intro c m hc hm
      have hc' : groupsBuilt (fullVal s χ) [g] = some c := by simp [groupsBuilt, hc]
      have hm' : groupMeaning (fullVal s χ) [g] = some m := by simp [groupMeaning, hm]
      exact groupsBuilt_length_le hc' hm'
    simp only [groupsBuilt, groupMeaning, Option.bind_eq_bind, Option.bind_eq_some_iff] at hc hm
    obtain ⟨c₁, hc₁, c₂, hc₂, heq⟩ := hc
    obtain ⟨m₁, hm₁, m₂, hm₂, heq'⟩ := hm
    cases heq
    have hrest := groupsBuilt_length_le hc₂ hm₂
    have hfirst := hle hc₁ hm₁
    simp only [Option.pure_def, Option.some.injEq, Contribution.mk.injEq] at heq'
    obtain ⟨hattrs, hattrs'⟩ := append_eq_append_of_length_le heq'.1.symm hfirst.1 hrest.1
    obtain ⟨hchildren, hchildren'⟩ := append_eq_append_of_length_le heq'.2.symm hfirst.2.le
      hrest.2.le
    have h₁ : c₁ = m₁ := by
      cases c₁
      cases m₁
      simp_all
    have h₂ : c₂ = m₂ := by
      cases c₂
      cases m₂
      simp_all
    rw [List.forall_mem_cons]
    exact ⟨by rw [hc₁, hm₁, h₁], SpecGroup.built_eq_meaning hc₂ (h₂ ▸ hm₂)⟩

/-! ### Nodes -/

mutual

/-- The groups of a node and of those below it are well named. -/
def SpecNode.WellNamed : SpecNode → Prop
  | .node _ _ _ groups _ children => (∀ g ∈ groups, g.WellNamed) ∧ WellNamedAmong children
  | .payloads _ _ => True
  | .flag _ body => body.WellNamed
  | .owned _ _ _ body => body.WellNamed

def WellNamedAmong : List SpecNode → Prop
  | [] => True
  | n :: ns => n.WellNamed ∧ WellNamedAmong ns

end

/-- A value of which everything is there holds one item everywhere. -/
theorem heldItems_fullVal (field : String) (optional repeats : Bool) :
    heldItems (fullVal s χ) field optional repeats = [fullVal s χ] := by
  cases optional <;> cases repeats <;> rfl

theorem mapM_singleton (f : Val → Option (List Node)) (v : Val) :
    ([v].mapM f).map List.flatten = f v := by
  cases hf : f v <;> simp [hf]

theorem run_fullVal_length : ∀ (n : SpecNode) {nodes : List Node},
    (emitChildBuilder n).run (fullVal s χ) = some nodes → nodes.length = 1
  | .node tag repeats attrs groups content children, nodes, h => by
    rw [run_emitChildBuilder_node] at h
    simp only [Option.bind_eq_bind, Option.bind_eq_some_iff] at h
    obtain ⟨_, _, _, _, heq⟩ := h
    cases heq
    rfl
  | .payloads tag field, nodes, h => by
    cases h
    rfl
  | .flag field body, nodes, h => by
    simp only [emitChildBuilder, NodeCode.run, fullVal_field, fullVal_flag, if_true] at h
    exact run_fullVal_length body h
  | .owned field optional repeats body, nodes, h => by
    simp only [emitChildBuilder, NodeCode.run] at h
    rw [heldItems_fullVal, mapM_singleton] at h
    exact run_fullVal_length body h

theorem meaning_fullVal_length : ∀ (n : SpecNode) {nodes : List Node},
    n.meaning (fullVal s χ) = some nodes → nodes.length = 1
  | .node tag repeats attrs groups content children, nodes, h => by
    simp only [SpecNode.meaning, Option.bind_eq_bind] at h
    cases repeats with
    | true => simp at h
    | false =>
      simp only [Bool.false_eq_true, if_false, Option.bind_eq_some_iff] at h
      obtain ⟨_, _, _, _, _, _, _, _, _, _, heq⟩ := h
      cases heq
      rfl
  | .payloads tag field, nodes, h => by
    cases h
    rfl
  | .flag field body, nodes, h => by
    simp only [SpecNode.meaning, fullVal_field, fullVal_flag, if_true] at h
    exact meaning_fullVal_length body h
  | .owned field optional repeats body, nodes, h => by
    simp only [SpecNode.meaning] at h
    rw [heldItems_fullVal, mapM_singleton] at h
    exact meaning_fullVal_length body h

theorem runNested_fullVal_length : ∀ (ns : List SpecNode) {nodes : List Node},
    runNested (emitChildBuilders ns) (fullVal s χ) = some nodes → nodes.length = ns.length
  | [], nodes, h => by
    cases h
    rfl
  | n :: ns, nodes, h => by
    simp only [emitChildBuilders, runNested, Option.bind_eq_bind, Option.bind_eq_some_iff] at h
    obtain ⟨x, hx, xs, hxs, heq⟩ := h
    cases heq
    rw [List.length_append, run_fullVal_length n hx, runNested_fullVal_length ns hxs,
      List.length_cons, Nat.add_comm]

theorem meaningAmong_fullVal_length : ∀ (ns : List SpecNode) {nodes : List Node},
    meaningAmong ns (fullVal s χ) = some nodes → nodes.length = ns.length
  | [], nodes, h => by
    cases h
    rfl
  | n :: ns, nodes, h => by
    simp only [meaningAmong, Option.bind_eq_bind, Option.bind_eq_some_iff] at h
    obtain ⟨x, hx, xs, hxs, heq⟩ := h
    cases heq
    rw [List.length_append, meaning_fullVal_length n hx, meaningAmong_fullVal_length ns hxs,
      List.length_cons, Nat.add_comm]

theorem hasBytes_of_contentBytes {self : Val} {c : WapContent} {field : String} {b : List UInt8}
    (h : contentBytes self c field = some b) : hasBytes c := by
  unfold contentBytes at h
  unfold hasBytes
  cases hc : c.constBytes with
  | some hex =>
    rw [hc] at h
    exact Option.isSome_iff_exists.mpr ⟨b, h⟩
  | none =>
    rw [hc] at h
    cases hk : c.kind with
    | bytes => rfl
    | dynamic => rfl
    | const =>
      simp only [hk, Option.map_eq_some_iff] at h
      obtain ⟨value, hvalue, _⟩ := h
      simp [hvalue]

theorem nodeContent_none_injective {ns ns' : List Node}
    (h : nodeContent none ns = nodeContent none ns') : ns = ns' := by
  cases ns with
  | nil =>
    cases ns' with
    | nil => rfl
    | cons n' ns' => cases h
  | cons n ns =>
    cases ns' with
    | nil => cases h
    | cons n' ns' => cases h; rfl

/-- What it takes of the parts of a node that the node is built as it is meant. -/
theorem node_parts {tag : String} {repeats : Bool} {attrs : List SpecAttr}
    {groups : List SpecGroup} {content : Option (WapContent × String)} {children : List SpecNode}
    {nodes : List Node}
    (hrun : (emitChildBuilder (.node tag repeats attrs groups content children)).run
      (fullVal s χ) = some nodes)
    (hmeaning : (SpecNode.node tag repeats attrs groups content children).meaning (fullVal s χ) =
      some nodes) :
    repeats = false ∧
      concatM (fun a : SpecAttr => a.meaning (fullVal s χ) (fullVal s χ)) attrs =
        some (attrs.flatMap (SpecAttr.built true .self (fullFrame s χ))) ∧
      (∃ nested, runNested (emitChildBuilders children) (fullVal s χ) = some nested ∧
        meaningAmong children (fullVal s χ) = some nested) ∧
      ∃ c, groupsBuilt (fullVal s χ) groups = some c ∧
        groupMeaning (fullVal s χ) groups = some c ∧
        ∀ x field, content = some (x, field) → hasBytes x ∧ children = [] ∧ c.children = [] := by
  cases repeats with
  | true => simp [SpecNode.meaning] at hmeaning
  | false =>
    rw [run_emitChildBuilder_node] at hrun
    simp only [Option.bind_eq_bind, Option.bind_eq_some_iff] at hrun
    obtain ⟨nested, hnested, c, hc, hnode⟩ := hrun
    cases hnode
    simp only [SpecNode.meaning, Bool.false_eq_true, if_false, Option.bind_eq_bind,
      Option.bind_eq_some_iff] at hmeaning
    obtain ⟨own, hown, nested', hnested', m, hm, bytes, hbytes, wire, hwire, heq⟩ := hmeaning
    simp only [Option.pure_def, Option.some.injEq, List.cons.injEq, Node.mk.injEq, true_and,
      and_true] at heq
    obtain ⟨hattrs, hcontent⟩ := heq
    have hgroups := groupsBuilt_length_le hc hm
    obtain ⟨hown', hmattrs⟩ := append_eq_append_of_length_le hattrs.symm
      (length_flatMap_le_concatM (fun a _ l hl => by
        rw [wireValue_length (SpecAttr.meaning_fullVal hl).2]
        exact a.built_length_le true .self) hown) hgroups.1
    have hparts : nested = nested' ∧ c.children = m.children ∧
        ∀ x field, content = some (x, field) →
          hasBytes x ∧ children = [] ∧ c.children = [] := by
      have hlen := runNested_fullVal_length children hnested
      have hlen' := meaningAmong_fullVal_length children hnested'
      cases content with
      | none =>
        cases hbytes
        rw [hcontent, Option.bind_none, ← finalContent_none _ hnested (groupsBuilt_children hc)]
          at hwire
        obtain ⟨hn, hk⟩ := List.append_inj (nodeContent_none_injective hwire) (by omega)
        exact ⟨hn.symm, hk.symm, nofun⟩
      | some content =>
        obtain ⟨x, field⟩ := content
        simp only [contentMeaning, Option.map_eq_some_iff] at hbytes
        obtain ⟨b, hb, rfl⟩ := hbytes
        have hnil : nested' ++ m.children = [] := by
          cases hn : nested' ++ m.children with
          | nil => rfl
          | cons n ns => rw [hn] at hwire; cases hwire
        obtain ⟨rfl, hmnil⟩ := List.append_eq_nil_iff.mp hnil
        have hcnil : c.children = [] := List.length_eq_zero_iff.mp (by rw [hgroups.2, hmnil]; rfl)
        refine ⟨List.length_eq_zero_iff.mp (hlen.trans hlen'.symm), by rw [hcnil, hmnil], ?_⟩
        intro y f heq
        cases heq
        exact ⟨hasBytes_of_contentBytes hb, List.length_eq_zero_iff.mp hlen'.symm, hcnil⟩
    obtain ⟨rfl, hchildren, hcontents⟩ := hparts
    have hcm : c = m := by
      cases c
      cases m
      simp_all
    subst hcm
    exact ⟨rfl, hown.trans (congrArg some hown'.symm), ⟨nested, hnested, hnested'⟩, c, hc, hm, hcontents⟩

mutual

/-- **A node that is built as it is meant has what it needs**, all of its sites included. -/
theorem faithful_of_run : ∀ n : SpecNode, n.WellNamed →
    (∀ s χ, ValidChoice χ → ∃ nodes, (emitChildBuilder n).run (fullVal s χ) = some nodes ∧
      n.meaning (fullVal s χ) = some nodes) → n.Faithful
  | .node tag repeats attrs groups content children, hnamed, h => by
    have hparts : ∀ s χ, ValidChoice χ → _ := fun s χ hχ =>
      let ⟨_, hrun, hmeaning⟩ := h s χ hχ
      node_parts hrun hmeaning
    have hfirst : ValidChoice (·.headD "") := by
      intro names hnames
      cases names with
      | nil => exact absurd rfl hnames
      | cons n ns => exact List.mem_cons_self
    -- to reach a variant, choose it wherever its group is matched on
    have hvariant : ∀ g ∈ groups, ∀ v ∈ g.variants, ∀ s : String,
        ∃ χ c, ValidChoice χ ∧ groupsBuilt (fullVal s χ) groups = some c ∧
          groupMeaning (fullVal s χ) groups = some c ∧ g.chosen (fullVal s χ) = some v ∧
          ∀ x field, content = some (x, field) → c.children = [] := by
      intro g hg v hv s
      have hχ := validChoice_choosing (List.mem_map_of_mem (f := (·.name)) hv)
      obtain ⟨_, _, _, c, hc, hm, hcontent⟩ := hparts s _ hχ
      exact ⟨_, c, hχ, hc, hm, SpecGroup.chosen_choosing (hnamed.1 g hg) hv,
        fun x field hx => (hcontent x field hx).2.2⟩
    refine ⟨(hparts "" _ hfirst).1, fun a ha => ?_, fun g hg v hv => ?_, ?_, ?_⟩
    · refine SpecAttr.faithful_of_built .self fun s => ⟨(·.headD ""), ?_⟩
      refine eq_of_concatM_eq (fun a _ l hl => ?_) (hparts s _ hfirst).2.1 a ha
      rw [wireValue_length (SpecAttr.meaning_fullVal hl).2]
      exact a.built_length_le true .self
    · refine SpecVariant.faithful_of_built fun s => ?_
      obtain ⟨χ, c, _, hc, hm, hchosen, _⟩ := hvariant g hg v hv s
      have heq := SpecGroup.built_eq_meaning hc hm g hg
      simp only [SpecGroup.built, SpecGroup.meaning, SpecGroup.choice_fullVal, hchosen,
        Option.map_some, Option.bind_some] at heq
      exact ⟨χ, heq.symm⟩
    · intro x field hx
      obtain ⟨_, _, _, _, _, _, hcontent⟩ := hparts "" _ hfirst
      refine ⟨(hcontent x field hx).1, (hcontent x field hx).2.1, fun g hg v hv => ?_⟩
      obtain ⟨χ, c, _, hc, _, hchosen, hnil⟩ := hvariant g hg v hv ""
      exact children_eq_nil_of_groupsBuilt hc hg hchosen (hnil x field hx)
    · refine faithfulAmong_of_run children hnamed.2 fun s χ hχ => ?_
      exact (hparts s χ hχ).2.2.1
  | .payloads tag field, _, _ => trivial
  | .flag field body, hnamed, h => by
    refine faithful_of_run body hnamed fun s χ hχ => ?_
    simpa only [emitChildBuilder, NodeCode.run, SpecNode.meaning, fullVal_field, fullVal_flag,
      if_true] using h s χ hχ
  | .owned field optional repeats body, hnamed, h => by
    refine faithful_of_run body hnamed fun s χ hχ => ?_
    simpa only [emitChildBuilder, NodeCode.run, SpecNode.meaning, heldItems_fullVal,
      mapM_singleton] using h s χ hχ

theorem faithfulAmong_of_run : ∀ ns : List SpecNode, WellNamedAmong ns →
    (∀ s χ, ValidChoice χ → ∃ nodes, runNested (emitChildBuilders ns) (fullVal s χ) = some nodes ∧
      meaningAmong ns (fullVal s χ) = some nodes) → FaithfulAmong ns
  | [], _, _ => trivial
  | n :: ns, hnamed, h => by
    have hparts : ∀ s χ, ValidChoice χ →
        (∃ nodes, (emitChildBuilder n).run (fullVal s χ) = some nodes ∧
          n.meaning (fullVal s χ) = some nodes) ∧
        ∃ nodes, runNested (emitChildBuilders ns) (fullVal s χ) = some nodes ∧
          meaningAmong ns (fullVal s χ) = some nodes := by
      intro s χ hχ
      obtain ⟨nodes, hrun, hmeaning⟩ := h s χ hχ
      simp only [emitChildBuilders, runNested, meaningAmong, Option.bind_eq_bind,
        Option.bind_eq_some_iff] at hrun hmeaning
      obtain ⟨x, hx, xs, hxs, heq⟩ := hrun
      obtain ⟨y, hy, ys, hys, heq'⟩ := hmeaning
      cases heq
      have hlen : y.length = x.length := by
        rw [run_fullVal_length n hx, meaning_fullVal_length n hy]
      obtain ⟨rfl, rfl⟩ := List.append_inj (Option.some.inj heq') hlen
      exact ⟨⟨y, hx, hy⟩, ys, hxs, hys⟩
    exact ⟨faithful_of_run n hnamed.1 fun s χ hχ => (hparts s χ hχ).1,
      faithfulAmong_of_run ns hnamed.2 fun s χ hχ => (hparts s χ hχ).2⟩

end

end Whatspec.Codegen

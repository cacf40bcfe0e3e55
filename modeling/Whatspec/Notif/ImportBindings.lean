import Whatspec.Notif.GroupScope

/-!
# Qualified imports call a loader

`validateImportBindings` walks the functions of a module with the loaders that nothing shadows.  The
name of such a loader leads to the frame of the factory from wherever it is called, and nothing
writes it there; a `with` is not looked at, though, and its object may have a property of the name.

* `Qualified`: what holds of everything that is evaluated in an accepted module;
* `passes_qualified`: it passes to the parts of every node;
* **`imports_qualified`**: in no run does an import call anything but a loader that the module
  system passed, as long as none is under a `with`;
* `imports_unqualified`: one that is may call anything.
-/

namespace Whatspec.Notif.GroupScope

open Whatspec.Library.ScopedCode
open Whatspec.Library.ScopedCode.Node

/-! ### Imports under a `with` -/

mutual

/-- A known module is imported under a `with`, in whatever function. -/
def importsUnderWith (modules : List String) (under : Bool) : Node → Bool
  | .call callee arguments =>
    (under && importsKnown modules arguments) || importsUnderWith modules under callee ||
      importsUnderWithAny modules under arguments
  | .withStatement object body =>
    importsUnderWith modules under object || importsUnderWith modules true body
  | n => importsUnderWithAny modules under n.children
termination_by n => 3 * sizeOf n
decreasing_by
  · rw [call.sizeOf_spec]
    omega
  · have := weight_le arguments
    rw [call.sizeOf_spec]
    omega
  · rw [withStatement.sizeOf_spec]
    omega
  · rw [withStatement.sizeOf_spec]
    omega
  · exact weight_children n

def importsUnderWithAny (modules : List String) (under : Bool) : List Node → Bool
  | [] => false
  | n :: ns => importsUnderWith modules under n || importsUnderWithAny modules under ns
termination_by ns => weight ns
decreasing_by
  all_goals simp only [weight]
  all_goals omega

end

theorem importsUnderWithAny_eq_false {modules : List String} {under : Bool} :
    ∀ {ns : List Node}, importsUnderWithAny modules under ns = false ↔
      ∀ n ∈ ns, importsUnderWith modules under n = false
  | [] => by simp [importsUnderWithAny]
  | n :: ns => by
    rw [importsUnderWithAny, Bool.or_eq_false_iff, importsUnderWithAny_eq_false]
    simp

theorem importsUnderWith_children {modules : List String} {under : Bool} {n c : Node}
    (h : importsUnderWith modules under n = false) (hc : c ∈ n.children)
    (hwith : ∀ object body, n ≠ .withStatement object body) :
    importsUnderWith modules under c = false := by
  cases n with
  | withStatement object body => exact absurd rfl (hwith object body)
  | call callee arguments =>
    rw [importsUnderWith, Bool.or_eq_false_iff, Bool.or_eq_false_iff] at h
    cases hc with
    | head => exact h.1.2
    | tail _ hc => exact importsUnderWithAny_eq_false.mp h.2 c hc
  | _ =>
    simp only [importsUnderWith] at h
    exact importsUnderWithAny_eq_false.mp h c hc

/-! ### What a function declares and assigns -/

/-- The name is declared or assigned. -/
def Bindings.Mentions (b : Bindings) (x : String) : Prop :=
  x ∈ b.names ∨ x ∈ b.lexical ∨ x ∈ b.assignments

theorem Bindings.mentions_append {a b : Bindings} {x : String} :
    (a ++ b).Mentions x ↔ a.Mentions x ∨ b.Mentions x := by
  show (x ∈ a.names ++ b.names ∨ x ∈ a.lexical ++ b.lexical ∨ x ∈ a.assignments ++ b.assignments) ↔
    (x ∈ a.names ∨ x ∈ a.lexical ∨ x ∈ a.assignments) ∨
      (x ∈ b.names ∨ x ∈ b.lexical ∨ x ∈ b.assignments)
  rw [List.mem_append, List.mem_append, List.mem_append]
  tauto

theorem Bindings.mentions_moved {b : Bindings} {x : String} :
    b.moved.Mentions x ↔ b.Mentions x := by
  show (x ∈ [] ∨ x ∈ b.names ++ b.lexical ∨ x ∈ b.assignments) ↔
    (x ∈ b.names ∨ x ∈ b.lexical ∨ x ∈ b.assignments)
  rw [List.mem_append]
  simp only [List.not_mem_nil, false_or]
  tauto

theorem mentions_bindingsAll {x : String} : ∀ {ns : List Node},
    (bindingsAll ns).Mentions x ↔ ∃ n ∈ ns, (bindings n).Mentions x
  | [] => by
    rw [bindingsAll]
    simp [Bindings.Mentions]
  | n :: ns => by
    rw [bindingsAll, Bindings.mentions_append, mentions_bindingsAll]
    simp

/-- What a part mentions the node mentions, a nested function apart. -/
theorem mentions_children {n c : Node} {x : String} (hc : c ∈ n.children)
    (hn : ∀ head parameters rest body, n ≠ .function head parameters rest body)
    (h : (bindings c).Mentions x) : (bindings n).Mentions x := by
  have hall : ∀ {ns : List Node}, c ∈ ns → (bindingsAll ns).Mentions x :=
    fun hc => mentions_bindingsAll.mpr ⟨c, hc, h⟩
  cases n with
  | function head parameters rest body => exact absurd rfl (hn head parameters rest body)
  | identifier | text | binding => cases hc
  | declaration isVar declarators =>
    cases isVar with
    | true =>
      simp only [bindings]
      exact hall hc
    | false =>
      rw [bindings, Bindings.mentions_moved]
      exact hall hc
  | catchClause parameter body =>
    rw [bindings, Bindings.mentions_append, Bindings.mentions_moved]
    rw [children, List.mem_append, List.mem_singleton] at hc
    exact hc.elim (fun hc => .inl (hall hc)) fun hc => .inr (hc ▸ h)
  | classNode isDeclaration id parts =>
    rw [bindings, Bindings.mentions_moved, Bindings.mentions_append]
    exact .inr (hall hc)
  | update argument =>
    rw [bindings, Bindings.mentions_append]
    exact .inr (List.mem_singleton.mp hc ▸ h)
  | assignment span left right =>
    rw [bindings, Bindings.mentions_append, Bindings.mentions_append]
    rw [children, List.mem_pair] at hc
    exact hc.elim (fun hc => .inl (.inr (hc ▸ h))) fun hc => .inr (hc ▸ h)
  | _ =>
    simp only [bindings]
    exact hall hc

theorem mentions_of_boundNames {own : Bool} {x : String} (n : Node) (h : x ∈ n.boundNames own) :
    (bindings n).Mentions x := by
  induction n using Node.induction_children generalizing own with
  | h n ih =>
    have hall : ∀ {own : Bool} {ns : List Node}, (∀ c ∈ ns, c ∈ n.children) →
        x ∈ boundNamesAll own ns → ∃ c ∈ ns, (bindings c).Mentions x := by
      intro own ns hns hx
      obtain ⟨c, hc, hx⟩ := mem_boundNamesAll.mp hx
      exact ⟨c, hc, ih c (hns c hc) hx⟩
    have hpart : ∀ {c : Node}, c ∈ n.children →
        (∀ head parameters rest body, n ≠ .function head parameters rest body) →
        (bindings c).Mentions x → (bindings n).Mentions x := mentions_children
    cases n with
    | binding y =>
      cases own with
      | true =>
        rw [boundNames] at h
        rw [bindings]
        exact .inl h
      | false =>
        rw [boundNames] at h
        cases h
    | function | arrow | classNode =>
      rw [boundNames] at h
      cases h
    | declaration isVar declarators =>
      rw [boundNames] at h
      obtain ⟨c, hc, hx⟩ := hall (fun _ => id) h
      exact hpart hc (by simp) hx
    | catchClause parameter body =>
      rw [boundNames, List.mem_append] at h
      have hbody : body ∈ (Node.catchClause parameter body).children :=
        List.mem_append_right _ (List.mem_singleton_self _)
      cases h with
      | inl h =>
        obtain ⟨c, hc, hx⟩ := hall (fun _ hc => List.mem_append_left _ hc) h
        exact hpart (List.mem_append_left _ hc) (by simp) hx
      | inr h => exact hpart hbody (by simp) (ih body hbody h)
    | _ =>
      simp only [boundNames] at h
      obtain ⟨c, hc, hx⟩ := hall (fun _ => id) h
      exact hpart hc (by simp) hx

theorem mentions_of_boundNamesAll {own : Bool} {x : String} {ns : List Node}
    (h : x ∈ boundNamesAll own ns) : ∃ n ∈ ns, (bindings n).Mentions x := by
  obtain ⟨n, hn, hx⟩ := mem_boundNamesAll.mp h
  exact ⟨n, hn, mentions_of_boundNames n hx⟩

theorem mem_declaresAll {x : String} : ∀ {ns : List Node},
    x ∈ declaresAll ns ↔ ∃ n ∈ ns, x ∈ n.declares
  | [] => by simp [declaresAll]
  | n :: ns => by
    rw [declaresAll, List.mem_append, mem_declaresAll]
    simp

theorem mem_functionNamesAll {x : String} : ∀ {ns : List Node},
    x ∈ functionNamesAll ns ↔ ∃ n ∈ ns, x ∈ n.functionNames
  | [] => by simp [functionNamesAll]
  | n :: ns => by
    rw [functionNamesAll, List.mem_append, mem_functionNamesAll]
    simp

theorem mentions_of_declares {x : String} (n : Node) (h : x ∈ n.declares) :
    (bindings n).Mentions x := by
  induction n using Node.induction_children with
  | h n ih =>
    cases n with
    | declaration isVar declarators =>
      cases isVar with
      | true =>
        simp only [declares] at h
        cases h
      | false =>
        rw [declares] at h
        obtain ⟨c, hc, hx⟩ := mentions_of_boundNamesAll h
        exact mentions_children (n := .declaration false declarators) hc (by simp) hx
    | function head parameters rest body =>
      rw [declares] at h
      split at h
      · rw [bindings]
        exact .inr (.inl h)
      · cases h
    | classNode isDeclaration id parts =>
      cases isDeclaration with
      | true =>
        rw [declares] at h
        rw [bindings, Bindings.mentions_moved, Bindings.mentions_append]
        exact .inl (.inl h)
      | false =>
        simp only [declares] at h
        cases h
    | compound form parts =>
      rw [declares] at h
      obtain ⟨c, hc, hx⟩ := mem_declaresAll.mp h
      exact mentions_children (n := .compound form parts) hc (by simp) (ih c hc hx)
    | _ =>
      simp only [declares] at h
      cases h

theorem mentions_of_functionNames {x : String} (n : Node) (h : x ∈ n.functionNames) :
    (bindings n).Mentions x := by
  induction n using Node.induction_children with
  | h n ih =>
    have hpart : ∀ {c : Node}, c ∈ n.children →
        (∀ head parameters rest body, n ≠ .function head parameters rest body) →
        (bindings c).Mentions x → (bindings n).Mentions x := mentions_children
    cases n with
    | function head parameters rest body =>
      rw [functionNames] at h
      split at h
      · rw [bindings]
        exact .inr (.inl h)
      · cases h
    | arrow | classNode | staticBlock =>
      rw [functionNames] at h
      cases h
    | _ =>
      simp only [functionNames] at h
      obtain ⟨c, hc, hx⟩ := mem_functionNamesAll.mp h
      exact hpart hc (by simp) (ih c hc hx)

theorem checkAll_eq_nil {modules aliases : List String} : ∀ {ns : List Node},
    checkAll modules aliases ns = [] ↔ ∀ n ∈ ns, check modules aliases n = []
  | [] => by simp [checkAll]
  | n :: ns => by
    rw [checkAll, List.append_eq_nil_iff, checkAll_eq_nil]
    simp

/-- A part of a node that passes the check passes it as well, a nested function apart. -/
theorem check_children {modules aliases : List String} {n c : Node}
    (h : check modules aliases n = []) (hc : c ∈ n.children)
    (hn : ∀ head parameters rest body, n ≠ .function head parameters rest body) :
    check modules aliases c = [] := by
  cases n with
  | function head parameters rest body => exact absurd rfl (hn head parameters rest body)
  | identifier | text | binding => cases hc
  | delete | iteration | arrow =>
    rw [check] at h
    cases h
  | assignment span left right =>
    rw [check, List.append_eq_nil_iff, List.append_eq_nil_iff] at h
    rw [children, List.mem_pair] at hc
    exact hc.elim (fun hc => hc ▸ h.1.2) fun hc => hc ▸ h.2
  | update argument =>
    rw [check, List.append_eq_nil_iff] at h
    exact List.mem_singleton.mp hc ▸ h.2
  | classNode isDeclaration id parts =>
    rw [check, List.append_eq_nil_iff] at h
    exact checkAll_eq_nil.mp h.2 c hc
  | call callee arguments =>
    rw [check, List.append_eq_nil_iff, List.append_eq_nil_iff] at h
    cases hc with
    | head => exact h.1.2
    | tail _ hc => exact checkAll_eq_nil.mp h.2 c hc
  | _ =>
    simp only [check] at h
    exact checkAll_eq_nil.mp h c hc

theorem mem_names_bindingsAll {x : String} : ∀ {ns : List Node},
    x ∈ (bindingsAll ns).names ↔ ∃ n ∈ ns, x ∈ (bindings n).names
  | [] => by simp [bindingsAll]
  | n :: ns => by
    rw [bindingsAll]
    show x ∈ (bindings n).names ++ (bindingsAll ns).names ↔ _
    rw [List.mem_append, mem_names_bindingsAll]
    simp

/-- **What the check takes for the names of a function is in the frames of its calls.** -/
theorem boundNames_of_names {modules aliases : List String} {x : String} (n : Node)
    (hcheck : check modules aliases n = []) (h : x ∈ (bindings n).names) :
    x ∈ n.boundNames true := by
  induction n using Node.induction_children with
  | h n ih =>
    have hwalk : (∀ head parameters rest body, n ≠ .function head parameters rest body) →
        x ∈ (bindingsAll n.children).names → x ∈ boundNamesAll true n.children := by
      intro hn hx
      obtain ⟨c, hc, hx⟩ := mem_names_bindingsAll.mp hx
      exact mem_boundNamesAll.mpr ⟨c, hc, ih c hc (check_children hcheck hc hn) hx⟩
    cases n with
    | binding y =>
      rw [bindings] at h
      rw [boundNames]
      exact h
    | function | classNode =>
      rw [bindings] at h
      cases h
    | arrow =>
      rw [check] at hcheck
      cases hcheck
    | declaration isVar declarators =>
      cases isVar with
      | true =>
        simp only [bindings] at h
        rw [boundNames]
        exact hwalk (by simp) h
      | false =>
        rw [bindings] at h
        cases h
    | catchClause parameter body =>
      rw [bindings] at h
      have hbody : body ∈ (Node.catchClause parameter body).children :=
        List.mem_append_right _ (List.mem_singleton_self _)
      rw [boundNames]
      exact List.mem_append_right _ (ih body hbody (check_children hcheck hbody (by simp)) h)
    | update argument =>
      rw [bindings] at h
      simp only [boundNames]
      refine hwalk (by simp) (mem_names_bindingsAll.mpr ⟨argument, List.mem_cons_self .., h⟩)
    | assignment span left right =>
      rw [bindings] at h
      simp only [boundNames]
      refine hwalk (by simp) (mem_names_bindingsAll.mpr ?_)
      cases List.mem_append.mp h with
      | inl h => exact ⟨left, List.mem_cons_self .., h⟩
      | inr h => exact ⟨right, List.mem_cons_of_mem _ (List.mem_cons_self ..), h⟩
    | _ =>
      simp only [bindings] at h
      simp only [boundNames]
      exact hwalk (by simp) h

theorem changesLoaderAny_eq_false {loaders : List String} : ∀ {ns : List Node},
    changesLoaderAny loaders ns = false ↔ ∀ n ∈ ns, changesLoader loaders n = false
  | [] => by simp [changesLoaderAny]
  | n :: ns => by
    rw [changesLoaderAny, Bool.or_eq_false_iff, changesLoaderAny_eq_false]
    simp

/-- Where no loader is declared again or assigned, none is mentioned. -/
theorem not_mentions_of_changesLoader {loaders : List String} {x : String} (hx : x ∈ loaders)
    (n : Node) (h : changesLoader loaders n = false) : ¬ (bindings n).Mentions x := by
  induction n using Node.induction_children with
  | h n ih =>
    have hall : ∀ {ns : List Node}, (∀ c ∈ ns, c ∈ n.children) →
        changesLoaderAny loaders ns = false → ¬ (bindingsAll ns).Mentions x := by
      intro ns hns hany hmentions
      obtain ⟨c, hc, hmentions⟩ := mentions_bindingsAll.mp hmentions
      exact ih c (hns c hc) (changesLoaderAny_eq_false.mp hany c hc) hmentions
    have hids : ∀ {id : Option String}, id.any (· ∈ loaders) = false → x ∉ id.toList := by
      rintro (_ | y) hid hmem
      · cases hmem
      · rw [Option.toList_some, List.mem_singleton] at hmem
        simp [← hmem, hx] at hid
    cases n with
    | function head parameters rest body =>
      rw [changesLoader] at h
      rw [bindings]
      rintro (hmem | hmem | hmem)
      · cases hmem
      · exact hids h hmem
      · cases hmem
    | binding y =>
      rw [changesLoader, decide_eq_false_iff_not] at h
      rw [bindings]
      rintro (hmem | hmem | hmem)
      · exact h (List.mem_singleton.mp hmem ▸ hx)
      · cases hmem
      · cases hmem
    | assignment span left right =>
      rw [changesLoader, Bool.or_eq_false_iff, Bool.or_eq_false_iff] at h
      rw [bindings, Bindings.mentions_append, Bindings.mentions_append]
      rintro (((hmem | hmem | hmem) | hleft) | hright)
      · cases hmem
      · cases hmem
      · exact List.any_eq_false.mp h.1.1 x hmem (decide_eq_true hx)
      · exact ih left (List.mem_cons_self ..) h.1.2 hleft
      · exact ih right (List.mem_cons_of_mem _ (List.mem_cons_self ..)) h.2 hright
    | update argument =>
      rw [changesLoader, Bool.or_eq_false_iff] at h
      rw [bindings, Bindings.mentions_append]
      rintro ((hmem | hmem | hmem) | hargument)
      · cases hmem
      · cases hmem
      · exact hids h.1 hmem
      · exact ih argument (List.mem_cons_self ..) h.2 hargument
    | declarator id init =>
      rw [changesLoader, Bool.or_eq_false_iff, Bool.or_eq_false_iff] at h
      simp only [bindings]
      rw [children, bindingsAll, Bindings.mentions_append]
      rintro (hid | hinit)
      · exact ih id (List.mem_cons_self ..) h.1.2 hid
      · exact hall (fun _ hc => List.mem_cons_of_mem _ hc) h.2 hinit
    | classNode isDeclaration id parts =>
      rw [changesLoader, Bool.or_eq_false_iff] at h
      rw [bindings, Bindings.mentions_moved, Bindings.mentions_append]
      rintro ((hmem | hmem | hmem) | hparts)
      · exact hids h.1 hmem
      · cases hmem
      · cases hmem
      · exact hall (fun _ hc => hc) h.2 hparts
    | declaration isVar declarators =>
      simp only [changesLoader] at h
      cases isVar with
      | true =>
        simp only [bindings]
        exact hall (fun _ hc => hc) h
      | false =>
        rw [bindings, Bindings.mentions_moved]
        exact hall (fun _ hc => hc) h
    | catchClause parameter body =>
      simp only [changesLoader] at h
      rw [bindings, Bindings.mentions_append, Bindings.mentions_moved]
      have hparts := changesLoaderAny_eq_false.mp h
      rintro (hparameter | hbody)
      · refine hall (fun _ hc => List.mem_append_left _ hc) ?_ hparameter
        exact changesLoaderAny_eq_false.mpr fun c hc => hparts c (List.mem_append_left _ hc)
      · have hmem : body ∈ (Node.catchClause parameter body).children :=
          List.mem_append_right _ (List.mem_singleton_self _)
        exact ih body hmem (hparts body hmem) hbody
    | _ =>
      simp only [changesLoader] at h
      simp only [bindings]
      exact hall (fun _ hc => hc) h

/-! ### Inside of an accepted module -/

/-- What holds of a node inside of an accepted module: its scopes are those inside of the factory,
then the frame of the factory; `aliases` are the loaders that none of the former declares. -/
structure Stands (modules loaders : List String) (frame : Scope) (outer inner : List Scope)
    (aliases : List String) (under : Bool) (env : List Scope) (n : Node) : Prop where
  scopes : env = inner ++ frame :: outer
  fresh : ∀ s ∈ inner, frame.id < s.id
  checked : check modules aliases n = []
  unmentioned : ∀ x ∈ aliases, ¬ (bindings n).Mentions x
  among : ∀ x ∈ aliases, x ∈ loaders
  unshadowed : ∀ x ∈ aliases, ∀ s ∈ inner, x ∉ s.declared
  shadowed : ∀ x ∈ loaders, x ∉ aliases → ∃ s ∈ inner, x ∈ s.declared
  whole : (∀ s ∈ inner, s.isFrame = false) → ∀ x ∈ loaders, x ∈ aliases
  imports : importsUnderWith modules under n = false
  plain : under = false → ∀ s ∈ inner, s.isObject = false

def Qualified (modules loaders : List String) (frame : Scope) (outer env : List Scope) (n : Node) :
    Prop :=
  ∃ inner aliases under, Stands modules loaders frame outer inner aliases under env n

section

variable {modules loaders : List String} {frame : Scope} {outer inner env : List Scope}
  {aliases : List String} {under : Bool} {n c : Node}

/-- A part of a node in the same function. -/
theorem Stands.child (h : Stands modules loaders frame outer inner aliases under env n)
    (hc : c ∈ n.children)
    (hn : ∀ head parameters rest body, n ≠ .function head parameters rest body)
    (between : List Scope)
    (hbetween : ∀ s ∈ between, frame.id < s.id ∧ ∀ x ∈ aliases, x ∉ s.declared) {under' : Bool}
    (himports : importsUnderWith modules under' c = false)
    (hplain : under' = false → under = false ∧ ∀ s ∈ between, s.isObject = false) :
    Qualified modules loaders frame outer (between ++ env) c := by
  refine ⟨between ++ inner, aliases, under', ?_⟩
  constructor
  case scopes => rw [h.scopes, List.append_assoc]
  case fresh =>
    intro s hs
    exact (List.mem_append.mp hs).elim (fun hs => (hbetween s hs).1) (h.fresh s)
  case checked => exact check_children h.checked hc hn
  case unmentioned =>
    exact fun x hx hmentions => h.unmentioned x hx (mentions_children hc hn hmentions)
  case among => exact h.among
  case unshadowed =>
    intro x hx s hs
    exact (List.mem_append.mp hs).elim (fun hs => (hbetween s hs).2 x hx) (h.unshadowed x hx s)
  case shadowed =>
    intro x hx hnot
    obtain ⟨s, hs, hxs⟩ := h.shadowed x hx hnot
    exact ⟨s, List.mem_append_right _ hs, hxs⟩
  case whole => exact fun hframes => h.whole fun s hs => hframes s (List.mem_append_right _ hs)
  case imports => exact himports
  case plain =>
    intro hunder s hs
    exact (List.mem_append.mp hs).elim ((hplain hunder).2 s) (h.plain (hplain hunder).1 s)

/-- A part of a node with a scope of its own, all of whose names the node mentions. -/
theorem Stands.scope (h : Stands modules loaders frame outer inner aliases under env n)
    (hc : c ∈ n.children)
    (hn : ∀ head parameters rest body, n ≠ .function head parameters rest body)
    (hwith : ∀ object body, n ≠ .withStatement object body) {s : Scope} (hfresh : frame.id < s.id)
    (hobject : s.isObject = false) (hmentions : ∀ x ∈ s.declared, (bindings n).Mentions x) :
    Qualified modules loaders frame outer (s :: env) c := by
  refine h.child hc hn [s] ?_ (importsUnderWith_children h.imports hc hwith) ?_
  · intro t ht
    rw [List.mem_singleton.mp ht]
    exact ⟨hfresh, fun x hx hdeclared => h.unmentioned x hx (hmentions x hdeclared)⟩
  · refine fun hunder => ⟨hunder, fun t ht => ?_⟩
    rw [List.mem_singleton.mp ht]
    exact hobject

/-- What the check of a function says. -/
theorem checked_function {head : FunctionHead} {parameters rest body : List Node}
    (h : check modules aliases (.function head parameters rest body) = []) :
    simpleParameters parameters rest = true ∧
      (∀ x ∈ aliases, x ∉ (functionBindings head parameters body).lexical) ∧
      (∀ x ∈ aliases, x ∉ (functionBindings head parameters body).names →
        x ∉ (functionBindings head parameters body).assignments) ∧
      checkAll modules (aliases.filter (· ∉ (functionBindings head parameters body).names))
        parameters = [] ∧
      checkAll modules (aliases.filter (· ∉ (functionBindings head parameters body).names))
        body = [] := by
  rw [check] at h
  split at h
  next hsimple =>
    simp only [List.append_eq_nil_iff, ite_eq_right_iff, List.cons_ne_nil, imp_false,
      Bool.not_eq_true, List.any_eq_false, decide_eq_true_eq, List.mem_filter] at h
    obtain ⟨⟨⟨⟨hlexical, hassigned⟩, -⟩, hparameters⟩, hbody⟩ := h
    exact ⟨hsimple, hlexical, fun x hx hnames hassignment => hassigned x hassignment ⟨hx, hnames⟩,
      hparameters, hbody⟩
  · cases h

theorem mentions_functionBindings {head : FunctionHead} {parameters body : List Node} {x : String}
    (hc : c ∈ parameters ∨ c ∈ body) (h : (bindings c).Mentions x) :
    (functionBindings head parameters body).Mentions x := by
  rw [functionBindings, Bindings.mentions_append, Bindings.mentions_append]
  cases hc with
  | inl hc => exact .inl (.inl (mentions_bindingsAll.mpr ⟨c, hc, h⟩))
  | inr hc => exact .inr (mentions_bindingsAll.mpr ⟨c, hc, h⟩)

/-- The names of the frame of a call are among those the function mentions. -/
theorem mentions_of_frameNames {head : FunctionHead} {parameters body : List Node}
    {x : String} (hx : x ∈ frameNames head parameters [] body) (harguments : x ≠ "arguments") :
    (functionBindings head parameters body).Mentions x := by
  rw [frameNames, List.append_nil, List.mem_append, List.mem_append, List.mem_cons] at hx
  obtain ((hx | hx) | hx) | hx := hx
  · exact absurd hx harguments
  · have hid : x ∈ head.id.toList := by
      split at hx
      · cases hx
      · exact hx
    rw [functionBindings, Bindings.mentions_append, Bindings.mentions_append]
    exact .inl (.inr (.inl hid))
  · obtain ⟨n, hn, hmentions⟩ := mentions_of_boundNamesAll hx
    exact mentions_functionBindings (List.mem_append.mp hn) hmentions
  · obtain ⟨n, hn, hmentions⟩ := mem_declaresAll.mp hx
    exact mentions_functionBindings (.inr hn) (mentions_of_declares n hmentions)

/-- A name of the function is in the frame of its calls, unless it is the declaration's own. -/
theorem frameNames_of_names {head : FunctionHead} {parameters body : List Node} {x : String}
    (hparameters : checkAll modules aliases parameters = [])
    (hbody : checkAll modules aliases body = [])
    (hx : x ∈ (functionBindings head parameters body).names) (hid : x ∉ head.id.toList) :
    x ∈ frameNames head parameters [] body := by
  have hbound : ∀ {ns : List Node}, checkAll modules aliases ns = [] →
      x ∈ (bindingsAll ns).names → x ∈ boundNamesAll true ns := by
    intro ns hns hx
    obtain ⟨n, hn, hx⟩ := mem_names_bindingsAll.mp hx
    exact mem_boundNamesAll.mpr ⟨n, hn, boundNames_of_names n (checkAll_eq_nil.mp hns n hn) hx⟩
  have hall : x ∈ boundNamesAll true (parameters ++ [] ++ body) := by
    have hx : (x ∈ (bindingsAll parameters).names ∨ x ∈ head.id.toList) ∨
        x ∈ (bindingsAll body).names := by
      rw [← List.mem_append, ← List.mem_append]
      exact hx
    obtain (hx | hx) | hx := hx
    · obtain ⟨n, hn, hx⟩ := mem_boundNamesAll.mp (hbound hparameters hx)
      exact mem_boundNamesAll.mpr ⟨n, by simp [hn], hx⟩
    · exact absurd hx hid
    · obtain ⟨n, hn, hx⟩ := mem_boundNamesAll.mp (hbound hbody hx)
      exact mem_boundNamesAll.mpr ⟨n, by simp [hn], hx⟩
  exact List.mem_cons_of_mem _ (List.mem_append_left _ (List.mem_append_right _ hall))

/-- The parts of a function, in the frame of a call. -/
theorem Stands.function {head : FunctionHead} {parameters rest body : List Node} {i : ℕ}
    {hoisted : List String}
    (h : Stands modules loaders frame outer inner aliases under env
      (.function head parameters rest body))
    (harguments : "arguments" ∉ loaders) (hi : frame.id < i)
    (hhoisted : hoisted ⊆ functionNamesAll body)
    (hc : c ∈ (Node.function head parameters rest body).children) :
    Qualified modules loaders frame outer
      (.frame i (frameNames head parameters rest body ++ hoisted)
        (boundNamesAll true parameters) :: env) c := by
  obtain ⟨hsimple, hlexical, hassigned, hparameters, hbody⟩ := checked_function h.checked
  rw [simpleParameters, Bool.and_eq_true, List.isEmpty_iff] at hsimple
  obtain ⟨rfl, -⟩ := hsimple
  have hpart : c ∈ parameters ∨ c ∈ body := by
    simpa [children] using hc
  let names := (functionBindings head parameters body).names
  have hnext : ∀ {x}, x ∈ aliases.filter (· ∉ names) ↔ x ∈ aliases ∧ x ∉ names := by
    intro x
    rw [List.mem_filter, decide_eq_true_iff]
  have hunmentioned : ∀ x ∈ aliases.filter (· ∉ names),
      ¬ (functionBindings head parameters body).Mentions x := by
    rintro x hx (hmem | hmem | hmem)
    · exact (hnext.mp hx).2 hmem
    · exact hlexical x (hnext.mp hx).1 hmem
    · exact hassigned x (hnext.mp hx).1 (hnext.mp hx).2 hmem
  refine ⟨.frame i (frameNames head parameters [] body ++ hoisted)
    (boundNamesAll true parameters) :: inner, aliases.filter (· ∉ names), under, ?_⟩
  constructor
  case scopes => rw [h.scopes, List.cons_append]
  case fresh =>
    intro s hs
    cases hs with
    | head => exact hi
    | tail _ hs => exact h.fresh s hs
  case checked =>
    exact hpart.elim (checkAll_eq_nil.mp hparameters c) (checkAll_eq_nil.mp hbody c)
  case unmentioned =>
    exact fun x hx hmentions => hunmentioned x hx (mentions_functionBindings hpart hmentions)
  case among => exact fun x hx => h.among x (hnext.mp hx).1
  case unshadowed =>
    intro x hx s hs
    cases hs with
    | head =>
      intro hdeclared
      refine hunmentioned x hx ?_
      cases List.mem_append.mp hdeclared with
      | inl hdeclared =>
        refine mentions_of_frameNames hdeclared ?_
        rintro rfl
        exact harguments (h.among _ (hnext.mp hx).1)
      | inr hdeclared =>
        obtain ⟨n, hn, hmentions⟩ := mem_functionNamesAll.mp (hhoisted hdeclared)
        exact mentions_functionBindings (.inr hn) (mentions_of_functionNames n hmentions)
    | tail _ hs => exact h.unshadowed x (hnext.mp hx).1 s hs
  case shadowed =>
    intro x hx hnot
    by_cases hxa : x ∈ aliases
    · have hxn : x ∈ names := by
        by_contra hxn
        exact hnot (hnext.mpr ⟨hxa, hxn⟩)
      have hid : x ∉ head.id.toList := by
        intro hid
        refine h.unmentioned x hxa ?_
        rw [bindings]
        exact .inr (.inl hid)
      exact ⟨_, List.mem_cons_self .., List.mem_append_left _
        (frameNames_of_names hparameters hbody hxn hid)⟩
    · obtain ⟨s, hs, hxs⟩ := h.shadowed x hx hxa
      exact ⟨s, List.mem_cons_of_mem _ hs, hxs⟩
  case whole =>
    intro hframes
    cases hframes _ (List.mem_cons_self ..)
  case imports => exact importsUnderWith_children h.imports hc (by simp)
  case plain =>
    intro hunder s hs
    cases hs with
    | head => rfl
    | tail _ hs => exact h.plain hunder s hs

/-- **What holds inside of an accepted module passes to the parts of every node.** -/
theorem passes_qualified (harguments : "arguments" ∉ loaders) :
    Passes (frame.id + 1) (Qualified modules loaders frame outer) := by
  intro i hoisted env n hi ⟨inner, aliases, under, h⟩ hhoisted c hc
  have hmap : ∀ {ms : List Node} {e : List Scope}, c ∈ ms.map (e, ·) → c.1 = e ∧ c.2 ∈ ms := by
    intro ms e hc
    obtain ⟨m, hm, rfl⟩ := List.mem_map.mp hc
    exact ⟨rfl, hm⟩
  cases n with
  | block nodes =>
    obtain ⟨he, hm⟩ := hmap hc
    rw [he]
    refine h.scope hm (by simp) (by simp) hi rfl fun x hx => ?_
    obtain ⟨m, hm, hx⟩ := mem_declaresAll.mp hx
    exact mentions_children (n := .block nodes) hm (by simp) (mentions_of_declares m hx)
  | iteration | arrow =>
    have hchecked := h.checked
    rw [check] at hchecked
    cases hchecked
  | catchClause parameter body =>
    obtain ⟨he, hm⟩ := hmap hc
    rw [he]
    refine h.scope hm (by simp) (by simp) hi rfl fun x hx => ?_
    obtain ⟨m, hm, hx⟩ := mentions_of_boundNamesAll hx
    exact mentions_children (n := .catchClause parameter body) (List.mem_append_left _ hm)
      (by simp) hx
  | withStatement object body =>
    have himports := h.imports
    rw [importsUnderWith, Bool.or_eq_false_iff] at himports
    rw [parts, List.mem_pair] at hc
    cases hc with
    | inl hc =>
      rw [hc]
      exact h.child (List.mem_cons_self ..) (by simp) [] (by simp) himports.1
        fun hunder => ⟨hunder, by simp⟩
    | inr hc =>
      rw [hc]
      refine h.child (List.mem_cons_of_mem _ (List.mem_cons_self ..)) (by simp) [.object i] ?_
        himports.2 (by simp)
      intro s hs
      rw [List.mem_singleton.mp hs]
      exact ⟨hi, fun x _ h => by cases h⟩
  | function head parameters rest body =>
    obtain ⟨he, hm⟩ := hmap hc
    rw [he]
    exact h.function harguments hi hhoisted hm
  | classNode isDeclaration id ns =>
    obtain ⟨he, hm⟩ := hmap hc
    rw [he]
    refine h.scope hm (by simp) (by simp) hi rfl fun x hx => ?_
    rw [bindings, Bindings.mentions_moved, Bindings.mentions_append]
    cases List.mem_append.mp hx with
    | inl hx => exact .inl (.inl hx)
    | inr hx =>
      obtain ⟨m, hm, hx⟩ := mentions_of_boundNamesAll hx
      exact .inr (mentions_bindingsAll.mpr ⟨m, (List.mem_filter.mp hm).1, hx⟩)
  | staticBlock ns =>
    obtain ⟨he, hm⟩ := hmap hc
    rw [he]
    refine h.scope hm (by simp) (by simp) hi rfl fun x hx => ?_
    have hmentions : ∃ m ∈ ns, (bindings m).Mentions x := by
      rw [Scope.declared, List.mem_append, List.mem_append] at hx
      obtain (hx | hx) | hx := hx
      · exact mentions_of_boundNamesAll hx
      · obtain ⟨m, hm, hx⟩ := mem_declaresAll.mp hx
        exact ⟨m, hm, mentions_of_declares m hx⟩
      · obtain ⟨m, hm, hx⟩ := mem_functionNamesAll.mp (hhoisted hx)
        exact ⟨m, hm, mentions_of_functionNames m hx⟩
    obtain ⟨m, hm, hx⟩ := hmentions
    exact mentions_children (n := .staticBlock ns) hm (by simp) hx
  | _ =>
    obtain ⟨he, hm⟩ := hmap hc
    rw [he]
    exact h.child hm (by simp) [] (by simp) (importsUnderWith_children h.imports hm (by simp))
      fun hunder => ⟨hunder, by simp⟩

/-! ### What an accepted module writes and calls -/

mutual

theorem assignmentNames_of_written {x : String} : ∀ {n : Node}, some x ∈ n.written →
    x ∈ assignmentNames n
  | .identifier y, h => by
    rw [written, List.mem_singleton, Option.some_inj] at h
    rw [assignmentNames, h]
    exact List.mem_singleton_self _
  | .targets ts others, h => by
    rw [written] at h
    rw [assignmentNames]
    exact assignmentNamesAll_of_writtenAll h
  | .member parts, h => by
    rw [written, List.mem_singleton] at h
    cases h
  | .text _, h | .binding _, h | .call .., h | .assignment .., h | .update _, h | .delete _, h
  | .pattern _, h | .declaration .., h | .declarator .., h | .block _, h | .iteration .., h
  | .catchClause .., h | .withStatement .., h | .function .., h | .arrow .., h
  | .classNode .., h | .staticBlock _, h | .compound .., h => by
    simp only [written] at h
    cases h

theorem assignmentNamesAll_of_writtenAll {x : String} : ∀ {ns : List Node},
    some x ∈ writtenAll ns → x ∈ assignmentNamesAll ns
  | [], h => by
    rw [writtenAll] at h
    cases h
  | n :: ns, h => by
    rw [writtenAll] at h
    rw [assignmentNamesAll]
    exact (List.mem_append.mp h).elim
      (fun h => List.mem_append_left _ (assignmentNames_of_written h))
      fun h => List.mem_append_right _ (assignmentNamesAll_of_writtenAll h)

end

/-- A loader's name that leads to the factory's frame is not shadowed. -/
theorem Stands.alias_of_resolves {x : String}
    (h : Stands modules loaders frame outer inner aliases under env n) (hx : x ∈ loaders)
    (hresolves : Resolves env x (.binding frame.id x)) : x ∈ aliases := by
  by_contra hnot
  rw [h.scopes] at hresolves
  obtain ⟨s, hs, hp⟩ := resolves_inner hresolves (h.shadowed x hx hnot)
  have hfresh := h.fresh s hs
  obtain hp | ⟨hp, -⟩ := hp
  · injection hp with hid _
    omega
  · cases hp

/-- **Nothing in an accepted module writes a loader.** -/
theorem not_writes_loader {x : String} {kind : Kind} (hx : x ∈ loaders)
    (h : Qualified modules loaders frame outer env n) :
    ¬ Writes env n kind (.binding frame.id x) := by
  obtain ⟨inner, aliases, under, h⟩ := h
  have hresolved : ∀ {y : String}, Resolves env y (.binding frame.id x) →
      (bindings n).Mentions y → False := by
    intro y hresolves hmentions
    have hname := name_of_resolves hresolves
    injection hname with hname
    subst hname
    exact h.unmentioned x (h.alias_of_resolves hx hresolves) hmentions
  generalize hp : Place.binding frame.id x = p at hresolved ⊢
  intro hwrites
  cases hwrites with
  | assignment ht hleads =>
    cases hleads with
    | member => cases hp
    | name hresolves =>
      refine hresolved hresolves ?_
      rw [bindings, Bindings.mentions_append, Bindings.mentions_append]
      exact .inl (.inl (.inr (.inr (assignmentNames_of_written ht))))
  | update hresolves =>
    refine hresolved hresolves ?_
    rw [bindings, Bindings.mentions_append]
    exact .inl (.inr (.inr (List.mem_singleton_self _)))
  | updateMember => cases hp
  | delete | iteration | iterationVar =>
    have hchecked := h.checked
    rw [check] at hchecked
    cases hchecked
  | @declaration declarators id value y _ hd hy hresolves =>
    have hbound : y ∈ (Node.declaration true declarators).boundNames true := by
      rw [boundNames]
      refine mem_boundNamesAll.mpr ⟨_, hd, ?_⟩
      simp only [boundNames, children, boundNamesAll]
      exact List.mem_append_left _ hy
    exact hresolved hresolves (mentions_of_boundNames _ hbound)
  | hoisted hy henv hnear hdeclared =>
    injection hp with hid hname
    by_cases hframes : ∃ s ∈ inner, s.isFrame = true
    · have hscopes := h.scopes
      rw [henv] at hscopes
      have hfresh := h.fresh _ (mem_of_first_frame hscopes.symm hnear hframes)
      exact absurd hid (Nat.ne_of_lt hfresh)
    · have hall : ∀ s ∈ inner, s.isFrame = false := fun s hs =>
        Bool.eq_false_iff.mpr fun hframe => hframes ⟨s, hs, hframe⟩
      obtain ⟨m, hm, hy⟩ := mem_declaresAll.mp hy
      exact h.unmentioned x (h.whole hall x hx)
        (mentions_children (n := .block _) hm (by simp) (hname ▸ mentions_of_declares m hy))
  | argument hresolves hframe hy =>
    have hchecked := h.checked
    rw [check] at hchecked
    cases hchecked

/-- A node of an accepted module evaluates no text as code. -/
theorem evaluates_eq_false (h : Qualified modules loaders frame outer env n) :
    n.evaluates = false := by
  obtain ⟨inner, aliases, under, h⟩ := h
  cases n with
  | call callee arguments =>
    have hchecked := h.checked
    rw [check, List.append_eq_nil_iff, List.append_eq_nil_iff, List.append_eq_nil_iff] at hchecked
    have heval := hchecked.1.1.1
    rw [evaluates]
    split
    next x hcallee =>
      rw [hcallee] at heval
      simpa [identifierName] using heval
    · rfl
  | _ => rfl

/-- **An import calls what the factory's frame keeps under a loader's name.** -/
theorem called_of_qualified {V : Type*} {σ : State V} {callee : Node} {arguments : List Node}
    {v : V} (h : Qualified modules loaders frame outer env (.call callee arguments))
    (hframe : ∀ x ∈ loaders, x ∈ frame.declared) (hyields : Yields σ env callee v)
    (himports : importsKnown modules arguments = true) :
    arguments.length = 1 ∧ ∃ x ∈ loaders, v = σ.store frame.id x := by
  obtain ⟨inner, aliases, under, h⟩ := h
  have hchecked := h.checked
  rw [check, List.append_eq_nil_iff, List.append_eq_nil_iff, List.append_eq_nil_iff] at hchecked
  have himport := hchecked.1.1.2
  simp only [himports, Bool.true_and, ite_eq_right_iff, List.cons_ne_nil, imp_false,
    Bool.or_eq_true, Bool.not_eq_true', not_or, decide_eq_true_eq, not_not] at himport
  obtain ⟨hlength, halias⟩ := himport
  refine ⟨hlength, ?_⟩
  have hunder : under = false := by
    have himports' := h.imports
    rw [importsUnderWith, himports, Bool.and_true, Bool.or_eq_false_iff,
      Bool.or_eq_false_iff] at himports'
    exact himports'.1.1
  cases callee with
  | identifier x =>
    have hx : x ∈ aliases := by simpa [identifierName] using halias
    have hplace : ∀ {p}, Resolves env x p → p = .binding frame.id x := by
      intro p hresolves
      rw [h.scopes] at hresolves
      have hresolves := resolves_outer hresolves (h.unshadowed x hx) (h.plain hunder)
      cases hresolves with
      | declared => rfl
      | property => cases hframe x (h.among x hx)
      | outer hnot => exact absurd (hframe x (h.among x hx)) hnot
    refine ⟨x, h.among x hx, ?_⟩
    cases hyields with
    | binding hresolves =>
      have hid := hplace hresolves
      injection hid with hid _
      rw [hid]
    | name hresolves hnot => exact absurd (hplace hresolves) (hnot _)
    | other hnot => exact absurd rfl (hnot x)
  | _ => simp [identifierName] at halias

end

/-! ### The runs of an accepted module -/

/-- The factory of a module, and the names its imports may have. -/
def moduleOf (statements : List Node) (knownModules : List String) :
    Option (Factory × List String) :=
  match statements with
  | [.compound .expressionStatement [.call _ arguments]] =>
    match arguments[1]?, factoryOf arguments with
    | some (Node.compound .array elements), some f =>
      match dependencies elements with
      | .ok deps => some (f, knownModules ++ deps)
      | .error _ => none
    | _, _ => none
  | _ => none

def Factory.node (f : Factory) : Node := .function f.head f.parameters f.rest f.body

/-- What the wrapper of an accepted module is. -/
theorem loaderAliases_ok {statements : List Node} {loaders : List String}
    (h : loaderAliases statements = .ok loaders) :
    ∃ callee arguments f, statements = [.compound .expressionStatement [.call callee arguments]] ∧
      factoryOf arguments = some f ∧ loaders = f.loaders ∧
      (∀ n ∈ f.parameters, isPlainBinding n = true) ∧ f.rest = [] ∧
      "arguments" ∉ f.parameterNames ∧ changesLoaderAny f.loaders f.body = false := by
  unfold loaderAliases at h
  split at h
  next e =>
    split at h
    next callee arguments =>
      split at h
      · cases h
      split at h
      · cases h
      next f hf =>
        split at h
        · cases h
        next hbindings =>
          split at h
          · cases h
          next hambiguous =>
            split at h
            · cases h
            next hchanges =>
              simp only [Bool.or_eq_true, not_or, Bool.not_eq_true', Bool.not_eq_false,
                List.isEmpty_iff, List.any_eq_true, not_exists, not_and] at hbindings
              simp only [Bool.or_eq_true, not_or, List.any_eq_true, not_exists, not_and,
                decide_eq_true_eq] at hambiguous
              refine ⟨callee, arguments, f, rfl, hf, ?_, ?_, hbindings.1.1.2, ?_, ?_⟩
              · injection h with h
                exact h.symm
              · exact fun n hn => hbindings.2 n hn
              · exact fun hmem => (hambiguous.2 _ hmem).2 rfl
              · exact Bool.eq_false_iff.mpr hchanges
    · cases h
  · cases h

/-- What an accepted module is. -/
theorem validateImportBindings_ok {statements : List Node} {knownModules modules : List String}
    {f : Factory} (hok : validateImportBindings statements knownModules = .ok ())
    (hmodule : moduleOf statements knownModules = some (f, modules)) :
    (∀ n ∈ f.parameters, isPlainBinding n = true) ∧ f.rest = [] ∧
      "arguments" ∉ f.parameterNames ∧ changesLoaderAny f.loaders f.body = false ∧
      checkAll modules f.loaders f.body = [] := by
  rw [validateImportBindings] at hok
  split at hok
  · cases hok
  next loaders haliases =>
    obtain ⟨callee, arguments, g, rfl, hg, rfl, hplain, hrest, harguments, hchanges⟩ :=
      loaderAliases_ok haliases
    simp only [moduleOf, hg] at hmodule hok
    split at hmodule
    next elements g' helements hg' =>
      injection hg' with hg'
      subst hg'
      rw [helements] at hok
      simp only at hok
      split at hmodule
      next deps hdeps =>
        rw [hdeps] at hok
        injection hmodule with hmodule
        injection hmodule with hf hmodules
        subst hf
        subst hmodules
        simp only at hok
        split at hok
        next herrors => exact ⟨hplain, hrest, harguments, hchanges, List.isEmpty_iff.mp herrors⟩
        · cases hok
      · cases hmodule
    · cases hmodule

/-- The factory has been called: its frame keeps what was passed under the names of its parameters,
but for those that are functions of its body. -/
structure Started {V : Type*} (f : Factory) (frame : ℕ) (passed : String → V) (σ : State V) : Prop
    where
  live : ∃ outer hoisted, hoisted ⊆ f.node.hoistable ∧
    σ.live = {c | c ∈ f.node.parts frame hoisted outer}
  fresh : frame < σ.fresh
  store : ∀ x ∈ f.parameterNames, x ∉ declaresAll f.body → σ.store frame x = passed x

/-- In every run of the factory, every call whose first argument is the name of one of the modules
has no other argument and calls a loader that was passed. -/
def ImportsQualified (modules : List String) (f : Factory) : Prop :=
  ∀ (V : Type) (frame : ℕ) (passed : String → V) (σ₀ σ σ' : State V) (v : V)
    (arguments : List Node),
    Started f frame passed σ₀ → Run σ₀ σ → Step σ (.called v arguments) σ' →
      importsKnown modules arguments = true →
        arguments.length = 1 ∧ ∃ x ∈ f.loaders, v = passed x

theorem mem_parameterNames_of_loaders {f : Factory} {x : String} (hx : x ∈ f.loaders) :
    x ∈ f.parameterNames := by
  obtain ⟨n, hn, hname⟩ := List.mem_filterMap.mp hx
  exact List.mem_filterMap.mpr ⟨n, List.mem_of_mem_drop (List.mem_of_mem_take hn), hname⟩

theorem mem_boundNames_of_parameterNames {f : Factory} {x : String} (hx : x ∈ f.parameterNames) :
    x ∈ boundNamesAll true f.parameters := by
  obtain ⟨n, hn, hname⟩ := List.mem_filterMap.mp hx
  refine mem_boundNamesAll.mpr ⟨n, hn, ?_⟩
  cases n with
  | binding y =>
    injection hname with hname
    rw [boundNames, hname]
    exact List.mem_singleton_self _
  | _ => cases hname

/-- **Import qualification is sound**, as long as no import is under a `with`. -/
theorem imports_qualified {statements : List Node} {knownModules modules : List String}
    {f : Factory} (hok : validateImportBindings statements knownModules = .ok ())
    (hmodule : moduleOf statements knownModules = some (f, modules))
    (hwith : importsUnderWithAny modules false f.body = false) : ImportsQualified modules f := by
  obtain ⟨hplain, hrest, harguments, hchanges, hcheck⟩ := validateImportBindings_ok hok hmodule
  intro V i passed σ₀ σ σ' v arguments hstarted hrun hstep himports
  obtain ⟨outer, hoisted, hhoisted, hlive⟩ := hstarted.live
  let frame : Scope := .frame i (frameNames f.head f.parameters f.rest f.body ++ hoisted)
    (boundNamesAll true f.parameters)
  have hnoarguments : "arguments" ∉ f.loaders := fun hmem =>
    harguments (mem_parameterNames_of_loaders hmem)
  have hdeclared : ∀ x ∈ f.loaders, x ∈ frame.declared := by
    intro x hx
    obtain ⟨n, hn, hx⟩ :=
      mem_boundNamesAll.mp (mem_boundNames_of_parameterNames (mem_parameterNames_of_loaders hx))
    have hall : x ∈ boundNamesAll true (f.parameters ++ f.rest ++ f.body) := by
      refine mem_boundNamesAll.mpr ⟨n, ?_, hx⟩
      exact List.mem_append_left _ (List.mem_append_left _ hn)
    exact List.mem_append_left _
      (List.mem_cons_of_mem _ (List.mem_append_left _ (List.mem_append_right _ hall)))
  -- the parameters of the factory are bindings, which do nothing
  let P : List Scope → Node → Prop := fun env n =>
    isPlainBinding n = true ∨ Qualified modules f.loaders frame outer env n
  have hqualified : Passes (frame.id + 1) (Qualified modules f.loaders frame outer) :=
    passes_qualified hnoarguments
  have hpasses : Passes (i + 1) P := by
    rintro j hoisted' env n hj (h | h) hsub c hc
    · obtain ⟨x, rfl⟩ := isPlainBinding_iff.mp h
      cases hc
    · exact .inr (hqualified j hoisted' env n hj h hsub c hc)
  have hholds : Holds (i + 1) P σ₀ := by
    refine ⟨hstarted.fresh, fun c hc => ?_⟩
    rw [hlive] at hc
    obtain ⟨n, hn, rfl⟩ := List.mem_map.mp hc
    rw [hrest, List.append_nil, List.mem_append] at hn
    cases hn with
    | inl hn => exact .inl (hplain n hn)
    | inr hn =>
      exact .inr ⟨[], f.loaders, false,
        { scopes := rfl
          fresh := nofun
          checked := checkAll_eq_nil.mp hcheck n hn
          unmentioned := fun x hx =>
            not_mentions_of_changesLoader hx n (changesLoaderAny_eq_false.mp hchanges n hn)
          among := fun _ => id
          unshadowed := fun _ _ => nofun
          shadowed := fun x hx hnot => absurd hx hnot
          whole := fun _ _ => id
          imports := importsUnderWithAny_eq_false.mp hwith n hn
          plain := fun _ => nofun }⟩
  have hquiet : ∀ env n, P env n → n.evaluates = false := by
    rintro env n (h | h)
    · obtain ⟨x, rfl⟩ := isPlainBinding_iff.mp h
      rfl
    · exact evaluates_eq_false h
  have hplainRun := plainRun_of_run hpasses hquiet hholds hrun
  have hkept : ∀ x ∈ f.loaders, σ.store i x = passed x := by
    intro x hx
    have hunwritten : ∀ env n kind, P env n → ¬ Writes env n kind (.binding i x) := by
      rintro env n kind (h | h)
      · obtain ⟨y, rfl⟩ := isPlainBinding_iff.mp h
        exact nofun
      · exact not_writes_loader hx h
    rw [store_of_plainRun hpasses hholds (Nat.lt_succ_self i) hunwritten hplainRun]
    refine hstarted.store x (mem_parameterNames_of_loaders hx) fun hdeclares => ?_
    obtain ⟨n, hn, hdeclares⟩ := mem_declaresAll.mp hdeclares
    exact not_mentions_of_changesLoader hx n (changesLoaderAny_eq_false.mp hchanges n hn)
      (mentions_of_declares n hdeclares)
  cases hstep with
  | call hmem hyields =>
    cases (live_of_plainRun hpasses hholds hplainRun).2 _ hmem with
    | inl h => cases h
    | inr h =>
      obtain ⟨hlength, x, hx, hv⟩ := called_of_qualified h hdeclared hyields himports
      exact ⟨hlength, x, hx, hv.trans (hkept x hx)⟩

/-- A factory of this body. -/
def handlerFactory (body : List Node) : Factory :=
  ⟨{}, ["global", "require", "lazy", "dynamic", "module", "exports", "map"].map .binding, [], body⟩

/-- The wrapper of a handler that depends on one module. -/
def handler (dependency : String) (body : List Node) : List Node :=
  [.compound .expressionStatement [.call (.identifier "__d")
    [.text "WAWebHandleGroupNotification", .compound .array [.text dependency],
      (handlerFactory body).node, .text "id"]]]

/-- `var smax = require("WASmax")`. -/
theorem imports_qualified_require :
    ImportsQualified ["WASmax"] (handlerFactory
      [.declaration true [.declarator (.binding "smax")
        [.call (.identifier "require") [.text "WASmax"]]]]) :=
  @imports_qualified (handler "WASmax" _) [] _ _ (by decide +kernel) rfl (by decide +kernel)

/-- `with (module) { require("WASmax") }` is accepted, and may call a property of `module`. -/
theorem imports_unqualified :
    ¬ ∀ (statements : List Node) (knownModules modules : List String) (f : Factory),
      validateImportBindings statements knownModules = .ok () →
        moduleOf statements knownModules = some (f, modules) → ImportsQualified modules f := by
  intro h
  let call : Node := .call (.identifier "require") [.text "WASmax"]
  let statement : Node := .compound .expressionStatement [call]
  let within : Node := .withStatement (.identifier "module") (.block [statement])
  have hok : validateImportBindings (handler "WASmax" [within]) [] = .ok () := by decide +kernel
  have hqualified := h (handler "WASmax" [within]) [] ["WASmax"] (handlerFactory [within]) hok rfl
  let f := (handlerFactory [within]).node
  let frame : Scope := .frame 0 (frameNames {} (handlerFactory []).parameters [] [within] ++ [])
    (boundNamesAll true (handlerFactory []).parameters)
  let names : Scope := .names 2 (declaresAll [statement])
  let σ₀ : State Bool := ⟨1, fun _ _ => true, {c | c ∈ f.parts 0 [] []}⟩
  let σ₁ := σ₀.entered [] [frame] within
  let σ₂ := σ₁.entered [] [.object 1, frame] (.block [statement])
  let σ₃ := σ₂.entered [] [names, .object 1, frame] statement
  have hstarted : Started (handlerFactory [within]) 0 (fun _ => true) σ₀ :=
    ⟨⟨[], [], List.nil_subset _, rfl⟩, Nat.zero_lt_one, fun _ _ _ => rfl⟩
  have hwithin : ([frame], within) ∈ σ₀.live :=
    List.mem_map.mpr ⟨within, List.mem_append_right _ (List.mem_singleton_self _), rfl⟩
  have hblock : ([.object 1, frame], Node.block [statement]) ∈ σ₁.live :=
    .inr (List.mem_cons_of_mem _ (List.mem_cons_self ..))
  have hstatement : ([names, .object 1, frame], statement) ∈ σ₂.live :=
    .inr (List.mem_map.mpr ⟨statement, List.mem_cons_self .., rfl⟩)
  have hcall : ([names, .object 1, frame], call) ∈ σ₃.live :=
    .inr (List.mem_map.mpr ⟨call, List.mem_cons_self .., rfl⟩)
  have hrun : PlainRun σ₀ σ₃ :=
    ((PlainRun.entered .refl hwithin).entered hblock).entered hstatement
  have hdeclared : "require" ∉ declaresAll [statement] := by decide +kernel
  have hyields : Yields σ₃ [names, .object 1, frame] (.identifier "require") false :=
    .name (.outer hdeclared .property) fun _ => nofun
  obtain ⟨-, x, -, hx⟩ := hqualified Bool 0 (fun _ => true) σ₀ σ₃ σ₃ false [.text "WASmax"] hstarted
    (PlainRun.run hrun) (.call hcall hyields) (by decide)
  cases hx

end Whatspec.Notif.GroupScope

import Whatspec.Notif.GroupScope

/-!
# An accepted action leaves the envelope alone

`validateCapturedWrites` goes down through the functions of an action with the captured names that
no function on the way declares.  A name that has been dropped leads to one of the frames on the
way, so what is written under it stays inside; a name that has not is written by the marker alone.

* `Inside`: what holds of everything that is evaluated inside of an accepted function;
* `passes_inside`: it passes to the parts of every node;
* **`envelope_untouched`**: no run writes the envelope, as long as no `var` of the action takes a
  value apart under a `with`;
* `envelope_touched`: one that does writes the object of the `with`.
-/

namespace Whatspec.Notif.GroupScope

open Whatspec.Library.ScopedCode
open Whatspec.Library.ScopedCode.Node

/-! ### Taking a value apart under a `with` -/

/-- A declarator that takes its value apart, for at least one name. -/
def destructures : Node → Bool
  | .declarator id [_] => id.kind .declaration = .destructuring && id.boundNames true ≠ []
  | _ => false

mutual

/-- A `var` takes a value apart under a `with` of its own function. -/
def destructuresUnderWith (under : Bool) : Node → Bool
  | .declaration true declarators =>
    (under && declarators.any destructures) || destructuresUnderWithAny under declarators
  | .withStatement object body =>
    destructuresUnderWith under object || destructuresUnderWith true body
  | .function _ parameters rest body =>
    destructuresUnderWithAny false (parameters ++ rest ++ body)
  | .arrow parameters body => destructuresUnderWithAny false (parameters ++ body)
  | .classNode _ _ parts => destructuresUnderWithAny false parts
  | .staticBlock statements => destructuresUnderWithAny false statements
  | n => destructuresUnderWithAny under n.children
termination_by n => 3 * sizeOf n
decreasing_by
  · exact weight_children (.declaration true declarators)
  · rw [withStatement.sizeOf_spec]
    omega
  · rw [withStatement.sizeOf_spec]
    omega
  · exact weight_children (.function _ parameters rest body)
  · exact weight_children (.arrow parameters body)
  · exact weight_children (.classNode _ _ parts)
  · exact weight_children (.staticBlock statements)
  · exact weight_children n

def destructuresUnderWithAny (under : Bool) : List Node → Bool
  | [] => false
  | n :: ns => destructuresUnderWith under n || destructuresUnderWithAny under ns
termination_by ns => weight ns
decreasing_by
  all_goals simp only [weight]
  all_goals omega

end

/-! ### What the walks say of the parts of a node -/

theorem invalidWritesAny_eq_false {marker : Option (String × ℕ)} {captured : List String} :
    ∀ {ns : List Node}, invalidWritesAny marker captured ns = false ↔
      ∀ n ∈ ns, invalidWrites marker captured n = false
  | [] => by simp [invalidWritesAny]
  | n :: ns => by
    rw [invalidWritesAny, Bool.or_eq_false_iff, invalidWritesAny_eq_false]
    simp

theorem destructuresUnderWithAny_eq_false {under : Bool} :
    ∀ {ns : List Node}, destructuresUnderWithAny under ns = false ↔
      ∀ n ∈ ns, destructuresUnderWith under n = false
  | [] => by simp [destructuresUnderWithAny]
  | n :: ns => by
    rw [destructuresUnderWithAny, Bool.or_eq_false_iff, destructuresUnderWithAny_eq_false]
    simp

theorem mem_bound_localsAll {x : String} : ∀ {ns : List Node},
    x ∈ (localsAll ns).bound ↔ ∃ n ∈ ns, x ∈ (locals n).bound
  | [] => by simp [localsAll]
  | n :: ns => by
    rw [localsAll]
    show x ∈ (locals n).bound ++ (localsAll ns).bound ↔ _
    rw [List.mem_append, mem_bound_localsAll]
    simp

/-- **What the validator takes for the names of a function is in the frames of its calls.** -/
theorem boundNames_of_locals {x : String} (n : Node) (h : x ∈ (locals n).bound) :
    x ∈ n.boundNames true := by
  induction n using Node.induction_children with
  | h n ih =>
    have hwalk : ∀ {own : Bool}, (∀ c ∈ n.children, x ∈ c.boundNames true → x ∈ c.boundNames own) →
        x ∈ (localsAll n.children).bound → x ∈ boundNamesAll own n.children := by
      intro own hown hx
      obtain ⟨c, hc, hx⟩ := mem_bound_localsAll.mp hx
      exact mem_boundNamesAll.mpr ⟨c, hc, hown c hc (ih c hc hx)⟩
    cases n with
    | binding y =>
      rw [locals] at h
      rw [boundNames]
      exact h
    | declaration isVar declarators =>
      cases isVar with
      | true =>
        simp only [locals] at h
        rw [boundNames]
        exact hwalk (fun _ _ => id) h
      | false =>
        rw [locals] at h
        cases h
    | catchClause parameter body =>
      rw [locals] at h
      rw [boundNames]
      refine List.mem_append_right _ (ih body ?_ h)
      exact List.mem_append_right _ (List.mem_singleton_self _)
    | function | arrow | classNode =>
      rw [locals] at h
      cases h
    | _ =>
      simp only [locals] at h
      simp only [boundNames]
      exact hwalk (fun _ _ => id) h

/-- Every write of a part is a write of the node, a nested function apart. -/
theorem invalidWrites_children {marker : Option (String × ℕ)} {captured : List String}
    {n c : Node} (h : invalidWrites marker captured n = false) (hc : c ∈ n.children)
    (hn : ∀ head parameters rest body, n ≠ .function head parameters rest body) :
    invalidWrites marker captured c = false := by
  cases n with
  | function head parameters rest body => exact absurd rfl (hn head parameters rest body)
  | delete | iteration | arrow | update =>
    rw [invalidWrites] at h
    cases h
  | assignment span left right =>
    rw [invalidWrites, Bool.or_eq_false_iff, Bool.or_eq_false_iff] at h
    rw [children, List.mem_pair] at hc
    cases hc with
    | inl hc => exact hc ▸ h.1.2
    | inr hc => exact hc ▸ h.2
  | _ =>
    simp only [invalidWrites] at h
    exact invalidWritesAny_eq_false.mp h c hc

theorem destructuresUnderWith_framed {under : Bool} {n c : Node}
    (h : destructuresUnderWith under n = false) (hc : c ∈ n.children) (hn : n.isFramed = true) :
    destructuresUnderWith false c = false := by
  cases n with
  | function | arrow | classNode | staticBlock =>
    rw [destructuresUnderWith] at h
    exact destructuresUnderWithAny_eq_false.mp h c hc
  | _ => cases hn

theorem destructuresUnderWith_children {under : Bool} {n c : Node}
    (h : destructuresUnderWith under n = false) (hc : c ∈ n.children) (hn : n.isFramed = false)
    (hwith : ∀ object body, n ≠ .withStatement object body) :
    destructuresUnderWith under c = false := by
  cases n with
  | function | arrow | classNode | staticBlock => cases hn
  | withStatement object body => exact absurd rfl (hwith object body)
  | declaration isVar declarators =>
    cases isVar with
    | true =>
      rw [destructuresUnderWith, Bool.or_eq_false_iff] at h
      exact destructuresUnderWithAny_eq_false.mp h.2 c hc
    | false =>
      simp only [destructuresUnderWith] at h
      exact destructuresUnderWithAny_eq_false.mp h c hc
  | _ =>
    simp only [destructuresUnderWith] at h
    exact destructuresUnderWithAny_eq_false.mp h c hc

/-- An accepted function: plain parameters, and no write in its body. -/
theorem validated {marker : Option (String × ℕ)} {captured : List String}
    {parameters rest body : List Node}
    (h : (validateCapturedWrites marker captured parameters rest body).isOk = true) :
    simpleParameters parameters rest = true ∧
      ∀ n ∈ body, invalidWrites marker
        (captured.filter (· ∉ (localsAll parameters ++ localsAll body).bound)) n = false := by
  rw [validateCapturedWrites] at h
  split at h
  · cases h
  next hsimple =>
    refine ⟨by simpa using hsimple, ?_⟩
    simp only at h
    split at h
    · cases h
    split at h
    · cases h
    split at h
    · cases h
    next hwrites => exact invalidWritesAny_eq_false.mp (by simpa using hwrites)

theorem invalidWrites_binding {marker : Option (String × ℕ)} {captured : List String} {x : String} :
    invalidWrites marker captured (.binding x) = false := by
  simp [invalidWrites, children, invalidWritesAny]

/-! ### Inside of an accepted function -/

/-- What holds of a node inside of an accepted function: its scopes are `near` up to the frame of
its call, then others inside of the function, then those around; `kept` are the captured names that
no function on the way declares. -/
structure Standing (outer : List Scope) (first : ℕ) (marker : Option (String × ℕ))
    (captured : List String) (near : List Scope) (frame : Scope) (far : List Scope)
    (kept : List String) (under own : Bool) (env : List Scope) (n : Node) : Prop where
  scopes : env = near ++ frame :: far ++ outer
  fresh : ∀ s ∈ near ++ frame :: far, first ≤ s.id
  allowed : invalidWrites marker kept n = false
  dropped : ∀ x ∈ captured, x ∉ kept → ∃ s ∈ near ++ frame :: far, x ∈ s.declared
  arguments : ∃ s ∈ near ++ frame :: far, "arguments" ∈ s.declared
  unframed : ∀ s ∈ near, s.isFrame = false
  framed : frame.isFrame = true
  bound : n.isFramed = false → n.boundNames own ⊆ frame.declared
  apart : destructuresUnderWith under n = false
  plain : under = false → ∀ s ∈ near, s.isObject = false

def Inside (outer : List Scope) (first : ℕ) (marker : Option (String × ℕ))
    (captured : List String) (env : List Scope) (n : Node) : Prop :=
  ∃ near frame far kept under own,
    Standing outer first marker captured near frame far kept under own env n

section

variable {outer env near far : List Scope} {first : ℕ} {marker : Option (String × ℕ)}
  {captured kept : List String} {frame : Scope} {under own : Bool} {n c : Node}

/-- A part of a node in the same function, where the scope in between is not an object. -/
theorem Standing.child
    (h : Standing outer first marker captured near frame far kept under own env n)
    (hc : c ∈ n.children) (hn : n.isFramed = false)
    (hwith : ∀ object body, n ≠ .withStatement object body) (between : List Scope)
    (hbetween : ∀ s ∈ between, first ≤ s.id ∧ s.isFrame = false ∧ s.isObject = false) :
    Inside outer first marker captured (between ++ env) c := by
  obtain ⟨own', hbound⟩ := (@boundNames_children own _ _ hc).resolve_right (by rw [hn]; nofun)
  have hnear : ∀ {p : Scope → Prop}, (∃ s ∈ near ++ frame :: far, p s) →
      ∃ s ∈ (between ++ near) ++ frame :: far, p s := by
    intro p ⟨s, hs, hp⟩
    rw [List.append_assoc]
    exact ⟨s, List.mem_append_right _ hs, hp⟩
  refine ⟨between ++ near, frame, far, kept, under, own', ?_⟩
  constructor
  case scopes => rw [h.scopes, List.append_assoc, List.append_assoc, List.append_assoc]
  case fresh =>
    intro s hs
    rw [List.append_assoc, List.mem_append] at hs
    exact hs.elim (fun hs => (hbetween s hs).1) (h.fresh s)
  case allowed =>
    refine invalidWrites_children h.allowed hc ?_
    rintro head parameters rest body rfl
    cases hn
  case dropped => exact fun x hx hkept => hnear (h.dropped x hx hkept)
  case arguments => exact hnear h.arguments
  case unframed =>
    intro s hs
    exact (List.mem_append.mp hs).elim (fun hs => (hbetween s hs).2.1) (h.unframed s)
  case framed => exact h.framed
  case bound => exact fun _ x hx => h.bound hn (hbound hx)
  case apart => exact destructuresUnderWith_children h.apart hc hn hwith
  case plain =>
    intro hunder s hs
    exact (List.mem_append.mp hs).elim (fun hs => (hbetween s hs).2.2) (h.plain hunder s)

/-- A node right in a frame. -/
theorem inside_of_frame {inner : List Scope} (hscopes : env = inner ++ outer)
    (hfresh : ∀ s ∈ frame :: inner, first ≤ s.id) (hallowed : invalidWrites marker kept n = false)
    (hdropped : ∀ x ∈ captured, x ∉ kept → ∃ s ∈ frame :: inner, x ∈ s.declared)
    (harguments : ∃ s ∈ frame :: inner, "arguments" ∈ s.declared) (hframed : frame.isFrame = true)
    (hbound : n.isFramed = false → n.boundNames true ⊆ frame.declared)
    (hapart : destructuresUnderWith false n = false) :
    Inside outer first marker captured (frame :: env) n :=
  ⟨[], frame, inner, kept, false, true,
    { scopes := by rw [hscopes]; rfl
      fresh := hfresh
      allowed := hallowed
      dropped := hdropped
      arguments := harguments
      unframed := nofun
      framed := hframed
      bound := hbound
      apart := hapart
      plain := fun _ => nofun }⟩

/-- The parts of an accepted function, called in scopes where the names it may write are known. -/
theorem inside_of_function {head : FunctionHead} {parameters rest body : List Node}
    {inner : List Scope} {i : ℕ} {hoisted : List String} (hi : first ≤ i)
    (hok : (validateCapturedWrites marker kept parameters rest body).isOk = true)
    (hscopes : env = inner ++ outer) (hfresh : ∀ s ∈ inner, first ≤ s.id)
    (hdropped : ∀ x ∈ captured, x ∉ kept → ∃ s ∈ inner, x ∈ s.declared)
    (hapart : destructuresUnderWith under (.function head parameters rest body) = false)
    (hc : c ∈ (Node.function head parameters rest body).children) :
    Inside outer first marker captured
      (.frame i (frameNames head parameters rest body ++ hoisted)
        (boundNamesAll true parameters) :: env) c := by
  obtain ⟨hsimple, hbody⟩ := validated hok
  have hdeclared : ∀ x ∈ boundNamesAll true (parameters ++ rest ++ body),
      x ∈ frameNames head parameters rest body ++ hoisted := by
    intro x hx
    refine List.mem_append_left _ (List.mem_cons_of_mem _ ?_)
    exact List.mem_append_left _ (List.mem_append_right _ hx)
  have hlocals : ∀ x ∈ (localsAll parameters ++ localsAll body).bound,
      x ∈ boundNamesAll true (parameters ++ rest ++ body) := by
    intro x hx
    have hmem : ∃ n ∈ parameters ++ rest ++ body, x ∈ (locals n).bound := by
      cases List.mem_append.mp hx with
      | inl hx =>
        obtain ⟨n, hn, hx⟩ := mem_bound_localsAll.mp hx
        exact ⟨n, List.mem_append_left _ (List.mem_append_left _ hn), hx⟩
      | inr hx =>
        obtain ⟨n, hn, hx⟩ := mem_bound_localsAll.mp hx
        exact ⟨n, List.mem_append_right _ hn, hx⟩
    obtain ⟨n, hn, hx⟩ := hmem
    exact mem_boundNamesAll.mpr ⟨n, hn, boundNames_of_locals n hx⟩
  let names := (localsAll parameters ++ localsAll body).bound
  refine @inside_of_frame outer env first marker captured (kept.filter (· ∉ names)) _ c inner
    hscopes ?_ ?_ ?_ ?_ rfl ?_ (destructuresUnderWith_framed hapart hc rfl)
  · intro s hs
    cases hs with
    | head => exact hi
    | tail _ hs => exact hfresh s hs
  · rw [children, List.mem_append, List.mem_append] at hc
    rw [simpleParameters, Bool.and_eq_true, List.isEmpty_iff, List.all_eq_true] at hsimple
    obtain (hc | hc) | hc := hc
    · obtain ⟨x, rfl⟩ := isPlainBinding_iff.mp (hsimple.2 c hc)
      exact invalidWrites_binding
    · rw [hsimple.1] at hc
      cases hc
    · exact hbody c hc
  · intro x hx hfiltered
    by_cases hkept : x ∈ kept
    · refine ⟨_, List.mem_cons_self .., hdeclared x (hlocals x ?_)⟩
      by_contra hbound
      exact hfiltered (List.mem_filter.mpr ⟨hkept, decide_eq_true hbound⟩)
    · obtain ⟨s, hs, hxs⟩ := hdropped x hx hkept
      exact ⟨s, List.mem_cons_of_mem _ hs, hxs⟩
  · exact ⟨_, List.mem_cons_self .., List.mem_append_left _ (List.mem_cons_self ..)⟩
  · exact fun _ x hx => hdeclared x (mem_boundNamesAll.mpr ⟨c, hc, hx⟩)

/-- **What holds inside of an accepted function passes to the parts of every node.** -/
theorem passes_inside : Passes first (Inside outer first marker captured) := by
  intro i hoisted env n hi ⟨near, frame, far, kept, under, own, h⟩ hhoisted c hc
  have hmap : ∀ {ms : List Node} {e : List Scope}, c ∈ ms.map (e, ·) → c.1 = e ∧ c.2 ∈ ms := by
    intro ms e hc
    obtain ⟨m, hm, rfl⟩ := List.mem_map.mp hc
    exact ⟨rfl, hm⟩
  have hnames : ∀ xs, ∀ s ∈ [Scope.names i xs],
      first ≤ s.id ∧ s.isFrame = false ∧ s.isObject = false := by
    intro xs s hs
    rw [List.mem_singleton.mp hs]
    exact ⟨hi, rfl, rfl⟩
  have hframe : ∀ {s : Scope} {m : Node}, s.isFrame = true → s.id = i → n.isFramed = true →
      m ∈ n.children → invalidWrites marker kept m = false →
      (m.isFramed = false → m.boundNames true ⊆ s.declared) →
      Inside outer first marker captured (s :: env) m := by
    intro s m hs hid hn hm hallowed hbound
    refine inside_of_frame h.scopes ?_ hallowed ?_ ?_ hs hbound
      (destructuresUnderWith_framed h.apart hm hn)
    · intro t ht
      cases ht with
      | head => exact hid ▸ hi
      | tail _ ht => exact h.fresh t ht
    · intro x hx hkept
      obtain ⟨t, ht, hxt⟩ := h.dropped x hx hkept
      exact ⟨t, List.mem_cons_of_mem _ ht, hxt⟩
    · obtain ⟨t, ht, hxt⟩ := h.arguments
      exact ⟨t, List.mem_cons_of_mem _ ht, hxt⟩
  cases n with
  | block nodes =>
    obtain ⟨he, hm⟩ := hmap hc
    rw [he]
    exact h.child hm rfl (by simp) [_] (hnames _)
  | iteration left rest =>
    have hallowed := h.allowed
    rw [invalidWrites] at hallowed
    cases hallowed
  | catchClause parameter body =>
    obtain ⟨he, hm⟩ := hmap hc
    rw [he]
    exact h.child hm rfl (by simp) [_] (hnames _)
  | withStatement object body =>
    have hallowed := invalidWrites_children h.allowed (c := c.2)
    have hapart := h.apart
    rw [destructuresUnderWith, Bool.or_eq_false_iff] at hapart
    have hbound : ∀ m ∈ [object, body], m.isFramed = false → m.boundNames own ⊆ frame.declared := by
      intro m hm _ x hx
      refine h.bound rfl ?_
      simp only [boundNames]
      exact mem_boundNamesAll.mpr ⟨m, hm, hx⟩
    rw [parts, List.mem_pair] at hc
    cases hc with
    | inl hc =>
      subst hc
      exact ⟨near, frame, far, kept, under, own,
        { h with
          allowed := hallowed (List.mem_cons_self ..) (by simp)
          bound := hbound _ (List.mem_cons_self ..)
          apart := hapart.1 }⟩
    | inr hc =>
      subst hc
      have hobject : ∀ {p : Scope → Prop}, (∃ s ∈ near ++ frame :: far, p s) →
          ∃ s ∈ (Scope.object i :: near) ++ frame :: far, p s := by
        intro p hsome
        obtain ⟨s, hs, hp⟩ := hsome
        exact ⟨s, List.mem_cons_of_mem _ hs, hp⟩
      exact ⟨.object i :: near, frame, far, kept, true, own,
        { scopes := by rw [h.scopes]; rfl
          fresh := fun s hs => (List.mem_cons.mp hs).elim (fun hs => hs ▸ hi) (h.fresh s)
          allowed := hallowed (List.mem_cons_of_mem _ (List.mem_cons_self ..)) (by simp)
          dropped := fun x hx hkept => hobject (h.dropped x hx hkept)
          arguments := hobject h.arguments
          unframed := fun s hs => (List.mem_cons.mp hs).elim (fun hs => hs ▸ rfl) (h.unframed s)
          framed := h.framed
          bound := hbound _ (List.mem_cons_of_mem _ (List.mem_cons_self ..))
          apart := hapart.2
          plain := by simp }⟩
  | function head parameters rest body =>
    obtain ⟨he, hm⟩ := hmap hc
    have hallowed := h.allowed
    rw [invalidWrites, Bool.not_eq_false'] at hallowed
    rw [he]
    exact inside_of_function hi hallowed h.scopes h.fresh h.dropped h.apart hm
  | arrow parameters body =>
    have hallowed := h.allowed
    rw [invalidWrites] at hallowed
    cases hallowed
  | classNode isDeclaration id ns =>
    obtain ⟨he, hm⟩ := hmap hc
    rw [he]
    refine hframe rfl rfl rfl hm (invalidWrites_children h.allowed hm (by simp)) ?_
    intro hunframed x hx
    refine List.mem_append_right _ (mem_boundNamesAll.mpr ⟨_, List.mem_filter.mpr ⟨hm, ?_⟩, hx⟩)
    rw [hunframed]
    rfl
  | staticBlock ns =>
    obtain ⟨he, hm⟩ := hmap hc
    rw [he]
    refine hframe rfl rfl rfl hm (invalidWrites_children h.allowed hm (by simp)) ?_
    intro _ x hx
    refine List.mem_append_left _ (List.mem_append_left _ ?_)
    exact mem_boundNamesAll.mpr ⟨_, hm, hx⟩
  | _ =>
    obtain ⟨he, hm⟩ := hmap hc
    rw [he]
    exact h.child hm rfl (by simp) [] (by simp)

end

/-! ### What an accepted function writes -/

/-- The place is under this name in one of the scopes, or global. -/
def Around (outer : List Scope) (x : String) : Place → Prop
  | .binding i y | .property i y => y = x ∧ ∃ s ∈ outer, s.id = i
  | .global y => y = x
  | .member => False

/-- A write of this kind to the place changes an object: through a member, or in the object of a
`with` by other means than a plain assignment or declaration. -/
def ChangesObject (kind : Kind) : Place → Prop
  | .member => True
  | .property _ _ => kind = .update ∨ kind = .delete ∨ kind = .destructuring
  | _ => False

/-- A write that leaves the envelope alone: under a captured name around it is the marker's
assignment, and it changes no object. -/
def Harmless (outer : List Scope) (marker : Option (String × ℕ)) (captured : List String) (n : Node)
    (kind : Kind) (p : Place) : Prop :=
  (∀ x ∈ captured, Around outer x p →
    ∃ span right, n = .assignment span (.identifier x) right ∧ marker = some (x, span)) ∧
  ¬ ChangesObject kind p

section

variable {outer env : List Scope} {first : ℕ} {marker : Option (String × ℕ)}
  {captured : List String} {n : Node} {kind : Kind} {p : Place}

/-- A place of a scope made since is not around. -/
theorem not_around {s : Scope} {x y : String} (houter : ∀ t ∈ outer, t.id < first)
    (hs : first ≤ s.id) (hp : p = .binding s.id x ∨ p = .property s.id x ∧ s.isObject = true) :
    ¬ Around outer y p := by
  have hne : ∀ t ∈ outer, t.id ≠ s.id := fun t ht => by
    have := houter t ht
    omega
  obtain rfl | ⟨rfl, -⟩ := hp
  · exact fun ⟨_, t, ht, hid⟩ => hne t ht hid
  · exact fun ⟨_, t, ht, hid⟩ => hne t ht hid

/-- A name leads to a place under it. -/
theorem name_of_around {x y : String} (h : Resolves env x p) (hy : Around outer y p) : y = x := by
  have hname := name_of_resolves h
  cases p with
  | member => cases hy
  | binding i z | property i z =>
    injection hname with hname
    rw [← hname, hy.1]
  | global z =>
    injection hname with hname
    rw [← hname]
    exact Eq.symm hy

/-- What is written under a name by plain means changes no object. -/
theorem not_changesObject {x : String} (h : Resolves env x p)
    (hkind : kind = .assignment ∨ kind = .declaration ∨ kind = .argument) :
    ¬ ChangesObject kind p := by
  have hname := name_of_resolves h
  cases p with
  | member => cases hname
  | property i z =>
    rintro (rfl | rfl | rfl) <;> simp at hkind
  | _ => exact id

/-- An assignment to one name. -/
theorem harmless_assignment {span : ℕ} {left right : Node} {t : Option String}
    (houter : ∀ s ∈ outer, s.id < first)
    (h : Inside outer first marker captured env (.assignment span left right))
    (ht : t ∈ left.written) (hp : Leads env t p) :
    Harmless outer marker captured (.assignment span left right) (left.kind .assignment) p := by
  obtain ⟨near, frame, far, kept, under, own, h⟩ := h
  have hallowed := h.allowed
  rw [invalidWrites, Bool.or_eq_false_iff, Bool.or_eq_false_iff] at hallowed
  cases left with
  | identifier name =>
    rw [written, List.mem_singleton] at ht
    subst ht
    cases hp with
    | name hresolves =>
      refine ⟨fun x hx haround => ?_, not_changesObject hresolves (.inl rfl)⟩
      cases name_of_around hresolves haround
      have hkept : name ∈ kept := by
        by_contra hkept
        rw [h.scopes] at hresolves
        obtain ⟨s, hs, hp⟩ := resolves_inner hresolves (h.dropped name hx hkept)
        exact not_around houter (h.fresh s hs) hp haround
      have hmarker : marker = some (name, span) := by
        simpa [identifierName, hkept] using hallowed.1.1
      exact ⟨span, right, rfl, hmarker⟩
  | _ => cases hallowed.1.1

/-- A `var` writes into the frame of its function, or an object in front of it that it does not take
its value apart for. -/
theorem harmless_declaration {declarators : List Node} {id value : Node} {x : String}
    (houter : ∀ s ∈ outer, s.id < first)
    (h : Inside outer first marker captured env (.declaration true declarators))
    (hd : .declarator id [value] ∈ declarators) (hx : x ∈ id.boundNames true)
    (hp : Resolves env x p) :
    Harmless outer marker captured (.declaration true declarators) (id.kind .declaration) p := by
  obtain ⟨near, frame, far, kept, under, own, h⟩ := h
  have hframe : x ∈ frame.declared := by
    refine h.bound rfl ?_
    rw [boundNames]
    refine mem_boundNamesAll.mpr ⟨_, hd, ?_⟩
    simp only [boundNames, children, boundNamesAll]
    exact List.mem_append_left _ hx
  have hresolves := hp
  rw [h.scopes, List.append_cons, List.append_assoc] at hresolves
  obtain ⟨s, hs, hplace⟩ := resolves_inner hresolves
    ⟨frame, List.mem_append_right _ (List.mem_singleton_self _), hframe⟩
  have hfresh : first ≤ s.id := by
    refine h.fresh s ?_
    rw [List.append_cons]
    exact List.mem_append_left _ hs
  refine ⟨fun y _ haround => absurd haround (not_around houter hfresh hplace), ?_⟩
  obtain rfl | ⟨rfl, hobject⟩ := hplace
  · exact not_false
  -- the object of a `with`: the declarator takes nothing apart
  have hkind : id.kind .declaration = .declaration := by
    by_contra hkind
    have hdestructures : destructures (.declarator id [value]) = true := by
      have hne : id.boundNames true ≠ [] := List.ne_nil_of_mem hx
      cases id with
      | targets | pattern => simp [destructures, kind, hne]
      | _ => exact absurd rfl hkind
    have hapart := h.apart
    rw [destructuresUnderWith, Bool.or_eq_false_iff, Bool.and_eq_false_iff] at hapart
    have hunder : under = false := hapart.1.resolve_right fun hany =>
      (List.any_eq_false.mp hany _ hd) hdestructures
    cases List.mem_append.mp hs with
    | inl hs =>
      rw [h.plain hunder s hs] at hobject
      cases hobject
    | inr hs =>
      have hframed := h.framed
      rw [← List.mem_singleton.mp hs] at hframed
      cases s with
      | object => cases hframed
      | _ => cases hobject
  rw [hkind]
  rintro (hchanges | hchanges | hchanges) <;> cases hchanges

theorem harmless_writes (houter : ∀ s ∈ outer, s.id < first)
    (h : Inside outer first marker captured env n) (hwrites : Writes env n kind p) :
    Harmless outer marker captured n kind p := by
  cases hwrites with
  | assignment ht hp => exact harmless_assignment houter h ht hp
  | update | updateMember | delete | iteration | iterationVar =>
    obtain ⟨near, frame, far, kept, under, own, h⟩ := h
    have hallowed := h.allowed
    rw [invalidWrites] at hallowed
    cases hallowed
  | declaration hd hx hp => exact harmless_declaration houter h hd hx hp
  | hoisted hx henv hinner hdeclared =>
    obtain ⟨near, frame, far, kept, under, own, h⟩ := h
    refine ⟨fun y _ haround => ?_, not_false⟩
    have hscopes := h.scopes
    rw [henv] at hscopes
    have hmem := mem_of_first_frame hscopes.symm hinner
      ⟨frame, List.mem_append_right _ (List.mem_cons_self ..), h.framed⟩
    exact absurd haround (not_around houter (h.fresh _ hmem) (.inl rfl))
  | argument hresolves hframe hx =>
    obtain ⟨near, frame, far, kept, under, own, h⟩ := h
    refine ⟨fun y _ haround => ?_, not_false⟩
    rw [h.scopes] at hresolves
    obtain ⟨s, hs, hp⟩ := resolves_inner hresolves h.arguments
    obtain hp | ⟨hp, -⟩ := hp
    · injection hp with hid _
      exact absurd haround (not_around houter (h.fresh s hs) (.inl (by rw [hid])))
    · cases hp

end

/-! ### The runs of an accepted function -/

/-- In every run of the function, called in whatever scopes and at whatever time, every write leaves
the envelope alone; no text is evaluated as code. -/
def EnvelopeUntouched (marker : Option (String × ℕ)) (captured : List String) (f : Node) : Prop :=
  ∀ (V : Type) (outer : List Scope) (σ₀ σ σ' : State V) (n : Node) (kind : Kind) (p : Place),
    σ₀.live = {(outer, f)} → (∀ s ∈ outer, s.id < σ₀.fresh) → PlainRun σ₀ σ →
      Step σ (.wrote n kind p) σ' → Harmless outer marker captured n kind p

/-- **Accepted code does not touch the envelope**, as long as no `var` of it takes a value apart
under a `with`. -/
theorem envelope_untouched {marker : Option (String × ℕ)} {captured : List String}
    {head : FunctionHead} {parameters rest body : List Node}
    (hok : validateCapturedWrites marker captured parameters rest body = .ok ())
    (hapart : destructuresUnderWith false (.function head parameters rest body) = false) :
    EnvelopeUntouched marker captured (.function head parameters rest body) := by
  intro V outer σ₀ σ σ' n kind p hlive houter hrun hstep
  let P : List Scope → Node → Prop := fun env n =>
    (env = outer ∧ n = .function head parameters rest body) ∨
      Inside outer σ₀.fresh marker captured env n
  have hpasses : Passes σ₀.fresh P := by
    rintro i hoisted env n hi (⟨rfl, rfl⟩ | h) hhoisted c hc
    · obtain ⟨m, hm, rfl⟩ := List.mem_map.mp hc
      have hisOk : (validateCapturedWrites marker captured parameters rest body).isOk = true := by
        rw [hok]
        rfl
      have hdropped : ∀ x ∈ captured, x ∉ captured → ∃ s ∈ ([] : List Scope), x ∈ s.declared :=
        fun x hx hnot => absurd hx hnot
      have hfresh : ∀ s ∈ ([] : List Scope), σ₀.fresh ≤ s.id := nofun
      exact .inr (inside_of_function hi hisOk rfl hfresh hdropped hapart hm)
    · exact .inr (passes_inside i hoisted env n hi h hhoisted c hc)
  have hholds : Holds σ₀.fresh P σ₀ := by
    refine ⟨le_rfl, fun c hc => .inl ?_⟩
    rw [hlive] at hc
    cases hc
    exact ⟨rfl, rfl⟩
  cases hstep with
  | write hmem hwrites =>
    cases (live_of_plainRun hpasses hholds hrun).2 _ hmem with
    | inl heq =>
      simp only at heq
      rw [heq.2] at hwrites
      cases hwrites
    | inr h => exact harmless_writes houter h hwrites

/-- `function (action) { var state; state = action; marker = action }`, where both names are
captured and the last assignment is the marker's. -/
theorem envelope_untouched_marker :
    EnvelopeUntouched (some ("marker", 7)) ["state", "marker"]
      (.function {} [.binding "action"] []
        [.declaration true [.declarator (.binding "state") []],
          .assignment 6 (.identifier "state") (.identifier "action"),
          .assignment 7 (.identifier "marker") (.identifier "action")]) :=
  envelope_untouched (by decide +kernel) (by decide +kernel)

/-- `function (node) { with (node) { var { tag } = node } }` is accepted, and
writes `node.tag`. -/
theorem envelope_touched :
    ¬ ∀ (marker : Option (String × ℕ)) (captured : List String) (head : FunctionHead)
        (parameters rest body : List Node),
      validateCapturedWrites marker captured parameters rest body = .ok () →
        EnvelopeUntouched marker captured (.function head parameters rest body) := by
  intro h
  let tag : Node := .pattern [.binding "tag"]
  let apart : Node := .declaration true [.declarator tag [.identifier "node"]]
  let within : Node := .withStatement (.identifier "node") (.block [apart])
  have hok : validateCapturedWrites none [] [.binding "node"] [] [within] = .ok () := by
    decide +kernel
  let f : Node := .function {} [.binding "node"] [] [within]
  let frame : Scope := .frame 0 (frameNames {} [.binding "node"] [] [within] ++ [])
    (boundNamesAll true [.binding "node"])
  let σ₀ : State Unit := ⟨0, fun _ _ => (), {([], f)}⟩
  let σ₁ := σ₀.entered [] [] f
  let σ₂ := σ₁.entered [] [frame] within
  let σ₃ := σ₂.entered [] [.object 1, frame] (.block [apart])
  have hwithin : ([frame], within) ∈ σ₁.live :=
    .inr (List.mem_map.mpr ⟨within, List.mem_cons_of_mem _ (List.mem_cons_self ..), rfl⟩)
  have hblock : ([.object 1, frame], Node.block [apart]) ∈ σ₂.live :=
    .inr (List.mem_cons_of_mem _ (List.mem_cons_self ..))
  have hapart : ([.names 2 (declaresAll [apart]), .object 1, frame], apart) ∈ σ₃.live :=
    .inr (List.mem_map.mpr ⟨apart, List.mem_cons_self .., rfl⟩)
  have hrun : PlainRun σ₀ σ₁ := PlainRun.entered .refl rfl
  have hrun : PlainRun σ₀ σ₃ := (hrun.entered hwithin).entered hblock
  have hdeclared : "tag" ∉ declaresAll [apart] := by decide +kernel
  have hwrites : Writes [.names 2 (declaresAll [apart]), .object 1, frame] apart .destructuring
      (.property 1 "tag") :=
    .declaration (List.mem_cons_self ..) (by decide +kernel) (.outer hdeclared .property)
  have hharmless := h none [] {} _ [] _ hok Unit [] σ₀ σ₃ _ apart .destructuring _ rfl nofun hrun
    (.write (v := ()) hapart hwrites)
  exact hharmless.2 (.inr (.inr rfl))

end Whatspec.Notif.GroupScope

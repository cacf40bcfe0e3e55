import Whatspec.Notif.UnlinkRun

/-!
# The bounded evaluation follows the run

An evaluation on the stand-ins of a node's attributes does what the helper does on the node.

* `Value.at` is the value a run has where the evaluation has an abstract one, `Value.Fits` says
  that the abstract one stands for it: a text is among the strings of the helper, and an unknown
  attribute is not;
* `Follows` relates the two states, and one lemma for each form keeps it;
* **`run_of_evalStatements`** puts them together over a body.
-/

namespace Whatspec.Notif.Unlink

open Whatspec.Library

variable {constants : Constants} {n : Attributes} {L names : List String} {node : String}
variable {σ σ' : Eval} {φ : Frame}

/-- The strings that a helper can tell apart: the stand-in is not one, the names of
`Object.prototype` are. -/
structure Vocabulary (L : List String) : Prop where
  sentinel : unknownInput ∉ L
  prototype : ∀ k ∈ objectPrototypeKeys, k ∈ L

/-! ### Values -/

mutual

/-- The value in a run on a node that an abstract value stands for. -/
def Value.at (n : Attributes) : Value → JsValue
  | .text s => .text s
  | .node => .node
  | .unknownKind => .text n.unlinkType
  | .unknownReason => .text (n.unlinkReason.getD "")
  | .null => .null
  | .undefined => .undefined
  | .bool b => .bool b
  | .object fields => .object (fieldsAt n fields)
  | .groups => .groups
  | .unsupported => .inherited
  | .rejectedType _ => .null

def fieldsAt (n : Attributes) : List (String × Value) → List (String × JsValue)
  | [] => []
  | (key, v) :: rest => (key, v.at n) :: fieldsAt n rest

end

mutual

/-- An abstract value stands for its concrete one: the strings that the helper can tell apart are
listed, and the unknown ones are not. -/
def Value.Fits (L : List String) (n : Attributes) : Value → Prop
  | .text s => s ∈ L
  | .unknownKind => n.unlinkType ∉ L
  | .unknownReason => ∃ r, n.unlinkReason = some r ∧ r ∉ L
  | .object fields => FieldsFit L n fields
  | .rejectedType _ => False
  | .node | .null | .undefined | .bool _ | .groups | .unsupported => True

def FieldsFit (L : List String) (n : Attributes) : List (String × Value) → Prop
  | [] => True
  | (key, v) :: rest => (key ∈ L ∧ v.Fits L n) ∧ FieldsFit L n rest

end

theorem fieldsAt_append (n : Attributes) : ∀ fs gs : List (String × Value),
    fieldsAt n (fs ++ gs) = fieldsAt n fs ++ fieldsAt n gs
  | [], _ => rfl
  | (key, v) :: fs, gs => by
    rw [List.cons_append, fieldsAt, fieldsAt, fieldsAt_append n fs gs, List.cons_append]

theorem fieldsFit_append : ∀ {fs gs : List (String × Value)},
    FieldsFit L n fs → FieldsFit L n gs → FieldsFit L n (fs ++ gs)
  | [], _, _, hg => hg
  | _ :: _, _, hf, hg => ⟨hf.1, fieldsFit_append hf.2 hg⟩

theorem lookup_fieldsAt (n : Attributes) (key : String) : ∀ fs : List (String × Value),
    (fieldsAt n fs).lookup key = (fs.lookup key).map (Value.at n)
  | [] => rfl
  | (k, v) :: fs => by
    rw [fieldsAt, List.lookup_cons, List.lookup_cons]
    split
    · rfl
    · exact lookup_fieldsAt n key fs

theorem fits_of_lookup {key : String} {v : Value} : ∀ {fs : List (String × Value)},
    FieldsFit L n fs → fs.lookup key = some v → key ∈ L ∧ v.Fits L n
  | (k, w) :: fs, hfit, hlookup => by
    rw [List.lookup_cons] at hlookup
    split at hlookup
    · next heq =>
      cases hlookup
      rw [beq_iff_eq] at heq
      rw [heq]
      exact hfit.1
    · exact fits_of_lookup hfit.2 hlookup

/-- What `===` answers, when it answers. -/
theorem strictEqual_ok {l r v : Value} (h : l.strictEqual r = .ok v) :
    v = .bool (l.same r) ∧ (l.isReference = false ∧ r.isReference = false) ∧
      ¬(l = .unknownKind ∧ r = .unknownReason) ∧ ¬(l = .unknownReason ∧ r = .unknownKind) := by
  unfold Value.strictEqual at h
  split at h
  · cases h
  · cases h
  · next hkind hreason =>
    split at h
    · cases h
    · next hrefs =>
      cases h
      rw [Bool.or_eq_true, not_or, Bool.not_eq_true, Bool.not_eq_true] at hrefs
      exact ⟨rfl, hrefs, fun heq => hkind heq.1 heq.2, fun heq => hreason heq.1 heq.2⟩

/-- A text differs from an unlisted string. -/
theorem same_of_text {s u : String} (hs : s ∈ L) (hu : u ∉ L) :
    (JsValue.text s).strictEquals (.text u) = some false ∧
      (JsValue.text u).strictEquals (.text s) = some false := by
  have hne : s ≠ u := fun heq => hu (heq ▸ hs)
  exact ⟨congrArg some (decide_eq_false hne), congrArg some (decide_eq_false hne.symm)⟩

/-- Values that are not compared by identity are the same exactly when they stand for the same
value: unknown strings differ from every listed one. -/
theorem strictEquals_at {l r : Value} (hl : l.Fits L n) (hr : r.Fits L n)
    (hrefs : l.isReference = false ∧ r.isReference = false)
    (hkind : ¬(l = .unknownKind ∧ r = .unknownReason))
    (hreason : ¬(l = .unknownReason ∧ r = .unknownKind)) :
    (l.at n).strictEquals (r.at n) = some (l.same r) := by
  cases l with
  | text s =>
    cases r with
    | text t => rfl
    | unknownKind => exact (same_of_text hl hr).1
    | unknownReason =>
      obtain ⟨u, hu, hunlisted⟩ := hr
      rw [Value.at, Value.at, hu]
      exact (same_of_text hl hunlisted).1
    | object | groups | unsupported | node => exact absurd hrefs.2 Bool.noConfusion
    | rejectedType => exact absurd hr id
    | null | undefined | bool => rfl
  | unknownKind =>
    cases r with
    | text t => exact (same_of_text hr hl).2
    | unknownKind => exact congrArg some (decide_eq_true rfl)
    | unknownReason => exact absurd ⟨rfl, rfl⟩ hkind
    | object | groups | unsupported | node => exact absurd hrefs.2 Bool.noConfusion
    | rejectedType => exact absurd hr id
    | null | undefined | bool => rfl
  | unknownReason =>
    cases r with
    | text t =>
      obtain ⟨u, hu, hunlisted⟩ := hl
      rw [Value.at, Value.at, hu]
      exact (same_of_text hr hunlisted).2
    | unknownKind => exact absurd ⟨rfl, rfl⟩ hreason
    | unknownReason => exact congrArg some (decide_eq_true rfl)
    | object | groups | unsupported | node => exact absurd hrefs.2 Bool.noConfusion
    | rejectedType => exact absurd hr id
    | null | undefined | bool => rfl
  | rejectedType => exact absurd hl id
  | object | groups | unsupported | node => exact absurd hrefs.1 Bool.noConfusion
  | null | undefined | bool =>
    cases r with
    | object | groups | unsupported | node => exact absurd hrefs.2 Bool.noConfusion
    | rejectedType => exact absurd hr id
    | _ => rfl

theorem isNullish_at {v : Value} (hv : v.Fits L n) : (v.at n).isNullish = v.isNullish := by
  cases v <;> first | rfl | exact absurd hv id

/-- A lookup in an object answers what it answers in the object that stands for. -/
theorem getField_of_lookupKey (hproto : ∀ k ∈ objectPrototypeKeys, k ∈ L)
    {fields : List (String × Value)} {k v : Value} (hfields : FieldsFit L n fields)
    (hk : k.Fits L n) (h : lookupKey fields k = .ok v) :
    ∃ key, k.at n = .text key ∧ getField (fieldsAt n fields) key = v.at n ∧ v.Fits L n := by
  have hmissing : ∀ key : String, key ∉ L →
      getField (fieldsAt n fields) key = .undefined := by
    intro key hkey
    have hnone : fields.lookup key = none := by
      by_contra hsome
      obtain ⟨w, hw⟩ := Option.ne_none_iff_exists'.mp hsome
      exact hkey (fits_of_lookup hfields hw).1
    rw [getField, lookup_fieldsAt, hnone]
    exact if_neg fun hmem => hkey (hproto key hmem)
  cases k with
  | text key =>
    refine ⟨key, rfl, ?_⟩
    rw [lookupKey, Except.ok.injEq] at h
    rw [getField, lookup_fieldsAt]
    cases hlookup : fields.lookup key with
    | some w =>
      rw [hlookup] at h
      cases h
      exact ⟨rfl, (fits_of_lookup hfields hlookup).2⟩
    | none =>
      rw [hlookup] at h
      simp only at h
      subst h
      show (if key ∈ objectPrototypeKeys then _ else _) = _ ∧ _
      split
      · exact ⟨rfl, trivial⟩
      · exact ⟨rfl, trivial⟩
  | unknownKind =>
    cases h
    exact ⟨n.unlinkType, rfl, hmissing _ hk, trivial⟩
  | unknownReason =>
    cases h
    obtain ⟨r, hr, hunlisted⟩ := hk
    refine ⟨r, ?_, hmissing r hunlisted, trivial⟩
    rw [Value.at, hr, Option.getD_some]
  | _ => cases h

/-! ### States -/

/-- The string that stands for an attribute in an evaluation. -/
def standIn (L : List String) (s : String) : String := if s ∈ L then s else unknownInput

/-- An evaluation and a run side by side: every variable of the evaluation stands for the one of
the run, only names of the helper are local, and the reads are the effects so far. -/
structure Follows (L names : List String) (n : Attributes) (σ : Eval) (φ : Frame) : Prop where
  vars : ∀ x v, σ.vars x = some v → φ.vars x = some (v.at n) ∧ v.Fits L n
  locals : ∀ x, x ∉ names → φ.vars x = none
  effects : φ.effects = σ.reads.map Effect.read
  kind : σ.kind = standIn L n.unlinkType
  reason : σ.reason = n.unlinkReason.map (standIn L)

theorem Follows.reason_isSome (h : Follows L names n σ φ) :
    σ.reason.isSome = n.unlinkReason.isSome := by
  rw [h.reason, Option.isSome_map]

/-- Both sides read the same thing of the payload. -/
theorem Follows.did (h : Follows L names n σ φ) (r : Read) :
    Follows L names n { σ with reads := σ.reads ++ [r] } (φ.did (.read r)) where
  vars := h.vars
  locals := h.locals
  effects := by
    show φ.effects ++ [Effect.read r] = (σ.reads ++ [r]).map Effect.read
    rw [h.effects, List.map_append, List.map_singleton]
  kind := h.kind
  reason := h.reason

/-- Both sides put a value in a variable of the helper. -/
theorem Follows.update (h : Follows L names n σ φ) {x : String} (hx : x ∈ names) {v : Value}
    (hv : v.Fits L n) :
    Follows L names n { σ with vars := Function.update σ.vars x (some v) }
      { φ with vars := Function.update φ.vars x (some (v.at n)) } where
  vars y w hy := by
    show Function.update φ.vars x (some (v.at n)) y = _ ∧ _
    change Function.update σ.vars x (some v) y = some w at hy
    by_cases hxy : y = x
    · rw [hxy, Function.update_self] at hy
      cases hy
      rw [hxy, Function.update_self]
      exact ⟨rfl, hv⟩
    · rw [Function.update_of_ne hxy] at hy
      rw [Function.update_of_ne hxy]
      exact h.vars y w hy
  locals y hy := by
    show Function.update φ.vars x (some (v.at n)) y = none
    have hne : y ≠ x := fun heq => hy (heq ▸ hx)
    rw [Function.update_of_ne hne]
    exact h.locals y hy
  effects := h.effects
  kind := h.kind
  reason := h.reason

/-- The wire type of the evaluation stands for the one of the node. -/
theorem Follows.kindValue (h : Follows L names n σ φ) (hsentinel : unknownInput ∉ L) :
    σ.kindValue.at n = .text n.unlinkType ∧ σ.kindValue.Fits L n := by
  unfold Eval.kindValue
  rw [h.kind, standIn]
  by_cases hlisted : n.unlinkType ∈ L
  · have hne : n.unlinkType ≠ unknownInput := fun heq => hsentinel (heq ▸ hlisted)
    rw [if_pos hlisted, if_neg hne]
    exact ⟨rfl, hlisted⟩
  · rw [if_neg hlisted, if_pos rfl]
    exact ⟨rfl, hlisted⟩

theorem Follows.reasonValue (h : Follows L names n σ φ) (hsentinel : unknownInput ∉ L)
    {reason : String} (hreason : σ.reason = some reason) :
    ∃ r, n.unlinkReason = some r ∧ (Eval.reasonValue reason).at n = .text r ∧
      (Eval.reasonValue reason).Fits L n := by
  rw [h.reason, Option.map_eq_some_iff] at hreason
  obtain ⟨r, hr, heq⟩ := hreason
  refine ⟨r, hr, ?_⟩
  rw [← heq, Eval.reasonValue, standIn]
  by_cases hlisted : r ∈ L
  · have hne : r ≠ unknownInput := fun heq => hsentinel (heq ▸ hlisted)
    rw [if_pos hlisted, if_neg hne]
    exact ⟨rfl, hlisted⟩
  · rw [if_neg hlisted, if_pos rfl]
    refine ⟨?_, r, hr, hlisted⟩
    rw [Value.at, hr, Option.getD_some]

/-! ### Expressions -/

/-- What an expression's evaluation and its run come to. -/
def Agrees (L names : List String) (n : Attributes) (v : Value) (σ : Eval)
    (run : Option (JsValue × Frame)) : Prop :=
  ∃ φ, run = some (v.at n, φ) ∧ v.Fits L n ∧ Follows L names n σ φ

/-- The four accessors, and what each answers. -/
theorem access_ok {c : AccessorCall} {v : Value} (h : σ.access c = .ok (v, σ')) :
    c.receiver.bind σ.vars = some .node ∧
    (c.method = some "attrString" ∧ c.attr = some "unlink_type" ∧ c.argumentCount = 1 ∧
        v = σ.kindValue ∧ σ' = { σ with reads := σ.reads ++ [.type] } ∨
      c.method = some "hasAttr" ∧ c.attr = some "unlink_reason" ∧ c.argumentCount = 1 ∧
        v = .bool σ.reason.isSome ∧ σ' = { σ with reads := σ.reads ++ [.hasReason] } ∨
      c.method = some "attrString" ∧ c.attr = some "unlink_reason" ∧ c.argumentCount = 1 ∧
        (∃ reason, σ.reason = some reason ∧ v = Eval.reasonValue reason) ∧
        σ' = { σ with reads := σ.reads ++ [.reason] } ∨
      c.method = some "mapChildrenWithTag" ∧ c.attr = some "group" ∧ c.argumentCount = 2 ∧
        c.validGroups ∧ v = .groups ∧ σ' = { σ with reads := σ.reads ++ [.groups] }) := by
  unfold Eval.access at h
  split at h
  · cases h
  next method hmethod =>
  split at h
  · next hnode =>
    refine ⟨hnode, ?_⟩
    split at h
    · cases h
    next attr hattr =>
    by_cases hcount : c.argumentCount = if method = "mapChildrenWithTag" then 2 else 1
    swap
    · rw [if_pos hcount] at h
      cases h
    rw [if_neg (not_not.mpr hcount)] at h
    rw [hmethod, hattr]
    split at h
    · next hread =>
      cases h
      simp [hread, hcount]
    split at h
    · next hread =>
      cases h
      simp [hread, hcount]
    split at h
    · next hread =>
      split at h
      · next reason hreason =>
        cases h
        simp [hread, hcount, hreason]
      · cases h
    split at h
    · next hread =>
      cases h
      simp [hread, hcount]
    · cases h
  · cases h

/-- An accessor reads in the run what it reads in the evaluation. -/
theorem access_agrees (hsentinel : unknownInput ∉ L) (h : Follows L names n σ φ)
    {c : AccessorCall} {v : Value} (heval : σ.access c = .ok (v, σ')) :
    Agrees L names n v σ' (φ.access n c) := by
  obtain ⟨hnode, hcases⟩ := access_ok heval
  have hrun : c.receiver.bind φ.vars = some .node := by
    obtain ⟨x, hx, hvar⟩ := Option.bind_eq_some_iff.mp hnode
    rw [hx, Option.bind_some]
    exact (h.vars x .node hvar).1
  rcases hcases with ⟨hm, ha, hc, rfl, rfl⟩ | ⟨hm, ha, hc, rfl, rfl⟩ |
    ⟨hm, ha, hc, ⟨reason, hreason, rfl⟩, rfl⟩ | ⟨hm, ha, hc, hg, rfl, rfl⟩
  · obtain ⟨hat, hfits⟩ := h.kindValue hsentinel
    refine ⟨_, ?_, hfits, h.did .type⟩
    simp [Frame.access, hrun, hm, ha, hc, hat]
  · refine ⟨_, ?_, trivial, h.did .hasReason⟩
    simp [Frame.access, hrun, hm, ha, hc, h.reason_isSome, Value.at]
  · obtain ⟨r, hr, hat, hfits⟩ := h.reasonValue hsentinel hreason
    refine ⟨_, ?_, hfits, h.did .reason⟩
    simp [Frame.access, hrun, hm, ha, hc, hr, hat]
  · refine ⟨_, ?_, trivial, h.did .groups⟩
    simp [Frame.access, hrun, hm, ha, hc, hg, Value.at]

/-- An expression of an accepted helper: it is in the grammar, its strings are listed, and the
loaders of its constants are not names of the helper. -/
structure Expr.Qualified (constants : Constants) (node : String) (L names : List String)
    (e : Expr) : Prop where
  valid : e.validate constants node = .ok ()
  listed : ∀ s ∈ e.literals constants, s ∈ L
  imports : ∀ r ∈ e.references, (constants.resolve r).isSome → ∀ x, r.loader = some x → x ∉ names

namespace Expr.Qualified

theorem conditional {test consequent alternate : Expr}
    (h : (Expr.conditional test consequent alternate).Qualified constants node L names) :
    test.Qualified constants node L names ∧ consequent.Qualified constants node L names ∧
      alternate.Qualified constants node L names := by
  obtain ⟨hvalid, hlisted, himports⟩ := h
  simp only [Expr.validate, bind_eq_ok] at hvalid
  obtain ⟨_, htest, _, hconsequent, halternate⟩ := hvalid
  simp only [Expr.literals, List.mem_append] at hlisted
  simp only [Expr.references, List.mem_append] at himports
  exact ⟨⟨htest, fun s hs => hlisted s (Or.inl (Or.inl hs)),
      fun r hr => himports r (Or.inl (Or.inl hr))⟩,
    ⟨hconsequent, fun s hs => hlisted s (Or.inl (Or.inr hs)),
      fun r hr => himports r (Or.inl (Or.inr hr))⟩,
    ⟨halternate, fun s hs => hlisted s (Or.inr hs), fun r hr => himports r (Or.inr hr)⟩⟩

theorem strictEquality {left right : Expr}
    (h : (Expr.strictEquality left right).Qualified constants node L names) :
    left.Qualified constants node L names ∧ right.Qualified constants node L names := by
  obtain ⟨hvalid, hlisted, himports⟩ := h
  simp only [Expr.validate, bind_eq_ok] at hvalid
  obtain ⟨_, hleft, hright⟩ := hvalid
  simp only [Expr.literals, List.mem_append] at hlisted
  simp only [Expr.references, List.mem_append] at himports
  exact ⟨⟨hleft, fun s hs => hlisted s (Or.inl hs), fun r hr => himports r (Or.inl hr)⟩,
    ⟨hright, fun s hs => hlisted s (Or.inr hs), fun r hr => himports r (Or.inr hr)⟩⟩

theorem computedMember {object key : Expr}
    (h : (Expr.computedMember object key).Qualified constants node L names) :
    object.Qualified constants node L names ∧ key.Qualified constants node L names := by
  obtain ⟨hvalid, hlisted, himports⟩ := h
  simp only [Expr.validate, bind_eq_ok] at hvalid
  obtain ⟨_, hobject, hkey⟩ := hvalid
  simp only [Expr.literals, List.mem_append] at hlisted
  simp only [Expr.references, List.mem_append] at himports
  exact ⟨⟨hobject, fun s hs => hlisted s (Or.inl hs), fun r hr => himports r (Or.inl hr)⟩,
    ⟨hkey, fun s hs => hlisted s (Or.inr hs), fun r hr => himports r (Or.inr hr)⟩⟩

end Expr.Qualified

/-- The properties of an object literal of an accepted helper. -/
structure QualifiedProperties (constants : Constants) (node : String) (L names seen : List String)
    (properties : List (PropertyHead × Expr)) : Prop where
  valid : validateProperties constants node seen properties = .ok ()
  listed : ∀ s ∈ propertyLiterals constants properties, s ∈ L
  imports : ∀ r ∈ propertyReferences properties,
    (constants.resolve r).isSome → ∀ x, r.loader = some x → x ∉ names

theorem QualifiedProperties.cons {seen : List String} {head : PropertyHead} {e : Expr}
    {rest : List (PropertyHead × Expr)}
    (h : QualifiedProperties constants node L names seen ((head, e) :: rest)) :
    ∃ key, head.key = some key ∧ key ∈ L ∧
      ¬(head.isSpread = true ∨ head.isComputed = true ∨ head.isMethod = true ∨
        key = "__proto__") ∧ e.Qualified constants node L names ∧
      QualifiedProperties constants node L names (key :: seen) rest := by
  obtain ⟨hvalid, hlisted, himports⟩ := h
  rw [validateProperties] at hvalid
  split at hvalid
  · cases hvalid
  next hspread =>
  split at hvalid
  · cases hvalid
  next key hkey =>
  split at hvalid
  · cases hvalid
  next hhead =>
  simp only [bind_eq_ok] at hvalid
  obtain ⟨_, he, hrest⟩ := hvalid
  simp only [propertyLiterals, List.mem_append, hkey, Option.toList_some,
    List.mem_singleton] at hlisted
  simp only [propertyReferences, List.mem_append] at himports
  refine ⟨key, hkey, hlisted key (Or.inl (Or.inl rfl)), ?_,
    ⟨he, fun s hs => hlisted s (Or.inl (Or.inr hs)), fun r hr => himports r (Or.inl hr)⟩,
    ⟨hrest, fun s hs => hlisted s (Or.inr hs), fun r hr => himports r (Or.inr hr)⟩⟩
  rintro (hs | hc | hm | hp)
  · exact hspread hs
  · exact hhead (Or.inl hc)
  · exact hhead (Or.inr (Or.inl hm))
  · exact hhead (Or.inr (Or.inr (Or.inl hp)))

/-- A new property goes to the end of the object. -/
theorem setField_fieldsAt {fields : List (String × Value)} {key : String} {v : Value}
    (hnew : (fields.lookup key).isSome = false) :
    setField (fieldsAt n fields) key (v.at n) = fieldsAt n (fields ++ [(key, v)]) := by
  have hnone : fields.lookup key = none :=
    Option.isSome_eq_false_iff.mp hnew |> Option.isNone_iff_eq_none.mp
  rw [setField, lookup_fieldsAt, hnone, fieldsAt_append]
  rfl

mutual

/-- An expression of an accepted helper runs as it evaluates. -/
theorem Expr.agrees (hL : Vocabulary L) : ∀ (e : Expr) {σ σ' : Eval} {φ : Frame} {v : Value},
    e.Qualified constants node L names → Follows L names n σ φ →
    e.eval constants σ = .ok (v, σ') → Agrees L names n v σ' (e.run constants n φ)
  | .parenthesized e, σ, σ', φ, v, hq, h, heval =>
    Expr.agrees hL e ⟨hq.valid, hq.listed, hq.imports⟩ h heval
  | .warning w, σ, σ', φ, v, hq, h, heval => nomatch hq.valid
  | .stringLiteral s, σ, σ', φ, v, hq, h, heval => by
    cases heval
    exact ⟨φ, rfl, hq.listed s (List.mem_singleton_self s), h⟩
  | .constant r, σ, σ', φ, v, hq, h, heval => by
    rw [Expr.eval] at heval
    split at heval
    · next text htext =>
      split at heval
      · cases heval
      next hform =>
      cases heval
      rw [not_or, not_not] at hform
      obtain ⟨loader, hloader⟩ := Option.ne_none_iff_exists'.mp hform.2
      have hglobal : φ.vars loader = none := h.locals loader
        (hq.imports r (List.mem_singleton_self r) (by rw [htext]; rfl) loader hloader)
      refine ⟨φ, ?_, hq.listed text ?_, h⟩
      · simp [Expr.run, hloader, hglobal, hform.1, htext, Value.at]
      · simp [Expr.literals, htext]
    · cases heval
  | .nullLiteral, σ, σ', φ, v, hq, h, heval => by
    cases heval
    exact ⟨φ, rfl, trivial, h⟩
  | .identifier x, σ, σ', φ, v, hq, h, heval => by
    rw [Expr.eval] at heval
    split at heval
    · next w hvar =>
      cases heval
      obtain ⟨hat, hfits⟩ := h.vars x _ hvar
      exact ⟨φ, by rw [Expr.run, hat, Option.map_some], hfits, h⟩
    · cases heval
  | .conditional test consequent alternate, σ, σ', φ, v, hq, h, heval => by
    obtain ⟨htest, hconsequent, halternate⟩ := hq.conditional
    simp only [Expr.eval, bind_eq_ok] at heval
    obtain ⟨⟨t, σ₁⟩, ht, heval⟩ := heval
    obtain ⟨φ₁, hrun, _, h₁⟩ := Expr.agrees hL test htest h ht
    rw [Expr.run, hrun]
    cases t with
    | bool b =>
      cases b with
      | true => exact Expr.agrees hL consequent hconsequent h₁ heval
      | false => exact Expr.agrees hL alternate halternate h₁ heval
    | _ => cases heval
  | .equalsNull left, σ, σ', φ, v, hq, h, heval => by
    simp only [Expr.eval, bind_eq_ok] at heval
    obtain ⟨⟨t, σ₁⟩, ht, heval⟩ := heval
    cases heval
    obtain ⟨φ₁, hrun, hfits, h₁⟩ := Expr.agrees hL left ⟨hq.valid, hq.listed, hq.imports⟩ h ht
    refine ⟨φ₁, ?_, trivial, h₁⟩
    rw [Expr.run, hrun]
    show some (JsValue.bool (t.at n).isNullish, φ₁) = _
    rw [isNullish_at hfits]
    rfl
  | .strictEquality left right, σ, σ', φ, v, hq, h, heval => by
    obtain ⟨hleft, hright⟩ := hq.strictEquality
    simp only [Expr.eval, bind_eq_ok] at heval
    obtain ⟨⟨l, σ₁⟩, hl, ⟨r, σ₂⟩, hr, w, hw, heval⟩ := heval
    cases heval
    obtain ⟨φ₁, hrunl, hfitl, h₁⟩ := Expr.agrees hL left hleft h hl
    obtain ⟨φ₂, hrunr, hfitr, h₂⟩ := Expr.agrees hL right hright h₁ hr
    obtain ⟨rfl, hrefs, hkind, hreason⟩ := strictEqual_ok hw
    refine ⟨φ₂, ?_, trivial, h₂⟩
    simp only [Expr.run, hrunl, hrunr, Option.bind_eq_bind, Option.bind_some,
      strictEquals_at hfitl hfitr hrefs hkind hreason]
    rfl
  | .object properties, σ, σ', φ, v, hq, h, heval => by
    simp only [Expr.eval, bind_eq_ok] at heval
    obtain ⟨⟨fields, σ₁⟩, hfields, heval⟩ := heval
    cases heval
    have hempty : FieldsFit L n [] := trivial
    obtain ⟨φ₁, hrun, hfits, h₁⟩ := properties_agree hL properties
      ⟨hq.valid, hq.listed, hq.imports⟩ h hempty hfields
    refine ⟨φ₁, ?_, hfits, h₁⟩
    simp only [fieldsAt] at hrun
    rw [Expr.run, hrun]
    rfl
  | .computedMember object key, σ, σ', φ, v, hq, h, heval => by
    obtain ⟨hobject, hkey⟩ := hq.computedMember
    simp only [Expr.eval, bind_eq_ok] at heval
    obtain ⟨_, _, ⟨o, σ₁⟩, ho, heval⟩ := heval
    obtain ⟨φ₁, hruno, hfito, h₁⟩ := Expr.agrees hL object hobject h ho
    cases o with
    | object fields =>
      simp only [bind_eq_ok] at heval
      obtain ⟨⟨k, σ₂⟩, hk, w, hw, heval⟩ := heval
      cases heval
      obtain ⟨φ₂, hrunk, hfitk, h₂⟩ := Expr.agrees hL key hkey h₁ hk
      obtain ⟨name, hname, hget, hfits⟩ := getField_of_lookupKey hL.prototype hfito hfitk hw
      refine ⟨φ₂, ?_, hfits, h₂⟩
      rw [hname] at hrunk
      simp only [Expr.run, hruno, hrunk, Option.bind_eq_bind, Option.bind_some, Value.at, hget]
    | _ => cases heval
  | .call c, σ, σ', φ, v, hq, h, heval => access_agrees hL.sentinel h heval
  | .other, σ, σ', φ, v, hq, h, heval => nomatch hq.valid

theorem properties_agree (hL : Vocabulary L) :
    ∀ (properties : List (PropertyHead × Expr)) {seen : List String}
    {fields result : List (String × Value)} {σ σ' : Eval} {φ : Frame},
    QualifiedProperties constants node L names seen properties → Follows L names n σ φ →
    FieldsFit L n fields →
    evalProperties constants properties fields σ = .ok (result, σ') →
    ∃ φ', runProperties constants n properties (fieldsAt n fields) φ =
        some (fieldsAt n result, φ') ∧ FieldsFit L n result ∧ Follows L names n σ' φ'
  | [], seen, fields, result, σ, σ', φ, hq, h, hfit, heval => by
    cases heval
    exact ⟨φ, rfl, hfit, h⟩
  | (head, e) :: rest, seen, fields, result, σ, σ', φ, hq, h, hfit, heval => by
    obtain ⟨key, hkey, hlisted, hhead, he, hrest⟩ := hq.cons
    rw [evalProperties] at heval
    split at heval
    · cases heval
    split at heval
    · cases heval
    rw [hkey] at heval
    simp only at heval
    split at heval
    · cases heval
    simp only [bind_eq_ok] at heval
    obtain ⟨⟨v, σ₁⟩, hv, heval⟩ := heval
    simp only at heval
    split at heval
    · cases heval
    next hnew =>
    rw [Bool.not_eq_true] at hnew
    obtain ⟨φ₁, hrun, hfitv, h₁⟩ := Expr.agrees hL e he h hv
    have hfields : FieldsFit L n (fields ++ [(key, v)]) :=
      fieldsFit_append hfit ⟨⟨hlisted, hfitv⟩, trivial⟩
    obtain ⟨φ₂, hruns, hresult, h₂⟩ := properties_agree hL rest hrest h₁ hfields heval
    refine ⟨φ₂, ?_, hresult, h₂⟩
    rw [← setField_fieldsAt hnew] at hruns
    simp only [runProperties, hkey, Option.bind_eq_bind, Option.bind_some, if_neg hhead, hrun,
      hruns]

end

/-! ### The warning -/

/-- What parentheses do not change is the same without them. -/
theorem of_withoutParentheses {α : Type} {f : Expr → α}
    (hf : ∀ e, f (.parenthesized e) = f e) : ∀ e : Expr, f e.withoutParentheses = f e
  | .parenthesized e => by rw [Expr.withoutParentheses, of_withoutParentheses hf e, hf]
  | .warning _ | .stringLiteral _ | .constant _ | .nullLiteral | .identifier _
  | .conditional _ _ _ | .equalsNull _ | .strictEquality _ _ | .object _
  | .computedMember _ _ | .call _ | .other => rfl

theorem eval_withoutParentheses (constants : Constants) (e : Expr) (σ : Eval) :
    e.withoutParentheses.eval constants σ = e.eval constants σ :=
  of_withoutParentheses (f := fun e => e.eval constants σ) (fun e => by rw [Expr.eval]) e

theorem run_withoutParentheses (constants : Constants) (n : Attributes) (e : Expr) (φ : Frame) :
    e.withoutParentheses.run constants n φ = e.run constants n φ :=
  of_withoutParentheses (f := fun e => e.run constants n φ) (fun e => by rw [Expr.run]) e

theorem warnings_withoutParentheses (e : Expr) : e.withoutParentheses.warnings = e.warnings :=
  of_withoutParentheses (f := Expr.warnings) (fun e => by rw [Expr.warnings]) e

theorem literals_withoutParentheses (constants : Constants) (e : Expr) :
    e.withoutParentheses.literals constants = e.literals constants :=
  of_withoutParentheses (f := Expr.literals constants) (fun e => by rw [Expr.literals]) e

theorem references_withoutParentheses (e : Expr) :
    e.withoutParentheses.references = e.references :=
  of_withoutParentheses (f := Expr.references) (fun e => by rw [Expr.references]) e

/-- The variable that the warning reports holds the wire type. -/
theorem vars_of_requireWireType {x : String} (h : σ.requireWireType x = .ok ()) :
    σ.vars x = some σ.kindValue := by
  unfold Eval.requireWireType at h
  split at h
  · next hvar hkind => rw [hvar, hkind]
  · next hvar hkind =>
    split at h
    · next heq => rw [hvar, hkind, heq]
    · cases h
  · cases h

/-- Expressions and names of an accepted helper. -/
structure Within (constants : Constants) (L names : List String) (es : List Expr)
    (xs : List String) : Prop where
  listed : ∀ e ∈ es, ∀ s ∈ e.literals constants, s ∈ L
  imports : ∀ e ∈ es, ∀ r ∈ e.references,
    (constants.resolve r).isSome → ∀ x, r.loader = some x → x ∉ names
  captures : ∀ e ∈ es, ∀ w ∈ e.warnings, ∀ x ∈ w.captures, x ∉ names
  bound : ∀ x ∈ xs, x ∈ names

theorem Within.mono {es es' : List Expr} {xs xs' : List String}
    (h : Within constants L names es xs) (hes : ∀ e ∈ es', e ∈ es) (hxs : ∀ x ∈ xs', x ∈ xs) :
    Within constants L names es' xs' where
  listed e he := h.listed e (hes e he)
  imports e he := h.imports e (hes e he)
  captures e he := h.captures e (hes e he)
  bound x hx := h.bound x (hxs x hx)

theorem Within.qualified {es : List Expr} {xs : List String} {e : Expr}
    (h : Within constants L names es xs) (he : e ∈ es)
    (hvalid : e.validate constants node = .ok ()) : e.Qualified constants node L names :=
  ⟨hvalid, h.listed e he, h.imports e he⟩

/-! ### Statements -/

/-- What a body's evaluation and its run come to: both go on, both return a value, or the run
warns of the type and returns null. -/
inductive Ends (L names : List String) (n : Attributes) (σ : Eval) :
    Option Value → Option (Option JsValue × Frame) → Prop where
  | goesOn {φ : Frame} (follows : Follows L names n σ φ) : Ends L names n σ none (some (none, φ))
  | returns {v : Value} {φ : Frame} (fits : v.Fits L n) (follows : Follows L names n σ φ) :
    Ends L names n σ (some v) (some (some (v.at n), φ))
  | warns {w : UnknownTypeWarning} {φ : Frame}
    (hasReason : σ.reason.isSome = n.unlinkReason.isSome)
    (effects : φ.effects = σ.reads.map Effect.read ++
      [.warn w.template (.text n.unlinkType), .sendLogs w.event]) :
    Ends L names n σ (some (.rejectedType w)) (some (some .null, φ))

theorem Agrees.ends {v : Value} {run : Option (JsValue × Frame)}
    (h : Agrees L names n v σ run) :
    Ends L names n σ (some v) (run.bind fun r => some (some r.1, r.2)) := by
  obtain ⟨φ, hrun, hfits, hfollows⟩ := h
  rw [hrun]
  exact .returns hfits hfollows

/-- The qualified warning reports the wire type, after the reads of the payload. -/
theorem warning_ends (hL : Vocabulary L) (h : Follows L names n σ φ) {w : WarningSite} {v : Value}
    (hcaptures : ∀ x ∈ w.captures, x ∉ names)
    (heval : (Expr.warning w).eval constants σ = .ok (v, σ')) :
    Ends L names n σ' (some v)
      (((Expr.warning w).run constants n φ).bind fun r => some (some r.1, r.2)) := by
  simp only [Expr.eval, bind_eq_ok] at heval
  obtain ⟨_, hwire, _, _, heval⟩ := heval
  cases heval
  have hvar := (h.vars _ _ (vars_of_requireWireType hwire)).1
  rw [(h.kindValue hL.sentinel).1] at hvar
  have hglobal : (w.captures.any fun x => (φ.vars x).isSome) = false := by
    rw [List.any_eq_false]
    intro x hx
    rw [h.locals x (hcaptures x hx)]
    exact Bool.false_ne_true
  simp only [Expr.run, hglobal, hvar, Option.bind_eq_bind, Option.bind_some, Bool.false_eq_true,
    if_false]
  refine .warns h.reason_isSome ?_
  show (φ.effects ++ [_]) ++ [_] = _
  rw [h.effects, List.append_assoc]
  rfl

/-- A returned expression of an accepted helper. -/
theorem returned_ends (hL : Vocabulary L) (h : Follows L names n σ φ) {e : Expr} {v : Value}
    {es : List Expr} {xs : List String} (hwithin : Within constants L names es xs) (he : e ∈ es)
    (hvalid : e.validateReturned constants node = .ok ())
    (heval : e.eval constants σ = .ok (v, σ')) :
    Ends L names n σ' (some v) ((e.run constants n φ).bind fun r => some (some r.1, r.2)) := by
  unfold Expr.validateReturned at hvalid
  split at hvalid
  · next test consequent alternate heq =>
    split at hvalid
    · next w hw =>
      split at hvalid
      · simp only [bind_eq_ok] at hvalid
        obtain ⟨_, htest, halternate⟩ := hvalid
        -- The strings, references and warnings of the whole, seen through its parentheses.
        have hlisted := hwithin.listed e he
        have himports := hwithin.imports e he
        have hcaptures := hwithin.captures e he
        rw [← literals_withoutParentheses, heq] at hlisted
        rw [← references_withoutParentheses, heq] at himports
        rw [← warnings_withoutParentheses, heq] at hcaptures
        simp only [Expr.literals, List.mem_append] at hlisted
        simp only [Expr.references, List.mem_append] at himports
        simp only [Expr.warnings, List.mem_append] at hcaptures
        rw [← eval_withoutParentheses, heq] at heval
        rw [← run_withoutParentheses, heq]
        simp only [Expr.eval, bind_eq_ok] at heval
        obtain ⟨⟨t, σ₁⟩, ht, heval⟩ := heval
        obtain ⟨φ₁, hrun, _, h₁⟩ := Expr.agrees hL test ⟨htest, fun s hs => hlisted s
          (Or.inl (Or.inl hs)), fun r hr => himports r (Or.inl (Or.inl hr))⟩ h ht
        rw [Expr.run, hrun]
        cases t with
        | bool b =>
          cases b with
          | true =>
            simp only at heval
            rw [← eval_withoutParentheses, hw] at heval
            show Ends L names n σ' (some v)
              ((consequent.run constants n φ₁).bind fun r => some (some r.1, r.2))
            rw [← run_withoutParentheses, hw]
            refine warning_ends hL h₁ (hcaptures w (Or.inl (Or.inr ?_))) heval
            rw [← warnings_withoutParentheses, hw]
            exact List.mem_singleton_self w
          | false =>
            exact (Expr.agrees hL alternate ⟨halternate, fun s hs => hlisted s (Or.inr hs),
              fun r hr => himports r (Or.inr hr)⟩ h₁ heval).ends
        | _ => cases heval
      · cases hvalid
    · exact (Expr.agrees hL e (hwithin.qualified he hvalid) h heval).ends
  · exact (Expr.agrees hL e (hwithin.qualified he hvalid) h heval).ends

theorem declarations_agree (hL : Vocabulary L) :
    ∀ (declarations : List (Option String × Option Expr)) {σ σ' : Eval} {φ : Frame},
    validateDeclarations constants node declarations = .ok () →
    Within constants L names (declarations.filterMap Prod.snd) (declarations.filterMap Prod.fst) →
    Follows L names n σ φ → evalDeclarations constants declarations σ = .ok σ' →
    ∃ φ', runDeclarations constants n declarations φ = some φ' ∧ Follows L names n σ' φ'
  | [], σ, σ', φ, hvalid, hwithin, h, heval => by
    cases heval
    exact ⟨φ, rfl, h⟩
  | (none, _) :: _, σ, σ', φ, hvalid, hwithin, h, heval => nomatch hvalid
  | (some _, none) :: _, σ, σ', φ, hvalid, hwithin, h, heval => nomatch hvalid
  | (some x, some e) :: rest, σ, σ', φ, hvalid, hwithin, h, heval => by
    simp only [validateDeclarations, bind_eq_ok] at hvalid
    simp only [evalDeclarations, bind_eq_ok] at heval
    obtain ⟨_, he, hrest⟩ := hvalid
    obtain ⟨⟨v, σ₁⟩, hv, heval⟩ := heval
    obtain ⟨φ₁, hrun, hfits, h₁⟩ :=
      Expr.agrees hL e (hwithin.qualified (List.mem_cons_self ..) he) h hv
    have hx : x ∈ names := hwithin.bound x (List.mem_cons_self ..)
    obtain ⟨φ₂, hruns, h₂⟩ := declarations_agree hL rest hrest
      (hwithin.mono (fun _ => List.mem_cons_of_mem _) fun _ => List.mem_cons_of_mem _)
      (h₁.update hx hfits) heval
    refine ⟨φ₂, ?_, h₂⟩
    simp only [runDeclarations, hrun, Option.bind_eq_bind, Option.bind_some]
    exact hruns

theorem validate_ifStatement {test : Expr} {consequent : Stmt} {alternate : Option Stmt}
    (h : (Stmt.ifStatement test consequent alternate).validate constants node = .ok ()) :
    test.validate constants node = .ok () ∧ consequent.validate constants node = .ok () ∧
      ∀ s, alternate = some s → s.validate constants node = .ok () := by
  cases alternate with
  | none =>
    simp only [Stmt.validate, bind_eq_ok] at h
    obtain ⟨_, htest, _, hconsequent, _⟩ := h
    exact ⟨htest, hconsequent, fun s hs => nomatch hs⟩
  | some s =>
    simp only [Stmt.validate, bind_eq_ok] at h
    obtain ⟨_, htest, _, hconsequent, halternate⟩ := h
    exact ⟨htest, hconsequent, fun _ hs => Option.some.inj hs ▸ halternate⟩

mutual

/-- A statement of an accepted helper runs as it evaluates. -/
theorem Stmt.agrees (hL : Vocabulary L) : ∀ (s : Stmt) {σ σ' : Eval} {φ : Frame}
    {r : Option Value}, s.validate constants node = .ok () →
    Within constants L names s.expressions s.bindings → Follows L names n σ φ →
    s.eval constants σ = .ok (r, σ') → Ends L names n σ' r (s.run constants n φ)
  | .variableDeclaration isVar declarations, σ, σ', φ, r, hvalid, hwithin, h, heval => by
    cases isVar with
    | false => cases hvalid
    | true =>
      simp only [Stmt.eval, Bool.not_true, Bool.false_eq_true, if_false, bind_eq_ok] at heval
      obtain ⟨σ₁, hdecls, heval⟩ := heval
      cases heval
      obtain ⟨φ₁, hrun, h₁⟩ := declarations_agree hL declarations hvalid hwithin h hdecls
      rw [Stmt.run, if_pos rfl, hrun]
      exact .goesOn h₁
  | .returnStatement none, σ, σ', φ, r, hvalid, hwithin, h, heval => nomatch hvalid
  | .returnStatement (some e), σ, σ', φ, r, hvalid, hwithin, h, heval => by
    simp only [Stmt.eval, bind_eq_ok] at heval
    obtain ⟨⟨v, σ₁⟩, hv, heval⟩ := heval
    cases heval
    exact returned_ends hL h hwithin (List.mem_singleton_self e) hvalid hv
  | .blockStatement body, σ, σ', φ, r, hvalid, hwithin, h, heval =>
    statements_agree hL body hvalid hwithin h heval
  | .ifStatement test consequent alternate, σ, σ', φ, r, hvalid, hwithin, h, heval => by
    obtain ⟨htest, hconsequent, halternate⟩ := validate_ifStatement hvalid
    simp only [Stmt.eval, bind_eq_ok] at heval
    obtain ⟨⟨t, σ₁⟩, ht, heval⟩ := heval
    have hmem : test ∈ (Stmt.ifStatement test consequent alternate).expressions := by
      cases alternate <;> exact List.mem_cons_self ..
    obtain ⟨φ₁, hrun, _, h₁⟩ := Expr.agrees hL test (hwithin.qualified hmem htest) h ht
    rw [Stmt.run, hrun]
    cases t with
    | bool b =>
      cases b with
      | true =>
        refine Stmt.agrees hL consequent hconsequent (hwithin.mono ?_ ?_) h₁ heval
        · intro e he
          cases alternate with
          | none => exact List.mem_cons_of_mem _ he
          | some s => exact List.mem_cons_of_mem _ (List.mem_append_left _ he)
        · intro x hx
          cases alternate with
          | none => exact hx
          | some s => exact List.mem_append_left _ hx
      | false =>
        cases alternate with
        | none =>
          cases heval
          exact .goesOn h₁
        | some s =>
          exact Stmt.agrees hL s (halternate s rfl) (hwithin.mono
            (fun e he => List.mem_cons_of_mem _ (List.mem_append_right _ he))
            fun x hx => List.mem_append_right _ hx) h₁ heval
    | _ => cases heval
  | .other, σ, σ', φ, r, hvalid, hwithin, h, heval => nomatch hvalid

/-- **The evaluation follows the run.**  The body of an accepted helper runs as it evaluates. -/
theorem statements_agree (hL : Vocabulary L) : ∀ (body : List Stmt) {σ σ' : Eval} {φ : Frame}
    {r : Option Value}, validateStatements constants node body = .ok () →
    Within constants L names (expressions body) (bindings body) → Follows L names n σ φ →
    evalStatements constants body σ = .ok (r, σ') →
    Ends L names n σ' r (runStatements constants n body φ)
  | [], σ, σ', φ, r, hvalid, hwithin, h, heval => by
    cases heval
    exact .goesOn h
  | s :: ss, σ, σ', φ, r, hvalid, hwithin, h, heval => by
    simp only [validateStatements, bind_eq_ok] at hvalid
    obtain ⟨_, hs, hss⟩ := hvalid
    simp only [evalStatements, bind_eq_ok] at heval
    obtain ⟨⟨t, σ₁⟩, ht, heval⟩ := heval
    have hfirst := Stmt.agrees hL s hs (hwithin.mono (fun e he => List.mem_append_left _ he)
      fun x hx => List.mem_append_left _ hx) h ht
    rw [runStatements]
    generalize s.run constants n φ = run at hfirst ⊢
    cases hfirst with
    | goesOn h₁ =>
      exact statements_agree hL ss hss (hwithin.mono (fun e he => List.mem_append_right _ he)
        fun x hx => List.mem_append_right _ hx) h₁ heval
    | returns hfits h₁ =>
      cases heval
      exact .returns hfits h₁
    | warns hreason heffects =>
      cases heval
      exact .warns hreason heffects

end

end Whatspec.Notif.Unlink

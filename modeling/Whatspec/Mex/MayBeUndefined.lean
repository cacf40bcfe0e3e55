import Whatspec.Mex.DefinednessExact

/-!
# Can a value be undefined?

A default parameter stands in for `undefined` and for nothing else.  So the question is not the one
of `definedness`: a function is a value here, though a key that holds one is dropped.

* `mayBeUndefined` answers it in the scopes it is given;
* **`ne_undefined_of_not_mayBeUndefined`**: what it denies never happens;
* `Decided` are the values whose short-circuit operators have a plain left side, and
  **`evaluates_undefined_of_mayBeUndefined`**: of these, what it admits can happen;
* `settle` reads the names of a value now, `evaluates_settle`: it evaluates to the same.
-/

namespace Whatspec.Mex

/-- A name that nothing binds may be `undefined`, unless it is one of two numbers. -/
def unboundMayBeUndefined (name : String) : Bool := name ≠ "NaN" && name ≠ "Infinity"

/-- Whether a value can be `undefined` at run time. -/
def mayBeUndefined (scopes : Scopes) : ℕ → Value → Bool
  | 0, _ => true
  | remaining + 1, value =>
    match value with
    | .defined | .truthy | .null | .object _ | .array _ | .dropped => false
    | .maybeUndefined | .read | .given | .writeOnly | .unjudged | .call _ | .getter => true
    -- `a || b` is `a` whenever `a` is truthy, and a function is.
    | .orElse lhs rhs =>
      match scopes.resolve maxDepth lhs with
      | .truthy | .object _ | .array _ | .dropped => false
      | _ => mayBeUndefined scopes remaining rhs
    | .coalesce lhs rhs =>
      match scopes.resolve maxDepth lhs with
      | .defined | .truthy | .object _ | .array _ | .dropped => false
      | _ => mayBeUndefined scopes remaining rhs
    -- `null && b` is `null`, whatever the right side holds.
    | .andThen lhs rhs =>
      match scopes.resolve maxDepth lhs with
      | .null => false
      | _ => mayBeUndefined scopes remaining lhs || mayBeUndefined scopes remaining rhs
    | .either lhs rhs => mayBeUndefined scopes remaining lhs || mayBeUndefined scopes remaining rhs
    | .ref name =>
      match scopes.lookup name with
      | some bound => mayBeUndefined scopes remaining bound
      | none => unboundMayBeUndefined name

variable {scopes : Scopes}

/-! ### The operators -/

theorem mayBeUndefined_orElse (remaining : ℕ) (lhs rhs : Value) :
    mayBeUndefined scopes (remaining + 1) (.orElse lhs rhs) =
      match scopes.resolve maxDepth lhs with
      | .truthy | .object _ | .array _ | .dropped => false
      | _ => mayBeUndefined scopes remaining rhs := rfl

theorem mayBeUndefined_coalesce (remaining : ℕ) (lhs rhs : Value) :
    mayBeUndefined scopes (remaining + 1) (.coalesce lhs rhs) =
      match scopes.resolve maxDepth lhs with
      | .defined | .truthy | .object _ | .array _ | .dropped => false
      | _ => mayBeUndefined scopes remaining rhs := rfl

theorem mayBeUndefined_andThen (remaining : ℕ) (lhs rhs : Value) :
    mayBeUndefined scopes (remaining + 1) (.andThen lhs rhs) =
      match scopes.resolve maxDepth lhs with
      | .null => false
      | _ => mayBeUndefined scopes remaining lhs || mayBeUndefined scopes remaining rhs := rfl

theorem mayBeUndefined_either (remaining : ℕ) (a b : Value) :
    mayBeUndefined scopes (remaining + 1) (.either a b) =
      (mayBeUndefined scopes remaining a || mayBeUndefined scopes remaining b) := rfl

theorem mayBeUndefined_ref (remaining : ℕ) (name : String) :
    mayBeUndefined scopes (remaining + 1) (.ref name) =
      match scopes.lookup name with
      | some bound => mayBeUndefined scopes remaining bound
      | none => unboundMayBeUndefined name := rfl

/-! ### What is denied -/

/-- A value that is denied to be `undefined`. -/
def Never (scopes : Scopes) (remaining : ℕ) : Prop :=
  ∀ {value : Value} {k : JsKind}, mayBeUndefined scopes remaining value = false →
    Evaluates scopes value k → k ≠ .undefined

/-- The right side of `||`, where the left side is falsy. -/
theorem ne_undefined_orElseRight {remaining : ℕ} {lhs rhs : Value} {j k : JsKind}
    (ih : Never scopes remaining)
    (hnot : mayBeUndefined scopes (remaining + 1) (.orElse lhs rhs) = false)
    (h : Evaluates scopes lhs j) (hj : j.isTruthy = false) (hk : Evaluates scopes rhs k) :
    k ≠ .undefined := by
  obtain ⟨htruthy, hobject, harray, hdropped, -, -⟩ := kind_of_resolve maxDepth h
  rw [mayBeUndefined_orElse] at hnot
  split at hnot
  case h_1 hresolve => rw [htruthy hresolve] at hj; cases hj
  case h_2 props hresolve => rw [hobject props hresolve] at hj; cases hj
  case h_3 items hresolve => rw [harray items hresolve] at hj; cases hj
  case h_4 hresolve => rw [hdropped hresolve] at hj; cases hj
  case h_5 => exact ih hnot hk

/-- The right side of `??`, where the left side is `null` or `undefined`. -/
theorem ne_undefined_coalesceRight {remaining : ℕ} {lhs rhs : Value} {j k : JsKind}
    (ih : Never scopes remaining)
    (hnot : mayBeUndefined scopes (remaining + 1) (.coalesce lhs rhs) = false)
    (h : Evaluates scopes lhs j) (hj : j.isNullish = true) (hk : Evaluates scopes rhs k) :
    k ≠ .undefined := by
  obtain ⟨htruthy, hobject, harray, hdropped, -, hliteral⟩ := kind_of_resolve maxDepth h
  rw [mayBeUndefined_coalesce] at hnot
  split at hnot
  case h_1 hresolve => obtain rfl | rfl := hliteral hresolve <;> cases hj
  case h_2 hresolve => rw [htruthy hresolve] at hj; cases hj
  case h_3 props hresolve => rw [hobject props hresolve] at hj; cases hj
  case h_4 items hresolve => rw [harray items hresolve] at hj; cases hj
  case h_5 hresolve => rw [hdropped hresolve] at hj; cases hj
  case h_6 => exact ih hnot hk

/-- Either side of `&&`: unless the left one is `null`, both are asked. -/
theorem ne_undefined_andThen {remaining : ℕ} {lhs rhs : Value} {k : JsKind}
    (ih : Never scopes remaining)
    (hnot : mayBeUndefined scopes (remaining + 1) (.andThen lhs rhs) = false)
    (h : Evaluates scopes (.andThen lhs rhs) k) : k ≠ .undefined := by
  rw [mayBeUndefined_andThen] at hnot
  split at hnot
  case h_1 hresolve =>
    cases h with
    | andThenLeft h _ =>
      rw [(kind_of_resolve maxDepth h).2.2.2.2.1 hresolve]
      exact JsKind.noConfusion
    | andThenRight h hj _ =>
      rw [(kind_of_resolve maxDepth h).2.2.2.2.1 hresolve] at hj
      cases hj
  case h_2 =>
    obtain ⟨hlhs, hrhs⟩ := Bool.or_eq_false_iff.mp hnot
    cases h with
    | andThenLeft h _ => exact ih hlhs h
    | andThenRight _ _ hk => exact ih hrhs hk

theorem ne_undefined_unbound {name : String} {k : JsKind}
    (hnot : unboundMayBeUndefined name = false) (h : UnboundHolds name k) : k ≠ .undefined := by
  have hname : unboundDefinedness name = .defined := by
    rw [unboundDefinedness, if_pos]
    by_contra hneither
    rw [not_or] at hneither
    rw [unboundMayBeUndefined, decide_eq_true hneither.1, decide_eq_true hneither.2] at hnot
    cases hnot
  exact (safe_unbound hname h).1

/-- **A value that is denied to be `undefined` never is.** -/
theorem ne_undefined_of_not_mayBeUndefined : ∀ {remaining : ℕ}, Never scopes remaining
  | 0, _, _, hnot, _ => by cases hnot
  | remaining + 1, value, k, hnot, h => by
    have ih : Never scopes remaining := ne_undefined_of_not_mayBeUndefined
    cases h with
    | defined h => obtain rfl | rfl := h <;> exact JsKind.noConfusion
    | dropped => exact JsKind.noConfusion
    | truthy => exact JsKind.noConfusion
    | null => exact JsKind.noConfusion
    | object => exact JsKind.noConfusion
    | array => exact JsKind.noConfusion
    | bound hlookup hk =>
      rw [mayBeUndefined_ref] at hnot
      simp only [hlookup] at hnot
      exact ih hnot hk
    | unbound hlookup hk =>
      rw [mayBeUndefined_ref] at hnot
      simp only [hlookup] at hnot
      exact ne_undefined_unbound hnot hk
    | orElseLeft _ hk =>
      rintro rfl
      cases hk
    | orElseRight h hj hk => exact ne_undefined_orElseRight ih hnot h hj hk
    | coalesceLeft _ hk =>
      rintro rfl
      cases hk
    | coalesceRight h hj hk => exact ne_undefined_coalesceRight ih hnot h hj hk
    | andThenLeft h hk => exact ne_undefined_andThen ih hnot (.andThenLeft h hk)
    | andThenRight h hj hk => exact ne_undefined_andThen ih hnot (.andThenRight h hj hk)
    | eitherLeft h =>
      rw [mayBeUndefined_either] at hnot
      exact ih (Bool.or_eq_false_iff.mp hnot).1 h
    | eitherRight h =>
      rw [mayBeUndefined_either] at hnot
      exact ih (Bool.or_eq_false_iff.mp hnot).2 h
    | _ => cases hnot

/-! ### What is admitted -/

/-- A left side that is no operator and no name of a number, once names are followed. -/
def Plain (scopes : Scopes) (lhs : Value) : Bool :=
  match scopes.resolve maxDepth lhs with
  | .orElse _ _ | .coalesce _ _ | .andThen _ _ | .either _ _ => false
  | .ref name => (scopes.lookup name).isNone && unboundMayBeUndefined name
  | _ => true

/-- A value that is read to its end, with plain left sides of its operators. -/
def Decided (scopes : Scopes) : ℕ → Value → Bool
  | 0, _ => false
  | remaining + 1, value =>
    match value with
    | .orElse lhs rhs | .coalesce lhs rhs => Plain scopes lhs && Decided scopes remaining rhs
    | .andThen lhs rhs =>
      Plain scopes lhs && Decided scopes remaining lhs && Decided scopes remaining rhs
    | .either a b => Decided scopes remaining a && Decided scopes remaining b
    | .ref name =>
      match scopes.lookup name with
      | some bound => Decided scopes remaining bound
      | none => true
    | _ => true

/-- What a name that nothing binds can hold: `undefined`, and if it is not that name anything. -/
theorem unboundHolds_of_mayBe {name : String} (h : unboundMayBeUndefined name = true) :
    UnboundHolds name .undefined ∧ (name ≠ "undefined" → ∀ k, UnboundHolds name k) := by
  obtain ⟨hNaN, hInfinity⟩ := Bool.and_eq_true_iff.mp h
  have hholds : ∀ k, UnboundHolds name k ↔ (name = "undefined" → k = .undefined) := fun k => by
    rw [UnboundHolds, if_neg (of_decide_eq_true hNaN), if_neg (of_decide_eq_true hInfinity)]
    split_ifs with hname
    · exact ⟨fun hk _ => hk, fun hk => hk hname⟩
    · exact ⟨fun _ h => absurd h hname, fun _ => trivial⟩
  exact ⟨(hholds _).mpr fun _ => rfl, fun hname k => (hholds k).mpr fun h => absurd h hname⟩

/-- A name that nothing binds is `undefined`, or else a value of any kind. -/
theorem evaluates_unbound {name : String} (h : unboundMayBeUndefined name = true)
    (hlookup : scopes.lookup name = none) : Evaluates scopes (.ref name) .undefined :=
  .unbound hlookup (unboundHolds_of_mayBe h).1

theorem evaluates_of_resolve {lhs value : Value} {k : JsKind}
    (h : scopes.resolve maxDepth lhs = value) (hk : Evaluates scopes value k) :
    Evaluates scopes lhs k :=
  (evaluates_resolve maxDepth lhs k).mp (h ▸ hk)

/-- A plain value can be `undefined`, or else is a value that is known. -/
theorem undefined_or_known {lhs : Value} (hplain : Plain scopes lhs = true) :
    Evaluates scopes lhs .undefined ∨ scopes.resolve maxDepth lhs = .defined ∨
      scopes.resolve maxDepth lhs = .null ∨ scopes.resolve maxDepth lhs = .truthy ∨
      (∃ props, scopes.resolve maxDepth lhs = .object props) ∨
      (∃ items, scopes.resolve maxDepth lhs = .array items) ∨
      scopes.resolve maxDepth lhs = .dropped := by
  rw [Plain] at hplain
  cases hresolve : scopes.resolve maxDepth lhs with
  | defined => exact Or.inr (Or.inl rfl)
  | null => exact Or.inr (Or.inr (Or.inl rfl))
  | truthy => exact Or.inr (Or.inr (Or.inr (Or.inl rfl)))
  | object props => exact Or.inr (Or.inr (Or.inr (Or.inr (Or.inl ⟨props, rfl⟩))))
  | array items => exact Or.inr (Or.inr (Or.inr (Or.inr (Or.inr (Or.inl ⟨items, rfl⟩)))))
  | dropped => exact Or.inr (Or.inr (Or.inr (Or.inr (Or.inr (Or.inr rfl)))))
  | maybeUndefined => exact Or.inl (evaluates_of_resolve hresolve (.maybeUndefined _))
  | unjudged => exact Or.inl (evaluates_of_resolve hresolve (.unjudged _))
  | writeOnly => exact Or.inl (evaluates_of_resolve hresolve .writeOnly)
  | read => exact Or.inl (evaluates_of_resolve hresolve (.read _))
  | given => exact Or.inl (evaluates_of_resolve hresolve (.given _))
  | getter => exact Or.inl (evaluates_of_resolve hresolve (.getter _))
  | call module => exact Or.inl (evaluates_of_resolve hresolve (.call module _))
  | ref name =>
    rw [hresolve] at hplain
    obtain ⟨hlookup, hname⟩ := Bool.and_eq_true_iff.mp hplain
    have hundefined := evaluates_unbound hname (Option.isNone_iff_eq_none.mp hlookup)
    exact Or.inl (evaluates_of_resolve hresolve hundefined)
  | orElse | coalesce | andThen | either =>
    rw [hresolve] at hplain
    cases hplain

/-- A plain value that is not known to be truthy can be of any kind that `undefined` and `null` have
in common: falsy, or nullish if it is not known to be something either. -/
theorem exists_kind {P : JsKind → Prop} {lhs : Value} (hplain : Plain scopes lhs = true)
    (hundefined : P .undefined) (hnull : P .null)
    (hdefined : P .falsy ∨ scopes.resolve maxDepth lhs ≠ .defined)
    (htruthy : scopes.resolve maxDepth lhs ≠ .truthy)
    (hobject : ∀ props, scopes.resolve maxDepth lhs ≠ .object props)
    (harray : ∀ items, scopes.resolve maxDepth lhs ≠ .array items)
    (hdropped : scopes.resolve maxDepth lhs ≠ .dropped) :
    ∃ j, Evaluates scopes lhs j ∧ P j := by
  rcases undefined_or_known hplain with h | h | h | h | ⟨props, h⟩ | ⟨items, h⟩ | h
  · exact ⟨.undefined, h, hundefined⟩
  · obtain hfalsy | hdefined := hdefined
    · exact ⟨.falsy, evaluates_of_resolve h (.defined (Or.inl rfl)), hfalsy⟩
    · exact absurd h hdefined
  · exact ⟨.null, evaluates_of_resolve h .null, hnull⟩
  · exact absurd h htruthy
  · exact absurd h (hobject props)
  · exact absurd h (harray items)
  · exact absurd h hdropped

/-- A plain value that is not `null` can be truthy, or else is `undefined`. -/
theorem exists_truthy {lhs : Value} (hplain : Plain scopes lhs = true)
    (hnull : scopes.resolve maxDepth lhs ≠ .null) :
    Evaluates scopes lhs .undefined ∨ ∃ j, Evaluates scopes lhs j ∧ j.isTruthy = true := by
  rcases undefined_or_known hplain with h | h | h | h | ⟨props, h⟩ | ⟨items, h⟩ | h
  · exact Or.inl h
  · exact Or.inr ⟨.truthy, evaluates_of_resolve h (.defined (Or.inr rfl)), rfl⟩
  · exact absurd h hnull
  · exact Or.inr ⟨.truthy, evaluates_of_resolve h .truthy, rfl⟩
  · exact Or.inr ⟨.truthy, evaluates_of_resolve h (.object props), rfl⟩
  · exact Or.inr ⟨.truthy, evaluates_of_resolve h (.array items), rfl⟩
  · exact Or.inr ⟨.function, evaluates_of_resolve h .dropped, rfl⟩

/-- **A decided value that may be `undefined` can be.** -/
theorem evaluates_undefined_of_mayBeUndefined : ∀ {remaining : ℕ} {value : Value},
    Decided scopes remaining value = true → mayBeUndefined scopes remaining value = true →
      Evaluates scopes value .undefined
  | 0, _, hdecided, _ => by cases hdecided
  | remaining + 1, value, hdecided, hmay => by
    have ih : ∀ {value : Value}, Decided scopes remaining value = true →
        mayBeUndefined scopes remaining value = true → Evaluates scopes value .undefined :=
      evaluates_undefined_of_mayBeUndefined
    cases value with
    | orElse lhs rhs =>
      rw [Decided, Bool.and_eq_true_iff] at hdecided
      rw [mayBeUndefined_orElse] at hmay
      split at hmay
      case h_5 htruthy hobject harray hdropped =>
        obtain ⟨j, hj, hfalsy⟩ := exists_kind (P := fun j => j.isTruthy = false) hdecided.1 rfl rfl
          (Or.inl rfl) htruthy hobject harray hdropped
        exact .orElseRight hj hfalsy (ih hdecided.2 hmay)
      all_goals cases hmay
    | coalesce lhs rhs =>
      rw [Decided, Bool.and_eq_true_iff] at hdecided
      rw [mayBeUndefined_coalesce] at hmay
      split at hmay
      case h_6 hdefined htruthy hobject harray hdropped =>
        obtain ⟨j, hj, hnullish⟩ :=
          exists_kind (P := fun j => j.isNullish = true) hdecided.1 rfl rfl (Or.inr hdefined) htruthy
            hobject harray hdropped
        exact .coalesceRight hj hnullish (ih hdecided.2 hmay)
      all_goals cases hmay
    | andThen lhs rhs =>
      rw [Decided, Bool.and_eq_true_iff, Bool.and_eq_true_iff] at hdecided
      obtain ⟨⟨hplain, hlhs⟩, hrhs⟩ := hdecided
      rw [mayBeUndefined_andThen] at hmay
      split at hmay
      case h_1 => cases hmay
      case h_2 hnull =>
        rcases Bool.or_eq_true_iff.mp hmay with hleft | hright
        · exact .andThenLeft (ih hlhs hleft) rfl
        · rcases exists_truthy hplain hnull with hundefined | ⟨j, hj, htruthy⟩
          · exact .andThenLeft hundefined rfl
          · exact .andThenRight hj htruthy (ih hrhs hright)
    | either a b =>
      rw [Decided, Bool.and_eq_true_iff] at hdecided
      rw [mayBeUndefined_either] at hmay
      rcases Bool.or_eq_true_iff.mp hmay with ha | hb
      · exact .eitherLeft (ih hdecided.1 ha)
      · exact .eitherRight (ih hdecided.2 hb)
    | ref name =>
      rw [Decided] at hdecided
      rw [mayBeUndefined_ref] at hmay
      cases hlookup : scopes.lookup name with
      | some bound =>
        rw [hlookup] at hdecided hmay
        exact .bound hlookup (ih hdecided hmay)
      | none =>
        rw [hlookup] at hmay
        exact evaluates_unbound hmay hlookup
    | maybeUndefined => exact .maybeUndefined _
    | unjudged => exact .unjudged _
    | writeOnly => exact .writeOnly
    | read => exact .read _
    | given => exact .given _
    | getter => exact .getter _
    | call module => exact .call module _
    | defined | truthy | null | object | array | dropped => cases hmay

/-! ### Reading names now -/

/-- A value with its names read now, as far as the walk goes. -/
def settle (scopes : Scopes) : ℕ → Value → Value
  | 0, value => value
  | remaining + 1, value =>
    match value with
    | .ref name =>
      match scopes.lookup name with
      | some bound => settle scopes remaining bound
      | none => .ref name
    | .object props => .object (props.map fun
      | .key key inner => .key key (settle scopes remaining inner)
      | .spread inner => .spread (settle scopes remaining inner)
      | .unreadable => .unreadable)
    | .array items => .array (items.map (settle scopes remaining))
    | .orElse a b => .orElse (settle scopes remaining a) (settle scopes remaining b)
    | .coalesce a b => .coalesce (settle scopes remaining a) (settle scopes remaining b)
    | .andThen a b => .andThen (settle scopes remaining a) (settle scopes remaining b)
    | .either a b => .either (settle scopes remaining a) (settle scopes remaining b)
    | other => other

/-- What an operator evaluates to is decided by what its operands do. -/
theorem evaluates_operators {a a' b b' : Value}
    (ha : ∀ {k}, Evaluates scopes a k → Evaluates scopes a' k)
    (hb : ∀ {k}, Evaluates scopes b k → Evaluates scopes b' k) {k : JsKind} :
    (Evaluates scopes (.orElse a b) k → Evaluates scopes (.orElse a' b') k) ∧
      (Evaluates scopes (.coalesce a b) k → Evaluates scopes (.coalesce a' b') k) ∧
      (Evaluates scopes (.andThen a b) k → Evaluates scopes (.andThen a' b') k) ∧
      (Evaluates scopes (.either a b) k → Evaluates scopes (.either a' b') k) := by
  refine ⟨fun h => ?_, fun h => ?_, fun h => ?_, fun h => ?_⟩
  · cases h with
    | orElseLeft h hk => exact .orElseLeft (ha h) hk
    | orElseRight h hj hk => exact .orElseRight (ha h) hj (hb hk)
  · cases h with
    | coalesceLeft h hk => exact .coalesceLeft (ha h) hk
    | coalesceRight h hj hk => exact .coalesceRight (ha h) hj (hb hk)
  · cases h with
    | andThenLeft h hk => exact .andThenLeft (ha h) hk
    | andThenRight h hj hk => exact .andThenRight (ha h) hj (hb hk)
  · cases h with
    | eitherLeft h => exact .eitherLeft (ha h)
    | eitherRight h => exact .eitherRight (hb h)

theorem evaluates_bound_iff {name : String} {bound : Value} {k : JsKind}
    (hlookup : scopes.lookup name = some bound) :
    Evaluates scopes (.ref name) k ↔ Evaluates scopes bound k := by
  constructor
  · intro h
    cases h with
    | bound h hk =>
      rw [hlookup] at h
      cases h
      exact hk
    | unbound h _ =>
      rw [hlookup] at h
      cases h
  · exact .bound hlookup

/-- **A settled value evaluates to the same.** -/
theorem evaluates_settle : ∀ (remaining : ℕ) {value : Value} {k : JsKind},
    Evaluates scopes (settle scopes remaining value) k ↔ Evaluates scopes value k
  | 0, _, _ => Iff.rfl
  | remaining + 1, value, k => by
    have ih : ∀ {value : Value} {k : JsKind},
        Evaluates scopes (settle scopes remaining value) k ↔ Evaluates scopes value k :=
      evaluates_settle remaining
    cases value with
    | ref name =>
      rw [settle]
      cases hlookup : scopes.lookup name with
      | none => rfl
      | some bound => exact ih.trans (evaluates_bound_iff hlookup).symm
    | object props =>
      rw [settle]
      constructor <;> intro h <;> cases h <;> exact .object _
    | array items =>
      rw [settle]
      constructor <;> intro h <;> cases h <;> exact .array _
    | orElse a b =>
      rw [settle]
      exact ⟨(evaluates_operators ih.mp ih.mp).1, (evaluates_operators ih.mpr ih.mpr).1⟩
    | coalesce a b =>
      rw [settle]
      exact ⟨(evaluates_operators ih.mp ih.mp).2.1, (evaluates_operators ih.mpr ih.mpr).2.1⟩
    | andThen a b =>
      rw [settle]
      exact ⟨(evaluates_operators ih.mp ih.mp).2.2.1, (evaluates_operators ih.mpr ih.mpr).2.2.1⟩
    | either a b =>
      rw [settle]
      exact ⟨(evaluates_operators ih.mp ih.mp).2.2.2, (evaluates_operators ih.mpr ih.mpr).2.2.2⟩
    | _ => rfl

end Whatspec.Mex

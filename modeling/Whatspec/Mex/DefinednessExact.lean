import Whatspec.Mex.PresenceValue

/-!
# When is a value that is judged defined kept?

`Evaluates` is what a value can evaluate to, by the rules of the short-circuit operators.  A key is
kept unless its value is `undefined` or a function.

* `safe_of_defined`: what is judged defined is never `undefined`, and a function only when it comes
  from the left of `||` or `??`;
* **`kept_iff_of_defined`**: it is always kept exactly when no function comes from there.
-/

namespace Whatspec.Mex

open Whatspec.Library

/-- The values of the language, as far as the operators and the serialization tell them apart. -/
inductive JsKind where
  | undefined
  | null
  | function
  /-- A number, a string or a boolean that is falsy. -/
  | falsy
  /-- A truthy value that is no function. -/
  | truthy
  deriving DecidableEq

namespace JsKind

def isTruthy : JsKind → Bool
  | function | truthy => true
  | undefined | null | falsy => false

def isNullish : JsKind → Bool
  | undefined | null => true
  | function | falsy | truthy => false

/-- The serialization keeps a key that holds the value. -/
def Kept (k : JsKind) : Prop := k ≠ undefined ∧ k ≠ function

end JsKind

/-- What a name that nothing binds can hold. -/
def UnboundHolds (name : String) (k : JsKind) : Prop :=
  if name = "NaN" then k = .falsy
  else if name = "Infinity" then k = .truthy
  else if name = "undefined" then k = .undefined
  else True

/-- What a value can evaluate to. -/
inductive Evaluates (scopes : Scopes) : Value → JsKind → Prop
  | defined {k : JsKind} (h : k = .falsy ∨ k = .truthy) : Evaluates scopes .defined k
  | maybeUndefined (k : JsKind) : Evaluates scopes .maybeUndefined k
  | unjudged (k : JsKind) : Evaluates scopes .unjudged k
  | dropped : Evaluates scopes .dropped .function
  | truthy : Evaluates scopes .truthy .truthy
  | writeOnly : Evaluates scopes .writeOnly .undefined
  | read (k : JsKind) : Evaluates scopes .read k
  | given (k : JsKind) : Evaluates scopes .given k
  | getter (k : JsKind) : Evaluates scopes .getter k
  | null : Evaluates scopes .null .null
  | object (props : List Property) : Evaluates scopes (.object props) .truthy
  | array (items : List Value) : Evaluates scopes (.array items) .truthy
  | call (module : Option String) (k : JsKind) : Evaluates scopes (.call module) k
  | bound {name : String} {value : Value} {k : JsKind} (h : scopes.lookup name = some value)
      (hk : Evaluates scopes value k) : Evaluates scopes (.ref name) k
  | unbound {name : String} {k : JsKind} (h : scopes.lookup name = none)
      (hk : UnboundHolds name k) : Evaluates scopes (.ref name) k
  | orElseLeft {lhs rhs : Value} {k : JsKind} (h : Evaluates scopes lhs k)
      (hk : k.isTruthy = true) : Evaluates scopes (.orElse lhs rhs) k
  | orElseRight {lhs rhs : Value} {j k : JsKind} (h : Evaluates scopes lhs j)
      (hj : j.isTruthy = false) (hk : Evaluates scopes rhs k) : Evaluates scopes (.orElse lhs rhs) k
  | coalesceLeft {lhs rhs : Value} {k : JsKind} (h : Evaluates scopes lhs k)
      (hk : k.isNullish = false) : Evaluates scopes (.coalesce lhs rhs) k
  | coalesceRight {lhs rhs : Value} {j k : JsKind} (h : Evaluates scopes lhs j)
      (hj : j.isNullish = true) (hk : Evaluates scopes rhs k) :
      Evaluates scopes (.coalesce lhs rhs) k
  | andThenLeft {lhs rhs : Value} {k : JsKind} (h : Evaluates scopes lhs k)
      (hk : k.isTruthy = false) : Evaluates scopes (.andThen lhs rhs) k
  | andThenRight {lhs rhs : Value} {j k : JsKind} (h : Evaluates scopes lhs j)
      (hj : j.isTruthy = true) (hk : Evaluates scopes rhs k) : Evaluates scopes (.andThen lhs rhs) k
  | eitherLeft {a b : Value} {k : JsKind} (h : Evaluates scopes a k) :
      Evaluates scopes (.either a b) k
  | eitherRight {a b : Value} {k : JsKind} (h : Evaluates scopes b k) :
      Evaluates scopes (.either a b) k

/-- An evaluation ends at the left of `||` or `??`, with a function. -/
inductive LeftFunction (scopes : Scopes) : Value → Prop
  | orElse {lhs rhs : Value} (h : Evaluates scopes lhs .function) :
      LeftFunction scopes (.orElse lhs rhs)
  | coalesce {lhs rhs : Value} (h : Evaluates scopes lhs .function) :
      LeftFunction scopes (.coalesce lhs rhs)
  | orElseRight {lhs rhs : Value} {j : JsKind} (h : Evaluates scopes lhs j)
      (hj : j.isTruthy = false) (hr : LeftFunction scopes rhs) :
      LeftFunction scopes (.orElse lhs rhs)
  | coalesceRight {lhs rhs : Value} {j : JsKind} (h : Evaluates scopes lhs j)
      (hj : j.isNullish = true) (hr : LeftFunction scopes rhs) :
      LeftFunction scopes (.coalesce lhs rhs)
  | andThenRight {lhs rhs : Value} {j : JsKind} (h : Evaluates scopes lhs j)
      (hj : j.isTruthy = true) (hr : LeftFunction scopes rhs) :
      LeftFunction scopes (.andThen lhs rhs)
  | eitherLeft {a b : Value} (h : LeftFunction scopes a) : LeftFunction scopes (.either a b)
  | eitherRight {a b : Value} (h : LeftFunction scopes b) : LeftFunction scopes (.either a b)
  | bound {name : String} {value : Value} (h : scopes.lookup name = some value)
      (hv : LeftFunction scopes value) : LeftFunction scopes (.ref name)

variable {scopes : Scopes}

/-- A function from the left is what the value evaluates to. -/
theorem LeftFunction.evaluates {value : Value} (h : LeftFunction scopes value) :
    Evaluates scopes value .function := by
  induction h with
  | orElse h => exact .orElseLeft h rfl
  | coalesce h => exact .coalesceLeft h rfl
  | orElseRight h hj _ ih => exact .orElseRight h hj ih
  | coalesceRight h hj _ ih => exact .coalesceRight h hj ih
  | andThenRight h hj _ ih => exact .andThenRight h hj ih
  | eitherLeft _ ih => exact .eitherLeft ih
  | eitherRight _ ih => exact .eitherRight ih
  | bound h _ ih => exact .bound h ih

/-! ### Following names -/

theorem evaluates_resolve (remaining : ℕ) (value : Value) (k : JsKind) :
    Evaluates scopes (scopes.resolve remaining value) k ↔ Evaluates scopes value k := by
  induction remaining generalizing value with
  | zero => cases value <;> rfl
  | succ remaining ih =>
    cases value with
    | ref name =>
      rw [Scopes.resolve]
      cases hlookup : scopes.lookup name with
      | none => rfl
      | some bound =>
        dsimp only
        rw [ih]
        constructor
        · exact .bound hlookup
        · intro h
          cases h with
          | bound h hk =>
            rw [hlookup] at h
            cases h
            exact hk
          | unbound h _ =>
            rw [hlookup] at h
            cases h
    | _ => rfl

/-- An operand that resolves to a choice is one of its arms. -/
theorem evaluates_of_resolve_either {remaining : ℕ} {value a b : Value} {k : JsKind}
    (h : scopes.resolve remaining value = .either a b) :
    Evaluates scopes value k ↔ Evaluates scopes a k ∨ Evaluates scopes b k := by
  rw [← evaluates_resolve remaining, h]
  constructor
  · intro h
    cases h with
    | eitherLeft h => exact Or.inl h
    | eitherRight h => exact Or.inr h
  · rintro (h | h)
    · exact .eitherLeft h
    · exact .eitherRight h

/-- An operand that resolves to a value of one kind is of that kind. -/
theorem kind_of_resolve (remaining : ℕ) {value : Value} {k : JsKind}
    (h : Evaluates scopes value k) :
    (scopes.resolve remaining value = .truthy → k = .truthy) ∧
      (∀ props, scopes.resolve remaining value = .object props → k = .truthy) ∧
      (∀ items, scopes.resolve remaining value = .array items → k = .truthy) ∧
      (scopes.resolve remaining value = .dropped → k = .function) ∧
      (scopes.resolve remaining value = .null → k = .null) ∧
      (scopes.resolve remaining value = .defined → k = .falsy ∨ k = .truthy) := by
  rw [← evaluates_resolve remaining] at h
  refine ⟨fun hv => ?_, fun _ hv => ?_, fun _ hv => ?_, fun hv => ?_, fun hv => ?_, fun hv => ?_⟩ <;>
    rw [hv] at h <;> cases h
  any_goals rfl
  assumption

/-! ### What is judged defined -/

/-- What is not `undefined`, and a function only from the left of `||` or `??`. -/
def Safe (scopes : Scopes) (value : Value) (k : JsKind) : Prop :=
  k ≠ .undefined ∧ (k = .function → LeftFunction scopes value)

theorem definedness_orElse (remaining : ℕ) (lhs rhs : Value) :
    definedness scopes (remaining + 1) (.orElse lhs rhs) =
      match scopes.resolve maxDepth lhs with
      | .truthy | .object _ | .array _ => definedness scopes remaining lhs
      | .dropped => .maybeUndefined
      | .either a b => max (definedness scopes remaining (.orElse a rhs))
          (definedness scopes remaining (.orElse b rhs))
      | _ => definedness scopes remaining rhs := rfl

theorem definedness_coalesce (remaining : ℕ) (lhs rhs : Value) :
    definedness scopes (remaining + 1) (.coalesce lhs rhs) =
      match scopes.resolve maxDepth lhs with
      | .defined | .truthy | .object _ | .array _ => definedness scopes remaining lhs
      | .dropped => .maybeUndefined
      | .either a b => max (definedness scopes remaining (.coalesce a rhs))
          (definedness scopes remaining (.coalesce b rhs))
      | _ => definedness scopes remaining rhs := rfl

theorem definedness_andThen (remaining : ℕ) (lhs rhs : Value) :
    definedness scopes (remaining + 1) (.andThen lhs rhs) =
      match scopes.resolve maxDepth lhs with
      | .dropped => definedness scopes remaining rhs
      | .null => .defined
      | _ => max (definedness scopes remaining lhs) (definedness scopes remaining rhs) := rfl

theorem definedness_either (remaining : ℕ) (a b : Value) :
    definedness scopes (remaining + 1) (.either a b) =
      max (definedness scopes remaining a) (definedness scopes remaining b) := rfl

theorem definedness_ref (remaining : ℕ) (name : String) :
    definedness scopes (remaining + 1) (.ref name) =
      match scopes.lookup name with
      | some bound => definedness scopes remaining bound
      | none => unboundDefinedness name := rfl

/-- A value whose operand is one of two is no worse than with that one in its place. -/
theorem Safe.orElse_of_arm {lhs rhs arm : Value} {j k : JsKind}
    (harm : ∀ k, Evaluates scopes arm k → Evaluates scopes lhs k) (h : Evaluates scopes arm j)
    (hj : j.isTruthy = false) (hsafe : Safe scopes (.orElse arm rhs) k) :
    Safe scopes (.orElse lhs rhs) k := by
  refine ⟨hsafe.1, fun hk => ?_⟩
  cases hsafe.2 hk with
  | orElse h' => exact .orElse (harm _ h')
  | orElseRight _ _ hr => exact .orElseRight (harm _ h) hj hr

theorem Safe.coalesce_of_arm {lhs rhs arm : Value} {j k : JsKind}
    (harm : ∀ k, Evaluates scopes arm k → Evaluates scopes lhs k) (h : Evaluates scopes arm j)
    (hj : j.isNullish = true) (hsafe : Safe scopes (.coalesce arm rhs) k) :
    Safe scopes (.coalesce lhs rhs) k := by
  refine ⟨hsafe.1, fun hk => ?_⟩
  cases hsafe.2 hk with
  | coalesce h' => exact .coalesce (harm _ h')
  | coalesceRight _ _ hr => exact .coalesceRight (harm _ h) hj hr

/-- The right side of `||`, where the left side is falsy. -/
theorem safe_orElseRight {remaining : ℕ} {lhs rhs : Value} {j k : JsKind}
    (ih : ∀ {value : Value} {k : JsKind}, definedness scopes remaining value = .defined →
      Evaluates scopes value k → Safe scopes value k)
    (hdefined : definedness scopes (remaining + 1) (.orElse lhs rhs) = .defined)
    (h : Evaluates scopes lhs j) (hj : j.isTruthy = false) (hk : Evaluates scopes rhs k) :
    Safe scopes (.orElse lhs rhs) k := by
  obtain ⟨htruthy, hobject, harray, -, -, -⟩ := kind_of_resolve maxDepth h
  rw [definedness_orElse] at hdefined
  have hright : definedness scopes remaining rhs = .defined → Safe scopes (.orElse lhs rhs) k := by
    intro hrhs
    obtain ⟨hundefined, hfunction⟩ := ih hrhs hk
    exact ⟨hundefined, fun hk => .orElseRight h hj (hfunction hk)⟩
  cases hresolve : scopes.resolve maxDepth lhs with
  | truthy => rw [htruthy hresolve] at hj; cases hj
  | object props => rw [hobject props hresolve] at hj; cases hj
  | array items => rw [harray items hresolve] at hj; cases hj
  | dropped => rw [hresolve] at hdefined; cases hdefined
  | either a b =>
    rw [hresolve] at hdefined
    obtain ⟨ha, hb⟩ := Definedness.max_eq_defined.mp hdefined
    have harm := fun k => evaluates_of_resolve_either (k := k) hresolve
    obtain h | h := (harm j).mp h
    · exact (ih ha (.orElseRight h hj hk)).orElse_of_arm (fun k => (harm k).mpr ∘ Or.inl) h hj
    · exact (ih hb (.orElseRight h hj hk)).orElse_of_arm (fun k => (harm k).mpr ∘ Or.inr) h hj
  | _ =>
    rw [hresolve] at hdefined
    exact hright hdefined

/-- The right side of `??`, where the left side is `null` or `undefined`. -/
theorem safe_coalesceRight {remaining : ℕ} {lhs rhs : Value} {j k : JsKind}
    (ih : ∀ {value : Value} {k : JsKind}, definedness scopes remaining value = .defined →
      Evaluates scopes value k → Safe scopes value k)
    (hdefined : definedness scopes (remaining + 1) (.coalesce lhs rhs) = .defined)
    (h : Evaluates scopes lhs j) (hj : j.isNullish = true) (hk : Evaluates scopes rhs k) :
    Safe scopes (.coalesce lhs rhs) k := by
  obtain ⟨htruthy, hobject, harray, -, -, hliteral⟩ := kind_of_resolve maxDepth h
  rw [definedness_coalesce] at hdefined
  have hright : definedness scopes remaining rhs = .defined →
      Safe scopes (.coalesce lhs rhs) k := by
    intro hrhs
    obtain ⟨hundefined, hfunction⟩ := ih hrhs hk
    exact ⟨hundefined, fun hk => .coalesceRight h hj (hfunction hk)⟩
  cases hresolve : scopes.resolve maxDepth lhs with
  | defined => obtain rfl | rfl := hliteral hresolve <;> cases hj
  | truthy => rw [htruthy hresolve] at hj; cases hj
  | object props => rw [hobject props hresolve] at hj; cases hj
  | array items => rw [harray items hresolve] at hj; cases hj
  | dropped => rw [hresolve] at hdefined; cases hdefined
  | either a b =>
    rw [hresolve] at hdefined
    obtain ⟨ha, hb⟩ := Definedness.max_eq_defined.mp hdefined
    have harm := fun k => evaluates_of_resolve_either (k := k) hresolve
    obtain h | h := (harm j).mp h
    · exact (ih ha (.coalesceRight h hj hk)).coalesce_of_arm (fun k => (harm k).mpr ∘ Or.inl) h hj
    · exact (ih hb (.coalesceRight h hj hk)).coalesce_of_arm (fun k => (harm k).mpr ∘ Or.inr) h hj
  | _ =>
    rw [hresolve] at hdefined
    exact hright hdefined

/-- Either side of `&&`. -/
theorem safe_andThen {remaining : ℕ} {lhs rhs : Value} {k : JsKind}
    (ih : ∀ {value : Value} {k : JsKind}, definedness scopes remaining value = .defined →
      Evaluates scopes value k → Safe scopes value k)
    (hdefined : definedness scopes (remaining + 1) (.andThen lhs rhs) = .defined)
    (h : Evaluates scopes (.andThen lhs rhs) k) : Safe scopes (.andThen lhs rhs) k := by
  -- A left side that is the value is falsy, so it is no function.
  have hleft : k.isTruthy = false → k ≠ .undefined → Safe scopes (.andThen lhs rhs) k := by
    intro hk hundefined
    refine ⟨hundefined, fun hfunction => ?_⟩
    rw [hfunction] at hk
    cases hk
  rw [definedness_andThen] at hdefined
  cases h with
  | andThenLeft h hk =>
    obtain ⟨-, -, -, hdropped, hnull, -⟩ := kind_of_resolve maxDepth h
    cases hresolve : scopes.resolve maxDepth lhs with
    | dropped => rw [hdropped hresolve] at hk; cases hk
    | null =>
      refine hleft hk ?_
      rw [hnull hresolve]
      exact JsKind.noConfusion
    | _ =>
      rw [hresolve] at hdefined
      exact hleft hk (ih (Definedness.max_eq_defined.mp hdefined).1 h).1
  | andThenRight h hj hk =>
    obtain ⟨-, -, -, -, hnull, -⟩ := kind_of_resolve maxDepth h
    have hright : definedness scopes remaining rhs = .defined := by
      cases hresolve : scopes.resolve maxDepth lhs with
      | dropped => rw [hresolve] at hdefined; exact hdefined
      | null => rw [hnull hresolve] at hj; cases hj
      | _ => rw [hresolve] at hdefined; exact (Definedness.max_eq_defined.mp hdefined).2
    obtain ⟨hundefined, hfunction⟩ := ih hright hk
    exact ⟨hundefined, fun hk => .andThenRight h hj (hfunction hk)⟩

theorem safe_unbound {name : String} {k : JsKind} (hdefined : unboundDefinedness name = .defined)
    (h : UnboundHolds name k) : k ≠ .undefined ∧ k ≠ .function := by
  rw [unboundDefinedness] at hdefined
  split_ifs at hdefined with hname
  obtain rfl | rfl := hname
  · rw [UnboundHolds, if_pos rfl] at h
    rw [h]
    exact ⟨nofun, nofun⟩
  · rw [UnboundHolds, if_neg (by decide), if_pos rfl] at h
    rw [h]
    exact ⟨nofun, nofun⟩

/-- What is judged defined is not `undefined`, and a function only from the left of `||` or
`??`. -/
theorem safe_of_defined : ∀ {remaining : ℕ} {value : Value} {k : JsKind},
    definedness scopes remaining value = .defined → Evaluates scopes value k →
      Safe scopes value k
  | 0, _, _, hdefined, _ => by cases hdefined
  | remaining + 1, value, k, hdefined, h => by
    have ih : ∀ {value : Value} {k : JsKind}, definedness scopes remaining value = .defined →
        Evaluates scopes value k → Safe scopes value k := safe_of_defined
    cases h with
    | defined h => obtain rfl | rfl := h <;> exact ⟨nofun, nofun⟩
    | truthy => exact ⟨nofun, nofun⟩
    | null => exact ⟨nofun, nofun⟩
    | object => exact ⟨nofun, nofun⟩
    | array => exact ⟨nofun, nofun⟩
    | bound hlookup hk =>
      rw [definedness_ref] at hdefined
      simp only [hlookup] at hdefined
      obtain ⟨hundefined, hfunction⟩ := ih hdefined hk
      exact ⟨hundefined, fun hk => .bound hlookup (hfunction hk)⟩
    | unbound hlookup hk =>
      rw [definedness_ref] at hdefined
      simp only [hlookup] at hdefined
      obtain ⟨hundefined, hfunction⟩ := safe_unbound hdefined hk
      exact ⟨hundefined, fun hk => absurd hk hfunction⟩
    | orElseLeft h hk =>
      refine ⟨fun heq => ?_, fun heq => .orElse (heq ▸ h)⟩
      rw [heq] at hk
      cases hk
    | orElseRight h hj hk => exact safe_orElseRight ih hdefined h hj hk
    | coalesceLeft h hk =>
      refine ⟨fun heq => ?_, fun heq => .coalesce (heq ▸ h)⟩
      rw [heq] at hk
      cases hk
    | coalesceRight h hj hk => exact safe_coalesceRight ih hdefined h hj hk
    | andThenLeft h hk => exact safe_andThen ih hdefined (.andThenLeft h hk)
    | andThenRight h hj hk => exact safe_andThen ih hdefined (.andThenRight h hj hk)
    | eitherLeft h =>
      rw [definedness_either] at hdefined
      obtain ⟨hundefined, hfunction⟩ := ih (Definedness.max_eq_defined.mp hdefined).1 h
      exact ⟨hundefined, fun hk => .eitherLeft (hfunction hk)⟩
    | eitherRight h =>
      rw [definedness_either] at hdefined
      obtain ⟨hundefined, hfunction⟩ := ih (Definedness.max_eq_defined.mp hdefined).2 h
      exact ⟨hundefined, fun hk => .eitherRight (hfunction hk)⟩
    | _ => cases hdefined

/-- **A value that is judged defined is always kept exactly when none of its evaluations ends at
the left of `||` or `??` with a function.** -/
theorem kept_iff_of_defined {remaining : ℕ} {value : Value}
    (hdefined : definedness scopes remaining value = .defined) :
    (∀ k, Evaluates scopes value k → k.Kept) ↔ ¬ LeftFunction scopes value := by
  constructor
  · intro h hleft
    exact (h .function hleft.evaluates).2 rfl
  · intro hnone k hk
    obtain ⟨hundefined, hfunction⟩ := safe_of_defined hdefined hk
    exact ⟨hundefined, fun hk => hnone (hfunction hk)⟩

/-- Nothing is bound. -/
def Scopes.empty : Scopes := ⟨[[]], [[]], [], []⟩

/-- `t ? 1 : {}`. -/
theorem kept_iff_of_defined_choice :
    definedness .empty maxDepth (.either .defined (.object [])) = .defined ∧
      ((∀ k, Evaluates .empty (.either .defined (.object [])) k → k.Kept) ↔
        ¬ LeftFunction .empty (.either .defined (.object []))) :=
  have hdefined : definedness .empty maxDepth (.either .defined (.object [])) = .defined := by
    decide +kernel
  ⟨hdefined, kept_iff_of_defined hdefined⟩

/-- `(function(){} || x) || !0` evaluates to the function, and is judged defined: a short-circuit
on the left is not looked into. -/
theorem nested_function_judged_defined :
    definedness .empty maxDepth (.orElse (.orElse .dropped (.ref "x")) .truthy) = .defined ∧
      Evaluates .empty (.orElse (.orElse .dropped (.ref "x")) .truthy) .function ∧
      ¬ JsKind.function.Kept :=
  ⟨by decide +kernel, .orElseLeft (.orElseLeft .dropped rfl) rfl, fun h => h.2 rfl⟩

end Whatspec.Mex

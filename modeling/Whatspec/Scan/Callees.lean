import Mathlib.Order.WellFounded

/-!
# The function a call invokes, and its arguments

A call may reach a function through wrappers: parentheses, comma expressions, conditionals whose test
is decided, `bind`, `call` and `apply`, and the methods of object literals.  Two readers walk the
callee of a call, each by rules of its own.

* `invokedCallee` finds the function;
* `effectiveArguments` lists what reaches its parameters, and whether the list is complete;
* `peel`, `selectedArm`, `namedMember` and `ownedProperty` are what they share.
-/

namespace Whatspec.Scan.Callees

/-! ### Expressions -/

inductive LogicalOperator where
  | and
  | or
  | coalesce
  deriving DecidableEq

inductive UnaryOperator where
  | logicalNot
  | void
  | other
  deriving DecidableEq

inductive PropertyKind where
  | init
  | get
  | set
  deriving DecidableEq

/-- An argument of a call, with the position it is written at. -/
inductive Argument (ε : Type) where
  | expression (position : ℕ) (e : ε)
  | spread (position : ℕ) (e : ε)

/-- An element of an array literal, with its position. -/
inductive ArrayElement (ε : Type) where
  | expression (position : ℕ) (e : ε)
  | spread (position : ℕ) (e : ε)
  | elision

/-- An entry of an object literal; `key` is the name of the property where the text tells it. -/
inductive ObjectEntry (ε : Type) where
  | property (key : Option String) (computed method shorthand : Bool) (kind : PropertyKind)
      (value : ε)
  | spread (argument : ε)

/-- An expression.  A function stands for its text by a number, and so does every expression that
neither reader looks into. -/
inductive Expr where
  | null
  | boolean (value : Bool)
  | number (isZero : Bool)
  | bigint (digits : String)
  | string (value : String)
  /-- A template, with its text when nothing is substituted into it. -/
  | template (single : Option String)
  | paren (expression : Expr)
  /-- A comma expression: what comes first, and the last. -/
  | sequence (first : List Expr) (last : Expr)
  | conditional (test consequent alternate : Expr)
  | logical (operator : LogicalOperator) (left right : Expr)
  | unary (operator : UnaryOperator) (argument : Expr)
  | call (callee : Expr) (arguments : List (Argument Expr))
  | staticMember (object : Expr) (property : String)
  | computedMember (object key : Expr)
  | object (properties : List (ObjectEntry Expr))
  | array (elements : List (ArrayElement Expr))
  | function (id : ℕ)
  | other (id : ℕ)

/-! ### What an expression is worth -/

mutual

/-- `always_true`: no value of the test makes it false. -/
def alwaysTrue : Expr → Bool
  | .boolean value => value
  | .number isZero => !isZero
  | .bigint digits => digits.toList.any (· != '0')
  | .string value => value != ""
  | .template single => single.any (· != "")
  | .paren e => alwaysTrue e
  | .unary .logicalNot e => alwaysFalse e
  | _ => false

/-- `always_false`. -/
def alwaysFalse : Expr → Bool
  | .boolean value => !value
  | .number isZero => isZero
  | .bigint digits => digits.toList.all (· == '0')
  | .null => true
  | .string value => value == ""
  | .template single => single.any (· == "")
  | .paren e => alwaysFalse e
  | .unary .logicalNot e => alwaysTrue e
  | _ => false

end

/-- `certainly_nullish`. -/
def certainlyNullish : Expr → Bool
  | .null => true
  | .paren e => certainlyNullish e
  | .unary operator _ => operator == .void
  | _ => false

/-- `logical_right_is_certain`: the right side runs whatever the left one is. -/
def logicalRightIsCertain (operator : LogicalOperator) (left : Expr) : Bool :=
  match operator with
  | .and => alwaysTrue left
  | .or => alwaysFalse left
  | .coalesce => certainlyNullish left

/-- `selected_arm`: the arm a decided conditional or short circuit evaluates to, if it is one. -/
def selectedArm : Expr → Option Expr
  | .conditional test consequent alternate =>
    if alwaysTrue test then some consequent
    else if alwaysFalse test then some alternate
    else none
  | .logical operator left right =>
    if logicalRightIsCertain operator left then some right else none
  | _ => none

theorem sizeOf_selectedArm {e arm : Expr} (h : selectedArm e = some arm) :
    sizeOf arm < sizeOf e := by
  unfold selectedArm at h
  split at h
  · split at h
    · cases h
      simp only [Expr.conditional.sizeOf_spec]
      omega
    · split at h
      · cases h
        simp only [Expr.conditional.sizeOf_spec]
        omega
      · cases h
  · split at h
    · cases h
      simp only [Expr.logical.sizeOf_spec]
      omega
    · cases h
  · cases h

/-- `peel`: through the wrappers that do not change which value an expression is. -/
def peel (e : Expr) : Expr :=
  match e with
  | .paren inner => peel inner
  | .sequence _ last => peel last
  | e =>
    match h : selectedArm e with
    | some arm =>
      have := sizeOf_selectedArm h
      peel arm
    | none => e
termination_by sizeOf e

/-- What is left to see through at an expression, if anything. -/
theorem peel_induction {P : Expr → Expr → Prop} (hparen : ∀ e r, P e r → P (.paren e) r)
    (hsequence : ∀ first e r, P e r → P (.sequence first e) r)
    (harm : ∀ e arm r, selectedArm e = some arm → P arm r → P e r)
    (hself : ∀ e, selectedArm e = none → P e e) (e : Expr) : P e (peel e) := by
  induction hn : sizeOf e using Nat.strong_induction_on generalizing e with
  | _ n ih =>
    subst hn
    unfold peel
    split
    · next inner => exact hparen inner _ (ih _ (by simp only [Expr.paren.sizeOf_spec]; omega) _ rfl)
    · next first last =>
      exact hsequence first last _
        (ih _ (by simp only [Expr.sequence.sizeOf_spec]; omega) _ rfl)
    · split
      · next arm h => exact harm _ arm _ h (ih _ (sizeOf_selectedArm h) _ rfl)
      · next h => exact hself _ h

theorem sizeOf_peel_le (e : Expr) : sizeOf (peel e) ≤ sizeOf e := by
  refine peel_induction (P := fun e r => sizeOf r ≤ sizeOf e) ?_ ?_ ?_ ?_ e
  · intro e r h
    simp only [Expr.paren.sizeOf_spec]
    omega
  · intro first e r h
    simp only [Expr.sequence.sizeOf_spec]
    omega
  · intro e arm r harm h
    exact h.trans (sizeOf_selectedArm harm).le
  · exact fun e _ => le_rfl

/-! ### Members -/

/-- `named_member`: a member by a name the text tells, dotted or in brackets. -/
def namedMember : Expr → Option (String × Expr)
  | .staticMember object property => some (property, object)
  | .computedMember object key =>
    match peel key with
    | .string value => some (value, object)
    | .template (some text) => some (text, object)
    | _ => none
  | _ => none

theorem selectedArm_of_namedMember {e : Expr} {found : String × Expr}
    (h : namedMember e = some found) : selectedArm e = none := by
  unfold namedMember at h
  split at h
  · rfl
  · rfl
  · cases h

theorem sizeOf_namedMember {e object : Expr} {name : String}
    (h : namedMember e = some (name, object)) : sizeOf object < sizeOf e := by
  unfold namedMember at h
  split at h
  · cases h
    simp only [Expr.staticMember.sizeOf_spec]
    omega
  · have hlt : ∀ o key, sizeOf o < sizeOf (Expr.computedMember o key) := by
      intro o key
      simp only [Expr.computedMember.sizeOf_spec]
      omega
    split at h
    · cases h
      exact hlt _ _
    · cases h
      exact hlt _ _
    · cases h
  · cases h

theorem sizeOf_mem_object {properties : List (ObjectEntry Expr)} {p : ObjectEntry Expr}
    (h : p ∈ properties) : sizeOf p < sizeOf (Expr.object properties) := by
  have hlt := List.sizeOf_lt_of_mem h
  simp only [Expr.object.sizeOf_spec]
  omega

/-- `spread_may_define`: spreading an expression could supply the name. -/
def spreadMayDefine (e : Expr) (name : String) : Bool :=
  match h : peel e with
  | .object properties => properties.attach.any fun
    | ⟨.spread argument, hmem⟩ =>
      have : sizeOf argument < sizeOf e := by
        have hsize := sizeOf_mem_object hmem
        have hle := sizeOf_peel_le e
        rw [h] at hle
        simp only [ObjectEntry.spread.sizeOf_spec] at hsize
        omega
      spreadMayDefine argument name
    | ⟨.property key .., _⟩ => key.all (· == name)
  | _ => true
termination_by sizeOf e

/-- `sets_the_prototype`: `\x7b__proto__: v\x7d` is no property of the literal. -/
def setsThePrototype {ε : Type} : ObjectEntry ε → Bool
  | .property key computed method shorthand kind _ =>
    !computed && !method && !shorthand && kind == .init && key == some "__proto__"
  | .spread _ => false

/-- An entry that certainly writes the property of a name. -/
def definesName {ε : Type} (name : String) : ObjectEntry ε → Bool
  | .property key computed method shorthand kind value =>
    key == some name &&
      !setsThePrototype (.property key computed method shorthand kind value)
  | .spread _ => false

/-- The scan of `owned_property`, from the last entry on. -/
def ownedFrom (name : String) : List (ObjectEntry Expr) → Option (ObjectEntry Expr)
  | [] => none
  | .spread argument :: rest =>
    if spreadMayDefine argument name then none else ownedFrom name rest
  | .property key computed method shorthand kind value :: rest =>
    if definesName name (.property key computed method shorthand kind value) then
      some (.property key computed method shorthand kind value)
    else if computed && key.isNone then none
    else ownedFrom name rest

/-- `owned_property`: the property the literal ends up with for a name. -/
def ownedProperty (properties : List (ObjectEntry Expr)) (name : String) :
    Option (ObjectEntry Expr) :=
  ownedFrom name properties.reverse

theorem mem_of_ownedFrom {name : String} {p : ObjectEntry Expr} :
    ∀ {properties : List (ObjectEntry Expr)}, ownedFrom name properties = some p → p ∈ properties
  | [], h => nomatch h
  | .spread argument :: rest, h => by
    rw [ownedFrom] at h
    split at h
    · cases h
    · exact List.mem_cons_of_mem _ (mem_of_ownedFrom h)
  | .property key computed method shorthand kind value :: rest, h => by
    rw [ownedFrom] at h
    split at h
    · cases h
      exact List.mem_cons_self
    · split at h
      · cases h
      · exact List.mem_cons_of_mem _ (mem_of_ownedFrom h)

/-- The value of the method or field of an object literal that a member names. -/
def literalValue (object : Expr) (name : String) : Option Expr :=
  match peel object with
  | .object properties =>
    match ownedProperty properties name with
    | some (.property _ _ _ _ .init value) => some value
    | _ => none
  | _ => none

theorem sizeOf_literalValue {object value : Expr} {name : String}
    (h : literalValue object name = some value) : sizeOf value < sizeOf object := by
  unfold literalValue at h
  have hle := sizeOf_peel_le object
  split at h
  · next properties hpeel =>
    split at h
    · next howned =>
      cases h
      have hmem := List.mem_reverse.mp (mem_of_ownedFrom howned)
      have hsize := sizeOf_mem_object hmem
      rw [hpeel] at hle
      simp only [ObjectEntry.property.sizeOf_spec] at hsize
      omega
    · cases h
  · cases h

/-! ### The function -/

/-- `reference_discarded`: a comma at the top of the callee. -/
def referenceDiscarded : Expr → Bool
  | .paren e => referenceDiscarded e
  | .sequence .. => true
  | _ => false

/-- A part of an expression. -/
abbrev Within (e : Expr) := {part : Expr // sizeOf part ≤ sizeOf e}

def Within.weaken {e inner : Expr} (h : sizeOf inner ≤ sizeOf e) (part : Within inner) : Within e :=
  ⟨part.1, part.2.trans h⟩

/-- The loop of `invoked_callee`; `lost` is `reference_lost`. -/
def invokedWithin (lost : Bool) (e : Expr) : Within e :=
  match e with
  | .paren inner =>
    .weaken (by simp only [Expr.paren.sizeOf_spec]; omega) (invokedWithin lost inner)
  | .sequence _ last =>
    .weaken (by simp only [Expr.sequence.sizeOf_spec]; omega) (invokedWithin true last)
  | .call callee arguments =>
    -- `bind_member`
    if referenceDiscarded callee then ⟨.call callee arguments, le_rfl⟩
    else
      let invoked := invokedWithin false callee
      match h : namedMember invoked.1 with
      | some (name, object) =>
        have hlt : sizeOf object < sizeOf (Expr.call callee arguments) := by
          have hobject := sizeOf_namedMember h
          have hinvoked := invoked.2
          simp only [Expr.call.sizeOf_spec]
          omega
        if name = "bind" then .weaken hlt.le (invokedWithin lost object)
        else ⟨.call callee arguments, le_rfl⟩
      | none => ⟨.call callee arguments, le_rfl⟩
  | e =>
    match harm : selectedArm e with
    | some arm =>
      have hlt := sizeOf_selectedArm harm
      .weaken hlt.le (invokedWithin true arm)
    | none =>
      match hmember : namedMember e with
      | some (name, object) =>
        have hobject := sizeOf_namedMember hmember
        if (name = "call" ∨ name = "apply") ∧ lost = false then
          .weaken hobject.le (invokedWithin lost object)
        else
          match hvalue : literalValue object name with
          | some value =>
            have hlt := (sizeOf_literalValue hvalue).trans hobject
            .weaken hlt.le (invokedWithin lost value)
          | none => ⟨e, le_rfl⟩
      | none => ⟨e, le_rfl⟩
termination_by sizeOf e
decreasing_by
  all_goals first
    | assumption
    | (simp only [Expr.paren.sizeOf_spec, Expr.sequence.sizeOf_spec, Expr.call.sizeOf_spec]; omega)

/-- What the loop comes to. -/
def invokedFrom (lost : Bool) (e : Expr) : Expr := (invokedWithin lost e).1

/-- `invoked_callee`: the expression a call invokes. -/
def invokedCallee (e : Expr) : Expr := invokedFrom false e

/-- `bind_member`: what the `bind` that a callee resolves to is taken of. -/
def bindMember (callee : Expr) : Option Expr :=
  if referenceDiscarded callee then none
  else
    match namedMember (invokedCallee callee) with
    | some (name, object) => if name = "bind" then some object else none
    | none => none

theorem sizeOf_bindMember {callee object : Expr} (h : bindMember callee = some object) :
    sizeOf object < sizeOf callee := by
  unfold bindMember at h
  have hle : sizeOf (invokedCallee callee) ≤ sizeOf callee := (invokedWithin false callee).2
  split at h
  · cases h
  · split at h
    · next name object' hmember =>
      have hlt := sizeOf_namedMember hmember
      split at h
      · cases h
        omega
      · cases h
    · cases h

theorem invokedFrom_paren (lost : Bool) (e : Expr) :
    invokedFrom lost (.paren e) = invokedFrom lost e := by
  simp only [invokedFrom, invokedWithin, Within.weaken]

theorem invokedFrom_sequence (lost : Bool) (first : List Expr) (last : Expr) :
    invokedFrom lost (.sequence first last) = invokedFrom true last := by
  simp only [invokedFrom, invokedWithin, Within.weaken]

theorem invokedFrom_call (lost : Bool) (callee : Expr) (arguments : List (Argument Expr)) :
    invokedFrom lost (.call callee arguments) =
      match bindMember callee with
      | some object => invokedFrom lost object
      | none => .call callee arguments := by
  conv_lhs => rw [invokedFrom, invokedWithin]
  rw [bindMember]
  split
  · rfl
  · dsimp only
    split
    · next name object h =>
      have h' : namedMember (invokedCallee callee) = some (name, object) := h
      rw [h']
      dsimp only
      split <;> rfl
    · next h =>
      have h' : namedMember (invokedCallee callee) = none := h
      rw [h']

theorem invokedFrom_arm {e arm : Expr} (lost : Bool) (h : selectedArm e = some arm) :
    invokedFrom lost e = invokedFrom true arm := by
  unfold invokedFrom
  rw [invokedWithin.eq_def]
  split
  · cases h
  · cases h
  · cases h
  · split
    · next arm' h' =>
      obtain rfl := Option.some.inj (h'.symm.trans h)
      rfl
    · next h' => exact nomatch h'.symm.trans h

theorem invokedFrom_member {e object : Expr} {name : String} (lost : Bool)
    (h : namedMember e = some (name, object)) :
    invokedFrom lost e =
      if (name = "call" ∨ name = "apply") ∧ lost = false then invokedFrom lost object
      else
        match literalValue object name with
        | some value => invokedFrom lost value
        | none => e := by
  have harm := selectedArm_of_namedMember h
  unfold invokedFrom
  rw [invokedWithin.eq_def]
  split
  · cases h
  · cases h
  · cases h
  · split
    · next h' => exact nomatch h'.symm.trans harm
    · split
      · next name' object' h' =>
        obtain ⟨rfl, rfl⟩ := Prod.mk.inj (Option.some.inj (h'.symm.trans h))
        split
        · rfl
        · split
          · next hvalue => simp only [hvalue]; rfl
          · next hvalue => simp only [hvalue]
      · next h' => exact nomatch h'.symm.trans h

/-- Where nothing is seen through, the loop stops. -/
theorem invokedFrom_stuck {e : Expr} (lost : Bool) (hparen : ∀ inner, e ≠ .paren inner)
    (hsequence : ∀ first last, e ≠ .sequence first last)
    (hcall : ∀ callee arguments, e ≠ .call callee arguments) (harm : selectedArm e = none)
    (hmember : namedMember e = none) : invokedFrom lost e = e := by
  unfold invokedFrom
  rw [invokedWithin.eq_def]
  split
  · next inner => exact absurd rfl (hparen inner)
  · next first last => exact absurd rfl (hsequence first last)
  · next callee arguments => exact absurd rfl (hcall callee arguments)
  · split
    · next h => exact nomatch h.symm.trans harm
    · split
      · next h => exact nomatch h.symm.trans hmember
      · rfl

theorem bindMember_paren (e : Expr) : bindMember (.paren e) = bindMember e := by
  unfold bindMember
  rw [referenceDiscarded, invokedCallee, invokedCallee, invokedFrom_paren]

/-! ### The arguments -/

/-- A reference to an expression: where it is written, and what it is. -/
abbrev Node := ℕ × Expr

/-- What is known of the arguments: a slot for each position, empty for an elision, and whether
these are all. -/
abbrev Slots := List (Option Node) × Bool

/-- `mapped`: the arguments up to the first spread. -/
def mapped : List (Argument Expr) → Slots
  | [] => ([], true)
  | .spread _ _ :: _ => ([], false)
  | .expression position e :: rest => (some (position, e) :: (mapped rest).1, (mapped rest).2)

/-- The elements of an array literal up to the first spread. -/
def mappedElements : List (ArrayElement Expr) → Slots
  | [] => ([], true)
  | .spread _ _ :: _ => ([], false)
  | .expression position e :: rest =>
    (some (position, e) :: (mappedElements rest).1, (mappedElements rest).2)
  | .elision :: rest => (none :: (mappedElements rest).1, (mappedElements rest).2)

/-- `append`: nothing is appended after a stop. -/
def append (slots trailing : Slots) : Slots :=
  if slots.2 then (slots.1 ++ trailing.1, trailing.2) else (slots.1, false)

def startsWithSpread : List (Argument Expr) → Bool
  | .spread _ _ :: _ => true
  | _ => false

def Argument.asExpression {ε : Type} : Argument ε → Option ε
  | .expression _ e => some e
  | .spread _ _ => none

/-- `call` and `apply`, whose first argument is the receiver. -/
def isWrapper (name : String) : Bool := name = "call" || name = "apply"

/-- The elements of the list that `apply` is given, where they can be read. -/
def applyElements (arguments : List (Argument Expr)) : Option (List (ArrayElement Expr)) :=
  match arguments[1]?.bind Argument.asExpression with
  | none => some []
  | some list =>
    if certainlyNullish list then some []
    else
      match peel list with
      | .array elements => some elements
      | _ => none

/-- `arguments_then`: the arguments of a call, and what lands after them. -/
def argumentsThen (callee : Expr) (arguments : List (Argument Expr)) (trailing : Slots) : Slots :=
  match callee with
  | .paren e => argumentsThen e arguments trailing
  | .sequence _ last => argumentsThen last arguments trailing
  | .call callee bound =>
    match h : bindMember callee with
    | none => ([], false)
    | some receiver =>
      have hlt : sizeOf receiver < sizeOf (Expr.call callee bound) := by
        have hobject := sizeOf_bindMember h
        simp only [Expr.call.sizeOf_spec]
        omega
      if startsWithSpread bound then ([], false)
      else
        let tail := append (mapped (bound.drop 1)) (append (mapped arguments) trailing)
        match namedMember (peel receiver) with
        | some (name, _) =>
          if isWrapper name then ([], false) else argumentsThen receiver [] tail
        | none => argumentsThen receiver [] tail
  | e =>
    match namedMember e with
    | some (name, _) =>
      if isWrapper name && startsWithSpread arguments then ([], false)
      else if name = "call" then append (mapped (arguments.drop 1)) trailing
      else if name = "apply" then
        match applyElements arguments with
        | some elements => append (mappedElements elements) trailing
        | none => ([], false)
      else append (mapped arguments) trailing
    | none => append (mapped arguments) trailing
termination_by sizeOf callee
decreasing_by
  all_goals first
    | assumption
    | (simp only [Expr.paren.sizeOf_spec, Expr.sequence.sizeOf_spec]; omega)

/-- `effective_arguments`: what reaches the parameters of the invoked function. -/
def effectiveArguments (callee : Expr) (arguments : List (Argument Expr)) : Slots :=
  argumentsThen callee arguments ([], true)

end Whatspec.Scan.Callees

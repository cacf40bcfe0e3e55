import Mathlib.Algebra.Order.Ring.Int
import Whatspec.Codegen.Naming

/-!
# Guards of generated response parsers

An alternative of a response is told from the others by assertions: the tag of the node, pinned
attributes and contents, children that must be there.  The generator turns them into conditions
on the node, and asks of two sets of pins whether one node can satisfy both.

* `NodeReader` are the reading functions of the node library, whatever nodes are;
* `assertionConditions` are the conditions, `variantPins` the pins among the assertions;
* `not_both_hold`: where the pins cannot coincide, neither can the conditions hold together.
-/

namespace Whatspec.Codegen

/-- How nodes are read. -/
structure NodeReader (ν : Type) where
  tag : ν → String
  getAttr : ν → String → Option String
  contentStr : ν → Option String
  contentBytes : ν → Option (List UInt8)
  childrenByTag : ν → String → List ν
  optionalChild : ν → String → Option ν

inductive AssertionKind where
  | tag
  | attr
  | fromServer
  | content
  | child
  | reference
  deriving DecidableEq

/-- The name a kind is printed by. -/
def AssertionKind.debug : AssertionKind → String
  | .tag => "Tag"
  | .attr => "Attr"
  | .fromServer => "FromServer"
  | .content => "Content"
  | .child => "Child"
  | .reference => "Reference"

structure ResponseAssertion where
  kind : AssertionKind
  name : Option String
  value : Option String
  referencePath : Option (List String)
  deriving DecidableEq

/-- One accepted shape of an error. -/
structure ErrorArm where
  name : Option String
  code : Option ℤ
  text : Option String
  codeMin : Option ℤ
  codeMax : Option ℤ
  deriving DecidableEq

/-- A condition of the generated code. -/
inductive Condition where
  | tagIs (tag : String)
  | attrIs (name value : String)
  | hasAttr (name : String)
  | contentIs (value : String)
  | oneChild (tag : String)
  | hasChild (tag : String)
  | errorSelection (arms : List ErrorArm)
  deriving DecidableEq

/-! ### Error codes -/

/-- The characters a decoder of error codes passes over. -/
def isErrorCodeSpace (c : Char) : Bool :=
  (0x9 ≤ c.toNat && c.toNat ≤ 0xd) || c = ' ' || c.toNat = 0xa0 || c.toNat = 0x1680 ||
    (0x2000 ≤ c.toNat && c.toNat ≤ 0x200a) || c.toNat = 0x2028 || c.toNat = 0x2029 ||
    c.toNat = 0x202f || c.toNat = 0x205f || c.toNat = 0x3000 || c.toNat = 0xfeff

/-- The number that decimal digits spell. -/
def ofDigits (digits : List Char) : ℕ := digits.foldl (fun n c => 10 * n + (c.toNat - 48)) 0

/-- The decoder `__iq_error_code`: what follows the digits is not looked at. -/
def iqErrorCode (value : String) : Option ℤ :=
  let cs := value.toList.dropWhile isErrorCodeSpace
  let (negative, rest) := match cs with
    | '+' :: rest => (false, rest)
    | '-' :: rest => (true, rest)
    | rest => (false, rest)
  let digits := rest.takeWhile isAsciiDigit
  if digits.isEmpty then none
  else
    let code : ℤ := if negative then -(ofDigits digits) else ofDigits digits
    if -2 ^ 63 ≤ code ∧ code < 2 ^ 63 then some code else none

section Conditions

variable {ν : Type} (nodes : NodeReader ν)

/-- A condition on the code and the text of an error node. -/
def ErrorArm.holds (arm : ErrorArm) (error : ν) (code : ℤ) : Bool :=
  (arm.code.all fun c => code = c) && (arm.codeMin.all fun least => least ≤ code) &&
    (arm.codeMax.all fun most => code ≤ most) &&
    arm.text.all fun text => nodes.getAttr error "text" = some text

def Condition.holds (node : ν) : Condition → Bool
  | .tagIs tag => nodes.tag node = tag
  | .attrIs name value => nodes.getAttr node name = some value
  | .hasAttr name => (nodes.getAttr node name).isSome
  | .contentIs value => nodes.contentStr node = some value
  | .oneChild tag =>
    (nodes.contentBytes node).isNone && (nodes.childrenByTag node tag).length = 1
  | .hasChild tag => (nodes.optionalChild node tag).isSome
  | .errorSelection arms =>
    nodes.getAttr node "type" = some "error" && (nodes.contentBytes node).isNone &&
      (nodes.childrenByTag node "error").length = 1 &&
      (nodes.optionalChild node "error").any fun error =>
        (nodes.getAttr error "text").isSome &&
          ((nodes.getAttr error "code").bind iqErrorCode).any fun code =>
            arms.any fun arm => arm.holds nodes error code

end Conditions

/-! ### Assertions -/

/-- The condition of an assertion.  A reference is checked elsewhere. -/
def ResponseAssertion.condition (a : ResponseAssertion) : Except String (Option Condition) :=
  let incomplete := "guards.assertion_incomplete: " ++ a.kind.debug
  match a.kind with
  | .tag =>
    match a.name with
    | some tag => .ok (some (.tagIs tag))
    | none => .error incomplete
  | .attr =>
    match a.name, a.value with
    | some name, some value => .ok (some (.attrIs name value))
    | some name, none => .ok (some (.hasAttr name))
    | none, _ => .error incomplete
  | .content =>
    match a.value with
    | some value => .ok (some (.contentIs value))
    | none => .error incomplete
  | .child =>
    match a.name with
    | some tag => .ok (some (.oneChild tag))
    | none => .error incomplete
  | .reference => .ok none
  | .fromServer =>
    .error "guards.from_server_unrecovered: server predicate has no recovered value"

/-- The conditions of assertions, in order. -/
def assertionConditions : List ResponseAssertion → Except String (List Condition)
  | [] => .ok []
  | a :: assertions => do
    let condition ← a.condition
    let conditions ← assertionConditions assertions
    .ok (condition.toList ++ conditions)

/-- A value that a node must have. -/
inductive Pin where
  | attr (name value : String)
  | content (value : String)
  | tag (tag : String)
  deriving DecidableEq

def ResponseAssertion.pin (a : ResponseAssertion) : Option Pin :=
  match a.kind with
  | .attr =>
    match a.name, a.value with
    | some name, some value => some (.attr name value)
    | _, _ => none
  | .content => a.value.map .content
  | .tag => a.name.map .tag
  | _ => none

def variantPins (assertions : List ResponseAssertion) : List Pin :=
  assertions.filterMap ResponseAssertion.pin

/-- Two pins that no node satisfies both of. -/
def Pin.excludes : Pin → Pin → Bool
  | .attr name value, .attr name' value' => name = name' && value ≠ value'
  | .content value, .content value' => value ≠ value'
  | .tag t, .tag t' => t ≠ t'
  | _, _ => false

def pinsCanCoincide (mine other : List Pin) : Bool :=
  !mine.any fun m => other.any fun o => m.excludes o

/-! ### What the pins say of the conditions -/

/-- The condition of a pin. -/
def Pin.condition : Pin → Condition
  | .attr name value => .attrIs name value
  | .content value => .contentIs value
  | .tag t => .tagIs t

theorem ResponseAssertion.condition_of_pin {a : ResponseAssertion} {p : Pin} (h : a.pin = some p) :
    a.condition = .ok (some p.condition) := by
  obtain ⟨kind, name, value, referencePath⟩ := a
  cases kind with
  | attr =>
    cases name <;> cases value <;> simp only [pin, Option.some.injEq, reduceCtorEq] at h
    subst h
    rfl
  | content =>
    obtain ⟨v, rfl, rfl⟩ := Option.map_eq_some_iff.mp h
    rfl
  | tag =>
    obtain ⟨t, rfl, rfl⟩ := Option.map_eq_some_iff.mp h
    rfl
  | _ => cases h

/-- Every pin is among the conditions. -/
theorem condition_mem_of_pin {assertions : List ResponseAssertion} {conditions : List Condition}
    (h : assertionConditions assertions = .ok conditions) {p : Pin}
    (hp : p ∈ variantPins assertions) : p.condition ∈ conditions := by
  induction assertions generalizing conditions with
  | nil => cases hp
  | cons a assertions ih =>
    rw [assertionConditions] at h
    cases ha : a.condition with
    | error e =>
      rw [ha] at h
      cases h
    | ok condition =>
      cases hrest : assertionConditions assertions with
      | error e =>
        rw [ha, hrest] at h
        cases h
      | ok rest =>
        rw [ha, hrest] at h
        obtain rfl := Except.ok.inj h
        obtain ⟨b, hb, hpin⟩ := List.mem_filterMap.mp hp
        rcases List.mem_cons.mp hb with rfl | hb
        · rw [ResponseAssertion.condition_of_pin hpin] at ha
          obtain rfl := Except.ok.inj ha
          exact List.mem_append_left _ List.mem_cons_self
        · exact List.mem_append_right _ (ih hrest (List.mem_filterMap.mpr ⟨b, hb, hpin⟩))

section Exclusion

variable {ν : Type} {nodes : NodeReader ν}

theorem Pin.not_both_hold {p q : Pin} (h : p.excludes q = true) {node : ν}
    (hp : p.condition.holds nodes node = true) : q.condition.holds nodes node = false := by
  cases p with
  | attr name value =>
    cases q with
    | attr name' value' =>
      simp only [excludes, Bool.and_eq_true, decide_eq_true_eq] at h
      obtain ⟨rfl, hne⟩ := h
      simp only [condition, Condition.holds, decide_eq_true_eq] at hp ⊢
      rw [hp, decide_eq_false_iff_not]
      exact fun heq => hne (Option.some.inj heq)
    | _ => cases h
  | content value =>
    cases q with
    | content value' =>
      simp only [excludes, decide_eq_true_eq] at h
      simp only [condition, Condition.holds, decide_eq_true_eq] at hp ⊢
      rw [hp, decide_eq_false_iff_not]
      exact fun heq => h (Option.some.inj heq)
    | _ => cases h
  | tag t =>
    cases q with
    | tag t' =>
      simp only [excludes, decide_eq_true_eq] at h
      simp only [condition, Condition.holds, decide_eq_true_eq] at hp ⊢
      rw [hp, decide_eq_false_iff_not]
      exact h
    | _ => cases h

/-- **Pins that cannot coincide keep their conditions apart.** -/
theorem not_both_hold {assertions assertions' : List ResponseAssertion}
    {conditions conditions' : List Condition}
    (h : assertionConditions assertions = .ok conditions)
    (h' : assertionConditions assertions' = .ok conditions')
    (hpins : pinsCanCoincide (variantPins assertions) (variantPins assertions') = false) {node : ν}
    (hnode : ∀ c ∈ conditions, c.holds nodes node = true) :
    ∃ c ∈ conditions', c.holds nodes node = false := by
  rw [pinsCanCoincide, Bool.not_eq_false', List.any_eq_true] at hpins
  obtain ⟨p, hp, hany⟩ := hpins
  obtain ⟨q, hq, hexcludes⟩ := List.any_eq_true.mp hany
  exact ⟨q.condition, condition_mem_of_pin h' hq,
    Pin.not_both_hold hexcludes (hnode _ (condition_mem_of_pin h hp))⟩

end Exclusion

end Whatspec.Codegen

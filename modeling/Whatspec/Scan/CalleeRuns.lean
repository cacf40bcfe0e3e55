import Whatspec.Scan.Callees

/-!
# How JavaScript calls a function

What an expression evaluates to, as far as it leads to the functions that a callee writes: these, with
arguments bound to them, and the methods `call`, `apply` and `bind` that are taken of them.  All else
is a value from elsewhere, and so is what an argument evaluates to: it is no function of the callee.
An execution chooses the values from elsewhere freely, and how many values a spread gives.

* `Eval` and `Get` are the values of expressions and properties, `Refers` a callee with its receiver;
* `Enters` is a call that reaches a function of the callee, with what it receives;
* `CallEnters` is the execution of a call expression.
-/

namespace Whatspec.Scan.Callees

/-- Where a value that a function receives comes from: an argument or element by itself, an elision,
a spread, or the list that `apply` is given. -/
inductive Source where
  | of (position : ℕ) (e : Expr)
  | absent
  | spreadOf (position : ℕ) (index : ℕ)
  | itemOf (list : Source) (index : ℕ)

/-- The methods of a function. -/
inductive Method where
  | call
  | apply
  | bind
  deriving DecidableEq

def Method.named : String → Option Method
  | "call" => some .call
  | "apply" => some .apply
  | "bind" => some .bind
  | _ => none

inductive Value where
  | undefined
  | null
  | boolean (value : Bool)
  | number (isZero : Bool)
  | bigint (isZero : Bool)
  | string (value : String)
  | function (id : ℕ)
  /-- A bound function.  What it is bound to as its receiver is an argument, hence from elsewhere. -/
  | bound (target : Value) (arguments : List Source)
  | method (m : Method)
  | object (properties : List (ObjectEntry Expr))
  | array (elements : List (ArrayElement Expr))
  | foreign

/-- Whether a value is true; a value from elsewhere may be either. -/
def Value.truthy : Value → Option Bool
  | .undefined | .null => some false
  | .boolean value => some value
  | .number isZero | .bigint isZero => some !isZero
  | .string value => some (value != "")
  | .function _ | .bound .. | .method _ | .object _ | .array _ => some true
  | .foreign => none

def Value.nullish : Value → Option Bool
  | .undefined | .null => some true
  | .foreign => none
  | _ => some false

/-- Whether the right side is evaluated after the left one. -/
def LogicalOperator.goesOn (operator : LogicalOperator) (left : Value) : Option Bool :=
  match operator with
  | .and => left.truthy
  | .or => left.truthy.map not
  | .coalesce => left.nullish

def Value.isFunction : Value → Bool
  | .function _ | .bound .. | .method _ => true
  | _ => false

/-- A value that `apply` can take a list from, other than an array literal. -/
def Value.mayList : Value → Bool
  | .function _ | .bound .. | .method _ | .object _ | .foreign => true
  | _ => false

theorem Value.mayList_of_nullish {v : Value} (h : v.nullish = some true) : v.mayList = false := by
  cases v with
  | undefined => rfl
  | null => rfl
  | _ => cases h

/-- A key names one property; which one, only a string tells here. -/
def Value.names (key : Value) (name : String) : Prop := ∀ text, key = .string text → text = name

/-- What the elements of a list give. -/
inductive Lists : List (ArrayElement Expr) → List Source → Prop where
  | nil : Lists [] []
  | expression (position : ℕ) (e : Expr) {rest : List (ArrayElement Expr)} {items : List Source} :
      Lists rest items → Lists (.expression position e :: rest) (.of position e :: items)
  | elision {rest : List (ArrayElement Expr)} {items : List Source} :
      Lists rest items → Lists (.elision :: rest) (.absent :: items)
  | spread (position : ℕ) (e : Expr) (count : ℕ) {rest : List (ArrayElement Expr)}
      {items : List Source} : Lists rest items →
      Lists (.spread position e :: rest) ((List.range count).map (.spreadOf position) ++ items)

def Argument.toElement : Argument Expr → ArrayElement Expr
  | .expression position e => .expression position e
  | .spread position e => .spread position e

/-- What the arguments of a call give. -/
def Passes (arguments : List (Argument Expr)) (items : List Source) : Prop :=
  Lists (arguments.map Argument.toElement) items

/-- A value that the literal may end up with for a name: nothing after it certainly writes the
name. -/
def Owns (properties : List (ObjectEntry Expr)) (name : String) (value : Expr) : Prop :=
  ∃ before after key computed method shorthand,
    properties = before ++ .property key computed method shorthand .init value :: after ∧
      (definesName name (.property key computed method shorthand .init value) ∨
        (computed = true ∧ key = none)) ∧
      ∀ p ∈ after, definesName name p = false

/-- A callee that keeps no receiver. -/
def Expr.isReference : Expr → Bool
  | .paren e => e.isReference
  | .staticMember .. | .computedMember .. => true
  | _ => false

mutual

/-- The value of an expression. -/
inductive Eval : Expr → Value → Prop where
  | null : Eval .null .null
  | boolean (value : Bool) : Eval (.boolean value) (.boolean value)
  | number (isZero : Bool) : Eval (.number isZero) (.number isZero)
  | bigint (digits : String) :
      Eval (.bigint digits) (.bigint (digits.toList.all (· == '0')))
  | string (value : String) : Eval (.string value) (.string value)
  | template (text : String) : Eval (.template (some text)) (.string text)
  | substituted (text : String) : Eval (.template none) (.string text)
  | paren {e : Expr} {v : Value} : Eval e v → Eval (.paren e) v
  | sequence {first : List Expr} {last : Expr} {v : Value} :
      Eval last v → Eval (.sequence first last) v
  | consequent {test consequent alternate : Expr} {t v : Value} : Eval test t →
      t.truthy ≠ some false → Eval consequent v → Eval (.conditional test consequent alternate) v
  | alternate {test consequent alternate : Expr} {t v : Value} : Eval test t →
      t.truthy ≠ some true → Eval alternate v → Eval (.conditional test consequent alternate) v
  | logicalLeft {operator : LogicalOperator} {left right : Expr} {l : Value} : Eval left l →
      operator.goesOn l ≠ some true → Eval (.logical operator left right) l
  | logicalRight {operator : LogicalOperator} {left right : Expr} {l v : Value} : Eval left l →
      operator.goesOn l ≠ some false → Eval right v → Eval (.logical operator left right) v
  | logicalNot {e : Expr} {v : Value} {value : Bool} : Eval e v → v.truthy ≠ some value →
      Eval (.unary .logicalNot e) (.boolean value)
  | void (e : Expr) : Eval (.unary .void e) .undefined
  | unary (e : Expr) : Eval (.unary .other e) .foreign
  | bound {callee : Expr} {arguments : List (Argument Expr)} {this : Value} {items : List Source} :
      Refers callee this (.method .bind) → this.isFunction = true → Passes arguments items →
      Eval (.call callee arguments) (.bound this items.tail)
  | call (callee : Expr) (arguments : List (Argument Expr)) :
      Eval (.call callee arguments) .foreign
  | staticMember {object : Expr} {property : String} {o v : Value} : Eval object o →
      Get o property v → Eval (.staticMember object property) v
  | computedMember {object key : Expr} {o k v : Value} {name : String} : Eval object o →
      Eval key k → k.names name → Get o name v → Eval (.computedMember object key) v
  | object (properties : List (ObjectEntry Expr)) : Eval (.object properties) (.object properties)
  | array (elements : List (ArrayElement Expr)) : Eval (.array elements) (.array elements)
  | function (id : ℕ) : Eval (.function id) (.function id)
  | other (id : ℕ) : Eval (.other id) .foreign

/-- The value of a property. -/
inductive Get : Value → String → Value → Prop where
  | method {v : Value} {name : String} {m : Method} : v.isFunction = true →
      Method.named name = some m → Get v name (.method m)
  | own {properties : List (ObjectEntry Expr)} {name : String} {value : Expr} {v : Value} :
      Owns properties name value → Eval value v → Get (.object properties) name v
  | elsewhere (v : Value) (name : String) : Get v name .foreign

/-- A callee, with the receiver it is called on. -/
inductive Refers : Expr → Value → Value → Prop where
  | paren {e : Expr} {this v : Value} : Refers e this v → Refers (.paren e) this v
  | staticMember {object : Expr} {property : String} {o v : Value} : Eval object o →
      Get o property v → Refers (.staticMember object property) o v
  | computedMember {object key : Expr} {o k v : Value} {name : String} : Eval object o →
      Eval key k → k.names name → Get o name v → Refers (.computedMember object key) o v
  | value {e : Expr} {v : Value} : e.isReference = false → Eval e v → Refers e .undefined v

end

/-- The list that `apply` takes from its second argument. -/
inductive Spreads : List Source → List Source → Prop where
  | missing {items : List Source} : items[1]? = none → Spreads items []
  | nullish {items : List Source} {position : ℕ} {e : Expr} {v : Value} :
      items[1]? = some (.of position e) → Eval e v → v.nullish = some true → Spreads items []
  | array {items contents : List Source} {position : ℕ} {e : Expr}
      {elements : List (ArrayElement Expr)} : items[1]? = some (.of position e) →
      Eval e (.array elements) → Lists elements contents → Spreads items contents
  /-- Anything else that may be a list, of any length. -/
  | elsewhere {items : List Source} {list : Source} (count : ℕ) : items[1]? = some list →
      (∀ position e, list = .of position e → ∃ v, Eval e v ∧ v.mayList = true) →
      Spreads items ((List.range count).map (.itemOf list))

/-- A call of a value on a receiver enters a function of the callee, which receives a list. -/
inductive Enters : Value → Value → List Source → ℕ → List Source → Prop where
  | function (this : Value) (f : ℕ) (items : List Source) : Enters this (.function f) items f items
  | bound {this target : Value} {arguments items received : List Source} {f : ℕ} :
      Enters .foreign target (arguments ++ items) f received →
      Enters this (.bound target arguments) items f received
  | call {this : Value} {items received : List Source} {f : ℕ} : this.isFunction = true →
      Enters .foreign this items.tail f received → Enters this (.method .call) items f received
  | apply {this : Value} {items contents received : List Source} {f : ℕ} :
      this.isFunction = true → Spreads items contents → Enters .foreign this contents f received →
      Enters this (.method .apply) items f received

/-- An execution of a call enters a function that the callee writes. -/
def CallEnters (callee : Expr) (arguments : List (Argument Expr)) (f : ℕ)
    (received : List Source) : Prop :=
  ∃ this v items, Refers callee this v ∧ Passes arguments items ∧ Enters this v items f received

/-- What a slot stands for. -/
def slotSource : Option Node → Source
  | some (position, e) => .of position e
  | none => .absent

/-- The slots are the arguments that were received, up to where they stop. -/
def Maps (slots : Slots) (received : List Source) : Prop :=
  slots.1.map slotSource <+: received ∧ (slots.2 = true → slots.1.map slotSource = received)

end Whatspec.Scan.Callees

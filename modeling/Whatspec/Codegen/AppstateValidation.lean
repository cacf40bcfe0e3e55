import Whatspec.Appstate.LowerFunction

/-!
# The native code of validators

A program of the server-sync boundary is emitted as a native function: straight control flow over
the native data view, with `?` after what may fail and `return` in the middle of bodies.

* `RustExpr` and `RustStmt` are the emitted code, `expr` and `statements` emit it;
* `RustExpr.run` and `runRust` say what the emitted code does;
* `RustExpr.typed` and `sealed` are the rule of the language that a body must have a value: a
  body that can run off its end does not compile.
-/

namespace Whatspec.Appstate

open Whatspec.Library Whatspec.Library.Comp

/-! ### Emitted code -/

/-- A name that is never assigned to. -/
inductive RustName where
  | parameter (index : ℕ)
  | item
  | left
  | right
  deriving DecidableEq

mutual

inductive RustExpr where
  | name (n : RustName)
  | slot (index : ℕ)
  | undefined
  | null
  | number (value : ℤ)
  | text (value : String)
  | field (receiver : RustExpr) (field : String)
  | not (value : RustExpr)
  | nullish (value : RustExpr) (negate : Bool)
  | letIn (n : RustName) (value body : RustExpr)
  | ifTruthy (condition yes no : RustExpr)
  | greater (a b : RustName)
  | assign (slot : ℕ) (value : RustExpr)
  | sequence (values : List RustExpr)
  | object (fields : List (String × RustExpr))
  | validate (validator : String) (arguments : List RustExpr)
  | map (input : RustExpr) (slots : List ℕ) (body : List RustStmt)
  | transform (transform : ValidationTransform) (argument : RustExpr)

inductive RustStmt where
  | assign (slot : ℕ) (value : RustExpr)
  | discard (value : RustExpr)
  | ifElse (condition : RustExpr) (yes no : List RustStmt)
  | returnFatal (metric : RustExpr) (message : String)
  | returnOk (value : RustExpr)

end

structure RustFunction where
  parameters : ℕ
  slots : List ℕ
  body : List RustStmt

mutual

/-- The code of an expression.  The item of a callback is argument 3. -/
def ValidationExpression.rust : ValidationExpression → Except String RustExpr
  | .argument index => .ok (.name (if index = 3 then .item else .parameter index))
  | .slot index => .ok (.slot index)
  | .undefined => .ok .undefined
  | .null => .ok .null
  | .integer value => .ok (.number value)
  | .string value => .ok (.text value)
  | .metric name => .ok (.text name)
  | .field object field => do
    let receiver ← object.rust
    .ok (.field receiver field)
  | .not value => do
    let value ← value.rust
    .ok (.not value)
  | .nullish value negate => do
    let value ← value.rust
    .ok (.nullish value negate)
  | .and left right => do
    let left ← left.rust
    let right ← right.rust
    .ok (.letIn .left left (.ifTruthy (.name .left) right (.name .left)))
  | .or left right => do
    let left ← left.rust
    let right ← right.rust
    .ok (.letIn .left left (.ifTruthy (.name .left) (.name .left) right))
  | .greater left right => do
    let left ← left.rust
    let right ← right.rust
    .ok (.letIn .left left (.letIn .right right (.greater .left .right)))
  | .choose condition yes no => do
    let condition ← condition.rust
    let yes ← yes.rust
    let no ← no.rust
    .ok (.ifTruthy condition yes no)
  | .assign slot value => do
    let value ← value.rust
    .ok (.assign slot value)
  | .sequence values => do
    let values ← rustAll values
    .ok (.sequence values)
  | .object fields => do
    let fields ← rustFields fields
    .ok (.object fields)
  | .validate validator arguments => do
    let arguments ← rustAll arguments
    .ok (.validate validator arguments)
  | .map input body => do
    let statements ← rustStatements body
    let input ← input.rust
    .ok (.map input (ownedSlots body) statements)
  | .transform transform arguments =>
    match arguments with
    | [argument] => do
      let argument ← argument.rust
      .ok (.transform transform argument)
    | _ => .error "transform arity"

def rustAll : List ValidationExpression → Except String (List RustExpr)
  | [] => .ok []
  | e :: es => do
    let e ← e.rust
    let es ← rustAll es
    .ok (e :: es)

def rustFields :
    List (String × ValidationExpression) → Except String (List (String × RustExpr))
  | [] => .ok []
  | (key, e) :: fields => do
    let e ← e.rust
    let fields ← rustFields fields
    .ok ((key, e) :: fields)

/-- The code of a statement.  A fatal error is reported without its context. -/
def ValidationStatement.rust : ValidationStatement → Except String RustStmt
  | .bind slot value => do
    let value ← value.rust
    .ok (.assign slot value)
  | .evaluate value => do
    let value ← value.rust
    .ok (.discard value)
  | .if condition yes no => do
    let condition ← condition.rust
    let yes ← rustStatements yes
    let no ← rustStatements no
    .ok (.ifElse condition yes no)
  | .fatal metric message => do
    let metric ← metric.rust
    .ok (.returnFatal metric message)
  | .return value => do
    let value ← value.rust
    .ok (.returnOk value)

def rustStatements : List ValidationStatement → Except String (List RustStmt)
  | [] => .ok []
  | s :: ss => do
    let s ← s.rust
    let ss ← rustStatements ss
    .ok (s :: ss)

end

/-- The code of a validator. -/
def generateValidator (f : ValidationFunction) : Except String RustFunction :=
  if f.parameters > 3 then .error "validator arity"
  else do
    let body ← rustStatements f.body
    .ok ⟨f.parameters, ownedSlots f.body, body⟩

/-! ### What compiles -/

/-- What a statement does to the control flow. -/
inductive Shape where
  | passes
  | leaves
  | branches (yes no : List Shape)

mutual

/-- The statement is never passed. -/
def Shape.diverges : Shape → Bool
  | .passes => false
  | .leaves => true
  | .branches yes no => anyDiverges yes && anyDiverges no

def anyDiverges : List Shape → Bool
  | [] => false
  | s :: ss => s.diverges || anyDiverges ss

end

mutual

/-- A body that ends in this statement has a value, when what comes before it is passed or, as
`before` says, is not.  A branching statement at the end is the value of the body, so that both
branches must have one. -/
def Shape.closes (before : Bool) : Shape → Bool
  | .passes => before
  | .leaves => true
  | .branches yes no => hasValue false yes && hasValue false no

/-- A body has a value of whatever type is asked for. -/
def hasValue : Bool → List Shape → Bool
  | before, [] => before
  | before, [s] => s.closes before
  | before, s :: next :: ss => hasValue (before || s.diverges) (next :: ss)

end

mutual

def RustStmt.shape : RustStmt → Shape
  | .assign _ _ => .passes
  | .discard _ => .passes
  | .ifElse _ yes no => .branches (rustShapes yes) (rustShapes no)
  | .returnFatal _ _ => .leaves
  | .returnOk _ => .leaves

def rustShapes : List RustStmt → List Shape
  | [] => []
  | s :: ss => s.shape :: rustShapes ss

end

mutual

/-- The bodies of all callbacks in an expression have a value, and so have its sequences. -/
def RustExpr.typed : RustExpr → Bool
  | .field receiver _ => receiver.typed
  | .not value => value.typed
  | .nullish value _ => value.typed
  | .letIn _ value body => value.typed && body.typed
  | .ifTruthy condition yes no => condition.typed && yes.typed && no.typed
  | .assign _ value => value.typed
  | .sequence values => !values.isEmpty && typedAll values
  | .object fields => typedFields fields
  | .validate _ arguments => typedAll arguments
  | .map input _ body => input.typed && hasValue false (rustShapes body) && typedStatements body
  | .transform _ argument => argument.typed
  | _ => true

def typedAll : List RustExpr → Bool
  | [] => true
  | e :: es => e.typed && typedAll es

def typedFields : List (String × RustExpr) → Bool
  | [] => true
  | (_, e) :: fields => e.typed && typedFields fields

def RustStmt.typed : RustStmt → Bool
  | .assign _ value => value.typed
  | .discard value => value.typed
  | .ifElse condition yes no => condition.typed && typedStatements yes && typedStatements no
  | .returnFatal metric _ => metric.typed
  | .returnOk value => value.typed

def typedStatements : List RustStmt → Bool
  | [] => true
  | s :: ss => s.typed && typedStatements ss

end

/-- The function compiles, as far as its bodies have values. -/
def RustFunction.compiles (f : RustFunction) : Bool :=
  hasValue false (rustShapes f.body) && typedStatements f.body

/-! ### What the code does -/

/-- How emitted code ends without a value. -/
inductive RustExit where
  | fatal (metric : Value) (message : String)
  | thrown (errorClass : String)
  | stuck

/-- The native error of an exit. -/
def Exit.rust : Exit → RustExit
  | .fatal metric _ message => .fatal metric message
  | .thrown errorClass => .thrown errorClass
  | .stuck => .stuck

/-- The exit that a native error stands for: a fatal error is reported with its collection. -/
def RustExit.exit (collection : Value) : RustExit → Exit
  | .fatal metric message => .fatal metric (.object [("collection", collection)]) message
  | .thrown errorClass => .thrown errorClass
  | .stuck => .stuck

abbrev Rust (α : Type) := Comp (Machine (ℕ → Value)) RustExit α

/-- Locals declared by `let mut` at the head of a body. -/
def withLets {α : Type} (slots : List ℕ) (x : Rust α) : Rust α := do
  let m ← Comp.get
  Comp.modify fun m => { m with memory := clearSlots slots m.memory }
  let a ← x
  Comp.modify fun m' => { m' with memory := restoreSlots slots m.memory m'.memory }
  pure a

/-- What a body returns.  One that runs off its end has nothing to return. -/
def Rust.returned : Option Value → Rust Value
  | some v => pure v
  | none => Comp.throw .stuck

mutual

def RustExpr.run (W : World) : RustExpr → (RustName → Value) → Rust Value
  | .name n, locals => pure (locals n)
  | .slot index, _ => do
    let m ← Comp.get
    pure (m.memory index)
  | .undefined, _ => pure .undefined
  | .null, _ => pure .null
  | .number value, _ => pure (.number (Binary64.ofInt value))
  | .text value, _ => pure (.text value)
  | .field receiver field, locals => do
    let v ← receiver.run W locals
    Comp.mapExit Exit.rust (Comp.ofExcept (v.field field))
  | .not value, locals => do
    let v ← value.run W locals
    pure (.bool !v.truthy)
  | .nullish value negate, locals => do
    let v ← value.run W locals
    pure (.bool (v.nullish != negate))
  | .letIn n value body, locals => do
    let v ← value.run W locals
    body.run W (Function.update locals n v)
  | .ifTruthy condition yes no, locals => do
    let v ← condition.run W locals
    if v.truthy then yes.run W locals else no.run W locals
  | .greater a b, locals => pure (.bool (W.greaterThan (locals a) (locals b)))
  | .assign slot value, locals => do
    let v ← value.run W locals
    Comp.modify fun m => { m with memory := Function.update m.memory slot v }
    pure v
  | .sequence values, locals => do
    let vs ← runRustAll W values locals
    Rust.returned vs.getLast?
  | .object fields, locals => do
    let vs ← runRustFields W fields locals
    pure (.object vs)
  | .validate validator arguments, locals => do
    let vs ← runRustAll W arguments locals
    Comp.mapExit Exit.rust (Run.call W (.validator validator) vs)
  | .map input slots body, locals => do
    let v ← input.run W locals
    let items ← Comp.mapExit Exit.rust (Comp.ofExcept v.items)
    let mapped ← Comp.traverse (fun item => withLets slots do
      let returned ← runRust W body (Function.update locals .item item)
      Rust.returned returned) items
    pure (.array mapped)
  | .transform transform argument, locals => do
    let v ← argument.run W locals
    Comp.mapExit Exit.rust (transform.call W [v])

def runRustAll (W : World) : List RustExpr → (RustName → Value) → Rust (List Value)
  | [], _ => pure []
  | e :: es, locals => do
    let v ← e.run W locals
    let vs ← runRustAll W es locals
    pure (v :: vs)

def runRustFields (W : World) :
    List (String × RustExpr) → (RustName → Value) → Rust (List (String × Value))
  | [], _ => pure []
  | (key, e) :: fields, locals => do
    let v ← e.run W locals
    let vs ← runRustFields W fields locals
    pure ((key, v) :: vs)

def RustStmt.run (W : World) : RustStmt → (RustName → Value) → Rust (Option Value)
  | .assign slot value, locals => do
    let v ← value.run W locals
    Comp.modify fun m => { m with memory := Function.update m.memory slot v }
    pure none
  | .discard value, locals => do
    let _ ← value.run W locals
    pure none
  | .ifElse condition yes no, locals => do
    let v ← condition.run W locals
    if v.truthy then runRust W yes locals else runRust W no locals
  | .returnFatal metric message, locals => do
    let v ← metric.run W locals
    Comp.throw (.fatal v message)
  | .returnOk value, locals => do
    let v ← value.run W locals
    pure (some v)

def runRust (W : World) : List RustStmt → (RustName → Value) → Rust (Option Value)
  | [], _ => pure none
  | s :: ss, locals => do
    let returned ← s.run W locals
    match returned with
    | some v => pure (some v)
    | none => runRust W ss locals

end

attribute [simp] ValidationExpression.rust rustAll rustFields ValidationStatement.rust
  rustStatements Shape.diverges anyDiverges Shape.closes hasValue RustStmt.shape rustShapes
  RustExpr.typed typedAll typedFields RustStmt.typed typedStatements RustExpr.run runRustAll
  runRustFields RustStmt.run runRust

/-- The parameters of a function. -/
def parameterLocals (arguments : ℕ → Value) : RustName → Value
  | .parameter index => arguments index
  | _ => .undefined

/-- A call of an emitted function. -/
def RustFunction.run (W : World) (f : RustFunction) (arguments : ℕ → Value) :
    Except RustExit Value × List Call :=
  let (result, m) := (withLets f.slots do
    let returned ← runRust W f.body (parameterLocals arguments)
    Rust.returned returned) ⟨fun _ => .undefined, []⟩
  (result, m.calls)

end Whatspec.Appstate

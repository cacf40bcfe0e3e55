import Whatspec.Appstate.Value

/-!
# The JavaScript of the validators

The syntax trees that the compiler of validators looks at, and what they mean.  A form that the
compiler never accepts is kept only so that it can be refused; running it is `stuck`.

* `Expr` and `Stmt` are the trees, with every distinction the compiler makes;
* `Expr.run` and `runStatements` are the language: one frame of variables for the method and one
  for each callback under way, `var` names hoisted, assignments to the innermost frame that has
  the name;
* `JsFunction.run` is a call of a method.
-/

namespace Whatspec.Appstate

open Whatspec.Library

inductive UnaryOperator where
  | void
  | logicalNot
  | other
  deriving DecidableEq

inductive LogicalOperator where
  | and
  | or
  | coalesce
  deriving DecidableEq

inductive BinaryOperator where
  | equality
  | inequality
  | greaterThan
  | other
  deriving DecidableEq

/-- A number of the source text, which has no sign. -/
structure NumericLiteral where
  value : Binary64.Word
  unsigned : Binary64.isNegative value = false

/-- A parameter: its name, when it is not a pattern, and whether it has a default. -/
structure Parameter where
  name : Option String
  hasInitializer : Bool
  deriving DecidableEq

/-- What a function expression says before its body. -/
structure FunctionHead where
  isAsync : Bool
  isGenerator : Bool
  isNamed : Bool
  hasRest : Bool
  parameters : List Parameter
  deriving DecidableEq

/-- What a property of an object literal says before its value. -/
structure PropertyHead where
  isSpread : Bool
  isComputed : Bool
  isMethod : Bool
  isInit : Bool
  key : Option String
  deriving DecidableEq

mutual

inductive Expr where
  | parenthesized (e : Expr)
  | identifier (name : String)
  | nullLiteral
  | numericLiteral (n : NumericLiteral)
  | stringLiteral (s : String)
  | unary (operator : UnaryOperator) (argument : Expr)
  | member (isComputed : Bool) (object : Expr) (property : String)
  | logical (operator : LogicalOperator) (left right : Expr)
  | binary (operator : BinaryOperator) (left right : Expr)
  | conditional (test consequent alternate : Expr)
  | assignment (isPlain : Bool) (target : Option String) (right : Expr)
  | sequence (expressions : List Expr)
  | object (properties : List (PropertyHead × Expr))
  | call (callee : Expr) (arguments : List Expr)
  | new (callee : Expr) (arguments : List Expr)
  | function (head : FunctionHead) (body : List Stmt)
  | spread (e : Expr)
  | other

inductive Stmt where
  | variableDeclaration (isVar : Bool) (declarations : List (Option String × Option Expr))
  | ifStatement (test : Expr) (consequent : Stmt) (alternate : Option Stmt)
  | blockStatement (body : List Stmt)
  | returnStatement (argument : Option Expr)
  | expressionStatement (e : Expr)
  | throwStatement (argument : Expr)
  | other

end

structure JsFunction where
  head : FunctionHead
  body : List Stmt

/-- The module a method stands in: its dependency loaders, and the class the method is on. -/
structure ModuleScope where
  loaders : List String
  receiver : String

/-! ### Names -/

mutual

/-- The names a statement declares, in source order.  Function bodies have names of their
own. -/
def Stmt.bindingNames : Stmt → List String
  | .variableDeclaration _ declarations => declarations.filterMap Prod.fst
  | .ifStatement _ consequent none => consequent.bindingNames
  | .ifStatement _ consequent (some alternate) =>
    consequent.bindingNames ++ alternate.bindingNames
  | .blockStatement body => bindingNames body
  | _ => []

def bindingNames : List Stmt → List String
  | [] => []
  | s :: ss => s.bindingNames ++ bindingNames ss

end

/-- The place of the last parameter of a name. -/
def lastIndex (x : String) : List (Option String) → Option ℕ
  | [] => none
  | p :: ps =>
    match lastIndex x ps with
    | some i => some (i + 1)
    | none => if p = some x then some 0 else none

/-! ### Runs -/

/-- The variables of one call. -/
abbrev Frame := String → Option Value

/-- The value of a name in the innermost frame that has it. -/
def lookupName (x : String) : List Frame → Option Value
  | [] => none
  | f :: fs =>
    match f x with
    | some v => some v
    | none => lookupName x fs

/-- Give a name a value in the innermost frame that has it. -/
def assignName (x : String) (v : Value) : List Frame → List Frame
  | [] => []
  | f :: fs =>
    if (f x).isSome then Function.update f x (some v) :: fs else f :: assignName x v fs

/-- The frame of a call: its parameters and its variables, still undefined. -/
def enterFrame (parameters : List (Option String)) (names : List String)
    (arguments : ℕ → Value) : Frame := fun x =>
  match lastIndex x parameters with
  | some i => some (arguments i)
  | none => if x ∈ names then some .undefined else none

abbrev Js (α : Type) := Run (List Frame) α

def Js.stuck {α : Type} : Js α := Comp.throw .stuck

def Js.lookup (x : String) : Js Value := do
  let m ← Comp.get
  match lookupName x m.memory with
  | some v => pure v
  | none => Js.stuck

def Js.assign (x : String) (v : Value) : Js Unit := do
  let m ← Comp.get
  match lookupName x m.memory with
  | some _ => Run.change (assignName x v)
  | none => Js.stuck

/-- Read a property: the value's own, or one a prototype gives it. -/
def Js.readMember (W : World) (v : Value) (name : String) : Js Value :=
  if v.nullish then Comp.throw (.thrown "TypeError")
  else pure ((v.own name).getD (W.inherited v name))

/-- The module that an expression loads.  A loader may be hidden by a variable of its name. -/
def loaded (scope : ModuleScope) (frames : List Frame) : Expr → Option String
  | .parenthesized e => loaded scope frames e
  | .call (.identifier f) [.stringLiteral name] =>
    if f ∈ scope.loaders ∧ lookupName f frames = none then some name else none
  | _ => none

/-- One module was renamed between snapshots. -/
def canonicalModule (name : String) : String :=
  if name = "WAWebSyncdKeyTypes" then "WASyncdKeyTypes" else name

/-- Run with a frame on top. -/
def withFrame {α : Type} (f : Frame) (x : Js α) : Js α := do
  Run.change (f :: ·)
  let a ← x
  Run.change List.tail
  pure a

/-- The arguments of a callback: the item, its place and the array. -/
def callbackArguments (items : List Value) (item : Value) (index : ℕ) : ℕ → Value
  | 0 => item
  | 1 => Value.ofLength index
  | 2 => .array items
  | _ => .undefined

def FunctionHead.names (head : FunctionHead) : List (Option String) :=
  head.parameters.map Parameter.name

/-- A function that does nothing but bind its parameters and run its body. -/
def FunctionHead.isPlain (head : FunctionHead) : Bool :=
  !head.isAsync && !head.isGenerator && !head.isNamed && !head.hasRest &&
    head.parameters.all fun p => p.name.isSome && !p.hasInitializer

mutual

def Expr.run (W : World) (scope : ModuleScope) : Expr → Js Value
  | .parenthesized e => e.run W scope
  | .identifier name => Js.lookup name
  | .nullLiteral => pure .null
  | .numericLiteral n => pure (.number n.value)
  | .stringLiteral s => pure (.text s)
  | .unary .void argument => do
    let _ ← argument.run W scope
    pure .undefined
  | .unary .logicalNot argument => do
    let v ← argument.run W scope
    pure (.bool !v.truthy)
  | .unary .other _ => Js.stuck
  | .member _ object property => do
    let m ← Comp.get
    match loaded scope m.memory object with
    | some name => pure (W.exported name property)
    | none =>
      let v ← object.run W scope
      Js.readMember W v property
  | .logical .and left right => do
    let v ← left.run W scope
    if v.truthy then right.run W scope else pure v
  | .logical .or left right => do
    let v ← left.run W scope
    if v.truthy then pure v else right.run W scope
  | .logical .coalesce left right => do
    let v ← left.run W scope
    if v.nullish then right.run W scope else pure v
  | .binary .equality left .nullLiteral => do
    let v ← left.run W scope
    pure (.bool v.nullish)
  | .binary .inequality left .nullLiteral => do
    let v ← left.run W scope
    pure (.bool !v.nullish)
  | .binary .greaterThan left right => do
    let v ← left.run W scope
    let w ← right.run W scope
    pure (.bool (W.greaterThan v w))
  | .binary _ _ _ => Js.stuck
  | .conditional test consequent alternate => do
    let v ← test.run W scope
    if v.truthy then consequent.run W scope else alternate.run W scope
  | .assignment true (some target) right => do
    let v ← right.run W scope
    Js.assign target v
    pure v
  | .assignment _ _ _ => Js.stuck
  | .sequence expressions => do
    let vs ← runAll W scope expressions
    pure (vs.getLastD .undefined)
  | .object properties => do
    let vs ← runProperties W scope properties
    pure (.object vs)
  -- The one function expression that runs is the callback of a map over an ordinary array; a
  -- typed array converts what its callback returns, which is not modelled.
  | .call (.member _ object "map") [.function head body] => do
    let v ← object.run W scope
    match v with
    | .array items =>
      let mapped ← Comp.traverse (fun (item, index) =>
        if head.isPlain then
          withFrame (enterFrame head.names (bindingNames body)
              (callbackArguments items item index)) do
            let returned ← runStatements W scope body
            pure (returned.getD .undefined)
        else Js.stuck) items.zipIdx
      pure (.array mapped)
    | .bytes _ => Js.stuck
    | _ => Comp.throw (.thrown "TypeError")
  | .call (.member _ object method) arguments => do
    let m ← Comp.get
    match loaded scope m.memory object with
    | some name =>
      let vs ← runAll W scope arguments
      Run.call W (.dependency (canonicalModule name) method) vs
    | none =>
      match object with
      | .identifier receiver =>
        if receiver = scope.receiver ∧ lookupName receiver m.memory = none then do
          let vs ← runAll W scope arguments
          Run.call W (.validator method) vs
        else Js.stuck
      | _ => Js.stuck
  | _ => Js.stuck

def runAll (W : World) (scope : ModuleScope) : List Expr → Js (List Value)
  | [] => pure []
  | e :: es => do
    let v ← e.run W scope
    let vs ← runAll W scope es
    pure (v :: vs)

def runProperties (W : World) (scope : ModuleScope) :
    List (PropertyHead × Expr) → Js (List (String × Value))
  | [] => pure []
  | (head, e) :: properties => do
    match head.key with
    | some key =>
      -- A key written twice, an accessor, a spread or a prototype is none of the forms here.
      if head.isSpread || head.isComputed || head.isMethod || !head.isInit ||
          key = "__proto__" || properties.any (fun p => p.1.key = some key) then Js.stuck
      else
        let v ← e.run W scope
        let vs ← runProperties W scope properties
        pure ((key, v) :: vs)
    | none => Js.stuck

/-- What a statement returns, if it returns. -/
def Stmt.run (W : World) (scope : ModuleScope) : Stmt → Js (Option Value)
  | .variableDeclaration isVar declarations => do
    runDeclarations W scope isVar declarations
    pure none
  | .ifStatement test consequent alternate => do
    let v ← test.run W scope
    if v.truthy then consequent.run W scope
    else
      match alternate with
      | none => pure none
      | some alternate => alternate.run W scope
  | .blockStatement body => runStatements W scope body
  | .returnStatement none => pure (some .undefined)
  | .returnStatement (some argument) => do
    let v ← argument.run W scope
    pure (some v)
  | .expressionStatement e => do
    let _ ← e.run W scope
    pure none
  -- The reporter is handed the metric and its context, and the error that is thrown its
  -- message.
  | .throwStatement (.sequence [.call (.member _ reporter "reportSyncdFatalError")
        [metric, context], .new (.member _ error "SyncdFatalError") [.stringLiteral message]]) =>
    do
    let m ← Comp.get
    if loaded scope m.memory reporter = some metricModule ∧
        loaded scope m.memory error = some "WAWebSyncdError" then do
      let v ← metric.run W scope
      let w ← context.run W scope
      Comp.throw (.fatal v w message)
    else Js.stuck
  | _ => Js.stuck

def runStatements (W : World) (scope : ModuleScope) : List Stmt → Js (Option Value)
  | [] => pure none
  | s :: ss => do
    let returned ← s.run W scope
    match returned with
    | some v => pure (some v)
    | none => runStatements W scope ss

def runDeclarations (W : World) (scope : ModuleScope) :
    Bool → List (Option String × Option Expr) → Js Unit
  | _, [] => pure ()
  | isVar, (some x, init) :: declarations =>
    if isVar then
      match init with
      | none => runDeclarations W scope isVar declarations
      | some e => do
        let v ← e.run W scope
        Js.assign x v
        runDeclarations W scope isVar declarations
    else Js.stuck
  | _, (none, _) :: _ => Js.stuck

end

attribute [simp] Expr.run runAll runProperties Stmt.run runStatements runDeclarations

/-- A call of a method. -/
def JsFunction.run (W : World) (scope : ModuleScope) (f : JsFunction) (arguments : ℕ → Value) :
    Except Exit Value × List Call :=
  Run.outcome
    (if f.head.isPlain then do
      let returned ← runStatements W scope f.body
      pure (returned.getD .undefined)
    else Js.stuck)
    [enterFrame f.head.names (bindingNames f.body) arguments]

end Whatspec.Appstate

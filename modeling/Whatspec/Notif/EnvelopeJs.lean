import Whatspec.Notif.EnvelopeIr

/-!
# The JavaScript of the group envelope

The callback that parses a group notification, and what it means.  A form that the compiler never
accepts is kept only so that it can be refused; running it is `stuck`.

* `Expr`, `Stmt` and `Function` are the trees, with every distinction the compiler makes;
* `Scope.read` and `Scope.write` resolve a name: the caught error, the callback's own variables, the
  loaders of the module, its template cache, and the globals;
* `Expr.run` and `runStatements` are the language;
* `Function.run` is a call of the callback on a node.
-/

namespace Whatspec.Notif.Envelope

open Whatspec.Library

/-! ### Trees -/

inductive UnaryOperator where
  | logicalNot
  | void
  | unaryNegation
  | other
  deriving DecidableEq

inductive BinaryOperator where
  | strictEquality
  | strictInequality
  | equality
  | inequality
  | addition
  | other
  deriving DecidableEq

inductive LogicalOperator where
  | and
  | or
  | coalesce
  deriving DecidableEq

/-- A number of the source text, which has no sign. -/
structure NumericLiteral where
  value : Binary64.Word
  unsigned : Binary64.isNegative value = false
  raw : String

/-- What a property of an object literal says before its value. -/
structure PropertyHead where
  isSpread : Bool
  isComputed : Bool
  key : Option String
  deriving DecidableEq

inductive Expr where
  | parenthesized (e : Expr)
  | identifier (name : String)
  | nullLiteral
  | booleanLiteral (b : Bool)
  | numericLiteral (n : NumericLiteral)
  | stringLiteral (s : String)
  | unary (operator : UnaryOperator) (argument : Expr)
  | binary (operator : BinaryOperator) (left right : Expr)
  | logical (operator : LogicalOperator) (left right : Expr)
  | conditional (test consequent alternate : Expr)
  | assignment (isPlain : Bool) (target : Option String) (right : Expr)
  | sequence (expressions : List Expr)
  | object (properties : List (PropertyHead × Expr))
  | array (elements : List Expr)
  | member (object : Expr) (property : String)
  | call (callee : Expr) (arguments : List Expr)
  | function (r : Region)
  | spread (e : Expr)
  | other

inductive Stmt where
  | variableDeclaration (isVar : Bool) (declarations : List (Option String × Option Expr))
  | expressionStatement (e : Expr)
  | blockStatement (body : List Stmt)
  | ifStatement (test : Expr) (consequent : Stmt) (alternate : Option Stmt)
  | tryStatement (block : List Stmt) (handler : Option (Option String × List Stmt))
      (hasFinalizer : Bool)
  | functionDeclaration (name : Option String)
  | returnStatement (argument : Option Expr)
  | other

/-- A parameter: its name, when it is not a pattern, and whether it has a default. -/
structure Parameter where
  name : Option String
  hasInitializer : Bool
  deriving DecidableEq

structure Function where
  isAsync : Bool
  isGenerator : Bool
  hasRest : Bool
  parameters : List Parameter
  directives : List String
  body : List Stmt

/-! ### Names -/

mutual

/-- The variables a statement declares, in source order. -/
def Stmt.bindingNames : Stmt → List String
  | .variableDeclaration _ declarations => declarations.filterMap Prod.fst
  | .blockStatement body => bindingNames body
  | .ifStatement _ consequent none => consequent.bindingNames
  | .ifStatement _ consequent (some alternate) => consequent.bindingNames ++ alternate.bindingNames
  | .tryStatement block none _ => bindingNames block
  | .tryStatement block (some (_, body)) _ => bindingNames block ++ bindingNames body
  | _ => []

def bindingNames : List Stmt → List String
  | [] => []
  | s :: ss => s.bindingNames ++ bindingNames ss

end

attribute [simp] Stmt.bindingNames bindingNames

/-- The functions a body declares. -/
def helpers : List Stmt → List String
  | [] => []
  | .functionDeclaration (some name) :: ss => name :: helpers ss
  | _ :: ss => helpers ss

/-! ### Runs -/

/-- The callback's own variables, and the template cache of its module. -/
structure JsMemory where
  frame : String → Option Value
  cache : Value

/-- Where a callback stands: the loaders of its module and the name of the template cache, its own
variables, and the errors of the handlers under way. -/
structure Scope where
  loaders : List String
  cache : String
  own : List String
  caught : List (String × Value)

/-- The globals that the callback uses. -/
def globalNames : List String := ["Boolean", "babelHelpers"]

/-- What a name stands for outside of the handlers. -/
def Scope.readOuter (scope : Scope) (m : JsMemory) (x : String) : Option Value :=
  match m.frame x with
  | some v => some v
  | none =>
    match scope.loaders.idxOf? x with
    | some i => some (.loader i)
    | none =>
      if x = scope.cache then some m.cache
      else if x ∈ globalNames then some (.global x)
      else none

def Scope.read (scope : Scope) (m : JsMemory) (x : String) : Option Value :=
  match scope.caught.lookup x with
  | some v => some v
  | none => scope.readOuter m x

/-- Assign to a name outside of the handlers.  The loaders and the globals stay. -/
def Scope.writeOuter (scope : Scope) (m : JsMemory) (x : String) (v : Value) : Option JsMemory :=
  match m.frame x with
  | some _ => some { m with frame := Function.update m.frame x (some v) }
  | none =>
    match scope.loaders.idxOf? x with
    | some _ => none
    | none => if x = scope.cache then some { m with cache := v } else none

def Scope.write (scope : Scope) (m : JsMemory) (x : String) (v : Value) : Option JsMemory :=
  match scope.caught.lookup x with
  | some _ => none
  | none => scope.writeOuter m x v

/-- How a run ends without a value. -/
inductive Exit where
  | thrown (v : Value)
  | stuck

abbrev Js (α : Type) := Comp (Machine JsMemory) Exit α

namespace Js

variable (W : World) (scope : Scope)

def stuck {α : Type} : Js α := Comp.throw .stuck

def lookup (x : String) : Js Value := do
  let m ← Comp.get
  match scope.read m.memory x with
  | some v => pure v
  | none => stuck

def assign (x : String) (v : Value) : Js Unit := do
  let m ← Comp.get
  match scope.write m.memory x v with
  | some memory => Comp.modify fun m => { m with memory := memory }
  | none => stuck

/-- The operator `==`, of which one side is nothing. -/
def looseEqual (v w : Value) : Js Bool :=
  if v.nullish || w.nullish then pure (v.nullish && w.nullish) else stuck

/-- The parsers of the actions read the variables they capture and may set one of them. -/
def actions (r : Region) : Js Value := do
  let m ← Comp.get
  let answer ← callActions W r.start
    (r.captures.map fun x => if x ∈ scope.own then m.memory.frame x else none)
  match answer.marker with
  | some v => assign scope r.marker v
  | none => pure ()
  Comp.ofExcept (answer.outcome.mapError .thrown)

/-- Call a method.  The helper of template literals gives back the parts it is handed. -/
def callMethod : Value → String → List Value → Js Value
  | .node, "mapChildren", [.region r] => actions W scope r
  | .global "babelHelpers", "taggedTemplateLiteralLoose", [.template parts] =>
    pure (.template parts)
  | v, name, vs => Envelope.callMethod W .thrown v name vs

/-- Call a function.  A loader hands out a module. -/
def callFunction : Value → List Value → Js Value
  | .loader i, [.text name] => pure (W.load i name)
  | f, vs => callOutside W .thrown (.function f vs)

/-- The texts of an array of texts. -/
def templateOf : List Value → Option (List String)
  | [] => some []
  | .text s :: vs => (templateOf vs).map (s :: ·)
  | _ => none

/-- Run, and go on with what is thrown. -/
def catchThrown {α : Type} (x : Js α) (handler : Value → Js α) : Js α := fun m =>
  match x m with
  | (.error (.thrown e), m') => handler e m'
  | r => r

end Js

mutual

def Expr.run (W : World) (scope : Scope) : Expr → Js Value
  | .parenthesized e => e.run W scope
  | .identifier name => Js.lookup scope name
  | .nullLiteral => pure .null
  | .booleanLiteral b => pure (.bool b)
  | .numericLiteral n => pure (.number n.value)
  | .stringLiteral s => pure (.text s)
  | .unary .logicalNot argument => do
    let v ← argument.run W scope
    pure (.bool !v.truthy)
  | .unary .void argument => do
    let _ ← argument.run W scope
    pure .undefined
  | .unary .unaryNegation argument => do
    let v ← argument.run W scope
    match v with
    | .number n => pure (.number (Binary64.neg n))
    | _ => Js.stuck
  | .unary .other _ => Js.stuck
  | .binary operator left right => do
    let v ← left.run W scope
    let w ← right.run W scope
    match operator with
    | .strictEquality => pure (.bool (v.strictEqual w))
    | .strictInequality => pure (.bool !v.strictEqual w)
    | .equality => do
      let b ← Js.looseEqual v w
      pure (.bool b)
    | .inequality => do
      let b ← Js.looseEqual v w
      pure (.bool !b)
    | .addition => addValues W .thrown v w
    | .other => Js.stuck
  | .logical .and left right => do
    let v ← left.run W scope
    if v.truthy then right.run W scope else pure v
  | .logical .or left right => do
    let v ← left.run W scope
    if v.truthy then pure v else right.run W scope
  | .logical .coalesce left right => do
    let v ← left.run W scope
    if v.nullish then right.run W scope else pure v
  | .conditional test consequent alternate => do
    let v ← test.run W scope
    if v.truthy then consequent.run W scope else alternate.run W scope
  | .assignment true (some target) right => do
    let v ← right.run W scope
    Js.assign scope target v
    pure v
  | .assignment _ _ _ => Js.stuck
  | .sequence expressions => do
    let vs ← runAll W scope expressions
    pure (vs.getLastD .undefined)
  | .object properties => do
    let vs ← runProperties W scope properties
    newObject vs
  | .array elements => do
    let vs ← runAll W scope elements
    match Js.templateOf vs with
    | some parts => pure (.template parts)
    | none => Js.stuck
  | .member _ _ => Js.stuck
  | .call (.member object method) arguments => do
    let v ← object.run W scope
    if v.nullish then Comp.throw (.thrown W.typeError)
    else do
      let vs ← runAll W scope arguments
      Js.callMethod W scope v method vs
  | .call callee arguments => do
    let f ← callee.run W scope
    let vs ← runAll W scope arguments
    Js.callFunction W f vs
  | .function r => pure (.region r)
  | .spread _ => Js.stuck
  | .other => Js.stuck

def runAll (W : World) (scope : Scope) : List Expr → Js (List Value)
  | [] => pure []
  | e :: es => do
    let v ← e.run W scope
    let vs ← runAll W scope es
    pure (v :: vs)

def runProperties (W : World) (scope : Scope) :
    List (PropertyHead × Expr) → Js (List (String × Value))
  | [] => pure []
  | (head, e) :: properties => do
    match head.key with
    | some key =>
      -- A spread, a computed key, a prototype and a key written twice are none of the forms here.
      if head.isSpread || head.isComputed || key = "__proto__" ||
          properties.any (fun p => p.1.key = some key) then Js.stuck
      else
        let v ← e.run W scope
        let vs ← runProperties W scope properties
        pure ((key, v) :: vs)
    | none => Js.stuck

end

def runDeclarations (W : World) (scope : Scope) : List (Option String × Option Expr) → Js Unit
  | [] => pure ()
  | (some _, none) :: declarations => runDeclarations W scope declarations
  | (some x, some e) :: declarations => do
    let v ← e.run W scope
    Js.assign scope x v
    runDeclarations W scope declarations
  | (none, _) :: _ => Js.stuck

mutual

/-- What a statement returns, if it returns. -/
def Stmt.run (W : World) : Scope → Stmt → Js (Option Value)
  | scope, .variableDeclaration isVar declarations =>
    if isVar then do
      runDeclarations W scope declarations
      pure none
    else Js.stuck
  | scope, .expressionStatement e => do
    let _ ← e.run W scope
    pure none
  | scope, .blockStatement body => runStatements W scope body
  | scope, .ifStatement test consequent none => do
    let v ← test.run W scope
    if v.truthy then consequent.run W scope else pure none
  | scope, .ifStatement test consequent (some alternate) => do
    let v ← test.run W scope
    if v.truthy then consequent.run W scope else alternate.run W scope
  | scope, .tryStatement block (some (some name, body)) false =>
    Js.catchThrown (runStatements W scope block) fun e =>
      runStatements W { scope with caught := (name, e) :: scope.caught } body
  | _, .tryStatement _ _ _ => Js.stuck
  -- A function declaration has taken effect on entry.
  | _, .functionDeclaration _ => pure none
  | _, .returnStatement none => pure (some .undefined)
  | scope, .returnStatement (some argument) => do
    let v ← argument.run W scope
    pure (some v)
  | _, .other => Js.stuck

def runStatements (W : World) : Scope → List Stmt → Js (Option Value)
  | _, [] => pure none
  | scope, s :: ss => do
    let returned ← s.run W scope
    match returned with
    | some v => pure (some v)
    | none => runStatements W scope ss

end

attribute [simp] Expr.run runAll runProperties runDeclarations Stmt.run runStatements

/-- A function that does nothing but bind its parameters and run its body. -/
def Function.isPlain (f : Function) (arity : ℕ) : Bool :=
  !f.isAsync && !f.isGenerator && !f.hasRest && f.parameters.length = arity &&
    f.parameters.all (fun p => !p.hasInitializer && p.name.isSome) && f.directives.isEmpty

/-- The variables on entry: the functions declared, the parameter and the variables, undefined.  A
variable named `arguments` holds the arguments. -/
def enterFrame (W : World) (parameter : String) (body : List Stmt) : String → Option Value :=
  fun x =>
    if x ∈ helpers body then some (.helper x)
    else if x = parameter then some .node
    else if x ∈ bindingNames body then
      some (if x = "arguments" then W.argumentsObject else .undefined)
    else none

/-- A call of the callback on a node, in a module with these loaders and this template cache. -/
def Function.start (W : World) (loaders : List String) (cacheName : String) (f : Function) :
    Js Value :=
  match f.parameters with
  | [⟨some _, _⟩] =>
    if f.isPlain 1 then do
      let returned ← runStatements W ⟨loaders, cacheName, bindingNames f.body, []⟩ f.body
      pure (returned.getD .undefined)
    else Js.stuck
  | _ => Js.stuck

/-- The name of the callback's parameter. -/
def Function.parameter (f : Function) : Option String := f.parameters.head?.bind Parameter.name

/-- A call of the callback: what it gives, the calls made, and the cache it leaves. -/
def Function.run (W : World) (loaders : List String) (cacheName : String) (cache : Value)
    (f : Function) : (Except Exit Value × List Call) × Value :=
  let (result, m) := f.start W loaders cacheName
    ⟨⟨enterFrame W (f.parameter.getD "") f.body, cache⟩, 0, []⟩
  ((result, m.calls), m.memory.cache)

end Whatspec.Notif.Envelope

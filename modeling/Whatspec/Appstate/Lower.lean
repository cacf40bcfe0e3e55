import Whatspec.Appstate.JavaScript
import Whatspec.Appstate.Validation

/-!
# Lowering a validator

The compiler of validators walks a method's syntax tree and fails on the first form it does not
know.  Names become arguments or numbered slots: the names declared anywhere in a function are
given slots when the function is entered, and a callback's names are forgotten when it is left.

* `declareScope`, `ordinaryArray`, `Expr.lower` and `lowerStatements` are the walk, with the
  texts of its errors;
* `lowerFunction` is the lowering of a method.
-/

namespace Whatspec.Appstate

open Whatspec.Library

/-- What the compiler knows at a point of its walk. -/
structure Lower where
  locals : String → Option ValidationExpression
  slots : ℕ
  mapDepth : ℕ
  mapFloor : ℕ
  receiver : String
  requires : List String
  arrayField : Option String
  arrayArgument : Bool
  arrays : List ℕ
  mutable : List ℕ

abbrev LowerM (α : Type) := StateT Lower (Except String) α

namespace Lower

/-- Bind a name. -/
def insert (L : Lower) (name : String) (e : ValidationExpression) : Lower :=
  { L with locals := Function.update L.locals name (some e) }

/-- The slot of a name. -/
def slotOf (L : Lower) (name : String) : Option ℕ :=
  match L.locals name with
  | some (.slot index) => some index
  | _ => none

end Lower

mutual

/-- The names that an expression assigns to, outside of the functions in it. -/
def Expr.assignedNames : Expr → List String
  | .parenthesized e => e.assignedNames
  | .unary _ argument => argument.assignedNames
  | .member _ object _ => object.assignedNames
  | .logical _ left right => left.assignedNames ++ right.assignedNames
  | .binary _ left right => left.assignedNames ++ right.assignedNames
  | .conditional test consequent alternate =>
    test.assignedNames ++ consequent.assignedNames ++ alternate.assignedNames
  | .assignment _ target right => target.toList ++ right.assignedNames
  | .sequence expressions => assignedNamesAll expressions
  | .object properties => assignedNamesProperties properties
  | .call callee arguments => callee.assignedNames ++ assignedNamesAll arguments
  | .new callee arguments => callee.assignedNames ++ assignedNamesAll arguments
  | .spread e => e.assignedNames
  | _ => []

def assignedNamesAll : List Expr → List String
  | [] => []
  | e :: es => e.assignedNames ++ assignedNamesAll es

def assignedNamesProperties : List (PropertyHead × Expr) → List String
  | [] => []
  | (_, e) :: properties => e.assignedNames ++ assignedNamesProperties properties

def Stmt.assignedNames : Stmt → List String
  | .variableDeclaration _ declarations => assignedNamesDeclarations declarations
  | .ifStatement test consequent none => test.assignedNames ++ consequent.assignedNames
  | .ifStatement test consequent (some alternate) =>
    test.assignedNames ++ consequent.assignedNames ++ alternate.assignedNames
  | .blockStatement body => assignedNamesStatements body
  | .returnStatement (some argument) => argument.assignedNames
  | .expressionStatement e => e.assignedNames
  | .throwStatement argument => argument.assignedNames
  | _ => []

def assignedNamesStatements : List Stmt → List String
  | [] => []
  | s :: ss => s.assignedNames ++ assignedNamesStatements ss

def assignedNamesDeclarations : List (Option String × Option Expr) → List String
  | [] => []
  | (_, none) :: declarations => assignedNamesDeclarations declarations
  | (_, some e) :: declarations => e.assignedNames ++ assignedNamesDeclarations declarations

end

attribute [simp] Expr.assignedNames assignedNamesAll assignedNamesProperties
  Stmt.assignedNames assignedNamesStatements assignedNamesDeclarations

namespace Lower

/-- Give slots to declared names, and collect the names declared twice. -/
def declareNames : List String → List String → Lower → Except String (List String × Lower)
  | [], _, L => .ok ([], L)
  | name :: names, own, L =>
    if name ∈ own then do
      let (repeated, L') ← declareNames names own L
      .ok (name :: repeated, L')
    else
      match L.locals name with
      | some (.argument _) => .error "parameter redeclaration is not qualified"
      | _ =>
        declareNames names (name :: own)
          { L with
            slots := L.slots + 1
            locals := Function.update L.locals name (some (.slot L.slots)) }

/-- Enter a function: its names have slots, and those written twice are mutable. -/
def declareScope (L : Lower) (statements : List Stmt) : Except String Lower := do
  let (repeated, L') ← declareNames (bindingNames statements) [] L
  let assigned := assignedNamesStatements statements ++ repeated
  .ok { L' with mutable := L'.mutable ++ assigned.filterMap L'.slotOf }

/-- The value is known to be an ordinary array. -/
def ordinaryArray (L : Lower) : ValidationExpression → Bool
  | .argument 1 => L.arrayArgument
  | .field (.argument 1) field => L.arrayField = some field
  | .slot index => L.arrays.contains index && !L.mutable.contains index
  | .map _ _ => true
  | _ => false

/-- The module that an expression loads, through a loader that no variable hides. -/
def module (L : Lower) : Expr → Option String
  | .parenthesized e => L.module e
  | .call (.identifier f) [.stringLiteral name] =>
    if f ∈ L.requires ∧ L.locals f = none then some name else none
  | _ => none

/-- Remember that a slot holds an ordinary array, when it is bound only here. -/
def bindArray (L : Lower) (slot : ℕ) (value : ValidationExpression) : Lower :=
  if !L.mutable.contains slot && L.ordinaryArray value then
    { L with arrays := slot :: L.arrays }
  else L

/-- An operand that a relational operator may have. -/
def numeric (L : Lower) : ValidationExpression → Bool
  | .integer _ => true
  | .field object field => field = "length" && L.ordinaryArray object
  | _ => false

/-- Leave a callback. -/
def leaveCallback (outer L : Lower) : Lower :=
  { L with
    mapDepth := outer.mapDepth
    locals := outer.locals
    arrays := outer.arrays
    mutable := outer.mutable }

/-- Enter a callback whose parameter has a name. -/
def enterCallback (L : Lower) (parameter : String) : Lower :=
  { L.insert parameter (.argument 3) with mapFloor := L.slots, mapDepth := L.mapDepth + 1 }

end Lower

/-- The integer a number of the source text is, when a double holds it exactly. -/
def NumericLiteral.integer (n : NumericLiteral) : Option ℤ :=
  match Binary64.integer n.value with
  | some k => if k.natAbs ≤ 9007199254740991 then some k else none
  | none => none

def validatorNames : List String :=
  ["validateSnapshotProtobuf", "validatePatchProtobuf", "validateExternalBlobReference",
    "validateMutationProtobuf", "validateRecordProtobuf", "validateKeyIdProtobuf"]

/-- The expression is a name. -/
def Expr.isIdentifier (name : String) : Expr → Bool
  | .identifier x => x = name
  | _ => false

/-- The transform that a function of a module is. -/
def dependencyTransform : Option String → String → Option ValidationTransform
  | some "WALongInt", "numberOrThrowIfTooLarge" => some .safeInteger
  | some "WALongInt", "maybeNumberOrThrowIfTooLarge" => some .maybeNumber
  | some "WASyncdKeyTypes", "toSyncKeyId" => some .syncKeyId
  | some "WAWebSyncdKeyTypes", "toSyncKeyId" => some .syncKeyId
  | _, _ => none

def decodedTransform : String → Option ValidationTransform
  | "PatchDebugDataSpec" => some .decodePatchDebugData
  | "SyncActionDataSpec" => some .decodeSyncActionData
  | _ => none

/-- The parameter of a callback. -/
def FunctionHead.callbackParameter (head : FunctionHead) : Except String String :=
  if head.isAsync || head.isGenerator || head.hasRest then
    .error "asynchronous, generator or rest callback is not qualified"
  else if head.parameters.any Parameter.hasInitializer then
    .error "callback parameter initializers are not qualified"
  else if head.isNamed then .error "named callback expressions are not qualified"
  else
    match head.parameters with
    | [p] =>
      match p.name with
      | some name => .ok name
      | none => .error "map binding"
    | _ => .error "map parameters"

/-- The key of a property, after the keys before it. -/
def PropertyHead.lowerKey (head : PropertyHead) (before : List String) :
    Except String String :=
  if head.isSpread then .error "object spread"
  else if head.isComputed || head.isMethod || !head.isInit then
    .error "unsupported object property"
  else
    match head.key with
    | none => .error "dynamic object key"
    | some key =>
      if key = "__proto__" || key = "toString" || key = "valueOf" then
        .error "prototype-setting or coercion-override object properties are not qualified"
      else if key ∈ before then .error "duplicate object property"
      else .ok key

/-- The object literal has a key of this name. -/
def ValidationExpression.hasOwn (name : String) : ValidationExpression → Bool
  | .object fields => fields.any fun field => field.1 = name
  | _ => false

/-- A field of a lowered object. -/
def fieldOf (object : ValidationExpression) (field : String) :
    Except String ValidationExpression :=
  if object.hasOwn field || field ∈ dataFields then .ok (.field object field)
  else .error ("unqualified native data property " ++ field)

def metricOf (name : String) : Except String ValidationExpression :=
  if name ∈ metricNames then .ok (.metric name) else .error "unqualified fatal metric identity"

/-- The context every fatal error must be reported with. -/
def reportingContext : ValidationExpression → Bool
  | .object [("collection", .argument 0)] => true
  | _ => false

/-- A call of another validator, or of a function of the closed vocabulary. -/
def Lower.callOf (L : Lower) (object : Expr) (method : String)
    (arguments : List ValidationExpression) : Except String ValidationExpression :=
  if method ∈ validatorNames ∧ object.isIdentifier L.receiver ∧ L.locals L.receiver = none then
    .ok (.validate method arguments)
  else
    match dependencyTransform (L.module object) method with
    | some transform => .ok (.transform transform arguments)
    | none => .error ("unsupported dependency " ++ method)

/-- Fail when something is refused. -/
def LowerM.ofExcept {α : Type} (r : Except String α) : LowerM α := StateT.lift r

mutual

def Expr.lower : Expr → LowerM ValidationExpression
  | .parenthesized e => e.lower
  | .identifier name => do
    let L ← get
    match L.locals name with
    | some e => pure e
    | none => throw ("unbound " ++ name)
  | .nullLiteral => pure .null
  | .numericLiteral n =>
    match n.integer with
    | some k => pure (.integer k)
    | none => throw "unsupported expression"
  | .stringLiteral s => pure (.string s)
  | .unary .void (.numericLiteral n) =>
    if Binary64.value n.value = .finite 0 then pure .undefined
    else throw "unsupported expression"
  | .unary .logicalNot argument => do
    let value ← argument.lower
    pure (.not value)
  | .member false (.member isComputed object property) name => do
    let L ← get
    if property = "SyncdFatalErrorType" ∧ L.module object = some metricModule then
      LowerM.ofExcept (metricOf name)
    else
      let object ← (Expr.member isComputed object property).lower
      LowerM.ofExcept (fieldOf object name)
  | .member false object property => do
    let object ← object.lower
    LowerM.ofExcept (fieldOf object property)
  | .logical operator left right => do
    let left ← left.lower
    let right ← right.lower
    match operator with
    | .and => pure (.and left right)
    | .or => pure (.or left right)
    | .coalesce => throw "unsupported logical operator"
  | .binary .equality left .nullLiteral => do
    let value ← left.lower
    pure (.nullish value false)
  | .binary .inequality left .nullLiteral => do
    let value ← left.lower
    pure (.nullish value true)
  | .binary .greaterThan left right => do
    let left ← left.lower
    let right ← right.lower
    let L ← get
    if L.numeric left && L.numeric right then pure (.greater left right)
    else throw "relational operands are not qualified numeric values"
  | .conditional test consequent alternate => do
    let condition ← test.lower
    let yes ← consequent.lower
    let no ← alternate.lower
    pure (.choose condition yes no)
  | .assignment isPlain target right =>
    match target with
    | none => throw "unsupported assignment target"
    | some name =>
      if isPlain then do
        let L ← get
        match L.slotOf name with
        | none => throw "assignment outside local"
        | some index =>
          if L.mapDepth ≠ 0 ∧ index < L.mapFloor then
            throw "callback assignment to a captured slot is not qualified"
          else
            let value ← right.lower
            pure (.assign index value)
      else throw "compound assignment"
  | .sequence expressions => do
    let values ← lowerAll expressions
    pure (.sequence values)
  | .object properties => do
    let fields ← lowerProperties properties []
    pure (.object fields)
  | .call (.member _ object "map") arguments =>
    match arguments with
    | [.function head body] => do
      let parameter ← LowerM.ofExcept head.callbackParameter
      let L ← get
      if L.mapDepth ≠ 0 then throw "nested map capture is not qualified"
      else
        let input ← object.lower
        let L ← get
        if L.ordinaryArray input then
          let inner ← LowerM.ofExcept ((L.enterCallback parameter).declareScope body)
          set inner
          let body ← lowerStatements body
          modify fun inner => L.leaveCallback inner
          pure (.map input body)
        else throw "map receiver is not a qualified ordinary array"
    | [.spread _] => throw "spread argument"
    | [_] => throw "map callback"
    | _ => throw "map arity"
  | .call (.member _ object method) arguments => do
    let L ← get
    -- The source looks for this module once more below, where it is not reached again.
    if L.module object = some "decodeProtobuf" ∧ method = "decodeProtobuf" then
      match arguments with
      | [.member false specification name, argument] =>
        if L.module specification = some "WAWebProtobufSyncAction.pb" then
          match decodedTransform name with
          | some transform => do
            let value ← argument.lower
            pure (.transform transform [value])
          | none => throw "unknown decoded spec"
        else throw "unqualified decoder module"
      | [.spread _, _] => throw "spread argument"
      | [_, _] => throw "unqualified decoder spec"
      | _ => throw "unqualified decoder arity"
    else
      let values ← lowerAll arguments
      LowerM.ofExcept (L.callOf object method values)
  | .call _ _ => throw "unsupported callee"
  | .spread _ => throw "spread argument"
  | _ => throw "unsupported expression"

def lowerAll : List Expr → LowerM (List ValidationExpression)
  | [] => pure []
  | e :: es => do
    let value ← e.lower
    let values ← lowerAll es
    pure (value :: values)

def lowerProperties :
    List (PropertyHead × Expr) → List String → LowerM (List (String × ValidationExpression))
  | [], _ => pure []
  | (head, e) :: properties, before => do
    let key ← LowerM.ofExcept (head.lowerKey before)
    let value ← e.lower
    let fields ← lowerProperties properties (before ++ [key])
    pure ((key, value) :: fields)

def Stmt.lower : Stmt → LowerM (List ValidationStatement)
  | .variableDeclaration isVar declarations => lowerDeclarations isVar declarations
  | .ifStatement test consequent alternate => do
    let condition ← test.lower
    let yes ← consequent.lower
    match alternate with
    | some alternate => do
      let no ← alternate.lower
      pure [.if condition yes no]
    | none => pure [.if condition yes []]
  | .blockStatement body => lowerStatements body
  | .returnStatement none => throw "bare return"
  | .returnStatement (some argument) => do
    let value ← argument.lower
    pure [.return value]
  | .expressionStatement e => do
    let value ← e.lower
    pure [.evaluate value]
  | .throwStatement (.sequence [report, error]) =>
    match report with
    | .call (.member _ reporter "reportSyncdFatalError") [metric, context] => do
      let L ← get
      if L.module reporter = some metricModule then
        let metric ← metric.lower
        let context ← context.lower
        if reportingContext context then
          match error with
          | .new (.member _ object "SyncdFatalError") [argument] => do
            let L ← get
            if L.module object = some "WAWebSyncdError" then
              match argument with
              | .stringLiteral message => pure [.fatal metric message]
              | .spread _ => throw "spread argument"
              | _ => throw "dynamic fatal message"
            else throw "unqualified fatal class"
          | .new (.member _ _ "SyncdFatalError") _ => throw "unqualified fatal class"
          | .new _ _ => throw "wrong fatal class"
          | _ => throw "missing fatal constructor"
        else throw "unsupported reporting context"
      else throw "unqualified fatal reporter"
    | .call (.member _ _ "reportSyncdFatalError") _ => throw "unqualified fatal reporter"
    | .call _ _ => throw "wrong fatal reporter"
    | _ => throw "missing fatal metric"
  | .throwStatement (.sequence _) => throw "unsupported fatal side effects"
  | .throwStatement _ => throw "unqualified throw"
  | .other => throw "unsupported statement"

def lowerStatements : List Stmt → LowerM (List ValidationStatement)
  | [] => pure []
  | s :: ss => do
    let first ← s.lower
    let rest ← lowerStatements ss
    pure (first ++ rest)

def lowerDeclarations :
    Bool → List (Option String × Option Expr) → LowerM (List ValidationStatement)
  | _, [] => pure []
  | _, (none, _) :: _ => throw "unsupported binding"
  | isVar, (some name, init) :: declarations =>
    if isVar then do
      let L ← get
      match L.slotOf name with
      | none => throw "unqualified variable binding"
      | some slot =>
        match init with
        | none => throw "uninitialized declarations are not qualified"
        | some e => do
          let value ← e.lower
          modify fun L => L.bindArray slot value
          let rest ← lowerDeclarations isVar declarations
          pure (.bind slot value :: rest)
    else throw "block-scoped declarations are not qualified"

end

attribute [simp] Expr.lower lowerAll lowerProperties Stmt.lower lowerStatements
  lowerDeclarations

/-- Bind the parameters of a method. -/
def bindParameters (L : Lower) : ℕ → List Parameter → Except String Lower
  | _, [] => .ok L
  | index, p :: ps =>
    if p.hasInitializer then .error "parameter initializers are not qualified"
    else
      match p.name with
      | none => .error "unsupported parameter"
      | some name => bindParameters (L.insert name (.argument index)) (index + 1) ps

/-- The module a method is compiled in, and where it may expect an ordinary array. -/
structure Qualification where
  scope : ModuleScope
  arrayField : Option String
  arrayArgument : Bool

/-- Lower a whole method, or refuse it. -/
def lowerFunction (q : Qualification) (f : JsFunction) : Except String ValidationFunction := do
  if f.head.isNamed then .error "named validator expressions are not qualified"
  else if f.head.isAsync || f.head.isGenerator || f.head.hasRest then
    .error "asynchronous, generator or rest validator is not qualified"
  else do
    let L ← bindParameters
      { locals := fun _ => none
        slots := 0
        mapDepth := 0
        mapFloor := 0
        receiver := q.scope.receiver
        requires := q.scope.loaders
        arrayField := q.arrayField
        arrayArgument := q.arrayArgument
        arrays := []
        mutable := [] } 0 f.head.parameters
    let L ← L.declareScope f.body
    let (body, _) ← lowerStatements f.body |>.run L
    .ok ⟨f.head.parameters.length, body⟩

/-- How each exported method is compiled. -/
def methodQualification (scope : ModuleScope) (name : String) : Qualification where
  scope := scope
  arrayField :=
    if name = "validateSnapshotProtobuf" then some "records"
    else if name = "validatePatchProtobuf" then some "mutations"
    else none
  arrayArgument := false

/-- How the method that types decoded mutations is compiled. -/
def decodedQualification (loaders : List String) : Qualification where
  scope := ⟨loaders, ""⟩
  arrayField := none
  arrayArgument := true

end Whatspec.Appstate

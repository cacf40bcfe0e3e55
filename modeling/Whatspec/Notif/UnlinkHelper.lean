import Mathlib.Data.String.Basic
import Mathlib.Order.WithBot
import Whatspec.Library.Coupling
import Whatspec.Library.DecisionTable

/-!
# The unlink helper and its decision table

`evaluate` reads the helper that normalizes an UNLINK notification and publishes what it decides
as a table.  It checks the grammar of the whole body first, then runs the body on every string the
helper can tell apart, on one stand-in for all the others, and on an absent reason.

* `Expr` and `Stmt` are the syntax the pass looks at; what it never accepts is `other`;
* `Eval` is the bounded evaluation with its abstract values, `validateStructure` the grammar;
* `evaluate` makes the rows, orders them and keeps the distinctions that matter.

The callback that projects the group payload and the warning for an unknown type are each one
qualified form; the syntax keeps what the pass reads of them.
-/

namespace Whatspec.Notif.Unlink

open Whatspec.Library

/-- The names that `Object.prototype` has. -/
def objectPrototypeKeys : List String :=
  ["constructor", "__defineGetter__", "__defineSetter__", "hasOwnProperty", "__lookupGetter__",
    "__lookupSetter__", "isPrototypeOf", "propertyIsEnumerable", "toString", "valueOf",
    "__proto__", "toLocaleString"]

def unknownInput : String := "__whatspec_unknown_value__"

/-- A qualified unknown-type branch: WARN with the template and the wire type, `sendLogs` with the
event, then null. -/
structure UnknownTypeWarning where
  template : List String
  event : String
  deriving DecidableEq

structure GroupUnlinkRow where
  unlinkType : Option String
  reason : Option String
  actionType : Option String
  unsupportedAction : Bool
  nullResult : Option UnknownTypeWarning
  deriving DecidableEq

structure GroupUnlinkContract where
  moduleName : String
  startByte : ℕ
  endByte : ℕ
  rows : List GroupUnlinkRow
  deriving DecidableEq

/-! ### Syntax -/

/-- What a property of an object literal says before its value. -/
structure PropertyHead where
  isSpread : Bool
  isComputed : Bool
  isMethod : Bool
  key : Option String
  deriving DecidableEq

/-- `loader("Module").OBJECT.MEMBER`, with the strings spelled in it. -/
structure ConstantReference where
  loader : Option String
  argumentCount : ℕ
  module : String
  object : String
  member : String
  spelled : List String
  deriving DecidableEq

/-- A call: what its callee is, its first argument when that is a string, and whether a second
argument is the projection of the group payload (`valid_groups`). -/
structure AccessorCall where
  method : Option String
  receiver : Option String
  attr : Option String
  argumentCount : ℕ
  validGroups : Bool
  spelled : List String
  deriving DecidableEq

/-- The qualified warning: the variable it reports and every name that occurs in it. -/
structure WarningSite where
  argument : String
  names : List String
  warning : UnknownTypeWarning
  spelled : List String
  deriving DecidableEq

/-- The captured names of the warning, without the variable it reports. -/
def WarningSite.captures (w : WarningSite) : List String := w.names.filter (· ≠ w.argument)

/-- Expressions.  `equalsNull` has the bare word `null` on its right. -/
inductive Expr where
  | parenthesized (e : Expr)
  | stringLiteral (s : String)
  | constant (r : ConstantReference)
  | nullLiteral
  | identifier (name : String)
  | conditional (test consequent alternate : Expr)
  | equalsNull (left : Expr)
  | strictEquality (left right : Expr)
  | object (properties : List (PropertyHead × Expr))
  | computedMember (object key : Expr)
  | call (c : AccessorCall)
  | warning (w : WarningSite)
  | other

inductive Stmt where
  | variableDeclaration (isVar : Bool) (declarations : List (Option String × Option Expr))
  | returnStatement (argument : Option Expr)
  | blockStatement (body : List Stmt)
  | ifStatement (test : Expr) (consequent : Stmt) (alternate : Option Stmt)
  | other

/-- A parameter: its name, when it is not a pattern, and whether it has a default. -/
structure Parameter where
  name : Option String
  hasInitializer : Bool
  deriving DecidableEq

structure Helper where
  name : Option String
  isAsync : Bool
  isGenerator : Bool
  hasRest : Bool
  parameters : List Parameter
  hasDirectives : Bool
  hasOptionalAccess : Bool
  body : List Stmt
  startByte : ℕ
  endByte : ℕ

def Expr.withoutParentheses : Expr → Expr
  | .parenthesized e => e.withoutParentheses
  | e => e

/-- The constants of the bundle: a wire string for a module, an object and a member
(`ConstResolver::member`). -/
abbrev Constants := String → String → String → Option String

def Constants.resolve (constants : Constants) (r : ConstantReference) : Option String :=
  constants r.module r.object r.member

/-! ### Evaluation -/

inductive Value where
  | text (s : String)
  | node
  | unknownKind
  | unknownReason
  | null
  | undefined
  | bool (b : Bool)
  | object (fields : List (String × Value))
  | groups
  | unsupported
  | rejectedType (w : UnknownTypeWarning)

/-- The four reads of the payload. -/
inductive Read where
  | type
  | hasReason
  | reason
  | groups
  deriving DecidableEq

/-- The reads of the payload, in order, with or without a reason on the node. -/
def expectedReads (hasReason : Bool) : List Read :=
  if hasReason then [.type, .hasReason, .reason, .groups] else [.type, .hasReason, .groups]

/-- The state of an evaluation. -/
structure Eval where
  vars : String → Option Value
  kind : String
  reason : Option String
  reads : List Read

namespace Eval

def requirePayloadReads (σ : Eval) : Except String Unit :=
  if σ.reads = expectedReads σ.reason.isSome then .ok ()
  else .error "changed UNLINK payload read order"

/-- The wire type as the helper sees it. -/
def kindValue (σ : Eval) : Value :=
  if σ.kind = unknownInput then .unknownKind else .text σ.kind

/-- The variable that the warning reports holds the wire type. -/
def requireWireType (σ : Eval) (argument : String) : Except String Unit :=
  match σ.vars argument, σ.kindValue with
  | some .unknownKind, .unknownKind => .ok ()
  | some (.text s), .text k =>
    if s = k then .ok () else .error "UNLINK warning no longer receives wire type"
  | _, _ => .error "UNLINK warning no longer receives wire type"

def reasonValue (reason : String) : Value :=
  if reason = unknownInput then .unknownReason else .text reason

end Eval

/-- A value that is compared by identity. -/
def Value.isReference : Value → Bool
  | .object _ | .groups | .unsupported | .node => true
  | _ => false

/-- Equality of two values neither of which is compared by identity. -/
def Value.same : Value → Value → Bool
  | .text a, .text b => a == b
  | .unknownKind, .unknownKind => true
  | .unknownReason, .unknownReason => true
  | .null, .null => true
  | .undefined, .undefined => true
  | .bool a, .bool b => a == b
  | .rejectedType a, .rejectedType b => a == b
  | _, _ => false

/-- `left === right`. -/
def Value.strictEqual : Value → Value → Except String Value
  | .unknownKind, .unknownReason => .error "independent unknown strings may be equal or unequal"
  | .unknownReason, .unknownKind => .error "independent unknown strings may be equal or unequal"
  | left, right =>
    if left.isReference || right.isReference then
      .error "reference equality requires identity modeling"
    else .ok (.bool (left.same right))

/-- `value == null`. -/
def Value.isNullish : Value → Bool
  | .null | .undefined => true
  | _ => false

/-- `obj[key]`, on a plain object. -/
def lookupKey (fields : List (String × Value)) : Value → Except String Value
  | .text key => .ok <|
      match fields.lookup key with
      | some v => v
      | none => if key ∈ objectPrototypeKeys then .unsupported else .undefined
  | .unknownKind | .unknownReason => .ok .undefined
  | _ => .error "non-string lookup"

/-- One accessor of the node. -/
def Eval.access (c : AccessorCall) (σ : Eval) : Except String (Value × Eval) :=
  match c.method with
  | none => .error "unsupported call"
  | some method =>
    match c.receiver.bind σ.vars with
    | some .node =>
      match c.attr with
      | none => .error "nonliteral attribute"
      | some attr =>
        if c.argumentCount ≠ if method = "mapChildrenWithTag" then 2 else 1 then
          .error "unsupported accessor arity"
        else if method = "attrString" ∧ attr = "unlink_type" then
          .ok (σ.kindValue, { σ with reads := σ.reads ++ [.type] })
        else if method = "hasAttr" ∧ attr = "unlink_reason" then
          .ok (.bool σ.reason.isSome, { σ with reads := σ.reads ++ [.hasReason] })
        else if method = "attrString" ∧ attr = "unlink_reason" then
          match σ.reason with
          | some reason => .ok (Eval.reasonValue reason, { σ with reads := σ.reads ++ [.reason] })
          | none => .error "required reason absent"
        else if method = "mapChildrenWithTag" ∧ attr = "group" ∧ c.validGroups then
          .ok (.groups, { σ with reads := σ.reads ++ [.groups] })
        else .error s!"unsupported accessor {method}({attr})"
    | _ => .error "unrecognized call receiver"

mutual

/-- `Eval::expr`. -/
def Expr.eval (constants : Constants) : Expr → Eval → Except String (Value × Eval)
  | .parenthesized e, σ => e.eval constants σ
  | .warning w, σ => do
    σ.requireWireType w.argument
    σ.requirePayloadReads
    pure (.rejectedType w.warning, σ)
  | .stringLiteral s, σ => .ok (.text s, σ)
  | .constant r, σ =>
    match constants.resolve r with
    | some text =>
      if r.argumentCount ≠ 1 ∨ r.loader = none then .error "effectful constant reference"
      else .ok (.text text, σ)
    | none => .error "unsupported expression"
  | .nullLiteral, σ => .ok (.null, σ)
  | .identifier x, σ =>
    match σ.vars x with
    | some v => .ok (v, σ)
    | none => .error s!"unbound {x}"
  | .conditional test consequent alternate, σ => do
    let (v, σ) ← test.eval constants σ
    match v with
    | .bool true => consequent.eval constants σ
    | .bool false => alternate.eval constants σ
    | _ => .error "non-boolean guard"
  | .equalsNull left, σ => do
    let (v, σ) ← left.eval constants σ
    pure (.bool v.isNullish, σ)
  | .strictEquality left right, σ => do
    let (l, σ) ← left.eval constants σ
    let (r, σ) ← right.eval constants σ
    let v ← l.strictEqual r
    pure (v, σ)
  | .object properties, σ => do
    let (fields, σ) ← evalProperties constants properties [] σ
    pure (.object fields, σ)
  | .computedMember object key, σ => do
    σ.requirePayloadReads
    let (o, σ) ← object.eval constants σ
    match o with
    | .object fields =>
      let (k, σ) ← key.eval constants σ
      let v ← lookupKey fields k
      pure (v, σ)
    | _ => .error "lookup on non-object"
  | .call c, σ => σ.access c
  | .other, _ => .error "unsupported expression"

/-- The properties of an object literal, in source order. -/
def evalProperties (constants : Constants) :
    List (PropertyHead × Expr) → List (String × Value) → Eval →
      Except String (List (String × Value) × Eval)
  | [], fields, σ => .ok (fields, σ)
  | (head, e) :: rest, fields, σ =>
    if head.isSpread then .error "spread in normalization"
    else if head.isComputed then .error "computed normalization key"
    else
      match head.key with
      | none => .error "computed normalization key"
      | some key =>
        if key = "__proto__" then .error "custom object prototype"
        else do
          let (v, σ) ← e.eval constants σ
          if (fields.lookup key).isSome then .error "duplicate key"
          else evalProperties constants rest (fields ++ [(key, v)]) σ

end

/-- The bindings of one `var`, in source order. -/
def evalDeclarations (constants : Constants) :
    List (Option String × Option Expr) → Eval → Except String Eval
  | [], σ => .ok σ
  | (none, _) :: _, _ => .error "destructuring"
  | (some _, none) :: _, _ => .error "uninitialized binding"
  | (some name, some e) :: rest, σ => do
    let (v, σ) ← e.eval constants σ
    evalDeclarations constants rest { σ with vars := Function.update σ.vars name (some v) }

mutual

/-- `Eval::statement`: the value returned, when the statement returns. -/
def Stmt.eval (constants : Constants) : Stmt → Eval → Except String (Option Value × Eval)
  | .variableDeclaration isVar declarations, σ =>
    if !isVar then .error "lexical declaration requires scope lowering"
    else do
      let σ ← evalDeclarations constants declarations σ
      pure (none, σ)
  | .returnStatement none, _ => .error "empty return"
  | .returnStatement (some e), σ => do
    let (v, σ) ← e.eval constants σ
    pure (some v, σ)
  | .blockStatement body, σ => evalStatements constants body σ
  | .ifStatement test consequent alternate, σ => do
    let (v, σ) ← test.eval constants σ
    match v with
    | .bool true => consequent.eval constants σ
    | .bool false =>
      match alternate with
      | some s => s.eval constants σ
      | none => pure (none, σ)
    | _ => .error "non-boolean if"
  | .other, _ => .error "unsupported statement in unlink helper"

/-- `Eval::statements`. -/
def evalStatements (constants : Constants) :
    List Stmt → Eval → Except String (Option Value × Eval)
  | [], σ => .ok (none, σ)
  | s :: ss, σ => do
    let (v, σ) ← s.eval constants σ
    match v with
    | some v => pure (some v, σ)
    | none => evalStatements constants ss σ

end

/-! ### The grammar -/

/-- A call that the grammar admits. -/
def validateCall (node : String) (c : AccessorCall) : Except String Unit :=
  match c.method with
  | none => .error "unqualified call"
  | some method =>
    if c.receiver ≠ some node then .error "unqualified node receiver"
    else
      match c.attr with
      | none => .error "nonliteral node attribute"
      | some attr =>
        if method = "mapChildrenWithTag" ∧ attr = "group" ∧ c.argumentCount = 2 ∧
            c.validGroups then .ok ()
        else if c.argumentCount ≠ 1 ∨ ¬(method = "attrString" ∧ attr = "unlink_type" ∨
            method = "attrString" ∧ attr = "unlink_reason" ∨
            method = "hasAttr" ∧ attr = "unlink_reason") then
          .error "unqualified accessor"
        else .ok ()

mutual

/-- `validate_expression`. -/
def Expr.validate (constants : Constants) (node : String) : Expr → Except String Unit
  | .parenthesized e => e.validate constants node
  | .constant r =>
    if (constants.resolve r).isNone then .error "unqualified expression anywhere in unlink helper"
    else if r.argumentCount ≠ 1 ∨ r.loader = none then .error "effectful constant reference"
    else .ok ()
  | .stringLiteral _ | .nullLiteral | .identifier _ => .ok ()
  | .conditional test consequent alternate => do
    test.validate constants node
    consequent.validate constants node
    alternate.validate constants node
  | .strictEquality left right => do
    left.validate constants node
    right.validate constants node
  | .equalsNull left => left.validate constants node
  | .computedMember object key => do
    object.validate constants node
    key.validate constants node
  | .object properties => validateProperties constants node [] properties
  | .call c => validateCall node c
  | .warning _ | .other => .error "unqualified expression anywhere in unlink helper"

/-- The properties of an object literal, with the keys seen so far. -/
def validateProperties (constants : Constants) (node : String) :
    List String → List (PropertyHead × Expr) → Except String Unit
  | _, [] => .ok ()
  | seen, (head, e) :: rest =>
    if head.isSpread then .error "spread in unlink grammar"
    else
      match head.key with
      | none => .error "nonliteral object key"
      | some key =>
        if head.isComputed ∨ head.isMethod ∨ key = "__proto__" ∨ key ∈ seen then
          .error "unqualified object property"
        else do
          e.validate constants node
          validateProperties constants node (key :: seen) rest

end

def validateDeclarations (constants : Constants) (node : String) :
    List (Option String × Option Expr) → Except String Unit
  | [] => .ok ()
  | (none, _) :: _ => .error "unqualified declaration pattern"
  | (some _, none) :: _ => .error "uninitialized declaration"
  | (some _, some e) :: rest => do
    e.validate constants node
    validateDeclarations constants node rest

/-- What a `return` may return: the qualified warning only as the consequent of a null guard. -/
def Expr.validateReturned (constants : Constants) (node : String) (e : Expr) :
    Except String Unit :=
  match e.withoutParentheses with
  | .conditional test consequent alternate =>
    match consequent.withoutParentheses with
    | .warning _ =>
      match test.withoutParentheses with
      | .equalsNull _ => do
        test.validate constants node
        alternate.validate constants node
      | _ => .error "changed UNLINK null guard"
    | _ => e.validate constants node
  | _ => e.validate constants node

mutual

/-- `validate_structure`. -/
def Stmt.validate (constants : Constants) (node : String) : Stmt → Except String Unit
  | .variableDeclaration isVar declarations =>
    if isVar then validateDeclarations constants node declarations
    else .error "unqualified statement anywhere in unlink helper"
  | .returnStatement none => .error "empty return"
  | .returnStatement (some e) => e.validateReturned constants node
  | .blockStatement body => validateStatements constants node body
  | .ifStatement test consequent alternate => do
    test.validate constants node
    consequent.validate constants node
    match alternate with
    | some s => s.validate constants node
    | none => pure ()
  | .other => .error "unqualified statement anywhere in unlink helper"

def validateStatements (constants : Constants) (node : String) : List Stmt → Except String Unit
  | [] => .ok ()
  | s :: ss => do
    s.validate constants node
    validateStatements constants node ss

end

/-! ### The strings of a helper -/

mutual

/-- The strings of an expression: its literals, the keys of its objects and the constants it
refers to. -/
def Expr.literals (constants : Constants) : Expr → List String
  | .parenthesized e => e.literals constants
  | .stringLiteral s => [s]
  | .constant r => (constants.resolve r).toList ++ r.spelled
  | .conditional test consequent alternate =>
    test.literals constants ++ consequent.literals constants ++ alternate.literals constants
  | .equalsNull left => left.literals constants
  | .strictEquality left right => left.literals constants ++ right.literals constants
  | .object properties => propertyLiterals constants properties
  | .computedMember object key => object.literals constants ++ key.literals constants
  | .call c => c.spelled
  | .warning w => w.spelled
  | .nullLiteral | .identifier _ | .other => []

def propertyLiterals (constants : Constants) : List (PropertyHead × Expr) → List String
  | [] => []
  | (head, e) :: rest =>
    head.key.toList ++ e.literals constants ++ propertyLiterals constants rest

end

mutual

/-- The qualified warnings in an expression. -/
def Expr.warnings : Expr → List WarningSite
  | .parenthesized e => e.warnings
  | .conditional test consequent alternate =>
    test.warnings ++ consequent.warnings ++ alternate.warnings
  | .equalsNull left => left.warnings
  | .strictEquality left right => left.warnings ++ right.warnings
  | .object properties => propertyWarnings properties
  | .computedMember object key => object.warnings ++ key.warnings
  | .warning w => [w]
  | .stringLiteral _ | .constant _ | .nullLiteral | .identifier _ | .call _ | .other => []

def propertyWarnings : List (PropertyHead × Expr) → List WarningSite
  | [] => []
  | (_, e) :: rest => e.warnings ++ propertyWarnings rest

end

mutual

/-- The references to constants in an expression. -/
def Expr.references : Expr → List ConstantReference
  | .parenthesized e => e.references
  | .constant r => [r]
  | .conditional test consequent alternate =>
    test.references ++ consequent.references ++ alternate.references
  | .equalsNull left => left.references
  | .strictEquality left right => left.references ++ right.references
  | .object properties => propertyReferences properties
  | .computedMember object key => object.references ++ key.references
  | .stringLiteral _ | .nullLiteral | .identifier _ | .call _ | .warning _ | .other => []

def propertyReferences : List (PropertyHead × Expr) → List ConstantReference
  | [] => []
  | (_, e) :: rest => e.references ++ propertyReferences rest

end

mutual

/-- The expressions that a statement holds directly, at any depth of nesting. -/
def Stmt.expressions : Stmt → List Expr
  | .variableDeclaration _ declarations => declarations.filterMap Prod.snd
  | .returnStatement argument => argument.toList
  | .blockStatement body => expressions body
  | .ifStatement test consequent none => test :: consequent.expressions
  | .ifStatement test consequent (some alternate) =>
    test :: (consequent.expressions ++ alternate.expressions)
  | .other => []

def expressions : List Stmt → List Expr
  | [] => []
  | s :: ss => s.expressions ++ expressions ss

end

mutual

/-- The names that a statement declares. -/
def Stmt.bindings : Stmt → List String
  | .variableDeclaration _ declarations => declarations.filterMap Prod.fst
  | .blockStatement body => bindings body
  | .ifStatement _ consequent none => consequent.bindings
  | .ifStatement _ consequent (some alternate) => consequent.bindings ++ alternate.bindings
  | .returnStatement _ | .other => []

def bindings : List Stmt → List String
  | [] => []
  | s :: ss => s.bindings ++ bindings ss

end

/-! ### The table -/

/-- What the value of a helper decides: the action, whether it is inherited, and the warning. -/
def Value.decision : Value → Except String (Option String × Bool × Option UnknownTypeWarning)
  | .rejectedType w => .ok (none, false, some w)
  | .object fields =>
    match fields.lookup "groupDatas" with
    | some .groups =>
      if (fields.filter (·.1 ≠ "groupDatas")).length ≠ 1 then .error "changed normalized payload"
      else
        match fields.lookup "actionType" with
        | some (.text v) =>
          if v = unknownInput then .error "unknown input escapes finite action table"
          else .ok (some v, false, none)
        | some .null | some .undefined => .ok (none, false, none)
        | some .unsupported => .ok (none, true, none)
        | _ => .error "non-string action"
    | _ => .error "changed normalized payload"
  | _ => .error "non-object helper result"

/-- The state in which the body is evaluated for one type and one reason. -/
def Eval.initial (param kind : String) (reason : Option String) : Eval where
  vars x := if x = param then some .node else none
  kind := kind
  reason := reason
  reads := []

/-- The row for one type and one reason. -/
def cell (constants : Constants) (param : String) (body : List Stmt) (kind : String)
    (reason : Option String) : Except String GroupUnlinkRow := do
  let (value, σ) ← evalStatements constants body (.initial param kind reason)
  match value with
  | none => .error "helper has no return"
  | some value => do
    σ.requirePayloadReads
    let (actionType, unsupportedAction, nullResult) ← value.decision
    pure
      { unlinkType := if kind = unknownInput then none else some kind
        reason := reason.filter (· ≠ unknownInput)
        actionType, unsupportedAction, nullResult }

/-- The strings that stand for all others: those the helper spells, the prototype names, and one
stand-in for the rest. -/
def representatives (literals : List String) : List String :=
  ((literals ++ objectPrototypeKeys).dedup.mergeSort (· ≤ ·)) ++ [unknownInput]

/-- The order of the rows. -/
def GroupUnlinkRow.keys (r : GroupUnlinkRow) : WithBot String ×ₗ WithBot String :=
  toLex (r.unlinkType, r.reason)

def GroupUnlinkRow.order (r : GroupUnlinkRow) :
    (WithBot String ×ₗ WithBot String) ×ₗ WithBot String ×ₗ Bool :=
  toLex (r.keys, toLex (r.actionType, r.unsupportedAction))

/-- What a row says of the keys it is for. -/
def GroupUnlinkRow.decision (r : GroupUnlinkRow) :
    Option String × Bool × Option UnknownTypeWarning :=
  (r.actionType, r.unsupportedAction, r.nullResult)

/-- Order the rows, drop the repeated ones, and keep the distinctions that affect the decision. -/
def publish (rows : List GroupUnlinkRow) : Except String (List GroupUnlinkRow) :=
  let rows := DecisionTable.dropRepeats (rows.mergeSort fun a b => a.order ≤ b.order)
  if DecisionTable.DistinctNeighbours GroupUnlinkRow.unlinkType GroupUnlinkRow.reason rows then
    .ok (DecisionTable.prune GroupUnlinkRow.unlinkType GroupUnlinkRow.reason
      GroupUnlinkRow.decision rows)
  else .error "absent and unknown reasons have different semantics"

/-- The names that the warnings of a body capture. -/
def warningCaptures (body : List Stmt) : List String :=
  (expressions body).flatMap fun e => e.warnings.flatMap WarningSite.captures

def literals (constants : Constants) (body : List Stmt) : List String :=
  (expressions body).flatMap (Expr.literals constants)

/-- `evaluate`: the decision table of a helper. -/
def evaluate (constants : Constants) (f : Helper) : Except String GroupUnlinkContract :=
  match f.parameters with
  | [⟨some param, false⟩] =>
    if f.isAsync || f.isGenerator || f.hasRest then .error "changed helper kind/parameters"
    else if f.hasDirectives then .error "unqualified helper directives"
    else if f.hasOptionalAccess then .error "unqualified optional access"
    else do
      validateStatements constants param f.body
      if (warningCaptures f.body).any (· ∈ param :: bindings f.body) then
        .error "UNLINK local shadows warning dependency"
      else if unknownInput ∈ literals constants f.body then .error "sentinel collision"
      else do
        let values := representatives (literals constants f.body)
        let rows ← values.mapM fun kind =>
          (none :: values.map some).mapM fun reason => cell constants param f.body kind reason
        let rows ← publish rows.flatten
        pure ⟨"WAWebHandleGroupNotification", f.startByte, f.endByte, rows⟩
  | _ => .error "changed helper kind/parameters"

/-- The loaders of the module, apart from the names that the helper binds: what
`validate_import_bindings`, which runs before `evaluate`, requires of every import. -/
def Helper.importsBound (constants : Constants) (aliases : List String) (f : Helper) : Bool :=
  (expressions f.body).all fun e => e.references.all fun r =>
    (constants.resolve r).isNone || r.argumentCount = 1 && r.loader.any fun x =>
      x ∈ aliases && x ∉ f.name.toList ++ f.parameters.filterMap Parameter.name ++ bindings f.body

end Whatspec.Notif.Unlink

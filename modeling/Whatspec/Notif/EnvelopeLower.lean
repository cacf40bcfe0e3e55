import Whatspec.Notif.EnvelopeJs

/-!
# Lowering the group envelope

The compiler of the envelope walks the callback and fails on the first form it does not know.  The
variables declared anywhere before the projection are numbered by first sight.

* `Lower.expr` and `Lower.statements` are the walk, with the texts of its errors;
* `Lower.diagnostic` recognizes the one handler that is accepted, and `actionsRegion` the expression
  that hands over to the parsers of the actions;
* `lowerCallback` is the lowering of a callback.  The fingerprints of the source around it are
  `Qualification`.
-/

namespace Whatspec.Notif.Envelope

open Whatspec.Library

/-- What the compiler knows: the node, the loaders that no variable hides, the locals in the order
of their numbers, whether it has seen a diagnostic, and the name of the template cache. -/
structure Lower where
  node : String
  loaders : List String
  locals : List String
  diagnosticSeen : Bool
  diagnosticCache : String

/-! ### Forms -/

def Expr.withoutParentheses : Expr → Expr
  | .parenthesized e => e.withoutParentheses
  | e => e

/-- `as_identifier(e) == Some(name)`. -/
def Expr.isIdentifier (name : String) : Expr → Bool
  | .identifier x => x = name
  | _ => false

/-- The integer of a number of the source text, when it fits into 64 bits. -/
def NumericLiteral.integer (n : NumericLiteral) : Option ℤ :=
  match Binary64.integer n.value with
  | some k => if k < 2 ^ 63 then some k else none
  | none => none

/-- `i64::checked_neg`. -/
def checkedNeg (k : ℤ) : Option ℤ := if k = -2 ^ 63 then none else some (-k)

/-- `as_int`: an integer, with the signs before it folded into it. -/
def Expr.asInt : Expr → Option ℤ
  | .numericLiteral n => n.integer
  | .unary .unaryNegation (.numericLiteral n) =>
    if Binary64.integer n.value = some (2 ^ 63) ∧ n.raw = "9223372036854775808" then
      some (-2 ^ 63)
    else n.integer.bind checkedNeg
  | .unary .unaryNegation e => e.asInt.bind checkedNeg
  | _ => none

/-- `import_module`: the module that an expression loads. -/
def importModule (loaders : List String) (e : Expr) : Option String :=
  match e.withoutParentheses with
  | .call (.identifier f) [.stringLiteral name] => if f ∈ loaders then some name else none
  | _ => none

/-- The node operations of the closed vocabulary. -/
def readOf : String → Option GroupEnvelopeRead
  | "assertTag" => some .assertTag
  | "hasAttr" => some .hasAttr
  | "attrString" => some .attrString
  | "attrGroupJid" => some .attrGroupJid
  | "attrUserJid" => some .attrUserJid
  | "maybeAttrPhoneUserJid" => some .maybeAttrPhoneUserJid
  | "attrTime" => some .attrTime
  | "maybeAttrString" => some .maybeAttrString
  | _ => none

def factOf : String → String → Option GroupEnvelopeContextFact
  | "WAWebUserPrefsMeUser", "getMeDeviceLidOrThrow" => some .meDeviceLid
  | "WAWebUserPrefsMeUser", "getMaybeMeDevicePn" => some .maybeMeDevicePn
  | "WAWebUsernameGatingUtils", "usernameDisplayedEnabled" => some .usernameDisplayed
  | _, _ => none

def conversionOf : String → String → Option GroupEnvelopeConversion
  | "WAWebJidToWid", "groupJidToWid" => some .groupJidToWid
  | "WAWebJidToWid", "userJidToUserWid" => some .userJidToUserWid
  | "WAWebAsISOCountryCode", "asISOCountryCode" => some .asIsoCountryCode
  | _, _ => none

/-- The operator of two operands, of which a comparison by `==` has the literal `null`. -/
def binaryOf (left right : Expr) : BinaryOperator → Except String GroupEnvelopeBinary
  | .strictEquality => .ok .strictEqual
  | .strictInequality => .ok .strictNotEqual
  | .equality =>
    match left, right with
    | .nullLiteral, _ => .ok .nullishEqual
    | _, .nullLiteral => .ok .nullishEqual
    | _, _ => .error "unsupported envelope binary expression"
  | .inequality =>
    match left, right with
    | .nullLiteral, _ => .ok .nullishNotEqual
    | _, .nullLiteral => .ok .nullishNotEqual
    | _, _ => .error "unsupported envelope binary expression"
  | .addition => .ok .add
  | .other => .error "unsupported envelope binary expression"

/-- The key of a property, after the keys before it. -/
def PropertyHead.lowerKey (head : PropertyHead) (before : List String) : Except String String :=
  if head.isSpread then .error "spread in envelope projection"
  else
    match head.key with
    | none => .error "dynamic envelope key"
    | some name =>
      if name = "__proto__" || head.isComputed then
        .error "prototype setter or computed envelope key"
      else if name ∈ before then .error "duplicate envelope output key"
      else .ok name

/-! ### Expressions -/

namespace Lower

def localOf (L : Lower) (name : String) : Except String ℕ :=
  match L.locals.idxOf? name with
  | some i => .ok i
  | none => .error ("unbound envelope local " ++ name)

/-- The number of a name, which is given one at first sight. -/
def bind (L : Lower) (name : String) : ℕ × Lower :=
  match L.locals.idxOf? name with
  | some i => (i, L)
  | none => (L.locals.length, { L with locals := L.locals ++ [name] })

end Lower

mutual

def Lower.expr (L : Lower) : Expr → Except String GroupEnvelopeExpr
  | .stringLiteral s => .ok (.string s)
  | .numericLiteral n =>
    match n.integer with
    | some k => .ok (.integer k)
    | none => .error "unsupported envelope expression"
  | .identifier name =>
    if name = L.node then .ok .node
    else do
      let index ← L.localOf name
      .ok (.local index)
  | .nullLiteral => .ok .null
  | .booleanLiteral b => .ok (.bool b)
  | .parenthesized e => L.expr e
  | .unary .logicalNot argument => do
    let value ← L.expr argument
    .ok (.not value)
  | .unary .void argument =>
    if argument.asInt = some 0 then .ok .undefined
    else .error "unsupported envelope unary expression"
  | .unary .unaryNegation argument =>
    match (Expr.unary .unaryNegation argument).asInt with
    | some k => .ok (.integer k)
    | none => .error "unsupported envelope unary expression"
  | .unary .other _ => .error "unsupported envelope unary expression"
  | .binary operator left right => do
    let operator ← binaryOf left right operator
    let l ← L.expr left
    let r ← L.expr right
    .ok (.binary operator l r)
  | .logical operator left right =>
    match operator with
    | .and => do
      let l ← L.expr left
      let r ← L.expr right
      .ok (.logical .and l r)
    | .or => do
      let l ← L.expr left
      let r ← L.expr right
      .ok (.logical .or l r)
    | .coalesce => .error "unsupported logical operator"
  | .conditional test consequent alternate => do
    let condition ← L.expr test
    let thenValue ← L.expr consequent
    let elseValue ← L.expr alternate
    .ok (.conditional condition thenValue elseValue)
  | .assignment true (some target) right => do
    let index ← L.localOf target
    let value ← L.expr right
    .ok (.assign index value)
  | .assignment true none _ => .error "nonlocal assignment"
  | .assignment false _ _ => .error "unsupported envelope expression"
  | .sequence expressions => do
    let values ← L.exprs expressions
    .ok (.sequence values)
  | .object properties => do
    let fields ← L.fields properties []
    .ok (.object fields)
  | .call (.member receiver method) arguments =>
    if receiver.isIdentifier L.node then
      match arguments with
      | [.spread _] => .error "spread accessor argument"
      | [a] =>
        if method = "throw" then do
          let message ← L.expr a
          .ok (.reject message)
        else
          match a with
          | .stringLiteral name =>
            match readOf method with
            | some read => .ok (.read read name)
            | none => .error "unsupported envelope node operation"
          | _ => .error "dynamic wire attribute"
      | _ => .error "unsupported envelope accessor arity"
    else if method = "toJid" ∧ arguments.isEmpty then do
      let value ← L.expr receiver
      .ok (.convert .toJid value)
    else
      match importModule L.loaders receiver with
      | some module =>
        match factOf module method with
        | some fact =>
          if arguments.isEmpty then .ok (.context fact)
          else .error "context accessor arguments"
        | none =>
          match conversionOf module method with
          | none => .error ("unsupported envelope dependency " ++ module ++ "." ++ method)
          | some conversion =>
            match arguments with
            | [.spread _] => .error "spread conversion"
            | [a] => do
              let value ← L.expr a
              .ok (.convert conversion value)
            | _ => .error "conversion arity"
      | none => .error "unrecognized envelope call"
  | .call callee arguments =>
    if importModule L.loaders callee = some "isStringNullOrEmpty" then
      match arguments with
      | [.spread _] => .error "spread emptiness argument"
      | [a] => do
        let value ← L.expr a
        .ok (.isEmpty value)
      | _ => .error "unrecognized envelope call"
    else .error "unrecognized envelope call"
  | .array _ | .member _ _ | .function _ | .spread _ | .other =>
    .error "unsupported envelope expression"

def Lower.exprs (L : Lower) : List Expr → Except String (List GroupEnvelopeExpr)
  | [] => .ok []
  | e :: es => do
    let value ← L.expr e
    let values ← L.exprs es
    .ok (value :: values)

def Lower.fields (L : Lower) :
    List (PropertyHead × Expr) → List String → Except String (List (String × GroupEnvelopeExpr))
  | [], _ => .ok []
  | (head, e) :: properties, before => do
    let name ← head.lowerKey before
    let value ← L.expr e
    let rest ← L.fields properties (before ++ [name])
    .ok ((name, value) :: rest)

end

/-! ### Statements -/

/-- The texts of an array literal of texts. -/
def templateParts : List Expr → Except String (List String)
  | [] => .ok []
  | .stringLiteral s :: es => do
    let parts ← templateParts es
    .ok (s :: parts)
  | .spread _ :: _ => .error "sparse diagnostic template"
  | _ :: _ => .error "dynamic diagnostic template"

/-- The template that a first report puts into the cache. -/
def Lower.diagnosticTemplate (cache : String) (e : Expr) : Except String (List String) :=
  match e.withoutParentheses with
  | .assignment isPlain target right =>
    if isPlain && target = some cache then
      match right with
      | .call (.member owner method) arguments =>
        if owner.isIdentifier "babelHelpers" && method = "taggedTemplateLiteralLoose" then
          match arguments with
          | [.array elements] => templateParts elements
          | [.spread _] => .error "spread template"
          | [_] => .error "nonliteral template"
          | _ => .error "unrecognized diagnostic helper"
        else .error "unrecognized diagnostic helper"
      | .call _ _ => .error "diagnostic template method"
      | _ => .error "diagnostic template"
    else .error "diagnostic cache target"
  | _ => .error "diagnostic cache assignment"

/-- The text of the error: `getErrorSafe(error).toString()`. -/
def Lower.diagnosticError (L : Lower) (error : String) : Expr → Except String Unit
  | .call (.member (.call callee [argument]) "toString") [] =>
    if importModule L.loaders callee = some "getErrorSafe" && argument.isIdentifier error then
      .ok ()
    else .error "unrecognized diagnostic error conversion"
  | .call (.member (.call _ _) "toString") _ => .error "unrecognized diagnostic error conversion"
  | .call (.member _ "toString") _ => .error "unsafe diagnostic error"
  | .call (.member _ _) _ => .error "diagnostic error method"
  | .call _ _ => .error "diagnostic error string"
  | .spread _ => .error "spread diagnostic error"
  | _ => .error "formatted diagnostic error"

/-- `diagnostic`: the parts of the message of the one handler that is accepted. -/
def Lower.diagnostic (L : Lower) (error : String) : List Stmt → Except String (List String)
  | [.expressionStatement (.call (.member receiver method) [template, formatted])] =>
    if method ≠ "ERROR" then .error "non-error diagnostic"
    else if importModule L.loaders receiver ≠ some "WALogger" then
      .error "unrecognized catch diagnostic"
    else
      match template with
      | .logical .or (.identifier cache) right =>
        if cache ≠ L.diagnosticCache then
          .error "diagnostic cache is not the qualified module binding"
        else if cache ∈ L.locals ∨ cache = error then
          .error "diagnostic mutates envelope local"
        else do
          let parts ← diagnosticTemplate cache right
          L.diagnosticError error formatted
          .ok parts
      | .logical .or _ _ => .error "diagnostic cache binding"
      | .logical _ _ _ => .error "diagnostic template cache guard"
      | .spread _ => .error "spread diagnostic"
      | _ => .error "unrecognized diagnostic template cache"
  | [.expressionStatement (.call (.member _ method) _)] =>
    if method ≠ "ERROR" then .error "non-error diagnostic"
    else .error "unrecognized catch diagnostic"
  | [.expressionStatement (.call _ _)] => .error "diagnostic method"
  | [.expressionStatement _] => .error "non-call diagnostic"
  | _ => .error "nonlocal catch effects"

def Lower.declarations (L : Lower) :
    List (Option String × Option Expr) → Except String (List GroupEnvelopeOp × Lower)
  | [] => .ok ([], L)
  | (none, _) :: _ => .error "destructuring envelope variable"
  | (some name, none) :: declarations => do
    let (ops, L') ← (L.bind name).2.declarations declarations
    .ok (.bind (L.bind name).1 none :: ops, L')
  | (some name, some init) :: declarations => do
    let value ← (L.bind name).2.expr init
    let (ops, L') ← (L.bind name).2.declarations declarations
    .ok (.bind (L.bind name).1 (some value) :: ops, L')

mutual

def Lower.statement (L : Lower) : Stmt → Except String (List GroupEnvelopeOp × Lower)
  | .variableDeclaration isVar declarations =>
    if isVar then L.declarations declarations
    else .error "lexical envelope declaration unsupported"
  | .expressionStatement e => do
    let value ← L.expr e
    .ok ([.evaluate value], L)
  | .blockStatement body => L.statements body
  | .ifStatement test consequent none => do
    let condition ← L.expr test
    let (thenOps, L₁) ← L.statement consequent
    .ok ([.if condition thenOps []], L₁)
  | .ifStatement test consequent (some alternate) => do
    let condition ← L.expr test
    let (thenOps, L₁) ← L.statement consequent
    let (elseOps, L₂) ← L₁.statement alternate
    .ok ([.if condition thenOps elseOps], L₂)
  | .tryStatement block handler hasFinalizer =>
    -- One cache cannot hold the templates of two diagnostics.
    if L.diagnosticSeen then
      .error "multiple diagnostics require shared template-cache state"
    else if hasFinalizer then .error "envelope finally effects unsupported"
    else do
      let (body, L₁) ← { L with diagnosticSeen := true }.statements block
      match handler with
      | none => .error "try without local diagnostic"
      | some (none, _) => .error "missing diagnostic error binding"
      | some (some error, handlerBody) => do
        let messageParts ← L₁.diagnostic error handlerBody
        .ok ([.tryDiagnostic body messageParts], L₁)
  | .functionDeclaration _ | .returnStatement _ | .other =>
    .error "unsupported envelope statement"

def Lower.statements (L : Lower) : List Stmt → Except String (List GroupEnvelopeOp × Lower)
  | [] => .ok ([], L)
  | s :: ss => do
    let (ops, L₁) ← L.statement s
    let (rest, L₂) ← L₁.statements ss
    .ok (ops ++ rest, L₂)

end

/-! ### The callback -/

def hoistDeclarations (L : Lower) : List (Option String × Option Expr) → Except String Lower
  | [] => .ok L
  | (none, _) :: _ => .error "destructured envelope declaration"
  | (some name, _) :: declarations =>
    if name = L.node then .error "envelope parameter redeclaration"
    else hoistDeclarations (L.bind name).2 declarations

mutual

/-- `hoist`: number the names that a statement declares. -/
def hoist (L : Lower) : Stmt → Except String Lower
  | .variableDeclaration _ declarations => hoistDeclarations L declarations
  | .blockStatement body => hoistAll L body
  | .ifStatement _ consequent none => hoist L consequent
  | .ifStatement _ consequent (some alternate) => do
    let L₁ ← hoist L consequent
    hoist L₁ alternate
  | .tryStatement block none _ => hoistAll L block
  | .tryStatement block (some (_, handlerBody)) _ => do
    let L₁ ← hoistAll L block
    hoistAll L₁ handlerBody
  | _ => .ok L

def hoistAll (L : Lower) : List Stmt → Except String Lower
  | [] => .ok L
  | s :: ss => do
    let L₁ ← hoist L s
    hoistAll L₁ ss

end

/-- The checks of the source around the part that is compiled, by fingerprint or by the walks that
keep the parsers of the actions and their helpers from writing to it. -/
structure Qualification where
  moduleFrame : Function → Except String Unit
  rejectOptionalAccess : List Stmt → Except String Unit
  diagnosticCache : Except String String
  helpers : List Stmt → Except String (List String)
  capturedWrites : String → List String → Except String Unit
  /-- The tag of the marker arm, the prefix of the error of an unknown action, and the names the
  parsers of the actions refer to. -/
  dispatch : Region → Except String (String × String × List String)
  prefixBindings : List String → List String → Except String Unit

/-- The functions before the actions are helpers of theirs, and everything else is lowered. -/
def Lower.prefixOps (L : Lower) (q : Qualification) :
    List Stmt → Except String (List GroupEnvelopeOp × Lower)
  | [] => .ok ([], L)
  | .functionDeclaration none :: _ => .error "anonymous action helper declaration"
  | .functionDeclaration (some name) :: ss =>
    if name = L.node ∨ name ∈ L.locals ∨ name ∈ L.loaders then
      .error "action helper shadows envelope binding"
    else do
      q.capturedWrites name (L.locals ++ [L.node])
      L.prefixOps q ss
  | s :: ss => do
    let (ops, L₁) ← L.statement s
    let (rest, L₂) ← L₁.prefixOps q ss
    .ok (ops ++ rest, L₂)

/-- The function that is mapped over the children, in `node.mapChildren(…).filter(Boolean)`. -/
def actionsRegion (node : String) : Expr → Except String Region
  | .call (.member mapped "filter") arguments =>
    match arguments with
    | [.identifier "Boolean"] =>
      match mapped with
      | .call (.member receiver "mapChildren") [.function r] =>
        if receiver.isIdentifier node then .ok r else .error "action mapping receiver"
      | .call (.member receiver "mapChildren") [a] =>
        if receiver.isIdentifier node then
          match a with
          | .spread _ => .error "spread action callback"
          | _ => .error "non-function action callback"
        else .error "action mapping receiver"
      | .call (.member _ "mapChildren") _ => .error "action mapping receiver"
      | .call (.member _ _) _ => .error "action mapping method"
      | .call _ _ => .error "action mapping"
      | _ => .error "action map call"
    | _ => .error "non-Boolean action filtering"
  | .call (.member _ _) _ => .error "action filter method"
  | .call _ _ => .error "action filter"
  | _ => .error "action filter call"

/-- `split_last`. -/
def splitLast {α : Type} (xs : List α) : Option (α × List α) :=
  xs.getLast?.map fun x => (x, xs.dropLast)

/-- The statements before the projection, the actions among them, and the projection. -/
def splitBody (body : List Stmt) :
    Except String (List Stmt × Option String × Option String × Option Expr × Option Expr) :=
  match splitLast body with
  | none => .error "empty parser"
  | some (.returnStatement projection, before) =>
    match splitLast before with
    | none => .error "missing group actions"
    | some (.variableDeclaration isVar declarations, prefixStmts) =>
      match declarations with
      | [(marker, none), (result, actions)] =>
        if isVar then .ok (prefixStmts, marker, result, actions, projection)
        else .error "action boundary locals"
      | _ => .error "action boundary locals"
    | some _ => .error "non-variable action result"
  | some _ => .error "group parser has trailing effects"

/-- What follows the prefix: the locals of the marker and of the result, the region of the actions,
and the projection. -/
def Lower.finish (L : Lower) (q : Qualification) (ops : List GroupEnvelopeOp)
    (opaqueReferences : List String) (marker result : String) (actions : Expr)
    (projection : Option Expr) : Except String (GroupEnvelopeContract × Region × List String) := do
  let (markerLocal, L) := L.bind marker
  let (resultLocal, L) := L.bind result
  let region ← actionsRegion L.node actions
  if region.marker ≠ marker then .error "marker changes action semantics"
  else do
    let (tag, errorPrefix, references) ← q.dispatch region
    q.prefixBindings L.locals (opaqueReferences ++ references)
    match projection with
    | none => .error "empty envelope projection"
    | some projection => do
      let program ← L.expr projection
      match program with
      | .object _ =>
        .ok (⟨L.locals.length, ops, ⟨resultLocal, markerLocal, tag, errorPrefix⟩, program⟩,
          region, L.locals)
      | _ => .error "non-object envelope projection"

/-- `lower_callback`: the program of a callback, and the region it leaves to others with the locals
of its names. -/
def lowerCallback (q : Qualification) (loaders : List String) (f : Function) :
    Except String (GroupEnvelopeContract × Region × List String) := do
  q.moduleFrame f
  q.rejectOptionalAccess f.body
  match f.parameter with
  | none => .error "missing group parser parameter"
  | some node =>
    if f.isPlain 1 then do
      let cache ← q.diagnosticCache
      let (before, marker, result, actions, projection) ← splitBody f.body
      let opaqueReferences ← q.helpers before
      let hoisted ← hoistAll ⟨node, loaders, [], false, cache⟩ f.body.dropLast
      let L : Lower :=
        { hoisted with loaders := loaders.filter fun l => l ≠ node ∧ l ∉ hoisted.locals }
      let (ops, L) ← L.prefixOps q before
      match marker, result, actions with
      | none, _, _ => .error "marker local"
      | _, none, _ => .error "actions local"
      | _, _, none => .error "missing action expression"
      | some marker, some result, some actions =>
        L.finish q ops opaqueReferences marker result actions projection
    else .error "group parser arity"

end Whatspec.Notif.Envelope

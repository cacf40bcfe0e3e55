import Whatspec.Notif.UnlinkHelper

/-!
# Running the unlink helper

What the helper does as JavaScript on the node of a notification.  The payload of the groups is
one opaque value, the objects of the bundle's constants are the ones `Constants` reads, and what
`Object.prototype` holds under its own names is `inherited`.

* `Expr.run` and `Stmt.run` are the language, with `var` names hoisted; a form whose meaning is
  not modelled, and an accessor that throws, have no result;
* `Helper.run` is a call of the helper: the reads and calls it makes, in order, and its value.
-/

namespace Whatspec.Notif.Unlink

inductive JsValue where
  | text (s : String)
  | null
  | undefined
  | bool (b : Bool)
  | object (fields : List (String × JsValue))
  | groups
  | node
  | inherited

/-- What a run of the helper does outside its variables. -/
inductive Effect where
  | read (r : Read)
  | warn (template : List String) (argument : JsValue)
  | sendLogs (event : String)

/-- The attributes of the node. -/
structure Attributes where
  unlinkType : String
  unlinkReason : Option String
  deriving DecidableEq

structure Frame where
  vars : String → Option JsValue
  effects : List Effect

def Frame.did (φ : Frame) (e : Effect) : Frame := { φ with effects := φ.effects ++ [e] }

def JsValue.truthy : JsValue → Bool
  | .text s => s ≠ ""
  | .null | .undefined => false
  | .bool b => b
  | .object _ | .groups | .node | .inherited => true

def JsValue.isNullish : JsValue → Bool
  | .null | .undefined => true
  | _ => false

def JsValue.isReference : JsValue → Bool
  | .object _ | .groups | .node | .inherited => true
  | _ => false

/-- `left === right`.  Two objects are equal when they are the same one, which values alone do not
say. -/
def JsValue.strictEquals : JsValue → JsValue → Option Bool
  | .text a, .text b => some (a = b)
  | .null, .null => some true
  | .undefined, .undefined => some true
  | .bool a, .bool b => some (a = b)
  | a, b => if a.isReference && b.isReference then none else some false

/-- Put a property on an object. -/
def setField (fields : List (String × JsValue)) (key : String) (v : JsValue) :
    List (String × JsValue) :=
  if (fields.lookup key).isSome then
    fields.map fun field => if field.1 = key then (key, v) else field
  else fields ++ [(key, v)]

/-- Read a property of a plain object. -/
def getField (fields : List (String × JsValue)) (key : String) : JsValue :=
  match fields.lookup key with
  | some v => v
  | none => if key ∈ objectPrototypeKeys then .inherited else .undefined

/-- An accessor of the node.  A required attribute that is absent throws. -/
def Frame.access (n : Attributes) (c : AccessorCall) (φ : Frame) : Option (JsValue × Frame) := do
  let .node ← c.receiver.bind φ.vars | none
  let method ← c.method
  let attr ← c.attr
  if method = "attrString" ∧ attr = "unlink_type" ∧ c.argumentCount = 1 then
    some (.text n.unlinkType, φ.did (.read .type))
  else if method = "hasAttr" ∧ attr = "unlink_reason" ∧ c.argumentCount = 1 then
    some (.bool n.unlinkReason.isSome, φ.did (.read .hasReason))
  else if method = "attrString" ∧ attr = "unlink_reason" ∧ c.argumentCount = 1 then
    n.unlinkReason.map fun reason => (.text reason, φ.did (.read .reason))
  else if method = "mapChildrenWithTag" ∧ attr = "group" ∧ c.argumentCount = 2 ∧ c.validGroups then
    some (.groups, φ.did (.read .groups))
  else none

mutual

/-- An expression: its value, and what evaluating it did. -/
def Expr.run (constants : Constants) (n : Attributes) : Expr → Frame → Option (JsValue × Frame)
  | .parenthesized e, φ => e.run constants n φ
  | .stringLiteral s, φ => some (.text s, φ)
  | .constant r, φ => do
    -- A loader that the helper binds itself is not the module loader.
    let loader ← r.loader
    if (φ.vars loader).isSome ∨ r.argumentCount ≠ 1 then none
    else
      let text ← constants.resolve r
      some (.text text, φ)
  | .nullLiteral, φ => some (.null, φ)
  | .identifier x, φ => (φ.vars x).map fun v => (v, φ)
  | .conditional test consequent alternate, φ => do
    let (v, φ) ← test.run constants n φ
    if v.truthy then consequent.run constants n φ else alternate.run constants n φ
  | .equalsNull left, φ => do
    let (v, φ) ← left.run constants n φ
    some (.bool v.isNullish, φ)
  | .strictEquality left right, φ => do
    let (l, φ) ← left.run constants n φ
    let (r, φ) ← right.run constants n φ
    let b ← l.strictEquals r
    some (.bool b, φ)
  | .object properties, φ => do
    let (fields, φ) ← runProperties constants n properties [] φ
    some (.object fields, φ)
  | .computedMember object key, φ => do
    let (o, φ) ← object.run constants n φ
    let (k, φ) ← key.run constants n φ
    match o, k with
    | .object fields, .text key => some (getField fields key, φ)
    | _, _ => none
  | .call c, φ => φ.access n c
  | .warning w, φ => do
    if w.captures.any fun x => (φ.vars x).isSome then none
    else
      let v ← φ.vars w.argument
      some (.null, (φ.did (.warn w.warning.template v)).did (.sendLogs w.warning.event))
  | .other, _ => none

/-- The properties of an object literal, put on it in source order. -/
def runProperties (constants : Constants) (n : Attributes) :
    List (PropertyHead × Expr) → List (String × JsValue) → Frame →
      Option (List (String × JsValue) × Frame)
  | [], fields, φ => some (fields, φ)
  | (head, e) :: rest, fields, φ => do
    let key ← head.key
    -- Spread, computed and method properties and a prototype are not modelled.
    if head.isSpread ∨ head.isComputed ∨ head.isMethod ∨ key = "__proto__" then none
    else
      let (v, φ) ← e.run constants n φ
      runProperties constants n rest (setField fields key v) φ

end

/-- The bindings of one `var`; one without a value leaves its variable as it is. -/
def runDeclarations (constants : Constants) (n : Attributes) :
    List (Option String × Option Expr) → Frame → Option Frame
  | [], φ => some φ
  | (id, init) :: rest, φ => do
    let name ← id
    match init with
    | none => runDeclarations constants n rest φ
    | some e =>
      let (v, φ) ← e.run constants n φ
      runDeclarations constants n rest { φ with vars := Function.update φ.vars name (some v) }

mutual

/-- A statement: the value it returns, when it returns. -/
def Stmt.run (constants : Constants) (n : Attributes) :
    Stmt → Frame → Option (Option JsValue × Frame)
  | .variableDeclaration isVar declarations, φ =>
    if isVar then (runDeclarations constants n declarations φ).map fun φ => (none, φ) else none
  | .returnStatement none, φ => some (some .undefined, φ)
  | .returnStatement (some e), φ => do
    let (v, φ) ← e.run constants n φ
    some (some v, φ)
  | .blockStatement body, φ => runStatements constants n body φ
  | .ifStatement test consequent alternate, φ => do
    let (v, φ) ← test.run constants n φ
    if v.truthy then consequent.run constants n φ
    else
      match alternate with
      | some s => s.run constants n φ
      | none => some (none, φ)
  | .other, _ => none

def runStatements (constants : Constants) (n : Attributes) :
    List Stmt → Frame → Option (Option JsValue × Frame)
  | [], φ => some (none, φ)
  | s :: ss, φ => do
    let (v, φ) ← s.run constants n φ
    match v with
    | some v => some (some v, φ)
    | none => runStatements constants n ss φ

end

/-- The state in which a body runs: the node, and every `var` of the body without a value. -/
def Frame.initial (param : String) (body : List Stmt) : Frame where
  vars x := if x = param then some .node else if x ∈ bindings body then some .undefined else none
  effects := []

/-- What a call of the helper did, and its value. -/
structure HelperRun where
  effects : List Effect
  value : JsValue

/-- A call of the helper on a node. -/
def Helper.run (constants : Constants) (f : Helper) (n : Attributes) : Option HelperRun :=
  match f.parameters with
  | [⟨some param, false⟩] =>
    if f.isAsync || f.isGenerator || f.hasRest then none
    else do
      let (v, φ) ← runStatements constants n f.body (.initial param f.body)
      some ⟨φ.effects, v.getD .undefined⟩
  | _ => none

/-! ### What the helper decides -/

/-- What an UNLINK notification is normalized to. -/
inductive Decision where
  | action (actionType : String)
  | noAction
  | inheritedAction
  | rejectedType (warning : UnknownTypeWarning)
  deriving DecidableEq

/-- What a run of the helper on a node amounts to: it reads the payload in order, and either warns
of the type and returns null, or returns the groups with an action type. -/
inductive HelperRun.Decides (n : Attributes) : HelperRun → Decision → Prop where
  | object {fields : List (String × JsValue)} {a : JsValue} {d : Decision}
      (groups : fields.lookup "groupDatas" = some .groups)
      (action : fields.lookup "actionType" = some a)
      (only : ∀ key ∈ fields.map Prod.fst, key = "groupDatas" ∨ key = "actionType")
      (decides : match a, d with
        | .text s, .action t => s = t
        | .null, .noAction => True
        | .undefined, .noAction => True
        | .inherited, .inheritedAction => True
        | _, _ => False) :
      Decides n ⟨(expectedReads n.unlinkReason.isSome).map .read, .object fields⟩ d
  | warned (w : UnknownTypeWarning) :
      Decides n ⟨(expectedReads n.unlinkReason.isSome).map .read ++
        [.warn w.template (.text n.unlinkType), .sendLogs w.event], .null⟩ (.rejectedType w)

/-- What a row says. -/
def GroupUnlinkRow.decides (r : GroupUnlinkRow) : Decision :=
  match r.nullResult, r.unsupportedAction, r.actionType with
  | some w, _, _ => .rejectedType w
  | none, true, _ => .inheritedAction
  | none, false, some t => .action t
  | none, false, none => .noAction

end Whatspec.Notif.Unlink

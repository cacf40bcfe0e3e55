import Whatspec.Library.Binary64
import Whatspec.Library.Coupling

/-!
# The program of the group envelope

The parser of a group notification checks the notification before it looks at the actions inside,
and projects what it has read.  That part is published as a program of numbered locals.

* `Value` are the values it works on, and `World` all that lies outside: the accessors of the node,
  the functions of other modules and the parsers of the actions, which may answer anything and
  depend on all calls before;
* `GroupEnvelopeExpr`, `GroupEnvelopeOp` and `GroupEnvelopeContract` are the program;
* `GroupEnvelopeContract.run` is what it does: the calls it makes, and the object it ends with or
  the error it rejects with.
-/

namespace Whatspec.Notif.Envelope

open Whatspec.Library

/-! ### Values -/

/-- The region of a function the program leaves to others: its place in the source, the captured
variable it marks, and the variables it captures.  A function has `arguments` of its own. -/
structure Region where
  start : ℕ
  marker : String
  captures : List String
  ownArguments : "arguments" ∉ captures

inductive Value where
  | undefined
  | null
  | bool (b : Bool)
  | number (n : Binary64.Word)
  | text (s : String)
  /-- The notification. -/
  | node
  /-- What a module exports. -/
  | module (name : String)
  /-- A function that loads modules. -/
  | loader (index : ℕ)
  | global (name : String)
  /-- A function that only the parsers of the actions call. -/
  | helper (name : String)
  | region (r : Region)
  /-- An array of texts. -/
  | template (parts : List String)
  | object (identity : ℕ) (fields : List (String × Value))
  /-- Any other object, known by its identity. -/
  | host (identity : ℕ)

namespace Value

def truthy : Value → Bool
  | .undefined | .null => false
  | .bool b => b
  | .number n => Binary64.value n ≠ .finite 0 && Binary64.value n ≠ .nan
  | .text s => s ≠ ""
  | _ => true

def nullish : Value → Bool
  | .undefined | .null => true
  | _ => false

/-- The operator `===`. -/
def strictEqual : Value → Value → Bool
  | .undefined, .undefined | .null, .null | .node, .node => true
  | .bool a, .bool b => a = b
  | .number m, .number n => Binary64.eq m n
  | .text s, .text t => s = t
  | .module a, .module b => a = b
  | .loader a, .loader b => a = b
  | .global a, .global b => a = b
  | .helper a, .helper b => a = b
  | .region a, .region b => a.start = b.start
  | .template a, .template b => a = b
  | .object a _, .object b _ => a = b
  | .host a, .host b => a = b
  | _, _ => false

end Value

/-! ### The world -/

/-- A call of something outside. -/
inductive Call where
  | method (receiver : Value) (name : String) (arguments : List Value)
  | function (f : Value) (arguments : List Value)
  /-- The addition of two values of which one is not a text, which may convert them. -/
  | add (left right : Value)
  /-- The parsers of the actions, with what the variables they capture hold. -/
  | actions (start : ℕ) (captured : List (Option Value))

/-- What the parsers of the actions do: they may set the marker, and give the actions or throw. -/
structure ActionsAnswer where
  marker : Option Value
  outcome : Except Value Value

/-- What lies outside the envelope. -/
structure World where
  /-- What a call gives after the calls made before, or the value it throws. -/
  answer : List Call → Call → Except Value Value
  actions : List Call → ℕ → List (Option Value) → ActionsAnswer
  /-- What a loader hands out for the name of a module. -/
  load : ℕ → String → Value
  /-- The error that the node makes of a message. -/
  parseError : Value → Value
  /-- The error of a method of nothing. -/
  typeError : Value
  /-- What the name `arguments` holds on entry. -/
  argumentsObject : Value

/-- What the envelope relies on: each of the three loaders hands out the module that is asked for,
and the node's own `throw` throws. -/
structure World.Qualified (W : World) : Prop where
  load : ∀ i < 3, ∀ name, W.load i name = .module name
  throws : ∀ calls message,
    W.answer calls (.method .node "throw" [message]) = .error (W.parseError message)

/-- The state of a run: its variables, the identity of the next object, and the calls made. -/
structure Machine (μ : Type) where
  memory : μ
  fresh : ℕ
  calls : List Call

section Calls

variable {μ ε : Type} (W : World) (thrown : Value → ε)

/-- Call something outside. -/
def callOutside (c : Call) : Comp (Machine μ) ε Value := fun m =>
  (match W.answer m.calls c with
    | .ok v => .ok v
    | .error e => .error (thrown e),
    { m with calls := m.calls ++ [c] })

/-- Call a method, which nothing has none of. -/
def callMethod (receiver : Value) (name : String) (arguments : List Value) :
    Comp (Machine μ) ε Value :=
  if receiver.nullish then Comp.throw (thrown W.typeError)
  else callOutside W thrown (.method receiver name arguments)

/-- The operator `+`. -/
def addValues : Value → Value → Comp (Machine μ) ε Value
  | .text s, .text t => pure (.text (s ++ t))
  | v, w => callOutside W thrown (.add v w)

/-- A new object. -/
def newObject (fields : List (String × Value)) : Comp (Machine μ) ε Value := fun m =>
  (.ok (.object m.fresh fields), { m with fresh := m.fresh + 1 })

/-- Hand over to the parsers of the actions. -/
def callActions (start : ℕ) (captured : List (Option Value)) :
    Comp (Machine μ) ε ActionsAnswer := fun m =>
  (.ok (W.actions m.calls start captured),
    { m with calls := m.calls ++ [.actions start captured] })

end Calls

/-! ### The program -/

inductive GroupEnvelopeContextFact where
  | meDeviceLid
  | maybeMeDevicePn
  | usernameDisplayed
  deriving DecidableEq

inductive GroupEnvelopeRead where
  | assertTag
  | hasAttr
  | attrString
  | attrGroupJid
  | attrUserJid
  | maybeAttrPhoneUserJid
  | attrTime
  | maybeAttrString
  deriving DecidableEq

inductive GroupEnvelopeConversion where
  | groupJidToWid
  | userJidToUserWid
  | asIsoCountryCode
  | toJid
  deriving DecidableEq

inductive GroupEnvelopeBinary where
  | strictEqual
  | strictNotEqual
  | nullishEqual
  | nullishNotEqual
  | add
  deriving DecidableEq

inductive GroupEnvelopeLogical where
  | and
  | or
  deriving DecidableEq

inductive GroupEnvelopeExpr where
  | node
  | local (index : ℕ)
  | string (value : String)
  | integer (value : ℤ)
  | bool (value : Bool)
  | null
  | undefined
  | context (fact : GroupEnvelopeContextFact)
  | read (method : GroupEnvelopeRead) (name : String)
  | convert (conversion : GroupEnvelopeConversion) (value : GroupEnvelopeExpr)
  | isEmpty (value : GroupEnvelopeExpr)
  | not (value : GroupEnvelopeExpr)
  | binary (operator : GroupEnvelopeBinary) (left right : GroupEnvelopeExpr)
  | logical (operator : GroupEnvelopeLogical) (left right : GroupEnvelopeExpr)
  | conditional (condition thenValue elseValue : GroupEnvelopeExpr)
  | assign (index : ℕ) (value : GroupEnvelopeExpr)
  | sequence (values : List GroupEnvelopeExpr)
  | reject (message : GroupEnvelopeExpr)
  | object (fields : List (String × GroupEnvelopeExpr))

inductive GroupEnvelopeOp where
  | bind (index : ℕ) (value : Option GroupEnvelopeExpr)
  | evaluate (value : GroupEnvelopeExpr)
  | if (condition : GroupEnvelopeExpr) (thenOps elseOps : List GroupEnvelopeOp)
  | tryDiagnostic (body : List GroupEnvelopeOp) (messageParts : List String)

structure GroupEnvelopeActions where
  resultLocal : ℕ
  missingIdentificationLocal : ℕ
  missingIdentificationTag : String
  unknownActionErrorPrefix : String

structure GroupEnvelopeContract where
  locals : ℕ
  prefixOps : List GroupEnvelopeOp
  actions : GroupEnvelopeActions
  projection : GroupEnvelopeExpr

/-! ### Runs -/

/-- The node's accessor of a read. -/
def GroupEnvelopeRead.accessor : GroupEnvelopeRead → String
  | .assertTag => "assertTag"
  | .hasAttr => "hasAttr"
  | .attrString => "attrString"
  | .attrGroupJid => "attrGroupJid"
  | .attrUserJid => "attrUserJid"
  | .maybeAttrPhoneUserJid => "maybeAttrPhoneUserJid"
  | .attrTime => "attrTime"
  | .maybeAttrString => "maybeAttrString"

/-- The module and the function of a context fact. -/
def GroupEnvelopeContextFact.source : GroupEnvelopeContextFact → String × String
  | .meDeviceLid => ("WAWebUserPrefsMeUser", "getMeDeviceLidOrThrow")
  | .maybeMeDevicePn => ("WAWebUserPrefsMeUser", "getMaybeMeDevicePn")
  | .usernameDisplayed => ("WAWebUsernameGatingUtils", "usernameDisplayedEnabled")

/-- A part of a run: it gives a value, or ends with the error thrown. -/
abbrev Ir (α : Type) := Comp (Machine (ℕ → Value)) Value α

namespace Ir

variable (W : World)

def getLocal (i : ℕ) : Ir Value := do
  let m ← Comp.get
  pure (m.memory i)

def setLocal (i : ℕ) (v : Value) : Ir Unit :=
  Comp.modify fun m => { m with memory := Function.update m.memory i v }

/-- Apply a conversion: one is a method of the value, the others are functions of modules. -/
def convert : GroupEnvelopeConversion → Value → Ir Value
  | .toJid, v => callMethod W id v "toJid" []
  | .groupJidToWid, v => callMethod W id (.module "WAWebJidToWid") "groupJidToWid" [v]
  | .userJidToUserWid, v => callMethod W id (.module "WAWebJidToWid") "userJidToUserWid" [v]
  | .asIsoCountryCode, v =>
    callMethod W id (.module "WAWebAsISOCountryCode") "asISOCountryCode" [v]

def binary : GroupEnvelopeBinary → Value → Value → Ir Value
  | .strictEqual, v, w => pure (.bool (v.strictEqual w))
  | .strictNotEqual, v, w => pure (.bool !v.strictEqual w)
  | .nullishEqual, v, w => pure (.bool (v.nullish && w.nullish))
  | .nullishNotEqual, v, w => pure (.bool !(v.nullish && w.nullish))
  | .add, v, w => addValues W id v w

/-- Reject with a message. -/
def reject (message : Value) : Ir Value := do
  let _ ← callMethod W id .node "throw" [message]
  Comp.throw (W.parseError message)

/-- Report an error. -/
def diagnose (messageParts : List String) (error : Value) : Ir Unit := do
  let safe ← callOutside W id (.function (.module "getErrorSafe") [error])
  let text ← callMethod W id safe "toString" []
  let _ ← callMethod W id (.module "WALogger") "ERROR" [.template messageParts, text]
  pure ()

/-- Run, and go on with what is thrown. -/
def catchThrown {α : Type} (x : Ir α) (handler : Value → Ir α) : Ir α := fun m =>
  match x m with
  | (.error e, m') => handler e m'
  | r => r

end Ir

mutual

def GroupEnvelopeExpr.run (W : World) : GroupEnvelopeExpr → Ir Value
  | .node => pure .node
  | .local index => Ir.getLocal index
  | .string value => pure (.text value)
  | .integer value => pure (.number (Binary64.ofInt value))
  | .bool value => pure (.bool value)
  | .null => pure .null
  | .undefined => pure .undefined
  | .context fact => callMethod W id (.module fact.source.1) fact.source.2 []
  | .read method name => callMethod W id .node method.accessor [.text name]
  | .convert conversion value => do
    let v ← value.run W
    Ir.convert W conversion v
  | .isEmpty value => do
    let v ← value.run W
    callOutside W id (.function (.module "isStringNullOrEmpty") [v])
  | .not value => do
    let v ← value.run W
    pure (.bool !v.truthy)
  | .binary operator left right => do
    let v ← left.run W
    let w ← right.run W
    Ir.binary W operator v w
  | .logical .and left right => do
    let v ← left.run W
    if v.truthy then right.run W else pure v
  | .logical .or left right => do
    let v ← left.run W
    if v.truthy then pure v else right.run W
  | .conditional condition thenValue elseValue => do
    let v ← condition.run W
    if v.truthy then thenValue.run W else elseValue.run W
  | .assign index value => do
    let v ← value.run W
    Ir.setLocal index v
    pure v
  | .sequence values => do
    let vs ← runValues W values
    pure (vs.getLastD .undefined)
  | .reject message => do
    let v ← message.run W
    Ir.reject W v
  | .object fields => do
    let vs ← runFields W fields
    newObject vs

def runValues (W : World) : List GroupEnvelopeExpr → Ir (List Value)
  | [] => pure []
  | e :: es => do
    let v ← e.run W
    let vs ← runValues W es
    pure (v :: vs)

def runFields (W : World) : List (String × GroupEnvelopeExpr) → Ir (List (String × Value))
  | [] => pure []
  | (name, e) :: fields => do
    let v ← e.run W
    let vs ← runFields W fields
    pure ((name, v) :: vs)

end

mutual

def GroupEnvelopeOp.run (W : World) : GroupEnvelopeOp → Ir Unit
  | .bind _ none => pure ()
  | .bind index (some value) => do
    let v ← value.run W
    Ir.setLocal index v
  | .evaluate value => do
    let _ ← value.run W
    pure ()
  | .if condition thenOps elseOps => do
    let v ← condition.run W
    if v.truthy then runOps W thenOps else runOps W elseOps
  | .tryDiagnostic body messageParts =>
    Ir.catchThrown (runOps W body) (Ir.diagnose W messageParts)

def runOps (W : World) : List GroupEnvelopeOp → Ir Unit
  | [] => pure ()
  | op :: ops => do
    op.run W
    runOps W ops

end

attribute [simp] GroupEnvelopeExpr.run runValues runFields GroupEnvelopeOp.run runOps

/-- The parsers of the actions: `slot` is the local of a captured variable, and one may be marked. -/
def Ir.mapChildren (W : World) (region : Region) (slot : String → Option ℕ) (marker : ℕ) :
    Ir Value := do
  let m ← Comp.get
  let answer ← callActions W region.start
    (region.captures.map fun x => (slot x).map m.memory)
  match answer.marker with
  | some v => Ir.setLocal marker v
  | none => pure ()
  Comp.ofExcept answer.outcome

def GroupEnvelopeActions.run (W : World) (actions : GroupEnvelopeActions) (region : Region)
    (slot : String → Option ℕ) : Ir Unit := do
  let mapped ← Ir.mapChildren W region slot actions.missingIdentificationLocal
  let filtered ← callMethod W id mapped "filter" [.global "Boolean"]
  Ir.setLocal actions.resultLocal filtered

/-- A run on a node: the calls made, and the object projected or the error rejected with. -/
def GroupEnvelopeContract.run (W : World) (contract : GroupEnvelopeContract) (region : Region)
    (slot : String → Option ℕ) : Except Value Value × List Call :=
  let program : Ir Value := do
    runOps W contract.prefixOps
    contract.actions.run W region slot
    contract.projection.run W
  let (result, m) := program ⟨fun _ => .undefined, 0, []⟩
  (result, m.calls)

end Whatspec.Notif.Envelope

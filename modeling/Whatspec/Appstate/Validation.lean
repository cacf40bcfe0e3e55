import Whatspec.Appstate.Value

/-!
# Programs of the server-sync boundary

A validator is lowered to a program of a closed vocabulary: expressions over arguments and
numbered slots, and statements that bind a slot, branch, evaluate, end fatally or return.

* `ValidationExpression.evaluate` and `evaluateStatements` say what a program means: the slots a
  callback binds are its own, fresh on each call, and its item is argument 3;
* `ValidationFunction.run` is a whole run.
-/

namespace Whatspec.Appstate

open Whatspec.Library

/-- A function of the closed dependency vocabulary. -/
inductive ValidationTransform where
  | safeInteger
  | syncKeyId
  | decodePatchDebugData
  | decodeSyncActionData
  | maybeNumber
  deriving DecidableEq

mutual

inductive ValidationExpression where
  | argument (index : ℕ)
  | slot (index : ℕ)
  | undefined
  | null
  | integer (value : ℤ)
  | string (value : String)
  | field (object : ValidationExpression) (field : String)
  | not (value : ValidationExpression)
  | and (left right : ValidationExpression)
  | or (left right : ValidationExpression)
  | nullish (value : ValidationExpression) (negate : Bool)
  | greater (left right : ValidationExpression)
  | choose (condition yes no : ValidationExpression)
  | assign (slot : ℕ) (value : ValidationExpression)
  | sequence (values : List ValidationExpression)
  | object (fields : List (String × ValidationExpression))
  | map (input : ValidationExpression) (body : List ValidationStatement)
  | validate (validator : String) (arguments : List ValidationExpression)
  | transform (transform : ValidationTransform) (arguments : List ValidationExpression)
  | metric (name : String)

inductive ValidationStatement where
  | bind (slot : ℕ) (value : ValidationExpression)
  | if (condition : ValidationExpression) (yes no : List ValidationStatement)
  | evaluate (value : ValidationExpression)
  | fatal (metric : ValidationExpression) (message : String)
  | return (value : ValidationExpression)

end

structure ValidationFunction where
  parameters : ℕ
  body : List ValidationStatement

/-- The function a transform stands for. -/
def ValidationTransform.callee : ValidationTransform → Callee
  | .safeInteger => .dependency "WALongInt" "numberOrThrowIfTooLarge"
  | .syncKeyId => .dependency "WASyncdKeyTypes" "toSyncKeyId"
  | .decodePatchDebugData => .dependency "decodeProtobuf" "decodeProtobuf"
  | .decodeSyncActionData => .dependency "decodeProtobuf" "decodeProtobuf"
  | .maybeNumber => .dependency "WALongInt" "maybeNumberOrThrowIfTooLarge"

/-- The argument a transform supplies of its own: what to decode. -/
def ValidationTransform.specification (W : World) : ValidationTransform → List Value
  | .decodePatchDebugData => [W.exported "WAWebProtobufSyncAction.pb" "PatchDebugDataSpec"]
  | .decodeSyncActionData => [W.exported "WAWebProtobufSyncAction.pb" "SyncActionDataSpec"]
  | _ => []

def ValidationTransform.call (W : World) (t : ValidationTransform) (arguments : List Value) :
    Run (ℕ → Value) Value :=
  Run.call W t.callee (t.specification W ++ arguments)

mutual

/-- The slots that a list of statements binds. -/
def ownedSlots : List ValidationStatement → List ℕ
  | [] => []
  | s :: ss => s.ownedSlots ++ ownedSlots ss

def ValidationStatement.ownedSlots : ValidationStatement → List ℕ
  | .bind slot _ => [slot]
  | .if _ yes no => Whatspec.Appstate.ownedSlots yes ++ Whatspec.Appstate.ownedSlots no
  | _ => []

end

/-- The slots with some of them undefined. -/
def clearSlots (owned : List ℕ) (slots : ℕ → Value) : ℕ → Value := fun i =>
  if i ∈ owned then .undefined else slots i

/-- The slots with some of them as they were. -/
def restoreSlots (owned : List ℕ) (old slots : ℕ → Value) : ℕ → Value := fun i =>
  if i ∈ owned then old i else slots i

/-- Run with slots of one's own. -/
def withSlots {α : Type} (owned : List ℕ) (x : Run (ℕ → Value) α) : Run (ℕ → Value) α := do
  let m ← Comp.get
  Run.change (clearSlots owned)
  let a ← x
  Run.change (restoreSlots owned m.memory)
  pure a

mutual

def ValidationExpression.evaluate (W : World) :
    ValidationExpression → (ℕ → Value) → Run (ℕ → Value) Value
  | .argument index, env => pure (env index)
  | .slot index, _ => do
    let m ← Comp.get
    pure (m.memory index)
  | .undefined, _ => pure .undefined
  | .null, _ => pure .null
  | .integer value, _ => pure (.number (Binary64.ofInt value))
  | .string value, _ => pure (.text value)
  | .field object field, env => do
    let v ← object.evaluate W env
    Comp.ofExcept (v.field field)
  | .not value, env => do
    let v ← value.evaluate W env
    pure (.bool !v.truthy)
  | .and left right, env => do
    let v ← left.evaluate W env
    if v.truthy then right.evaluate W env else pure v
  | .or left right, env => do
    let v ← left.evaluate W env
    if v.truthy then pure v else right.evaluate W env
  | .nullish value negate, env => do
    let v ← value.evaluate W env
    pure (.bool (v.nullish != negate))
  | .greater left right, env => do
    let v ← left.evaluate W env
    let w ← right.evaluate W env
    pure (.bool (W.greaterThan v w))
  | .choose condition yes no, env => do
    let v ← condition.evaluate W env
    if v.truthy then yes.evaluate W env else no.evaluate W env
  | .assign slot value, env => do
    let v ← value.evaluate W env
    Run.change fun slots => Function.update slots slot v
    pure v
  | .sequence values, env => do
    let vs ← evaluateAll W values env
    pure (vs.getLastD .undefined)
  | .object fields, env => do
    let vs ← evaluateFields W fields env
    pure (.object vs)
  | .map input body, env => do
    let v ← input.evaluate W env
    let items ← Comp.ofExcept v.items
    let mapped ← Comp.traverse (fun item => withSlots (ownedSlots body) do
      let returned ← evaluateStatements W body (Function.update env 3 item)
      pure (returned.getD .undefined)) items
    pure (.array mapped)
  | .validate validator arguments, env => do
    let vs ← evaluateAll W arguments env
    Run.call W (.validator validator) vs
  | .transform transform arguments, env => do
    let vs ← evaluateAll W arguments env
    transform.call W vs
  | .metric name, _ => pure (.text name)

def evaluateAll (W : World) :
    List ValidationExpression → (ℕ → Value) → Run (ℕ → Value) (List Value)
  | [], _ => pure []
  | e :: es, env => do
    let v ← e.evaluate W env
    let vs ← evaluateAll W es env
    pure (v :: vs)

def evaluateFields (W : World) : List (String × ValidationExpression) → (ℕ → Value) →
    Run (ℕ → Value) (List (String × Value))
  | [], _ => pure []
  | (key, e) :: fields, env => do
    let v ← e.evaluate W env
    let vs ← evaluateFields W fields env
    pure ((key, v) :: vs)

/-- What a statement returns, if it returns. -/
def ValidationStatement.evaluated (W : World) :
    ValidationStatement → (ℕ → Value) → Run (ℕ → Value) (Option Value)
  | .bind slot value, env => do
    let v ← value.evaluate W env
    Run.change fun slots => Function.update slots slot v
    pure none
  | .if condition yes no, env => do
    let v ← condition.evaluate W env
    if v.truthy then evaluateStatements W yes env else evaluateStatements W no env
  | .evaluate value, env => do
    let _ ← value.evaluate W env
    pure none
  | .fatal metric message, env => do
    let v ← metric.evaluate W env
    Comp.throw (.fatal v (.object [("collection", env 0)]) message)
  | .return value, env => do
    let v ← value.evaluate W env
    pure (some v)

def evaluateStatements (W : World) :
    List ValidationStatement → (ℕ → Value) → Run (ℕ → Value) (Option Value)
  | [], _ => pure none
  | s :: ss, env => do
    let returned ← s.evaluated W env
    match returned with
    | some v => pure (some v)
    | none => evaluateStatements W ss env

end

attribute [simp] ValidationExpression.evaluate evaluateAll evaluateFields
  ValidationStatement.evaluated evaluateStatements

/-- A run of a program.  What runs off its end returns nothing. -/
def ValidationFunction.run (W : World) (f : ValidationFunction) (arguments : ℕ → Value) :
    Except Exit Value × List Call :=
  Run.outcome
    (do
      let returned ← evaluateStatements W f.body arguments
      pure (returned.getD .undefined))
    fun _ => .undefined

end Whatspec.Appstate

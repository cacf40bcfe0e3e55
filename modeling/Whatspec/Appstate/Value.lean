import Whatspec.Library.Binary64
import Whatspec.Library.Coupling

/-!
# The values validators work on

A validator of app-state mutations works on a decoded protobuf: an object of fields that hold
numbers, texts, byte buffers, arrays and further objects.  The same values serve the JavaScript
method, the program lowered from it and the native code generated from that.

* `truthy`, `nullish`, `own` and `field` are the operations of the native data view;
* `World` is all that lies outside a validator: the functions it calls, which may answer
  anything and depend on all calls before, the constants of other modules, the properties that
  JavaScript's own prototypes give to values, and the comparison of values that are not numbers;
* `World.Qualified` says which of these the validators rely on.
-/

namespace Whatspec.Appstate

open Whatspec.Library

/-- A value of the native data view. -/
inductive Value where
  | undefined
  | null
  | bool (b : Bool)
  | number (n : Binary64.Word)
  | long (n : ℕ)
  | text (s : String)
  | bytes (bs : List UInt8)
  | array (items : List Value)
  | object (fields : List (String × Value))

namespace Value

def truthy : Value → Bool
  | .undefined | .null => false
  | .bool b => b
  | .number n => Binary64.value n ≠ .finite 0 && Binary64.value n ≠ .nan
  | .text s => s ≠ ""
  | _ => true

def nullish : Value → Bool
  | .undefined | .null => true
  | _ => false

/-- The value is a byte buffer, which JavaScript maps as a typed array. -/
def isBytes : Value → Bool
  | .bytes _ => true
  | _ => false

/-- A length, as a number. -/
def ofLength (n : ℕ) : Value := .number (Binary64.ofInt n)

/-- The number of UTF-16 units of a text. -/
def utf16Length (s : String) : ℕ :=
  (s.toList.map fun c => if c.toNat < 0x10000 then 1 else 2).sum

/-- A property that the value itself has. -/
def own : Value → String → Option Value
  | .object fields, key => fields.lookup key
  | .text s, "length" => some (ofLength (utf16Length s))
  | .array items, "length" => some (ofLength items.length)
  | .bytes bs, "length" => some (ofLength bs.length)
  | .bytes bs, "byteLength" => some (ofLength bs.length)
  | _, _ => none

end Value

/-- A function outside a validator. -/
inductive Callee where
  | validator (name : String)
  | dependency (module method : String)
  deriving DecidableEq

/-- A call of such a function. -/
structure Call where
  callee : Callee
  arguments : List Value

/-- How a validator ends without a value. -/
inductive Exit where
  | fatal (metric context : Value) (message : String)
  | thrown (errorClass : String)
  | stuck

/-- What lies outside a validator. -/
structure World where
  /-- The answer to a call after the calls made before, or the class of the error thrown. -/
  answer : List Call → Call → Except String Value
  /-- A constant that a module exports. -/
  exported : String → String → Value
  /-- A property that a prototype gives to a value. -/
  inherited : Value → String → Value
  /-- The comparison of two values of which one is not a number. -/
  coercedGreater : Value → Value → Bool

/-- The module of the fatal metrics. -/
def metricModule : String := "WAWebSyncdMetricFatalError"

def metricNames : List String :=
  ["MISSING_EXTERNAL_BLOB_REFERENCE_MEDIA_KEY", "MISSING_EXTERNAL_BLOB_REFERENCE_DIRECT_PATH",
    "MISSING_EXTERNAL_BLOB_REFERENCE_FILE_SHA256",
    "MISSING_EXTERNAL_BLOB_REFERENCE_FILE_ENC_SHA256", "MISSING_MUTATION_OPERATION",
    "MISSING_MUTATION_RECORD", "MISSING_PATCH_VERSION",
    "PATCH_WITH_BOTH_INLINE_AND_EXTERNAL_MUTATIONS", "MISSING_PATCH_SNAPSHOT_MAC",
    "MISSING_PATCH_MAC", "MISSING_PATCH_KEY_ID", "MISSING_MUTATION_INDEX",
    "MISSING_MUTATION_VALUE", "MISSING_MUTATION_KEY_ID", "MISSING_SNAPSHOT_VERSION",
    "MISSING_SNAPSHOT_MAC", "MISSING_SNAPSHOT_KEY_ID", "MISSING_ACTION_VALUE",
    "MISSING_ACTION_TIMESTAMP"]

/-- The fields a validator may read of any value. -/
def dataFields : List String :=
  ["binarySyncData", "blob", "clientDebugData", "collection", "deviceIndex", "directPath",
    "exitCode", "externalMutations", "fileEncSha256", "fileSha256", "fileSizeBytes", "handle",
    "id", "index", "indexMac", "keyId", "length", "byteLength", "mac", "mediaKey", "mutations",
    "operation", "patchMac", "record", "records", "snapshotMac", "timestamp", "value",
    "valueMac", "version"]

/-- The metrics are known by their names, and no prototype has a property named like a protobuf
field. -/
structure World.Qualified (W : World) : Prop where
  metric : ∀ name ∈ metricNames,
    (W.exported metricModule "SyncdFatalErrorType").own name = some (.text name)
  inherited : ∀ v, ∀ name ∈ dataFields, W.inherited v name = .undefined

/-- The operator `>`. -/
def World.greaterThan (W : World) : Value → Value → Bool
  | .number a, .number b =>
    match Binary64.value a, Binary64.value b with
    | .finite m, .finite n => n < m
    | .infinite negative, .finite _ => !negative
    | .finite _, .infinite negative => negative
    | .infinite negative, .infinite negative' => !negative && negative'
    | _, _ => false
  | a, b => W.coercedGreater a b

namespace Value

/-- A field of the native data view.  Reading one of nothing is an error. -/
def field (v : Value) (key : String) : Except Exit Value :=
  if v.nullish then .error (.thrown "TypeError") else .ok ((v.own key).getD .undefined)

/-- The items of an array of the native data view. -/
def items : Value → Except Exit (List Value)
  | .array items => .ok items
  | _ => .error (.thrown "TypeError")

end Value

/-- The state of a run: its variables, and the calls made so far. -/
structure Machine (μ : Type) where
  memory : μ
  calls : List Call

/-- A part of a run. -/
abbrev Run (μ α : Type) := Comp (Machine μ) Exit α

namespace Run

variable {μ : Type}

/-- Call a function outside the validator. -/
def call (W : World) (callee : Callee) (arguments : List Value) : Run μ Value := fun m =>
  let c : Call := ⟨callee, arguments⟩
  (match W.answer m.calls c with
    | .ok v => .ok v
    | .error errorClass => .error (.thrown errorClass),
    { m with calls := m.calls ++ [c] })

/-- Change the variables. -/
def change (f : μ → μ) : Run μ Unit :=
  Comp.modify fun m => { m with memory := f m.memory }

/-- What a run shows: its value or its exit, and the calls it made. -/
def outcome (x : Run μ Value) (memory : μ) : Except Exit Value × List Call :=
  let (result, m) := x ⟨memory, []⟩
  (result, m.calls)

end Run

end Whatspec.Appstate

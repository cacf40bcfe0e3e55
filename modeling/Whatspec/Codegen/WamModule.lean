import Whatspec.Codegen.RequestFields
import Whatspec.Codegen.Wam
import Whatspec.Library.SortedMap

/-!
# The generated WAM module

`generateWam` turns the catalog of metrics into a module: the types of the prelude, one enum for
each enum of the catalog and one struct for each event.

* a type is named by `wamPascal`, and by that name with a number where it is taken;
* the type of a field that is an enum is looked up by the module that defines the enum.

The module is kept as its items.  The tables of the buffer (constants, globals, groups) declare no
types and are left out.
-/

namespace Whatspec.Codegen

open Whatspec.Library

/-! ### The catalog -/

/-- The type of a field: an enum is given by its module. -/
inductive WamIr.FieldType where
  | boolean
  | integer
  | number
  | string
  | timer
  | enum (module : String)
  deriving DecidableEq

structure WamIr.Field where
  name : String
  id : UInt32
  fieldType : FieldType

structure WamIr.Event where
  name : String
  code : UInt32
  channel : String
  weights : List UInt32
  privateStatsId : Option ℤ
  fields : List Field
  /-- The modules of the call sites. -/
  callSites : List String

structure WamIr.EnumVariant where
  key : String
  value : ℤ

structure WamIr.Enum where
  name : String
  module : String
  variants : List EnumVariant

structure WamIr where
  waVersion : String
  events : List WamIr.Event
  enums : List WamIr.Enum

/-! ### Names -/

/-- The characters of a name in Pascal case: a word starts after anything that is not a letter or
a digit, and at an upper letter behind a lower one. -/
def wamPascalFrom : Bool → Bool → List Char → List Char
  | _, _, [] => []
  | cap, prevLower, c :: cs =>
    if isAsciiAlnum c then
      (if cap || (isAsciiUpper c && prevLower) then c.toUpper else c.toLower) ::
        wamPascalFrom false (isAsciiLower c) cs
    else wamPascalFrom true prevLower cs

def wamPascal (s : String) : String :=
  ensureIdent (String.ofList (wamPascalFrom true false s.toList))

/-- The types that the prelude declares. -/
def preludeTypes : List String :=
  ["WamGlobalDef", "WamGlobalType", "WamPrivateStatsGroup", "WamChannel", "WamWire", "WamBuffer",
    "WamEventDef"]

/-! ### Items -/

structure EnumItem where
  /-- The name and the module of the enum, which the comment above the item gives. -/
  exported : String
  module : String
  name : String
  variants : List (String × ℤ)

structure EventFieldItem where
  ident : String
  rustType : String
  id : UInt32
  access : String
  wire : String

structure EventItem where
  /-- The name of the event, which the comment above the item gives. -/
  event : String
  code : UInt32
  /-- The modules that construct the event, up to four, and how many more there are. -/
  constructedIn : List String × ℕ
  privateStatsId : Option ℤ
  name : String
  fields : List EventFieldItem
  channel : WamChannel
  sampleWeights : List UInt32

structure WamModule where
  waVersion : String
  prelude : List String
  enums : List EnumItem
  events : List EventItem

/-- The types of a module's top level. -/
def WamModule.typeNames (m : WamModule) : List String :=
  m.prelude ++ m.enums.map EnumItem.name ++ m.events.map EventItem.name

/-! ### Emission -/

def variantBase (v : WamIr.EnumVariant) : String :=
  let id := wamPascal v.key
  if id.toList = [] ∨ id.toList.head?.any isAsciiDigit then "V" ++ toString v.value else id

def emitEnum (e : WamIr.Enum) (name : String) : EnumItem where
  exported := e.name
  module := e.module
  name
  variants :=
    (allot [] (e.variants.map fun v => numbered (variantBase v))).zip
      (e.variants.map WamIr.EnumVariant.value)

/-- The type of a field; an enum that is not in the catalog is an integer. -/
def fieldRustType (enumName : List (String × String)) : WamIr.FieldType → String
  | .boolean => "bool"
  | .integer | .timer => "i64"
  | .number => "f64"
  | .string => "String"
  | .enum module => (SortedMap.get enumName module).getD "i64"

def fieldAccess (id : String) : WamIr.FieldType → String
  | .string => "&self." ++ id
  | _ => "self." ++ id

def fieldWire (enumName : List (String × String)) : WamIr.FieldType → String
  | .boolean => "WamWire::Bool(v)"
  | .integer | .timer => "WamWire::Int(v)"
  | .number => "WamWire::Float(v)"
  | .string => "WamWire::Str(v.clone())"
  | .enum module =>
      if (SortedMap.get enumName module).isSome then "WamWire::Int(v.as_wam_int())"
      else "WamWire::Int(v)"

def emitField (enumName : List (String × String)) (f : WamIr.Field) (ident : String) :
    EventFieldItem where
  ident
  rustType := fieldRustType enumName f.fieldType
  id := f.id
  access := fieldAccess ident f.fieldType
  wire := fieldWire enumName f.fieldType

/-- The channel of a name; a name that is not known is the regular one. -/
def channelOf (name : String) : WamChannel :=
  if name = "realtime" then .realtime else if name = "private" then .private else .regular

def emitEvent (enumName : List (String × String)) (ev : WamIr.Event) (structName : String) :
    EventItem where
  event := ev.name
  code := ev.code
  constructedIn := (ev.callSites.eraseDups.take 4, ev.callSites.eraseDups.length - 4)
  privateStatsId := ev.privateStatsId
  name := structName
  fields := List.zipWith (emitField enumName) ev.fields
    (allot [] (ev.fields.map fun f => suffixed (rustIdent (snakeCase f.name))))
  channel := channelOf ev.channel
  sampleWeights := ev.weights

def enumBase (e : WamIr.Enum) : String :=
  if wamPascal e.name = "" then wamPascal e.module else wamPascal e.name

/-- The names of the enums, in the order of the catalog. -/
def enumNames (ir : WamIr) : List String :=
  allot [] (ir.enums.map fun e => numbered (enumBase e))

/-- The name of each enum by its module. -/
def enumNameMap (ir : WamIr) : List (String × String) :=
  SortedMap.collect ((ir.enums.map WamIr.Enum.module).zip (enumNames ir))

def eventBase (ev : WamIr.Event) : String := wamPascal ev.name ++ "Event"

/-- The names of the events: apart from each other and from those of the enums. -/
def eventNames (ir : WamIr) : List String :=
  allot (enumNames ir) (ir.events.map fun ev => numbered (eventBase ev))

def generateWam (ir : WamIr) : WamModule where
  waVersion := ir.waVersion
  prelude := preludeTypes
  enums := ir.enums.map fun e =>
    emitEnum e ((SortedMap.get (enumNameMap ir) e.module).getD "")
  events := List.zipWith (emitEvent (enumNameMap ir)) ir.events (eventNames ir)

end Whatspec.Codegen

import Whatspec.Mex.PresenceValue
import Whatspec.Mex.Publish

/-!
# Which keys an object puts on the wire

`classifyObject` goes through the properties of an object literal and gives each key a verdict,
with records of the objects whose keys are not fully known.

* `readProperty` is one property: a key, a spread, or one that cannot be read;
* `classifyValue` is the value of a key, with the keys under it;
* `keyValue` and `writeKey` read and write a path into a recovered object.

The walk follows names, and two arms of a choice without going deeper, so it need not end; `fuel`
bounds its calls, and there is no answer when it runs out.  Counters of what was not readable are
left out.
-/

namespace Whatspec.Mex

open Whatspec.Library VariablePresenceNode

/-- The verdicts of an object's keys, and the records of what is not known. -/
abbrev Classified := List (String × VariablePresenceNode) × List Opaque

def Opaque.here : Opaque := ⟨[], []⟩

/-- A record seen from one step further up. -/
def Opaque.under (s : Step) (o : Opaque) : Opaque := { o with path := s :: o.path }

section Scoped

variable (scopes : Scopes)

/-- Whether a value could be a function. -/
def mayBeCalled : ℕ → Value → Bool
  | 0, _ => true
  | remaining + 1, value =>
    match scopes.resolve maxDepth value with
    | .defined | .truthy | .null | .object _ | .array _ => false
    | .either a b | .orElse a b | .coalesce a b | .andThen a b =>
        mayBeCalled remaining a || mayBeCalled remaining b
    | _ => true

/-- Whether a value is an object with keys. -/
def carries (value : Value) : Bool :=
  match scopes.resolve maxDepth value with
  | .object props => !props.isEmpty
  | _ => false

/-- The object that a spread copies from, and whether a condition gates it. -/
def spreadSource (value : Value) : Value × Bool :=
  match scopes.resolve maxDepth value with
  | .andThen _ rhs => (rhs, true)
  | .either a b =>
    match carries scopes a, carries scopes b with
    | true, false => (a, true)
    | false, true => (b, true)
    | _, _ => (value, true)
  | other => (other, false)

/-- A spread of `undefined`, where nothing has bound the name. -/
def spreadsNothing (source : Value) : Bool :=
  match source with
  | .ref name => name == "undefined" && (scopes.lookup name).isNone
  | _ => false

end Scoped

/-! ### Accessors -/

def Property.name : Property → Option String
  | .key name _ => some name
  | _ => none

def Property.isGetter : Property → Bool
  | .key _ .getter => true
  | _ => false

/-- Where a key is first written. -/
def firstWritten (props : List Property) (key : String) : ℕ :=
  props.findIdx fun p => p.name = some key

/-- The last property that is written under a key is an accessor with a getter. -/
def stands (props : List Property) (key : String) : Bool :=
  ((props.filter fun p => p.name = some key).getLast?.map Property.isGetter).getD false

/-- Where the keys are first written that are accessors with a getter in the end. -/
def standingGetters (props : List Property) : List ℕ :=
  (((props.filterMap Property.name).eraseDups).filter (stands props)).map (firstWritten props)

/-! ### Objects -/

/-- What the properties read so far leave. -/
structure Reading where
  out : List (String × VariablePresenceNode)
  opaquePaths : List Opaque
  /-- A getter runs before what follows is serialized. -/
  serializingRunsCode : Bool
  /-- The keys above that getter. -/
  alreadyWritten : List String

namespace Reading

def start : Reading := ⟨[], [], false, []⟩

/-- Past a getter that stands. -/
def passGetter (standing : List ℕ) (index : ℕ) (r : Reading) : Reading :=
  if !r.serializingRunsCode && standing.contains index then
    { r with serializingRunsCode := true, alreadyWritten := r.out.map Prod.fst }
  else r

/-- Give up everything that was established. -/
def withdrawAll (r : Reading) : Reading :=
  { r with out := withdrawFields r.out, opaquePaths := r.opaquePaths ++ [.here] }

/-- The verdict about a key, where a getter may have run. -/
def atRisk (r : Reading) (key : String) (node : VariablePresenceNode) : VariablePresenceNode :=
  if r.serializingRunsCode && !r.alreadyWritten.contains key then withdraw node else node

/-- A key with the verdict about its value. -/
def put (r : Reading) (key : String) (c : VariablePresenceNode × List Opaque) : Reading :=
  { r with
    out := SortedMap.insert key (r.atRisk key c.1) r.out
    opaquePaths := r.opaquePaths ++ c.2.map (Opaque.under (.field key)) }

/-- The keys of a spread object. -/
def putAll (r : Reading) (floor : VariablePresence) (c : Classified) : Reading :=
  { r with
    out := c.1.foldl (fun out e => SortedMap.insert e.1 (r.atRisk e.1 (e.2.weakenTo floor)) out)
      r.out
    opaquePaths := r.opaquePaths ++ c.2 }

end Reading

/-- `toJSON`, where the value is one that is called. -/
def isHook (scopes : Scopes) (remaining : ℕ) : Property → Bool
  | .key key value => key == "toJSON" && mayBeCalled scopes remaining value
  | _ => false

section Properties

variable (scopes : Scopes) (remaining : ℕ)
  (classify : Value → Option (VariablePresenceNode × List Opaque))
  (spread : List Property → Option Classified)

/-- One property, past the getters that stand. -/
def readPlain (r : Reading) : Property → Option Reading
  | .unreadable => some r.withdrawAll
  | .key key value =>
    if isHook scopes remaining (.key key value) then some r.withdrawAll
    else
      match value with
      | .getter => some
          { r with
            out := SortedMap.insert key (leaf .undetermined) r.out
            opaquePaths := r.opaquePaths ++ [.here] }
      | _ => (classify value).map (r.put key)
  | .spread value =>
    let (source, gated) := spreadSource scopes value
    if spreadsNothing scopes source then some r
    else
      match scopes.resolve maxDepth source with
      | .object inner =>
          (spread inner).map (r.putAll (if gated then .conditional else .always))
      | _ => some r.withdrawAll

def readProperty (standing : List ℕ) (r : Reading) (index : ℕ) (prop : Property) :
    Option Reading :=
  readPlain scopes remaining classify spread (r.passGetter standing index) prop

/-- The properties from a position on. -/
def readProps (standing : List ℕ) : Reading → ℕ → List Property → Option Reading
  | r, _, [] => some r
  | r, index, prop :: props =>
    match readProperty scopes remaining classify spread standing r index prop with
    | some r => readProps standing r (index + 1) props
    | none => none

end Properties

/-- The verdicts when all properties have been read. -/
def Reading.finish (r : Reading) (serializedWhole : Bool) : Classified :=
  let out := if serializedWhole then withdrawFields r.out else r.out
  (out, r.opaquePaths.map fun o =>
    if o.path.isEmpty && !serializedWhole then { o with written := out.map Prod.fst } else o)

/-! ### Values -/

/-- What the elements of a list read so far leave. -/
structure Elements where
  fields : Option (List (String × VariablePresenceNode))
  unreadable : Bool
  opaquePaths : List Opaque

/-- One element: its keys are merged with those of the others. -/
def Elements.add (e : Elements) (c : Classified) : Elements :=
  { e with
    fields := some (match e.fields with
      | some acc => mergeSites acc c.1
      | none => c.1)
    opaquePaths := e.opaquePaths ++ c.2.map (Opaque.under .item) }

/-- The elements of a list. -/
def readElements (scopes : Scopes) (classify : List Property → Option Classified) :
    Elements → List Value → Option Elements
  | e, [] => some e
  | e, item :: items =>
    match scopes.resolve maxDepth item with
    | .object props =>
      match classify props with
      | some c => readElements scopes classify (e.add c) items
      | none => none
    | .null =>
      match classify [] with
      | some c => readElements scopes classify (e.add c) items
      | none => none
    | _ => readElements scopes classify { e with unreadable := true } items

/-- The node of a list's element. -/
def Elements.node (e : Elements) : Option VariablePresenceNode :=
  e.fields.map fun fields =>
    let item : VariablePresenceNode := .mk .always fields none
    if e.unreadable then withdrawChildren item else item

/-- The verdict about a value itself. -/
def verdict (scopes : Scopes) (value : Value) (floor : VariablePresence) : VariablePresence :=
  (definedness scopes maxDepth value).presence.weaker floor

mutual

/-- The verdicts about the keys of an object. -/
def classifyObject (scopes : Scopes) : ℕ → ℕ → List Property → Option Classified
  | 0, _, _ => none
  | _ + 1, 0, _ => some ([], [.here])
  | fuel + 1, remaining + 1, props =>
      (readProps scopes (remaining + 1)
        (fun value => classifyValue scopes fuel (remaining + 1) value .always)
        (fun inner => classifyObject scopes fuel remaining inner) (standingGetters props) .start 0
        props).map fun r => r.finish (props.any (isHook scopes (remaining + 1)))

/-- The verdict about the value of a key, and about the keys under it. -/
def classifyValue (scopes : Scopes) :
    ℕ → ℕ → Value → VariablePresence → Option (VariablePresenceNode × List Opaque)
  | 0, _, _, _ => none
  | _ + 1, 0, value, floor => some (leaf (verdict scopes value floor), [])
  | fuel + 1, remaining + 1, value, floor =>
    match scopes.resolve maxDepth value with
    | .object props =>
        (classifyObject scopes fuel remaining props).map fun c =>
          let node : VariablePresenceNode := .mk (verdict scopes value floor) c.1 none
          (if props.any (isHook scopes (remaining + 1)) then withdraw node else node, c.2)
    | .array items =>
        (readElements scopes (fun props => classifyObject scopes fuel remaining props)
          ⟨none, false, []⟩ items).map fun e =>
          (.mk (verdict scopes value floor) [] e.node, e.opaquePaths)
    | .either a b =>
      match classifyValue scopes fuel (remaining + 1) a floor,
          classifyValue scopes fuel (remaining + 1) b floor with
      | some left, some right =>
          let merged := mergeNodes left.1 right.1
          some (.mk (verdict scopes value floor) merged.fields merged.items, left.2 ++ right.2)
      | _, _ => none
    | _ => some (leaf (verdict scopes value floor), [])

end

/-! ### Paths into a recovered object -/

/-- The last value that an object literal writes under a key. -/
def lastValue (props : List Property) (key : String) : Option Value :=
  props.reverse.findSome? fun
    | .key k value => if k = key then some value else none
    | _ => none

/-- The value that a path reads to. -/
def keyValue (scopes : Scopes) : ℕ → Value → List String → Option Value
  | 0, _, _ => none
  | remaining + 1, value, path =>
    match scopes.resolve maxDepth value, path with
    | .object props, key :: rest =>
      (lastValue props key).bind fun inner =>
        if rest.isEmpty then some inner else keyValue scopes remaining inner rest
    | _, _ => none

/-- Replace the values under a key. -/
def replaceKey (key : String) (replace : Value → Option Value) :
    List Property → Option (List Property)
  | [] => some []
  | .key k inner :: props =>
    if k = key then
      match replace inner, replaceKey key replace props with
      | some value, some props => some (.key k value :: props)
      | _, _ => none
    else (replaceKey key replace props).map (.key k inner :: ·)
  | other :: props => (replaceKey key replace props).map (other :: ·)

/-- Whether an object literal writes a key by name. -/
def writesKey (props : List Property) (key : String) : Bool :=
  props.any fun p => p.name = some key

/-- The recovered object with a path written. -/
def writeKey (scopes : Scopes) : ℕ → Value → List String → Value → Option Value
  | 0, _, _, _ => none
  | remaining + 1, value, path, written =>
    match scopes.resolve maxDepth value, path with
    | .object props, key :: rest =>
      (replaceKey key
        (fun inner =>
          if rest.isEmpty then some written else writeKey scopes remaining inner rest written)
        props).bind fun out =>
          if writesKey props key then some (.object out)
          else if rest.isEmpty then some (.object (out ++ [.key key written]))
          else none
    | _, _ => none

end Whatspec.Mex

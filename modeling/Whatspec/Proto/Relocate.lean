import Mathlib.Data.Prod.Lex
import Whatspec.Library.Component
import Whatspec.Library.Grouping
import Whatspec.Library.HashOrder
import Whatspec.Proto.Entity
import Whatspec.Text

/-!
# Making the tree valid for `protoc`

Enum values are siblings of their enum for `protoc`, so two top-level enums that share a value
name collide.  `makeProtocValid` keeps one entity per top-level name and moves a colliding enum
into a message that references it:

* `clashComponents` are the groups of enums connected by shared value names;
* in each group the most referenced enum stays (`keeperOf`), every other one moves into its
  first referencing message, or gets its values prefixed when no message references it;
* `rewriteRefs` qualifies the field types that spell the name of a moved enum.

The order in which the owners of value names are visited is the order of a hash map and a
parameter; `printable` is the choice of the debug text.
-/

namespace Whatspec.Proto

open Whatspec.Library Whatspec.Text

/-! ### One entity per top-level name -/

section Dedup

variable (printable : Char → Bool)

/-- What top-level entities are sorted by: the name, then the debug text. -/
def sortKey (e : ProtoEntity) : String ×ₗ String :=
  toLex (e.name, String.ofList (debugEntity printable e))

/-- Keep the first entity of each run of equal names. -/
def keepFirst (last : Option String) : List ProtoEntity → List ProtoEntity
  | [] => []
  | e :: es =>
      if last = some e.name then keepFirst last es else e :: keepFirst (some e.name) es

def dedupTopLevel (entities : List ProtoEntity) : List ProtoEntity :=
  keepFirst none (entities.insertionSort fun a b => sortKey printable a ≤ sortKey printable b)

end Dedup

/-! ### Which enums clash -/

/-- The value names of an enum. -/
def ProtoEnum.valueNames (e : ProtoEnum) : List String := e.values.map ProtoEnumValue.name

/-- Each value name with the top-level enums declaring it. -/
def owners (entities : List ProtoEntity) : List (String × List String) :=
  Grouping.group (entities.flatMap fun
    | .enum e => e.valueNames.map fun v => (v, e.name)
    | .message _ _ _ => [])

/-- Each enum with the enums it shares a value name with. -/
def adjacency (order : HashOrder String) (owned : List (String × List String)) :
    List (String × List String) :=
  Grouping.group ((((order.entries owned).map Prod.snd).filter fun set => 1 < set.length).flatMap
    fun set => set.flatMap fun a => (set.filter (· ≠ a)).map fun b => (a, b))

/-- The clash components, one search from each enum not visited yet. -/
def clashComponents (adj : List (String × List String)) : List (List String) :=
  Component.components (Grouping.members adj) (adj.map Prod.fst)
    (SortedSet.collect (adj.map Prod.fst)) []

/-! ### Who references what -/

/-- The text between `map<` and `>`. -/
def mapInner (t : String) : Option (List Char) :=
  (stripPrefix "map<".toList t.toList).bind (stripSuffix ['>'])

/-- Trailing segment of a dotted path, trimmed first. -/
def baseName (t : List Char) : String := String.ofList (afterLast '.' (trim t))

/-- Base names of a printed type: of the path, or of both sides of a `map<K, V>`. -/
def typeRefBases (t : String) : List String :=
  match mapInner t with
  | some inner => (inner.splitOn ',').map baseName
  | none => [baseName t.toList]

/-- The fields a member holds. -/
def ProtoMember.fields : ProtoMember → List ProtoField
  | .field f => [f]
  | .oneOf o => o.fields

mutual

/-- The base names referenced anywhere in a message. -/
def collectRefs : ProtoEntity → List String
  | .message _ members nested =>
      ((members.flatMap ProtoMember.fields).flatMap fun f => typeRefBases f.typeName) ++
        collectNestedRefs nested
  | .enum _ => []

def collectNestedRefs : List ProtoEntity → List String
  | [] => []
  | e :: es => collectRefs e ++ collectNestedRefs es

end

/-- Each type name with the top-level messages that reference it. -/
def referencers (entities : List ProtoEntity) : List (String × List String) :=
  Grouping.group (entities.flatMap fun e =>
    (SortedSet.collect (collectRefs e)).map fun r => (r, e.name))

def refCount (refs : List (String × List String)) (name : String) : ℕ :=
  (Grouping.members refs name).length

/-! ### Who stays and who moves where -/

/-- `a` comes before `b` as keeper: more referencers, then the smaller name. -/
def Outranks (refs : List (String × List String)) (a b : String) : Prop :=
  refCount refs b < refCount refs a ∨ refCount refs a = refCount refs b ∧ a < b

instance (refs : List (String × List String)) (a b : String) : Decidable (Outranks refs a b) :=
  inferInstanceAs (Decidable (_ ∨ _))

/-- The enum of a component that stays at package scope. -/
def keeperOf (refs : List (String × List String)) : List String → Option String
  | [] => none
  | x :: xs => some (xs.foldl (fun best y => if Outranks refs best y then best else y) x)

/-- The message an enum would move into: the first that references it. -/
def hostOf (refs : List (String × List String)) (name : String) : Option String :=
  (Grouping.members refs name).head?

/-- The enums of a component that cannot stay. -/
def leavers (refs : List (String × List String)) (comp : List String) : List String :=
  comp.filter fun e => keeperOf refs comp ≠ some e

/-- The moves, as pairs of an enum and its host. -/
def decisions (refs : List (String × List String)) (comps : List (List String)) :
    List (String × String) :=
  comps.flatMap fun comp =>
    (leavers refs comp).filterMap fun e => (hostOf refs e).map fun h => (e, h)

/-- The colliding enums no message references. -/
def prefixOnly (refs : List (String × List String)) (comps : List (List String)) :
    List String :=
  comps.flatMap fun comp => (leavers refs comp).filter fun e => hostOf refs e = none

/-! ### Carrying the moves out -/

/-- Prefix the values of an enum with its name. -/
def prefixValues (e : ProtoEnum) : ProtoEnum :=
  { e with values := e.values.map fun v => { v with name := e.name ++ "_" ++ v.name } }

/-- Prefix the values of an entity that is one of the named enums. -/
def prefixNamed (names : List String) : ProtoEntity → ProtoEntity
  | .enum e => if e.name ∈ names then .enum (prefixValues e) else .enum e
  | .message n ms es => .message n ms es

/-- Replace a type by its qualified form; in a map, either side. -/
def rewriteType (qualified : List (String × String)) (t : String) : String :=
  match SortedMap.get qualified t with
  | some repl => repl
  | none =>
      match mapInner t with
      | some inner =>
          "map<" ++ String.intercalate ", " ((inner.splitOn ',').map fun p =>
            (SortedMap.get qualified (String.ofList (trim p))).getD (String.ofList (trim p))) ++ ">"
      | none => t

def rewriteField (qualified : List (String × String)) (f : ProtoField) : ProtoField :=
  { f with typeName := rewriteType qualified f.typeName }

def rewriteMember (qualified : List (String × String)) : ProtoMember → ProtoMember
  | .field f => .field (rewriteField qualified f)
  | .oneOf o => .oneOf { o with fields := o.fields.map (rewriteField qualified) }

mutual

/-- Rewrite field types referencing a relocated enum to their qualified form. -/
def rewriteRefs (qualified : List (String × String)) : ProtoEntity → ProtoEntity
  | .message name members nested =>
      .message name (members.map (rewriteMember qualified)) (rewriteNested qualified nested)
  | .enum e => .enum e

def rewriteNested (qualified : List (String × String)) : List ProtoEntity → List ProtoEntity
  | [] => []
  | e :: es => rewriteRefs qualified e :: rewriteNested qualified es

end

/-- The entity is one of the named enums. -/
def isEnumNamed (names : List String) : ProtoEntity → Bool
  | .enum e => e.name ∈ names
  | .message _ _ _ => false

/-- Take each decided enum out of `taken` and put it into the group of its host. -/
def groupByHost : List (String × String) → List (String × ProtoEntity) →
    List (String × List ProtoEntity) → List (String × List ProtoEntity)
  | [], _, byHost => byHost
  | (e, host) :: rest, taken, byHost =>
      match SortedMap.get taken e with
      | some entity =>
          groupByHost rest (SortedMap.remove e taken)
            (SortedMap.insert host (((SortedMap.get byHost host).getD []) ++ [entity]) byHost)
      | none => groupByHost rest taken byHost

/-- Nest each group, sorted by name, under its host; what no message takes is left over. -/
def nestInHosts : List ProtoEntity → List (String × List ProtoEntity) →
    List ProtoEntity × List (String × List ProtoEntity)
  | [], byHost => ([], byHost)
  | .message name members nested :: rest, byHost =>
      match SortedMap.get byHost name with
      | some adds =>
          let sorted := adds.insertionSort fun a b => a.name ≤ b.name
          let tail := nestInHosts rest (SortedMap.remove name byHost)
          (.message name members (nested ++ sorted) :: tail.1, tail.2)
      | none =>
          let tail := nestInHosts rest byHost
          (.message name members nested :: tail.1, tail.2)
  | .enum e :: rest, byHost =>
      let tail := nestInHosts rest byHost
      (.enum e :: tail.1, tail.2)

/-- The qualified names of the moved enums that several messages reference. -/
def qualifiedMoves (refs : List (String × List String)) (moves : List (String × String)) :
    List (String × String) :=
  SortedMap.collect ((moves.filter fun p => 1 < refCount refs p.1).map
    fun p => (p.1, p.2 ++ "." ++ p.1))

/-- The moved enums as entities, by name. -/
def takeEnums (moves : List (String × String)) (entities : List ProtoEntity) :
    List (String × ProtoEntity) :=
  SortedMap.collect
    ((entities.filter (isEnumNamed (moves.map Prod.fst))).map fun e => (e.name, e))

/-- Carry out the moves and the prefixes decided on. -/
def carryOut (refs : List (String × List String)) (moves : List (String × String))
    (prefixes : List String) (entities : List ProtoEntity) : List ProtoEntity :=
  let kept := entities.filter fun e => !isEnumNamed (moves.map Prod.fst) e
  let prefixed := kept.map (prefixNamed prefixes)
  let qualified := qualifiedMoves refs moves
  let rewritten := if qualified = [] then prefixed else prefixed.map (rewriteRefs qualified)
  let nested := nestInHosts rewritten (groupByHost moves (takeEnums moves entities) [])
  nested.1 ++ nested.2.flatMap Prod.snd

/-- Move the colliding enums of a list of top-level entities. -/
def relocateCollidingEnums (order : HashOrder String) (entities : List ProtoEntity) :
    List ProtoEntity :=
  let adj := adjacency order (owners entities)
  if adj = [] then entities
  else
    let refs := referencers entities
    let comps := clashComponents adj
    carryOut refs (decisions refs comps) (prefixOnly refs comps) entities

/-- Reconcile the resolved tree with the enum scoping of `protoc`. -/
def makeProtocValid (printable : Char → Bool) (order : HashOrder String)
    (entities : List ProtoEntity) : List ProtoEntity :=
  relocateCollidingEnums order (dedupTopLevel printable entities)

end Whatspec.Proto

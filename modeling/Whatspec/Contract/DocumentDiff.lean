import Whatspec.Library.Json
import Whatspec.Library.SortedSet

/-!
# The changes between two documents

`documentDiff` lists the changes from one contract document to another.  Some collections of a
domain are arrays whose items have an identity: they are compared item by item, whatever their
order.  Everything else is compared by `walk`, which goes down objects and keeps an array as one
change.

A path is a JSON pointer.  The identity of a change is kept as the text it is parsed from.
-/

namespace Whatspec.Contract

open Whatspec.Library

variable {ν : Type} [JsonNumber ν]

/-- A JSON pointer. -/
abbrev Path := List Char

/-- A key as a part of a JSON pointer. -/
def pointer (key : String) : Path :=
  (key.toList.flatMap fun c => if c = '~' then ['~', '0'] else [c]).flatMap fun c =>
    if c = '/' then ['~', '1'] else [c]

inductive ChangeKind where
  | added
  | removed
  | changed
  | orderedArrayChanged
  | ambiguousIdentityGroupChanged
  deriving DecidableEq

/-- One change. -/
structure Change (ν : Type) where
  oldPath : Option Path
  newPath : Option Path
  kind : ChangeKind
  before : Json ν
  after : Json ν
  /-- Where the items of a group are, in the old and in the new array. -/
  indices : Option (List ℕ × List ℕ)
  identity : Option String
  identityDiagnostic : Option String

def groupDiagnostic : String :=
  "non-unique identity; occurrences compared as an ordered group"

def orderDiagnostic : String :=
  "missing or non-unique identity; collection compared in order"

/-- The fields that make up the identity of a collection's items. -/
def identityKeys (domain collection : String) : Option (List String) :=
  match domain, collection with
  | "enums", "enums" => some ["module", "name"]
  | "wam", "enums" => some ["module", "name"]
  | "abprops", "configs" => some ["module", "name"]
  | "iq", "stanzas" => some ["moduleName", "exportedFunction"]
  | "stanza", "stanzas" => some ["moduleName", "exportedFunction"]
  | "incoming", "incoming" => some ["module", "tag"]
  | "srvreq", "requests" => some ["module", "tag"]
  | "notif", "notifications" => some ["type"]
  | "notif", "stanzaTags" => some ["tag"]
  | "wam", "events" => some ["module", "name"]
  | "wam", "globals" => some ["name"]
  | "wam", "constants" => some ["name"]
  | "wam", "privateStatsIds" => some ["key"]
  | "wasm", "binaries" => some ["name"]
  | "wasm", "resources" => some ["bxId"]
  | _, _ => none

/-- A field of a value, when it is an object that has it. -/
def field (v : Json ν) (key : String) : Option (Json ν) :=
  match v with
  | .object fields => SortedMap.get fields key
  | _ => none

/-- The identity of an item, as a text. -/
def identityOf (keys : List String) (item : Json ν) : Option String :=
  (keys.mapM (field item)).map fun values => String.ofList (Json.text (.array values))

/-- Items by their identity, each with its index. -/
abbrev KeyedItems (ν : Type) := List (String × List (ℕ × Json ν))

/-- The group of an identity. -/
def group (m : KeyedItems ν) (identity : String) : List (ℕ × Json ν) :=
  (SortedMap.get m identity).getD []

def keyedFrom (keys : List String) :
    List (Json ν) → ℕ → KeyedItems ν → Option (KeyedItems ν)
  | [], _, m => some m
  | item :: rest, index, m =>
      match identityOf keys item with
      | none => none
      | some identity =>
          keyedFrom keys rest (index + 1)
            (SortedMap.insert identity (group m identity ++ [(index, item)]) m)

def keyed (value : Json ν) (keys : List String) : Option (KeyedItems ν) :=
  match value with
  | .array items => keyedFrom keys items 0 []
  | _ => none

/-- The keys of two maps, in order. -/
def keysOf {α : Type} (a b : List (String × α)) : List String :=
  SortedSet.collect (a.map Prod.fst ++ b.map Prod.fst)

/-- The change at two places that are not both objects. -/
def leafChange (old new : Option (Json ν)) (oldPath newPath : Path) : Change ν :=
  match old, new with
  | some (.array a), some (.array b) =>
      ⟨some oldPath, some newPath, .orderedArrayChanged, .array a, .array b, none, none, none⟩
  | old, new =>
      ⟨old.map fun _ => oldPath, new.map fun _ => newPath,
        if old.isNone then .added else if new.isNone then .removed else .changed,
        old.getD .null, new.getD .null, none, none, none⟩

omit [JsonNumber ν] in
theorem sizeOf_get_lt (a : List (String × Json ν)) (key : String) :
    sizeOf (SortedMap.get a key) < sizeOf (some (Json.object a)) := by
  cases hget : SortedMap.get a key with
  | none =>
      simp only [Option.none.sizeOf_spec, Option.some.sizeOf_spec, Json.object.sizeOf_spec]
      omega
  | some v =>
      have hmem := List.sizeOf_lt_of_mem (SortedMap.mem_of_get hget)
      simp only [Prod.mk.sizeOf_spec, Option.some.sizeOf_spec, Json.object.sizeOf_spec] at hmem ⊢
      omega

/-- The changes between two values, either of which may be missing. -/
def walk (old new : Option (Json ν)) (oldPath newPath : Path) : List (Change ν) :=
  if old = new then []
  else
    match old, new with
    | some (.object a), some (.object b) =>
        (keysOf a b).flatMap fun key =>
          walk (SortedMap.get a key) (SortedMap.get b key) (oldPath ++ '/' :: pointer key)
            (newPath ++ '/' :: pointer key)
    | old, new => [leafChange old new oldPath newPath]
termination_by sizeOf old
decreasing_by exact sizeOf_get_lt a key

/-- Where the first item of a group is. -/
def itemPath (path : Path) : List (ℕ × Json ν) → Path
  | [] => []
  | (index, _) :: _ => path ++ '/' :: Nat.toDigits 10 index

/-- The changes of one identity's items, before the identity is put in them. -/
def groupChanges (path : Path) (o n : List (ℕ × Json ν)) : List (Change ν) :=
  if o.length ≤ 1 ∧ n.length ≤ 1 then
    walk (o.head?.map Prod.snd) (n.head?.map Prod.snd) (itemPath path o) (itemPath path n)
  else if o.map Prod.snd = n.map Prod.snd then []
  else
    [⟨some path, some path, .ambiguousIdentityGroupChanged, .array (o.map Prod.snd),
      .array (n.map Prod.snd), some (o.map Prod.fst, n.map Prod.fst), none,
      some groupDiagnostic⟩]

/-- The changes of one identity's items. -/
def groupDiff (path : Path) (identity : String) (o n : List (ℕ × Json ν)) : List (Change ν) :=
  (groupChanges path o n).map fun c => { c with identity := some identity }

/-- The two sides of a collection by identity, when both are arrays of items that have one. -/
def keyedPair (domain collection : String) (old new : Option (Json ν)) :
    Option (KeyedItems ν × KeyedItems ν) := do
  let keys ← identityKeys domain collection
  let o ← keyed (← old) keys
  let n ← keyed (← new) keys
  return (o, n)

/-- The note on the changes of a collection that should have been keyed. -/
def note (domain collection : String) (c : Change ν) : Change ν :=
  if (identityKeys domain collection).isSome then
    { c with identityDiagnostic := some orderDiagnostic }
  else c

/-- The changes of one collection. -/
def collectionDiff (domain collection : String) (old new : Option (Json ν)) : List (Change ν) :=
  let path := '/' :: pointer collection
  match keyedPair domain collection old new with
  | some (o, n) =>
      (keysOf o n).flatMap fun identity => groupDiff path identity (group o identity)
        (group n identity)
  | none =>
      (walk old new path path).map (note domain collection)

/-- The fields of a document that are not compared. -/
def isVersion (collection : String) : Bool :=
  collection = "schemaVersion" || collection = "waVersion"

/-- The changes from one document to another. -/
def documentDiff (domain : String) (old new : Json ν) : List (Change ν) :=
  match old, new with
  | .object a, .object b =>
      (keysOf a b).flatMap fun collection =>
        if isVersion collection then []
        else collectionDiff domain collection (SortedMap.get a collection)
          (SortedMap.get b collection)
  | old, new => walk (some old) (some new) [] []

end Whatspec.Contract

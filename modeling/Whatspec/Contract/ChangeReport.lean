import Mathlib.Data.List.DropRight
import Whatspec.Contract.DocumentDiff
import Whatspec.Library.JsonPointer
import Whatspec.Library.Upsert
import Whatspec.Store.Lock
import Whatspec.Text

/-!
# The report of the changes between two snapshots

A snapshot is a manifest, the lock of its bundles, and for each domain a contract document and
perhaps its schema.  `report` lists the changes between the documents and between the schemas of two
snapshots:

* each change is bound to the documents and to the locks it was found in (`bound`), and is named by
  the digest of the text of all that;
* `applyReviews` puts the assessments of recorded reviews in the changes they name.

How a snapshot is read from disk is left outside.  The digest, and the reading of an identity's
text, are parameters.
-/

namespace Whatspec.Contract

open Whatspec.Library Whatspec.Text
open Whatspec.Store (BundleLock)

/-- Numbers among which are the natural numbers, with their decimal digits. -/
class JsonNaturals (ν : Type) extends JsonNumber ν where
  natural : ℕ → ν
  text_natural : ∀ n, text (natural n) = Nat.toDigits 10 n

instance : JsonNaturals ℕ where
  natural := id
  text_natural _ := rfl

def formatVersion : ℕ := 2

/-- A declared file: its path in the snapshot, the digest of its bytes and its value. -/
structure Artifact (ν : Type) where
  rel : String
  hash : String
  value : Json ν

structure Snapshot (ν : Type) where
  manifest : Json ν
  lock : BundleLock
  files : List (String × Artifact ν)
  schemas : List (String × Artifact ν)

variable {ν : Type} [JsonNaturals ν]

/-! ### Values -/

/-- A field of a value, null when there is none. -/
def index (v : Json ν) (key : String) : Json ν := (field v key).getD .null

def asString : Json ν → Option String
  | .string s => some s
  | _ => none

def asArray : Json ν → Option (List (Json ν))
  | .array items => some items
  | _ => none

def natural (n : ℕ) : Json ν := .number (JsonNaturals.natural n)

def orNull (s : Option String) : Json ν := (s.map Json.string).getD .null

/-- The object of some fields. -/
def objectOf (fields : List (String × Json ν)) : Json ν := .object (SortedMap.collect fields)

/-! ### The text of a change -/

def ChangeKind.text : ChangeKind → String
  | .added => "added"
  | .removed => "removed"
  | .changed => "changed"
  | .orderedArrayChanged => "ordered-array-changed"
  | .ambiguousIdentityGroupChanged => "ambiguous-identity-group-changed"

def pathValue (p : Option Path) : Json ν := orNull (p.map String.ofList)

def indexFields : Option (List ℕ × List ℕ) → List (String × Json ν)
  | none => []
  | some (old, new) =>
      [("oldIndices", .array (old.map natural)), ("newIndices", .array (new.map natural))]

/-- A field that is there only when it has a value. -/
def fieldIfAny (key : String) (v : Option (Json ν)) : List (String × Json ν) :=
  (v.map fun v => (key, v)).toList

/-- The fields of a change as the documents were compared. -/
def Change.fields (parse : String → Json ν) (c : Change ν) : List (String × Json ν) :=
  [("oldPath", pathValue c.oldPath), ("newPath", pathValue c.newPath),
    ("kind", .string c.kind.text), ("before", c.before), ("after", c.after)] ++
  indexFields c.indices ++ fieldIfAny "identityDiagnostic" (c.identityDiagnostic.map .string) ++
  fieldIfAny "identity" (c.identity.map parse)

/-- The name of a module in a node. -/
def moduleOf (node : Json ν) : Option String :=
  ["module", "moduleName", "handlerModule"].findSome? fun key =>
    (field node key).bind asString

/-- The place above: what is in front of the last slash. -/
def placeAbove (place : Path) : Path := (place.rdropWhile (· ≠ '/')).dropLast

theorem length_placeAbove_lt {place : Path} (h : place ≠ []) :
    (placeAbove place).length < place.length := by
  have hdrop := (List.rdropWhile_prefix (fun c => decide (c ≠ '/')) place).length_le
  have hpos := List.length_pos_of_ne_nil h
  rw [placeAbove, List.length_dropLast]
  omega

/-- The nearest module named at a place or above it. -/
def sourceModuleHint (document : Json ν) (place : Path) : Option String :=
  match (JsonPointer.resolve document place).bind moduleOf with
  | some name => some name
  | none => if h : place = [] then none else sourceModuleHint document (placeAbove place)
termination_by place.length
decreasing_by exact length_placeAbove_lt h

/-- Where the source of a side is to be looked up. -/
def reference (file : Option (Artifact ν)) (path : Option Path) : Json ν :=
  match file, path with
  | some artifact, some place =>
      objectOf [("file", .string artifact.rel), ("sha256", .string artifact.hash),
        ("pointer", .string (String.ofList place)),
        ("sourceModuleHint", orNull (sourceModuleHint artifact.value place)),
        ("sourceStatus", .string "requires-source-review")]
  | _, _ => .null

/-! ### The changes of a report -/

/-- The changes of one artifact.  A schema is compared as a whole. -/
def deltas (isSchema : Bool) (domain : String) (a b : Option (Artifact ν)) : List (Change ν) :=
  match isSchema, a, b with
  | false, some x, some y => documentDiff domain x.value y.value
  | _, a, b => walk (a.map Artifact.value) (b.map Artifact.value) [] []

/-- What a change is found in. -/
structure Origin (ν : Type) where
  isSchema : Bool
  domain : String
  old : Option (Artifact ν)
  new : Option (Artifact ν)
  oldSetHash : String
  newSetHash : String

/-- The fields that bind a change to what it was found in. -/
def Origin.fields (o : Origin ν) (c : Change ν) : List (String × Json ν) :=
  [("domain", .string o.domain), ("oldSource", reference o.old c.oldPath),
    ("newSource", reference o.new c.newPath),
    ("oldArtifactSha256", orNull (o.old.map Artifact.hash)),
    ("newArtifactSha256", orNull (o.new.map Artifact.hash)),
    ("oldDeclaredSetHash", .string o.oldSetHash), ("newDeclaredSetHash", .string o.newSetHash),
    ("inputBinding", .string "unverified")] ++
  fieldIfAny "artifactKind" (if o.isSchema then some (.string "schema") else none)

/-- A change with what it was found in. -/
def bound (parse : String → Json ν) (o : Origin ν) (c : Change ν) : Json ν :=
  objectOf (c.fields parse ++ o.fields c)

inductive Classification where
  | upstreamChange
  | extractionImprovement
  | extractionLoss
  | indeterminate
  deriving DecidableEq

def Classification.label : Classification → String
  | .upstreamChange => "upstream-change"
  | .extractionImprovement => "extraction-improvement"
  | .extractionLoss => "extraction-loss"
  | .indeterminate => "indeterminate"

def Classification.ofLabel (label : String) : Option Classification :=
  [.upstreamChange, .extractionImprovement, .extractionLoss, .indeterminate].find?
    fun c => c.label = label

/-- What is thought of a change. -/
inductive Assessment where
  | unreviewed
  | reviewed (classification : Classification) (basis : String) (references : List String)
  deriving DecidableEq

def Assessment.classification : Assessment → Classification
  | .unreviewed => .indeterminate
  | .reviewed classification _ _ => classification

def Assessment.value : Assessment → Json ν
  | .unreviewed =>
      objectOf [("classification", .string Classification.indeterminate.label),
        ("basis", .string
          "Contract delta only; inspect pinned sources and same-input regeneration.")]
  | .reviewed classification basis references =>
      objectOf [("classification", .string classification.label), ("basis", .string basis),
        ("references", .array (references.map .string)), ("origin", .string "reviewed-evidence")]

/-- A change of a report: the bound change, its name and its assessment. -/
structure ReportedChange (ν : Type) where
  bound : Json ν
  id : String
  assessment : Assessment

section Listing

variable (digest : List UInt8 → List UInt8) (parse : String → Json ν)

/-- The name of a bound change. -/
def changeId (v : Json ν) : String := sha256Hex digest (utf8 (String.ofList v.text))

def reported (o : Origin ν) (c : Change ν) : ReportedChange ν :=
  ⟨bound parse o c, changeId digest (bound parse o c), .unreviewed⟩

def originOf (old new : Snapshot ν) (isSchema : Bool) (domain : String) : Origin ν :=
  let side := fun s : Snapshot ν => SortedMap.get (if isSchema then s.schemas else s.files) domain
  ⟨isSchema, domain, side old, side new, old.lock.setHash, new.lock.setHash⟩

/-- The changes of the documents, or those of the schemas. -/
def changesOf (old new : Snapshot ν) (isSchema : Bool) : List (ReportedChange ν) :=
  let domains :=
    if isSchema then keysOf old.schemas new.schemas else keysOf old.files new.files
  domains.flatMap fun domain =>
    let o := originOf old new isSchema domain
    (deltas isSchema domain o.old o.new).map (reported digest parse o)

def reportedChanges (old new : Snapshot ν) : List (ReportedChange ν) :=
  changesOf digest parse old new false ++ changesOf digest parse old new true

end Listing

/-! ### Reviews -/

inductive ReviewError where
  | version
  | notAnArray
  | idMissing
  | duplicate (id : String)
  | stale (id : String)
  | classificationMissing
  | unknownClassification (label : String)
  | basisMissing
  | referencesMissing
  | referencesBlank
  deriving DecidableEq

def ReviewError.message : ReviewError → String
  | .version => "unsupported review reportVersion"
  | .notAnArray => "reviews must be an array"
  | .idMissing => "review id missing"
  | .duplicate id => "duplicate review id " ++ id
  | .stale id => "stale or unknown review " ++ id
  | .classificationMissing => "classification missing"
  | .unknownClassification label => "unknown classification " ++ label
  | .basisMissing => "review basis missing"
  | .referencesMissing => "review references missing"
  | .referencesBlank => "review needs recoverable source references"

/-- A text that says something. -/
def nonBlank (v : Json ν) : Option String :=
  (asString v).filter fun s => trim s.toList ≠ []

/-- The assessment of an entry. -/
def assessmentOf (entry : Json ν) : Except ReviewError Assessment :=
  match asString (index entry "classification") with
  | none => .error .classificationMissing
  | some label =>
    match Classification.ofLabel label with
    | none => .error (.unknownClassification label)
    | some classification =>
      match nonBlank (index entry "basis") with
      | none => .error .basisMissing
      | some basis =>
        match asArray (index entry "references") with
        | none => .error .referencesMissing
        | some items =>
          match items.mapM nonBlank with
          | none => .error .referencesBlank
          | some references =>
            if references = [] then .error .referencesBlank
            else .ok (.reviewed classification basis references)

/-- Put an assessment in the first change of a name. -/
def assess (id : String) (assessment : Assessment) :
    List (ReportedChange ν) → List (ReportedChange ν)
  | [] => []
  | c :: rest =>
      if c.id = id then { c with assessment } :: rest else c :: assess id assessment rest

/-- One review. -/
def applyReview (changes : List (ReportedChange ν)) (seen : List String) (entry : Json ν) :
    Except ReviewError (List (ReportedChange ν) × List String) :=
  match asString (index entry "id") with
  | none => .error .idMissing
  | some id =>
    if id ∈ seen then .error (.duplicate id)
    else if changes.any (fun c => c.id = id) then
      match assessmentOf entry with
      | .error e => .error e
      | .ok assessment => .ok (assess id assessment changes, SortedSet.insert id seen)
    else .error (.stale id)

def applyEntries (changes : List (ReportedChange ν)) (seen : List String) :
    List (Json ν) → Except ReviewError (List (ReportedChange ν))
  | [] => .ok changes
  | entry :: rest =>
    match applyReview changes seen entry with
    | .error e => .error e
    | .ok (changes', seen') => applyEntries changes' seen' rest

def applyReviews (changes : List (ReportedChange ν)) (reviews : Json ν) :
    Except ReviewError (List (ReportedChange ν)) :=
  if index reviews "reportVersion" = natural formatVersion then
    match asArray (index reviews "reviews") with
    | none => .error .notAnArray
    | some entries => applyEntries changes [] entries
  else .error .version

/-! ### The report -/

/-- What a report says of a snapshot. -/
def Snapshot.metadata (s : Snapshot ν) : Json ν :=
  objectOf [("waVersion", index s.manifest "waVersion"),
    ("schemaVersion", index s.manifest "schemaVersion"),
    ("generatorVersion", index s.manifest "generatorVersion"),
    ("declaredInputs", objectOf [("setHash", .string s.lock.setHash),
      ("bundleCount", natural s.lock.bundleCount), ("lockStatus", .string "self-consistent")]),
    ("inputBinding", objectOf [("status", .string "unverified"),
      ("reason", .string "manifest-does-not-bind-inputs")])]

structure Report (ν : Type) where
  old : Json ν
  new : Json ν
  sameDeclaredInputs : Bool
  /-- How many changes have each classification. -/
  classifications : List (String × ℕ)
  changes : List (ReportedChange ν)
  oldDiagnostics : Json ν
  newDiagnostics : Json ν

def report (digest : List UInt8 → List UInt8) (parse : String → Json ν) (old new : Snapshot ν)
    (evidence : Option (Json ν)) : Except ReviewError (Report ν) := do
  let listed := reportedChanges digest parse old new
  let changes ←
    match evidence with
    | some reviews => applyReviews listed reviews
    | none => .ok listed
  return {
    old := old.metadata
    new := new.metadata
    sameDeclaredInputs := old.lock.setHash = new.lock.setHash
    classifications := Upsert.foldEntries (fun count _ => count.getD 0 + 1)
      (changes.map fun c => (c.assessment.classification.label, ()))
    changes
    oldDiagnostics := index old.manifest "diagnostics"
    newDiagnostics := index new.manifest "diagnostics" }

end Whatspec.Contract

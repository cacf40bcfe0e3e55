import Mathlib
import Whatspec.Contract.DocumentDiff
import Whatspec.Library.Disk

/-!
# The manifest of a build

A build counts what each domain yielded and writes the counts into `manifest.json`, behind all the
other artifacts.  `check_floor` reads them back before the next update writes anything.

* `Build` is what the extractors hand on, `Build.counts` what the guard compares and
  `Build.manifest` the manifest;
* `Serde` is the JSON library, as far as the two use it;
* `checkFloor` lists the counts that dropped;
* `Call.after` is what a call of `update` leaves on the disk, whole or killed.
-/

namespace Whatspec.Update

open Whatspec.Library

/-! ### The JSON library -/

/-- A value of the JSON library: the objects in it are ordered maps. -/
abbrev Value (ν : Type) := {v : Json ν // v.WellFormed}

/-- What the update uses of the JSON library: a count is read back as the number it is, and a
printed value with a line break behind it as the value. -/
structure Serde (ν : Type) where
  ofCount : ℕ → ν
  asU64 : ν → Option ℕ
  asU64_ofCount : ∀ n, asU64 (ofCount n) = some n
  toStringPretty : Value ν → Bytes
  fromStr : Bytes → Option (Value ν)
  fromStr_pretty : ∀ v, fromStr (toStringPretty v ++ [10]) = some v

variable {ν : Type}

/-- `json!` of an object. -/
def object (fields : List (String × Value ν)) : Value ν where
  val := .object (SortedMap.collect (fields.map fun e => (e.1, e.2.val)))
  property := by
    refine .object (SortedMap.sorted_collect _) fun e he => ?_
    obtain ⟨w, -, heq⟩ := List.mem_map.mp (SortedMap.mem_of_get_collect
      (SortedMap.get_of_mem (SortedMap.sorted_collect _) he))
    exact (Prod.mk.inj heq).2 ▸ w.2.property

def text (s : String) : Value ν := ⟨.string s, .string s⟩

/-- A count in the manifest. -/
def Serde.count (S : Serde ν) (n : ℕ) : Value ν := ⟨.number (S.ofCount n), .number _⟩

/-- Counts by their reasons. -/
def Serde.tally (S : Serde ν) (m : List (String × ℕ)) : Value ν :=
  object (m.map fun e => (e.1, S.count e.2))

/-! ### What the extractors count -/

structure IqTargetCounts where
  (server groupServer groupJid unset unknown : ℕ)

def IqTargetCounts.resolved (c : IqTargetCounts) : ℕ := c.server + c.groupServer + c.groupJid

structure IqConstraintCounts where
  (referenceConstraints fieldLiterals fieldEnumRefs typedErrorVariants errorTexts errorArms : ℕ)

structure IqBuilderCounts where
  (argPathAttrs argPathAttrsMissing argPathContents argPathContentsMissing argPathChildren
    argPathChildrenMissing elementValues optionalChildren presenceFlagChildren repeatBounds : ℕ)

structure CrossModuleStats where
  (requestsWithMixins requestsEnriched fieldsRecovered : ℕ)

structure IqDiagnostics where
  (candidateModules stanzas typedResponses degradedResponses unparseable excludedFragments : ℕ)
  dropsByReason : List (String × ℕ)
  crossModule : CrossModuleStats
  constraints : IqConstraintCounts
  builder : IqBuilderCounts
  targets : IqTargetCounts

structure WamDiagnostics where
  (globals privateStatsIds constants constructions callSites partialCallSites
    callSiteFields callSiteFieldValues duplicateCallSites samplingWeightOverrides : ℕ)
  dropsByReason : List (String × ℕ)

structure PresenceDiagnostics where
  (operationsWithoutCallSite unreadableCallArguments unreadableSpreads unreadableKeys
    ambiguousCallSites : ℕ)

structure MexDiagnostics where
  (operations docIdsInline docIdsFromSibling docIdsFromName presenceAlways
    presenceConditional presenceUndetermined operationsWithVariables
    operationsFullyDetermined : ℕ)
  presence : PresenceDiagnostics

/-- The counts that the guard compares. -/
structure Counts where
  (iqModules protoEntities mexOps mexPresenceAlways mexDocIdsExtracted mexDocIdsFromName
    appstateActions abpropsConfigs enumDefs wamEvents wamGlobals wamPrivateStatsIds
    wamConstants wamCallSites notifTypes notifTypedContent notifStanzaTags iqStanzas
    iqTypedResponses : ℕ)
  iqTargets : IqTargetCounts
  (iqReferenceConstraints iqFieldLiterals iqFieldEnumRefs iqTypedErrorVariants iqErrorTexts
    iqErrorArms iqArgPathAttrs iqArgPathContents iqArgPathChildren iqElementValues
    iqOptionalChildren iqPresenceFlagChildren iqRepeatBounds notifActions notifActionShapes
    stanzaDefs incomingDefs serverRequestDefs tokenSingleByte tokenDoubleByte wasmBinaries
    wasmResources wasmWasmHandles : ℕ)

def manifestName : String := "manifest.json"

/-- The locks, which an update writes behind its artifacts. -/
inductive LockFile where
  | bundles
  | wasm
  deriving DecidableEq

def LockFile.path : LockFile → String
  | .bundles => "bundles.lock.json"
  | .wasm => "wasm.lock.json"

/-- What the extractors make of a source.  Every artifact is in the directory of its domain. -/
structure Build where
  waVersion : String
  generatorVersion : String
  schemaVersion : String
  artifacts : List (String × Bytes)
  inDirectory : ∀ a ∈ artifacts, '/' ∈ a.1.toList
  (iqCount protoCount mexCount appstateCount abpropsCount enumsCount wamCount notifCount
    notifTyped notifTags notifActions notifActionShapes stanzaCount incomingCount
    srvreqCount tokenSingle tokenDouble wasmBinaries wasmResources wasmWasmHandles : ℕ)
  iqDiag : IqDiagnostics
  wamDiag : WamDiagnostics
  mexDiag : MexDiagnostics
  notifDrops : List (String × ℕ)
  incomingDrops : List (String × ℕ)

def Build.counts (b : Build) : Counts where
  iqModules := b.iqCount
  protoEntities := b.protoCount
  mexOps := b.mexCount
  mexPresenceAlways := b.mexDiag.presenceAlways
  mexDocIdsExtracted := b.mexDiag.docIdsInline + b.mexDiag.docIdsFromSibling
  mexDocIdsFromName := b.mexDiag.docIdsFromName
  appstateActions := b.appstateCount
  abpropsConfigs := b.abpropsCount
  enumDefs := b.enumsCount
  wamEvents := b.wamCount
  wamGlobals := b.wamDiag.globals
  wamPrivateStatsIds := b.wamDiag.privateStatsIds
  wamConstants := b.wamDiag.constants
  wamCallSites := b.wamDiag.callSites
  notifTypes := b.notifCount
  notifTypedContent := b.notifTyped
  notifStanzaTags := b.notifTags
  iqStanzas := b.iqDiag.stanzas
  iqTypedResponses := b.iqDiag.typedResponses
  iqTargets := b.iqDiag.targets
  iqReferenceConstraints := b.iqDiag.constraints.referenceConstraints
  iqFieldLiterals := b.iqDiag.constraints.fieldLiterals
  iqFieldEnumRefs := b.iqDiag.constraints.fieldEnumRefs
  iqTypedErrorVariants := b.iqDiag.constraints.typedErrorVariants
  iqErrorTexts := b.iqDiag.constraints.errorTexts
  iqErrorArms := b.iqDiag.constraints.errorArms
  iqArgPathAttrs := b.iqDiag.builder.argPathAttrs
  iqArgPathContents := b.iqDiag.builder.argPathContents
  iqArgPathChildren := b.iqDiag.builder.argPathChildren
  iqElementValues := b.iqDiag.builder.elementValues
  iqOptionalChildren := b.iqDiag.builder.optionalChildren
  iqPresenceFlagChildren := b.iqDiag.builder.presenceFlagChildren
  iqRepeatBounds := b.iqDiag.builder.repeatBounds
  notifActions := b.notifActions
  notifActionShapes := b.notifActionShapes
  stanzaDefs := b.stanzaCount
  incomingDefs := b.incomingCount
  serverRequestDefs := b.srvreqCount
  tokenSingleByte := b.tokenSingle
  tokenDoubleByte := b.tokenDouble
  wasmBinaries := b.wasmBinaries
  wasmResources := b.wasmResources
  wasmWasmHandles := b.wasmWasmHandles

/-- The domains that extracted nothing, though every complete bundle yields some. -/
def Build.emptyDomains (b : Build) : List String :=
  [("proto entities", b.protoCount), ("mex operations", b.mexCount),
    ("appstate actions", b.appstateCount), ("abprops configs", b.abpropsCount),
    ("enum defs", b.enumsCount), ("wam events", b.wamCount), ("notif types", b.notifCount),
    ("stanza defs", b.stanzaCount), ("incoming defs", b.incomingCount),
    ("server request defs", b.srvreqCount),
    ("token single-byte entries", b.tokenSingle)].filterMap fun e =>
      if e.2 = 0 then some e.1 else none

/-! ### The manifest -/

/-- The neutral artifact of each domain and its schema. -/
def neutral : List (String × String × String) :=
  [("iq", "iq/index.json", "schema/iq.schema.json"),
    ("proto", "proto/WAProto.proto", ""),
    ("mex", "mex/index.json", "schema/mex.schema.json"),
    ("appstate", "appstate/index.json", "schema/appstate.schema.json"),
    ("abprops", "abprops/index.json", "schema/abprops.schema.json"),
    ("enums", "enums/index.json", "schema/enums.schema.json"),
    ("wam", "wam/index.json", "schema/wam.schema.json"),
    ("notif", "notif/index.json", "schema/notif.schema.json"),
    ("stanza", "stanza/index.json", "schema/stanza.schema.json"),
    ("tokens", "tokens/index.json", "schema/tokens.schema.json"),
    ("incoming", "incoming/index.json", "schema/incoming.schema.json"),
    ("srvreq", "srvreq/index.json", "schema/srvreq.schema.json"),
    ("wasm", "wasm/index.json", "schema/wasm.schema.json")]

/-- The validation artifacts that the entry of `appstate` lists besides. -/
def validations : List (String × String × String) :=
  [("validation", "appstate/validation.json", "appstate/validation.schema.json"),
    ("batchValidation", "appstate/validation_batch.json",
      "appstate/validation_batch.schema.json")]

def Build.content (b : Build) (file : String) : Option Bytes :=
  (b.artifacts.find? fun a => a.1 = file).map Prod.snd

section Manifest

variable (S : Serde ν) (sha256 : Bytes → String)

/-- A file with its hash and, unless it has none, its schema. -/
def Build.entry (b : Build) (file schema : String) : Option (List (String × Value ν)) :=
  (b.content file).map fun content =>
    [("file", text file), ("sha256", text (sha256 content))] ++
      if schema = "" then [] else [("schema", text schema)]

def Build.domain (b : Build) (name file schema : String) : Option (String × Value ν) := do
  let entry ← b.entry sha256 file schema
  if name = "appstate" then
    let more ← validations.mapM fun v => (b.entry sha256 v.2.1 v.2.2).map fun e => (v.1, object e)
    pure (name, object (entry ++ more))
  else pure (name, object entry)

def Build.domains (b : Build) : Option (Value ν) :=
  (neutral.mapM fun n => b.domain sha256 n.1 n.2.1 n.2.2).map object

def iqBuilderDiagnostics (b : IqBuilderCounts) : Value ν :=
  object [("argPathAttrs", S.count b.argPathAttrs),
    ("argPathAttrsMissing", S.count b.argPathAttrsMissing),
    ("argPathContents", S.count b.argPathContents),
    ("argPathContentsMissing", S.count b.argPathContentsMissing),
    ("argPathChildren", S.count b.argPathChildren),
    ("argPathChildrenMissing", S.count b.argPathChildrenMissing),
    ("elementValues", S.count b.elementValues),
    ("optionalChildren", S.count b.optionalChildren),
    ("presenceFlagChildren", S.count b.presenceFlagChildren),
    ("repeatBounds", S.count b.repeatBounds)]

def targetsJson (t : IqTargetCounts) : Value ν :=
  object [("server", S.count t.server), ("groupServer", S.count t.groupServer),
    ("groupJid", S.count t.groupJid), ("unset", S.count t.unset),
    ("unknown", S.count t.unknown), ("resolved", S.count t.resolved)]

def constraintsJson (c : IqConstraintCounts) : Value ν :=
  object [("referenceConstraints", S.count c.referenceConstraints),
    ("fieldLiterals", S.count c.fieldLiterals), ("fieldEnumRefs", S.count c.fieldEnumRefs),
    ("typedErrorVariants", S.count c.typedErrorVariants), ("errorTexts", S.count c.errorTexts),
    ("errorArms", S.count c.errorArms)]

def crossModuleJson (c : CrossModuleStats) : Value ν :=
  object [("requestsWithMixins", S.count c.requestsWithMixins),
    ("requestsEnriched", S.count c.requestsEnriched),
    ("fieldsRecovered", S.count c.fieldsRecovered)]

def iqJson (d : IqDiagnostics) : Value ν :=
  object [("candidateModules", S.count d.candidateModules), ("stanzas", S.count d.stanzas),
    ("typedResponses", S.count d.typedResponses),
    ("degradedResponses", S.count d.degradedResponses),
    ("unparseable", S.count d.unparseable),
    ("excludedFragments", S.count d.excludedFragments),
    ("dropsByReason", S.tally d.dropsByReason),
    ("crossModule", crossModuleJson S d.crossModule), ("targets", targetsJson S d.targets),
    ("constraints", constraintsJson S d.constraints),
    ("builder", iqBuilderDiagnostics S d.builder)]

def Build.notifJson (b : Build) : Value ν :=
  object [("types", S.count b.notifCount), ("typedContent", S.count b.notifTyped),
    ("degraded", S.count (b.notifCount - b.notifTyped)), ("stanzaTags", S.count b.notifTags),
    ("actions", S.count b.notifActions), ("actionShapes", S.count b.notifActionShapes),
    ("dropsByReason", S.tally b.notifDrops)]

def Build.wamJson (b : Build) : Value ν :=
  object [("events", S.count b.wamCount), ("globals", S.count b.wamDiag.globals),
    ("privateStatsIds", S.count b.wamDiag.privateStatsIds),
    ("constants", S.count b.wamDiag.constants),
    ("constructions", S.count b.wamDiag.constructions),
    ("callSites", S.count b.wamDiag.callSites),
    ("partialCallSites", S.count b.wamDiag.partialCallSites),
    ("duplicateCallSites", S.count b.wamDiag.duplicateCallSites),
    ("callSiteFields", S.count b.wamDiag.callSiteFields),
    ("callSiteFieldValues", S.count b.wamDiag.callSiteFieldValues),
    ("samplingWeightOverrides", S.count b.wamDiag.samplingWeightOverrides),
    ("dropsByReason", S.tally b.wamDiag.dropsByReason)]

def presenceDrops (p : PresenceDiagnostics) : Value ν :=
  object [("operationWithNoCallSite", S.count p.operationsWithoutCallSite),
    ("unreadableCallArgument", S.count p.unreadableCallArguments),
    ("unreadableSpread", S.count p.unreadableSpreads),
    ("unreadableKey", S.count p.unreadableKeys),
    ("ambiguousCallSite", S.count p.ambiguousCallSites)]

def mexJson (d : MexDiagnostics) : Value ν :=
  object [("operations", S.count d.operations),
    ("operationsWithVariables", S.count d.operationsWithVariables),
    ("operationsFullyDetermined", S.count d.operationsFullyDetermined),
    ("presenceAlways", S.count d.presenceAlways),
    ("presenceConditional", S.count d.presenceConditional),
    ("presenceUndetermined", S.count d.presenceUndetermined),
    ("docIdsInline", S.count d.docIdsInline), ("docIdsFromSibling", S.count d.docIdsFromSibling),
    ("docIdsFromName", S.count d.docIdsFromName), ("dropsByReason", presenceDrops S d.presence)]

def Build.diagnostics (b : Build) : Value ν :=
  object [("iq", iqJson S b.iqDiag), ("notif", b.notifJson S), ("wam", b.wamJson S),
    ("mex", mexJson S b.mexDiag),
    ("incoming", object [("dropsByReason", S.tally b.incomingDrops)])]

def Build.manifestFields (b : Build) (domains : Value ν) : List (String × Value ν) :=
  [("schemaVersion", text b.schemaVersion), ("generatorVersion", text b.generatorVersion),
    ("waVersion", text b.waVersion), ("iqModules", S.count b.counts.iqModules),
    ("protoEntities", S.count b.counts.protoEntities),
    ("mexOperations", S.count b.counts.mexOps),
    ("appstateActions", S.count b.counts.appstateActions),
    ("abPropsConfigs", S.count b.counts.abpropsConfigs),
    ("enumDefs", S.count b.counts.enumDefs), ("wamEvents", S.count b.counts.wamEvents),
    ("notifTypes", S.count b.counts.notifTypes), ("stanzaDefs", S.count b.counts.stanzaDefs),
    ("incomingDefs", S.count b.counts.incomingDefs),
    ("serverRequestDefs", S.count b.counts.serverRequestDefs),
    ("tokenSingleByte", S.count b.counts.tokenSingleByte),
    ("tokenDoubleByte", S.count b.counts.tokenDoubleByte),
    ("wasmBinaries", S.count b.counts.wasmBinaries),
    ("wasmResources", S.count b.counts.wasmResources),
    ("wasmWasmHandles", S.count b.counts.wasmWasmHandles), ("domains", domains),
    ("diagnostics", b.diagnostics S)]

/-- The value that is written to `manifest.json`. -/
def Build.manifest (b : Build) : Option (Value ν) :=
  (b.domains sha256).map fun domains => object (b.manifestFields S domains)

/-- `build_artifacts`, behind the extractors: nothing when a domain is empty or an artifact that
the manifest lists is missing. -/
def buildArtifacts (b : Build) : Option (List (String × Bytes)) :=
  if b.emptyDomains = [] then
    (b.manifest S sha256).map fun m => b.artifacts ++ [(manifestName, S.toStringPretty m ++ [10])]
  else none

end Manifest

/-! ### The guard -/

section Floor

variable (S : Serde ν)

/-- `get` of a key. -/
def get (v : Json ν) (key : String) : Option (Json ν) := Contract.field v key

def asU64 : Json ν → Option ℕ
  | .number n => S.asU64 n
  | _ => none

/-- The number at a key, when it is a count. -/
def prev (v : Json ν) (key : String) : Option ℕ := (get v key).bind (asU64 S)

def regression (name : String) (was new : ℕ) : String :=
  name ++ ": " ++ toString was ++ " → " ++ toString new

/-- The counts of one object that dropped, with what stands before their keys. -/
def dropped (label : String) (prior : Json ν) (checks : List (String × ℕ)) : List String :=
  checks.filterMap fun c =>
    match prev S prior c.1 with
    | some was => if c.2 < was then some (regression (label ++ c.1) was c.2) else none
    | none => none

/-- What the guard compares in an object that the prior manifest may not have. -/
def within (prior : Option (Json ν)) (check : Json ν → List String) : List String :=
  match prior with
  | some v => check v
  | none => []

def totals (c : Counts) : List (String × ℕ) :=
  [("iqModules", c.iqModules), ("protoEntities", c.protoEntities), ("mexOperations", c.mexOps),
    ("appstateActions", c.appstateActions), ("abPropsConfigs", c.abpropsConfigs),
    ("enumDefs", c.enumDefs), ("wamEvents", c.wamEvents), ("notifTypes", c.notifTypes),
    ("stanzaDefs", c.stanzaDefs), ("incomingDefs", c.incomingDefs),
    ("wasmBinaries", c.wasmBinaries), ("wasmWasmHandles", c.wasmWasmHandles),
    ("serverRequestDefs", c.serverRequestDefs), ("tokenSingleByte", c.tokenSingleByte),
    ("tokenDoubleByte", c.tokenDoubleByte)]

def wamChecks (c : Counts) : List (String × ℕ) :=
  [("globals", c.wamGlobals), ("privateStatsIds", c.wamPrivateStatsIds),
    ("constants", c.wamConstants), ("callSites", c.wamCallSites)]

def iqChecks (c : Counts) : List (String × ℕ) :=
  [("stanzas", c.iqStanzas), ("typedResponses", c.iqTypedResponses)]

def targetChecks (c : Counts) : List (String × ℕ) :=
  [("resolved", c.iqTargets.resolved), ("server", c.iqTargets.server),
    ("groupServer", c.iqTargets.groupServer), ("groupJid", c.iqTargets.groupJid)]

def constraintChecks (c : Counts) : List (String × ℕ) :=
  [("referenceConstraints", c.iqReferenceConstraints), ("fieldLiterals", c.iqFieldLiterals),
    ("fieldEnumRefs", c.iqFieldEnumRefs), ("typedErrorVariants", c.iqTypedErrorVariants),
    ("errorTexts", c.iqErrorTexts), ("errorArms", c.iqErrorArms)]

def builderChecks (c : Counts) : List (String × ℕ) :=
  [("argPathAttrs", c.iqArgPathAttrs), ("argPathContents", c.iqArgPathContents),
    ("argPathChildren", c.iqArgPathChildren), ("elementValues", c.iqElementValues),
    ("optionalChildren", c.iqOptionalChildren),
    ("presenceFlagChildren", c.iqPresenceFlagChildren), ("repeatBounds", c.iqRepeatBounds)]

def notifChecks (c : Counts) : List (String × ℕ) :=
  [("typedContent", c.notifTypedContent), ("stanzaTags", c.notifStanzaTags),
    ("actions", c.notifActions), ("actionShapes", c.notifActionShapes)]

/-- The ids of the operations: the extracted ones are summed, and the names in place of an id are
guarded the other way round. -/
def mexDropped (mex : Json ν) (c : Counts) : List String :=
  let prevIds := (["docIdsInline", "docIdsFromSibling"].filterMap (prev S mex)).sum
  let prevFallback := (prev S mex "docIdsFromName").getD 0
  dropped S "mex." mex [("presenceAlways", c.mexPresenceAlways)] ++
    (if c.mexDocIdsExtracted < prevIds then
      [regression "mex.docIds(extracted)" prevIds c.mexDocIdsExtracted] else []) ++
    if c.mexDocIdsFromName > prevFallback then
      [regression "mex.docIdsFromName" prevFallback c.mexDocIdsFromName ++
        " (an operation name is not a persisted id)"] else []

def iqDropped (iq : Json ν) (c : Counts) : List String :=
  dropped S "iq." iq (iqChecks c) ++
    within (get iq "targets") (fun t => dropped S "iq.targets." t (targetChecks c)) ++
    within (get iq "constraints") (fun v => dropped S "iq.constraints." v (constraintChecks c)) ++
    within (get iq "builder") fun v => dropped S "iq.builder." v (builderChecks c)

/-- The object of a domain under `diagnostics`. -/
def diagnosed (prior : Json ν) (domain : String) : Option (Json ν) :=
  (get prior "diagnostics").bind (get · domain)

/-- The counts that dropped below those of a manifest. -/
def floorOf (prior : Json ν) (c : Counts) : List String :=
  dropped S "" prior (totals c) ++
    within (diagnosed prior "wam") (fun v => dropped S "wam." v (wamChecks c)) ++
    within (diagnosed prior "mex") (fun v => mexDropped S v c) ++
    within (diagnosed prior "iq") (fun v => iqDropped S v c) ++
    within (diagnosed prior "notif") fun v => dropped S "notif." v (notifChecks c)

/-- `check_floor`: nothing when there is no manifest or it cannot be parsed. -/
def checkFloor (prior : Option Bytes) (c : Counts) : List String :=
  match prior.bind S.fromStr with
  | some v => floorOf S v.val c
  | none => []

end Floor

/-! ### Updates -/

/-- One call of `update` that is not a check: the build, whether a reduction is accepted, the locks
that are written behind the artifacts, and after how many file-system steps it is killed. -/
structure Call where
  build : Build
  allowShrink : Bool
  locks : List (LockFile × Bytes)
  cut : Option ℕ

abbrev OutDir := Disk String Empty

section Updates

variable (S : Serde ν) (sha256 : Bytes → String)

/-- What a call writes, in order. -/
def Call.writes (u : Call) (artifacts : List (String × Bytes)) : List (String × Bytes) :=
  artifacts ++ u.locks.map fun l => (l.1.path, l.2)

def cutAt {α : Type*} : Option ℕ → List α → List α
  | none, l => l
  | some k, l => l.take k

/-- Whether the guard lets a call write. -/
def Call.accepted (u : Call) (d : OutDir) : Prop :=
  checkFloor S (d.file manifestName) u.build.counts = [] ∨ u.allowShrink = true

instance Call.decidableAccepted (u : Call) (d : OutDir) : Decidable (u.accepted S d) :=
  inferInstanceAs (Decidable (_ ∨ _))

/-- `update`: nothing is written when the build fails or the guard refuses it. -/
def Call.after (u : Call) (d : OutDir) : OutDir :=
  match buildArtifacts S sha256 u.build with
  | none => d
  | some artifacts =>
    if u.accepted S d then d.run (cutAt u.cut (writeFiles (u.writes artifacts))) else d

end Updates

end Whatspec.Update

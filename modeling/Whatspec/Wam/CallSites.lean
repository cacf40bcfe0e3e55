import Mathlib.Algebra.BigOperators.Group.List.Basic
import Mathlib.Algebra.GroupWithZero.Nat
import Mathlib.Data.String.Basic
import Mathlib.Order.Fin.Basic
import Whatspec.Library.StableSort
import Whatspec.Library.Upsert

/-!
# The call sites of the events

Modules construct the events of the catalog.  Each construction is matched against the catalog and
becomes a call site of its event, or is counted as one the catalog has no entry for.  The sites of
an event are sorted and repeated neighbours dropped.

* `scanModule` attaches the writes of a module to the constructions they follow;
* `outcome` is what one construction adds to the sites and the counters, `gapsOf` to the gaps;
* `construction` is one pass of the loop, and skips the copies of a construction in a second bundle
  file;
* `publish` sorts the sites of an event and drops the repeats;
* `collectCallSites` is the whole of it.
-/

namespace Whatspec.Wam

open Whatspec.Library

/-! ### Constructions -/

inductive WamFieldWrite where
  | constructor
  | assigned
  deriving DecidableEq

inductive WamCallSiteValue where
  | bool (value : Bool)
  | int (value : ℤ)
  | str (value : String)
  | enumMember (module key : String)
  deriving DecidableEq

structure WamCallSiteField where
  name : String
  write : WamFieldWrite
  value : Option WamCallSiteValue
  deriving DecidableEq

/-- What the value of a construction is bound to. -/
inductive Binding where
  | localName (name : String) (function : ℕ)
  | instanceName (name : String) (owner : ℕ)
  deriving DecidableEq

/-- A construction of one module, before it is matched against the catalog. -/
structure RawSite where
  eventModule : String
  exportName : String
  fields : List WamCallSiteField
  isPartial : Bool
  unreadArgument : Option String
  start : ℕ
  stop : ℕ
  binding : Option Binding
  deriving DecidableEq

/-- A write to a bound value; without a field, one whose key is not readable. -/
structure RawWrite where
  binding : Binding
  field : Option String
  value : Option WamCallSiteValue
  start : ℕ
  scope : List ℕ
  declaredIn : Option ℕ

/-- Whether the binding of a construction is the one a write names. -/
def binds (binding : Option Binding) (w : RawWrite) : Bool :=
  match binding, w.binding with
  | some (.localName name function), .localName n _ =>
    name = n && match w.declaredIn with
      | some scope => scope = function
      | none => w.scope.contains function
  | some b, other => b = other
  | none, _ => false

/-- A write adds its field to the site, or takes the values of all fields back. -/
def applyWrite (w : RawWrite) (site : RawSite) : RawSite :=
  match w.field with
  | some field => { site with fields := site.fields ++ [⟨field, .assigned, w.value⟩] }
  | none =>
    { site with
      fields := site.fields.map fun f => { f with value := none }
      isPartial := true }

/-- Change the last element that satisfies a test, if there is one. -/
def modifyLast {α : Type} (test : α → Bool) (change : α → α) : List α → Option (List α)
  | [] => none
  | x :: rest =>
    match modifyLast test change rest with
    | some changed => some (x :: changed)
    | none => if test x then some (change x :: rest) else none

/-- The nearest construction before a write that binds the same name gets it. -/
def attachWrite (sites : List RawSite) (w : RawWrite) : List RawSite :=
  (modifyLast (fun s => s.start < w.start && binds s.binding w) (applyWrite w) sites).getD sites

/-- The constructions of a module, from the constructions and writes the visitor found in it. -/
def scanModule (visited : List RawSite × List RawWrite) : List RawSite :=
  visited.2.foldl attachWrite (StableSort.sortBy RawSite.start visited.1)

/-! ### Sites -/

structure WamCallSite where
  module : String
  fields : List WamCallSiteField
  isPartial : Bool
  deriving DecidableEq

structure WamField where
  name : String
  deriving DecidableEq

/-- An event as the catalog has it before any site is attached. -/
structure WamEventSchema where
  module : String
  fields : List WamField
  deriving DecidableEq

structure WamEvent extends WamEventSchema where
  callSites : List WamCallSite
  deriving DecidableEq

structure ModuleDefinition where
  name : String
  deps : List String
  start : ℕ
  text : String
  deriving DecidableEq

structure WamGapSite where
  module : String
  moduleStart : ℕ
  start : ℕ
  stop : ℕ
  eventModule : String
  eventExport : String
  reason : String
  field : Option String
  deriving DecidableEq

def samplingWeightProperty : String := "weight"

def writtenKeyNoField : String := "written key naming no field of the event"

def constructionNoCatalogEntry : String := "construction of an event with no catalog entry"

def unreadArgumentPrefix : String := "unreadConstructionArgument"

/-- Two writes of one field as one. -/
def mergeWrite (prev f : WamCallSiteField) : WamCallSiteField where
  name := prev.name
  write := if f.write = .constructor then .constructor else prev.write
  value := if prev.value ≠ f.value then none else prev.value

/-- One more write, after those of the names before it. -/
def pushWrite (out : List WamCallSiteField) (f : WamCallSiteField) : List WamCallSiteField :=
  match out.getLast? with
  | some prev => if prev.name = f.name then out.dropLast ++ [mergeWrite prev f] else out ++ [f]
  | none => out ++ [f]

/-- `merge_writes`: one entry for each field, from writes sorted by name. -/
def mergeWrites (fields : List WamCallSiteField) : List WamCallSiteField :=
  fields.foldl pushWrite []

def fieldNames (s : WamCallSite) : List String := s.fields.map WamCallSiteField.name

/-- What the sites of an event are sorted by. -/
def siteKey (s : WamCallSite) : String ×ₗ (List String ×ₗ Bool) :=
  toLex (s.module, toLex (fieldNames s, s.isPartial))

/-- The published sites of an event. -/
def publish (list : List WamCallSite) : List WamCallSite :=
  DecisionTable.dropRepeats (StableSort.sortBy siteKey list)

/-! ### The catalog -/

section
variable (catalog : List WamEventSchema)
  (exportTable : List ((String × String) × Fin catalog.length))

/-- The last event that a module defines. -/
def sole (module : String) : Option (Fin catalog.length) :=
  ((List.finRange catalog.length).filter fun i => (catalog.get i).module = module).getLast?

/-- How many events a module defines. -/
def defined (module : String) : ℕ := catalog.countP fun ev => ev.module = module

/-- Whether an event of the module carries a recovered export name. -/
def exported (module : String) : Bool := exportTable.any fun e => e.1.1 = module

/-- The event a construction is of: the one exported under its name, or the only one of a module
that has no known export names. -/
def eventOf (raw : RawSite) : Option (Fin catalog.length) :=
  ((exportTable.find? fun e => e.1 = (raw.eventModule, raw.exportName)).map Prod.snd).or
    (if defined catalog raw.eventModule = 1 ∧ exported catalog exportTable raw.eventModule = false
      then sole catalog raw.eventModule else none)

end

/-- The writes of a construction, sorted out against the fields of its event. -/
structure ReadFields where
  fields : List WamCallSiteField
  isPartial : Bool
  unknown : List String
  overrides : ℕ

/-- A write of no field of the event is an override of the weight, or makes the site partial. -/
def readFields (ev : WamEventSchema) : Bool → List WamCallSiteField → ReadFields
  | isPartial, [] => ⟨[], isPartial, [], 0⟩
  | isPartial, f :: rest =>
    if ev.fields.any fun known => known.name = f.name then
      let read := readFields ev isPartial rest
      { read with fields := f :: read.fields }
    else if f.name = samplingWeightProperty then
      let read := readFields ev isPartial rest
      { read with overrides := read.overrides + 1 }
    else
      let read := readFields ev true rest
      { read with unknown := f.name :: read.unknown }

/-- What one construction adds: the reasons of what it drops, the overrides of the weight, and its
site. -/
structure Outcome (n : ℕ) where
  reasons : List String
  overrides : ℕ
  site : Option (Fin n × WamCallSite)

def unreadReasons (raw : RawSite) : List String :=
  raw.unreadArgument.toList.map fun form => unreadArgumentPrefix ++ "." ++ form

section
variable (catalog : List WamEventSchema)
  (exportTable : List ((String × String) × Fin catalog.length))

def outcome (module : String) (raw : RawSite) : Outcome catalog.length :=
  match eventOf catalog exportTable raw with
  | none => ⟨unreadReasons raw ++ [constructionNoCatalogEntry], 0, none⟩
  | some index =>
    let read := readFields (catalog.get index) raw.isPartial raw.fields
    ⟨unreadReasons raw ++ read.unknown.map fun _ => writtenKeyNoField, read.overrides,
      some (index,
        ⟨module, mergeWrites (StableSort.sortBy WamCallSiteField.name read.fields),
          read.isPartial⟩)⟩

/-- Where the drops of a construction are. -/
def gapsOf (m : ModuleDefinition) (raw : RawSite) : List WamGapSite :=
  let gap (reason : String) (field : Option String) : WamGapSite :=
    ⟨m.name, m.start, raw.start, raw.stop, raw.eventModule, raw.exportName, reason, field⟩
  (unreadReasons raw).map (fun reason => gap reason none) ++
    match eventOf catalog exportTable raw with
    | none => [gap constructionNoCatalogEntry none]
    | some index =>
      (readFields (catalog.get index) raw.isPartial raw.fields).unknown.map fun name =>
        gap writtenKeyNoField (some name)

/-! ### The loop -/

structure WamDiagnostics where
  constructions : ℕ
  callSites : ℕ
  partialCallSites : ℕ
  callSiteFields : ℕ
  callSiteFieldValues : ℕ
  duplicateCallSites : ℕ
  samplingWeightOverrides : ℕ
  dropsByReason : String → ℕ

/-- One construction, counted. -/
def WamDiagnostics.charge {n : ℕ} (diag : WamDiagnostics) (o : Outcome n) : WamDiagnostics :=
  { diag with
    constructions := diag.constructions + 1
    samplingWeightOverrides := diag.samplingWeightOverrides + o.overrides
    dropsByReason := fun reason => diag.dropsByReason reason + o.reasons.count reason }

/-- The sites of one event, counted. -/
def WamDiagnostics.count (diag : WamDiagnostics) (before : ℕ) (list : List WamCallSite) :
    WamDiagnostics :=
  { diag with
    duplicateCallSites := diag.duplicateCallSites + (before - list.length)
    callSites := diag.callSites + list.length
    partialCallSites := diag.partialCallSites + list.countP WamCallSite.isPartial
    callSiteFields := diag.callSiteFields + (list.map fun s => s.fields.length).sum
    callSiteFieldValues := diag.callSiteFieldValues +
      (list.map fun s => s.fields.countP fun f => f.value.isSome).sum }

structure Collected where
  diag : WamDiagnostics
  sites : List (Fin catalog.length × List WamCallSite)
  seen : List (String × String × ℕ)
  gaps : Option (List WamGapSite)

/-- A second copy of a module is the same source, not a second site. -/
def construction (m : ModuleDefinition) (c : Collected catalog) (raw : RawSite) :
    Collected catalog :=
  if (m.name, raw.eventModule, raw.start) ∈ c.seen then c
  else
    let o := outcome catalog exportTable m.name raw
    { diag := c.diag.charge o
      sites := match o.site with
        | some site => Upsert.upsert Upsert.keepAll c.sites site
        | none => c.sites
      seen := (m.name, raw.eventModule, raw.start) :: c.seen
      gaps := c.gaps.map fun gaps => gaps ++ gapsOf catalog exportTable m raw }

/-- Only a module that depends on an event module can construct an event. -/
def ModuleDefinition.reachesEvents (m : ModuleDefinition) : Bool :=
  m.deps.any fun d => d.endsWith "WamEvent"

/-- Every construction of every module, the copies left out. -/
def constructions (visit : String → List RawSite × List RawWrite) (c : Collected catalog)
    (modules : List ModuleDefinition) : Collected catalog :=
  modules.foldl (fun c m =>
    if m.reachesEvents then
      (scanModule (visit m.text)).foldl (construction catalog exportTable m) c
    else c) c

/-- `events[index].call_sites = list`. -/
def setCallSites (events : List WamEvent) (index : ℕ) (list : List WamCallSite) : List WamEvent :=
  events.modify index fun ev => { ev with callSites := list }

/-- The sites of every event that has some. -/
def publishAll : List (Fin catalog.length × List WamCallSite) → List WamEvent × WamDiagnostics →
    List WamEvent × WamDiagnostics
  | [], state => state
  | (index, list) :: rest, (events, diag) =>
    publishAll rest (setCallSites events index (publish list),
      diag.count list.length (publish list))

/-- `collect_call_sites`, on events that carry no sites yet. -/
def collectCallSites (visit : String → List RawSite × List RawWrite) (diag : WamDiagnostics)
    (gaps : Option (List WamGapSite)) (modules : List ModuleDefinition) :
    (List WamEvent × WamDiagnostics) × Option (List WamGapSite) :=
  let c := constructions catalog exportTable visit ⟨diag, [], [], gaps⟩ modules
  (publishAll catalog c.sites (catalog.map fun schema => ⟨schema, []⟩, c.diag), c.gaps)

end

end Whatspec.Wam

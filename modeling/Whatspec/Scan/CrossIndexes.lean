import Mathlib.Data.Prod.Lex
import Mathlib.Data.String.Basic
import Whatspec.Library.Grouping
import Whatspec.Library.Upsert
import Whatspec.Scan.Request

/-!
# What other modules say of a leaf

A request builder writes a leaf without its length and often without its value.  Two indexes over
the whole bundle know more: the parsers read a field with an explicit length, and the callers of a
builder hand it a constant.

* `ContentLengthIndex` maps a tag under its parent, and a tag alone, to a length and the module it
  was read in;
* `ConstValueIndex` maps a tag to the zero bytes that every builder feeds it, and the argument they
  come through;
* `enrichLengths` and `enrichConsts` put both onto a request tree.

What a pass reads of one module depends on that module's text alone; a `ModuleDefinition` carries
it.
-/

namespace Whatspec.Scan

open Whatspec.Library

/-- The content that a builder call feeds its tag: an argument of the builder, or anything else. -/
inductive Content where
  | arg (name : String)
  | dynamic
  deriving DecidableEq

/-- A module, with what the passes read in its slice. -/
structure ModuleDefinition where
  name : String
  /-- The slice mentions `contentBytes(` or `contentUint(`. -/
  mentionsSizedContent : Bool
  /-- `collect_module`: parent tag, tag and length of each sized read. -/
  sizedReads : List (String × String × ℕ)
  /-- The slice mentions `ElementValue`. -/
  mentionsArgument : Bool
  /-- The slice mentions `.smax(` or `.wap(`. -/
  mentionsBuilder : Bool
  panicked : Bool
  /-- The object properties in the slice: the key, and N where the value is
  `new Uint8Array(N)`. -/
  properties : List (String × Option ℕ)
  /-- What the builder calls in the slice feed their tags, in source order. -/
  builderCalls : List (String × Content)
  deriving DecidableEq

/-- The definitions of each name that come first. -/
def scannedFrom : List String → List ModuleDefinition → List ModuleDefinition
  | _, [] => []
  | scanned, m :: ms =>
    if m.name ∈ scanned then scannedFrom scanned ms
    else m :: scannedFrom (m.name :: scanned) ms

def scanned (defs : List ModuleDefinition) : List ModuleDefinition := scannedFrom [] defs

/-! ### Content lengths -/

/-- A tag under its parent. -/
abbrev TagPath := String ×ₗ String

structure ContentLengthIndex where
  byPath : List (TagPath × ℕ × String)
  byTag : List (String × ℕ × String)
  deriving DecidableEq

/-- The sized reads of the bundle: the path, and the length with the module it was read in. -/
def sizedReads (defs : List ModuleDefinition) : List (TagPath × ℕ × String) :=
  (scanned defs).flatMap fun m =>
    if m.mentionsSizedContent then
      m.sizedReads.map fun r => (toLex (r.1, r.2.1), r.2.2, m.name)
    else []

/-- The lengths seen for each path. -/
def seenLengths (reads : List (TagPath × ℕ × String)) : List (TagPath × List ℕ) :=
  Grouping.group (reads.map fun r => (r.1, r.2.1))

/-- The smallest name of a module that reads the path. -/
def sourceModule (reads : List (TagPath × ℕ × String)) : List (TagPath × String) :=
  Upsert.foldEntries Upsert.keepLeast (reads.map fun r => (r.1, r.2.2))

/-- The paths of one length, with it and its source. -/
def singleLengths (lengths : List (TagPath × List ℕ)) (sources : List (TagPath × String)) :
    List (TagPath × ℕ × String) :=
  lengths.filterMap fun e =>
    match e.2 with
    | [len] => some (e.1, len, (SortedMap.get sources e.1).getD "")
    | _ => none

/-- The index of what was seen. -/
def ContentLengthIndex.ofSeen (lengths : List (TagPath × List ℕ))
    (sources : List (TagPath × String)) : ContentLengthIndex where
  byPath := singleLengths lengths sources
  byTag :=
    -- A tag's lengths are those of all its paths; its source is that of its first single one.
    let tagLengths := Grouping.group
      (lengths.flatMap fun e => e.2.map fun len => ((ofLex e.1).2, len))
    let tagSource := Upsert.foldEntries Upsert.keepFirst
      ((singleLengths lengths sources).map fun e => ((ofLex e.1).2, e.2.2))
    tagLengths.filterMap fun e =>
      match e.2, SortedMap.get tagSource e.1 with
      | [len], some src => some (e.1, len, src)
      | _, _ => none

/-- `build_pass` of the content lengths. -/
def contentLengthIndex (defs : List ModuleDefinition) : ContentLengthIndex :=
  .ofSeen (seenLengths (sizedReads defs)) (sourceModule (sizedReads defs))

/-! ### Constant values -/

structure ConstValueIndex where
  byTag : List (String × ℕ × String)
  deriving DecidableEq

def argSuffix : String := "ElementValue"

def isArgument (name : String) : Bool := argSuffix.toList.isSuffixOf name.toList

/-- The values that object literals of the bundle give to builder arguments. -/
def assignments (defs : List ModuleDefinition) : List (String × Option ℕ) :=
  (scanned defs).flatMap fun m =>
    if m.mentionsArgument && !m.panicked then
      m.properties.filter fun p => isArgument p.1
    else []

/-- `collect_arg_consts`: the length of an argument to which every object literal gives the same
`new Uint8Array(N)`. -/
def collectArgConsts (defs : List ModuleDefinition) (arg : String) : Option ℕ :=
  let lengths := Grouping.group ((assignments defs).filterMap fun p => p.2.map fun n => (p.1, n))
  let sawNonConst := (assignments defs).any fun p => p.1 = arg && p.2.isNone
  if sawNonConst then none
  else
    match SortedMap.get lengths arg with
    | some [n] => some n
    | _ => none

/-- The builder calls of the bundle. -/
def builderCalls (defs : List ModuleDefinition) : List (String × Content) :=
  (scanned defs).flatMap fun m =>
    if m.mentionsBuilder && !m.panicked then m.builderCalls else []

/-- A call that feeds its tag through a proven constant: the tag, the constant and the argument. -/
def constCall (argConsts : String → Option ℕ) (call : String × Content) :
    Option (String × ℕ × String) :=
  match call.2 with
  | .arg name => (argConsts name).map fun n => (call.1, n, name)
  | .dynamic => none

/-- The index of what was seen: the constants of each tag, the tags fed anything else, and the
argument that is named as the source. -/
def ConstValueIndex.ofSeen (consts : List (String × List ℕ)) (isDynamic : String → Bool)
    (argSource : List (String × String)) : ConstValueIndex where
  byTag := consts.filterMap fun e =>
    if isDynamic e.1 then none
    else
      match e.2, SortedMap.get argSource e.1 with
      | [n], some src => some (e.1, n, src)
      | _, _ => none

/-- `collect_tag_consts`. -/
def collectTagConsts (calls : List (String × Content)) (argConsts : String → Option ℕ) :
    ConstValueIndex :=
  .ofSeen
    (Grouping.group ((calls.filterMap (constCall argConsts)).map fun c => (c.1, c.2.1)))
    (fun tag => calls.any fun call => call.1 = tag && (constCall argConsts call).isNone)
    (Upsert.foldEntries Upsert.keepFirst
      ((calls.filterMap (constCall argConsts)).map fun c => (c.1, c.2.2)))

/-- `build_pass` of the constant values. -/
def constValueIndex (defs : List ModuleDefinition) : ConstValueIndex :=
  collectTagConsts (builderCalls defs) (collectArgConsts defs)

/-! ### Enrichment -/

/-- A content of which nothing is said. -/
def WapContent.default : WapContent := ⟨.dynamic, none, none, none, none, none, none⟩

/-- Pin a constant on a content. -/
def WapContent.pin (content : WapContent) (n : ℕ) (src : String) : WapContent :=
  { content with
    kind := .bytes
    constBytes := some (String.join (List.replicate n "00"))
    byteLength := some (content.byteLength.getD n)
    valueSource := some s!"const:{src}" }

/-- The content of a leaf with a proven constant: only opaque content is filled, and only a true
leaf gains one. -/
def fillConst (index : ConstValueIndex) (tag : String) (isLeaf : Bool)
    (content : Option WapContent) : Option WapContent :=
  match SortedMap.get index.byTag tag with
  | none => content
  | some (n, src) =>
    match content with
    | some c =>
      if c.kind = .dynamic ∧ c.value = none ∧ c.constBytes = none then some (c.pin n src) else some c
    | none => if isLeaf then some (WapContent.default.pin n src) else none

/-- The length and provenance that the index has for a field. -/
def ContentLengthIndex.resolve (index : ContentLengthIndex) (parent tag : String)
    (fallback : Bool) : Option (ℕ × String) :=
  match SortedMap.get index.byPath (toLex (parent, tag)) with
  | some (len, src) => some (len, s!"parse:{src}")
  | none =>
    if fallback then
      (SortedMap.get index.byTag tag).map fun e => (e.1, s!"parse:{e.2} (by-tag)")
    else none

/-- The content of a leaf whose length the parsers say: a written length stays. -/
def fillLength (resolved : Option (ℕ × String)) (content : Option WapContent) : Option WapContent :=
  match content, resolved with
  | some c, some (len, source) =>
    if c.byteLength = none then
      some { c with
        byteLength := some len
        byteLengthSource := some source
        kind := if c.kind = .dynamic then .bytes else c.kind }
    else some c
  | content, _ => content

mutual

/-- `enrich` of the constant values, on one node. -/
def WapChildNode.enrichConsts (index : ConstValueIndex) : WapChildNode → WapChildNode
  | ⟨tag, attrs, children, content, repeats, presence, least, most, path, groups⟩ =>
    ⟨tag, attrs, enrichConstNodes index children,
      fillConst index tag (children.isEmpty && groups.isEmpty) content, repeats, presence, least,
      most, path, enrichConstGroups index groups⟩

def enrichConstNodes (index : ConstValueIndex) : List WapChildNode → List WapChildNode
  | [] => []
  | n :: ns => n.enrichConsts index :: enrichConstNodes index ns

def enrichConstGroups (index : ConstValueIndex) :
    List (WapVariantGroup WapChildNode) → List (WapVariantGroup WapChildNode)
  | [] => []
  | ⟨optional, variants⟩ :: gs =>
    ⟨optional, enrichConstVariants index variants⟩ :: enrichConstGroups index gs

def enrichConstVariants (index : ConstValueIndex) :
    List (WapVariant WapChildNode) → List (WapVariant WapChildNode)
  | [] => []
  | ⟨attrs, children⟩ :: vs =>
    ⟨attrs, enrichConstNodes index children⟩ :: enrichConstVariants index vs

end

mutual

/-- `enrich` of the content lengths, on one node under its parent's tag. -/
def WapChildNode.enrichLengths (index : ContentLengthIndex) (fallback : String → Bool)
    (parent : String) : WapChildNode → WapChildNode
  | ⟨tag, attrs, children, content, repeats, presence, least, most, path, groups⟩ =>
    ⟨tag, attrs, enrichLengthNodes index fallback tag children,
      fillLength (index.resolve parent tag (fallback tag)) content, repeats, presence, least, most,
      path, enrichLengthGroups index fallback tag groups⟩

def enrichLengthNodes (index : ContentLengthIndex) (fallback : String → Bool) (parent : String) :
    List WapChildNode → List WapChildNode
  | [] => []
  | n :: ns =>
    n.enrichLengths index fallback parent :: enrichLengthNodes index fallback parent ns

def enrichLengthGroups (index : ContentLengthIndex) (fallback : String → Bool) (parent : String) :
    List (WapVariantGroup WapChildNode) → List (WapVariantGroup WapChildNode)
  | [] => []
  | ⟨optional, variants⟩ :: gs =>
    ⟨optional, enrichLengthVariants index fallback parent variants⟩ ::
      enrichLengthGroups index fallback parent gs

def enrichLengthVariants (index : ContentLengthIndex) (fallback : String → Bool)
    (parent : String) : List (WapVariant WapChildNode) → List (WapVariant WapChildNode)
  | [] => []
  | ⟨attrs, children⟩ :: vs =>
    ⟨attrs, enrichLengthNodes index fallback parent children⟩ ::
      enrichLengthVariants index fallback parent vs

end

/-- The constants and then the lengths, on the children of a request. -/
def enrich (consts : ConstValueIndex) (lengths : ContentLengthIndex) (fallback : String → Bool)
    (parent : String) (children : List WapChildNode) : List WapChildNode :=
  let children := if consts.byTag.isEmpty then children else enrichConstNodes consts children
  if lengths.byPath.isEmpty && lengths.byTag.isEmpty then children
  else enrichLengthNodes lengths fallback parent children

end Whatspec.Scan

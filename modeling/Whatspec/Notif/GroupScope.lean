import Mathlib.Data.List.Dedup
import Whatspec.Library.ScopedCode

/-!
# The scopes of a group handler

Two validators walk the text of a group handler, each with visitors of its own.

* `validateImportBindings` accepts a module whose imports go through the loaders that the module
  system passes: `loaderAliases` reads the wrapper, `bindings` what a function declares and assigns,
  `check` every function with the loaders that are not shadowed in it;
* `validateCapturedWrites` accepts a function that writes nothing of the code around but one marker:
  `locals` reads what a function declares, `invalidWrites` its writes.

A set of names is a list.  The parser gives every function a body, and targets lose their
parentheses.
-/

namespace Whatspec.Notif.GroupScope

open Whatspec.Library.ScopedCode
open Whatspec.Library.ScopedCode.Node

def isPreservedGlobal (name : String) : Bool := name = "Boolean" || name = "babelHelpers"

/-- `get_identifier_name`. -/
def identifierName : Node → Option String
  | .identifier x => some x
  | _ => none

mutual

/-- `assignment_names`: the identifiers an assignment target writes, at whatever depth. -/
def assignmentNames : Node → List String
  | .identifier x => [x]
  | .targets ts _ => assignmentNamesAll ts
  | _ => []
termination_by n => 3 * sizeOf n
decreasing_by
  have h := weight_children (.targets ts ‹_›)
  simp only [children, weight_append] at h
  omega

def assignmentNamesAll : List Node → List String
  | [] => []
  | n :: ns => assignmentNames n ++ assignmentNamesAll ns
termination_by ns => weight ns
decreasing_by
  all_goals simp only [weight]
  all_goals omega

end

/-- A binding identifier without an initializer. -/
def isPlainBinding : Node → Bool
  | .binding _ => true
  | _ => false

theorem isPlainBinding_iff {n : Node} : isPlainBinding n = true ↔ ∃ x, n = .binding x := by
  cases n with
  | binding x => exact ⟨fun _ => ⟨x, rfl⟩, fun _ => rfl⟩
  | _ => exact ⟨nofun, fun ⟨_, h⟩ => nomatch h⟩

def bindingName : Node → Option String
  | .binding x => some x
  | _ => none

/-! ### The wrapper of the module -/

mutual

/-- The visitor `Writes` of `loader_aliases`: a loader is declared again or assigned. -/
def changesLoader (loaders : List String) : Node → Bool
  | .function head .. => head.id.any (· ∈ loaders)
  | .binding x => x ∈ loaders
  | .assignment _ left right =>
    (assignmentNames left).any (· ∈ loaders) || changesLoader loaders left ||
      changesLoader loaders right
  | .update argument =>
    (identifierName argument).any (· ∈ loaders) || changesLoader loaders argument
  | .declarator id init =>
    (bindingName id).any (· ∈ loaders) || changesLoader loaders id || changesLoaderAny loaders init
  | .classNode _ id parts => id.any (· ∈ loaders) || changesLoaderAny loaders parts
  | n => changesLoaderAny loaders n.children
termination_by n => 3 * sizeOf n
decreasing_by
  · rw [assignment.sizeOf_spec]
    omega
  · rw [assignment.sizeOf_spec]
    omega
  · rw [update.sizeOf_spec]
    omega
  · rw [declarator.sizeOf_spec]
    omega
  · have := weight_le init
    rw [declarator.sizeOf_spec]
    omega
  · exact weight_children (.classNode _ id parts)
  · exact weight_children n

def changesLoaderAny (loaders : List String) : List Node → Bool
  | [] => false
  | n :: ns => changesLoader loaders n || changesLoaderAny loaders ns
termination_by ns => weight ns
decreasing_by
  all_goals simp only [weight]
  all_goals omega

end

/-- The parts of a function expression that the wrapper's factory has. -/
structure Factory where
  head : FunctionHead
  parameters : List Node
  rest : List Node
  body : List Node

/-- The third argument of the wrapper, when it is a function. -/
def factoryOf (arguments : List Node) : Option Factory :=
  match arguments[2]?.map withoutParentheses with
  | some (.function head parameters rest body) => some ⟨head, parameters, rest, body⟩
  | _ => none

/-- The wrapper is that of the group handler. -/
def namesHandler : List Node → Bool
  | .text name :: _ => name = "WAWebHandleGroupNotification"
  | _ => false

/-- The names of the parameters that take the three loaders. -/
def Factory.loaders (f : Factory) : List String :=
  ((f.parameters.drop 1).take 3).filterMap bindingName

def Factory.parameterNames (f : Factory) : List String := f.parameters.filterMap bindingName

def loaderAliases (statements : List Node) : Except String (List String) :=
  match statements with
  | [.compound .expressionStatement [e]] =>
    match e with
    | .call callee arguments =>
      if identifierName callee ≠ some "__d" || arguments.length ≠ 4 ||
          !namesHandler arguments then
        .error "module wrapper identity"
      else
        match factoryOf arguments with
        | none => .error "module factory"
        | some f =>
          if f.head.isAsync || f.head.isGenerator || !f.rest.isEmpty || f.parameters.length ≠ 7 ||
              f.parameters.any (!isPlainBinding ·) then
            .error "module loader bindings"
          else if f.loaders.dedup.length ≠ 3 ||
              f.parameterNames.dedup.length ≠ f.parameters.length ||
              f.parameterNames.any (fun x => isPreservedGlobal x || x = "arguments") then
            .error "ambiguous module loaders"
          else if changesLoaderAny f.loaders f.body then
            .error "module loader is reassigned"
          else
            .ok f.loaders
    | _ => .error "module wrapper call"
  | _ => .error "expected one complete Metro module"

/-! ### What a function declares and assigns -/

/-- The visitor `Bindings`. -/
structure Bindings where
  names : List String := []
  lexical : List String := []
  assignments : List String := []

def Bindings.append (a b : Bindings) : Bindings :=
  ⟨a.names ++ b.names, a.lexical ++ b.lexical, a.assignments ++ b.assignments⟩

instance : Append Bindings := ⟨Bindings.append⟩

/-- What an inner walk found, all of it lexical. -/
def Bindings.moved (b : Bindings) : Bindings :=
  { lexical := b.names ++ b.lexical, assignments := b.assignments }

mutual

def bindings : Node → Bindings
  | .declaration false declarators => (bindingsAll declarators).moved
  | .catchClause parameter body => (bindingsAll parameter).moved ++ bindings body
  | .classNode _ id parts => ({ names := id.toList } ++ bindingsAll parts : Bindings).moved
  | .binding x => { names := [x] }
  | .function head .. => { lexical := head.id.toList }
  | .update argument =>
    ({ assignments := (identifierName argument).toList } : Bindings) ++ bindings argument
  | .assignment _ left right =>
    ({ assignments := assignmentNames left } : Bindings) ++ bindings left ++ bindings right
  | n => bindingsAll n.children
termination_by n => 3 * sizeOf n
decreasing_by
  · exact weight_children (.declaration false declarators)
  · have := weight_le parameter
    rw [catchClause.sizeOf_spec]
    omega
  · rw [catchClause.sizeOf_spec]
    omega
  · exact weight_children (.classNode _ id parts)
  · rw [update.sizeOf_spec]
    omega
  · rw [assignment.sizeOf_spec]
    omega
  · rw [assignment.sizeOf_spec]
    omega
  · exact weight_children n

def bindingsAll : List Node → Bindings
  | [] => {}
  | n :: ns => bindings n ++ bindingsAll ns
termination_by ns => weight ns
decreasing_by
  all_goals simp only [weight]
  all_goals omega

end

/-! ### The imports of the module -/

def shadowedGlobal (name : String) : List String :=
  if isPreservedGlobal name then ["global " ++ name ++ " is shadowed"] else []

/-- The name of a known module as the first argument. -/
def importsKnown (modules : List String) (arguments : List Node) : Bool :=
  match arguments with
  | .text name :: _ => name ∈ modules
  | _ => false

def simpleParameters (parameters rest : List Node) : Bool :=
  rest.isEmpty && parameters.all isPlainBinding

/-- What a function declares and assigns; its own name counts as one of its names. -/
def functionBindings (head : FunctionHead) (parameters body : List Node) : Bindings :=
  bindingsAll parameters ++ { names := head.id.toList } ++ bindingsAll body

mutual

/-- The visitor `Check`: its errors. -/
def check (modules aliases : List String) : Node → List String
  | .identifier x =>
    if x = "arguments" then ["arguments mappings and escapes require qualification"] else []
  | .delete argument =>
    "property deletion requires effect qualification" :: check modules aliases argument
  | .binding x => shadowedGlobal x
  | .assignment _ left right =>
    (if (assignmentNames left).any isPreservedGlobal then ["preserved global is assigned"]
      else []) ++ check modules aliases left ++ check modules aliases right
  | .update argument =>
    (if (identifierName argument).any isPreservedGlobal then ["preserved global is updated"]
      else []) ++ check modules aliases argument
  | .iteration .. => ["iteration assignment scopes require qualification"]
  | .arrow .. => ["arrow-function scope requires explicit qualification"]
  | .function head parameters rest body =>
    if simpleParameters parameters rest then
      let b := functionBindings head parameters body
      let next := aliases.filter (· ∉ b.names)
      (if aliases.any (· ∈ b.lexical) then ["lexical binding collides with captured module loader"]
        else []) ++
      (if b.assignments.any (· ∈ next) then ["module loader assigned through enclosing scope"]
        else []) ++
      head.id.toList.flatMap shadowedGlobal ++ checkAll modules next parameters ++
        checkAll modules next body
    else
      ["non-simple parameter scopes require qualification"]
  | .classNode _ id parts => id.toList.flatMap shadowedGlobal ++ checkAll modules aliases parts
  | .call callee arguments =>
    (if identifierName (withoutParentheses callee) = some "eval" then
      ["direct eval can mutate lexical bindings"] else []) ++
    (if importsKnown modules arguments &&
        (arguments.length ≠ 1 || !(identifierName callee).any (· ∈ aliases)) then
      ["module import uses an effectful, free or shadowed loader"] else []) ++
    check modules aliases callee ++ checkAll modules aliases arguments
  | n => checkAll modules aliases n.children
termination_by n => 3 * sizeOf n
decreasing_by
  · rw [delete.sizeOf_spec]
    omega
  · rw [assignment.sizeOf_spec]
    omega
  · rw [assignment.sizeOf_spec]
    omega
  · rw [update.sizeOf_spec]
    omega
  · have := weight_le parameters
    rw [function.sizeOf_spec]
    omega
  · have := weight_le body
    rw [function.sizeOf_spec]
    omega
  · exact weight_children (.classNode _ id parts)
  · rw [call.sizeOf_spec]
    omega
  · have := weight_le arguments
    rw [call.sizeOf_spec]
    omega
  · exact weight_children n

def checkAll (modules aliases : List String) : List Node → List String
  | [] => []
  | n :: ns => check modules aliases n ++ checkAll modules aliases ns
termination_by ns => weight ns
decreasing_by
  all_goals simp only [weight]
  all_goals omega

end

/-- The dependencies the wrapper names. -/
def dependencies : List Node → Except String (List String)
  | [] => .ok []
  | .text name :: rest => (dependencies rest).map (name :: ·)
  | .compound .spread _ :: _ | .compound .elision _ :: _ => .error "spread/hole dependency"
  | _ :: _ => .error "dynamic dependency"

def validateImportBindings (statements : List Node) (knownModules : List String) :
    Except String Unit :=
  match loaderAliases statements with
  | .error e => .error e
  | .ok aliases =>
    match statements with
    | [.compound .expressionStatement [.call _ arguments]] =>
      match arguments[1]? with
      | some (Node.compound .array elements) =>
        match dependencies elements with
        | .error e => .error e
        | .ok deps =>
          match factoryOf arguments with
          | none => .error "module factory"
          | some f =>
            let errors := checkAll (knownModules ++ deps) aliases f.body
            if errors.isEmpty then .ok () else .error ("; ".intercalate errors)
      | _ => .error "nonliteral dependencies"
    | _ => .error "module wrapper"

/-! ### The writes of a function -/

/-- The visitor `Locals`: what a function declares, and what is declared in its blocks. -/
structure Locals where
  bound : List String := []
  lexical : List String := []

def Locals.append (a b : Locals) : Locals := ⟨a.bound ++ b.bound, a.lexical ++ b.lexical⟩

instance : Append Locals := ⟨Locals.append⟩

def Locals.moved (a : Locals) : Locals := { lexical := a.bound ++ a.lexical }

mutual

def locals : Node → Locals
  | .classNode _ id _ => { lexical := id.toList }
  | .arrow .. => {}
  | .binding x => { bound := [x] }
  | .declaration false declarators => (localsAll declarators).moved
  | .catchClause parameter body =>
    ({ lexical := (localsAll parameter).bound } : Locals) ++ locals body
  | .function head .. => { lexical := head.id.toList }
  | n => localsAll n.children
termination_by n => 3 * sizeOf n
decreasing_by
  · exact weight_children (.declaration false declarators)
  · have := weight_le parameter
    rw [catchClause.sizeOf_spec]
    omega
  · rw [catchClause.sizeOf_spec]
    omega
  · exact weight_children n

def localsAll : List Node → Locals
  | [] => {}
  | n :: ns => locals n ++ localsAll ns
termination_by ns => weight ns
decreasing_by
  all_goals simp only [weight]
  all_goals omega

end

mutual

/-- The action or helper writes nothing of the code around but the marker, a name and the place of
its assignment. -/
def validateCapturedWrites (marker : Option (String × ℕ)) (captured : List String)
    (parameters rest body : List Node) : Except String Unit :=
  if !simpleParameters parameters rest then
    .error "unsupported action/helper parameter pattern or initializer"
  else
    let found := localsAll parameters ++ localsAll body
    if captured.any (· ∈ found.lexical) then
      .error "lexical/catch binding collides with captured envelope state"
    else if marker.any (·.1 ∈ found.bound) then
      .error "action marker is shadowed by a local"
    else if invalidWritesAny marker (captured.filter (· ∉ found.bound)) body then
      .error "external action/helper mutates the envelope"
    else
      .ok ()
termination_by weight body + 1

/-- The visitor `Writes`: a write that is not allowed. -/
def invalidWrites (marker : Option (String × ℕ)) (captured : List String) : Node → Bool
  | .delete _ | .iteration .. | .arrow .. | .update _ => true
  | .function _ parameters rest body =>
    !(validateCapturedWrites marker captured parameters rest body).isOk
  | .assignment span left right =>
    (match identifierName left with
      | some name => decide (name ∈ captured) && decide (marker ≠ some (name, span))
      | none => true) || invalidWrites marker captured left || invalidWrites marker captured right
  | n => invalidWritesAny marker captured n.children
termination_by n => 3 * sizeOf n
decreasing_by
  · have := weight_le body
    rw [function.sizeOf_spec]
    omega
  · rw [assignment.sizeOf_spec]
    omega
  · rw [assignment.sizeOf_spec]
    omega
  · exact weight_children n

def invalidWritesAny (marker : Option (String × ℕ)) (captured : List String) : List Node → Bool
  | [] => false
  | n :: ns => invalidWrites marker captured n || invalidWritesAny marker captured ns
termination_by ns => weight ns
decreasing_by
  all_goals simp only [weight]
  all_goals omega

end

end Whatspec.Notif.GroupScope

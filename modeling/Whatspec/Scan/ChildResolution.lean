import Whatspec.Library.Calls
import Whatspec.Scan.ChildContributions

/-!
# The resolution of children

A child of a builder call is resolved to the nodes it stands for: through conditions and lists,
through the initializers of a variable, and through the functions that return it.  The functions
of the resolution call one another, so they are the bodies of a group of calls (`Call`).

Only a crossing into a function raises the depth, and beyond `maxFnDepth` nothing is crossed.
-/

namespace Whatspec.Scan.ChildNodes

open Whatspec.Library

/-- The module that is scanned, and what is read off its text by walks that do not come back to the
resolution. -/
structure Module where
  source : String
  /-- The first expression of a text. -/
  parse : String → Option Expression
  /-- The attributes of a builder call, with their argument paths. -/
  attrs : Expression → AliasMap → VarScope → Option ℕ → List WapAttrDef
  leafContent : List (Option Expression) → VarScope → Option ℕ → AliasMap → Option WapContent
  relativeArgPath : Expression → VarScope → Option ℕ → Option WapArgPath
  findWapCallsInBody : String → AliasMap → Option String → List WapChildNode
  collectReturnArgSources : String → List String
  collectReturnedCallNames : String → List String
  buildScopedVarScope : String → VarScope
  scopedAliases : VarScope → ℕ → AliasMap → AliasMap
  contributions : Option (List (String × List WapChildNode))
  helpers : String → String → Option (List WapChildNode)

/-- The text between two offsets. -/
def Module.text (m : Module) (span : Span) : String :=
  String.ofList ((m.source.toList.drop span.1).take (span.2 - span.1))

/-- What an expression is resolved against. -/
structure Frame where
  scope : VarScope
  aliases : AliasMap
  depth : ℕ
  refOff : Option ℕ

/-- The calls of the resolution. -/
inductive Call where
  | childNode (node : Expression) (f : Frame)
  | templateArg (arg : Expression) (f : Frame)
  | mapCall (node : Expression) (f : Frame)
  | mapperRef (mapper : Expression) (f : Frame)
  | functionReturnsEach (body : Span) (scope : VarScope) (aliases : AliasMap) (depth : ℕ)
  | functionReturn (body : Span) (scope : VarScope) (aliases : AliasMap) (depth : ℕ)
  | localMerge (span : Span) (arguments : List (Option Expression)) (f : Frame) (optional : Bool)

/-- What each call returns. -/
abbrev Resolved : Call → Type
  | .mapCall .. => Option (List WapChildNode)
  | .functionReturnsEach .. => List (List WapChildNode)
  | _ => List WapChildNode

/-- A part of the resolution. -/
abbrev Resolver (α : Type) := Prog Resolved α

abbrev askChildNode (node : Expression) (f : Frame) : Resolver (List WapChildNode) :=
  .ask (Call.childNode node f)

abbrev askTemplateArg (arg : Expression) (f : Frame) : Resolver (List WapChildNode) :=
  .ask (Call.templateArg arg f)

abbrev askMapCall (node : Expression) (f : Frame) : Resolver (Option (List WapChildNode)) :=
  .ask (Call.mapCall node f)

abbrev askMapperRef (mapper : Expression) (f : Frame) : Resolver (List WapChildNode) :=
  .ask (Call.mapperRef mapper f)

abbrev askFunctionReturnsEach (body : Span) (scope : VarScope) (aliases : AliasMap) (depth : ℕ) :
    Resolver (List (List WapChildNode)) :=
  .ask (Call.functionReturnsEach body scope aliases depth)

abbrev askFunctionReturn (body : Span) (scope : VarScope) (aliases : AliasMap) (depth : ℕ) :
    Resolver (List WapChildNode) :=
  .ask (Call.functionReturn body scope aliases depth)

abbrev askLocalMerge (span : Span) (arguments : List (Option Expression)) (f : Frame)
    (optional : Bool) : Resolver (List WapChildNode) :=
  .ask (Call.localMerge span arguments f optional)

/-! ### Lists of expressions and of functions -/

/-- The children of several expressions, those that are spread left out. -/
def resolveEach (f : Frame) : List (Option Expression) → Resolver (List WapChildNode)
  | [] => .ret []
  | none :: es => resolveEach f es
  | some e :: es => do
    let r ← askChildNode e f
    let rest ← resolveEach f es
    .ret (r ++ rest)

/-- What the first of some functions returns that returns children. -/
def firstReturn (scope : VarScope) (aliases : AliasMap) (depth : ℕ) :
    List Span → Resolver (List WapChildNode)
  | [] => .ret []
  | body :: spans => do
    let r ← askFunctionReturn body scope aliases depth
    if r.isEmpty then firstReturn scope aliases depth spans else .ret r

section

variable (m : Module)

/-! ### Variables -/

/-- The children of the first initializer that has any. -/
def tryInits (f : Frame) : List VarInit → Resolver (List WapChildNode)
  | [] => .ret []
  | init :: inits =>
    if init.appliesTo f.refOff then
      match m.parse (m.text (init.initStart, init.initEnd)) with
      | none => tryInits f inits
      | some e => do
        match ← askMapCall e f with
        | some children => .ret children
        | none =>
          let r ← askChildNode e f
          if r.isEmpty then tryInits f inits else .ret r
    else tryInits f inits

/-! ### Calls of a method -/

/-- `REPEATED_CHILD`, `OPTIONAL_CHILD` and `HAS_OPTIONAL_CHILD`. -/
def resolveCombinator (f : Frame) (owner : Option String) (method : String)
    (arguments : List (Option Expression)) : Resolver (List WapChildNode) :=
  let isChild := owner = some "WASmaxChildren"
  let repeated := isChild && method = "REPEATED_CHILD"
  let optional := isChild && method = "OPTIONAL_CHILD"
  let presenceFlag := isChild && method = "HAS_OPTIONAL_CHILD"
  match arguments with
  | some first :: rest =>
    if repeated || optional || presenceFlag then do
      let r ← askTemplateArg first f
      let (r, path) := rebaseTemplate r
        ((rest.headD none).bind fun e => m.relativeArgPath e f.scope f.refOff) repeated f.scope
        f.refOff
      if repeated then
        let (min, max) := repeatBounds arguments
        .ret (r.map fun c =>
          { c with repeats := true, repeatMin := min, repeatMax := max, argPath := path })
      else
        .ret (r.map fun c =>
          { c with presence := if optional then .optional else .presenceFlag, argPath := path })
    else .ret []
  | _ => .ret []

/-- The children of the arguments of a merge or a concatenation, behind those there are. -/
def resolveArguments (f : Frame) (isMergeStanzas : Bool) (out : List WapChildNode) :
    List (Option Expression) → Resolver (List WapChildNode)
  | [] => .ret out
  | none :: es => resolveArguments f isMergeStanzas out es
  | some e :: es => do
    let r ← askChildNode e f
    if isMergeStanzas && f.scope.bundledRpc then
      resolveArguments f isMergeStanzas (applyContribution out r false) es
    else resolveArguments f isMergeStanzas (out ++ r) es

/-- Fold what the called mixin contributes into the children of the arguments. -/
def foldMixin (f : Frame) (isOptionalMerge : Bool) (mixin : Option String)
    (arguments : List (Option Expression)) (out : List WapChildNode) : List WapChildNode :=
  match m.contributions.bind fun contribs => mixin.bind fun name => contribs.lookup name with
  | none => out
  | some contrib =>
    let argument := (arguments[if isOptionalMerge then 2 else 1]?).join
    let guard := argument.bind fun e => m.relativeArgPath e f.scope f.refOff
    let contrib := (rebaseTemplate contrib guard false f.scope f.refOff).1
    if isOptionalMerge then
      let contrib :=
        if f.scope.guardOptionalDescendants then guardOptionalAttributes guard contrib else contrib
      let contrib := contrib.map fun n =>
        guardWildcard (guard.filter (!·.isEmpty)) { n with attrs := n.attrs.map (guardAttr guard) }
      applyContribution out contrib true
    else applyContribution out contrib false

/-- A concatenation begins with the children of its receiver. -/
def resolveReceiver (f : Frame) (isConcat : Bool) (object : Expression) :
    Resolver (List WapChildNode) :=
  if isConcat then askChildNode object f else .ret []

/-- The calls of a method that compose children, if the call is one of them and has any. -/
def resolveMethod (f : Frame) (object : Expression) (method : String)
    (arguments : List (Option Expression)) : Resolver (Option (List WapChildNode)) := do
  let owner := resolveOwner f.aliases object
  let r ← resolveCombinator m f owner method arguments
  if !r.isEmpty then .ret (some r)
  else
    let isMerge := "merge".isPrefixOf method && method.contains "Mixin"
    let mergeOwner := object.requireModuleName
    let isCrossMerge := "merge".isPrefixOf method && mergeOwner.any ("WASmaxOut".isPrefixOf ·)
    let isOptionalMerge := owner = some "WASmaxMixins" && method = "optionalMerge"
    let first := arguments.headD none
    let localSpan :=
      if isOptionalMerge then
        (first.bind Expression.asIdentifier).bind fun name => localMergeSpan f.scope name f.refOff
      else none
    match localSpan with
    | some span => do
      let r ← askLocalMerge span (arguments.drop 1) f true
      .ret (some r)
    | none =>
      let isMergeStanzas := owner = some "WASmaxMixins" && method = "mergeStanzas"
      let isConcat := method = "concat"
      if isMerge || isCrossMerge || isOptionalMerge || isMergeStanzas || isConcat then do
        let out ← resolveReceiver f isConcat object
        let out ← resolveArguments f isMergeStanzas out arguments
        let mixin := if isOptionalMerge then first.bind Expression.mergeRefOwner else mergeOwner
        let out :=
          if isMerge || isCrossMerge || isOptionalMerge then
            foldMixin m f isOptionalMerge mixin arguments out
          else out
        .ret (if out.isEmpty then none else some out)
      else .ret none

def resolveComposed (f : Frame) (callee : Expression) (arguments : List (Option Expression)) :
    Resolver (Option (List WapChildNode)) :=
  match callee.asMember with
  | some (object, method) => resolveMethod m f object method arguments
  | none => .ret none

/-! ### Calls of a function -/

/-- A helper of another module, from the index. -/
def resolveIndexed (f : Frame) (callee : Expression) (arguments : List (Option Expression)) :
    List WapChildNode :=
  match callee.requireMemberCall.bind fun h => m.helpers h.1 h.2 with
  | none => []
  | some tree =>
    match (arguments.headD none).bind fun e => m.relativeArgPath e f.scope f.refOff with
    | some path => prefixArgPaths tree path
    | none => clearArgPaths tree

/-- A call of a helper. -/
def resolveHelper (f : Frame) (callee : Expression) (arguments : List (Option Expression)) :
    Resolver (List WapChildNode) :=
  match callee.asIdentifier with
  | none => .ret (resolveIndexed m f callee arguments)
  | some name =>
    match localMergeSpan f.scope name f.refOff with
    | some span => askLocalMerge span arguments f false
    | none => do
      let r ← firstReturn f.scope f.aliases (f.depth + 1) (f.scope.callableSpans name f.refOff)
      if r.isEmpty then .ret (resolveIndexed m f callee arguments)
      else
        match (arguments.headD none).bind fun e => m.relativeArgPath e f.scope f.refOff with
        | some path => .ret (prefixArgPaths r path)
        | none => .ret r

/-! ### The functions of the resolution -/

/-- A builder call, with its own children. -/
def resolveWap (f : Frame) (wap : WapCall) : Resolver (List WapChildNode) := do
  let children ← resolveEach f wap.childArgs
  .ret [{ WapChildNode.default with
    tag := wap.tag
    attrs := (wap.attrsNode.map fun e => m.attrs e f.aliases f.scope f.refOff).getD []
    children := children
    content :=
      if children.isEmpty then m.leafContent wap.childArgs f.scope f.refOff f.aliases else none }]

def resolveChildNode (node : Expression) (f : Frame) : Resolver (List WapChildNode) :=
  match node with
  | .parenthesized e => askChildNode e f
  | .conditional _ consequent alternate => do
    let out ← askChildNode consequent f
    let other ← askChildNode alternate f
    .ret (addMissing (fun c c' => c'.beq c) out other)
  | .array elements => resolveEach f elements
  | .identifier name => tryInits m f (f.scope.inits name)
  | .call callee arguments =>
    match parseWapCall f.aliases callee arguments with
    | some wap => resolveWap m f wap
    | none => do
      match ← askMapCall node f with
      | some children => .ret children
      | none =>
        match ← resolveComposed m f callee arguments with
        | some children => .ret children
        | none => resolveHelper m f callee arguments
  | _ => .ret []

def resolveTemplateArg (arg : Expression) (f : Frame) : Resolver (List WapChildNode) := do
  let spans := (arg.asIdentifier.map fun name => f.scope.callableSpans name f.refOff).getD []
  let r ← firstReturn f.scope f.aliases (f.depth + 1) spans
  if r.isEmpty then askChildNode arg f else .ret r

/-- What a mapper makes of one element. -/
def resolveMapper (mapper : Expression) (f : Frame) : Resolver (List WapChildNode) :=
  match mapper with
  | .function _ none => .ret []
  | .function params (some body) =>
    .ret (m.findWapCallsInBody body f.aliases
      (match params with | [only] => some only | _ => none))
  | _ => askMapperRef mapper f

/-- `list.map(mapper)`. -/
def resolveMapCall (node : Expression) (f : Frame) : Resolver (Option (List WapChildNode)) :=
  match node with
  | .call (.member list (some "map")) (some mapper :: _) => do
    let children ← resolveMapper m mapper f
    if children.isEmpty then .ret none
    else
      let (children, path) := rebaseTemplate children
        (m.relativeArgPath list f.scope f.refOff) true f.scope f.refOff
      .ret (some (children.map fun c => { c with repeats := true, argPath := path }))
  | _ => .ret none

def resolveMapperRef (mapper : Expression) (f : Frame) : Resolver (List WapChildNode) :=
  match mapper.requireMemberCall.bind fun h => m.helpers h.1 h.2 with
  | some tree => .ret tree
  | none =>
    let spans := (mapper.asIdentifier.map fun name => f.scope.callableSpans name f.refOff).getD []
    firstReturn f.scope f.aliases (f.depth + 1) spans

/-- The children of each `return` of a function, its text taken in parentheses. -/
def resolveReturns (f : Frame) : List String → Resolver (List (List WapChildNode))
  | [] => .ret []
  | argument :: rest =>
    match m.parse ("(" ++ argument ++ ");") with
    | none => resolveReturns f rest
    | some e => do
      let r ← askChildNode e f
      let rs ← resolveReturns f rest
      .ret (r :: rs)

def resolveFunctionReturnsEach (body : Span) (scope : VarScope) (aliases : AliasMap) (depth : ℕ) :
    Resolver (List (List WapChildNode)) :=
  if scope.maxFnDepth < depth then .ret []
  else
    let merged := scopeInside scope (m.buildScopedVarScope (m.text body)) body
    resolveReturns m ⟨merged, m.scopedAliases scope body.1 aliases, depth, some body.1⟩
      (m.collectReturnArgSources (m.text body))

/-- The functions that a function returns the calls of, tried one after another. -/
def followReturnedCalls (start : ℕ) (scope : VarScope) (aliases : AliasMap) (depth : ℕ) :
    List String → Resolver (List WapChildNode)
  | [] => .ret []
  | name :: names => do
    let r ← firstReturn scope aliases (depth + 1) (scope.callableSpans name (some start))
    if r.isEmpty then followReturnedCalls start scope aliases depth names else .ret r

def resolveFunctionReturn (body : Span) (scope : VarScope) (aliases : AliasMap) (depth : ℕ) :
    Resolver (List WapChildNode) := do
  let each ← askFunctionReturnsEach body scope aliases depth
  let flat := each.flatten
  if !flat.isEmpty then .ret flat
  else if scope.maxFnDepth < depth then .ret []
  else
    let direct := m.findWapCallsInBody (m.text body) aliases none
    if !direct.isEmpty then .ret direct
    else
      followReturnedCalls body.1 scope aliases depth
        (m.collectReturnedCallNames (m.text body))

/-- The stanza that is merged into. -/
def mergeDestination (arguments : List (Option Expression)) (f : Frame) :
    Resolver (List WapChildNode) :=
  match arguments.headD none with
  | some e => askChildNode e { f with depth := f.depth + 1 }
  | none => .ret []

/-- What a local merge function returns, its branches joined when they exclude each other. -/
def mergeFragment (span : Span) (f : Frame) : Resolver (List WapChildNode) :=
  let frame := mergeFrame f.scope span
  if (m.text span).contains "MixinGroupExhaustiveError" then do
    let branches ← askFunctionReturnsEach span frame f.aliases (f.depth + 1)
    .ret (joinBranches branches)
  else askFunctionReturn span frame f.aliases (f.depth + 1)

def resolveLocalMerge (span : Span) (arguments : List (Option Expression)) (f : Frame)
    (optional : Bool) : Resolver (List WapChildNode) :=
  if f.scope.maxFnDepth < f.depth then .ret []
  else do
    let destination ← mergeDestination arguments f
    let fragment ← mergeFragment m span f
    let (fragment, guard) := rebaseTemplate fragment
      (((arguments[1]?).join).bind fun e => m.relativeArgPath e f.scope f.refOff) false f.scope
      f.refOff
    let fragment :=
      if optional then (guardOptionalAttributes guard fragment).map (guardWildcard guard)
      else fragment
    .ret (applyContribution destination fragment optional)

/-- The body of each call. -/
def body : ∀ c : Call, Resolver (Resolved c)
  | .childNode node f => resolveChildNode m node f
  | .templateArg arg f => resolveTemplateArg arg f
  | .mapCall node f => resolveMapCall m node f
  | .mapperRef mapper f => resolveMapperRef m mapper f
  | .functionReturnsEach span scope aliases depth =>
    resolveFunctionReturnsEach m span scope aliases depth
  | .functionReturn span scope aliases depth => resolveFunctionReturn m span scope aliases depth
  | .localMerge span arguments f optional => resolveLocalMerge m span arguments f optional

end

end Whatspec.Scan.ChildNodes

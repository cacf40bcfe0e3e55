import Whatspec.Scan.Request

/-!
# Where an expression reads its argument

A request builder has one parameter, the argument object.  The scanner says of an expression of
its body at which path of that object it reads its value, following local variables through their
initializers.

* `BuilderExpr` and `Write` are the bodies, `BuilderModule.inits` the flat table of initializers,
  keyed by name, that all functions of a module share;
* `relativeArgPath` and `baseArgPath` are the resolvers;
* `World.eval` and `World.run` say what a body does, for any values and any functions called.
-/

namespace Whatspec.Scan

/-- Expressions of a builder.  A constant stands for every form without names; a static member
may also be written with brackets. -/
inductive BuilderExpr where
  | parenthesized (e : BuilderExpr)
  | identifier (name : String)
  | constant (n : ℕ)
  | member (object : BuilderExpr) (property : String)
  | computed (object index : BuilderExpr)
  | call (callee : BuilderExpr) (arguments : List BuilderExpr)
  | spread (e : BuilderExpr)
  | conditional (test consequent alternate : BuilderExpr)

/-- A declaration, or a reassignment, which always has a value. -/
structure Write where
  name : String
  isDeclaration : Bool
  value : Option BuilderExpr

structure BuilderFunction where
  parameters : List String
  body : List Write

/-- A module: what is written outside its functions, and all its functions, nested ones
included. -/
structure BuilderModule where
  globals : List Write
  functions : List BuilderFunction

/-- An initializer: the innermost function it is written in, and for a reassignment its owner. -/
structure VarInit where
  value : BuilderExpr
  function : Option ℕ
  ownerFn : Option ℕ

/-- The initializers of a name among some writes. -/
def initsAmong (function : Option ℕ) (name : String) (writes : List Write) : List VarInit :=
  writes.filterMap fun w =>
    if w.name = name then
      w.value.map fun e => ⟨e, function, if w.isDeclaration then none else function⟩
    else none

/-- All initializers of a name in a module, wherever they are written. -/
def BuilderModule.inits (m : BuilderModule) (name : String) : List VarInit :=
  initsAmong none name m.globals ++
    m.functions.zipIdx.flatMap fun (f, i) => initsAmong (some i) name f.body

/-- The argument object of a function: its one parameter. -/
def BuilderModule.rootAt (m : BuilderModule) (function : ℕ) : Option String :=
  match m.functions[function]? with
  | some ⟨[only], _⟩ => some only
  | _ => none

/-! ### Resolving -/

/-- The expression without parentheses around it. -/
def BuilderExpr.bare : BuilderExpr → BuilderExpr
  | .parenthesized e => e.bare
  | e => e

mutual

/-- The expression names the root somewhere. -/
def BuilderExpr.mentions (root : String) : BuilderExpr → Bool
  | .parenthesized e => e.mentions root
  | .identifier name => name = root
  | .constant _ => false
  | .member object _ => object.mentions root
  | .computed object index => object.mentions root || index.mentions root
  | .call callee arguments => callee.mentions root || mentionsAny root arguments
  | .spread e => e.mentions root
  | .conditional test consequent alternate =>
    test.mentions root || consequent.mentions root || alternate.mentions root

def mentionsAny (root : String) : List BuilderExpr → Bool
  | [] => false
  | e :: es => e.mentions root || mentionsAny root es

end

/-- A member chain: the object at its base, and the keys read off it. -/
def memberChain : BuilderExpr → List String → Option (BuilderExpr × List String)
  | .member object property, keys => memberChain object (property :: keys)
  | .computed _ _, _ => none
  | e, keys => some (e, keys)

/-- The one path that all those agree on that name one. -/
def agreeing : Option WapArgPath → List (Option WapArgPath) → Option WapArgPath
  | found, [] => found
  | found, none :: paths => agreeing found paths
  | none, some p :: paths => agreeing (some p) paths
  | some q, some p :: paths => if q = p then agreeing (some q) paths else none

/-- The path that the arguments of a call agree on.  An argument without one must not name the
root. -/
def argumentsPath (resolve : BuilderExpr → Option WapArgPath) (root : String) :
    Option WapArgPath → List BuilderExpr → Option WapArgPath
  | found, [] => found
  | found, .spread _ :: arguments => argumentsPath resolve root found arguments
  | found, e :: arguments =>
    match resolve e with
    | none => if e.mentions root then none else argumentsPath resolve root found arguments
    | some p =>
      match found with
      | none => argumentsPath resolve root (some p) arguments
      | some q => if q = p then argumentsPath resolve root (some q) arguments else none

def keyPath (keys : List String) : WapArgPath := keys.map fun key => ⟨key, false⟩

/-- The initializers that count for a name in a function. -/
def BuilderModule.initsIn (m : BuilderModule) (function : ℕ) (name : String) :
    List BuilderExpr :=
  (m.inits name).filterMap fun init =>
    if init.function = some function ∧ (init.ownerFn = none ∨ init.ownerFn = some function) then
      some init.value
    else none

section Resolvers

variable (m : BuilderModule) (function : ℕ) (root : String)

/-- The path of the object that a key is read off: no calls, no conditionals.  The number is what
is left of the depth. -/
def baseArgPath : ℕ → BuilderExpr → Option WapArgPath
  | 0, _ => none
  | depth + 1, e =>
    match e.bare with
    | .identifier name =>
      if name = root then some []
      else agreeing none ((m.initsIn function name).map (baseArgPath depth))
    | .member object property => do
      let (base, keys) ← memberChain (.member object property) []
      let path ← baseArgPath depth base
      some (path ++ keyPath keys)
    | _ => none

/-- The path that an expression reads. -/
def relativeArgPathWith : ℕ → BuilderExpr → Option WapArgPath
  | 0, _ => none
  | depth + 1, e =>
    match e.bare with
    | .identifier name =>
      if name = root then some []
      else agreeing none ((m.initsIn function name).map (relativeArgPathWith depth))
    | .member object property => do
      let (base, keys) ← memberChain (.member object property) []
      let path ← baseArgPath m function root depth base
      some (path ++ keyPath keys)
    | .call _ arguments => argumentsPath (relativeArgPathWith depth) root none arguments
    | .conditional _ consequent alternate =>
      match relativeArgPathWith depth consequent, relativeArgPathWith depth alternate with
      | some p, some q => if p = q then some p else none
      | some p, none => if alternate.mentions root then none else some p
      | none, some q => if consequent.mentions root then none else some q
      | none, none => none
    | _ => none

end Resolvers

/-- How many names may be followed. -/
def maxAliasDepth : ℕ := 8

/-- The path of an expression in a function of a module. -/
def relativeArgPath (m : BuilderModule) (function : ℕ) (e : BuilderExpr) : Option WapArgPath :=
  (m.rootAt function).bind fun root =>
    relativeArgPathWith m function root (maxAliasDepth + 1) e

/-! ### Running a body -/

/-- Values and functions, whatever they are.  What throws has no value. -/
structure World (ν : Type) where
  undefined : ν
  constant : ℕ → ν
  outside : String → Option ν
  read : ν → String → Option ν
  index : ν → ν → Option ν
  truthy : ν → Bool
  /-- A call: the function, the object it is called on, and the arguments, which may be spread. -/
  apply : ν → Option ν → List (Bool × ν) → Option ν

section Running

variable {ν : Type} (W : World ν)

/-- The variables of a call. -/
abbrev Variables (ν : Type) := String → Option ν

mutual

def World.eval (ρ : Variables ν) : BuilderExpr → Option ν
  | .parenthesized e => World.eval ρ e
  | .identifier name => ρ name <|> W.outside name
  | .constant n => some (W.constant n)
  | .member object property => (World.eval ρ object).bind fun v => W.read v property
  | .computed object index =>
    (World.eval ρ object).bind fun v => (World.eval ρ index).bind fun i => W.index v i
  | .call callee arguments =>
    (World.evalCallee ρ callee).bind fun (f, object) =>
      (World.evalArguments ρ arguments).bind fun vs => W.apply f object vs
  | .spread e => World.eval ρ e
  | .conditional test consequent alternate =>
    (World.eval ρ test).bind fun v =>
      if W.truthy v then World.eval ρ consequent else World.eval ρ alternate

/-- The function of a call and the object it is called on. -/
def World.evalCallee (ρ : Variables ν) : BuilderExpr → Option (ν × Option ν)
  | .parenthesized e => World.evalCallee ρ e
  | .member object property =>
    (World.eval ρ object).bind fun v => (W.read v property).map fun f => (f, some v)
  | .computed object index =>
    (World.eval ρ object).bind fun v =>
      (World.eval ρ index).bind fun i => (W.index v i).map fun f => (f, some v)
  | .identifier name => (ρ name <|> W.outside name).map fun f => (f, none)
  | .constant n => some (W.constant n, none)
  | .call callee arguments =>
    (World.evalCallee ρ callee).bind fun (f, object) =>
      (World.evalArguments ρ arguments).bind fun vs =>
        (W.apply f object vs).map fun g => (g, none)
  | .spread e => (World.eval ρ e).map fun f => (f, none)
  | .conditional test consequent alternate =>
    (World.eval ρ test).bind fun v =>
      if W.truthy v then (World.eval ρ consequent).map fun f => (f, none)
      else (World.eval ρ alternate).map fun f => (f, none)

def World.evalArguments (ρ : Variables ν) : List BuilderExpr → Option (List (Bool × ν))
  | [] => some []
  | .spread e :: es =>
    (World.eval ρ e).bind fun v => (World.evalArguments ρ es).map ((true, v) :: ·)
  | e :: es =>
    (World.eval ρ e).bind fun v => (World.evalArguments ρ es).map ((false, v) :: ·)

end

/-- The variables when a body is entered. -/
def World.enter (root : String) (body : List Write) (argument : ν) : Variables ν := fun x =>
  if x = root then some argument
  else if x ∈ body.map Write.name then some W.undefined else none

/-- Run writes in order. -/
def World.run : List Write → Variables ν → Option (Variables ν)
  | [], ρ => some ρ
  | w :: writes, ρ =>
    match w.value with
    | none => World.run writes ρ
    | some e => (W.eval ρ e).bind fun v => World.run writes (Function.update ρ w.name (some v))

/-- The value at a path. -/
def World.readPath (v : ν) : WapArgPath → Option ν
  | [] => some v
  | segment :: path => (W.read v segment.key).bind fun w => World.readPath w path

end Running

end Whatspec.Scan

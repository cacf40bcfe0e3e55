import Whatspec.Mex.MayBeUndefined

/-!
# Which defaults of parameters are discarded

A function that is called where it is written gets the values of the call for its parameters.  A
parameter with a default is one of the two, unless the value of the call is denied to be
`undefined`: then the default is discarded.

* `CallExpression.passed` are the values of a call, `CalledFunction.enter` and `bindParams` bind them;
* `CallExpression.discards` are the parameters whose default is discarded;
* **`discardedDefaults_exact`**: none of these is taken at run time if, wherever the value of an
  argument meets a default, the scopes inside the function admit what those of the argument do.  The
  two differ, since the names of the parameters before are bound inside: a name that was free at the
  call is read there as a parameter.
-/

namespace Whatspec.Mex

open Whatspec.Library

/-! ### Joining values -/

mutual

/-- The derived equality of values. -/
def Value.same : Value → Value → Bool
  | .defined, .defined => true
  | .maybeUndefined, .maybeUndefined => true
  | .unjudged, .unjudged => true
  | .dropped, .dropped => true
  | .truthy, .truthy => true
  | .writeOnly, .writeOnly => true
  | .read, .read => true
  | .given, .given => true
  | .getter, .getter => true
  | .null, .null => true
  | .ref x, .ref y => x = y
  | .object ps, .object qs => Value.sameProps ps qs
  | .array vs, .array ws => Value.sameAll vs ws
  | .orElse a b, .orElse c d => a.same c && b.same d
  | .coalesce a b, .coalesce c d => a.same c && b.same d
  | .andThen a b, .andThen c d => a.same c && b.same d
  | .either a b, .either c d => a.same c && b.same d
  | .call m, .call n => m = n
  | _, _ => false

def Property.same : Property → Property → Bool
  | .key x v, .key y w => x = y && v.same w
  | .spread v, .spread w => v.same w
  | .unreadable, .unreadable => true
  | _, _ => false

def Value.sameProps : List Property → List Property → Bool
  | [], [] => true
  | p :: ps, q :: qs => p.same q && Value.sameProps ps qs
  | _, _ => false

def Value.sameAll : List Value → List Value → Bool
  | [], [] => true
  | v :: vs, w :: ws => v.same w && Value.sameAll vs ws
  | _, _ => false

end

/-- Whether a value is already one of the values a choice can take. -/
def containsArm (value arm : Value) : Bool :=
  value.same arm ||
    match value with
    | .either a b => containsArm a arm || containsArm b arm
    | _ => false

/-- Two values that one call can see. -/
def either (before after : Value) : Value :=
  if containsArm before after then before
  else if containsArm after before then after
  else .either before after

/-! ### Scopes -/

namespace Scopes

/-- Bind a name in the innermost frame. -/
def bind (scopes : Scopes) (name : String) (value : Value) : Scopes :=
  { scopes with
    frames := scopes.frames.modify (scopes.frames.length - 1) (SortedMap.insert name value) }

/-- A frame of a function, with the names that it declares with `var`. -/
def push (scopes : Scopes) (hoisted : Bindings) : Scopes :=
  { scopes with
    frames := scopes.frames ++ [[]]
    frameHoisted := scopes.frameHoisted ++ [hoisted] }

/-- The name that owns what a name refers to. -/
def aliasTarget (scopes : Scopes) : ℕ → String → String
  | 0, name => name
  | remaining + 1, name =>
    match scopes.lookup name with
    | some (.ref target) => aliasTarget scopes remaining target
    | _ => name

end Scopes

/-! ### Functions and calls -/

/-- What a parameter is bound by. -/
inductive Pattern where
  | name (x : String)
  | destructured (names : List String)

namespace Pattern

def names : Pattern → List String
  | name x => [x]
  | destructured names => names

def plain : Pattern → Bool
  | name _ => true
  | destructured _ => false

end Pattern

structure Param where
  pattern : Pattern
  initializer : Option Value

/-- The default of a plain parameter. -/
def Param.default (p : Param) : Option Value := p.initializer.filter fun _ => p.pattern.plain

/-- A function or an arrow that is called where it is written. -/
structure CalledFunction where
  /-- The names that it declares with `var`. -/
  hoisted : Bindings
  arrow : Bool
  /-- Its own name, of a function. -/
  id : Option String
  params : List Param
  /-- The names of the rest parameter. -/
  rest : List String

/-- An argument of a call, with the scopes in which it is read.  The arguments before it may have
written to them. -/
inductive Argument where
  /-- `...v` -/
  | spread
  /-- `void e` -/
  | void
  | name (scopes : Scopes) (x : String) (parenthesized : Bool)
  /-- Any other expression, as it is converted, or the key that it reads. -/
  | other (scopes : Scopes) (value : Value)

namespace Argument

/-- The value where the argument is read, and none for one that is written `undefined`. -/
def value : Argument → Option Value
  | spread => none
  | void => none
  | name scopes x _ =>
    if x = "undefined" ∧ (scopes.lookup "undefined").isNone then none
    else some (settle scopes maxDepth (.ref x))
  | other scopes v => some (settle scopes maxDepth v)

/-- The value that is handed over: an object that has a name goes by it. -/
def handed (scopes : Scopes) : Argument → Option Value
  | name read x false =>
    match scopes.resolve maxDepth (.ref (scopes.aliasTarget maxDepth x)) with
    | .object _ | .array _ => some (.ref (scopes.aliasTarget maxDepth x))
    | _ => (name read x false).value
  | argument => argument.value

def isSpread : Argument → Bool
  | spread => true
  | _ => false

end Argument

/-- A call of a function where it is written. -/
structure CallExpression where
  /-- The scopes once the arguments are read. -/
  scopes : Scopes
  arguments : List Argument

/-- The values of the arguments, unless one of them stands for any number. -/
def CallExpression.passed (c : CallExpression) : Option (List (Option Value)) :=
  if c.arguments.any Argument.isSpread then none
  else some (c.arguments.map (Argument.handed c.scopes))

/-! ### Binding the parameters -/

/-- What the call passed at a position: nothing to read, or an empty slot, or a value. -/
def argumentAt (passed : Option (List (Option Value))) (index : ℕ) (p : Param) :
    Option (Option Value) :=
  (passed.filter fun _ => p.pattern.plain).map fun values => values[index]?.join

/-- The value of a parameter. -/
def paramValue (scopes : Scopes) (argument : Option (Option Value)) (default : Option Value) :
    Value :=
  match argument, default with
  | some none, some default => default
  | none, some default => either default .defined
  | some (some passed), some default =>
    if mayBeUndefined scopes maxDepth passed then either passed default else passed
  | some (some passed), none => passed
  | some none, none => .maybeUndefined
  | none, none => .given

def bindParam (scopes : Scopes) (passed : Option (List (Option Value))) (index : ℕ) (p : Param) :
    Scopes :=
  p.pattern.names.foldl (fun scopes name =>
    scopes.bind name (paramValue scopes (argumentAt passed index p) p.default)) scopes

/-- The parameters in their order. -/
def bindItems (passed : Option (List (Option Value))) : Scopes → ℕ → List Param → Scopes
  | scopes, _, [] => scopes
  | scopes, index, p :: ps =>
    bindItems passed (bindParam scopes passed index p) (index + 1) ps

def bindParams (scopes : Scopes) (passed : Option (List (Option Value))) (f : CalledFunction) :
    Scopes :=
  f.rest.foldl (fun scopes name => scopes.bind name .defined) (bindItems passed scopes 0 f.params)

/-- The scopes in which the parameters are bound: an ordinary function has its name and its
`arguments` in them. -/
def CalledFunction.enter (f : CalledFunction) (scopes : Scopes) : Scopes :=
  let scopes := scopes.push f.hoisted
  if f.arrow then scopes
  else
    let scopes := match f.id with
      | some id => scopes.bind id .dropped
      | none => scopes
    scopes.bind "arguments" .defined

/-! ### Defaults -/

/-- An argument that meets a default, with the scopes inside the function at that parameter. -/
structure Meeting where
  index : ℕ
  inside : Scopes
  passed : Value

/-- The arguments that meet defaults. -/
def meetings (passed : Option (List (Option Value))) : Scopes → ℕ → List Param → List Meeting
  | _, _, [] => []
  | scopes, index, p :: ps =>
    let rest := meetings passed (bindParam scopes passed index p) (index + 1) ps
    match argumentAt passed index p, p.default with
    | some (some value), some _ => ⟨index, scopes, value⟩ :: rest
    | _, _ => rest

def CallExpression.meetings (c : CallExpression) (f : CalledFunction) : List Meeting :=
  Mex.meetings c.passed (f.enter c.scopes) 0 f.params

/-- The defaults that are discarded. -/
def CallExpression.discards (c : CallExpression) (f : CalledFunction) : List Meeting :=
  (c.meetings f).filter fun m => !mayBeUndefined m.inside maxDepth m.passed

/-- What an argument can be at run time. -/
def Argument.Holds : Argument → JsKind → Prop
  | spread, _ => True
  | void, k => k = .undefined
  | name scopes x _, k => Evaluates scopes (.ref x) k
  | other scopes value, k => Evaluates scopes value k

/-- No default that is discarded is taken at run time. -/
def CallExpression.Sound (c : CallExpression) (f : CalledFunction) : Prop :=
  ∀ m ∈ c.discards f, ∀ a, c.arguments[m.index]? = some a → ¬a.Holds .undefined

/-- What the scopes of an argument say of its value. -/
def Argument.mayBe : Argument → Bool
  | spread | void => true
  | name scopes x _ => mayBeUndefined scopes maxDepth (settle scopes maxDepth (.ref x))
  | other scopes value => mayBeUndefined scopes maxDepth (settle scopes maxDepth value)

/-- Where an argument meets a default, the scopes inside the function admit what those of the
argument do. -/
def CallExpression.Agrees (c : CallExpression) (f : CalledFunction) : Prop :=
  ∀ m ∈ c.meetings f, ∀ a, c.arguments[m.index]? = some a → a.mayBe = true →
    mayBeUndefined m.inside maxDepth m.passed = true

/-- An argument that is decided where it is read. -/
def Argument.Decided : Argument → Bool
  | spread | void => true
  | name scopes x _ => Mex.Decided scopes maxDepth (settle scopes maxDepth (.ref x))
  | other scopes value => Mex.Decided scopes maxDepth (settle scopes maxDepth value)

theorem Argument.not_holds_undefined {a : Argument} (h : a.mayBe = false) :
    ¬a.Holds .undefined := by
  intro hundefined
  cases a with
  | spread | void => cases h
  | name scopes x parenthesized =>
    exact ne_undefined_of_not_mayBeUndefined h ((evaluates_settle maxDepth).mpr hundefined) rfl
  | other scopes value =>
    exact ne_undefined_of_not_mayBeUndefined h ((evaluates_settle maxDepth).mpr hundefined) rfl

theorem Argument.holds_undefined {a : Argument} (hdecided : a.Decided = true)
    (h : a.mayBe = true) : a.Holds .undefined := by
  cases a with
  | spread => trivial
  | void => rfl
  | name scopes x parenthesized =>
    exact (evaluates_settle maxDepth).mp (evaluates_undefined_of_mayBeUndefined hdecided h)
  | other scopes value =>
    exact (evaluates_settle maxDepth).mp (evaluates_undefined_of_mayBeUndefined hdecided h)

theorem CallExpression.mem_discards {c : CallExpression} {f : CalledFunction} {m : Meeting} :
    m ∈ c.discards f ↔ m ∈ c.meetings f ∧ mayBeUndefined m.inside maxDepth m.passed = false := by
  rw [CallExpression.discards, List.mem_filter, Bool.not_eq_true']

theorem CallExpression.sound_of_agrees {c : CallExpression} {f : CalledFunction}
    (h : c.Agrees f) : c.Sound f := by
  intro m hm a ha
  obtain ⟨hmeeting, hnot⟩ := CallExpression.mem_discards.mp hm
  refine Argument.not_holds_undefined ?_
  by_contra hmay
  rw [h m hmeeting a ha (Bool.not_eq_false _ ▸ hmay)] at hnot
  cases hnot

theorem CallExpression.agrees_of_sound {c : CallExpression} {f : CalledFunction}
    (hdecided : ∀ a ∈ c.arguments, a.Decided = true) (h : c.Sound f) : c.Agrees f := by
  intro m hm a ha hmay
  by_contra hnot
  have hdiscard : m ∈ c.discards f :=
    CallExpression.mem_discards.mpr ⟨hm, Bool.not_eq_true _ ▸ hnot⟩
  exact h m hdiscard a ha
    (Argument.holds_undefined (hdecided a (List.mem_of_getElem? ha)) hmay)

/-- **A value that is denied to be `undefined` in the scopes it is evaluated in never is.  A default
that is discarded is never taken where the scopes inside the function admit what those of the
arguments do; and nowhere else, for arguments that are decided.** -/
theorem discardedDefaults_exact (c : CallExpression) (f : CalledFunction) :
    (∀ (scopes : Scopes) (remaining : ℕ) (value : Value) (k : JsKind),
      mayBeUndefined scopes remaining value = false → Evaluates scopes value k →
        k ≠ .undefined) ∧
    (c.Agrees f → c.Sound f) ∧
    ((∀ a ∈ c.arguments, a.Decided = true) → (c.Sound f ↔ c.Agrees f)) :=
  ⟨fun _ _ _ _ => ne_undefined_of_not_mayBeUndefined, CallExpression.sound_of_agrees,
    fun hdecided => ⟨CallExpression.agrees_of_sound hdecided, CallExpression.sound_of_agrees⟩⟩

/-- `(function (x, y = 0) { … })(5, x)` with an `x` that nothing binds: inside, the second argument
is read as the first parameter, and so the default is discarded, though the `x` of the call may be
`undefined`. -/
def capturingCall : CallExpression where
  scopes := ⟨[[]], [[]], [], []⟩
  arguments := [.other ⟨[[]], [[]], [], []⟩ .truthy, .name ⟨[[]], [[]], [], []⟩ "x" false]

def capturingCallee : CalledFunction where
  hoisted := []
  arrow := false
  id := none
  params := [⟨.name "x", none⟩, ⟨.name "y", some .defined⟩]
  rest := []

theorem capturingCall_discards :
    (capturingCall.discards capturingCallee).map Meeting.index = [1] ∧
      (∃ a, capturingCall.arguments[1]? = some a ∧ a.Holds .undefined) ∧
      ¬capturingCall.Sound capturingCallee := by
  have hdiscards : (capturingCall.discards capturingCallee).map Meeting.index = [1] := by
    decide +kernel
  have hholds : (Argument.name ⟨[[]], [[]], [], []⟩ "x" false).Holds .undefined :=
    evaluates_unbound (by decide) (by decide +kernel)
  refine ⟨hdiscards, ⟨_, rfl, hholds⟩, fun h => ?_⟩
  have hmem : 1 ∈ (capturingCall.discards capturingCallee).map Meeting.index := by
    rw [hdiscards]
    exact List.mem_singleton_self 1
  obtain ⟨m, hm, hindex⟩ := List.mem_map.mp hmem
  exact h m hm _ (hindex ▸ rfl) hholds

end Whatspec.Mex

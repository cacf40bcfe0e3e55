import Whatspec.Notif.EnvelopeLower

/-!
# The lowered envelope does what the JavaScript does

Expressions and statements side by side with what they are lowered to.

* `Expr.parts` and `expressions` are the expressions a callback is made of, and `Expr.literal` the
  number a signed literal is;
* `Related` relates the callback's variables to the locals, and `Follows` two runs from related
  states;
* `follows_expr`, `follows_statement`: what is lowered follows.
-/

namespace Whatspec.Notif.Envelope

open Whatspec.Library
open Whatspec.Library.Comp

/-! ### The expressions of a callback -/

mutual

/-- The expression and those it is made of.  A signed literal is one. -/
def Expr.parts : Expr → List Expr
  | .parenthesized e => .parenthesized e :: e.parts
  | .unary .logicalNot argument => .unary .logicalNot argument :: argument.parts
  | .binary operator left right => .binary operator left right :: (left.parts ++ right.parts)
  | .logical operator left right => .logical operator left right :: (left.parts ++ right.parts)
  | .conditional test consequent alternate =>
    .conditional test consequent alternate ::
      (test.parts ++ (consequent.parts ++ alternate.parts))
  | .assignment isPlain target right => .assignment isPlain target right :: right.parts
  | .sequence expressions => .sequence expressions :: partsAll expressions
  | .object properties => .object properties :: partsOfProperties properties
  | .array elements => .array elements :: partsAll elements
  | .member object property => .member object property :: object.parts
  | .call callee arguments => .call callee arguments :: (callee.parts ++ partsAll arguments)
  | .spread e => .spread e :: e.parts
  | e => [e]

def partsAll : List Expr → List Expr
  | [] => []
  | e :: es => e.parts ++ partsAll es

def partsOfProperties : List (PropertyHead × Expr) → List Expr
  | [] => []
  | (_, e) :: properties => e.parts ++ partsOfProperties properties

end

attribute [simp] Expr.parts partsAll partsOfProperties

def partsOfDeclarations : List (Option String × Option Expr) → List Expr
  | [] => []
  | (_, none) :: declarations => partsOfDeclarations declarations
  | (_, some e) :: declarations => e.parts ++ partsOfDeclarations declarations

attribute [simp] partsOfDeclarations

mutual

/-- The expressions that a statement is made of. -/
def Stmt.expressions : Stmt → List Expr
  | .variableDeclaration _ declarations => partsOfDeclarations declarations
  | .expressionStatement e => e.parts
  | .blockStatement body => expressions body
  | .ifStatement test consequent none => test.parts ++ consequent.expressions
  | .ifStatement test consequent (some alternate) =>
    test.parts ++ (consequent.expressions ++ alternate.expressions)
  | .tryStatement block none _ => expressions block
  | .tryStatement block (some (_, handlerBody)) _ => expressions block ++ expressions handlerBody
  | .returnStatement (some e) => e.parts
  | _ => []

def expressions : List Stmt → List Expr
  | [] => []
  | s :: ss => s.expressions ++ expressions ss

/-- The names that the handlers of a statement catch errors under. -/
def Stmt.caughtNames : Stmt → List String
  | .blockStatement body => caughtNames body
  | .ifStatement _ consequent none => consequent.caughtNames
  | .ifStatement _ consequent (some alternate) =>
    consequent.caughtNames ++ alternate.caughtNames
  | .tryStatement block none _ => caughtNames block
  | .tryStatement block (some (name, handlerBody)) _ =>
    name.toList ++ (caughtNames block ++ caughtNames handlerBody)
  | _ => []

def caughtNames : List Stmt → List String
  | [] => []
  | s :: ss => s.caughtNames ++ caughtNames ss

end

attribute [simp] Stmt.expressions expressions Stmt.caughtNames caughtNames

/-- The number that a literal is, with the signs before it. -/
def Expr.literal : Expr → Option Binary64.Word
  | .numericLiteral n => some n.value
  | .unary .unaryNegation e => e.literal.map Binary64.neg
  | _ => none

/-- The expression mentions a name. -/
def Expr.mentions (x : String) : Expr → Bool
  | .identifier y => y = x
  | .assignment _ target _ => target = some x
  | _ => false

/-- An expression that is not minus zero and has nothing to do with `arguments`. -/
structure Expr.Clean (e : Expr) : Prop where
  literal : e.literal ≠ some Binary64.negativeZero
  arguments : e.mentions "arguments" = false

/-! ### Related states -/

/-- Where the lowered statements stand: outside of the handlers, with the loaders and the variables
that the compiler knows. -/
structure Scoped (L : Lower) (scope : Scope) : Prop where
  node : L.node ∉ L.locals
  loaders : ∀ l ∈ L.loaders, ∃ i < 3, scope.loaders.idxOf? l = some i
  own : ∀ x, x ∈ scope.own ↔ x ∈ L.locals
  cache : scope.cache = L.diagnosticCache
  cacheFree : L.diagnosticCache ∉ scope.loaders
  caught : scope.caught = []
  globals : ∀ x ∈ globalNames, x ∉ scope.loaders ∧ x ≠ scope.cache

/-- The template cache is empty, or holds the parts of the message of a diagnostic. -/
def CacheReady (parts : List String) (cache : Value) : Prop :=
  cache = .undefined ∨ cache = .template parts

/-- The callback's variables and the locals, with the messages of the diagnostics. -/
structure Related (L : Lower) (messages : List (List String)) (js : Machine JsMemory)
    (ir : Machine (ℕ → Value)) : Prop where
  calls : js.calls = ir.calls
  fresh : js.fresh = ir.fresh
  node : js.memory.frame L.node = some .node
  declared : ∀ x ∈ L.locals, (js.memory.frame x).isSome
  locals : ∀ x i, L.locals.idxOf? x = some i → x ≠ "arguments" →
    js.memory.frame x = some (ir.memory i)
  hidden : ∀ x, x ∈ L.loaders ∨ x ∈ globalNames ∨ x = L.diagnosticCache ∧ x ∉ L.locals →
    js.memory.frame x = none
  cache : ∀ p ∈ messages, CacheReady p js.memory.cache

/-- Two runs from related states: both give values, or both are ended by the same error. -/
def Follows (L : Lower) (messages : List (List String)) {α β : Type} (x : Js α) (y : Ir β)
    (R : α → β → Prop) : Prop :=
  Coupled (Related L messages) x y (fun a b js ir => R a b ∧ Related L messages js ir)
    (fun e d js ir => e = .thrown d ∧ Related L messages js ir)

section Combinators

variable {W : World} {L : Lower} {scope : Scope} {messages : List (List String)}
variable {α β γ δ : Type} {x : Js α} {y : Ir β} {R : α → β → Prop}

theorem Follows.pure {a : α} {b : β} (h : R a b) :
    Follows L messages (pure a) (pure b) R :=
  Coupled.pure fun _ _ hs => ⟨h, hs⟩

theorem Follows.bind {f : α → Js γ} {g : β → Ir δ} {S : γ → δ → Prop}
    (hx : Follows L messages x y R)
    (hf : ∀ a b, R a b → Follows L messages (f a) (g b) S) :
    Follows L messages (x >>= f) (y >>= g) S :=
  Coupled.bind hx fun a b => Coupled.of_fact fun hab => hf a b hab

theorem Follows.bind_eq {f : α → Js γ} {g : α → Ir δ} {S : γ → δ → Prop} {y : Ir α}
    (hx : Follows L messages x y Eq)
    (hf : ∀ a, Follows L messages (f a) (g a) S) :
    Follows L messages (x >>= f) (y >>= g) S :=
  hx.bind fun a _ hab => hab ▸ hf a

theorem Follows.throw {S : γ → δ → Prop} (v : Value) :
    Follows L messages (throw (.thrown v) : Js γ) (throw v : Ir δ) S :=
  Coupled.throw fun _ _ hs => ⟨rfl, hs⟩

/-- A value that every related state gives is used like a pure one. -/
theorem Follows.of_value {a : α} {f : α → Js γ} {y : Ir δ} {S : γ → δ → Prop}
    (hx : ∀ js ir, Related L messages js ir → x js = (.ok a, js))
    (hf : Follows L messages (f a) y S) : Follows L messages (x >>= f) y S := by
  intro js ir h
  rw [bind_apply, hx js ir h]
  exact hf js ir h

theorem Related.setCalls {js : Machine JsMemory} {ir : Machine (ℕ → Value)}
    (h : Related L messages js ir) (calls : List Call) :
    Related L messages { js with calls := calls } { ir with calls := calls } :=
  { h with calls := rfl }

theorem follows_callOutside (c : Call) :
    Follows L messages (callOutside W .thrown c) (callOutside W id c) Eq := by
  intro js ir h
  have hcalls := h.calls
  have hnext := h.setCalls (ir.calls ++ [c])
  unfold callOutside
  rw [hcalls]
  cases W.answer ir.calls c with
  | ok v => exact Or.inl ⟨v, v, _, _, rfl, rfl, rfl, hnext⟩
  | error e => exact Or.inr ⟨.thrown e, e, _, _, rfl, rfl, rfl, hnext⟩

theorem follows_callMethod (v : Value) (name : String) (vs : List Value) :
    Follows L messages (callMethod W .thrown v name vs) (callMethod W id v name vs) Eq := by
  unfold callMethod
  cases v.nullish with
  | true => exact Follows.throw W.typeError
  | false => exact follows_callOutside _

theorem follows_addValues (v w : Value) :
    Follows L messages (addValues W .thrown v w) (addValues W id v w) Eq := by
  unfold addValues
  split
  · exact Follows.pure rfl
  · exact follows_callOutside _

theorem follows_newObject (fields : List (String × Value)) :
    Follows L messages (newObject fields) (newObject fields) Eq := by
  intro js ir h
  refine Or.inl ⟨_, _, _, _, rfl, rfl, ?_, { h with fresh := ?_ }⟩
  · rw [h.fresh]
  · exact congrArg (· + 1) h.fresh

end Combinators

/-! ### Names -/

section Names

variable {W : World} {L : Lower} {scope : Scope} {messages : List (List String)}

theorem Scope.read_of_frame {m : JsMemory} {x : String} {v : Value}
    (hcaught : scope.caught.lookup x = none) (h : m.frame x = some v) :
    scope.read m x = some v := by
  rw [Scope.read, hcaught, Scope.readOuter, h]

theorem run_identifier {js : Machine JsMemory} {x : String} {v : Value}
    (h : scope.read js.memory x = some v) :
    (Expr.identifier x).run W scope js = (.ok v, js) := by
  rw [Expr.run, Js.lookup, bind_apply, get_apply]
  simp only [h, pure_apply]

theorem localOf_eq_ok {x : String} {i : ℕ} (h : L.localOf x = .ok i) :
    L.locals.idxOf? x = some i := by
  rw [Lower.localOf] at h
  cases hi : L.locals.idxOf? x with
  | none =>
    rw [hi] at h
    cases h
  | some j =>
    rw [hi] at h
    cases h
    rfl

theorem mem_of_idxOf? {x : String} {i : ℕ} {xs : List String} (h : xs.idxOf? x = some i) :
    x ∈ xs := by
  by_contra hx
  rw [List.idxOf?_eq_none_iff.mpr hx] at h
  cases h

/-- Two names of one number are one name. -/
theorem eq_of_idxOf? {x y : String} {i : ℕ} {xs : List String} (hx : xs.idxOf? x = some i)
    (hy : xs.idxOf? y = some i) : x = y := by
  have hget : ∀ {z : String}, xs.idxOf? z = some i → xs[i]? = some z := by
    intro z hz
    rw [List.idxOf?_eq_some_iff] at hz
    obtain ⟨hlt, heq, _⟩ := hz
    rw [List.getElem?_eq_getElem hlt, heq]
  exact Option.some.inj ((hget hx).symm.trans (hget hy))

/-- A local is read. -/
theorem follows_local (hs : Scoped L scope) {x : String} {i : ℕ}
    (hi : L.locals.idxOf? x = some i) (hx : x ≠ "arguments") :
    Follows L messages ((Expr.identifier x).run W scope) (Ir.getLocal i) Eq := by
  intro js ir h
  have hread : scope.read js.memory x = some (ir.memory i) :=
    Scope.read_of_frame (by rw [hs.caught]; rfl) (h.locals x i hi hx)
  exact Or.inl ⟨_, _, _, _, run_identifier hread, rfl, rfl, h⟩

theorem Related.assign {js : Machine JsMemory} {ir : Machine (ℕ → Value)}
    (h : Related L messages js ir) (hnode : L.node ∉ L.locals) {x : String} {i : ℕ}
    (hi : L.locals.idxOf? x = some i) (v : Value) :
    Related L messages
      { js with memory := { js.memory with
        frame := Function.update js.memory.frame x (some v) } }
      { ir with memory := Function.update ir.memory i v } := by
  have hmem : x ∈ L.locals := mem_of_idxOf? hi
  have hdeclared : (js.memory.frame x).isSome := h.declared x hmem
  refine { h with node := ?_, declared := ?_, locals := ?_, hidden := ?_ }
  · show Function.update js.memory.frame x (some v) L.node = _
    rw [Function.update_of_ne fun heq : L.node = x => hnode (heq.symm ▸ hmem)]
    exact h.node
  · intro y hy
    show (Function.update js.memory.frame x (some v) y).isSome
    by_cases hyx : y = x
    · rw [hyx, Function.update_self]
      rfl
    · rw [Function.update_of_ne hyx]
      exact h.declared y hy
  · intro y j hj hy
    show Function.update js.memory.frame x (some v) y = some (Function.update ir.memory i v j)
    by_cases hyx : y = x
    · subst hyx
      obtain rfl : i = j := Option.some.inj (hi.symm.trans hj)
      rw [Function.update_self, Function.update_self]
    · have hne : j ≠ i := fun heq => hyx (eq_of_idxOf? (heq ▸ hj) hi)
      rw [Function.update_of_ne hyx, Function.update_of_ne hne]
      exact h.locals y j hj hy
  · intro y hy
    show Function.update js.memory.frame x (some v) y = none
    have hyx : y ≠ x := by
      intro heq
      rw [← heq, h.hidden y hy] at hdeclared
      cases hdeclared
    rw [Function.update_of_ne hyx]
    exact h.hidden y hy

/-- A local is assigned to. -/
theorem follows_assign (hs : Scoped L scope) {x : String} {i : ℕ}
    (hi : L.locals.idxOf? x = some i) (v : Value) :
    Follows L messages (Js.assign scope x v) (Ir.setLocal i v) fun _ _ => True := by
  intro js ir h
  obtain ⟨w, hw⟩ := Option.isSome_iff_exists.mp (h.declared x (mem_of_idxOf? hi))
  have hwrite : scope.write js.memory x v = some { js.memory with
      frame := Function.update js.memory.frame x (some v) } := by
    rw [Scope.write, hs.caught, List.lookup_nil, Scope.writeOuter, hw]
  refine Or.inl ⟨(), (), _, _, ?_, rfl, trivial, h.assign hs.node hi v⟩
  rw [Js.assign, bind_apply, get_apply]
  simp only [hwrite]
  rfl

/-! ### Modules -/

theorem run_withoutParentheses : ∀ e : Expr, e.withoutParentheses.run W scope = e.run W scope
  | .parenthesized e => by rw [Expr.withoutParentheses, Expr.run, run_withoutParentheses e]
  | .identifier _ | .nullLiteral | .booleanLiteral _ | .numericLiteral _ | .stringLiteral _
  | .unary _ _ | .binary _ _ _ | .logical _ _ _ | .conditional _ _ _ | .assignment _ _ _
  | .sequence _ | .object _ | .array _ | .member _ _ | .call _ _ | .function _ | .spread _
  | .other => rfl

theorem importModule_eq_some {loaders : List String} {e : Expr} {name : String}
    (h : importModule loaders e = some name) :
    ∃ f ∈ loaders, e.withoutParentheses = .call (.identifier f) [.stringLiteral name] := by
  rw [importModule] at h
  split at h
  · rename_i f name' heq
    by_cases hf : f ∈ loaders
    · rw [if_pos hf] at h
      cases h
      exact ⟨f, hf, heq⟩
    · rw [if_neg hf] at h
      cases h
  · cases h

/-- An expression that loads a module gives the module. -/
theorem run_importModule (hW : W.Qualified)
    (hloaders : ∀ l ∈ L.loaders, ∃ i < 3, scope.loaders.idxOf? l = some i)
    (hcaught : ∀ l ∈ L.loaders, scope.caught.lookup l = none) {e : Expr} {name : String}
    (hname : importModule L.loaders e = some name) {js : Machine JsMemory}
    {ir : Machine (ℕ → Value)} (h : Related L messages js ir) :
    e.run W scope js = (.ok (.module name), js) := by
  obtain ⟨f, hf, heq⟩ := importModule_eq_some hname
  obtain ⟨i, hlt, hi⟩ := hloaders f hf
  have hread : scope.read js.memory f = some (.loader i) := by
    rw [Scope.read, hcaught f hf, Scope.readOuter, h.hidden f (Or.inl hf)]
    simp only [hi]
  have hlookup : Js.lookup scope f js = (.ok (.loader i), js) := by
    rw [← run_identifier (W := W) hread, Expr.run]
  rw [← run_withoutParentheses, heq]
  simp only [Expr.run, runAll, pure_bind, bind_apply, hlookup, Js.callFunction, pure_apply,
    hW.load i hlt]

/-! ### Literals -/

theorem NumericLiteral.integer_eq {n : NumericLiteral} {k : ℤ} (h : n.integer = some k) :
    Binary64.integer n.value = some k := by
  rw [NumericLiteral.integer] at h
  cases hk : Binary64.integer n.value with
  | none =>
    rw [hk] at h
    cases h
  | some k' =>
    simp only [hk] at h
    split_ifs at h
    exact h

theorem run_unaryNegation {e : Expr} {w : Binary64.Word} (h : e.run W scope = pure (.number w)) :
    (Expr.unary .unaryNegation e).run W scope = pure (.number (Binary64.neg w)) := by
  rw [Expr.run, h]
  rfl

theorem checkedNeg_eq_some {x : Option ℤ} {k : ℤ} (h : x.bind checkedNeg = some k) :
    ∃ k', x = some k' ∧ k = -k' := by
  obtain ⟨k', hk, hneg⟩ := Option.bind_eq_some_iff.mp h
  rw [checkedNeg] at hneg
  split_ifs at hneg
  exact ⟨k', hk, (Option.some.inj hneg).symm⟩

/-- What `as_int` reads is the literal it reads it from. -/
theorem asInt_eq_some (W : World) (scope : Scope) (e : Expr) : ∀ {k : ℤ}, e.asInt = some k →
    ∃ w, e.literal = some w ∧ Binary64.integer w = some k ∧
      e.run W scope = pure (.number w) := by
  fun_induction Expr.asInt e with
  | case1 n =>
    intro k h
    exact ⟨n.value, rfl, NumericLiteral.integer_eq h, by rw [Expr.run]⟩
  | case2 n hraw =>
    intro k h
    cases h
    exact ⟨Binary64.neg n.value, rfl, Binary64.integer_neg hraw.1,
      run_unaryNegation (by rw [Expr.run])⟩
  | case3 n hraw =>
    intro k h
    obtain ⟨k', hk, rfl⟩ := checkedNeg_eq_some h
    exact ⟨Binary64.neg n.value, rfl, Binary64.integer_neg (NumericLiteral.integer_eq hk),
      run_unaryNegation (by rw [Expr.run])⟩
  | case4 e hnumeric ih =>
    intro k h
    obtain ⟨k', hk, rfl⟩ := checkedNeg_eq_some h
    obtain ⟨w, hliteral, hinteger, hrun⟩ := ih hk
    refine ⟨Binary64.neg w, ?_, Binary64.integer_neg hinteger, run_unaryNegation hrun⟩
    rw [Expr.literal, hliteral, Option.map_some]
  | case5 e =>
    intro k h
    cases h

/-- An integer that is not minus zero is published as the number it is. -/
theorem ofInt_asInt {e : Expr} {k : ℤ} (hclean : e.literal ≠ some Binary64.negativeZero)
    (h : e.asInt = some k) : e.run W scope = pure (.number (Binary64.ofInt k)) := by
  obtain ⟨w, hliteral, hinteger, hrun⟩ := asInt_eq_some W scope e h
  have hzero : k = 0 → Binary64.isNegative w = false := by
    intro hk
    subst hk
    have hvalue := Binary64.value_of_integer hinteger
    rw [zero_mul] at hvalue
    obtain rfl | rfl := Binary64.value_eq_zero hvalue
    · rfl
    · exact absurd hliteral hclean
  rw [hrun, Binary64.ofInt_of_integer hzero hinteger]

end Names

/-! ### Expressions -/

section Expressions

variable {W : World} {L : Lower} {scope : Scope} {messages : List (List String)}

/-- An expression does what another one does. -/
def FollowsExpr (W : World) (L : Lower) (scope : Scope) (messages : List (List String)) (e : Expr)
    (r : GroupEnvelopeExpr) : Prop :=
  Follows L messages (e.run W scope) (r.run W) Eq

theorem isIdentifier_eq {x : String} {e : Expr} (h : e.isIdentifier x = true) :
    e = .identifier x := by
  cases e with
  | identifier y => rw [of_decide_eq_true h]
  | _ => cases h

theorem run_node (hs : Scoped L scope) {js : Machine JsMemory} {ir : Machine (ℕ → Value)}
    (h : Related L messages js ir) :
    (Expr.identifier L.node).run W scope js = (.ok .node, js) :=
  run_identifier (Scope.read_of_frame (by rw [hs.caught]; rfl) h.node)

/-- A method other than the two that stay inside. -/
theorem callMethod_eq {name : String} (hchildren : name ≠ "mapChildren")
    (htemplate : name ≠ "taggedTemplateLiteralLoose") (v : Value) (vs : List Value) :
    Js.callMethod W scope v name vs = callMethod W .thrown v name vs := by
  unfold Js.callMethod
  split
  · exact absurd rfl hchildren
  · exact absurd rfl htemplate
  · rfl

/-- A method of something that is there, with one argument. -/
theorem run_callMethod {object argument : Expr} {name : String} {v : Value}
    {js : Machine JsMemory} (hobject : object.run W scope js = (.ok v, js))
    (hv : v.nullish = false) (hchildren : name ≠ "mapChildren")
    (htemplate : name ≠ "taggedTemplateLiteralLoose") :
    (Expr.call (.member object name) [argument]).run W scope js =
      (argument.run W scope >>= fun w => callMethod W .thrown v name [w]) js := by
  rw [Expr.run, bind_apply, hobject]
  simp only [hv, Bool.false_eq_true, if_false, runAll, bind_assoc, pure_bind,
    callMethod_eq hchildren htemplate]

theorem follows_callMethod_one {object argument : Expr} {name : String} {v : Value}
    {value : GroupEnvelopeExpr} {y : Value → Ir Value}
    (hobject : ∀ js ir, Related L messages js ir → object.run W scope js = (.ok v, js))
    (hv : v.nullish = false) (hchildren : name ≠ "mapChildren")
    (htemplate : name ≠ "taggedTemplateLiteralLoose")
    (hvalue : FollowsExpr W L scope messages argument value)
    (hy : ∀ w, Follows L messages (callMethod W .thrown v name [w]) (y w) Eq) :
    Follows L messages ((Expr.call (.member object name) [argument]).run W scope)
      (value.run W >>= y) Eq := by
  intro js ir h
  rw [run_callMethod (hobject js ir h) hv hchildren htemplate]
  exact hvalue.bind_eq hy js ir h

/-- The node's own `throw`. -/
theorem follows_reject (hW : W.Qualified) (message : Value) :
    Follows L messages (callMethod W .thrown .node "throw" [message])
      (Ir.reject W message) Eq := by
  intro js ir h
  have hcalls := h.calls
  have hnext := h.setCalls (ir.calls ++ [.method .node "throw" [message]])
  refine Or.inr ⟨.thrown (W.parseError message), W.parseError message, _, _, ?_, ?_, rfl, hnext⟩
  · show callOutside W Exit.thrown _ js = _
    unfold callOutside
    rw [hcalls, hW.throws]
  · show (callOutside W id _ >>= fun _ => _) ir = _
    rw [bind_apply]
    unfold callOutside
    rw [hW.throws]
    rfl

theorem follows_read (hs : Scoped L scope) {method name : String} {read : GroupEnvelopeRead}
    (hread : readOf method = some read) :
    FollowsExpr W L scope messages
      (.call (.member (.identifier L.node) method) [.stringLiteral name]) (.read read name) := by
  have haccessor : read.accessor = method ∧ method ≠ "mapChildren" ∧
      method ≠ "taggedTemplateLiteralLoose" := by
    unfold readOf at hread
    split at hread <;> cases hread <;> exact ⟨rfl, by decide, by decide⟩
  obtain ⟨rfl, hchildren, htemplate⟩ := haccessor
  intro js ir h
  rw [run_callMethod (run_node hs h) rfl hchildren htemplate, GroupEnvelopeExpr.run, Expr.run,
    pure_bind]
  exact follows_callMethod _ _ _ js ir h

theorem follows_context (hW : W.Qualified) (hs : Scoped L scope) {receiver : Expr}
    {module method : String} {fact : GroupEnvelopeContextFact}
    (hmodule : importModule L.loaders receiver = some module)
    (hfact : factOf module method = some fact) :
    FollowsExpr W L scope messages (.call (.member receiver method) []) (.context fact) := by
  have hsource : fact.source = (module, method) ∧ method ≠ "mapChildren" ∧
      method ≠ "taggedTemplateLiteralLoose" := by
    unfold factOf at hfact
    split at hfact <;> cases hfact <;> exact ⟨rfl, by decide, by decide⟩
  obtain ⟨hsource, hchildren, htemplate⟩ := hsource
  intro js ir h
  have hreceiver := run_importModule hW hs.loaders (by rw [hs.caught]; exact fun _ _ => rfl)
    hmodule h
  rw [Expr.run, bind_apply, hreceiver, GroupEnvelopeExpr.run, hsource]
  simp only [Value.nullish, Bool.false_eq_true, reduceIte, runAll, pure_bind,
    callMethod_eq hchildren htemplate]
  exact follows_callMethod _ _ _ js ir h

theorem follows_conversion (hW : W.Qualified) (hs : Scoped L scope) {receiver argument : Expr}
    {module method : String} {conversion : GroupEnvelopeConversion} {value : GroupEnvelopeExpr}
    (hmodule : importModule L.loaders receiver = some module)
    (hconversion : conversionOf module method = some conversion)
    (hvalue : FollowsExpr W L scope messages argument value) :
    FollowsExpr W L scope messages (.call (.member receiver method) [argument])
      (.convert conversion value) := by
  have hconvert : (∀ w, Ir.convert W conversion w = callMethod W id (.module module) method [w]) ∧
      method ≠ "mapChildren" ∧ method ≠ "taggedTemplateLiteralLoose" := by
    unfold conversionOf at hconversion
    split at hconversion <;> cases hconversion <;> exact ⟨fun _ => rfl, by decide, by decide⟩
  obtain ⟨hconvert, hchildren, htemplate⟩ := hconvert
  have hreceiver := fun js ir (h : Related L messages js ir) =>
    run_importModule hW hs.loaders (by rw [hs.caught]; exact fun _ _ => rfl) hmodule h
  unfold FollowsExpr
  rw [GroupEnvelopeExpr.run]
  refine follows_callMethod_one hreceiver rfl hchildren htemplate hvalue fun w => ?_
  rw [hconvert]
  exact follows_callMethod _ _ _

theorem follows_toJid {receiver : Expr} {value : GroupEnvelopeExpr}
    (hvalue : FollowsExpr W L scope messages receiver value) :
    FollowsExpr W L scope messages (.call (.member receiver "toJid") [])
      (.convert .toJid value) := by
  unfold FollowsExpr
  rw [Expr.run, GroupEnvelopeExpr.run]
  refine hvalue.bind_eq fun v => ?_
  rw [Ir.convert]
  cases hv : v.nullish with
  | true =>
    rw [if_pos rfl, callMethod, hv]
    exact Follows.throw _
  | false =>
    simp only [Bool.false_eq_true, if_false, runAll, pure_bind,
      callMethod_eq (by decide : "toJid" ≠ "mapChildren") (by decide)]
    exact follows_callMethod _ _ _

theorem run_call {callee : Expr} (hcallee : ∀ object property, callee ≠ .member object property)
    (arguments : List Expr) :
    (Expr.call callee arguments).run W scope =
      (do
        let f ← callee.run W scope
        let vs ← runAll W scope arguments
        Js.callFunction W f vs) := by
  cases callee with
  | member object property => exact absurd rfl (hcallee object property)
  | _ => rfl

theorem follows_isEmpty (hW : W.Qualified) (hs : Scoped L scope) {callee argument : Expr}
    {value : GroupEnvelopeExpr} (hcallee : ∀ object property, callee ≠ .member object property)
    (hmodule : importModule L.loaders callee = some "isStringNullOrEmpty")
    (hvalue : FollowsExpr W L scope messages argument value) :
    FollowsExpr W L scope messages (.call callee [argument]) (.isEmpty value) := by
  intro js ir h
  have hrun := run_importModule hW hs.loaders (by rw [hs.caught]; exact fun _ _ => rfl) hmodule h
  rw [run_call hcallee, bind_apply, hrun, GroupEnvelopeExpr.run]
  simp only [runAll, bind_assoc, pure_bind, Js.callFunction]
  exact hvalue.bind_eq (fun w => follows_callOutside _) js ir h

/-- A comparison by `==` that has `null` on one side. -/
theorem looseEqual_eq {v w : Value} (h : v.nullish = true ∨ w.nullish = true) :
    Js.looseEqual v w = pure (v.nullish && w.nullish) := by
  rw [Js.looseEqual, if_pos]
  rcases h with h | h
  · rw [h, Bool.true_or]
  · rw [h, Bool.or_true]

/-- Both sides of a comparison by `==`, of which one is `null`. -/
theorem nullLiteral_of_binaryOf {left right : Expr} {operator : BinaryOperator}
    {r : GroupEnvelopeBinary} (h : binaryOf left right operator = .ok r)
    (hloose : operator = .equality ∨ operator = .inequality) :
    left = .nullLiteral ∨ right = .nullLiteral := by
  by_contra hneither
  rw [not_or] at hneither
  rcases hloose with rfl | rfl
  · unfold binaryOf at h
    simp only at h
    split at h
    · exact hneither.1 rfl
    · exact hneither.2 rfl
    · cases h
  · unfold binaryOf at h
    simp only at h
    split at h
    · exact hneither.1 rfl
    · exact hneither.2 rfl
    · cases h

/-- What follows the literal `null` gives it too. -/
theorem known_null {e : Expr} {r : GroupEnvelopeExpr}
    (h : FollowsExpr W L scope messages e r) :
    Follows L messages (e.run W scope) (r.run W)
      fun v w => v = w ∧ (e = .nullLiteral → v = .null) := by
  intro js ir hrel
  rcases h js ir hrel with ⟨v, w, js', ir', hjs, hir, heq, hrel'⟩ | hexit
  · refine Or.inl ⟨v, w, js', ir', hjs, hir, ⟨heq, fun hnull => ?_⟩, hrel'⟩
    subst hnull
    rw [Expr.run] at hjs
    exact (Except.ok.inj (congrArg Prod.fst hjs)).symm
  · exact Or.inr hexit

/-- The operators of two operands. -/
theorem follows_binary {left right : Expr} {l r : GroupEnvelopeExpr} {operator : BinaryOperator}
    {op : GroupEnvelopeBinary} (hop : binaryOf left right operator = .ok op)
    (hleft : FollowsExpr W L scope messages left l)
    (hright : FollowsExpr W L scope messages right r) :
    FollowsExpr W L scope messages (.binary operator left right) (.binary op l r) := by
  unfold FollowsExpr
  rw [GroupEnvelopeExpr.run]
  refine (known_null hleft).bind fun v v' hv => (known_null hright).bind fun w w' hw => ?_
  obtain ⟨rfl, hnullLeft⟩ := hv
  obtain ⟨rfl, hnullRight⟩ := hw
  have hloose : operator = .equality ∨ operator = .inequality →
      Js.looseEqual v w = pure (v.nullish && w.nullish) := by
    intro hoperator
    refine looseEqual_eq ?_
    rcases nullLiteral_of_binaryOf hop hoperator with h | h
    · exact Or.inl (by rw [hnullLeft h]; rfl)
    · exact Or.inr (by rw [hnullRight h]; rfl)
  cases operator with
  | strictEquality | strictInequality =>
    cases hop
    exact Follows.pure rfl
  | equality =>
    have hop' : op = .nullishEqual := by
      unfold binaryOf at hop
      simp only at hop
      split at hop <;> cases hop <;> rfl
    subst hop'
    simp only [hloose (Or.inl rfl), pure_bind]
    exact Follows.pure rfl
  | inequality =>
    have hop' : op = .nullishNotEqual := by
      unfold binaryOf at hop
      simp only at hop
      split at hop <;> cases hop <;> rfl
    subst hop'
    simp only [hloose (Or.inr rfl), pure_bind]
    exact Follows.pure rfl
  | addition =>
    cases hop
    exact follows_addValues v w
  | other => cases hop

/-- A key that is lowered is not one of those before it. -/
theorem lowerKey_eq_ok {head : PropertyHead} {before : List String} {name : String}
    (h : head.lowerKey before = .ok name) :
    head.key = some name ∧ head.isSpread = false ∧ head.isComputed = false ∧
      name ≠ "__proto__" ∧ name ∉ before := by
  rw [PropertyHead.lowerKey] at h
  split_ifs at h with hspread
  cases hkey : head.key with
  | none =>
    rw [hkey] at h
    cases h
  | some key =>
    simp only [hkey] at h
    split_ifs at h with hproto hbefore
    obtain rfl := Except.ok.inj h
    rw [Bool.or_eq_true, not_or] at hproto
    exact ⟨rfl, Bool.not_eq_true _ ▸ hspread, Bool.not_eq_true _ ▸ hproto.2,
      fun heq => hproto.1 (decide_eq_true heq), hbefore⟩

theorem key_of_fields : ∀ {properties : List (PropertyHead × Expr)} {before : List String}
    {fields : List (String × GroupEnvelopeExpr)}, L.fields properties before = .ok fields →
      ∀ p ∈ properties, ∀ k, p.1.key = some k → k ∉ before
  | [], _, _, _ => fun p hp => nomatch hp
  | (head, e) :: properties, before, fields, h => by
    rw [Lower.fields] at h
    obtain ⟨name, hname, h⟩ := bind_eq_ok.mp h
    obtain ⟨value, hvalue, h⟩ := bind_eq_ok.mp h
    obtain ⟨rest, hrest, h⟩ := bind_eq_ok.mp h
    intro p hp k hk
    rcases List.mem_cons.mp hp with rfl | hp
    · obtain ⟨hkey, _, _, _, hbefore⟩ := lowerKey_eq_ok hname
      obtain rfl := Option.some.inj (hkey.symm.trans hk)
      exact hbefore
    · exact fun hmem => key_of_fields hrest p hp k hk (List.mem_append_left _ hmem)

end Expressions

section Lowering

variable {W : World} {L : Lower} {scope : Scope} {messages : List (List String)}
/-- A call of a method. -/
theorem follows_methodCall (hW : W.Qualified) (hs : Scoped L scope) {receiver : Expr}
    {method : String} {arguments : List Expr} {r : GroupEnvelopeExpr}
    (hreceiver : ∀ {value}, L.expr receiver = .ok value →
      FollowsExpr W L scope messages receiver value)
    (hargument : ∀ {a value}, arguments = [a] → L.expr a = .ok value →
      FollowsExpr W L scope messages a value)
    (h : L.expr (.call (.member receiver method) arguments) = .ok r) :
    FollowsExpr W L scope messages (.call (.member receiver method) arguments) r := by
  rw [Lower.expr.eq_def] at h
  dsimp only at h
  by_cases hnode : receiver.isIdentifier L.node = true
  · rw [if_pos hnode] at h
    rw [isIdentifier_eq hnode]
    split at h
    · cases h
    · rename_i a _
      split_ifs at h with hthrow
      · obtain ⟨message, hmessage, h⟩ := bind_eq_ok.mp h
        cases h
        rw [hthrow]
        unfold FollowsExpr
        rw [GroupEnvelopeExpr.run]
        exact follows_callMethod_one (fun js ir hrel => run_node hs hrel) rfl (by decide)
          (by decide) (hargument rfl hmessage) (follows_reject hW)
      · split at h
        · split at h
          · rename_i read hread
            cases h
            exact follows_read hs hread
          · cases h
        · cases h
    · cases h
  · rw [if_neg hnode] at h
    by_cases htoJid : method = "toJid" ∧ arguments.isEmpty = true
    · rw [if_pos htoJid] at h
      obtain ⟨value, hvalue, h⟩ := bind_eq_ok.mp h
      cases h
      rw [htoJid.1, List.isEmpty_iff.mp htoJid.2]
      exact follows_toJid (hreceiver hvalue)
    · rw [if_neg htoJid] at h
      split at h
      · rename_i module hmodule
        split at h
        · rename_i fact hfact
          split_ifs at h with hempty
          cases h
          rw [List.isEmpty_iff.mp hempty]
          exact follows_context hW hs hmodule hfact
        · split at h
          · cases h
          · rename_i conversion hconversion
            split at h
            · cases h
            · obtain ⟨value, hvalue, h⟩ := bind_eq_ok.mp h
              cases h
              exact follows_conversion hW hs hmodule hconversion (hargument rfl hvalue)
            · cases h
      · cases h

/-- A call of a function. -/
theorem follows_functionCall (hW : W.Qualified) (hs : Scoped L scope) {callee : Expr}
    {arguments : List Expr} {r : GroupEnvelopeExpr}
    (hcallee : ∀ object property, callee ≠ .member object property)
    (hargument : ∀ {a value}, arguments = [a] → L.expr a = .ok value →
      FollowsExpr W L scope messages a value)
    (h : L.expr (.call callee arguments) = .ok r) :
    FollowsExpr W L scope messages (.call callee arguments) r := by
  rw [Lower.expr.eq_def] at h
  cases callee with
  | member object property => exact absurd rfl (hcallee object property)
  | _ =>
    dsimp only at h
    split_ifs at h with hmodule
    split at h
    · cases h
    · obtain ⟨value, hvalue, h⟩ := bind_eq_ok.mp h
      cases h
      exact follows_isEmpty hW hs hcallee hmodule (hargument rfl hvalue)
    · cases h

mutual

/-- **What an expression is lowered to does what the expression does.** -/
theorem follows_expr (hW : W.Qualified) (hs : Scoped L scope) :
    ∀ (e : Expr) {r : GroupEnvelopeExpr}, L.expr e = .ok r →
    (∀ p ∈ e.parts, p.Clean) → FollowsExpr W L scope messages e r
  | .stringLiteral s, r, h, _ => by
    cases h
    exact Follows.pure rfl
  | .numericLiteral n, r, h, hclean => by
    rw [Lower.expr] at h
    cases hk : n.integer with
    | none =>
      rw [hk] at h
      cases h
    | some k =>
      rw [hk] at h
      cases h
      unfold FollowsExpr
      rw [ofInt_asInt (hclean _ (List.mem_singleton_self _)).literal (e := .numericLiteral n) hk]
      exact Follows.pure rfl
  | .identifier name, r, h, hclean => by
    rw [Lower.expr] at h
    by_cases hnode : name = L.node
    · rw [if_pos hnode] at h
      cases h
      rw [hnode]
      intro js ir hrel
      rw [run_node hs hrel]
      exact Or.inl ⟨_, _, _, _, rfl, rfl, rfl, hrel⟩
    · rw [if_neg hnode] at h
      obtain ⟨i, hi, h⟩ := bind_eq_ok.mp h
      cases h
      refine follows_local hs (localOf_eq_ok hi) fun heq => ?_
      have harguments := (hclean _ (List.mem_singleton_self _)).arguments
      rw [heq] at harguments
      cases harguments
  | .nullLiteral, r, h, _ => by
    cases h
    exact Follows.pure rfl
  | .booleanLiteral b, r, h, _ => by
    cases h
    exact Follows.pure rfl
  | .parenthesized e, r, h, hclean => by
    rw [Lower.expr] at h
    unfold FollowsExpr
    rw [Expr.run]
    exact follows_expr hW hs e h fun p hp => hclean p (List.mem_cons_of_mem _ hp)
  | .unary .logicalNot argument, r, h, hclean => by
    rw [Lower.expr] at h
    obtain ⟨value, hvalue, h⟩ := bind_eq_ok.mp h
    cases h
    unfold FollowsExpr
    rw [Expr.run, GroupEnvelopeExpr.run]
    refine Follows.bind_eq
      (follows_expr hW hs argument hvalue fun p hp => hclean p (List.mem_cons_of_mem _ hp)) fun v => ?_
    exact Follows.pure rfl
  | .unary .void argument, r, h, _ => by
    rw [Lower.expr] at h
    split_ifs at h with hzero
    cases h
    obtain ⟨w, _, _, hrun⟩ := asInt_eq_some W scope argument hzero
    unfold FollowsExpr
    rw [Expr.run, hrun, pure_bind]
    exact Follows.pure rfl
  | .unary .unaryNegation argument, r, h, hclean => by
    rw [Lower.expr] at h
    cases hk : (Expr.unary .unaryNegation argument).asInt with
    | none =>
      simp only [hk] at h
      cases h
    | some k =>
      simp only [hk] at h
      cases h
      unfold FollowsExpr
      rw [ofInt_asInt (hclean _ (List.mem_singleton_self _)).literal hk]
      exact Follows.pure rfl
  | .unary .other _, r, h, _ => by cases h
  | .binary operator left right, r, h, hclean => by
    rw [Lower.expr] at h
    obtain ⟨op, hop, h⟩ := bind_eq_ok.mp h
    obtain ⟨l, hl, h⟩ := bind_eq_ok.mp h
    obtain ⟨r', hr, h⟩ := bind_eq_ok.mp h
    cases h
    have hleft := follows_expr hW hs left hl fun p hp =>
      hclean p (List.mem_cons_of_mem _ (List.mem_append_left _ hp))
    have hright := follows_expr hW hs right hr fun p hp =>
      hclean p (List.mem_cons_of_mem _ (List.mem_append_right _ hp))
    exact follows_binary hop hleft hright
  | .logical operator left right, r, h, hclean => by
    have hleft := fun {l} (hl : L.expr left = .ok l) => follows_expr hW hs left hl fun p hp =>
      hclean p (List.mem_cons_of_mem _ (List.mem_append_left _ hp))
    have hright := fun {r} (hr : L.expr right = .ok r) => follows_expr hW hs right hr fun p hp =>
      hclean p (List.mem_cons_of_mem _ (List.mem_append_right _ hp))
    cases operator with
    | and =>
      rw [Lower.expr] at h
      obtain ⟨l, hl, h⟩ := bind_eq_ok.mp h
      obtain ⟨r', hr, h⟩ := bind_eq_ok.mp h
      cases h
      unfold FollowsExpr
      rw [Expr.run, GroupEnvelopeExpr.run]
      refine Follows.bind_eq (hleft hl) fun v => ?_
      cases v.truthy with
      | true => exact hright hr
      | false => exact Follows.pure rfl
    | or =>
      rw [Lower.expr] at h
      obtain ⟨l, hl, h⟩ := bind_eq_ok.mp h
      obtain ⟨r', hr, h⟩ := bind_eq_ok.mp h
      cases h
      unfold FollowsExpr
      rw [Expr.run, GroupEnvelopeExpr.run]
      refine Follows.bind_eq (hleft hl) fun v => ?_
      cases v.truthy with
      | true => exact Follows.pure rfl
      | false => exact hright hr
    | coalesce => cases h
  | .conditional test consequent alternate, r, h, hclean => by
    rw [Lower.expr] at h
    obtain ⟨c, hc, h⟩ := bind_eq_ok.mp h
    obtain ⟨t, ht, h⟩ := bind_eq_ok.mp h
    obtain ⟨f, hf, h⟩ := bind_eq_ok.mp h
    cases h
    have hparts := fun p hp => hclean p (List.mem_cons_of_mem _ hp)
    unfold FollowsExpr
    rw [Expr.run, GroupEnvelopeExpr.run]
    refine Follows.bind_eq
      (follows_expr hW hs test hc fun p hp => hparts p (List.mem_append_left _ hp)) fun v => ?_
    cases v.truthy with
    | true =>
      exact follows_expr hW hs consequent ht fun p hp =>
        hparts p (List.mem_append_right _ (List.mem_append_left _ hp))
    | false =>
      exact follows_expr hW hs alternate hf fun p hp =>
        hparts p (List.mem_append_right _ (List.mem_append_right _ hp))
  | .assignment isPlain target right, r, h, hclean => by
    match isPlain, target, h with
    | true, some target, h =>
      rw [Lower.expr] at h
      obtain ⟨i, hi, h⟩ := bind_eq_ok.mp h
      obtain ⟨value, hvalue, h⟩ := bind_eq_ok.mp h
      cases h
      unfold FollowsExpr
      rw [Expr.run, GroupEnvelopeExpr.run]
      refine Follows.bind_eq
        (follows_expr hW hs right hvalue fun p hp => hclean p (List.mem_cons_of_mem _ hp)) fun v => ?_
      exact (follows_assign hs (localOf_eq_ok hi) v).bind fun _ _ _ => Follows.pure rfl
    | true, none, h => cases h
    | false, _, h => cases h
  | .sequence expressions, r, h, hclean => by
    rw [Lower.expr] at h
    obtain ⟨values, hvalues, h⟩ := bind_eq_ok.mp h
    cases h
    unfold FollowsExpr
    rw [Expr.run, GroupEnvelopeExpr.run]
    exact Follows.bind_eq
      (follows_exprs hW hs expressions hvalues fun p hp => hclean p (List.mem_cons_of_mem _ hp))
      fun vs => Follows.pure rfl
  | .object properties, r, h, hclean => by
    rw [Lower.expr] at h
    obtain ⟨fields, hfields, h⟩ := bind_eq_ok.mp h
    cases h
    unfold FollowsExpr
    rw [Expr.run, GroupEnvelopeExpr.run]
    exact Follows.bind_eq
      (follows_fields hW hs properties hfields fun p hp => hclean p (List.mem_cons_of_mem _ hp))
      fun vs => follows_newObject vs
  | .call callee arguments, r, h, hclean => by
    have hparts := fun p hp => hclean p (List.mem_cons_of_mem _ hp)
    have hargument : ∀ {a : Expr} {value : GroupEnvelopeExpr}, arguments = [a] →
        L.expr a = .ok value → FollowsExpr W L scope messages a value := by
      intro a value ha hvalue
      subst ha
      exact follows_expr hW hs a hvalue fun p hp =>
        hparts p (List.mem_append_right _ (List.mem_append_left _ hp))
    cases callee with
    | member receiver method =>
      refine follows_methodCall hW hs (fun {value} hvalue => ?_) hargument h
      exact follows_expr hW hs receiver hvalue fun p hp =>
        hparts p (List.mem_append_left _ (List.mem_cons_of_mem _ hp))
    | _ => exact follows_functionCall hW hs (fun _ _ heq => nomatch heq) hargument h
  | .array _, r, h, _ => by cases h
  | .member _ _, r, h, _ => by cases h
  | .function _, r, h, _ => by cases h
  | .spread _, r, h, _ => by cases h
  | .other, r, h, _ => by cases h

theorem follows_exprs (hW : W.Qualified) (hs : Scoped L scope) :
    ∀ (es : List Expr) {rs : List GroupEnvelopeExpr}, L.exprs es = .ok rs →
    (∀ p ∈ partsAll es, p.Clean) →
    Follows L messages (runAll W scope es) (runValues W rs) Eq
  | [], rs, h, _ => by
    cases h
    exact Follows.pure rfl
  | e :: es, rs, h, hclean => by
    rw [Lower.exprs] at h
    obtain ⟨value, hvalue, h⟩ := bind_eq_ok.mp h
    obtain ⟨values, hvalues, h⟩ := bind_eq_ok.mp h
    cases h
    rw [runAll, runValues]
    refine Follows.bind_eq
      (follows_expr hW hs e hvalue fun p hp => hclean p (List.mem_append_left _ hp)) fun v => ?_
    exact Follows.bind_eq
      (follows_exprs hW hs es hvalues fun p hp => hclean p (List.mem_append_right _ hp))
      fun vs => Follows.pure rfl

theorem follows_fields (hW : W.Qualified) (hs : Scoped L scope) :
    ∀ (properties : List (PropertyHead × Expr)) {before : List String}
    {fields : List (String × GroupEnvelopeExpr)}, L.fields properties before = .ok fields →
    (∀ p ∈ partsOfProperties properties, p.Clean) →
    Follows L messages (runProperties W scope properties) (runFields W fields) Eq
  | [], before, fields, h, _ => by
    cases h
    exact Follows.pure rfl
  | (head, e) :: properties, before, fields, h, hclean => by
    rw [Lower.fields] at h
    obtain ⟨name, hname, h⟩ := bind_eq_ok.mp h
    obtain ⟨value, hvalue, h⟩ := bind_eq_ok.mp h
    obtain ⟨rest, hrest, h⟩ := bind_eq_ok.mp h
    cases h
    obtain ⟨hkey, hspread, hcomputed, hproto, _⟩ := lowerKey_eq_ok hname
    have hlater : properties.any (fun p => p.1.key = some name) = false := by
      rw [List.any_eq_false]
      intro p hp hpk
      exact key_of_fields hrest p hp name (of_decide_eq_true hpk)
        (List.mem_append_right _ (List.mem_singleton_self _))
    rw [runProperties, runFields]
    simp only [hkey, hspread, hcomputed, hproto, hlater, decide_false, Bool.or_self,
      Bool.false_eq_true, reduceIte]
    refine Follows.bind_eq
      (follows_expr hW hs e hvalue fun p hp => hclean p (List.mem_append_left _ hp)) fun v => ?_
    exact Follows.bind_eq
      (follows_fields hW hs properties hrest fun p hp => hclean p (List.mem_append_right _ hp))
      fun vs => Follows.pure rfl

end

end Lowering

end Whatspec.Notif.Envelope

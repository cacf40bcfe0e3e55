import Whatspec.Notif.EnvelopeSound

/-!
# The statements of the group envelope

* `diagnosticsOf` are the messages of a program's diagnostics, of which there is one at most;
* `follows_handler`: the handler of a `try` reports what the diagnostic reports;
* **`follows_statement`**: what a statement is lowered to does what the statement does.
-/

namespace Whatspec.Notif.Envelope

open Whatspec.Library
open Whatspec.Library.Comp

/-! ### Diagnostics -/

mutual

/-- The messages of the diagnostics of an operation. -/
def GroupEnvelopeOp.diagnostics : GroupEnvelopeOp → List (List String)
  | .if _ thenOps elseOps => diagnosticsOf thenOps ++ diagnosticsOf elseOps
  | .tryDiagnostic body messageParts => messageParts :: diagnosticsOf body
  | _ => []

def diagnosticsOf : List GroupEnvelopeOp → List (List String)
  | [] => []
  | op :: ops => op.diagnostics ++ diagnosticsOf ops

end

attribute [simp] GroupEnvelopeOp.diagnostics diagnosticsOf

theorem diagnosticsOf_append : ∀ ops rest : List GroupEnvelopeOp,
    diagnosticsOf (ops ++ rest) = diagnosticsOf ops ++ diagnosticsOf rest
  | [], rest => rfl
  | op :: ops, rest => by
    rw [List.cons_append, diagnosticsOf, diagnosticsOf, diagnosticsOf_append ops rest,
      List.append_assoc]

/-- A walk makes no diagnostic, or the first one. -/
def Lower.Diagnosed (L L' : Lower) (ops : List GroupEnvelopeOp) : Prop :=
  (L'.diagnosticSeen = L.diagnosticSeen ∧ diagnosticsOf ops = []) ∨
    (L.diagnosticSeen = false ∧ L'.diagnosticSeen = true ∧ ∃ p, diagnosticsOf ops = [p])

theorem Lower.Diagnosed.none (L : Lower) {ops : List GroupEnvelopeOp} (h : diagnosticsOf ops = []) :
    L.Diagnosed L ops := Or.inl ⟨rfl, h⟩

/-- **There is one diagnostic at most.** -/
theorem Lower.Diagnosed.trans {L L₁ L₂ : Lower} {ops ops' all : List GroupEnvelopeOp}
    (h : L.Diagnosed L₁ ops) (h' : L₁.Diagnosed L₂ ops')
    (hall : diagnosticsOf all = diagnosticsOf ops ++ diagnosticsOf ops') : L.Diagnosed L₂ all := by
  rw [Lower.Diagnosed, hall]
  obtain ⟨hseen, hops⟩ | ⟨hseen, hseen₁, p, hops⟩ := h
  · rw [hops, List.nil_append, ← hseen]
    exact h'
  · obtain ⟨hseen', hops'⟩ | ⟨hseen', _⟩ := h'
    · rw [hops, hops', List.append_nil]
      exact Or.inr ⟨hseen, hseen'.trans hseen₁, p, rfl⟩
    · rw [hseen₁] at hseen'
      cases hseen'

theorem declarations_diagnosed : ∀ (declarations : List (Option String × Option Expr))
    {L L' : Lower} {ops : List GroupEnvelopeOp}, L.declarations declarations = .ok (ops, L') →
      L'.diagnosticSeen = L.diagnosticSeen ∧ diagnosticsOf ops = []
  | [], L, L', ops, h => by
    cases h
    exact ⟨rfl, rfl⟩
  | (none, _) :: _, L, L', ops, h => by cases h
  | (some name, init) :: declarations, L, L', ops, h => by
    have hbind : (L.bind name).2.diagnosticSeen = L.diagnosticSeen := by
      rw [Lower.bind]
      cases L.locals.idxOf? name <;> rfl
    cases init with
    | none =>
      obtain ⟨⟨rest, L₁⟩, hrest, h⟩ := bind_eq_ok.mp h
      cases h
      obtain ⟨hseen, hops⟩ := declarations_diagnosed declarations hrest
      exact ⟨hseen.trans hbind, hops⟩
    | some init =>
      obtain ⟨value, _, h⟩ := bind_eq_ok.mp h
      obtain ⟨⟨rest, L₁⟩, hrest, h⟩ := bind_eq_ok.mp h
      cases h
      obtain ⟨hseen, hops⟩ := declarations_diagnosed declarations hrest
      exact ⟨hseen.trans hbind, hops⟩

mutual

theorem statement_diagnosed : ∀ (s : Stmt) {L L' : Lower} {ops : List GroupEnvelopeOp},
    L.statement s = .ok (ops, L') → L.Diagnosed L' ops
  | .variableDeclaration isVar declarations, L, L', ops, h => by
    rw [Lower.statement] at h
    split_ifs at h
    exact Or.inl (declarations_diagnosed declarations h)
  | .expressionStatement e, L, L', ops, h => by
    rw [Lower.statement] at h
    obtain ⟨value, _, h⟩ := bind_eq_ok.mp h
    cases h
    exact Lower.Diagnosed.none _ rfl
  | .blockStatement body, L, L', ops, h => by
    rw [Lower.statement] at h
    exact statements_diagnosed body h
  | .ifStatement test consequent none, L, L', ops, h => by
    rw [Lower.statement] at h
    obtain ⟨condition, _, h⟩ := bind_eq_ok.mp h
    obtain ⟨⟨thenOps, L₁⟩, hthen, h⟩ := bind_eq_ok.mp h
    cases h
    exact (statement_diagnosed consequent hthen).trans (Lower.Diagnosed.none _ rfl)
      (show _ = _ ++ diagnosticsOf [] by simp)
  | .ifStatement test consequent (some alternate), L, L', ops, h => by
    rw [Lower.statement] at h
    obtain ⟨condition, _, h⟩ := bind_eq_ok.mp h
    obtain ⟨⟨thenOps, L₁⟩, hthen, h⟩ := bind_eq_ok.mp h
    obtain ⟨⟨elseOps, L₂⟩, helse, h⟩ := bind_eq_ok.mp h
    cases h
    exact (statement_diagnosed consequent hthen).trans (statement_diagnosed alternate helse)
      (by simp)
  | .tryStatement block handler hasFinalizer, L, L', ops, h => by
    rw [Lower.statement] at h
    split_ifs at h with hseen hfinally
    obtain ⟨⟨body, L₁⟩, hbody, h⟩ := bind_eq_ok.mp h
    match handler, h with
    | none, h => cases h
    | some (none, _), h => cases h
    | some (some error, handlerBody), h =>
      obtain ⟨parts, _, h⟩ := bind_eq_ok.mp h
      cases h
      obtain ⟨hbodySeen, hops⟩ | ⟨hbodySeen, _⟩ := statements_diagnosed block hbody
      · exact Or.inr ⟨(Bool.not_eq_true _).mp hseen, hbodySeen, parts, by simp [hops]⟩
      · cases hbodySeen
  | .functionDeclaration _, L, L', ops, h => by cases h
  | .returnStatement _, L, L', ops, h => by cases h
  | .other, L, L', ops, h => by cases h

theorem statements_diagnosed : ∀ (ss : List Stmt) {L L' : Lower} {ops : List GroupEnvelopeOp},
    L.statements ss = .ok (ops, L') → L.Diagnosed L' ops
  | [], L, L', ops, h => by
    cases h
    exact Lower.Diagnosed.none _ rfl
  | s :: ss, L, L', ops, h => by
    rw [Lower.statements] at h
    obtain ⟨⟨first, L₁⟩, hfirst, h⟩ := bind_eq_ok.mp h
    obtain ⟨⟨rest, L₂⟩, hrest, h⟩ := bind_eq_ok.mp h
    cases h
    exact (statement_diagnosed s hfirst).trans (statements_diagnosed ss hrest)
      (diagnosticsOf_append _ _)

end

/-- What the walk knows changes only by the first diagnostic. -/
structure Lower.Same (L L' : Lower) : Prop where
  node : L'.node = L.node
  loaders : L'.loaders = L.loaders
  locals : L'.locals = L.locals
  diagnosticCache : L'.diagnosticCache = L.diagnosticCache

theorem Lower.Same.refl (L : Lower) : L.Same L := ⟨rfl, rfl, rfl, rfl⟩

theorem Lower.Same.trans {L L₁ L₂ : Lower} (h : L.Same L₁) (h' : L₁.Same L₂) : L.Same L₂ :=
  ⟨h'.node.trans h.node, h'.loaders.trans h.loaders, h'.locals.trans h.locals,
    h'.diagnosticCache.trans h.diagnosticCache⟩

theorem Lower.Same.scoped {L L' : Lower} {scope : Scope} (h : L.Same L') (hs : Scoped L scope) :
    Scoped L' scope where
  node := by
    rw [h.node, h.locals]
    exact hs.node
  loaders := by
    rw [h.loaders]
    exact hs.loaders
  own := by
    rw [h.locals]
    exact hs.own
  cache := hs.cache.trans h.diagnosticCache.symm
  cacheFree := by
    rw [h.diagnosticCache]
    exact hs.cacheFree
  caught := hs.caught
  globals := hs.globals

theorem Lower.Same.related_iff {L L' : Lower} {messages : List (List String)} (h : L.Same L')
    (js : Machine JsMemory) (ir : Machine (ℕ → Value)) :
    Related L' messages js ir ↔ Related L messages js ir := by
  cases L with
  | mk node loaders locals seen cache =>
    cases L' with
    | mk node' loaders' locals' seen' cache' =>
      obtain ⟨rfl, rfl, rfl, rfl⟩ := h
      exact ⟨fun h => ⟨h.calls, h.fresh, h.node, h.declared, h.locals, h.hidden, h.cache⟩,
        fun h => ⟨h.calls, h.fresh, h.node, h.declared, h.locals, h.hidden, h.cache⟩⟩

/-- A run that follows another one does so whatever the walk has seen. -/
theorem Lower.Same.follows {L L' : Lower} {messages : List (List String)} {α β : Type}
    {x : Js α} {y : Ir β} {R : α → β → Prop} (h : L.Same L')
    (hx : Follows L' messages x y R) : Follows L messages x y R :=
  Coupled.weaken hx (fun js ir => (h.related_iff js ir).mpr)
    (fun _ _ js ir hr => ⟨hr.1, (h.related_iff js ir).mp hr.2⟩)
    (fun _ _ js ir hr => ⟨hr.1, (h.related_iff js ir).mp hr.2⟩)

section Statements

variable {W : World} {L : Lower} {scope : Scope} {messages : List (List String)}

theorem bind_of_mem {name : String} (h : name ∈ L.locals) :
    ∃ i, L.locals.idxOf? name = some i ∧ L.bind name = (i, L) := by
  cases hi : L.locals.idxOf? name with
  | none => exact absurd h (List.idxOf?_eq_none_iff.mp hi)
  | some i =>
    refine ⟨i, rfl, ?_⟩
    rw [Lower.bind, hi]

theorem runOps_append : ∀ ops rest : List GroupEnvelopeOp,
    runOps W (ops ++ rest) = runOps W ops >>= fun _ => runOps W rest
  | [], rest => rfl
  | op :: ops, rest => by
    rw [List.cons_append, runOps, runOps, runOps_append ops rest, bind_assoc]

theorem runOps_singleton (op : GroupEnvelopeOp) : runOps W [op] = op.run W := by
  rw [runOps, runOps]
  exact bind_pure (op.run W)

/-- Declarations bind locals. -/
theorem follows_declarations (hW : W.Qualified) (hs : Scoped L scope) :
    ∀ (declarations : List (Option String × Option Expr)) {ops : List GroupEnvelopeOp}
      {L' : Lower}, L.declarations declarations = .ok (ops, L') →
      (∀ x ∈ declarations.filterMap Prod.fst, x ∈ L.locals) →
      (∀ p ∈ partsOfDeclarations declarations, p.Clean) →
      L' = L ∧ Follows L messages (runDeclarations W scope declarations) (runOps W ops)
        fun _ _ => True
  | [], ops, L', h, _, _ => by
    cases h
    exact ⟨rfl, Follows.pure trivial⟩
  | (none, _) :: _, ops, L', h, _, _ => by cases h
  | (some name, none) :: declarations, ops, L', h, hnames, hclean => by
    obtain ⟨i, hi, hbind⟩ := bind_of_mem (hnames name List.mem_cons_self)
    rw [Lower.declarations, hbind] at h
    obtain ⟨⟨rest, L₁⟩, hrest, h⟩ := bind_eq_ok.mp h
    cases h
    have ih := follows_declarations hW hs declarations hrest
      (fun x hx => hnames x (List.mem_cons_of_mem _ hx)) hclean
    refine ⟨ih.1, ?_⟩
    rw [runDeclarations, runOps, GroupEnvelopeOp.run, pure_bind]
    exact ih.2
  | (some name, some init) :: declarations, ops, L', h, hnames, hclean => by
    obtain ⟨i, hi, hbind⟩ := bind_of_mem (hnames name List.mem_cons_self)
    rw [Lower.declarations, hbind] at h
    obtain ⟨value, hvalue, h⟩ := bind_eq_ok.mp h
    obtain ⟨⟨rest, L₁⟩, hrest, h⟩ := bind_eq_ok.mp h
    cases h
    have ih := follows_declarations hW hs declarations hrest
      (fun x hx => hnames x (List.mem_cons_of_mem _ hx))
      (fun p hp => hclean p (List.mem_append_right _ hp))
    refine ⟨ih.1, ?_⟩
    rw [runDeclarations, runOps, GroupEnvelopeOp.run, bind_assoc]
    have hinit : FollowsExpr W L scope messages init value :=
      follows_expr hW hs init hvalue fun p hp => hclean p (List.mem_append_left _ hp)
    refine Follows.bind_eq hinit fun v => ?_
    exact (follows_assign hs hi v).bind fun _ _ _ => ih.2

/-! ### The handler -/

theorem templateParts_run : ∀ {elements : List Expr} {parts : List String},
    templateParts elements = .ok parts →
      runAll W scope elements = pure (parts.map .text)
  | [], parts, h => by
    cases h
    rfl
  | .stringLiteral s :: es, parts, h => by
    rw [templateParts] at h
    obtain ⟨rest, hrest, h⟩ := bind_eq_ok.mp h
    cases h
    rw [runAll, templateParts_run hrest]
    rfl

theorem templateOf_map : ∀ parts : List String, Js.templateOf (parts.map .text) = some parts
  | [] => rfl
  | s :: parts => by
    rw [List.map_cons, Js.templateOf, templateOf_map parts]
    rfl

/-- The form of the template that a first report puts into the cache. -/
theorem diagnosticTemplate_eq_ok {cache : String} {e : Expr} {parts : List String}
    (h : Lower.diagnosticTemplate cache e = .ok parts) :
    ∃ elements, e.withoutParentheses = .assignment true (some cache)
        (.call (.member (.identifier "babelHelpers") "taggedTemplateLiteralLoose")
          [.array elements]) ∧
      templateParts elements = .ok parts := by
  rw [Lower.diagnosticTemplate] at h
  split at h
  · rename_i isPlain target right heq
    split_ifs at h with htarget
    rw [Bool.and_eq_true, decide_eq_true_eq] at htarget
    obtain ⟨rfl, rfl⟩ := htarget
    split at h
    · rename_i owner method arguments
      split_ifs at h with howner
      rw [Bool.and_eq_true, decide_eq_true_eq] at howner
      obtain ⟨howner, rfl⟩ := howner
      split at h
      · rename_i elements
        rw [isIdentifier_eq howner] at heq
        exact ⟨elements, heq, h⟩
      · cases h
      · cases h
      · cases h
    · cases h
    · cases h
  · cases h

theorem diagnosticError_eq_ok {error : String} {e : Expr} (h : L.diagnosticError error e = .ok ()) :
    ∃ callee, e = .call (.member (.call callee [.identifier error]) "toString") [] ∧
      importModule L.loaders callee = some "getErrorSafe" := by
  unfold Lower.diagnosticError at h
  split at h
  · rename_i callee argument
    split_ifs at h with hif
    rw [Bool.and_eq_true, decide_eq_true_eq] at hif
    rw [isIdentifier_eq hif.2]
    exact ⟨callee, rfl, hif.1⟩
  all_goals cases h

/-- The form of the one handler that is accepted. -/
theorem diagnostic_eq_ok {error : String} {body : List Stmt} {parts : List String}
    (h : L.diagnostic error body = .ok parts) :
    ∃ receiver right formatted,
      body = [.expressionStatement (.call (.member receiver "ERROR")
        [.logical .or (.identifier L.diagnosticCache) right, formatted])] ∧
      importModule L.loaders receiver = some "WALogger" ∧
      L.diagnosticCache ∉ L.locals ∧ L.diagnosticCache ≠ error ∧
      Lower.diagnosticTemplate L.diagnosticCache right = .ok parts ∧
      L.diagnosticError error formatted = .ok () := by
  unfold Lower.diagnostic at h
  split at h
  · rename_i receiver method template formatted
    split_ifs at h with hmethod hmodule
    split at h
    · rename_i cache right
      split_ifs at h with hcache hfree
      obtain ⟨parts', htemplate, h⟩ := bind_eq_ok.mp h
      obtain ⟨_, herror, h⟩ := bind_eq_ok.mp h
      cases h
      rw [not_not] at hmethod hmodule hcache
      subst hmethod
      subst hcache
      rw [not_or] at hfree
      exact ⟨receiver, right, formatted, rfl, hmodule, hfree.1, hfree.2, htemplate, herror⟩
    all_goals cases h
  · split_ifs at h
  all_goals cases h

/-- Inside of a handler. -/
def Scope.handler (scope : Scope) (error : String) (e : Value) : Scope :=
  { scope with caught := (error, e) :: scope.caught }

theorem lookup_handler (hs : Scoped L scope) {error x : String} (e : Value) (hx : x ≠ error) :
    (scope.handler error e).caught.lookup x = none := by
  rw [Scope.handler, hs.caught, List.lookup_cons, beq_false_of_ne hx]
  rfl

/-- In a handler the template cache is still the module's. -/
theorem read_cache (hs : Scoped L scope) (hfree : L.diagnosticCache ∉ L.locals) {error : String}
    (e : Value) (herror : L.diagnosticCache ≠ error) {js : Machine JsMemory}
    {ir : Machine (ℕ → Value)} (h : Related L messages js ir) :
    (scope.handler error e).read js.memory L.diagnosticCache = some js.memory.cache ∧
      ∀ v, (scope.handler error e).write js.memory L.diagnosticCache v =
        some { js.memory with cache := v } := by
  have hframe := h.hidden L.diagnosticCache (Or.inr (Or.inr ⟨rfl, hfree⟩))
  have hloader : (scope.handler error e).loaders.idxOf? L.diagnosticCache = none :=
    List.idxOf?_eq_none_iff.mpr hs.cacheFree
  constructor
  · rw [Scope.read, lookup_handler hs e herror]
    simp only [Scope.readOuter, hframe, hloader]
    exact if_pos hs.cache.symm
  · intro v
    rw [Scope.write, lookup_handler hs e herror]
    simp only [Scope.writeOuter, hframe, hloader]
    exact if_pos hs.cache.symm

theorem read_global (hs : Scoped L scope) {x : String} (hx : x ∈ globalNames) {error : String}
    (e : Value) (herror : x ≠ error) {js : Machine JsMemory} {ir : Machine (ℕ → Value)}
    (h : Related L messages js ir) :
    (scope.handler error e).read js.memory x = some (.global x) := by
  have hloader : (scope.handler error e).loaders.idxOf? x = none :=
    List.idxOf?_eq_none_iff.mpr (hs.globals x hx).1
  rw [Scope.read, lookup_handler hs e herror]
  simp only [Scope.readOuter, h.hidden x (Or.inr (Or.inl hx)), hloader]
  rw [if_neg (show x ≠ (scope.handler error e).cache from (hs.globals x hx).2), if_pos hx]

theorem Related.setCache {js : Machine JsMemory} {ir : Machine (ℕ → Value)}
    (h : Related L messages js ir) {parts : List String} (hone : ∀ p ∈ messages, p = parts) :
    Related L messages
      { js with memory := { js.memory with cache := .template parts } } ir :=
  { h with cache := fun p hp => Or.inr (by rw [hone p hp]) }

/-- The first report fills the template cache, and every report finds the parts in it. -/
theorem follows_template (hs : Scoped L scope) (hfree : L.diagnosticCache ∉ L.locals)
    {error : String} (e : Value) (herror : L.diagnosticCache ≠ error)
    (hglobal : error ∉ globalNames) {right : Expr} {parts : List String}
    (htemplate : Lower.diagnosticTemplate L.diagnosticCache right = .ok parts)
    (hmem : parts ∈ messages) (hone : ∀ p ∈ messages, p = parts) :
    Follows L messages
      ((Expr.logical .or (.identifier L.diagnosticCache) right).run W (scope.handler error e))
      (pure ()) fun v _ => v = .template parts := by
  obtain ⟨elements, hright, helements⟩ := diagnosticTemplate_eq_ok htemplate
  intro js ir h
  obtain ⟨hread, hwrite⟩ := read_cache (L := L) hs hfree e herror h
  rw [Expr.run, bind_apply, run_identifier hread]
  rcases h.cache parts hmem with hcache | hcache
  · rw [hcache]
    have hhelper : (Expr.identifier "babelHelpers").run W (scope.handler error e) js =
        (.ok (.global "babelHelpers"), js) :=
      run_identifier (read_global hs (by decide) e (ne_of_mem_of_not_mem (by decide) hglobal) h)
    have harguments : runAll W (scope.handler error e) [.array elements] =
        pure [.template parts] := by
      rw [runAll, Expr.run, templateParts_run helements, Comp.pure_bind, templateOf_map]
      rfl
    have hcall : (Expr.call (.member (.identifier "babelHelpers") "taggedTemplateLiteralLoose")
        [.array elements]).run W (scope.handler error e) js = (.ok (.template parts), js) := by
      rw [Expr.run, bind_apply, hhelper, harguments]
      rfl
    have hassign : Js.assign (scope.handler error e) L.diagnosticCache (.template parts) js =
        (.ok (), { js with memory := { js.memory with cache := .template parts } }) := by
      rw [Js.assign, bind_apply, get_apply]
      simp only [hwrite]
      rfl
    have hrun : right.run W (scope.handler error e) js =
        (.ok (.template parts), { js with memory := { js.memory with
          cache := .template parts } }) := by
      rw [← run_withoutParentheses, hright, Expr.run, bind_apply, hcall]
      show (Js.assign _ _ _ >>= _) js = _
      rw [bind_apply, hassign]
      rfl
    simp only [Value.truthy, Bool.false_eq_true, reduceIte]
    exact Or.inl ⟨_, (), _, _, hrun, rfl, rfl, h.setCache hone⟩
  · rw [hcache]
    exact Or.inl ⟨_, (), _, _, rfl, rfl, rfl, h⟩

/-- A method of a value that is computed first. -/
theorem follows_methodOf {object : Expr} {name : String} {y : Ir Value}
    (hchildren : name ≠ "mapChildren") (htemplate : name ≠ "taggedTemplateLiteralLoose")
    (h : Follows L messages (object.run W scope) y Eq) :
    Follows L messages ((Expr.call (.member object name) []).run W scope)
      (y >>= fun v => callMethod W id v name []) Eq := by
  rw [Expr.run]
  refine h.bind_eq fun v => ?_
  cases hv : v.nullish with
  | true =>
    rw [if_pos rfl, callMethod, hv]
    exact Follows.throw _
  | false =>
    simp only [Bool.false_eq_true, if_false, runAll, Comp.pure_bind,
      callMethod_eq hchildren htemplate]
    exact follows_callMethod _ _ _

/-- Modules are loaded in a handler as outside of it. -/
theorem run_importModule_handler (hW : W.Qualified) (hs : Scoped L scope) {error : String}
    (v : Value) (hloader : error ∉ scope.loaders) {e : Expr} {name : String}
    (hname : importModule L.loaders e = some name) {js : Machine JsMemory}
    {ir : Machine (ℕ → Value)} (h : Related L messages js ir) :
    e.run W (scope.handler error v) js = (.ok (.module name), js) := by
  have hloaders : ∀ l ∈ L.loaders, ∃ i < 3, (scope.handler error v).loaders.idxOf? l = some i :=
    hs.loaders
  refine run_importModule hW hloaders (fun l hl => ?_) hname h
  obtain ⟨i, _, hi⟩ := hs.loaders l hl
  exact lookup_handler hs v (ne_of_mem_of_not_mem (mem_of_idxOf? hi) hloader)

/-- The text of the error. -/
theorem follows_errorText (hW : W.Qualified) (hs : Scoped L scope) {error : String} (e : Value)
    (hloader : error ∉ scope.loaders) {callee : Expr}
    (hsafe : importModule L.loaders callee = some "getErrorSafe") :
    Follows L messages
      ((Expr.call (.member (.call callee [.identifier error]) "toString") []).run W
        (scope.handler error e))
      (do
        let safe ← callOutside W id (.function (.module "getErrorSafe") [e])
        callMethod W id safe "toString" []) Eq := by
  have hcallee : ∀ object property, callee ≠ .member object property := by
    intro object property heq
    rw [heq, importModule] at hsafe
    cases hsafe
  refine follows_methodOf (by decide) (by decide) fun js ir h => ?_
  have hrun := run_importModule_handler hW hs e hloader hsafe h
  have hread : (scope.handler error e).read js.memory error = some e := by
    rw [Scope.read, Scope.handler, List.lookup_cons, beq_self_eq_true]
  have harguments : runAll W (scope.handler error e) [.identifier error] js = (.ok [e], js) := by
    rw [runAll, bind_apply, run_identifier hread]
    rfl
  have hcall : (Expr.call callee [.identifier error]).run W (scope.handler error e) js =
      callOutside W .thrown (.function (.module "getErrorSafe") [e]) js := by
    rw [run_call hcallee, bind_apply, hrun]
    show (runAll _ _ _ >>= _) js = _
    rw [bind_apply, harguments]
    rfl
  rw [hcall]
  exact follows_callOutside _ js ir h

/-- A report with a template and a text. -/
theorem run_report {receiver template text : Expr} {js : Machine JsMemory}
    (hreceiver : receiver.run W scope js = (.ok (.module "WALogger"), js)) :
    runStatements W scope
        [.expressionStatement (.call (.member receiver "ERROR") [template, text])] js =
      (do
        let t ← template.run W scope
        let f ← text.run W scope
        let _ ← callMethod W .thrown (.module "WALogger") "ERROR" [t, f]
        pure none) js := by
  have hcall : (Expr.call (.member receiver "ERROR") [template, text]).run W scope js =
      (do
        let t ← template.run W scope
        let f ← text.run W scope
        callMethod W .thrown (.module "WALogger") "ERROR" [t, f]) js := by
    rw [Expr.run, bind_apply, hreceiver]
    simp only [Value.nullish, Bool.false_eq_true, reduceIte, runAll, Comp.bind_assoc,
      Comp.pure_bind, callMethod_eq (by decide : "ERROR" ≠ "mapChildren") (by decide)]
  rw [runStatements, Stmt.run, Comp.bind_assoc, bind_apply, hcall, ← bind_apply]
  simp only [Comp.bind_assoc, Comp.pure_bind, runStatements]

/-- **The handler reports what the diagnostic reports.** -/
theorem follows_handler (hW : W.Qualified) (hs : Scoped L scope) {error : String}
    {body : List Stmt} {parts : List String} (h : L.diagnostic error body = .ok parts)
    (hloader : error ∉ scope.loaders) (hglobal : error ∉ globalNames) (hmem : parts ∈ messages)
    (hone : ∀ p ∈ messages, p = parts) (e : Value) :
    Follows L messages (runStatements W (scope.handler error e) body) (Ir.diagnose W parts e)
      fun r _ => r = none := by
  obtain ⟨receiver, right, formatted, rfl, hlogger, hfree, hcache, htemplate, hformatted⟩ :=
    diagnostic_eq_ok h
  obtain ⟨callee, rfl, hsafe⟩ := diagnosticError_eq_ok hformatted
  intro js ir hrel
  rw [run_report (run_importModule_handler hW hs e hloader hlogger hrel)]
  have hreport : Follows L messages
      (do
        let t ← (Expr.logical .or (.identifier L.diagnosticCache) right).run W
          (scope.handler error e)
        let f ← (Expr.call (.member (.call callee [.identifier error]) "toString") []).run W
          (scope.handler error e)
        let _ ← callMethod W .thrown (.module "WALogger") "ERROR" [t, f]
        pure none)
      (pure () >>= fun _ => Ir.diagnose W parts e) (fun (r : Option Value) _ => r = none) := by
    refine (follows_template hs hfree e hcache hglobal htemplate hmem hone).bind fun t _ ht => ?_
    subst ht
    have hdiagnose : Ir.diagnose W parts e = (do
        let safe ← callOutside W id (.function (.module "getErrorSafe") [e])
        callMethod W id safe "toString" []) >>= fun text =>
          callMethod W id (.module "WALogger") "ERROR" [.template parts, text] >>= fun _ =>
            pure () := by
      rw [Ir.diagnose, Comp.bind_assoc]
    rw [hdiagnose]
    refine (follows_errorText hW hs e hloader hsafe).bind_eq fun f => ?_
    exact (follows_callMethod _ _ _).bind_eq fun _ => Follows.pure rfl
  exact hreport js ir hrel

/-! ### Statements -/

/-- Two runs whose handlers follow one another. -/
theorem Follows.catchThrown {α β : Type} {x : Js α} {y : Ir β} {R : α → β → Prop}
    {handler : Value → Js α} {handler' : Value → Ir β} (hx : Follows L messages x y R)
    (hhandler : ∀ e, Follows L messages (handler e) (handler' e) R) :
    Follows L messages (Js.catchThrown x handler) (Ir.catchThrown y handler') R := by
  intro js ir h
  rw [Js.catchThrown, Ir.catchThrown]
  obtain ⟨a, b, js', ir', hjs, hir, hR⟩ | ⟨e, d, js', ir', hjs, hir, rfl, hrel⟩ := hx js ir h
  · simp only [hjs, hir]
    exact Or.inl ⟨a, b, js', ir', rfl, rfl, hR⟩
  · simp only [hjs, hir]
    exact hhandler d js' ir' hrel

/-- What the walk relies on: the variables declared are locals, the expressions are clean, and an
error is not caught under the name of a loader or of a global. -/
structure Fits (L : Lower) (scope : Scope) (declared : List String) (parts : List Expr)
    (caught : List String) : Prop where
  declared : ∀ x ∈ declared, x ∈ L.locals
  clean : ∀ p ∈ parts, p.Clean
  caught : ∀ x ∈ caught, x ∉ scope.loaders ∧ x ∉ globalNames

theorem Fits.mono {declared declared' : List String} {parts parts' : List Expr}
    {caught caught' : List String} (h : Fits L scope declared parts caught)
    (hdeclared : declared' ⊆ declared) (hparts : parts' ⊆ parts) (hcaught : caught' ⊆ caught) :
    Fits L scope declared' parts' caught' :=
  ⟨fun x hx => h.declared x (hdeclared hx), fun p hp => h.clean p (hparts hp),
    fun x hx => h.caught x (hcaught hx)⟩

theorem Fits.same {L' : Lower} {declared : List String} {parts : List Expr} {caught : List String}
    (h : Fits L scope declared parts caught) (hsame : L.Same L') :
    Fits L' scope declared parts caught :=
  ⟨fun x hx => hsame.locals ▸ h.declared x hx, h.clean, h.caught⟩

/-- The diagnostics of a program are among the messages, which are all one. -/
structure Heard (messages : List (List String)) (ops : List GroupEnvelopeOp) : Prop where
  mem : ∀ p ∈ diagnosticsOf ops, p ∈ messages
  one : ∀ p ∈ messages, ∀ q ∈ messages, p = q

theorem Heard.mono {ops ops' : List GroupEnvelopeOp} (h : Heard messages ops)
    (hsub : diagnosticsOf ops' ⊆ diagnosticsOf ops) : Heard messages ops' :=
  ⟨fun p hp => h.mem p (hsub hp), h.one⟩

mutual

/-- **What a statement is lowered to does what the statement does.** -/
theorem follows_statement (hW : W.Qualified) : ∀ (s : Stmt) {L L' : Lower} {scope : Scope}
    {ops : List GroupEnvelopeOp}, L.statement s = .ok (ops, L') → Scoped L scope →
    Fits L scope s.bindingNames s.expressions s.caughtNames →
    L.Same L' ∧ (Heard messages ops →
      Follows L messages (s.run W scope) (runOps W ops) fun r _ => r = none)
  | .variableDeclaration isVar declarations, L, L', scope, ops, h, hs, hfits => by
    rw [Lower.statement] at h
    split_ifs at h with hvar
    have hrun : L' = L ∧
        Follows L messages (runDeclarations W scope declarations) (runOps W ops) fun _ _ => True :=
      follows_declarations hW hs declarations h hfits.declared hfits.clean
    obtain ⟨rfl, hdeclarations⟩ := hrun
    refine ⟨Lower.Same.refl _, fun _ => ?_⟩
    rw [Stmt.run, if_pos hvar, ← Comp.bind_pure (runOps W ops)]
    exact hdeclarations.bind fun _ _ _ => Follows.pure rfl
  | .expressionStatement e, L, L', scope, ops, h, hs, hfits => by
    rw [Lower.statement] at h
    obtain ⟨value, hvalue, h⟩ := bind_eq_ok.mp h
    cases h
    refine ⟨Lower.Same.refl _, fun _ => ?_⟩
    have he : FollowsExpr W L scope messages e value := follows_expr hW hs e hvalue hfits.clean
    rw [runOps_singleton, GroupEnvelopeOp.run, Stmt.run]
    exact Follows.bind_eq he fun _ => Follows.pure rfl
  | .blockStatement body, L, L', scope, ops, h, hs, hfits => by
    rw [Lower.statement] at h
    rw [Stmt.run]
    exact follows_statements hW body h hs hfits
  | .ifStatement test consequent none, L, L', scope, ops, h, hs, hfits => by
    rw [Lower.statement] at h
    obtain ⟨condition, hcondition, h⟩ := bind_eq_ok.mp h
    obtain ⟨⟨thenOps, L₁⟩, hthen, h⟩ := bind_eq_ok.mp h
    cases h
    have ih := follows_statement hW consequent hthen hs
      (hfits.mono (List.Subset.refl _) (List.subset_append_right _ _) (List.Subset.refl _))
    refine ⟨ih.1, fun hheard => ?_⟩
    have htest : FollowsExpr W L scope messages test condition :=
      follows_expr hW hs test hcondition fun p hp => hfits.clean p (List.mem_append_left _ hp)
    rw [runOps_singleton, GroupEnvelopeOp.run, Stmt.run]
    refine Follows.bind_eq htest fun v => ?_
    cases v.truthy with
    | true => exact ih.2 (hheard.mono fun p hp => by simpa using hp)
    | false => exact Follows.pure rfl
  | .ifStatement test consequent (some alternate), L, L', scope, ops, h, hs, hfits => by
    rw [Lower.statement] at h
    obtain ⟨condition, hcondition, h⟩ := bind_eq_ok.mp h
    obtain ⟨⟨thenOps, L₁⟩, hthen, h⟩ := bind_eq_ok.mp h
    obtain ⟨⟨elseOps, L₂⟩, helse, h⟩ := bind_eq_ok.mp h
    cases h
    have ih := follows_statement hW consequent hthen hs
      (hfits.mono (List.subset_append_left _ _)
        (fun p hp => List.mem_append_right _ (List.mem_append_left _ hp))
        (List.subset_append_left _ _))
    have ih' := follows_statement hW alternate helse (ih.1.scoped hs)
      ((hfits.mono (List.subset_append_right _ _)
        (fun p hp => List.mem_append_right _ (List.mem_append_right _ hp))
        (List.subset_append_right _ _)).same ih.1)
    refine ⟨ih.1.trans ih'.1, fun hheard => ?_⟩
    have htest : FollowsExpr W L scope messages test condition :=
      follows_expr hW hs test hcondition fun p hp => hfits.clean p (List.mem_append_left _ hp)
    rw [runOps_singleton, GroupEnvelopeOp.run, Stmt.run]
    refine Follows.bind_eq htest fun v => ?_
    cases v.truthy with
    | true => exact ih.2 (hheard.mono fun p hp => by simpa using Or.inl hp)
    | false => exact ih.1.follows (ih'.2 (hheard.mono fun p hp => by simpa using Or.inr hp))
  | .tryStatement block handler hasFinalizer, L, L', scope, ops, h, hs, hfits => by
    rw [Lower.statement] at h
    split_ifs at h with hseen hfinally
    obtain ⟨⟨body, L₁⟩, hbody, h⟩ := bind_eq_ok.mp h
    match handler, h with
    | none, h => cases h
    | some (none, _), h => cases h
    | some (some error, handlerBody), h =>
      obtain ⟨parts, hparts, h⟩ := bind_eq_ok.mp h
      cases h
      have hstart : L.Same { L with diagnosticSeen := true } := ⟨rfl, rfl, rfl, rfl⟩
      have ih := follows_statements hW block hbody (hstart.scoped hs)
        ((hfits.mono (List.subset_append_left _ _) (List.subset_append_left _ _)
          (fun x hx => List.mem_append_right _ (List.mem_append_left _ hx))).same hstart)
      have hsame : L.Same L' := hstart.trans ih.1
      obtain ⟨hloader, hglobal⟩ := hfits.caught error (List.mem_append_left _ (by simp))
      refine ⟨hsame, fun hheard => ?_⟩
      have hmem : parts ∈ messages := hheard.mem parts (by simp)
      have hblock := hstart.follows (ih.2 (hheard.mono fun p hp => by simpa using Or.inr hp))
      obtain rfl : hasFinalizer = false := (Bool.not_eq_true _).mp hfinally
      rw [runOps_singleton, GroupEnvelopeOp.run, Stmt.run]
      refine hblock.catchThrown fun e => ?_
      exact hsame.follows (follows_handler hW (hsame.scoped hs) hparts hloader hglobal hmem
        (fun p hp => hheard.one p hp parts hmem) e)
  | .functionDeclaration _, L, L', scope, ops, h, _, _ => by cases h
  | .returnStatement _, L, L', scope, ops, h, _, _ => by cases h
  | .other, L, L', scope, ops, h, _, _ => by cases h

theorem follows_statements (hW : W.Qualified) : ∀ (ss : List Stmt) {L L' : Lower} {scope : Scope}
    {ops : List GroupEnvelopeOp}, L.statements ss = .ok (ops, L') → Scoped L scope →
    Fits L scope (bindingNames ss) (expressions ss) (caughtNames ss) →
    L.Same L' ∧ (Heard messages ops →
      Follows L messages (runStatements W scope ss) (runOps W ops) fun r _ => r = none)
  | [], L, L', scope, ops, h, hs, hfits => by
    cases h
    exact ⟨Lower.Same.refl _, fun _ => Follows.pure rfl⟩
  | s :: ss, L, L', scope, ops, h, hs, hfits => by
    rw [Lower.statements] at h
    obtain ⟨⟨first, L₁⟩, hfirst, h⟩ := bind_eq_ok.mp h
    obtain ⟨⟨rest, L₂⟩, hrest, h⟩ := bind_eq_ok.mp h
    cases h
    have ih := follows_statement hW s hfirst hs
      (hfits.mono (List.subset_append_left _ _) (List.subset_append_left _ _)
        (List.subset_append_left _ _))
    have ih' := follows_statements hW ss hrest (ih.1.scoped hs)
      ((hfits.mono (List.subset_append_right _ _) (List.subset_append_right _ _)
        (List.subset_append_right _ _)).same ih.1)
    refine ⟨ih.1.trans ih'.1, fun hheard => ?_⟩
    rw [runStatements, runOps_append]
    refine (ih.2 (hheard.mono fun p hp => ?_)).bind fun r _ hr => ?_
    · rw [diagnosticsOf_append]
      exact List.mem_append_left _ hp
    · subst hr
      refine ih.1.follows (ih'.2 (hheard.mono fun p hp => ?_))
      rw [diagnosticsOf_append]
      exact List.mem_append_right _ hp

end

end Statements

end Whatspec.Notif.Envelope

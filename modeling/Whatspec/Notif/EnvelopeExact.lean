import Whatspec.Notif.EnvelopeStatements

/-!
# The lowered envelope is the callback

* `Hoisted` is what the numbering of the declared names does, `follows_prefix` the statements before
  the actions, and `follows_actions` the statement that hands over to them;
* `Qualification.Sound` and `ImportsQualified` are what is known of the module around the callback;
* **`lowerCallback_exact`**: the lowered program and the callback make the same calls, and end with
  the same object or the same error.
-/

namespace Whatspec.Notif.Envelope

open Whatspec.Library
open Whatspec.Library.Comp

/-! ### Numbering -/

/-- The declared names have become locals, and nothing else has changed. -/
structure Hoisted (L L' : Lower) (names : List String) : Prop where
  node : L'.node = L.node
  loaders : L'.loaders = L.loaders
  diagnosticSeen : L'.diagnosticSeen = L.diagnosticSeen
  diagnosticCache : L'.diagnosticCache = L.diagnosticCache
  fresh : ∀ x ∈ names, x ≠ L.node
  locals : ∀ x, x ∈ L'.locals ↔ x ∈ L.locals ∨ x ∈ names

theorem Hoisted.refl (L : Lower) : Hoisted L L [] :=
  ⟨rfl, rfl, rfl, rfl, fun _ hx => (nomatch hx), fun x => by simp⟩

theorem Hoisted.append {L L₁ L₂ : Lower} {names names' : List String} (h : Hoisted L L₁ names)
    (h' : Hoisted L₁ L₂ names') : Hoisted L L₂ (names ++ names') where
  node := h'.node.trans h.node
  loaders := h'.loaders.trans h.loaders
  diagnosticSeen := h'.diagnosticSeen.trans h.diagnosticSeen
  diagnosticCache := h'.diagnosticCache.trans h.diagnosticCache
  fresh := by
    intro x hx
    obtain hx | hx := List.mem_append.mp hx
    · exact h.fresh x hx
    · exact h.node ▸ h'.fresh x hx
  locals := by
    intro x
    rw [h'.locals, h.locals, List.mem_append, or_assoc]

theorem hoisted_bind {L : Lower} {name : String} (h : name ≠ L.node) :
    Hoisted L (L.bind name).2 [name] := by
  rw [Lower.bind]
  cases hi : L.locals.idxOf? name with
  | none =>
    refine ⟨rfl, rfl, rfl, rfl, fun x hx => ?_, fun x => ?_⟩
    · rw [List.mem_singleton.mp hx]
      exact h
    · exact List.mem_append
  | some i =>
    refine ⟨rfl, rfl, rfl, rfl, fun x hx => ?_, fun x => ?_⟩
    · rw [List.mem_singleton.mp hx]
      exact h
    · rw [List.mem_singleton]
      refine ⟨Or.inl, fun hx => hx.elim id fun heq => ?_⟩
      rw [heq]
      exact mem_of_idxOf? hi

theorem hoisted_declarations : ∀ (declarations : List (Option String × Option Expr))
    {L L' : Lower}, hoistDeclarations L declarations = .ok L' →
      Hoisted L L' (declarations.filterMap Prod.fst)
  | [], L, L', h => by
    cases h
    exact Hoisted.refl _
  | (none, _) :: _, L, L', h => by cases h
  | (some name, _) :: declarations, L, L', h => by
    rw [hoistDeclarations] at h
    split_ifs at h with hnode
    exact (hoisted_bind hnode).append (hoisted_declarations declarations h)

mutual

theorem hoisted_hoist : ∀ (s : Stmt) {L L' : Lower}, hoist L s = .ok L' →
    Hoisted L L' s.bindingNames
  | .variableDeclaration _ declarations, L, L', h => hoisted_declarations declarations h
  | .blockStatement body, L, L', h => hoisted_hoistAll body h
  | .ifStatement _ consequent none, L, L', h => hoisted_hoist consequent h
  | .ifStatement _ consequent (some alternate), L, L', h => by
    rw [hoist] at h
    obtain ⟨L₁, hfirst, h⟩ := bind_eq_ok.mp h
    exact (hoisted_hoist consequent hfirst).append (hoisted_hoist alternate h)
  | .tryStatement block none _, L, L', h => hoisted_hoistAll block h
  | .tryStatement block (some (_, handlerBody)) _, L, L', h => by
    rw [hoist] at h
    obtain ⟨L₁, hfirst, h⟩ := bind_eq_ok.mp h
    exact (hoisted_hoistAll block hfirst).append (hoisted_hoistAll handlerBody h)
  | .expressionStatement _, L, L', h => by
    cases h
    exact Hoisted.refl _
  | .functionDeclaration _, L, L', h => by
    cases h
    exact Hoisted.refl _
  | .returnStatement _, L, L', h => by
    cases h
    exact Hoisted.refl _
  | .other, L, L', h => by
    cases h
    exact Hoisted.refl _

theorem hoisted_hoistAll : ∀ (ss : List Stmt) {L L' : Lower}, hoistAll L ss = .ok L' →
    Hoisted L L' (bindingNames ss)
  | [], L, L', h => by
    cases h
    exact Hoisted.refl _
  | s :: ss, L, L', h => by
    rw [hoistAll] at h
    obtain ⟨L₁, hfirst, h⟩ := bind_eq_ok.mp h
    exact (hoisted_hoist s hfirst).append (hoisted_hoistAll ss h)

end

/-! ### Bodies -/

theorem bindingNames_append : ∀ ss rest : List Stmt,
    bindingNames (ss ++ rest) = bindingNames ss ++ bindingNames rest
  | [], rest => rfl
  | s :: ss, rest => by
    rw [List.cons_append, bindingNames, bindingNames, bindingNames_append ss rest,
      List.append_assoc]

theorem expressions_append : ∀ ss rest : List Stmt,
    expressions (ss ++ rest) = expressions ss ++ expressions rest
  | [], rest => rfl
  | s :: ss, rest => by
    rw [List.cons_append, expressions, expressions, expressions_append ss rest,
      List.append_assoc]

theorem caughtNames_append : ∀ ss rest : List Stmt,
    caughtNames (ss ++ rest) = caughtNames ss ++ caughtNames rest
  | [], rest => rfl
  | s :: ss, rest => by
    rw [List.cons_append, caughtNames, caughtNames, caughtNames_append ss rest,
      List.append_assoc]

theorem helpers_cons {s : Stmt} (h : ∀ name, s ≠ .functionDeclaration name) (ss : List Stmt) :
    helpers (s :: ss) = helpers ss := by
  cases s with
  | functionDeclaration name => exact absurd rfl (h name)
  | _ => rfl

theorem helpers_append : ∀ ss rest : List Stmt, helpers (ss ++ rest) = helpers ss ++ helpers rest
  | [], rest => rfl
  | s :: ss, rest => by
    have ih := helpers_append ss rest
    cases s with
    | functionDeclaration name =>
      cases name with
      | none => exact ih
      | some name => exact congrArg (name :: ·) ih
    | _ => exact ih

theorem runStatements_append (W : World) (scope : Scope) : ∀ ss rest : List Stmt,
    runStatements W scope (ss ++ rest) = runStatements W scope ss >>= fun returned =>
      match returned with
      | some v => pure (some v)
      | none => runStatements W scope rest
  | [], rest => by
    rw [List.nil_append, runStatements, Comp.pure_bind]
  | s :: ss, rest => by
    rw [List.cons_append, runStatements, runStatements, Comp.bind_assoc]
    refine congrArg (s.run W scope >>= ·) (funext fun returned => ?_)
    cases returned with
    | some v => rfl
    | none => exact runStatements_append W scope ss rest

theorem splitLast_eq_some {α : Type} {xs : List α} {x : α} {before : List α}
    (h : splitLast xs = some (x, before)) : xs = before ++ [x] := by
  obtain ⟨y, hy, heq⟩ := Option.map_eq_some_iff.mp h
  cases heq
  exact (List.dropLast_append_getLast? _ hy).symm

/-- The body of a callback that is taken apart. -/
theorem splitBody_eq_ok {body before : List Stmt} {marker result : Option String}
    {actions projection : Option Expr}
    (h : splitBody body = .ok (before, marker, result, actions, projection)) :
    body = (before ++ [.variableDeclaration true [(marker, none), (result, actions)]]) ++
      [.returnStatement projection] := by
  rw [splitBody] at h
  split at h
  · cases h
  · rename_i returned rest hlast
    split at h
    · cases h
    · rename_i isVar declarations start hbefore
      split at h
      · split_ifs at h with hvar
        cases h
        rw [splitLast_eq_some hlast, splitLast_eq_some hbefore, hvar]
      · cases h
    · cases h
  · cases h

/-! ### The statements before the actions -/

section Prefix

variable {W : World} {scope : Scope} {messages : List (List String)}

theorem prefixOps_cons {L : Lower} (q : Qualification) {s : Stmt}
    (h : ∀ name, s ≠ .functionDeclaration name) (ss : List Stmt) :
    L.prefixOps q (s :: ss) = (do
      let (ops, L₁) ← L.statement s
      let (rest, L₂) ← L₁.prefixOps q ss
      .ok (ops ++ rest, L₂)) := by
  cases s with
  | functionDeclaration name => exact absurd rfl (h name)
  | _ => rfl

/-- The helpers are not among what the compiler knows. -/
def Lower.Free (L : Lower) (names : List String) : Prop :=
  ∀ x ∈ names, x ≠ L.node ∧ x ∉ L.locals ∧ x ∉ L.loaders

theorem Lower.Same.free {L L' : Lower} {names : List String} (h : L.Same L')
    (hfree : L'.Free names) : L.Free names := by
  intro x hx
  obtain ⟨hnode, hlocals, hloaders⟩ := hfree x hx
  exact ⟨h.node ▸ hnode, h.locals ▸ hlocals, h.loaders ▸ hloaders⟩

/-- **The statements before the actions.**  The helpers among them have taken effect on entry. -/
theorem follows_prefix (hW : W.Qualified) (q : Qualification) : ∀ (ss : List Stmt) {L L' : Lower}
    {ops : List GroupEnvelopeOp}, L.prefixOps q ss = .ok (ops, L') → Scoped L scope →
    Fits L scope (bindingNames ss) (expressions ss) (caughtNames ss) →
    (L.Same L' ∧ L.Diagnosed L' ops ∧ L.Free (helpers ss)) ∧ (Heard messages ops →
      Follows L messages (runStatements W scope ss) (runOps W ops) fun r _ => r = none)
  | [], L, L', ops, h, _, _ => by
    cases h
    exact ⟨⟨Lower.Same.refl _, Lower.Diagnosed.none _ rfl, fun _ hx => (nomatch hx)⟩,
      fun _ => Follows.pure rfl⟩
  | s :: ss, L, L', ops, h, hs, hfits => by
    by_cases hfunction : ∃ name, s = .functionDeclaration name
    · obtain ⟨name, rfl⟩ := hfunction
      cases name with
      | none => cases h
      | some name =>
        rw [Lower.prefixOps] at h
        split_ifs at h with hname
        obtain ⟨_, _, h⟩ := bind_eq_ok.mp h
        rw [not_or, not_or] at hname
        obtain ⟨⟨hsame, hdiagnosed, hfree⟩, hfollows⟩ := follows_prefix hW q ss h hs hfits
        exact ⟨⟨hsame, hdiagnosed, List.forall_mem_cons.mpr ⟨hname, hfree⟩⟩, hfollows⟩
    · have hnot : ∀ name, s ≠ .functionDeclaration name := fun name hname =>
        hfunction ⟨name, hname⟩
      rw [prefixOps_cons q hnot] at h
      obtain ⟨⟨first, L₁⟩, hfirst, h⟩ := bind_eq_ok.mp h
      obtain ⟨⟨rest, L₂⟩, hrest, h⟩ := bind_eq_ok.mp h
      cases h
      have ih : L.Same L₁ ∧ (Heard messages first →
          Follows L messages (s.run W scope) (runOps W first) fun r _ => r = none) :=
        follows_statement hW s hfirst hs (hfits.mono (List.subset_append_left _ _)
          (List.subset_append_left _ _) (List.subset_append_left _ _))
      have ih' := follows_prefix hW q ss hrest (ih.1.scoped hs)
        ((hfits.mono (List.subset_append_right _ _) (List.subset_append_right _ _)
          (List.subset_append_right _ _)).same ih.1)
      obtain ⟨⟨hsame, hdiagnosed, hfree⟩, hfollows⟩ := ih'
      refine ⟨⟨ih.1.trans hsame, (statement_diagnosed s hfirst).trans hdiagnosed
        (diagnosticsOf_append _ _), ?_⟩, fun hheard => ?_⟩
      · rw [helpers_cons hnot]
        exact ih.1.free hfree
      · rw [runStatements, runOps_append]
        refine (ih.2 (hheard.mono fun p hp => ?_)).bind fun r _ hr => ?_
        · rw [diagnosticsOf_append]
          exact List.mem_append_left _ hp
        · subst hr
          refine ih.1.follows (hfollows (hheard.mono fun p hp => ?_))
          rw [diagnosticsOf_append]
          exact List.mem_append_right _ hp

end Prefix

/-! ### The actions -/

section Actions

variable {W : World} {L : Lower} {scope : Scope} {messages : List (List String)}

/-- The expression that hands over to the parsers of the actions. -/
theorem actionsRegion_eq_ok {node : String} {e : Expr} {r : Region}
    (h : actionsRegion node e = .ok r) :
    e = .call (.member (.call (.member (.identifier node) "mapChildren") [.function r]) "filter")
      [.identifier "Boolean"] := by
  unfold actionsRegion at h
  split at h
  · split at h
    · split at h
      · split_ifs at h with hreceiver
        cases h
        rw [isIdentifier_eq hreceiver]
      · split_ifs at h
        split at h <;> cases h
      all_goals cases h
    · cases h
  all_goals cases h

theorem follows_callActions (start : ℕ) (captured : List (Option Value)) :
    Follows L messages (callActions W start captured) (callActions W start captured) Eq := by
  intro js ir h
  refine Or.inl ⟨_, _, _, _, rfl, rfl, ?_, ?_⟩
  · rw [h.calls]
  · have hnext := h.setCalls (ir.calls ++ [.actions start captured])
    rw [← h.calls] at hnext ⊢
    exact hnext

/-- A variable and its local hold the same for the parsers of the actions. -/
theorem Related.captured {js : Machine JsMemory} {ir : Machine (ℕ → Value)}
    (h : Related L messages js ir) (hs : Scoped L scope) (r : Region) :
    (r.captures.map fun x => if x ∈ scope.own then js.memory.frame x else none) =
      r.captures.map fun x => (L.locals.idxOf? x).map ir.memory := by
  refine List.map_congr_left fun x hx => ?_
  cases hi : L.locals.idxOf? x with
  | none =>
    have hown : x ∉ scope.own := fun hmem =>
      List.idxOf?_eq_none_iff.mp hi ((hs.own x).mp hmem)
    rw [if_neg hown]
    rfl
  | some i =>
    have harguments : x ≠ "arguments" := fun heq => r.ownArguments (heq ▸ hx)
    rw [if_pos ((hs.own x).mpr (mem_of_idxOf? hi)), h.locals x i hi harguments]
    rfl

/-- The parsers of the actions, up to what they give. -/
theorem follows_mapChildren (hs : Scoped L scope) {r : Region} {i : ℕ}
    (hi : L.locals.idxOf? r.marker = some i) :
    Follows L messages (Js.actions W scope r) (Ir.mapChildren W r L.locals.idxOf? i) Eq := by
  intro js ir h
  rw [Js.actions, Ir.mapChildren, bind_apply, get_apply, bind_apply, get_apply]
  dsimp only
  rw [h.captured hs r]
  refine ((follows_callActions _ _).bind_eq fun answer => ?_) js ir h
  have houtcome : Follows L messages (Comp.ofExcept (answer.outcome.mapError .thrown))
      (Comp.ofExcept answer.outcome) Eq := by
    cases answer.outcome with
    | ok v => exact Follows.pure rfl
    | error e => exact Follows.throw e
  cases answer.marker with
  | none => exact houtcome
  | some v => exact (follows_assign hs hi v).bind fun _ _ _ => houtcome

theorem run_boolean (hs : Scoped L scope) {js : Machine JsMemory} {ir : Machine (ℕ → Value)}
    (h : Related L messages js ir) :
    (Expr.identifier "Boolean").run W scope js = (.ok (.global "Boolean"), js) := by
  obtain ⟨hloaders, hcache⟩ := hs.globals "Boolean" (by decide)
  refine run_identifier ?_
  rw [Scope.read, hs.caught, List.lookup_nil]
  simp only [Scope.readOuter, h.hidden "Boolean" (Or.inr (Or.inl (by decide))),
    List.idxOf?_eq_none_iff.mpr hloaders]
  rw [if_neg hcache, if_pos (by decide)]

/-- **The statement that hands over to the parsers of the actions.** -/
theorem follows_actions (hs : Scoped L scope) (r : Region) {result : String} {i j : ℕ}
    (hi : L.locals.idxOf? r.marker = some i) (hj : L.locals.idxOf? result = some j)
    (tag errorPrefix : String) :
    Follows L messages
      ((Stmt.variableDeclaration true [(some r.marker, none), (some result, some
        (.call (.member (.call (.member (.identifier L.node) "mapChildren") [.function r])
          "filter") [.identifier "Boolean"]))]).run W scope)
      ((GroupEnvelopeActions.mk j i tag errorPrefix).run W r L.locals.idxOf?)
      fun returned _ => returned = none := by
  have hmapped : Follows L messages
      ((Expr.call (.member (.identifier L.node) "mapChildren") [.function r]).run W scope)
      (Ir.mapChildren W r L.locals.idxOf? i) Eq := by
    intro js ir h
    rw [Expr.run, bind_apply, run_node hs h]
    exact follows_mapChildren hs hi js ir h
  have hfiltered : ∀ v : Value, Follows L messages
      (if v.nullish then Comp.throw (.thrown W.typeError)
        else do
          let vs ← runAll W scope [.identifier "Boolean"]
          Js.callMethod W scope v "filter" vs)
      (callMethod W id v "filter" [.global "Boolean"]) Eq := by
    intro v
    cases hv : v.nullish with
    | true =>
      rw [if_pos rfl, callMethod, hv]
      exact Follows.throw _
    | false =>
      rw [if_neg Bool.false_ne_true]
      refine Follows.of_value (a := [.global "Boolean"]) (fun js ir h => ?_) ?_
      · rw [runAll, bind_apply, run_boolean hs h]
        rfl
      · rw [callMethod_eq (by decide) (by decide)]
        exact follows_callMethod _ _ _
  rw [Stmt.run, if_pos rfl, runDeclarations, runDeclarations, Expr.run, GroupEnvelopeActions.run]
  simp only [Comp.bind_assoc]
  refine hmapped.bind_eq fun v => (hfiltered v).bind_eq fun w => ?_
  rw [← Comp.bind_pure (Ir.setLocal j w)]
  exact (follows_assign hs hj w).bind fun _ _ _ => Follows.pure rfl

end Actions

/-! ### The callback -/

/-- What the fingerprints of the module around the callback's body fix: the three loaders, and the
template cache, which no name that is fixed with it hides. -/
structure Qualification.Sound (q : Qualification) (loaders : List String) (f : Function) :
    Prop where
  loaderNames : q.moduleFrame f = .ok () → loaders.length = 3 ∧ ∀ x ∈ globalNames, x ∉ loaders
  cacheName : q.moduleFrame f = .ok () → ∀ cache, q.diagnosticCache = .ok cache →
    cache ∉ loaders ∧ cache ∉ globalNames ∧ f.parameter ≠ some cache
  helperNames : ∀ before references, q.helpers before = .ok references →
    ∀ cache, q.diagnosticCache = .ok cache → cache ∉ Envelope.helpers before

/-- What the caller has checked of the whole module, `validate_import_bindings`, as far as it is
about the callback. -/
structure ImportsQualified (loaders : List String) (f : Function) : Prop where
  arguments : ∀ e ∈ expressions f.body, e.mentions "arguments" = false
  globals : ∀ x ∈ f.parameter.toList ++ (helpers f.body ++ (bindingNames f.body ++
    caughtNames f.body)), x ∉ globalNames
  lexical : ∀ x ∈ caughtNames f.body, x ∉ loaders

/-- What a callback is taken apart into. -/
structure Parts where
  node : String
  cache : String
  before : List Stmt
  marker : String
  result : String
  actions : Expr
  projection : Expr
  references : List String
  hoisted : Lower
  ops : List GroupEnvelopeOp
  after : Lower

namespace Parts

/-- The statement that hands over to the parsers of the actions. -/
def actionStatement (P : Parts) : Stmt :=
  .variableDeclaration true [(some P.marker, none), (some P.result, some P.actions)]

/-- What the compiler knows before the first statement. -/
def start (P : Parts) (loaders : List String) : Lower :=
  { P.hoisted with loaders := loaders.filter fun l => l ≠ P.node ∧ l ∉ P.hoisted.locals }

/-- The parts of a callback that is lowered. -/
structure Of (P : Parts) (q : Qualification) (loaders : List String) (f : Function)
    (lowered : GroupEnvelopeContract × Region × List String) : Prop where
  moduleFrame : q.moduleFrame f = .ok ()
  parameter : f.parameter = some P.node
  plain : f.isPlain 1 = true
  diagnosticCache : q.diagnosticCache = .ok P.cache
  body : f.body = (P.before ++ [P.actionStatement]) ++ [.returnStatement (some P.projection)]
  helpers : q.helpers P.before = .ok P.references
  hoisted : hoistAll ⟨P.node, loaders, [], false, P.cache⟩ (P.before ++ [P.actionStatement]) =
    .ok P.hoisted
  prefixOps : (P.start loaders).prefixOps q P.before = .ok (P.ops, P.after)
  finish : P.after.finish q P.ops P.references P.marker P.result P.actions (some P.projection) =
    .ok lowered

end Parts

section Callback

variable {W : World} {q : Qualification} {loaders : List String} {f : Function}

theorem finish_projection {L : Lower} {ops : List GroupEnvelopeOp} {references : List String}
    {marker result : String} {actions : Expr} {projection : Option Expr}
    {lowered : GroupEnvelopeContract × Region × List String}
    (h : L.finish q ops references marker result actions projection = .ok lowered) :
    ∃ e, projection = some e := by
  rw [Lower.finish] at h
  obtain ⟨region, _, h⟩ := bind_eq_ok.mp h
  split_ifs at h
  obtain ⟨⟨tag, errorPrefix, refs⟩, _, h⟩ := bind_eq_ok.mp h
  obtain ⟨_, _, h⟩ := bind_eq_ok.mp h
  cases projection with
  | none => cases h
  | some e => exact ⟨e, rfl⟩

theorem exists_parts {lowered : GroupEnvelopeContract × Region × List String}
    (h : lowerCallback q loaders f = .ok lowered) : ∃ P : Parts, P.Of q loaders f lowered := by
  rw [lowerCallback] at h
  obtain ⟨⟨⟩, hframe, h⟩ := bind_eq_ok.mp h
  obtain ⟨_, _, h⟩ := bind_eq_ok.mp h
  cases hnode : f.parameter with
  | none =>
    rw [hnode] at h
    cases h
  | some node =>
    simp only [hnode] at h
    split_ifs at h with hplain
    obtain ⟨cache, hcache, h⟩ := bind_eq_ok.mp h
    obtain ⟨⟨before, marker, result, actions, projection⟩, hsplit, h⟩ := bind_eq_ok.mp h
    obtain ⟨references, hreferences, h⟩ := bind_eq_ok.mp h
    obtain ⟨hoisted, hhoisted, h⟩ := bind_eq_ok.mp h
    obtain ⟨⟨ops, L⟩, hops, h⟩ := bind_eq_ok.mp h
    match marker, result, actions, h with
    | none, _, _, h => cases h
    | some _, none, _, h => cases h
    | some _, some _, none, h => cases h
    | some marker, some result, some actions, h =>
      obtain ⟨e, rfl⟩ := finish_projection h
      have hbody := splitBody_eq_ok hsplit
      rw [hbody, List.dropLast_concat] at hhoisted
      exact ⟨⟨node, cache, before, marker, result, actions, e, references, hoisted, ops, L⟩,
        hframe, hnode, hplain, hcache, hbody, hreferences, hhoisted, hops, h⟩

/-- What the last steps of the lowering make. -/
theorem finish_eq_ok {L : Lower} {ops : List GroupEnvelopeOp} {references : List String}
    {marker result : String} {actions projection : Expr} {contract : GroupEnvelopeContract}
    {region : Region} {locals : List String}
    (h : L.finish q ops references marker result actions (some projection) =
      .ok (contract, region, locals)) (hmarker : marker ∈ L.locals) (hresult : result ∈ L.locals) :
    ∃ i j tag errorPrefix program, L.locals.idxOf? region.marker = some i ∧
      L.locals.idxOf? result = some j ∧ region.marker = marker ∧
      actionsRegion L.node actions = .ok region ∧ L.expr projection = .ok program ∧
      contract = ⟨L.locals.length, ops, ⟨j, i, tag, errorPrefix⟩, program⟩ ∧
      locals = L.locals := by
  obtain ⟨i, hi, hbindMarker⟩ := bind_of_mem hmarker
  obtain ⟨j, hj, hbindResult⟩ := bind_of_mem hresult
  rw [Lower.finish, hbindMarker] at h
  dsimp only at h
  rw [hbindResult] at h
  obtain ⟨r, hr, h⟩ := bind_eq_ok.mp h
  split_ifs at h with hne
  obtain ⟨⟨tag, errorPrefix, refs⟩, _, h⟩ := bind_eq_ok.mp h
  obtain ⟨_, _, h⟩ := bind_eq_ok.mp h
  obtain ⟨program, hprogram, h⟩ := bind_eq_ok.mp h
  rw [not_not] at hne
  split at h
  · cases h
    exact ⟨i, j, tag, errorPrefix, _, hne ▸ hi, hj, hne, hr, hprogram, rfl, rfl⟩
  · cases h

theorem start_eq {node : String} (hplain : f.isPlain 1 = true) (hnode : f.parameter = some node)
    (cacheName : String) :
    f.start W loaders cacheName =
      runStatements W ⟨loaders, cacheName, bindingNames f.body, []⟩ f.body >>= fun returned =>
        pure (returned.getD .undefined) := by
  have hlength : f.parameters.length = 1 := by
    rw [Function.isPlain] at hplain
    simp only [Bool.and_eq_true, decide_eq_true_eq] at hplain
    exact hplain.1.1.2
  obtain ⟨parameter, hparameters⟩ := List.length_eq_one_iff.mp hlength
  rw [Function.parameter, hparameters] at hnode
  obtain ⟨name, hasInitializer⟩ := parameter
  obtain rfl : name = some node := hnode
  rw [Function.start, hparameters]
  exact if_pos hplain

variable {P : Parts} {lowered : GroupEnvelopeContract × Region × List String}

/-- Where the callback's body stands. -/
def Parts.scope (P : Parts) (loaders : List String) (f : Function) : Scope :=
  ⟨loaders, P.cache, bindingNames f.body, []⟩

theorem bindingNames_body (hP : P.Of q loaders f lowered) :
    bindingNames f.body = bindingNames (P.before ++ [P.actionStatement]) := by
  rw [hP.body, bindingNames_append]
  exact List.append_nil _

theorem hoisted_start (hP : P.Of q loaders f lowered) :
    Hoisted ⟨P.node, loaders, [], false, P.cache⟩ P.hoisted (bindingNames f.body) := by
  rw [bindingNames_body hP]
  exact hoisted_hoistAll _ hP.hoisted

theorem mem_locals_iff (hP : P.Of q loaders f lowered) (x : String) :
    x ∈ (P.start loaders).locals ↔ x ∈ bindingNames f.body :=
  ((hoisted_start hP).locals x).trans ⟨fun h => h.elim (fun h => nomatch h) id, Or.inr⟩

theorem start_node (hP : P.Of q loaders f lowered) : (P.start loaders).node = P.node :=
  (hoisted_start hP).node

theorem start_diagnosticCache (hP : P.Of q loaders f lowered) :
    (P.start loaders).diagnosticCache = P.cache := (hoisted_start hP).diagnosticCache

theorem node_notMem (hP : P.Of q loaders f lowered) : P.node ∉ bindingNames f.body :=
  fun hmem => (hoisted_start hP).fresh P.node hmem rfl

theorem scoped_start (hP : P.Of q loaders f lowered) (hq : q.Sound loaders f) :
    Scoped (P.start loaders) (P.scope loaders f) where
  node := by
    rw [start_node hP, mem_locals_iff hP]
    exact node_notMem hP
  loaders := by
    intro l hl
    have hmem : l ∈ loaders := (List.mem_filter.mp hl).1
    cases hi : loaders.idxOf? l with
    | none => exact absurd hmem (List.idxOf?_eq_none_iff.mp hi)
    | some i =>
      have hlt : i < loaders.length := (List.idxOf?_eq_some_iff.mp hi).1
      rw [(hq.loaderNames hP.moduleFrame).1] at hlt
      exact ⟨i, hlt, hi⟩
  own := fun x => (mem_locals_iff hP x).symm
  cache := (start_diagnosticCache hP).symm
  cacheFree := by
    rw [start_diagnosticCache hP]
    exact (hq.cacheName hP.moduleFrame P.cache hP.diagnosticCache).1
  caught := rfl
  globals := by
    intro x hx
    refine ⟨(hq.loaderNames hP.moduleFrame).2 x hx, fun heq => ?_⟩
    have hcache : (P.scope loaders f).cache ∈ globalNames := heq ▸ hx
    exact (hq.cacheName hP.moduleFrame P.cache hP.diagnosticCache).2.1 hcache

theorem helpers_body (hP : P.Of q loaders f lowered) : helpers f.body = helpers P.before := by
  rw [hP.body, helpers_append, helpers_append]
  exact (List.append_nil _).trans (List.append_nil _)

/-- **The states on entry are related.** -/
theorem related_start (hP : P.Of q loaders f lowered) (hq : q.Sound loaders f)
    (himports : ImportsQualified loaders f) (hfree : (P.start loaders).Free (helpers P.before))
    {messages : List (List String)} {cache : Value}
    (hready : ∀ p ∈ messages, CacheReady p cache) :
    Related (P.start loaders) messages
      ⟨⟨enterFrame W P.node f.body, cache⟩, 0, []⟩ ⟨fun _ => .undefined, 0, []⟩ := by
  have hnotHelper : ∀ x ∈ bindingNames f.body, x ∉ helpers f.body ∧ x ≠ P.node := by
    intro x hx
    refine ⟨fun hmem => ?_, fun heq => node_notMem hP (heq ▸ hx)⟩
    rw [helpers_body hP] at hmem
    exact (hfree x hmem).2.1 ((mem_locals_iff hP x).mpr hx)
  have hnodeHelper : P.node ∉ helpers f.body := by
    intro hmem
    rw [helpers_body hP] at hmem
    exact (hfree P.node hmem).1 (start_node hP).symm
  have hframe : ∀ x ∈ bindingNames f.body, enterFrame W P.node f.body x =
      some (if x = "arguments" then W.argumentsObject else .undefined) := by
    intro x hx
    obtain ⟨hhelper, hnode⟩ := hnotHelper x hx
    rw [enterFrame, if_neg hhelper, if_neg hnode, if_pos hx]
  have hnone : ∀ x, x ∉ helpers f.body → x ≠ P.node → x ∉ bindingNames f.body →
      enterFrame W P.node f.body x = none := by
    intro x hhelper hnode hbinding
    rw [enterFrame, if_neg hhelper, if_neg hnode, if_neg hbinding]
  refine ⟨rfl, rfl, ?_, ?_, ?_, ?_, hready⟩
  · rw [start_node hP]
    show enterFrame W P.node f.body P.node = _
    rw [enterFrame, if_neg hnodeHelper, if_pos rfl]
  · intro x hx
    show (enterFrame W P.node f.body x).isSome
    rw [hframe x ((mem_locals_iff hP x).mp hx)]
    rfl
  · intro x i hi harguments
    show enterFrame W P.node f.body x = some .undefined
    rw [hframe x ((mem_locals_iff hP x).mp (mem_of_idxOf? hi)), if_neg harguments]
  · intro x hx
    show enterFrame W P.node f.body x = none
    obtain hloader | hglobal | ⟨rfl, hlocals⟩ := hx
    · have hx := List.mem_filter.mp hloader
      have hfilter := of_decide_eq_true hx.2
      refine hnone x (fun hmem => ?_) hfilter.1 fun hmem => ?_
      · rw [helpers_body hP] at hmem
        exact (hfree x hmem).2.2 hloader
      · exact hfilter.2 ((mem_locals_iff hP x).mpr hmem)
    · have hnot : ∀ names, names ⊆ f.parameter.toList ++ (helpers f.body ++
          (bindingNames f.body ++ caughtNames f.body)) → x ∉ names := fun names hsub hmem =>
        himports.globals x (hsub hmem) hglobal
      refine hnone x (hnot _ fun y hy => by simp [hy]) (fun heq => ?_)
        (hnot _ fun y hy => by simp [hy])
      exact hnot [x] (fun y hy => by simp [hP.parameter, List.mem_singleton.mp hy, heq])
        (List.mem_singleton_self x)
    · rw [start_diagnosticCache hP] at hlocals ⊢
      have hcache := hq.cacheName hP.moduleFrame P.cache hP.diagnosticCache
      refine hnone P.cache ?_ (fun heq => hcache.2.2 (hP.parameter.trans (congrArg some heq.symm)))
        fun hmem => hlocals ((mem_locals_iff hP P.cache).mpr hmem)
      rw [helpers_body hP]
      exact hq.helperNames _ _ hP.helpers P.cache hP.diagnosticCache

/-- The expressions of a callback without minus zero are clean. -/
theorem clean_body (himports : ImportsQualified loaders f)
    (hzero : ∀ e ∈ expressions f.body, e.literal ≠ some Binary64.negativeZero) :
    ∀ e ∈ expressions f.body, e.Clean := fun e he => ⟨hzero e he, himports.arguments e he⟩

theorem fits_before (hP : P.Of q loaders f lowered) (himports : ImportsQualified loaders f)
    (hclean : ∀ e ∈ expressions f.body, e.Clean) :
    Fits (P.start loaders) (P.scope loaders f) (bindingNames P.before) (expressions P.before)
      (caughtNames P.before) := by
  have hfits : Fits (P.start loaders) (P.scope loaders f) (bindingNames f.body)
      (expressions f.body) (caughtNames f.body) := by
    refine ⟨fun x hx => (mem_locals_iff hP x).mpr hx, hclean, fun x hx => ?_⟩
    exact ⟨himports.lexical x hx, himports.globals x (by simp [hx])⟩
  have hbody : f.body = P.before ++ [P.actionStatement, .returnStatement (some P.projection)] :=
    hP.body.trans (List.append_assoc _ _ _)
  rw [hbody, bindingNames_append, expressions_append, caughtNames_append] at hfits
  exact hfits.mono (List.subset_append_left _ _) (List.subset_append_left _ _)
    (List.subset_append_left _ _)

/-- **The statements before the actions follow**, with the one message there is. -/
theorem follows_before (hW : W.Qualified) (hP : P.Of q loaders f lowered)
    (hq : q.Sound loaders f) (himports : ImportsQualified loaders f)
    (hclean : ∀ e ∈ expressions f.body, e.Clean) :
    ((P.start loaders).Same P.after ∧ (P.start loaders).Free (helpers P.before)) ∧
      Follows (P.start loaders) (diagnosticsOf P.ops)
        (runStatements W (P.scope loaders f) P.before) (runOps W P.ops) fun r _ => r = none := by
  have hprefix : ((P.start loaders).Same P.after ∧ (P.start loaders).Diagnosed P.after P.ops ∧
      (P.start loaders).Free (helpers P.before)) ∧ (Heard (diagnosticsOf P.ops) P.ops →
        Follows (P.start loaders) (diagnosticsOf P.ops)
          (runStatements W (P.scope loaders f) P.before) (runOps W P.ops) fun r _ => r = none) :=
    follows_prefix hW q P.before hP.prefixOps (scoped_start hP hq) (fits_before hP himports hclean)
  obtain ⟨⟨hsame, hdiagnosed, hfree⟩, hfollows⟩ := hprefix
  refine ⟨⟨hsame, hfree⟩, hfollows ⟨fun p hp => hp, fun p hp r hr => ?_⟩⟩
  obtain ⟨_, hops⟩ | ⟨_, _, parts, hops⟩ := hdiagnosed
  · rw [hops] at hp
    cases hp
  · rw [hops] at hp hr
    exact (List.mem_singleton.mp hp).trans (List.mem_singleton.mp hr).symm

/-- **The actions and the projection follow.** -/
theorem follows_after {contract : GroupEnvelopeContract} {region : Region} {locals : List String}
    (hW : W.Qualified) (hP : P.Of q loaders f (contract, region, locals))
    (hq : q.Sound loaders f) (hsame : (P.start loaders).Same P.after)
    (hclean : ∀ e ∈ expressions f.body, e.Clean) :
    contract.prefixOps = P.ops ∧
      Follows P.after (diagnosticsOf P.ops)
        (runStatements W (P.scope loaders f)
          [P.actionStatement, .returnStatement (some P.projection)])
        (do
          contract.actions.run W region locals.idxOf?
          contract.projection.run W)
        fun returned v => returned = some v := by
  have hs : Scoped P.after (P.scope loaders f) := hsame.scoped (scoped_start hP hq)
  have hmem : P.marker ∈ P.after.locals ∧ P.result ∈ P.after.locals := by
    rw [hsame.locals, mem_locals_iff hP, mem_locals_iff hP, bindingNames_body hP,
      bindingNames_append]
    exact ⟨by simp [Parts.actionStatement], by simp [Parts.actionStatement]⟩
  obtain ⟨i, j, tag, errorPrefix, program, hi, hj, hmarker, hregion, hprogram, rfl, rfl⟩ :=
    finish_eq_ok hP.finish hmem.1 hmem.2
  have hactions : Follows P.after (diagnosticsOf P.ops)
      (P.actionStatement.run W (P.scope loaders f))
      ((GroupEnvelopeActions.mk j i tag errorPrefix).run W region P.after.locals.idxOf?)
      fun returned _ => returned = none := by
    rw [Parts.actionStatement, actionsRegion_eq_ok hregion, ← hmarker]
    exact follows_actions hs region hi hj tag errorPrefix
  have hprojection : FollowsExpr W P.after (P.scope loaders f) (diagnosticsOf P.ops) P.projection
      program := by
    refine follows_expr hW hs P.projection hprogram fun e he => hclean e ?_
    rw [hP.body, expressions_append]
    exact List.mem_append_right _ (by simpa using he)
  refine ⟨rfl, ?_⟩
  rw [runStatements]
  refine hactions.bind fun returned _ hreturned => ?_
  subst hreturned
  rw [← Comp.bind_pure (program.run W), runStatements, Stmt.run, Comp.bind_assoc]
  exact Follows.bind_eq hprojection fun v => Follows.pure rfl

/-- **A lowered callback and its program end alike from states that are alike.** -/
theorem run_exact {contract : GroupEnvelopeContract} {region : Region} {locals : List String}
    (hW : W.Qualified) (hP : P.Of q loaders f (contract, region, locals))
    (hq : q.Sound loaders f) (himports : ImportsQualified loaders f)
    (hclean : ∀ e ∈ expressions f.body, e.Clean) {cache : Value}
    (hready : ∀ p ∈ diagnosticsOf contract.prefixOps, CacheReady p cache) :
    (f.run W loaders P.cache cache).1 =
        ((contract.run W region locals.idxOf?).1.mapError .thrown,
          (contract.run W region locals.idxOf?).2) ∧
      ∀ p ∈ diagnosticsOf contract.prefixOps, CacheReady p (f.run W loaders P.cache cache).2 := by
  obtain ⟨⟨hsame, hfree⟩, hbefore⟩ := follows_before hW hP hq himports hclean
  obtain ⟨hops, hafter⟩ := follows_after hW hP hq hsame hclean
  have hbody : Follows (P.start loaders) (diagnosticsOf P.ops) (f.start W loaders P.cache)
      (do
        runOps W P.ops
        contract.actions.run W region locals.idxOf?
        contract.projection.run W) Eq := by
    have hrest : ∀ {y : Ir Value}, y = y >>= pure := fun {y} => (Comp.bind_pure y).symm
    have hrun : f.start W loaders P.cache = runStatements W (P.scope loaders f) f.body >>=
        fun returned => pure (returned.getD .undefined) := start_eq hP.plain hP.parameter P.cache
    rw [hrun, hP.body, List.append_assoc, runStatements_append, Comp.bind_assoc]
    refine hbefore.bind fun returned _ hreturned => ?_
    subst hreturned
    rw [hrest (y := do
      contract.actions.run W region locals.idxOf?
      contract.projection.run W)]
    refine (hsame.follows hafter).bind fun returned v hreturned => ?_
    rw [hreturned]
    exact Follows.pure rfl
  have hstart := related_start (W := W) hP hq himports hfree (hops ▸ hready)
  rw [Function.run, GroupEnvelopeContract.run, hops]
  rw [hP.parameter]
  obtain ⟨v, w, js, ir, hjs, hir, rfl, hrel⟩ | ⟨e, d, js, ir, hjs, hir, rfl, hrel⟩ :=
    hbody _ _ hstart
  · dsimp only [Option.getD_some]
    rw [hjs, hir]
    exact ⟨congrArg (Prod.mk _) hrel.calls, hrel.cache⟩
  · dsimp only [Option.getD_some]
    rw [hjs, hir]
    exact ⟨congrArg (Prod.mk _) hrel.calls, hrel.cache⟩

end Callback

/-! ### A callback -/

/-- A world that takes a call for its answer. -/
def echo : World where
  answer _
    | .method .node "throw" [message] => .error message
    | .method receiver _ _ => .ok receiver
    | _ => .ok .null
  actions _ _ _ := ⟨some (.bool true), .ok (.host 0)⟩
  load _ name := .module name
  parseError := id
  typeError := .null
  argumentsObject := .undefined

theorem echo_qualified : echo.Qualified := ⟨fun _ _ _ => rfl, fun _ _ => rfl⟩

/-- The action parsers of a callback whose marker is `s`. -/
def sampleRegion : Region := ⟨120, "s", ["s", "e"], by decide⟩

def zeroLiteral : NumericLiteral := ⟨0, by decide, "0"⟩

/-- Zero, or minus zero. -/
def sampleNumber (negated : Bool) : Expr :=
  if negated then .unary .unaryNegation (.numericLiteral zeroLiteral)
  else .numericLiteral zeroLiteral

/-- A callback that reports an author it cannot read, and projects a number. -/
def sampleCallback (number : Expr) : Function where
  isAsync := false
  isGenerator := false
  hasRest := false
  parameters := [⟨some "e", false⟩]
  directives := []
  body := [
    .variableDeclaration true [(some "a", none)],
    .tryStatement
      [.expressionStatement (.assignment true (some "a")
        (.call (.member (.identifier "e") "attrUserJid") [.stringLiteral "participant"]))]
      (some (some "c", [.expressionStatement (.call
        (.member (.call (.identifier "t") [.stringLiteral "WALogger"]) "ERROR")
        [.logical .or (.identifier "m") (.parenthesized (.assignment true (some "m")
          (.call (.member (.identifier "babelHelpers") "taggedTemplateLiteralLoose")
            [.array [.stringLiteral "bad author "]]))),
          .call (.member (.call (.call (.identifier "n") [.stringLiteral "getErrorSafe"])
            [.identifier "c"]) "toString") []])]))
      false,
    .variableDeclaration true [(some "s", none), (some "u", some
      (.call (.member (.call (.member (.identifier "e") "mapChildren") [.function sampleRegion])
        "filter") [.identifier "Boolean"]))],
    .returnStatement (some (.object [
      (⟨false, false, some "author"⟩, .identifier "a"),
      (⟨false, false, some "actions"⟩, .identifier "u"),
      (⟨false, false, some "offset"⟩, number)]))]

/-- What the compiler knows when it comes to the projection. -/
def sampleLower : Lower := ⟨"e", ["t", "n", "r"], ["a", "s", "u"], true, "m"⟩

/-- Fingerprints that fix a module with the cache `m` and no helpers. -/
def sampleQualification : Qualification where
  moduleFrame f := if f.parameter = some "e" then .ok () else .error "frame"
  rejectOptionalAccess _ := .ok ()
  diagnosticCache := .ok "m"
  helpers before := if helpers before = [] then .ok [] else .error "helpers"
  capturedWrites _ _ := .ok ()
  dispatch _ := .ok ("missing_participant_identification", "Unrecognized group action ", [])
  prefixBindings _ _ := .ok ()

def sampleLoaders : List String := ["t", "n", "r"]

theorem sample_sound (negated : Bool) :
    sampleQualification.Sound sampleLoaders (sampleCallback (sampleNumber negated)) where
  loaderNames _ := ⟨rfl, by decide⟩
  cacheName _ cache h := by
    cases h
    cases negated <;> decide
  helperNames before references h cache hcache := by
    by_cases hhelpers : helpers before = []
    · rw [hhelpers]
      exact List.not_mem_nil
    · rw [show sampleQualification.helpers before = .error "helpers" from if_neg hhelpers] at h
      cases h

theorem sample_imports (negated : Bool) :
    ImportsQualified sampleLoaders (sampleCallback (sampleNumber negated)) := by
  cases negated <;> exact ⟨by decide, by decide, by decide⟩

/-- The program of the callback. -/
def sampleProgram : GroupEnvelopeContract where
  locals := 3
  prefixOps := [.bind 0 none,
    .tryDiagnostic [.evaluate (.assign 0 (.read .attrUserJid "participant"))] ["bad author "]]
  actions := ⟨2, 1, "missing_participant_identification", "Unrecognized group action "⟩
  projection := .object [("author", .local 0), ("actions", .local 2), ("offset", .integer 0)]

theorem sample_lowered (negated : Bool) :
    lowerCallback sampleQualification sampleLoaders (sampleCallback (sampleNumber negated)) =
      .ok (sampleProgram, sampleRegion, ["a", "s", "u"]) := by
  have hprojection : (sampleLower.expr (sampleNumber negated)) = .ok (.integer 0) := by
    have hzero : zeroLiteral.integer = some 0 := by decide +kernel
    have hnegated : (Expr.unary .unaryNegation (.numericLiteral zeroLiteral)).asInt = some 0 := by
      decide +kernel
    cases negated with
    | false =>
      rw [sampleNumber, if_neg Bool.false_ne_true, Lower.expr, hzero]
    | true =>
      rw [sampleNumber, if_pos rfl, Lower.expr, hnegated]
  have hobject : sampleLower.expr (.object [
      (⟨false, false, some "author"⟩, .identifier "a"),
      (⟨false, false, some "actions"⟩, .identifier "u"),
      (⟨false, false, some "offset"⟩, sampleNumber negated)]) = .ok sampleProgram.projection := by
    simp only [Lower.expr, Lower.fields, hprojection]
    rfl
  show (sampleLower.expr (.object [
      (⟨false, false, some "author"⟩, .identifier "a"),
      (⟨false, false, some "actions"⟩, .identifier "u"),
      (⟨false, false, some "offset"⟩, sampleNumber negated)]) >>= _) = _
  rw [hobject]
  rfl

end Whatspec.Notif.Envelope

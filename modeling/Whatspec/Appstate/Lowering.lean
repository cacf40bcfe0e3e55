import Whatspec.Appstate.Lower

/-!
# The accepted subset

What the compiler accepts, and what it makes of it, as rules: `LowersExpr L e r L'` says that an
expression lowers to `r` and what the compiler knows before and after.

* `lowersStatements_of_lower`: the walk follows the rules, so that
  every fact about accepted validators is proved by going through the rules;
* `LowersExpr.accepted` and `LowersStatements.accepted`: only the forms of `Expr.accepted` and
  `Stmt.accepted` are lowered, at every depth.
-/

namespace Whatspec.Appstate

open Whatspec.Library

/-! ### Running the walk -/

section Walk

variable {α β : Type} {L : Lower}

theorem LowerM.bind_ok {x : LowerM α} {f : α → LowerM β} {r : β × Lower} :
    (x >>= f) L = .ok r ↔ ∃ a L₁, x L = .ok (a, L₁) ∧ f a L₁ = .ok r := by
  constructor
  · intro h
    cases hx : x L with
    | error e =>
      have : (x >>= f) L = .error e := by
        show (x L >>= fun p => f p.1 p.2) = _
        rw [hx]
        rfl
      rw [this] at h
      cases h
    | ok p =>
      refine ⟨p.1, p.2, rfl, ?_⟩
      rw [← h]
      show f p.1 p.2 = (x L >>= fun p => f p.1 p.2)
      rw [hx]
      rfl
  · rintro ⟨a, L₁, hx, hf⟩
    show (x L >>= fun p => f p.1 p.2) = _
    rw [hx]
    exact hf

theorem LowerM.pure_ok {a : α} {r : α × Lower} :
    (pure a : LowerM α) L = .ok r ↔ r = (a, L) :=
  ⟨fun h => (Except.ok.inj h).symm, fun h => h ▸ rfl⟩

theorem LowerM.throw_ok {e : String} {r : α × Lower} :
    (throw e : LowerM α) L = .ok r ↔ False := ⟨nofun, False.elim⟩

theorem LowerM.get_ok {r : Lower × Lower} : (get : LowerM Lower) L = .ok r ↔ r = (L, L) :=
  ⟨fun h => (Except.ok.inj h).symm, fun h => h ▸ rfl⟩

theorem LowerM.set_ok {L₁ : Lower} {r : PUnit × Lower} :
    (set L₁ : LowerM PUnit) L = .ok r ↔ r = (⟨⟩, L₁) :=
  ⟨fun h => (Except.ok.inj h).symm, fun h => h ▸ rfl⟩

theorem LowerM.modify_ok {f : Lower → Lower} {r : PUnit × Lower} :
    (modify f : LowerM PUnit) L = .ok r ↔ r = (⟨⟩, f L) :=
  ⟨fun h => (Except.ok.inj h).symm, fun h => h ▸ rfl⟩

theorem LowerM.ofExcept_ok {x : Except String α} {r : α × Lower} :
    LowerM.ofExcept x L = .ok r ↔ x = .ok r.1 ∧ r.2 = L := by
  cases x with
  | error e => exact ⟨nofun, fun h => nomatch h.1⟩
  | ok a =>
    constructor
    · intro h
      obtain rfl : (a, L) = r := Except.ok.inj h
      exact ⟨rfl, rfl⟩
    · rintro ⟨ha, hL⟩
      obtain ⟨b, L'⟩ := r
      obtain rfl : a = b := Except.ok.inj ha
      obtain rfl : L' = L := hL
      rfl

end Walk

/-! ### The rules -/

mutual

inductive LowersExpr : Lower → Expr → ValidationExpression → Lower → Prop where
  | parenthesized {L e r L'} : LowersExpr L e r L' → LowersExpr L (.parenthesized e) r L'
  | identifier {L x r} : L.locals x = some r → LowersExpr L (.identifier x) r L
  | nullLiteral {L} : LowersExpr L .nullLiteral .null L
  | numericLiteral {L n k} : n.integer = some k →
      LowersExpr L (.numericLiteral n) (.integer k) L
  | stringLiteral {L s} : LowersExpr L (.stringLiteral s) (.string s) L
  | void {L n} : LowersExpr L (.unary .void (.numericLiteral n)) .undefined L
  | logicalNot {L e r L'} : LowersExpr L e r L' →
      LowersExpr L (.unary .logicalNot e) (.not r) L'
  | metric {L c object name} : L.module object = some metricModule → name ∈ metricNames →
      LowersExpr L (.member false (.member c object "SyncdFatalErrorType") name) (.metric name) L
  | field {L object r L' name f} : LowersExpr L object r L' → fieldOf r name = .ok f →
      LowersExpr L (.member false object name) f L'
  | and {L left r L₁ right r' L₂} : LowersExpr L left r L₁ → LowersExpr L₁ right r' L₂ →
      LowersExpr L (.logical .and left right) (.and r r') L₂
  | or {L left r L₁ right r' L₂} : LowersExpr L left r L₁ → LowersExpr L₁ right r' L₂ →
      LowersExpr L (.logical .or left right) (.or r r') L₂
  | equality {L left r L'} : LowersExpr L left r L' →
      LowersExpr L (.binary .equality left .nullLiteral) (.nullish r false) L'
  | inequality {L left r L'} : LowersExpr L left r L' →
      LowersExpr L (.binary .inequality left .nullLiteral) (.nullish r true) L'
  | greater {L left r L₁ right r' L₂} : LowersExpr L left r L₁ → LowersExpr L₁ right r' L₂ →
      LowersExpr L (.binary .greaterThan left right) (.greater r r') L₂
  | conditional {L test c L₁ consequent y L₂ alternate n L₃} : LowersExpr L test c L₁ →
      LowersExpr L₁ consequent y L₂ → LowersExpr L₂ alternate n L₃ →
      LowersExpr L (.conditional test consequent alternate) (.choose c y n) L₃
  | assignment {L x slot right r L'} : L.slotOf x = some slot →
      ¬(L.mapDepth ≠ 0 ∧ slot < L.mapFloor) → LowersExpr L right r L' →
      LowersExpr L (.assignment true (some x) right) (.assign slot r) L'
  | sequence {L es rs L'} : LowersAll L es rs L' →
      LowersExpr L (.sequence es) (.sequence rs) L'
  | object {L ps rs L'} : LowersProperties L ps [] rs L' →
      LowersExpr L (.object ps) (.object rs) L'
  | map {L c object r L₁ head p body L₂ ss L₃} : head.callbackParameter = .ok p →
      L.mapDepth = 0 → LowersExpr L object r L₁ → L₁.ordinaryArray r →
      (L₁.enterCallback p).declareScope body = .ok L₂ → LowersStatements L₂ body ss L₃ →
      LowersExpr L (.call (.member c object "map") [.function head body]) (.map r ss)
        (L₁.leaveCallback L₃)
  | decode {L c object spec name t e r L'} : L.module object = some "decodeProtobuf" →
      L.module spec = some "WAWebProtobufSyncAction.pb" → decodedTransform name = some t →
      LowersExpr L e r L' →
      LowersExpr L (.call (.member c object "decodeProtobuf") [.member false spec name, e])
        (.transform t [r]) L'
  | validate {L c method es rs L'} : method ∈ validatorNames → L.locals L.receiver = none →
      LowersAll L es rs L' →
      LowersExpr L (.call (.member c (.identifier L.receiver) method) es)
        (.validate method rs) L'
  | transform {L c object method t es rs L'} :
      dependencyTransform (L.module object) method = some t → LowersAll L es rs L' →
      LowersExpr L (.call (.member c object method) es) (.transform t rs) L'

inductive LowersAll : Lower → List Expr → List ValidationExpression → Lower → Prop where
  | nil {L} : LowersAll L [] [] L
  | cons {L e r L₁ es rs L₂} : LowersExpr L e r L₁ → LowersAll L₁ es rs L₂ →
      LowersAll L (e :: es) (r :: rs) L₂

inductive LowersProperties : Lower → List (PropertyHead × Expr) → List String →
    List (String × ValidationExpression) → Lower → Prop where
  | nil {L before} : LowersProperties L [] before [] L
  | cons {L head before key e r L₁ ps rs L₂} : head.lowerKey before = .ok key →
      LowersExpr L e r L₁ → LowersProperties L₁ ps (before ++ [key]) rs L₂ →
      LowersProperties L ((head, e) :: ps) before ((key, r) :: rs) L₂

inductive LowersStatement : Lower → Stmt → List ValidationStatement → Lower → Prop where
  | declaration {L isVar ds ss L'} : LowersDeclarations L isVar ds ss L' →
      LowersStatement L (.variableDeclaration isVar ds) ss L'
  | ifElse {L test c L₁ consequent yes L₂ alternate no L₃} : LowersExpr L test c L₁ →
      LowersStatement L₁ consequent yes L₂ → LowersStatement L₂ alternate no L₃ →
      LowersStatement L (.ifStatement test consequent (some alternate)) [.if c yes no] L₃
  | ifThen {L test c L₁ consequent yes L₂} : LowersExpr L test c L₁ →
      LowersStatement L₁ consequent yes L₂ →
      LowersStatement L (.ifStatement test consequent none) [.if c yes []] L₂
  | block {L body ss L'} : LowersStatements L body ss L' →
      LowersStatement L (.blockStatement body) ss L'
  | return {L e r L'} : LowersExpr L e r L' →
      LowersStatement L (.returnStatement (some e)) [.return r] L'
  | expression {L e r L'} : LowersExpr L e r L' →
      LowersStatement L (.expressionStatement e) [.evaluate r] L'
  | fatal {L c reporter metric m L₁ context x L₂ c' error message} :
      L.module reporter = some metricModule → LowersExpr L metric m L₁ →
      LowersExpr L₁ context x L₂ → reportingContext x →
      L₂.module error = some "WAWebSyncdError" →
      LowersStatement L (.throwStatement (.sequence
        [.call (.member c reporter "reportSyncdFatalError") [metric, context],
          .new (.member c' error "SyncdFatalError") [.stringLiteral message]]))
        [.fatal m message] L₂

inductive LowersStatements : Lower → List Stmt → List ValidationStatement → Lower → Prop where
  | nil {L} : LowersStatements L [] [] L
  | cons {L s first L₁ ss rest L₂} : LowersStatement L s first L₁ →
      LowersStatements L₁ ss rest L₂ → LowersStatements L (s :: ss) (first ++ rest) L₂

inductive LowersDeclarations : Lower → Bool → List (Option String × Option Expr) →
    List ValidationStatement → Lower → Prop where
  | nil {L isVar} : LowersDeclarations L isVar [] [] L
  | cons {L x slot e r L₁ ds rest L₂} : L.slotOf x = some slot → LowersExpr L e r L₁ →
      LowersDeclarations (L₁.bindArray slot r) true ds rest L₂ →
      LowersDeclarations L true ((some x, some e) :: ds) (.bind slot r :: rest) L₂

end

/-! ### The walk follows the rules -/

section Inversion

variable {L L' : Lower} {r : ValidationExpression}

theorem lower_member {object : Expr} {name : String}
    (h : (Expr.member false object name).lower L = .ok (r, L')) :
    (∃ c o, object = .member c o "SyncdFatalErrorType" ∧ L.module o = some metricModule ∧
      name ∈ metricNames ∧ r = .metric name ∧ L' = L) ∨
    (∃ v, object.lower L = .ok (v, L') ∧ fieldOf v name = .ok r) := by
  have hfield : ∀ (x : Expr), (do
      let v ← x.lower
      LowerM.ofExcept (fieldOf v name)) L = .ok (r, L') →
      ∃ v, x.lower L = .ok (v, L') ∧ fieldOf v name = .ok r := by
    intro x hx
    simp only [LowerM.bind_ok, LowerM.ofExcept_ok] at hx
    obtain ⟨v, _, hv, hf, rfl⟩ := hx
    exact ⟨v, hv, hf⟩
  cases object with
  | member c o property =>
    simp only [Expr.lower.eq_8, LowerM.bind_ok, LowerM.get_ok] at h
    obtain ⟨_, _, ⟨rfl, rfl⟩, h⟩ := h
    split_ifs at h with hmetric
    · obtain ⟨rfl, hmodule⟩ := hmetric
      simp only [LowerM.ofExcept_ok, metricOf] at h
      obtain ⟨hname, rfl⟩ := h
      split_ifs at hname with hmem
      exact .inl ⟨c, o, rfl, hmodule, hmem, (Except.ok.inj hname).symm, rfl⟩
    · exact .inr (hfield _ (by simpa only [LowerM.bind_ok] using h))
  | _ =>
    rw [Expr.lower] at h
    · exact .inr (hfield _ h)
    · exact nofun

theorem lower_logical {operator : LogicalOperator} {left right : Expr}
    (h : (Expr.logical operator left right).lower L = .ok (r, L')) :
    ∃ v L₁ w, left.lower L = .ok (v, L₁) ∧ right.lower L₁ = .ok (w, L') ∧
      (operator = .and ∧ r = .and v w ∨ operator = .or ∧ r = .or v w) := by
  simp only [Expr.lower, LowerM.bind_ok] at h
  obtain ⟨v, L₁, hv, w, L₂, hw, h⟩ := h
  cases operator with
  | coalesce => simp only [LowerM.throw_ok] at h
  | and =>
    simp only [LowerM.pure_ok, Prod.mk.injEq] at h
    obtain ⟨rfl, rfl⟩ := h
    exact ⟨v, L₁, w, hv, hw, .inl ⟨rfl, rfl⟩⟩
  | or =>
    simp only [LowerM.pure_ok, Prod.mk.injEq] at h
    obtain ⟨rfl, rfl⟩ := h
    exact ⟨v, L₁, w, hv, hw, .inr ⟨rfl, rfl⟩⟩

theorem lower_greater {left right : Expr}
    (h : (Expr.binary .greaterThan left right).lower L = .ok (r, L')) :
    ∃ v L₁ w, left.lower L = .ok (v, L₁) ∧ right.lower L₁ = .ok (w, L') ∧ r = .greater v w := by
  simp only [Expr.lower, LowerM.bind_ok, LowerM.get_ok] at h
  obtain ⟨v, L₁, hv, w, L₂, hw, _, _, ⟨rfl, rfl⟩, h⟩ := h
  split_ifs at h
  · simp only [LowerM.pure_ok, Prod.mk.injEq] at h
    obtain ⟨rfl, rfl⟩ := h
    exact ⟨v, L₁, w, hv, hw, rfl⟩
  · simp only [LowerM.throw_ok] at h

/-- The operators that compare with nothing. -/
theorem lower_binary {operator : BinaryOperator} {left right : Expr}
    (hne : operator ≠ .greaterThan)
    (h : (Expr.binary operator left right).lower L = .ok (r, L')) :
    right = .nullLiteral ∧ ∃ v, left.lower L = .ok (v, L') ∧
      (operator = .equality ∧ r = .nullish v false ∨
        operator = .inequality ∧ r = .nullish v true) := by
  cases operator with
  | greaterThan => exact absurd rfl hne
  | other => cases right <;> simp only [Expr.lower, LowerM.throw_ok] at h
  | equality =>
    cases right with
    | nullLiteral =>
      simp only [Expr.lower, LowerM.bind_ok, LowerM.pure_ok, Prod.mk.injEq] at h
      obtain ⟨v, _, hv, rfl, rfl⟩ := h
      exact ⟨rfl, v, hv, .inl ⟨rfl, rfl⟩⟩
    | _ => simp only [Expr.lower, LowerM.throw_ok] at h
  | inequality =>
    cases right with
    | nullLiteral =>
      simp only [Expr.lower, LowerM.bind_ok, LowerM.pure_ok, Prod.mk.injEq] at h
      obtain ⟨v, _, hv, rfl, rfl⟩ := h
      exact ⟨rfl, v, hv, .inr ⟨rfl, rfl⟩⟩
    | _ => simp only [Expr.lower, LowerM.throw_ok] at h

theorem lower_assignment {isPlain : Bool} {target : Option String} {right : Expr}
    (h : (Expr.assignment isPlain target right).lower L = .ok (r, L')) :
    isPlain = true ∧ ∃ x slot v, target = some x ∧ L.slotOf x = some slot ∧
      ¬(L.mapDepth ≠ 0 ∧ slot < L.mapFloor) ∧ right.lower L = .ok (v, L') ∧
      r = .assign slot v := by
  cases target with
  | none => simp only [Expr.lower, LowerM.throw_ok] at h
  | some x =>
    simp only [Expr.lower] at h
    split_ifs at h with hplain
    · simp only [LowerM.bind_ok, LowerM.get_ok] at h
      obtain ⟨_, _, ⟨rfl, rfl⟩, h⟩ := h
      cases hslot : L.slotOf x with
      | none => simp only [hslot, LowerM.throw_ok] at h
      | some slot =>
        simp only [hslot] at h
        split_ifs at h with hfloor
        · simp only [LowerM.throw_ok] at h
        · simp only [LowerM.bind_ok, LowerM.pure_ok, Prod.mk.injEq] at h
          obtain ⟨v, _, hv, rfl, rfl⟩ := h
          exact ⟨hplain, x, slot, v, rfl, hslot, hfloor, hv, rfl⟩
    · simp only [LowerM.throw_ok] at h

theorem lower_map {c : Bool} {object : Expr} {arguments : List Expr}
    (h : (Expr.call (.member c object "map") arguments).lower L = .ok (r, L')) :
    ∃ head body p input L₁ L₂ ss L₃, arguments = [.function head body] ∧
      head.callbackParameter = .ok p ∧ L.mapDepth = 0 ∧ object.lower L = .ok (input, L₁) ∧
      L₁.ordinaryArray input ∧ (L₁.enterCallback p).declareScope body = .ok L₂ ∧
      lowerStatements body L₂ = .ok (ss, L₃) ∧ r = .map input ss ∧
      L' = L₁.leaveCallback L₃ := by
  match arguments with
  | [.function head body] =>
    simp only [Expr.lower, LowerM.bind_ok, LowerM.get_ok, LowerM.ofExcept_ok] at h
    obtain ⟨p, _, ⟨hp, rfl⟩, _, _, ⟨rfl, rfl⟩, h⟩ := h
    split_ifs at h with hdepth
    · simp only [LowerM.throw_ok] at h
    · simp only [LowerM.bind_ok, LowerM.get_ok] at h
      obtain ⟨input, _, hinput, _, _, ⟨rfl, rfl⟩, h⟩ := h
      split_ifs at h with harray
      · simp only [LowerM.bind_ok, LowerM.ofExcept_ok, LowerM.set_ok, LowerM.modify_ok,
          LowerM.pure_ok, Prod.mk.injEq] at h
        obtain ⟨_, _, ⟨hscope, rfl⟩, _, _, ⟨-, rfl⟩, ss, L₃, hbody, _, _, ⟨-, rfl⟩, rfl,
          rfl⟩ := h
        exact ⟨head, body, p, input, _, _, ss, L₃, rfl, hp, by simpa using hdepth, hinput, harray,
          hscope, hbody, rfl, rfl⟩
      · simp only [LowerM.throw_ok] at h
  | [] => simp only [Expr.lower, LowerM.throw_ok] at h
  | _ :: _ :: _ => simp only [Expr.lower, LowerM.throw_ok] at h
  | [.parenthesized _] | [.identifier _] | [.nullLiteral] | [.numericLiteral _]
  | [.stringLiteral _] | [.unary _ _] | [.member _ _ _] | [.logical _ _ _] | [.binary _ _ _]
  | [.conditional _ _ _] | [.assignment _ _ _] | [.sequence _] | [.object _] | [.call _ _]
  | [.new _ _] | [.spread _] | [.other] => simp only [Expr.lower, LowerM.throw_ok] at h

theorem callOf_ok {object : Expr} {method : String} {vs : List ValidationExpression}
    (h : L.callOf object method vs = .ok r) :
    (object = .identifier L.receiver ∧ method ∈ validatorNames ∧ L.locals L.receiver = none ∧
      r = .validate method vs) ∨
    (∃ t, dependencyTransform (L.module object) method = some t ∧ r = .transform t vs) := by
  rw [Lower.callOf] at h
  split_ifs at h with hvalidator
  · obtain ⟨hmethod, hobject, hfree⟩ := hvalidator
    cases object with
    | identifier x =>
      obtain rfl : x = L.receiver := of_decide_eq_true hobject
      exact .inl ⟨rfl, hmethod, hfree, (Except.ok.inj h).symm⟩
    | _ => cases hobject
  · cases ht : dependencyTransform (L.module object) method with
    | none => simp only [ht, reduceCtorEq] at h
    | some t =>
      simp only [ht, Except.ok.injEq] at h
      exact .inr ⟨t, rfl, h.symm⟩

theorem lower_call {c : Bool} {object : Expr} {method : String} {arguments : List Expr}
    (hmap : method ≠ "map")
    (h : (Expr.call (.member c object method) arguments).lower L = .ok (r, L')) :
    (∃ spec name e t v, method = "decodeProtobuf" ∧ L.module object = some "decodeProtobuf" ∧
      arguments = [.member false spec name, e] ∧
      L.module spec = some "WAWebProtobufSyncAction.pb" ∧ decodedTransform name = some t ∧
      e.lower L = .ok (v, L') ∧ r = .transform t [v]) ∨
    (∃ vs, lowerAll arguments L = .ok (vs, L') ∧ L.callOf object method vs = .ok r) := by
  rw [Expr.lower] at h
  · simp only [LowerM.bind_ok, LowerM.get_ok] at h
    obtain ⟨_, _, ⟨rfl, rfl⟩, h⟩ := h
    split_ifs at h with hdecode
    · refine .inl ?_
      obtain ⟨hobject, rfl⟩ := hdecode
      rcases arguments with _ | ⟨first, _ | ⟨e, _ | ⟨_, _⟩⟩⟩
      · simp only [LowerM.throw_ok] at h
      · simp only [LowerM.throw_ok] at h
      · cases first with
        | member isComputed spec name =>
          cases isComputed with
          | true => simp only [LowerM.throw_ok] at h
          | false =>
            simp only at h
            split_ifs at h with hspec
            · cases ht : decodedTransform name with
              | none => simp only [ht, LowerM.throw_ok] at h
              | some t =>
                simp only [ht, LowerM.bind_ok, LowerM.pure_ok, Prod.mk.injEq] at h
                obtain ⟨v, _, hv, rfl, rfl⟩ := h
                exact ⟨spec, name, e, t, v, rfl, hobject, rfl, hspec, ht, hv, rfl⟩
            · simp only [LowerM.throw_ok] at h
        | _ => simp only [LowerM.throw_ok] at h
      · simp only [LowerM.throw_ok] at h
    · refine .inr ?_
      simp only [LowerM.bind_ok, LowerM.ofExcept_ok] at h
      obtain ⟨vs, _, hvs, hcall, rfl⟩ := h
      exact ⟨vs, hvs, hcall⟩
  · exact fun hm => absurd hm hmap

/-- What is thrown begins with a report of a metric and its context. -/
theorem lower_report {report error : Expr} {ss : List ValidationStatement}
    (h : (Stmt.throwStatement (.sequence [report, error])).lower L = .ok (ss, L')) :
    ∃ c reporter metric context,
      report = .call (.member c reporter "reportSyncdFatalError") [metric, context] := by
  cases report with
  | call callee arguments =>
    cases callee with
    | member c reporter property =>
      by_cases hproperty : property = "reportSyncdFatalError"
      · subst hproperty
        rcases arguments with _ | ⟨metric, _ | ⟨context, _ | ⟨_, _⟩⟩⟩
        · simp only [Stmt.lower, LowerM.throw_ok] at h
        · simp only [Stmt.lower, LowerM.throw_ok] at h
        · exact ⟨c, reporter, metric, context, rfl⟩
        · simp only [Stmt.lower, LowerM.throw_ok] at h
      · rw [Stmt.lower.eq_9 _ _ _
          (fun _ _ _ _ hcallee _ => hproperty (Expr.member.inj hcallee).2.2)
          fun _ _ hcallee => hproperty (Expr.member.inj hcallee).2.2] at h
        simp only [LowerM.throw_ok] at h
    | _ => simp only [Stmt.lower, LowerM.throw_ok] at h
  | _ => simp only [Stmt.lower, LowerM.throw_ok] at h

/-- What is thrown ends with an error of a fixed message. -/
theorem lower_error {L : Lower} {error : Expr} {metric : ValidationExpression}
    {ss : List ValidationStatement}
    (h : (match error with
      | .new (.member _ object "SyncdFatalError") [argument] => do
        let L ← get
        if L.module object = some "WAWebSyncdError" then
          match argument with
          | .stringLiteral message => pure [.fatal metric message]
          | .spread _ => throw "spread argument"
          | _ => throw "dynamic fatal message"
        else throw "unqualified fatal class"
      | .new (.member _ _ "SyncdFatalError") _ => throw "unqualified fatal class"
      | .new _ _ => throw "wrong fatal class"
      | _ => throw "missing fatal constructor" : LowerM (List ValidationStatement)) L =
        .ok (ss, L')) :
    ∃ c object message,
      error = .new (.member c object "SyncdFatalError") [.stringLiteral message] ∧
      L.module object = some "WAWebSyncdError" ∧ ss = [.fatal metric message] ∧ L' = L := by
  split at h
  · next c object argument =>
    simp only [LowerM.bind_ok, LowerM.get_ok] at h
    obtain ⟨_, _, ⟨rfl, rfl⟩, h⟩ := h
    split_ifs at h with hobject
    · cases argument with
      | stringLiteral message =>
        simp only [LowerM.pure_ok, Prod.mk.injEq] at h
        obtain ⟨rfl, rfl⟩ := h
        exact ⟨c, object, message, rfl, hobject, rfl, rfl⟩
      | _ => simp only [LowerM.throw_ok] at h
    · simp only [LowerM.throw_ok] at h
  all_goals simp only [LowerM.throw_ok] at h

/-- The one form of `throw` that is lowered. -/
theorem lower_throw {argument : Expr} {ss : List ValidationStatement}
    (h : (Stmt.throwStatement argument).lower L = .ok (ss, L')) :
    ∃ c reporter metric context c' error message m L₁ x,
      argument = .sequence [.call (.member c reporter "reportSyncdFatalError") [metric, context],
        .new (.member c' error "SyncdFatalError") [.stringLiteral message]] ∧
      L.module reporter = some metricModule ∧ metric.lower L = .ok (m, L₁) ∧
      context.lower L₁ = .ok (x, L') ∧ reportingContext x ∧
      L'.module error = some "WAWebSyncdError" ∧ ss = [.fatal m message] := by
  cases argument with
  | sequence es =>
    rcases es with _ | ⟨report, _ | ⟨error, _ | ⟨_, _⟩⟩⟩
    · simp only [Stmt.lower, LowerM.throw_ok] at h
    · simp only [Stmt.lower, LowerM.throw_ok] at h
    · obtain ⟨c, reporter, metric, context, rfl⟩ := lower_report h
      simp only [Stmt.lower.eq_7, LowerM.bind_ok, LowerM.get_ok] at h
      obtain ⟨_, _, ⟨rfl, rfl⟩, h⟩ := h
      split_ifs at h with hreporter
      · simp only [LowerM.bind_ok] at h
        obtain ⟨m, L₁, hm, x, L₂, hx, h⟩ := h
        split_ifs at h with hcontext
        · obtain ⟨c', o, message, rfl, ho, rfl, rfl⟩ := lower_error h
          exact ⟨c, reporter, metric, context, c', o, message, m, L₁, x, rfl, hreporter, hm, hx,
            hcontext, ho, rfl⟩
        · simp only [LowerM.throw_ok] at h
      · simp only [LowerM.throw_ok] at h
    · simp only [Stmt.lower, LowerM.throw_ok] at h
  | _ => simp only [Stmt.lower, LowerM.throw_ok] at h

theorem lower_declaration {isVar : Bool} {x : String} {init : Option Expr}
    {ds : List (Option String × Option Expr)} {ss : List ValidationStatement}
    (h : lowerDeclarations isVar ((some x, init) :: ds) L = .ok (ss, L')) :
    isVar = true ∧ ∃ slot e v L₁ rest, L.slotOf x = some slot ∧ init = some e ∧
      e.lower L = .ok (v, L₁) ∧ lowerDeclarations true ds (L₁.bindArray slot v) = .ok (rest, L') ∧
      ss = .bind slot v :: rest := by
  rw [lowerDeclarations] at h
  by_cases hvar : isVar = true
  · rw [if_pos hvar] at h
    subst hvar
    obtain ⟨M, M', hget, hrest⟩ := LowerM.bind_ok.mp h
    obtain ⟨hM, hM'⟩ := Prod.mk.inj (LowerM.get_ok.mp hget)
    rw [hM, hM'] at hrest
    clear h
    cases hslot : L.slotOf x with
    | none => simp only [hslot, LowerM.throw_ok] at hrest
    | some slot =>
      cases init with
      | none => simp only [hslot, LowerM.throw_ok] at hrest
      | some e =>
        simp only [hslot, LowerM.bind_ok, LowerM.modify_ok, LowerM.pure_ok, Prod.mk.injEq]
          at hrest
        obtain ⟨v, L₁, hv, _, _, ⟨-, rfl⟩, rest, _, hrest, rfl, rfl⟩ := hrest
        exact ⟨rfl, slot, e, v, L₁, rest, rfl, rfl, hv, hrest, rfl⟩
  · rw [if_neg hvar, LowerM.throw_ok] at h
    exact h.elim

end Inversion

/-- The walk follows the rules on everything smaller. -/
structure Follows (n : ℕ) : Prop where
  expr : ∀ {e : Expr} {L L' r}, sizeOf e < n → e.lower L = .ok (r, L') → LowersExpr L e r L'
  all : ∀ {es : List Expr} {L L' rs}, sizeOf es < n → lowerAll es L = .ok (rs, L') →
    LowersAll L es rs L'
  properties : ∀ {ps : List (PropertyHead × Expr)} {before L L' rs}, sizeOf ps < n →
    lowerProperties ps before L = .ok (rs, L') → LowersProperties L ps before rs L'
  statement : ∀ {s : Stmt} {L L' ss}, sizeOf s < n → s.lower L = .ok (ss, L') →
    LowersStatement L s ss L'
  statements : ∀ {body : List Stmt} {L L' ss}, sizeOf body < n →
    lowerStatements body L = .ok (ss, L') → LowersStatements L body ss L'
  declarations : ∀ {isVar : Bool} {ds : List (Option String × Option Expr)} {L L' ss},
    sizeOf ds < n → lowerDeclarations isVar ds L = .ok (ss, L') →
    LowersDeclarations L isVar ds ss L'

theorem lowersExpr_step {e : Expr} {L L' : Lower} {r : ValidationExpression}
    (ih : Follows (sizeOf e))
    (h : e.lower L = .ok (r, L')) : LowersExpr L e r L' := by
  cases e with
  | parenthesized e =>
    rw [Expr.lower] at h
    exact .parenthesized (ih.expr (by simp +arith) h)
  | identifier x =>
    simp only [Expr.lower, LowerM.bind_ok, LowerM.get_ok] at h
    obtain ⟨_, _, ⟨rfl, rfl⟩, h⟩ := h
    cases hx : L.locals x with
    | none => simp only [hx, LowerM.throw_ok] at h
    | some e =>
      simp only [hx, LowerM.pure_ok, Prod.mk.injEq] at h
      obtain ⟨rfl, rfl⟩ := h
      exact .identifier hx
  | nullLiteral =>
    simp only [Expr.lower, LowerM.pure_ok, Prod.mk.injEq] at h
    obtain ⟨rfl, rfl⟩ := h
    exact .nullLiteral
  | numericLiteral n =>
    simp only [Expr.lower] at h
    cases hn : n.integer with
    | none => simp only [hn, LowerM.throw_ok] at h
    | some k =>
      simp only [hn, LowerM.pure_ok, Prod.mk.injEq] at h
      obtain ⟨rfl, rfl⟩ := h
      exact .numericLiteral hn
  | stringLiteral s =>
    simp only [Expr.lower, LowerM.pure_ok, Prod.mk.injEq] at h
    obtain ⟨rfl, rfl⟩ := h
    exact .stringLiteral
  | unary operator argument =>
    cases operator with
    | void =>
      cases argument with
      | numericLiteral n =>
        simp only [Expr.lower] at h
        split_ifs at h
        · simp only [LowerM.pure_ok, Prod.mk.injEq] at h
          obtain ⟨rfl, rfl⟩ := h
          exact .void
        · simp only [LowerM.throw_ok] at h
      | _ => simp only [Expr.lower, LowerM.throw_ok] at h
    | logicalNot =>
      simp only [Expr.lower, LowerM.bind_ok, LowerM.pure_ok, Prod.mk.injEq] at h
      obtain ⟨_, _, hv, rfl, rfl⟩ := h
      exact .logicalNot (ih.expr (by simp +arith) hv)
    | other => simp only [Expr.lower, LowerM.throw_ok] at h
  | member isComputed object name =>
    cases isComputed with
    | true => simp only [Expr.lower, LowerM.throw_ok] at h
    | false =>
      obtain ⟨c, o, rfl, hmodule, hname, rfl, rfl⟩ | ⟨v, hv, hf⟩ := lower_member h
      · exact .metric hmodule hname
      · exact .field (ih.expr (by simp +arith) hv) hf
  | logical operator left right =>
    obtain ⟨v, L₁, w, hv, hw, ⟨rfl, rfl⟩ | ⟨rfl, rfl⟩⟩ := lower_logical h
    · exact .and (ih.expr (by simp +arith) hv) (ih.expr (by simp +arith) hw)
    · exact .or (ih.expr (by simp +arith) hv) (ih.expr (by simp +arith) hw)
  | binary operator left right =>
    by_cases hop : operator = .greaterThan
    · subst hop
      obtain ⟨v, L₁, w, hv, hw, rfl⟩ := lower_greater h
      exact .greater (ih.expr (by simp +arith) hv) (ih.expr (by simp +arith) hw)
    · obtain ⟨rfl, v, hv, ⟨rfl, rfl⟩ | ⟨rfl, rfl⟩⟩ := lower_binary hop h
      · exact .equality (ih.expr (by simp +arith) hv)
      · exact .inequality (ih.expr (by simp +arith) hv)
  | conditional test consequent alternate =>
    simp only [Expr.lower, LowerM.bind_ok, LowerM.pure_ok, Prod.mk.injEq] at h
    obtain ⟨_, _, hc, _, _, hy, _, _, hn, rfl, rfl⟩ := h
    exact .conditional (ih.expr (by simp +arith) hc) (ih.expr (by simp +arith) hy)
      (ih.expr (by simp +arith) hn)
  | assignment isPlain target right =>
    obtain ⟨rfl, x, slot, v, rfl, hslot, hfloor, hv, rfl⟩ := lower_assignment h
    exact .assignment hslot hfloor (ih.expr (by simp +arith) hv)
  | sequence expressions =>
    simp only [Expr.lower, LowerM.bind_ok, LowerM.pure_ok, Prod.mk.injEq] at h
    obtain ⟨_, _, hvs, rfl, rfl⟩ := h
    exact .sequence (ih.all (by simp +arith) hvs)
  | object properties =>
    simp only [Expr.lower, LowerM.bind_ok, LowerM.pure_ok, Prod.mk.injEq] at h
    obtain ⟨_, _, hvs, rfl, rfl⟩ := h
    exact .object (ih.properties (by simp +arith) hvs)
  | call callee arguments =>
    cases callee with
    | member c object method =>
      by_cases hmap : method = "map"
      · subst hmap
        obtain ⟨head, body, p, input, L₁, L₂, ss, L₃, rfl, hp, hdepth, hinput, harray, hscope,
          hbody, rfl, rfl⟩ := lower_map h
        exact .map hp hdepth (ih.expr (by simp +arith) hinput) harray hscope
          (ih.statements (by simp +arith) hbody)
      · obtain ⟨spec, name, e, t, v, rfl, hobject, rfl, hspec, ht, hv, rfl⟩ | ⟨vs, hvs, hcall⟩ :=
          lower_call hmap h
        · exact .decode hobject hspec ht (ih.expr (by simp +arith) hv)
        · have hall := ih.all (by simp +arith) hvs
          obtain ⟨rfl, hmethod, hfree, rfl⟩ | ⟨t, ht, rfl⟩ := callOf_ok hcall
          · exact .validate hmethod hfree hall
          · exact .transform ht hall
    | _ => simp only [Expr.lower, LowerM.throw_ok] at h
  | new callee arguments => simp only [Expr.lower, LowerM.throw_ok] at h
  | function head body => simp only [Expr.lower, LowerM.throw_ok] at h
  | spread e => simp only [Expr.lower, LowerM.throw_ok] at h
  | other => simp only [Expr.lower, LowerM.throw_ok] at h

theorem lowersAll_step {es : List Expr} {L L' : Lower} {rs : List ValidationExpression}
    (ih : Follows (sizeOf es))
    (h : lowerAll es L = .ok (rs, L')) : LowersAll L es rs L' := by
  cases es with
  | nil =>
    simp only [lowerAll, LowerM.pure_ok, Prod.mk.injEq] at h
    obtain ⟨rfl, rfl⟩ := h
    exact .nil
  | cons e es =>
    simp only [lowerAll, LowerM.bind_ok, LowerM.pure_ok, Prod.mk.injEq] at h
    obtain ⟨_, _, hv, _, _, hvs, rfl, rfl⟩ := h
    exact .cons (ih.expr (by simp +arith) hv) (ih.all (by simp +arith) hvs)

theorem lowersProperties_step {ps : List (PropertyHead × Expr)} {before : List String}
    {L L' : Lower} {rs : List (String × ValidationExpression)}
    (ih : Follows (sizeOf ps))
    (h : lowerProperties ps before L = .ok (rs, L')) : LowersProperties L ps before rs L' := by
  match ps with
  | [] =>
    simp only [lowerProperties, LowerM.pure_ok, Prod.mk.injEq] at h
    obtain ⟨rfl, rfl⟩ := h
    exact .nil
  | (head, e) :: ps =>
    simp only [lowerProperties, LowerM.bind_ok, LowerM.ofExcept_ok, LowerM.pure_ok,
      Prod.mk.injEq] at h
    obtain ⟨_, _, ⟨hkey, rfl⟩, _, _, hv, _, _, hvs, rfl, rfl⟩ := h
    exact .cons hkey (ih.expr (by simp +arith) hv) (ih.properties (by simp +arith) hvs)

theorem lowersStatement_step {s : Stmt} {L L' : Lower} {ss : List ValidationStatement}
    (ih : Follows (sizeOf s))
    (h : s.lower L = .ok (ss, L')) : LowersStatement L s ss L' := by
  cases s with
  | variableDeclaration isVar declarations =>
    rw [Stmt.lower] at h
    exact .declaration (ih.declarations (by simp +arith) h)
  | ifStatement test consequent alternate =>
    cases alternate with
    | none =>
      simp only [Stmt.lower, LowerM.bind_ok, LowerM.pure_ok, Prod.mk.injEq] at h
      obtain ⟨_, _, hc, _, _, hy, rfl, rfl⟩ := h
      exact .ifThen (ih.expr (by simp +arith) hc) (ih.statement (by simp +arith) hy)
    | some alternate =>
      simp only [Stmt.lower, LowerM.bind_ok, LowerM.pure_ok, Prod.mk.injEq] at h
      obtain ⟨_, _, hc, _, _, hy, _, _, hn, rfl, rfl⟩ := h
      exact .ifElse (ih.expr (by simp +arith) hc) (ih.statement (by simp +arith) hy)
        (ih.statement (by simp +arith) hn)
  | blockStatement body =>
    rw [Stmt.lower] at h
    exact .block (ih.statements (by simp +arith) h)
  | returnStatement argument =>
    cases argument with
    | none => simp only [Stmt.lower, LowerM.throw_ok] at h
    | some e =>
      simp only [Stmt.lower, LowerM.bind_ok, LowerM.pure_ok, Prod.mk.injEq] at h
      obtain ⟨_, _, hv, rfl, rfl⟩ := h
      exact .return (ih.expr (by simp +arith) hv)
  | expressionStatement e =>
    simp only [Stmt.lower, LowerM.bind_ok, LowerM.pure_ok, Prod.mk.injEq] at h
    obtain ⟨_, _, hv, rfl, rfl⟩ := h
    exact .expression (ih.expr (by simp +arith) hv)
  | throwStatement argument =>
    obtain ⟨c, reporter, metric, context, c', error, message, m, L₁, x, rfl, hreporter, hm, hx,
      hcontext, herror, rfl⟩ := lower_throw h
    exact .fatal hreporter (ih.expr (by simp +arith) hm) (ih.expr (by simp +arith) hx) hcontext herror
  | other => simp only [Stmt.lower, LowerM.throw_ok] at h

theorem lowersStatements_step {body : List Stmt} {L L' : Lower}
    {ss : List ValidationStatement} (ih : Follows (sizeOf body))
    (h : lowerStatements body L = .ok (ss, L')) :
    LowersStatements L body ss L' := by
  cases body with
  | nil =>
    simp only [lowerStatements, LowerM.pure_ok, Prod.mk.injEq] at h
    obtain ⟨rfl, rfl⟩ := h
    exact .nil
  | cons s body =>
    simp only [lowerStatements, LowerM.bind_ok, LowerM.pure_ok, Prod.mk.injEq] at h
    obtain ⟨_, _, hs, _, _, hrest, rfl, rfl⟩ := h
    exact .cons (ih.statement (by simp +arith) hs) (ih.statements (by simp +arith) hrest)

theorem lowersDeclarations_step {isVar : Bool} {ds : List (Option String × Option Expr)}
    {L L' : Lower} {ss : List ValidationStatement}
    (ih : Follows (sizeOf ds))
    (h : lowerDeclarations isVar ds L = .ok (ss, L')) : LowersDeclarations L isVar ds ss L' := by
  match ds with
  | [] =>
    simp only [lowerDeclarations, LowerM.pure_ok, Prod.mk.injEq] at h
    obtain ⟨rfl, rfl⟩ := h
    exact .nil
  | (none, _) :: ds => simp only [lowerDeclarations, LowerM.throw_ok] at h
  | (some x, init) :: ds =>
    obtain ⟨rfl, slot, e, v, L₁, rest, hslot, rfl, hv, hrest, rfl⟩ := lower_declaration h
    exact .cons hslot (ih.expr (by simp +arith) hv) (ih.declarations (by simp +arith) hrest)

/-- **The walk follows the rules**, by induction on the size of what it walks. -/
theorem follows (n : ℕ) : Follows n := by
  induction n using Nat.strong_induction_on with
  | _ n ih =>
    exact ⟨fun hlt h => lowersExpr_step (ih _ hlt) h, fun hlt h => lowersAll_step (ih _ hlt) h,
      fun hlt h => lowersProperties_step (ih _ hlt) h,
      fun hlt h => lowersStatement_step (ih _ hlt) h,
      fun hlt h => lowersStatements_step (ih _ hlt) h,
      fun hlt h => lowersDeclarations_step (ih _ hlt) h⟩

theorem lowersStatements_of_lower {body : List Stmt} {L L' : Lower}
    {ss : List ValidationStatement} (h : lowerStatements body L = .ok (ss, L')) :
    LowersStatements L body ss L' :=
  (follows _).statements (Nat.lt_succ_self _) h

/-! ### The forms that are lowered -/

/-- The expression loads a module. -/
def Expr.loads : Expr → Bool
  | .parenthesized e => e.loads
  | .call (.identifier _) [.stringLiteral _] => true
  | _ => false

/-- The expression is a name. -/
def Expr.isName : Expr → Bool
  | .identifier _ => true
  | _ => false

/-- The functions of other modules that may be called. -/
def dependencyNames : List String :=
  ["numberOrThrowIfTooLarge", "maybeNumberOrThrowIfTooLarge", "toSyncKeyId"]

mutual

/-- The grammar of lowered expressions. -/
def Expr.accepted : Expr → Bool
  | .parenthesized e => e.accepted
  | .identifier _ => true
  | .nullLiteral => true
  | .numericLiteral n => n.integer.isSome
  | .stringLiteral _ => true
  | .unary .void (.numericLiteral _) => true
  | .unary .logicalNot e => e.accepted
  | .member false (.member c object property) _ =>
    property = "SyncdFatalErrorType" && object.loads || (Expr.member c object property).accepted
  | .member false object _ => object.accepted
  | .logical operator left right => operator ≠ .coalesce && left.accepted && right.accepted
  | .binary .equality left .nullLiteral => left.accepted
  | .binary .inequality left .nullLiteral => left.accepted
  | .binary .greaterThan left right => left.accepted && right.accepted
  | .conditional test consequent alternate =>
    test.accepted && consequent.accepted && alternate.accepted
  | .assignment isPlain target right => isPlain && target.isSome && right.accepted
  | .sequence expressions => acceptedAll expressions
  | .object properties => acceptedProperties properties
  | .call (.member _ object "map") [.function head body] =>
    head.callbackParameter.toBool && object.accepted && acceptedStatements body
  | .call (.member _ object method) arguments =>
    method = "decodeProtobuf" && object.loads && decodes arguments ||
      (method ∈ dependencyNames && object.loads ||
        method ∈ validatorNames && object.isName) && acceptedAll arguments
  | _ => false

/-- What to decode, and the bytes. -/
def decodes : List Expr → Bool
  | [.member false specification _, e] => specification.loads && e.accepted
  | _ => false

def acceptedAll : List Expr → Bool
  | [] => true
  | e :: es => e.accepted && acceptedAll es

def acceptedProperties : List (PropertyHead × Expr) → Bool
  | [] => true
  | (head, e) :: properties =>
    (head.lowerKey []).toBool && e.accepted && acceptedProperties properties

/-- The grammar of lowered statements. -/
def Stmt.accepted : Stmt → Bool
  | .variableDeclaration isVar declarations => acceptedDeclarations isVar declarations
  | .ifStatement test consequent none => test.accepted && consequent.accepted
  | .ifStatement test consequent (some alternate) =>
    test.accepted && consequent.accepted && alternate.accepted
  | .blockStatement body => acceptedStatements body
  | .returnStatement (some argument) => argument.accepted
  | .expressionStatement e => e.accepted
  | .throwStatement (.sequence [.call (.member _ reporter "reportSyncdFatalError")
        [metric, context], .new (.member _ error "SyncdFatalError") [.stringLiteral _]]) =>
    reporter.loads && metric.accepted && context.accepted && error.loads
  | _ => false

def acceptedStatements : List Stmt → Bool
  | [] => true
  | s :: ss => s.accepted && acceptedStatements ss

def acceptedDeclarations : Bool → List (Option String × Option Expr) → Bool
  | _, [] => true
  | isVar, (some _, some e) :: declarations =>
    isVar && e.accepted && acceptedDeclarations isVar declarations
  | _, _ => false

end

attribute [simp] Expr.accepted decodes acceptedAll acceptedProperties Stmt.accepted
  acceptedStatements acceptedDeclarations

section Accepted

variable {L : Lower}

/-- What is taken for a module loads one. -/
theorem Lower.module_loads {e : Expr} {name : String} (h : L.module e = some name) :
    e.loads = true := by
  fun_induction Lower.module L e with
  | case1 e ih => exact ih h
  | case2 f name hmem => rfl
  | case3 f name hnot => cases h
  | case4 e hparen hcall => cases h

/-- A key that is lowered after others is lowered alone. -/
theorem PropertyHead.lowerKey_toBool {head : PropertyHead} {before : List String} {key : String}
    (h : head.lowerKey before = .ok key) : (head.lowerKey []).toBool = true := by
  rw [lowerKey] at h ⊢
  split_ifs at h ⊢ with hspread hplain
  cases hkey : head.key with
  | none =>
    rw [hkey] at h
    cases h
  | some k =>
    simp only [hkey] at h ⊢
    split_ifs at h ⊢ with hproto hbefore
    · exact absurd ‹k ∈ []› List.not_mem_nil
    · rfl

theorem dependencyTransform_mem {object : Expr} {method : String} {t : ValidationTransform}
    (h : dependencyTransform (L.module object) method = some t) :
    method ∈ dependencyNames ∧ object.loads = true := by
  cases hmodule : L.module object with
  | none =>
    rw [hmodule, dependencyTransform.eq_def] at h
    cases h
  | some name =>
    refine ⟨?_, Lower.module_loads hmodule⟩
    rw [hmodule, dependencyTransform.eq_def] at h
    split at h
    · decide
    · decide
    · decide
    · decide
    · cases h

theorem not_map_of_mem_validatorNames {method : String} (h : method ∈ validatorNames) :
    method ≠ "map" := by
  rintro rfl
  exact absurd h (by decide)

theorem not_map_of_mem_dependencyNames {method : String} (h : method ∈ dependencyNames) :
    method ≠ "map" := by
  rintro rfl
  exact absurd h (by decide)

theorem Expr.accepted_member {object : Expr} {name : String}
    (h : object.accepted = true) : (Expr.member false object name).accepted = true := by
  cases object with
  | member c o property => rw [Expr.accepted, h, Bool.or_true]
  | _ => rw [Expr.accepted] <;> first | exact h | exact nofun

mutual

/-- **Only the forms of the grammar are lowered**, at every depth: what has another form anywhere
is refused as a whole. -/
theorem LowersExpr.accepted {L L' : Lower} {e : Expr} {r : ValidationExpression} :
    LowersExpr L e r L' → e.accepted = true
  | .parenthesized h => by rw [Expr.accepted, h.accepted]
  | .identifier _ => by rw [Expr.accepted]
  | .nullLiteral => by rw [Expr.accepted]
  | .numericLiteral hn => by rw [Expr.accepted, hn, Option.isSome_some]
  | .stringLiteral => by rw [Expr.accepted]
  | .void => by rw [Expr.accepted]
  | .logicalNot h => by rw [Expr.accepted, h.accepted]
  | .metric hmodule _ => by
    rw [Expr.accepted, Lower.module_loads hmodule, decide_eq_true rfl, Bool.true_and, Bool.true_or]
  | .field h _ => Expr.accepted_member h.accepted
  | .and h h' => by
    rw [Expr.accepted, h.accepted, h'.accepted]
    rfl
  | .or h h' => by
    rw [Expr.accepted, h.accepted, h'.accepted]
    rfl
  | .equality h => by rw [Expr.accepted, h.accepted]
  | .inequality h => by rw [Expr.accepted, h.accepted]
  | .greater h h' => by rw [Expr.accepted, h.accepted, h'.accepted, Bool.true_and]
  | .conditional h h' h'' => by
    rw [Expr.accepted, h.accepted, h'.accepted, h''.accepted]
    rfl
  | .assignment _ _ h => by
    rw [Expr.accepted, h.accepted]
    rfl
  | .sequence h => by rw [Expr.accepted, h.accepted]
  | .object h => by rw [Expr.accepted, h.accepted]
  | .map hhead _ h _ _ h' => by
    rw [Expr.accepted, hhead, h.accepted, h'.accepted]
    rfl
  | .decode hobject hspec _ h => by
    rw [Expr.accepted, decodes, Lower.module_loads hobject, Lower.module_loads hspec, h.accepted]
    · rfl
    · exact fun _ _ => nofun
  | .validate hmethod _ h => by
    rw [Expr.accepted, h.accepted]
    · simp only [hmethod, Expr.isName, decide_true, Bool.or_true, Bool.and_true]
    · exact fun _ _ _ hmap => not_map_of_mem_validatorNames hmethod hmap
  | .transform ht h => by
    obtain ⟨hmethod, hloads⟩ := dependencyTransform_mem ht
    rw [Expr.accepted, h.accepted, hloads]
    · simp only [hmethod, decide_true, Bool.true_and, Bool.true_or, Bool.or_true]
    · exact fun _ _ _ hmap => not_map_of_mem_dependencyNames hmethod hmap

theorem LowersAll.accepted {L L' : Lower} {es : List Expr} {rs : List ValidationExpression} :
    LowersAll L es rs L' → acceptedAll es = true
  | .nil => by rw [acceptedAll]
  | .cons h h' => by rw [acceptedAll, h.accepted, h'.accepted, Bool.true_and]

theorem LowersProperties.accepted {L L' : Lower} {ps : List (PropertyHead × Expr)}
    {before : List String} {rs : List (String × ValidationExpression)} :
    LowersProperties L ps before rs L' → acceptedProperties ps = true
  | .nil => by rw [acceptedProperties]
  | .cons hkey h h' => by
    rw [acceptedProperties, PropertyHead.lowerKey_toBool hkey, h.accepted, h'.accepted]
    rfl

theorem LowersStatement.accepted {L L' : Lower} {s : Stmt} {ss : List ValidationStatement} :
    LowersStatement L s ss L' → s.accepted = true
  | .declaration h => by rw [Stmt.accepted, h.accepted]
  | .ifElse h h' h'' => by
    rw [Stmt.accepted, h.accepted, h'.accepted, h''.accepted]
    rfl
  | .ifThen h h' => by rw [Stmt.accepted, h.accepted, h'.accepted, Bool.true_and]
  | .block h => by rw [Stmt.accepted, h.accepted]
  | .return h => by rw [Stmt.accepted, h.accepted]
  | .expression h => by rw [Stmt.accepted, h.accepted]
  | .fatal hreporter h h' _ herror => by
    rw [Stmt.accepted, Lower.module_loads hreporter, Lower.module_loads herror, h.accepted,
      h'.accepted]
    rfl

/-- **Only the statements of the grammar are lowered**, at every depth. -/
theorem LowersStatements.accepted {L L' : Lower} {body : List Stmt}
    {ss : List ValidationStatement} : LowersStatements L body ss L' →
      acceptedStatements body = true
  | .nil => by rw [acceptedStatements]
  | .cons h h' => by rw [acceptedStatements, h.accepted, h'.accepted, Bool.true_and]

theorem LowersDeclarations.accepted {L L' : Lower} {isVar : Bool}
    {ds : List (Option String × Option Expr)} {ss : List ValidationStatement} :
    LowersDeclarations L isVar ds ss L' → acceptedDeclarations isVar ds = true
  | .nil => by rw [acceptedDeclarations]
  | .cons _ h h' => by
    rw [acceptedDeclarations, h.accepted, h'.accepted]
    rfl

end

end Accepted

end Whatspec.Appstate

import Whatspec.Appstate.LowerSound

/-!
# A lowered method means the same

The rules of statements, and the whole method: a validator and the program lowered from it have
the same outcome, which is the value or the exit together with the calls made.

* `lowersExpr_simulates` and `lowersStatements_simulates` put the rules together;
* `lowerFunction_sound` is the result for a method;
* `Qualification.Fits` says which arguments are meant: the repeated field that a method maps over
  is no byte buffer.
-/

namespace Whatspec.Appstate

open Whatspec.Library Whatspec.Library.Comp

section Simulation

variable {W : World} {scope : ModuleScope} {L L₁ L₂ L₃ : Lower}

/-! ### Statements in sequence -/

theorem evaluateStatements_append (ss rest : List ValidationStatement) (env : ℕ → Value) :
    evaluateStatements W (ss ++ rest) env = evaluateStatements W ss env >>= fun returned =>
      match returned with
      | some v => pure (some v)
      | none => evaluateStatements W rest env := by
  induction ss with
  | nil => simp only [List.nil_append, evaluateStatements, pure_bind]
  | cons s ss ih =>
    rw [List.cons_append, evaluateStatements, evaluateStatements, bind_assoc]
    congr 1
    funext returned
    cases returned with
    | none => exact ih
    | some v => rfl

theorem evaluateStatements_singleton (s : ValidationStatement) (env : ℕ → Value) :
    evaluateStatements W [s] env = s.evaluated W env := by
  rw [evaluateStatements]
  refine Eq.trans ?_ (bind_pure _)
  congr 1
  funext returned
  cases returned with
  | none => rw [evaluateStatements]
  | some v => rfl

theorem simulates_statements_nil {avoids : String → Bool → Bool} {assigned : List String} :
    SimulatesStatements W scope L [] assigned avoids (runStatements W scope []) [] L := by
  intro hidden env rest snap pending hs hi ha ho
  rw [runStatements, evaluateStatements]
  exact .pure fun js ir h => ⟨rfl, h.kept, fun _ => h⟩

theorem simulates_statements_cons {s : Stmt} {body : List Stmt}
    {first rest : List ValidationStatement} (hfirst : LowersStatement L s first L₁)
    (h : SimulatesStatements W scope L s.bindingNames s.assignedNames
      (fun x b => s.avoids x b) (s.run W scope) first L₁)
    (h' : SimulatesStatements W scope L₁ (bindingNames body) (assignedNamesStatements body)
      (fun x b => avoidsStatements x b body) (runStatements W scope body) rest L₂) :
    SimulatesStatements W scope L (bindingNames (s :: body)) (assignedNamesStatements (s :: body))
      (fun x b => avoidsStatements x b (s :: body)) (runStatements W scope (s :: body))
      (first ++ rest) L₂ := by
  intro hidden env rest' snap pending hs hi ha ho
  simp only [assignedNamesStatements, avoidsStatements] at ha
  rw [bindingNames] at ho ⊢
  rw [List.append_assoc, runStatements, evaluateStatements_append]
  obtain ⟨hsame, hlearns⟩ := hfirst.same
  refine (h hs hi ha.left ho.left).bind fun v w => .of_fact ?_
  rintro rfl
  cases v with
  | some v => exact .pure fun js ir hpost => ⟨rfl, hpost.1, nofun⟩
  | none =>
    have hrest := @h' _ _ rest' snap pending
      (hsame.scoped hs (hlearns.arrays_lt hsame hs)) (hsame.arrayInput hi)
      (hsame.allows ha.right) (hsame.declaring ho.right)
    rw [hsame.floor] at hrest
    exact hrest.weaken (fun _ _ hP => hP.2 rfl) (fun _ _ _ _ hQ => hQ) fun _ _ _ _ hE => hE

/-! ### Declarations -/

/-- Learning that a slot holds what was just bound to it. -/
theorem Related.bindArray {hidden : String → Prop} {env : ℕ → Value} {rest : List Frame}
    {snap : ℕ → Value} {pending : List String} {js : Machine (List Frame)}
    {ir : Machine (ℕ → Value)} {x : String} {i : ℕ} {r : ValidationExpression}
    (hs : L.Scoped scope hidden) (h : Related L hidden env rest snap pending js ir)
    (hx : L.slotOf x = some i) (harray : L.ordinaryArray r = true → (ir.memory i).isBytes = false)
    (hpending : x ∈ pending → i ∈ L.mutable) :
    Related (L.bindArray i r) hidden env rest snap pending js ir := by
  rw [Lower.bindArray]
  split_ifs with hlearn
  · rw [Bool.and_eq_true] at hlearn
    refine ⟨h.calls, h.frames, h.bound, h.slots, h.arguments, h.outer, ?_, ?_⟩
    · intro j hj hmut
      rcases List.mem_cons.mp hj with rfl | hj
      · exact harray hlearn.2
      · exact h.arrays j hj hmut
    · intro y hy j hslot hmut
      obtain ⟨hundef, hnot⟩ := h.pending y hy j hslot hmut
      refine ⟨hundef, fun hj => ?_⟩
      rcases List.mem_cons.mp hj with rfl | hj
      · obtain rfl := hs.injective y x j hslot (Lower.slotOf_eq_some.mp hx)
        exact hmut (hpending hy)
      · exact hnot hj
  · exact h

theorem Lower.bindArray_scoped {hidden : String → Prop} {x : String} {i : ℕ}
    (hs : L.Scoped scope hidden) (hx : L.slotOf x = some i) (r : ValidationExpression) :
    (L.bindArray i r).Scoped scope hidden := by
  refine (L.bindArray_same i r).scoped hs fun j hj => ?_
  refine lt_of_lt_of_le ?_ (L.bindArray_same i r).slots
  rw [Lower.bindArray] at hj
  split_ifs at hj
  · rcases List.mem_cons.mp hj with rfl | hj
    · exact hs.slot_lt (Lower.slotOf_eq_some.mp hx)
    · exact hs.arrays j hj
  · exact hs.arrays j hj

theorem simulates_declarations_nil {isVar : Bool} {assigned : List String}
    {avoids : String → Bool → Bool} :
    SimulatesStatements W scope L [] assigned avoids
      (runDeclarations W scope isVar [] >>= fun _ => pure none) [] L := by
  intro hidden env rest snap pending hs hi ha ho
  rw [runDeclarations, evaluateStatements]
  exact .pure fun js ir h => ⟨rfl, h.kept, fun _ => h⟩

theorem simulates_declarations_cons {x : String} {slot : ℕ} {e : Expr}
    {r : ValidationExpression} {ds : List (Option String × Option Expr)}
    {ss : List ValidationStatement} (hslot : L.slotOf x = some slot) (he : LowersExpr L e r L₁)
    (h : SimulatesExpr W scope L e r L₁)
    (h' : SimulatesStatements W scope (L₁.bindArray slot r) (ds.filterMap Prod.fst)
      (assignedNamesDeclarations ds) (fun x b => avoidsDeclarations x b ds)
      (runDeclarations W scope true ds >>= fun _ => pure none) ss L₂) :
    SimulatesStatements W scope L (x :: ds.filterMap Prod.fst)
      (assignedNamesDeclarations ((some x, some e) :: ds))
      (fun x b => avoidsDeclarations x b ((some x, some e) :: ds))
      (runDeclarations W scope true ((some x, some e) :: ds) >>= fun _ => pure none)
      (.bind slot r :: ss) L₂ := by
  intro hidden env rest snap pending hs hi ha ho
  simp only [assignedNamesDeclarations, avoidsDeclarations] at ha
  have hsame := he.same.1
  have hslot₁ : L₁.slotOf x = some slot := hsame.slotOf ▸ hslot
  have hall := hsame.trans (L₁.bindArray_same slot r)
  have honce : x ∈ ds.filterMap Prod.fst ++ pending → slot ∈ L₁.mutable := by
    intro hx
    by_contra hmut
    have hcount := ho.once x slot hslot (hsame.mutable ▸ hmut)
    rw [List.cons_append, List.count_cons_self] at hcount
    have := List.count_pos_iff.mpr hx
    omega
  have hle : L₁.floor ≤ slot := hsame.floor ▸ ho.owns x List.mem_cons_self slot hslot
  have hrest := @h' hidden env rest snap pending
    (Lower.bindArray_scoped (he.scoped hs) hslot₁ r) (hall.arrayInput hi) (hall.allows ha.right)
    (hall.declaring (@Lower.Declaring.right L [x] _ _ ho))
  rw [hall.floor] at hrest
  simp only [runDeclarations, evaluateStatements, ValidationStatement.evaluated, if_true, bind_assoc,
    pure_bind]
  refine (h hs hi ha.left).bind fun v w => .of_fact ?_
  rintro ⟨rfl, hgives⟩
  refine (coupled_assign (he.scoped hs) hslot₁ hle (fun hx => absurd List.mem_cons_self hx)
    (fun y hy => List.mem_cons_of_mem _ hy) honce).bind fun _ _ => ?_
  refine hrest.weaken (fun js ir hP => ?_) (fun _ _ _ _ hQ => hQ) fun _ _ _ _ hE => hE
  obtain ⟨hmem, hrel⟩ := hP
  exact hrel.bindArray (he.scoped hs) hslot₁ (fun hr => hmem ▸ hgives.array hr) honce

theorem simulates_declaration {isVar : Bool} {ds : List (Option String × Option Expr)}
    {ss : List ValidationStatement}
    (h : SimulatesStatements W scope L (ds.filterMap Prod.fst) (assignedNamesDeclarations ds)
      (fun x b => avoidsDeclarations x b ds)
      (runDeclarations W scope isVar ds >>= fun _ => pure none) ss L₁) :
    SimulatesStatements W scope L (Stmt.variableDeclaration isVar ds).bindingNames
      (Stmt.variableDeclaration isVar ds).assignedNames
      (fun x b => (Stmt.variableDeclaration isVar ds).avoids x b)
      ((Stmt.variableDeclaration isVar ds).run W scope) ss L₁ := by
  intro hidden env rest snap pending hs hi ha ho
  simp only [Stmt.assignedNames, Stmt.avoids] at ha
  rw [Stmt.bindingNames] at ho ⊢
  rw [Stmt.run]
  exact h hs hi ha ho

/-! ### Branches and blocks -/

/-- The statement of what a branch comes to, with what the other branch declares passed over. -/
theorem simulates_ifElse {test : Expr} {c : ValidationExpression} {consequent alternate : Stmt}
    {yes no : List ValidationStatement} (htest : LowersExpr L test c L₁)
    (hyes : LowersStatement L₁ consequent yes L₂) (hno : LowersStatement L₂ alternate no L₃)
    (h : SimulatesExpr W scope L test c L₁)
    (h' : SimulatesStatements W scope L₁ consequent.bindingNames consequent.assignedNames
      (fun x b => consequent.avoids x b) (consequent.run W scope) yes L₂)
    (h'' : SimulatesStatements W scope L₂ alternate.bindingNames alternate.assignedNames
      (fun x b => alternate.avoids x b) (alternate.run W scope) no L₃) :
    SimulatesStatements W scope L
      (Stmt.ifStatement test consequent (some alternate)).bindingNames
      (Stmt.ifStatement test consequent (some alternate)).assignedNames
      (fun x b => (Stmt.ifStatement test consequent (some alternate)).avoids x b)
      ((Stmt.ifStatement test consequent (some alternate)).run W scope) [.if c yes no] L₃ := by
  intro hidden env rest snap pending hs hi ha ho
  simp only [Stmt.assignedNames, Stmt.avoids] at ha
  rw [Stmt.bindingNames] at ho ⊢
  obtain ⟨hsame', hlearns'⟩ := hyes.same
  obtain ⟨hsame'', hlearns''⟩ := hno.same
  have hsame := htest.same.1
  have hs₁ := htest.scoped hs
  have hs₂ := hsame'.scoped hs₁ (hlearns'.arrays_lt hsame' hs₁)
  have ho₁ := hsame.declaring ho
  have hfloor := hsame.floor
  rw [List.append_assoc, Stmt.run, evaluateStatements_singleton, ValidationStatement.evaluated]
  refine (h hs hi ha.left.left).bind fun v w => .of_fact ?_
  rintro ⟨rfl, -⟩
  by_cases htruthy : v.truthy = true
  · rw [if_pos htruthy, if_pos htruthy]
    have hbranch := @h' hidden env rest snap (alternate.bindingNames ++ pending) hs₁
      (hsame.arrayInput hi) (hsame.allows ha.left.right) ho₁.left
    rw [hfloor] at hbranch
    refine hbranch.weaken (fun _ _ hP => hP) (fun v w js ir hQ => ?_) fun _ _ _ _ hE => hE
    exact ⟨hQ.1, hQ.2.1, fun hv => (hQ.2.2 hv).skip hsame'' hlearns''
      (hsame'.declaring ho₁.right).apart hs₂⟩
  · rw [if_neg htruthy, if_neg htruthy]
    have hbranch := @h'' hidden env rest snap pending hs₂
      ((hsame.trans hsame').arrayInput hi) ((hsame.trans hsame').allows ha.right)
      (hsame'.declaring ho₁.right)
    rw [hsame'.floor, hfloor] at hbranch
    exact hbranch.weaken (fun js ir hP => hP.skip hsame' hlearns' ho₁.left.apart hs₁)
      (fun _ _ _ _ hQ => hQ) fun _ _ _ _ hE => hE

theorem simulates_ifThen {test : Expr} {c : ValidationExpression} {consequent : Stmt}
    {yes : List ValidationStatement} (htest : LowersExpr L test c L₁)
    (hyes : LowersStatement L₁ consequent yes L₂) (h : SimulatesExpr W scope L test c L₁)
    (h' : SimulatesStatements W scope L₁ consequent.bindingNames consequent.assignedNames
      (fun x b => consequent.avoids x b) (consequent.run W scope) yes L₂) :
    SimulatesStatements W scope L (Stmt.ifStatement test consequent none).bindingNames
      (Stmt.ifStatement test consequent none).assignedNames
      (fun x b => (Stmt.ifStatement test consequent none).avoids x b)
      ((Stmt.ifStatement test consequent none).run W scope) [.if c yes []] L₂ := by
  intro hidden env rest snap pending hs hi ha ho
  simp only [Stmt.assignedNames, Stmt.avoids] at ha
  rw [Stmt.bindingNames] at ho ⊢
  obtain ⟨hsame', hlearns'⟩ := hyes.same
  have hsame := htest.same.1
  have ho₁ := hsame.declaring ho
  rw [Stmt.run, evaluateStatements_singleton, ValidationStatement.evaluated]
  refine (h hs hi ha.left).bind fun v w => .of_fact ?_
  rintro ⟨rfl, -⟩
  by_cases htruthy : v.truthy = true
  · rw [if_pos htruthy, if_pos htruthy]
    have hbranch := @h' hidden env rest snap pending (htest.scoped hs) (hsame.arrayInput hi)
      (hsame.allows ha.right) ho₁
    rwa [hsame.floor] at hbranch
  · rw [if_neg htruthy, if_neg htruthy, evaluateStatements]
    refine .pure fun js ir hrel => ⟨rfl, hsame.floor ▸ hrel.kept, fun _ => ?_⟩
    exact hrel.skip hsame' hlearns' ho₁.apart (htest.scoped hs)

theorem simulates_block {body : List Stmt} {ss : List ValidationStatement}
    (h : SimulatesStatements W scope L (bindingNames body) (assignedNamesStatements body)
      (fun x b => avoidsStatements x b body) (runStatements W scope body) ss L₁) :
    SimulatesStatements W scope L (Stmt.blockStatement body).bindingNames
      (Stmt.blockStatement body).assignedNames (fun x b => (Stmt.blockStatement body).avoids x b)
      ((Stmt.blockStatement body).run W scope) ss L₁ := by
  intro hidden env rest snap pending hs hi ha ho
  simp only [Stmt.assignedNames, Stmt.avoids] at ha
  rw [Stmt.bindingNames] at ho ⊢
  rw [Stmt.run]
  exact h hs hi ha ho

theorem simulates_return {e : Expr} {r : ValidationExpression} (he : LowersExpr L e r L₁)
    (h : SimulatesExpr W scope L e r L₁) :
    SimulatesStatements W scope L (Stmt.returnStatement (some e)).bindingNames
      (Stmt.returnStatement (some e)).assignedNames
      (fun x b => (Stmt.returnStatement (some e)).avoids x b)
      ((Stmt.returnStatement (some e)).run W scope) [.return r] L₁ := by
  intro hidden env rest snap pending hs hi ha ho
  simp only [Stmt.assignedNames, Stmt.avoids] at ha
  rw [Stmt.bindingNames, Stmt.run, evaluateStatements_singleton, ValidationStatement.evaluated]
  · refine (h hs hi ha).bind fun v w => .of_fact ?_
    rintro ⟨rfl, -⟩
    exact .pure fun js ir hrel => ⟨rfl, he.same.1.floor ▸ hrel.kept, nofun⟩
  all_goals exact nofun

theorem simulates_expression {e : Expr} {r : ValidationExpression} (he : LowersExpr L e r L₁)
    (h : SimulatesExpr W scope L e r L₁) :
    SimulatesStatements W scope L (Stmt.expressionStatement e).bindingNames
      (Stmt.expressionStatement e).assignedNames
      (fun x b => (Stmt.expressionStatement e).avoids x b)
      ((Stmt.expressionStatement e).run W scope) [.evaluate r] L₁ := by
  intro hidden env rest snap pending hs hi ha ho
  simp only [Stmt.assignedNames, Stmt.avoids] at ha
  rw [Stmt.bindingNames, Stmt.run, evaluateStatements_singleton, ValidationStatement.evaluated]
  · refine (h hs hi ha).bind fun v w => .of_fact ?_
    rintro ⟨rfl, -⟩
    exact .pure fun js ir hrel => ⟨rfl, he.same.1.floor ▸ hrel.kept, fun _ => hrel⟩
  all_goals exact nofun

/-! ### Fatal errors -/

theorem Lower.Same.module (h : L.Same L₁) (e : Expr) : L₁.module e = L.module e := by
  fun_induction Lower.module L e with
  | case1 e ih =>
    rw [Lower.module]
    exact ih
  | case2 f name hmem => rw [Lower.module, h.requires, h.locals, if_pos hmem]
  | case3 f name hnot => rw [Lower.module, h.requires, h.locals, if_neg hnot]
  | case4 e hparen hcall =>
    rw [Lower.module]
    · exact hparen
    · exact hcall

theorem reportingContext_ok {r : ValidationExpression} (h : reportingContext r = true) :
    r = .object [("collection", .argument 0)] := by
  rw [reportingContext.eq_def] at h
  split at h
  · rfl
  · cases h

theorem simulates_fatal {c c' : Bool} {reporter metric context error : Expr}
    {m x : ValidationExpression} {message : String}
    (hreporter : L.module reporter = some metricModule) (hmetric : LowersExpr L metric m L₁)
    (hcontext : LowersExpr L₁ context x L₂) (hx : reportingContext x = true)
    (herror : L₂.module error = some "WAWebSyncdError") (h : SimulatesExpr W scope L metric m L₁)
    (h' : SimulatesExpr W scope L₁ context x L₂) :
    SimulatesStatements W scope L
      (Stmt.throwStatement (.sequence
        [.call (.member c reporter "reportSyncdFatalError") [metric, context],
          .new (.member c' error "SyncdFatalError") [.stringLiteral message]])).bindingNames
      (Stmt.throwStatement (.sequence
        [.call (.member c reporter "reportSyncdFatalError") [metric, context],
          .new (.member c' error "SyncdFatalError") [.stringLiteral message]])).assignedNames
      (fun y b => (Stmt.throwStatement (.sequence
        [.call (.member c reporter "reportSyncdFatalError") [metric, context],
          .new (.member c' error "SyncdFatalError") [.stringLiteral message]])).avoids y b)
      ((Stmt.throwStatement (.sequence
        [.call (.member c reporter "reportSyncdFatalError") [metric, context],
          .new (.member c' error "SyncdFatalError") [.stringLiteral message]])).run W scope)
      [.fatal m message] L₂ := by
  intro hidden env rest snap pending hs hi ha ho js ir hrel
  simp only [Stmt.assignedNames, Stmt.avoids, Expr.assignedNames, Expr.avoids, assignedNamesAll,
    avoidsAll, Bool.and_true, List.append_nil] at ha
  have hsame := hmetric.same.1
  rw [hcontext.same.1.module, hsame.module] at herror
  have hloaded : loaded scope js.memory reporter = some metricModule ∧
      loaded scope js.memory error = some "WAWebSyncdError" :=
    ⟨(hrel.module_eq hs reporter).trans hreporter, (hrel.module_eq hs error).trans herror⟩
  obtain rfl := reportingContext_ok hx
  have hevaluate : evaluateStatements W [.fatal m message] env = m.evaluate W env >>= fun v =>
      (ValidationExpression.object [("collection", .argument 0)]).evaluate W env >>= fun w =>
        throw (.fatal v w message) := by
    rw [evaluateStatements_singleton, ValidationStatement.evaluated]
    rfl
  have hbody := ha.left.right
  rw [hevaluate, Stmt.run, bind_apply, get_apply]
  · simp only [hloaded, and_self, if_true]
    refine Coupled.bind (h hs hi hbody.left) (fun v w => .of_fact ?_) js ir hrel
    rintro ⟨rfl, -⟩
    refine (h' (hmetric.scoped hs) (hsame.arrayInput hi) (hsame.allows hbody.right)).bind
      fun v' w' => .of_fact ?_
    rintro ⟨rfl, -⟩
    exact .throw fun js ir hrel => ⟨rfl, hrel.calls⟩

/-! ### The rules together -/

theorem simulates_literal (e : Expr) (r : ValidationExpression) {v : Value}
    (he : e.run W scope = pure v) (hr : ∀ env, r.evaluate W env = pure v)
    (harray : L.ordinaryArray r = false) (hown : ∀ name, r.hasOwn name = false)
    (hargument : ∀ i, r ≠ .argument i) : SimulatesExpr W scope L e r L :=
  simulates_pure he hr fun _ => .plain harray hown hargument

theorem simulates_or {left right : Expr} {r r' : ValidationExpression}
    (hleft : LowersExpr L left r L₁) (hright : LowersExpr L₁ right r' L₂)
    (h : SimulatesExpr W scope L left r L₁) (h' : SimulatesExpr W scope L₁ right r' L₂) :
    SimulatesExpr W scope L (.logical .or left right) (.or r r') L₂ := by
  refine @simulates_branch W scope L L₁ L₂ (.logical .or left right) left right (.or r r') r r'
    (fun v => !v.truthy) ?_ ?_ ?_ ?_ ?_
    hleft hright h h'
  · rw [Expr.run]
    congr 1
    funext v
    cases v.truthy <;> rfl
  · intro env
    rw [ValidationExpression.evaluate]
    congr 1
    funext v
    cases v.truthy <;> rfl
  · rw [Expr.assignedNames]
  · intro x b
    rw [Expr.avoids]
  · exact fun _ _ => .plain rfl (fun _ => rfl) nofun

theorem simulates_and {left right : Expr} {r r' : ValidationExpression}
    (hleft : LowersExpr L left r L₁) (hright : LowersExpr L₁ right r' L₂)
    (h : SimulatesExpr W scope L left r L₁) (h' : SimulatesExpr W scope L₁ right r' L₂) :
    SimulatesExpr W scope L (.logical .and left right) (.and r r') L₂ := by
  refine @simulates_branch W scope L L₁ L₂ (.logical .and left right) left right (.and r r') r r'
    Value.truthy ?_ ?_ ?_ ?_ ?_
    hleft hright h h'
  · rw [Expr.run]
  · intro env
    rw [ValidationExpression.evaluate]
  · rw [Expr.assignedNames]
  · intro x b
    rw [Expr.avoids]
  · exact fun _ _ => .plain rfl (fun _ => rfl) nofun

theorem simulates_logicalNot {e : Expr} {r : ValidationExpression}
    (h : SimulatesExpr W scope L e r L₁) :
    SimulatesExpr W scope L (.unary .logicalNot e) (.not r) L₁ := by
  refine @simulates_map W scope L L₁ e _ r (.not r) (fun v => .bool !v.truthy) ?_ ?_ ?_ ?_
    (fun _ _ => .plain rfl (fun _ => rfl) nofun) h
  · rw [Expr.run]
  · intro env
    rw [ValidationExpression.evaluate]
  · rw [Expr.assignedNames]
  · intro x b
    rw [Expr.avoids]

theorem simulates_equality {e : Expr} {r : ValidationExpression}
    (h : SimulatesExpr W scope L e r L₁) :
    SimulatesExpr W scope L (.binary .equality e .nullLiteral) (.nullish r false) L₁ := by
  refine @simulates_map W scope L L₁ e _ r (.nullish r false) (fun v => .bool v.nullish) ?_ ?_
    ?_ ?_ (fun _ _ => .plain rfl (fun _ => rfl) nofun) h
  · rw [Expr.run]
  · intro env
    simp only [ValidationExpression.evaluate, Bool.bne_false]
  · simp only [Expr.assignedNames, List.append_nil]
  · intro x b
    simp only [Expr.avoids, Bool.and_true]

theorem simulates_inequality {e : Expr} {r : ValidationExpression}
    (h : SimulatesExpr W scope L e r L₁) :
    SimulatesExpr W scope L (.binary .inequality e .nullLiteral) (.nullish r true) L₁ := by
  refine @simulates_map W scope L L₁ e _ r (.nullish r true) (fun v => .bool !v.nullish) ?_ ?_
    ?_ ?_ (fun _ _ => .plain rfl (fun _ => rfl) nofun) h
  · rw [Expr.run]
  · intro env
    simp only [ValidationExpression.evaluate, Bool.bne_true]
  · simp only [Expr.assignedNames, List.append_nil]
  · intro x b
    simp only [Expr.avoids, Bool.and_true]

mutual

/-- **What an expression is lowered to means the same**, by induction on how it was lowered. -/
theorem lowersExpr_simulates (hW : W.Qualified) {L L' : Lower} {e : Expr}
    {r : ValidationExpression} : LowersExpr L e r L' → SimulatesExpr W scope L e r L'
  | .parenthesized h => simulates_parenthesized (lowersExpr_simulates hW h)
  | .identifier hx => simulates_identifier hx
  | .nullLiteral =>
    simulates_literal .nullLiteral .null (by rw [Expr.run])
      (fun _ => by rw [ValidationExpression.evaluate]) rfl (fun _ => rfl) nofun
  | @LowersExpr.numericLiteral _ n k hn =>
    simulates_literal (.numericLiteral n) (.integer k) (by rw [Expr.run])
      (fun _ => by rw [ValidationExpression.evaluate, NumericLiteral.ofInt_integer hn]) rfl
      (fun _ => rfl) nofun
  | @LowersExpr.stringLiteral _ s =>
    simulates_literal (.stringLiteral s) (.string s) (by rw [Expr.run])
      (fun _ => by rw [ValidationExpression.evaluate]) rfl (fun _ => rfl) nofun
  | @LowersExpr.void _ n =>
    simulates_literal (.unary .void (.numericLiteral n)) .undefined
      (by rw [Expr.run, Expr.run, Comp.pure_bind])
      (fun _ => by rw [ValidationExpression.evaluate]) rfl (fun _ => rfl) nofun
  | .logicalNot h => simulates_logicalNot (lowersExpr_simulates hW h)
  | .metric hmodule hname => simulates_metric hW hmodule hname
  | .field h hf => simulates_field hW h hf (lowersExpr_simulates hW h)
  | .and h h' => simulates_and h h' (lowersExpr_simulates hW h) (lowersExpr_simulates hW h')
  | .or h h' => simulates_or h h' (lowersExpr_simulates hW h) (lowersExpr_simulates hW h')
  | .equality h => simulates_equality (lowersExpr_simulates hW h)
  | .inequality h => simulates_inequality (lowersExpr_simulates hW h)
  | .greater h h' => simulates_greater h (lowersExpr_simulates hW h) (lowersExpr_simulates hW h')
  | .conditional h h' h'' =>
    simulates_conditional h h' h'' (lowersExpr_simulates hW h) (lowersExpr_simulates hW h')
      (lowersExpr_simulates hW h'')
  | .assignment hslot hfloor h => simulates_assignment hslot hfloor h (lowersExpr_simulates hW h)
  | .sequence h => simulates_sequence (lowersAll_simulates hW h)
  | .object h => simulates_object (lowersProperties_simulates hW h)
  | .map hhead hdepth h harray hscope h' =>
    simulates_map_callback hhead hdepth h harray hscope h' (lowersExpr_simulates hW h)
      (lowersStatements_simulates hW h')
  | .decode hobject hspec ht h => simulates_decode hobject hspec ht (lowersExpr_simulates hW h)
  | .validate hmethod hfree h => simulates_validate hmethod hfree (lowersAll_simulates hW h)
  | .transform ht h => simulates_transform ht (lowersAll_simulates hW h)

theorem lowersAll_simulates (hW : W.Qualified) {L L' : Lower} {es : List Expr}
    {rs : List ValidationExpression} : LowersAll L es rs L' → SimulatesAll W scope L es rs L'
  | .nil => simulates_nil
  | .cons h h' => simulates_cons h (lowersExpr_simulates hW h) (lowersAll_simulates hW h')

theorem lowersProperties_simulates (hW : W.Qualified) {L L' : Lower}
    {ps : List (PropertyHead × Expr)} {before : List String}
    {rs : List (String × ValidationExpression)} :
    LowersProperties L ps before rs L' → SimulatesProperties W scope L ps rs L'
  | .nil => simulates_properties_nil
  | .cons hkey h h' =>
    simulates_properties_cons hkey h h' (lowersExpr_simulates hW h)
      (lowersProperties_simulates hW h')

theorem lowersStatement_simulates (hW : W.Qualified) {L L' : Lower} {s : Stmt}
    {ss : List ValidationStatement} :
    LowersStatement L s ss L' → SimulatesStatements W scope L s.bindingNames s.assignedNames
      (fun x b => s.avoids x b) (s.run W scope) ss L'
  | .declaration h => simulates_declaration (lowersDeclarations_simulates hW h)
  | .ifElse h h' h'' =>
    simulates_ifElse h h' h'' (lowersExpr_simulates hW h) (lowersStatement_simulates hW h')
      (lowersStatement_simulates hW h'')
  | .ifThen h h' =>
    simulates_ifThen h h' (lowersExpr_simulates hW h) (lowersStatement_simulates hW h')
  | .block h => simulates_block (lowersStatements_simulates hW h)
  | .return h => simulates_return h (lowersExpr_simulates hW h)
  | .expression h => simulates_expression h (lowersExpr_simulates hW h)
  | .fatal hreporter h h' hx herror =>
    simulates_fatal hreporter h h' hx herror (lowersExpr_simulates hW h)
      (lowersExpr_simulates hW h')

/-- **What statements are lowered to means the same.** -/
theorem lowersStatements_simulates (hW : W.Qualified) {L L' : Lower} {body : List Stmt}
    {ss : List ValidationStatement} :
    LowersStatements L body ss L' → SimulatesStatements W scope L (bindingNames body)
      (assignedNamesStatements body) (fun x b => avoidsStatements x b body)
      (runStatements W scope body) ss L'
  | .nil => simulates_statements_nil
  | .cons h h' =>
    simulates_statements_cons h (lowersStatement_simulates hW h)
      (lowersStatements_simulates hW h')

theorem lowersDeclarations_simulates (hW : W.Qualified) {L L' : Lower} {isVar : Bool}
    {ds : List (Option String × Option Expr)} {ss : List ValidationStatement} :
    LowersDeclarations L isVar ds ss L' → SimulatesStatements W scope L (ds.filterMap Prod.fst)
      (assignedNamesDeclarations ds) (fun x b => avoidsDeclarations x b ds)
      (runDeclarations W scope isVar ds >>= fun _ => pure none) ss L'
  | .nil => simulates_declarations_nil
  | .cons hslot h h' =>
    simulates_declarations_cons hslot h (lowersExpr_simulates hW h)
      (lowersDeclarations_simulates hW h')

end

end Simulation

/-! ### Methods -/

/-- What binding parameters does: each name is the argument at its last place. -/
theorem bindParameters_ok {ps : List Parameter} {index : ℕ} {L L' : Lower}
    (h : bindParameters L index ps = .ok L') :
    (ps.all fun p => p.name.isSome && !p.hasInitializer) = true ∧
      L' = { L with locals := L'.locals } ∧
      ∀ x, L'.locals x = match lastIndex x (ps.map Parameter.name) with
        | some i => some (.argument (index + i))
        | none => L.locals x := by
  induction ps generalizing index L with
  | nil =>
    obtain rfl := Except.ok.inj h
    exact ⟨rfl, rfl, fun _ => rfl⟩
  | cons p ps ih =>
    rw [bindParameters] at h
    split_ifs at h with hinit
    cases hname : p.name with
    | none => simp only [hname, reduceCtorEq] at h
    | some name =>
      simp only [hname] at h
      obtain ⟨hall, hrest, hlocals⟩ := ih h
      refine ⟨?_, by rw [hrest]; rfl, fun x => ?_⟩
      · rw [List.all_cons, hall, hname, Bool.not_eq_true] at *
        rw [hinit]
        rfl
      · rw [hlocals, List.map_cons, lastIndex]
        cases lastIndex x (ps.map Parameter.name) with
        | some i =>
          show some (ValidationExpression.argument (index + 1 + i)) =
            some (.argument (index + (i + 1)))
          rw [Nat.add_assoc, Nat.add_comm 1 i]
        | none =>
          show Function.update L.locals name (some (.argument index)) x = _
          by_cases hx : p.name = some x
          · obtain rfl : name = x := Option.some.inj (hname.symm.trans hx)
            rw [Function.update_self]
            simp only [hname, if_true, Nat.add_zero]
          · rw [Function.update_of_ne fun hxn => hx (by rw [hname, hxn])]
            simp only [if_neg hx]

/-- The repeated field, or the argument, that a method maps over is no byte buffer. -/
structure Qualification.Fits (q : Qualification) (arguments : ℕ → Value) : Prop where
  field : ∀ f, q.arrayField = some f → ∀ v, (arguments 1).field f = .ok v → v.isBytes = false
  argument : q.arrayArgument = true → (arguments 1).isBytes = false

/-- No callback reads the fourth parameter. -/
def JsFunction.AvoidsFourth (f : JsFunction) : Prop :=
  ∀ x, lastIndex x f.head.names = some 3 → avoidsStatements x false f.body = true

/-- What a lowered method says of its parts. -/
theorem lowerFunction_ok {q : Qualification} {f : JsFunction} {g : ValidationFunction}
    (h : lowerFunction q f = .ok g) :
    f.head.isPlain = true ∧ g.parameters = f.head.parameters.length ∧ ∃ L₁ L₂ L₃,
      L₁ = { L₁ with
        mapDepth := 0, mapFloor := 0, slots := 0, receiver := q.scope.receiver
        requires := q.scope.loaders, arrayField := q.arrayField
        arrayArgument := q.arrayArgument, arrays := [], mutable := [] } ∧
      (∀ x, L₁.locals x = (lastIndex x f.head.names).map .argument) ∧
      Lower.Enters f.body L₁ L₂ ∧ LowersStatements L₂ f.body g.body L₃ := by
  rw [lowerFunction] at h
  split_ifs at h with hnamed hkind
  obtain ⟨L₁, hbind, h⟩ := bind_eq_ok.mp h
  obtain ⟨L₂, hscope, h⟩ := bind_eq_ok.mp h
  obtain ⟨⟨ss, L₃⟩, hbody, h⟩ := bind_eq_ok.mp h
  obtain rfl := Except.ok.inj h
  obtain ⟨hall, hrest, hlocals⟩ := bindParameters_ok hbind
  refine ⟨?_, rfl, L₁, L₂, L₃, by rw [hrest], fun x => ?_, Lower.declareScope_enters hscope,
    lowersStatements_of_lower hbody⟩
  · simp only [Bool.or_eq_true, not_or, Bool.not_eq_true] at hnamed hkind
    rw [FunctionHead.isPlain, hall, hnamed, hkind.1.1, hkind.1.2, hkind.2]
    rfl
  · rw [hlocals, FunctionHead.names]
    cases lastIndex x (f.head.parameters.map Parameter.name) with
    | none => rfl
    | some i =>
      show some (ValidationExpression.argument (0 + i)) = some (.argument i)
      rw [Nat.zero_add]

section Methods

variable {q : Qualification} {f : JsFunction} {arguments : ℕ → Value} {L₁ L₂ : Lower}

/-- The names that a method begins with. -/
theorem enters_scoped
    (hrest : L₁ = { L₁ with
      mapDepth := 0, mapFloor := 0, slots := 0, receiver := q.scope.receiver
      requires := q.scope.loaders, arrayField := q.arrayField
      arrayArgument := q.arrayArgument, arrays := [], mutable := [] })
    (hlocals : ∀ x, L₁.locals x = (lastIndex x f.head.names).map .argument)
    (henter : Lower.Enters f.body L₁ L₂) :
    L₂.Scoped q.scope fun x => lastIndex x f.head.names = some 3 := by
  have hother : ∀ {x e}, x ∉ bindingNames f.body → L₂.locals x = some e →
      ∃ i, lastIndex x f.head.names = some i ∧ e = .argument i := by
    intro x e hx he
    rw [henter.other x hx, hlocals] at he
    obtain ⟨i, hi, rfl⟩ := Option.map_eq_some_iff.mp he
    exact ⟨i, hi, rfl⟩
  have hmem : ∀ {x i}, L₂.locals x = some (.slot i) → x ∈ bindingNames f.body := by
    intro x i hx
    by_contra hnot
    obtain ⟨j, -, hj⟩ := hother hnot hx
    cases hj
  refine ⟨?_, ?_, fun x e he => ?_, fun x y i hx hy => ?_, fun i hi => ?_, fun _ x hx => ?_⟩
  · rw [henter.rest, hrest]
  · rw [henter.rest, hrest]
  · by_cases hx : x ∈ bindingNames f.body
    · obtain ⟨i, hi, -, hlt⟩ := henter.fresh x hx
      exact .inl ⟨i, Option.some.inj (he.symm.trans hi), hlt⟩
    · obtain ⟨i, -, rfl⟩ := hother hx he
      exact .inr ⟨i, rfl⟩
  · exact henter.injective x (hmem hx) y (hmem hy) (hx.trans hy.symm)
  · rw [henter.rest, hrest] at hi
    cases hi
  · by_cases hmem : x ∈ bindingNames f.body
    · obtain ⟨i, hi, -, -⟩ := henter.fresh x hmem
      rw [hi] at hx
      cases hx
    · obtain ⟨i, hi, he⟩ := hother hmem hx
      obtain rfl := ValidationExpression.argument.inj he
      exact hi

/-- The states that a method and its program begin in. -/
theorem enters_related
    (hrest : L₁ = { L₁ with
      mapDepth := 0, mapFloor := 0, slots := 0, receiver := q.scope.receiver
      requires := q.scope.loaders, arrayField := q.arrayField
      arrayArgument := q.arrayArgument, arrays := [], mutable := [] })
    (hlocals : ∀ x, L₁.locals x = (lastIndex x f.head.names).map .argument)
    (henter : Lower.Enters f.body L₁ L₂) :
    Related L₂ (fun x => lastIndex x f.head.names = some 3) arguments [] (fun _ => .undefined)
      (bindingNames f.body ++ [])
      ⟨[enterFrame f.head.names (bindingNames f.body) arguments], []⟩
      ⟨fun _ => .undefined, []⟩ := by
  have hslot : ∀ {x}, x ∈ bindingNames f.body → lastIndex x f.head.names = none := by
    intro x hx
    cases hi : lastIndex x f.head.names with
    | none => rfl
    | some i => exact absurd (by rw [hlocals, hi]; rfl) (henter.noArgument x hx i)
  have hframe : ∀ x, lookupName x [enterFrame f.head.names (bindingNames f.body) arguments] =
      enterFrame f.head.names (bindingNames f.body) arguments x := by
    intro x
    rw [lookupName]
    cases enterFrame f.head.names (bindingNames f.body) arguments x <;> rfl
  have hdeclared : ∀ {x}, x ∈ bindingNames f.body →
      enterFrame f.head.names (bindingNames f.body) arguments x = some .undefined := by
    intro x hx
    rw [enterFrame, hslot hx]
    exact if_pos hx
  have hother : ∀ {x}, x ∉ bindingNames f.body →
      enterFrame f.head.names (bindingNames f.body) arguments x =
        (lastIndex x f.head.names).map arguments := by
    intro x hx
    rw [enterFrame]
    cases lastIndex x f.head.names with
    | none => exact if_neg hx
    | some i => rfl
  have hmem : ∀ {x i}, L₂.locals x = some (.slot i) → x ∈ bindingNames f.body := by
    intro x i hx
    by_contra hnot
    rw [henter.other x hnot, hlocals] at hx
    obtain ⟨j, -, hj⟩ := Option.map_eq_some_iff.mp hx
    cases hj
  have harrays : L₂.arrays = [] := by rw [henter.rest, hrest]
  refine ⟨rfl, ⟨_, rfl, fun x i hx _ => ?_⟩, fun x => ?_, fun x i hx => ?_, fun x i hx _ => ?_,
    fun _ _ => rfl, fun i hi => ?_, fun x hx i hi _ => ⟨rfl, fun hi => ?_⟩⟩
  · rw [hdeclared (hmem hx)]
    rfl
  · rw [hframe]
    by_cases hx : x ∈ bindingNames f.body
    · obtain ⟨i, hi, -, -⟩ := henter.fresh x hx
      rw [hdeclared hx, hi]
      exact ⟨by simp, by simp⟩
    · rw [hother hx, henter.other x hx, hlocals, Option.map_eq_none_iff, Option.map_eq_none_iff]
  · rw [hframe, hdeclared (hmem hx)]
  · rw [hframe]
    by_cases hxm : x ∈ bindingNames f.body
    · obtain ⟨j, hj, -, -⟩ := henter.fresh x hxm
      rw [hj] at hx
      cases hx
    · rw [henter.other x hxm, hlocals] at hx
      obtain ⟨j, hj, he⟩ := Option.map_eq_some_iff.mp hx
      obtain rfl := ValidationExpression.argument.inj he
      rw [hother hxm, hj]
      rfl
  · rw [harrays] at hi
    cases hi
  · rw [harrays] at hi
    cases hi

/-- **A lowered method means the same**: its program gives the same value or takes the same exit,
after the same calls. -/
theorem lowerFunction_sound {W : World} (hW : W.Qualified) {g : ValidationFunction}
    (h : lowerFunction q f = .ok g) (hfits : q.Fits arguments) (hfourth : f.AvoidsFourth) :
    f.run W q.scope arguments = g.run W arguments := by
  obtain ⟨hplain, -, L₁, L₂, L₃, hrest, hlocals, henter, hbody⟩ := lowerFunction_ok h
  have hdepth : L₂.mapDepth = 0 := by rw [henter.rest, hrest]
  have hinput : L₂.ArrayInput arguments := by
    refine ⟨?_, ?_⟩
    · rw [henter.rest, hrest]
      exact hfits.field
    · rw [henter.rest, hrest]
      exact hfits.argument
  have hallows : L₂.Allows (fun x => lastIndex x f.head.names = some 3)
      (assignedNamesStatements f.body) fun x b => avoidsStatements x b f.body := by
    refine ⟨henter.assigned, fun x hx => ?_⟩
    rw [decide_eq_false (not_not.mpr hdepth)]
    exact hfourth x hx
  have hdeclaring : L₂.Declaring (bindingNames f.body) [] := by
    refine ⟨by rw [List.append_nil]; exact henter.once, fun y _ i _ => ?_⟩
    rw [Lower.floor, if_pos hdepth]
    exact Nat.zero_le i
  rw [JsFunction.run, ValidationFunction.run, Run.outcome, Run.outcome, if_pos hplain, bind_apply,
    bind_apply]
  obtain ⟨v, w, js, ir, hv, hw, rfl, hkept, -⟩ | ⟨x, y, js, ir, hx, hy, rfl, hcalls⟩ :=
    lowersStatements_simulates hW hbody (enters_scoped hrest hlocals henter) hinput hallows
      hdeclaring _ _ (@enters_related q f arguments L₁ L₂ hrest hlocals henter)
  · rw [hv, hw]
    show (Except.ok (v.getD .undefined), js.calls) = (Except.ok (v.getD .undefined), ir.calls)
    rw [hkept.calls]
  · rw [hx, hy]
    show (Except.error x, js.calls) = (Except.error x, ir.calls)
    rw [hcalls]

end Methods

end Whatspec.Appstate

import Whatspec.Appstate.SideBySide

/-!
# Lowering preserves meaning

Rule by rule, what an expression means in JavaScript is what it is lowered to: a coupling of the
parts gives a coupling of the whole.

* `SimulatesExpr` and its companions are the couplings, and there is one lemma for each rule;
* `coupled_callback` is one call of a callback, whose body is a list of statements.
-/

namespace Whatspec.Appstate

open Whatspec.Library Whatspec.Library.Comp

/-- Where an ordinary array is expected of the input, it is no byte buffer. -/
structure Lower.ArrayInput (L : Lower) (env : ℕ → Value) : Prop where
  field : ∀ f, L.arrayField = some f → ∀ v, (env 1).field f = .ok v → v.isBytes = false
  argument : L.arrayArgument = true → (env 1).isBytes = false

/-- What a form may do: assign to names known to be assigned, and read no hidden name in a
callback. -/
structure Lower.Allows (L : Lower) (hidden : String → Prop) (assigned : List String)
    (avoids : String → Bool → Bool) : Prop where
  assigned : ∀ x ∈ assigned, ∀ i, L.slotOf x = some i → i ∈ L.mutable
  avoids : ∀ x, hidden x → avoids x (L.mapDepth ≠ 0) = true

/-- The names that are still to be declared, `names` first, belong to the function under way, and
none without a mutable slot is declared twice. -/
structure Lower.Declaring (L : Lower) (names pending : List String) : Prop where
  once : ∀ y i, L.slotOf y = some i → i ∉ L.mutable → (names ++ pending).count y ≤ 1
  owns : ∀ y ∈ names, ∀ i, L.slotOf y = some i → L.floor ≤ i

/-- What the form of an expression says of its value. -/
structure Lower.Gives (L : Lower) (env : ℕ → Value) (r : ValidationExpression) (v : Value) :
    Prop where
  array : L.ordinaryArray r = true → v.isBytes = false
  own : ∀ name, r.hasOwn name = true → (v.own name).isSome = true
  argument : ∀ i, r = .argument i → v = env i

section Conditions

variable {L L' : Lower} {hidden : String → Prop} {env : ℕ → Value} {names names' : List String}
  {avoids avoids' : String → Bool → Bool}

/-- Most forms say nothing of their value. -/
theorem Lower.Gives.plain {r : ValidationExpression} {v : Value}
    (harray : L.ordinaryArray r = false) (hown : ∀ name, r.hasOwn name = false)
    (hargument : ∀ i, r ≠ .argument i) : L.Gives env r v where
  array := fun h => absurd h (by rw [harray]; exact Bool.false_ne_true)
  own := fun name h => absurd h (by rw [hown]; exact Bool.false_ne_true)
  argument := fun i h => absurd h (hargument i)

theorem Lower.Same.arrayInput (h : L.Same L') (hi : L.ArrayInput env) : L'.ArrayInput env where
  field := by
    rw [h.arrayField]
    exact hi.field
  argument := by
    rw [h.arrayArgument]
    exact hi.argument

theorem Lower.Same.allows (h : L.Same L') (ha : L.Allows hidden names avoids) :
    L'.Allows hidden names avoids where
  assigned := by
    rw [h.slotOf, h.mutable]
    exact ha.assigned
  avoids := by
    rw [h.mapDepth]
    exact ha.avoids

theorem Lower.Allows.left
    (h : L.Allows hidden (names ++ names') fun x b => avoids x b && avoids' x b) :
    L.Allows hidden names avoids :=
  ⟨fun x hx => h.assigned x (List.mem_append_left _ hx),
    fun x hx => (Bool.and_eq_true_iff.mp (h.avoids x hx)).1⟩

theorem Lower.Allows.right
    (h : L.Allows hidden (names ++ names') fun x b => avoids x b && avoids' x b) :
    L.Allows hidden names' avoids' :=
  ⟨fun x hx => h.assigned x (List.mem_append_right _ hx),
    fun x hx => (Bool.and_eq_true_iff.mp (h.avoids x hx)).2⟩

theorem Lower.Same.declaring {names pending : List String} (h : L.Same L')
    (hd : L.Declaring names pending) : L'.Declaring names pending where
  once := by
    rw [h.slotOf, h.mutable]
    exact hd.once
  owns := by
    rw [h.slotOf, h.floor]
    exact hd.owns

theorem Lower.Declaring.left {pending : List String}
    (h : L.Declaring (names ++ names') pending) : L.Declaring names (names' ++ pending) where
  once := by
    rw [← List.append_assoc]
    exact h.once
  owns := fun y hy => h.owns y (List.mem_append_left _ hy)

theorem Lower.Declaring.right {pending : List String}
    (h : L.Declaring (names ++ names') pending) : L.Declaring names' pending where
  once := by
    intro y i hy hi
    have hcount := h.once y i hy hi
    rw [List.append_assoc, List.count_append] at hcount
    omega
  owns := fun y hy => h.owns y (List.mem_append_right _ hy)

theorem Lower.Declaring.apart {pending : List String} (h : L.Declaring names pending) :
    ∀ x ∈ pending, ∀ i, L.locals x = some (.slot i) → i ∉ L.mutable → x ∉ names := by
  intro x hx i hslot hmut hnames
  have hcount := h.once x i (Lower.slotOf_eq_some.mpr hslot) hmut
  rw [List.count_append] at hcount
  have h₁ := List.count_pos_iff.mpr hx
  have h₂ := List.count_pos_iff.mpr hnames
  omega

end Conditions

section Simulation

variable (W : World) (scope : ModuleScope)

/-- The exits are the same, after the same calls. -/
def SameExit (x y : Exit) (js : Machine (List Frame)) (ir : Machine (ℕ → Value)) : Prop :=
  x = y ∧ js.calls = ir.calls

/-- An expression and what it is lowered to give the same value. -/
def SimulatesExpr (L : Lower) (e : Expr) (r : ValidationExpression) (L' : Lower) : Prop :=
  ∀ {hidden env rest snap pending}, L.Scoped scope hidden → L.ArrayInput env →
    L.Allows hidden e.assignedNames (fun x b => e.avoids x b) →
    Coupled (Related L hidden env rest snap pending) (e.run W scope) (r.evaluate W env)
      (fun v w js ir => (v = w ∧ L'.Gives env r v) ∧ Related L' hidden env rest snap pending js ir)
      SameExit

def SimulatesAll (L : Lower) (es : List Expr) (rs : List ValidationExpression) (L' : Lower) :
    Prop :=
  ∀ {hidden env rest snap pending}, L.Scoped scope hidden → L.ArrayInput env →
    L.Allows hidden (assignedNamesAll es) (fun x b => avoidsAll x b es) →
    Coupled (Related L hidden env rest snap pending) (runAll W scope es)
      (evaluateAll W rs env)
      (fun vs ws js ir => vs = ws ∧ Related L' hidden env rest snap pending js ir) SameExit

def SimulatesProperties (L : Lower) (ps : List (PropertyHead × Expr))
    (rs : List (String × ValidationExpression)) (L' : Lower) : Prop :=
  ∀ {hidden env rest snap pending}, L.Scoped scope hidden → L.ArrayInput env →
    L.Allows hidden (assignedNamesProperties ps) (fun x b => avoidsProperties x b ps) →
    Coupled (Related L hidden env rest snap pending) (runProperties W scope ps)
      (evaluateFields W rs env)
      (fun vs ws js ir => (vs = ws ∧ vs.map Prod.fst = rs.map Prod.fst) ∧
        Related L' hidden env rest snap pending js ir) SameExit

/-- Statements return the same, and otherwise have declared their names. -/
def SimulatesStatements (L : Lower) (names : List String) (assigned : List String)
    (avoids : String → Bool → Bool) (x : Js (Option Value)) (ss : List ValidationStatement)
    (L' : Lower) : Prop :=
  ∀ {hidden env rest snap pending}, L.Scoped scope hidden → L.ArrayInput env →
    L.Allows hidden assigned avoids →
    L.Declaring names pending →
    Coupled (Related L hidden env rest snap (names ++ pending)) x (evaluateStatements W ss env)
      (fun v w js ir => v = w ∧ Kept L.floor rest snap js ir ∧
        (v = none → Related L' hidden env rest snap pending js ir)) SameExit

variable {W scope}
variable {L L₁ L₂ L₃ : Lower}

theorem simulates_parenthesized {e : Expr} {r : ValidationExpression}
    (h : SimulatesExpr W scope L e r L₁) :
    SimulatesExpr W scope L (.parenthesized e) r L₁ := by
  intro hidden env rest snap pending hs hi ha
  simp only [Expr.assignedNames, Expr.avoids] at ha
  rw [Expr.run]
  exact h hs hi ha

/-- A value that needs no state. -/
theorem simulates_pure {e : Expr} {r : ValidationExpression} {v : Value}
    (he : e.run W scope = pure v) (hr : ∀ env, r.evaluate W env = pure v)
    (hgives : ∀ env, L.Gives env r v) : SimulatesExpr W scope L e r L := by
  intro hidden env rest snap pending hs hi ha
  rw [he, hr]
  exact .pure fun js ir h => ⟨⟨rfl, hgives env⟩, h⟩

theorem simulates_identifier {x : String} {r : ValidationExpression}
    (hx : L.locals x = some r) : SimulatesExpr W scope L (.identifier x) r L := by
  intro hidden env rest snap pending hs hi ha js ir h
  have hlookup : ∀ {v}, lookupName x js.memory = some v →
      (Expr.identifier x).run W scope js = (.ok v, js) := by
    intro v hv
    rw [Expr.run, Js.lookup, bind_apply, get_apply]
    simp only [hv, pure_apply]
  left
  obtain ⟨i, rfl, -⟩ | ⟨i, rfl⟩ := hs.kinds x r hx
  · refine ⟨ir.memory i, ir.memory i, js, ir, hlookup (h.slots x i hx), ?_, ⟨rfl, ?_⟩, h⟩
    · rw [ValidationExpression.evaluate, bind_apply, get_apply]
      rfl
    · refine ⟨fun harray => ?_, nofun, nofun⟩
      simp only [Lower.ordinaryArray, Bool.and_eq_true, Bool.not_eq_true', List.contains_eq_mem,
        decide_eq_false_iff_not, decide_eq_true_eq] at harray
      exact h.arrays i harray.1 harray.2
  · have hvisible : L.mapDepth ≠ 0 → ¬hidden x := by
      intro hdepth hx
      have := ha.avoids x hx
      simp only [Expr.avoids, hdepth, ne_eq, not_false_eq_true, decide_true, Bool.true_and,
        Bool.not_true, Bool.false_eq_true] at this
    refine ⟨env i, env i, js, ir, hlookup (h.arguments x i hx hvisible), ?_, ⟨rfl, ?_⟩, h⟩
    · rw [ValidationExpression.evaluate]
      rfl
    · refine ⟨fun harray => ?_, nofun,
        fun j hj => congrArg env (ValidationExpression.argument.inj hj)⟩
      by_cases hone : i = 1
      · subst hone
        exact hi.argument harray
      · have : L.ordinaryArray (.argument i) = false := by
          rw [Lower.ordinaryArray]
          · exact fun h => hone (ValidationExpression.argument.inj h)
          all_goals exact nofun
        rw [this] at harray
        cases harray

/-- The value of one expression, turned into another value. -/
theorem simulates_map {e e' : Expr} {r r' : ValidationExpression} {f : Value → Value}
    (he : e'.run W scope = e.run W scope >>= fun v => pure (f v))
    (hr : ∀ env, r'.evaluate W env = r.evaluate W env >>= fun v => pure (f v))
    (hassigned : e'.assignedNames = e.assignedNames)
    (havoids : ∀ x b, e'.avoids x b = e.avoids x b) (hgives : ∀ env v, L₁.Gives env r' v)
    (h : SimulatesExpr W scope L e r L₁) : SimulatesExpr W scope L e' r' L₁ := by
  intro hidden env rest snap pending hs hi ha
  simp only [hassigned, havoids] at ha
  rw [he, hr]
  refine (h hs hi ha).bind fun v w => .pure fun js ir hvw => ?_
  exact ⟨⟨by rw [hvw.1.1], hgives env _⟩, hvw.2⟩

/-- A choice between going on and a value already there. -/
theorem simulates_branch {e left right : Expr} {r rl rr : ValidationExpression}
    {takes : Value → Bool}
    (he : e.run W scope = left.run W scope >>= fun v =>
      if takes v then right.run W scope else pure v)
    (hr : ∀ env, r.evaluate W env = rl.evaluate W env >>= fun v =>
      if takes v then rr.evaluate W env else pure v)
    (hassigned : e.assignedNames = left.assignedNames ++ right.assignedNames)
    (havoids : ∀ x b, e.avoids x b = (left.avoids x b && right.avoids x b))
    (hgives : ∀ env v, L₂.Gives env r v) (hleft : LowersExpr L left rl L₁)
    (hright : LowersExpr L₁ right rr L₂) (h : SimulatesExpr W scope L left rl L₁)
    (h' : SimulatesExpr W scope L₁ right rr L₂) : SimulatesExpr W scope L e r L₂ := by
  intro hidden env rest snap pending hs hi ha
  simp only [hassigned, havoids] at ha
  rw [he, hr]
  have hsame := hleft.same.1
  refine (h hs hi ha.left).bind fun v w => .of_fact ?_
  rintro ⟨rfl, -⟩
  by_cases htakes : takes v = true
  · rw [if_pos htakes, if_pos htakes]
    refine (h' (hleft.scoped hs) (hsame.arrayInput hi) (hsame.allows ha.right)).weaken
      (fun _ _ hP => hP) (fun _ _ _ _ hQ => ?_) fun _ _ _ _ hE => hE
    exact ⟨⟨hQ.1.1, hgives env _⟩, hQ.2⟩
  · rw [if_neg htakes, if_neg htakes]
    exact .pure fun js ir h => ⟨⟨rfl, hgives env _⟩,
      h.same hright.same.1 hright.same.2⟩

theorem simulates_greater {left right : Expr} {rl rr : ValidationExpression}
    (hleft : LowersExpr L left rl L₁) (h : SimulatesExpr W scope L left rl L₁)
    (h' : SimulatesExpr W scope L₁ right rr L₂) :
    SimulatesExpr W scope L (.binary .greaterThan left right) (.greater rl rr) L₂ := by
  intro hidden env rest snap pending hs hi ha
  simp only [Expr.assignedNames, Expr.avoids] at ha
  rw [Expr.run, ValidationExpression.evaluate]
  have hsame := hleft.same.1
  refine (h hs hi ha.left).bind fun v w => .of_fact ?_
  rintro ⟨rfl, -⟩
  refine (h' (hleft.scoped hs) (hsame.arrayInput hi) (hsame.allows ha.right)).bind fun v' w' =>
    .of_fact ?_
  rintro ⟨rfl, -⟩
  exact .pure fun js ir h => ⟨⟨rfl, .plain rfl (fun _ => rfl) nofun⟩, h⟩

theorem simulates_conditional {test consequent alternate : Expr} {c y n : ValidationExpression}
    (htest : LowersExpr L test c L₁) (hyes : LowersExpr L₁ consequent y L₂)
    (hno : LowersExpr L₂ alternate n L₃) (h : SimulatesExpr W scope L test c L₁)
    (h' : SimulatesExpr W scope L₁ consequent y L₂)
    (h'' : SimulatesExpr W scope L₂ alternate n L₃) :
    SimulatesExpr W scope L (.conditional test consequent alternate) (.choose c y n) L₃ := by
  intro hidden env rest snap pending hs hi ha
  simp only [Expr.assignedNames, Expr.avoids] at ha
  rw [Expr.run, ValidationExpression.evaluate]
  have hsame := htest.same.1
  have hsame' := hsame.trans hyes.same.1
  refine (h hs hi ha.left.left).bind fun v w => .of_fact ?_
  rintro ⟨rfl, -⟩
  by_cases htruthy : v.truthy = true
  · rw [if_pos htruthy, if_pos htruthy]
    refine (h' (htest.scoped hs) (hsame.arrayInput hi) (hsame.allows ha.left.right)).weaken
      (fun _ _ hP => hP) (fun _ _ _ _ hQ => ?_) fun _ _ _ _ hE => hE
    exact ⟨⟨hQ.1.1, .plain rfl (fun _ => rfl) nofun⟩, hQ.2.same hno.same.1 hno.same.2⟩
  · rw [if_neg htruthy, if_neg htruthy]
    refine (h'' (hyes.scoped (htest.scoped hs)) (hsame'.arrayInput hi)
      (hsame'.allows ha.right)).weaken (fun _ _ hP => hP.same hyes.same.1 hyes.same.2)
      (fun _ _ _ _ hQ => ?_) fun _ _ _ _ hE => hE
    exact ⟨⟨hQ.1.1, .plain rfl (fun _ => rfl) nofun⟩, hQ.2⟩

/-- Assigning a variable and its slot. -/
theorem coupled_assign {hidden : String → Prop} {env : ℕ → Value} {rest : List Frame}
    {snap : ℕ → Value} {pending pending' : List String} (hs : L.Scoped scope hidden) {x : String}
    {i : ℕ} {v : Value} (hx : L.slotOf x = some i) (hfloor : L.floor ≤ i)
    (harray : x ∉ pending → i ∈ L.mutable) (hsub : ∀ y ∈ pending', y ∈ pending)
    (hpending : x ∈ pending' → i ∈ L.mutable) :
    Coupled (Related L hidden env rest snap pending) (Js.assign x v)
      (Run.change fun slots => Function.update slots i v)
      (fun _ _ js ir => ir.memory i = v ∧ Related L hidden env rest snap pending' js ir)
      SameExit := by
  intro js ir h
  have hx' := Lower.slotOf_eq_some.mp hx
  refine .inl ⟨(), (), { js with memory := assignName x v js.memory },
    { ir with memory := Function.update ir.memory i v }, ?_, rfl, Function.update_self .., ?_⟩
  · rw [Js.assign, bind_apply, get_apply]
    simp only [h.slots x i hx']
    rfl
  · refine h.write hs hx' hfloor (fun hi hmut => ?_) hsub hpending
    by_cases hpend : x ∈ pending
    · exact absurd hi (h.pending x hpend i hx' hmut).2
    · exact absurd (harray hpend) hmut

theorem simulates_assignment {x : String} {slot : ℕ} {right : Expr} {r : ValidationExpression}
    (hslot : L.slotOf x = some slot) (hfloor : ¬(L.mapDepth ≠ 0 ∧ slot < L.mapFloor))
    (hright : LowersExpr L right r L₁) (h : SimulatesExpr W scope L right r L₁) :
    SimulatesExpr W scope L (.assignment true (some x) right) (.assign slot r) L₁ := by
  intro hidden env rest snap pending hs hi ha
  simp only [Expr.assignedNames, Expr.avoids, Option.toList_some] at ha
  rw [Expr.run, ValidationExpression.evaluate]
  have hsame := hright.same.1
  have hmutable : slot ∈ L₁.mutable := by
    rw [hsame.mutable]
    exact ha.assigned x (List.mem_append_left _ (List.mem_singleton_self x)) slot hslot
  have hright' : L.Allows hidden right.assignedNames fun x b => right.avoids x b :=
    ⟨fun y hy => ha.assigned y (List.mem_append_right _ hy), ha.avoids⟩
  have hle : L₁.floor ≤ slot := by
    rw [hsame.floor, Lower.floor]
    split_ifs with hdepth
    · exact Nat.zero_le slot
    · exact not_lt.mp fun hlt => hfloor ⟨hdepth, hlt⟩
  refine (h hs hi hright').bind fun v w => .of_fact ?_
  rintro ⟨rfl, -⟩
  refine (coupled_assign (hright.scoped hs) (hsame.slotOf ▸ hslot) hle (fun _ => hmutable)
    (fun _ hy => hy) fun _ => hmutable).bind fun _ _ => ?_
  exact .pure fun js ir h => ⟨⟨rfl, .plain rfl (fun _ => rfl) (by simp)⟩, h.2⟩

theorem simulates_sequence {es : List Expr} {rs : List ValidationExpression}
    (h : SimulatesAll W scope L es rs L₁) :
    SimulatesExpr W scope L (.sequence es) (.sequence rs) L₁ := by
  intro hidden env rest snap pending hs hi ha
  simp only [Expr.assignedNames, Expr.avoids] at ha
  rw [Expr.run, ValidationExpression.evaluate]
  refine (h hs hi ha).bind fun vs ws => .of_fact ?_
  rintro rfl
  exact .pure fun js ir h => ⟨⟨rfl, .plain rfl (fun _ => rfl) nofun⟩, h⟩

theorem simulates_object {ps : List (PropertyHead × Expr)}
    {rs : List (String × ValidationExpression)} (h : SimulatesProperties W scope L ps rs L₁) :
    SimulatesExpr W scope L (.object ps) (.object rs) L₁ := by
  intro hidden env rest snap pending hs hi ha
  simp only [Expr.assignedNames, Expr.avoids] at ha
  rw [Expr.run, ValidationExpression.evaluate]
  refine (h hs hi ha).bind fun vs ws => .of_fact ?_
  rintro ⟨rfl, hkeys⟩
  refine .pure fun js ir h => ⟨⟨rfl, nofun, fun name hname => ?_, nofun⟩, h⟩
  obtain ⟨field, hfield, hkey⟩ := List.any_eq_true.mp hname
  have hmem : name ∈ vs.map Prod.fst := by
    rw [hkeys, ← of_decide_eq_true hkey]
    exact List.mem_map_of_mem hfield
  obtain ⟨own, hown, rfl⟩ := List.mem_map.mp hmem
  exact List.lookup_isSome_iff.mpr ⟨own, hown, beq_self_eq_true _⟩

theorem simulates_nil : SimulatesAll W scope L [] [] L := by
  intro hidden env rest snap pending hs hi ha
  rw [runAll, evaluateAll]
  exact .pure fun js ir h => ⟨rfl, h⟩

theorem simulates_cons {e : Expr} {r : ValidationExpression} {es : List Expr}
    {rs : List ValidationExpression} (he : LowersExpr L e r L₁)
    (h : SimulatesExpr W scope L e r L₁) (h' : SimulatesAll W scope L₁ es rs L₂) :
    SimulatesAll W scope L (e :: es) (r :: rs) L₂ := by
  intro hidden env rest snap pending hs hi ha
  simp only [assignedNamesAll, avoidsAll] at ha
  rw [runAll, evaluateAll]
  have hsame := he.same.1
  refine (h hs hi ha.left).bind fun v w => .of_fact ?_
  rintro ⟨rfl, -⟩
  refine (h' (he.scoped hs) (hsame.arrayInput hi) (hsame.allows ha.right)).bind fun vs ws =>
    .of_fact ?_
  rintro rfl
  exact .pure fun js ir h => ⟨rfl, h⟩

theorem simulates_properties_nil : SimulatesProperties W scope L [] [] L := by
  intro hidden env rest snap pending hs hi ha
  rw [runProperties, evaluateFields]
  exact .pure fun js ir h => ⟨⟨rfl, rfl⟩, h⟩

/-- What a lowered key says of its property. -/
theorem lowerKey_ok {head : PropertyHead} {before : List String} {key : String}
    (h : head.lowerKey before = .ok key) :
    head.key = some key ∧ key ∉ before ∧
      (head.isSpread || head.isComputed || head.isMethod || !head.isInit) = false ∧
      key ≠ "__proto__" := by
  rw [PropertyHead.lowerKey] at h
  split_ifs at h with hspread hplain
  split at h
  · cases h
  · next k hk =>
    split_ifs at h with hproto hbefore
    obtain rfl := Except.ok.inj h
    simp only [Bool.or_eq_true, not_or, Bool.not_eq_true, decide_eq_true_eq] at *
    refine ⟨hk, hbefore, ?_, hproto.1.1⟩
    rw [hspread, hplain.1.1, hplain.1.2, hplain.2]
    rfl

/-- The keys after a key differ from it. -/
theorem LowersProperties.keys_apart {L L' : Lower} {ps : List (PropertyHead × Expr)}
    {before : List String} {rs : List (String × ValidationExpression)} :
    LowersProperties L ps before rs L' → ∀ key ∈ before, ∀ p ∈ ps, p.1.key ≠ some key := by
  intro h key hbefore p hp
  induction ps generalizing L before rs with
  | nil => cases hp
  | cons p' ps ih =>
    cases h with
    | cons hkey _ h =>
      obtain ⟨hhead, hnot, -, -⟩ := lowerKey_ok hkey
      rcases List.mem_cons.mp hp with rfl | hp
      · rw [hhead]
        rintro heq
        exact hnot (Option.some.inj heq ▸ hbefore)
      · exact ih h (List.mem_append_left _ hbefore) hp

theorem simulates_properties_cons {head : PropertyHead} {before : List String} {key : String}
    {e : Expr} {r : ValidationExpression} {ps : List (PropertyHead × Expr)}
    {rs : List (String × ValidationExpression)} (hkey : head.lowerKey before = .ok key)
    (he : LowersExpr L e r L₁) (hps : LowersProperties L₁ ps (before ++ [key]) rs L₂)
    (h : SimulatesExpr W scope L e r L₁) (h' : SimulatesProperties W scope L₁ ps rs L₂) :
    SimulatesProperties W scope L ((head, e) :: ps) ((key, r) :: rs) L₂ := by
  intro hidden env rest snap pending hs hi ha
  simp only [assignedNamesProperties, avoidsProperties] at ha
  obtain ⟨hhead, -, hplain, hproto⟩ := lowerKey_ok hkey
  have hapart : (ps.any fun p => p.1.key = some key) = false := by
    rw [List.any_eq_false]
    intro p hp heq
    exact hps.keys_apart key (List.mem_append_right _ (List.mem_singleton_self key)) p hp
      (of_decide_eq_true heq)
  have hrun : runProperties W scope ((head, e) :: ps) = (do
      let v ← e.run W scope
      let vs ← runProperties W scope ps
      pure ((key, v) :: vs)) := by
    rw [runProperties]
    simp only [hhead, hplain, hproto, hapart, decide_false, Bool.or_self, Bool.false_eq_true,
      if_false]
  rw [hrun, evaluateFields]
  have hsame := he.same.1
  refine (h hs hi ha.left).bind fun v w => .of_fact ?_
  rintro ⟨rfl, -⟩
  refine (h' (he.scoped hs) (hsame.arrayInput hi) (hsame.allows ha.right)).bind fun vs ws =>
    .of_fact ?_
  rintro ⟨rfl, hkeys⟩
  refine .pure fun js ir h => ⟨⟨rfl, ?_⟩, h⟩
  rw [List.map_cons, List.map_cons, hkeys]

/-! ### Members and calls -/

theorem LowersExpr.module_eq_none {L L' : Lower} {e : Expr} {r : ValidationExpression} :
    LowersExpr L e r L' → L.module e = none := by
  intro h
  induction hn : sizeOf e using Nat.strong_induction_on generalizing e with
  | _ n ih =>
    subst hn
    cases h with
    | parenthesized h =>
      rw [Lower.module]
      exact ih _ (by simp only [Expr.parenthesized.sizeOf_spec]; omega) h rfl
    | _ => rfl

theorem run_exported {js : Machine (List Frame)} {c : Bool} {object : Expr}
    {name property : String} (h : loaded scope js.memory object = some name) :
    (Expr.member c object property).run W scope js = (.ok (W.exported name property), js) := by
  rw [Expr.run, bind_apply, get_apply]
  simp only [h, pure_apply]

theorem run_member {js : Machine (List Frame)} {c : Bool} {object : Expr} {property : String}
    (h : loaded scope js.memory object = none) :
    (Expr.member c object property).run W scope js =
      (object.run W scope >>= fun v => Js.readMember W v property) js := by
  rw [Expr.run, bind_apply, get_apply]
  simp only [h]

theorem simulates_metric (hW : W.Qualified) {c : Bool} {object : Expr} {name : String}
    (hmodule : L.module object = some metricModule) (hname : name ∈ metricNames) :
    SimulatesExpr W scope L (.member false (.member c object "SyncdFatalErrorType") name)
      (.metric name) L := by
  intro hidden env rest snap pending hs hi ha js ir h
  have hmember : loaded scope js.memory (.member c object "SyncdFatalErrorType") = none := rfl
  have hnullish : (W.exported metricModule "SyncdFatalErrorType").nullish = false := by
    have hown := hW.metric name hname
    cases hv : W.exported metricModule "SyncdFatalErrorType" with
    | undefined => rw [hv] at hown; cases hown
    | null => rw [hv] at hown; cases hown
    | _ => rfl
  refine .inl ⟨.text name, .text name, js, ir, ?_, ?_, ⟨rfl, .plain rfl (fun _ => rfl) nofun⟩, h⟩
  · rw [run_member hmember, bind_apply,
      run_exported ((h.module_eq hs object).trans hmodule)]
    show Js.readMember W _ name js = _
    rw [Js.readMember, hnullish, hW.metric name hname]
    rfl
  · rw [ValidationExpression.evaluate]
    rfl

/-- Reading a property of a value, and a field of the native data view. -/
theorem coupled_field (hW : W.Qualified) {hidden : String → Prop} {env : ℕ → Value}
    {rest : List Frame} {snap : ℕ → Value} {pending : List String} {r f : ValidationExpression}
    {name : String} {v : Value} (hi : L.ArrayInput env) (hf : fieldOf r name = .ok f)
    (hv : L.Gives env r v) :
    Coupled (Related L hidden env rest snap pending) (Js.readMember W v name)
      (ofExcept (v.field name))
      (fun w w' js ir => (w = w' ∧ L.Gives env f w) ∧
        Related L hidden env rest snap pending js ir) SameExit := by
  intro js ir h
  rw [fieldOf] at hf
  split_ifs at hf with hallowed
  obtain rfl := Except.ok.inj hf
  rw [Js.readMember, Value.field]
  by_cases hnullish : v.nullish = true
  · rw [if_pos hnullish, if_pos hnullish]
    exact .inr ⟨_, _, js, ir, rfl, rfl, rfl, h.calls⟩
  · rw [if_neg hnullish, if_neg hnullish]
    have hsame : (v.own name).getD (W.inherited v name) = (v.own name).getD .undefined := by
      rcases Bool.or_eq_true_iff.mp hallowed with hown | hdata
      · obtain ⟨w, hw⟩ := Option.isSome_iff_exists.mp (hv.own name hown)
        rw [hw]
        rfl
      · rw [hW.inherited v name (of_decide_eq_true hdata)]
    rw [hsame]
    refine .inl ⟨_, _, js, ir, rfl, rfl, ⟨rfl, fun harray => ?_, nofun, nofun⟩, h⟩
    have hone : r = .argument 1 ∧ L.arrayField = some name := by
      rw [Lower.ordinaryArray.eq_def] at harray
      split at harray
      · next heq => cases heq
      · next heq =>
        obtain ⟨rfl, rfl⟩ := ValidationExpression.field.inj heq
        exact ⟨rfl, of_decide_eq_true harray⟩
      · next heq => cases heq
      · next heq => cases heq
      · cases harray
    refine hi.field name hone.2 _ ?_
    rw [← hv.argument 1 hone.1, Value.field, if_neg hnullish]

theorem simulates_field (hW : W.Qualified) {object : Expr} {r f : ValidationExpression}
    {name : String} (hobject : LowersExpr L object r L₁) (hf : fieldOf r name = .ok f)
    (h : SimulatesExpr W scope L object r L₁) :
    SimulatesExpr W scope L (.member false object name) f L₁ := by
  intro hidden env rest snap pending hs hi ha js ir hrel
  simp only [Expr.assignedNames, Expr.avoids] at ha
  have hloaded : loaded scope js.memory object = none :=
    (hrel.module_eq hs object).trans hobject.module_eq_none
  have hevaluate : f.evaluate W env = r.evaluate W env >>= fun v => ofExcept (v.field name) := by
    rw [fieldOf] at hf
    split_ifs at hf
    obtain rfl := Except.ok.inj hf
    rw [ValidationExpression.evaluate]
  rw [run_member hloaded, hevaluate]
  refine Coupled.bind (h hs hi ha) (fun v w => .of_fact ?_) js ir hrel
  rintro ⟨rfl, hgives⟩
  exact coupled_field hW (hobject.same.1.arrayInput hi) hf hgives

/-- The calls made are the same after one more. -/
theorem Related.call {hidden : String → Prop} {env : ℕ → Value} {rest : List Frame}
    {snap : ℕ → Value} {pending : List String} {js : Machine (List Frame)}
    {ir : Machine (ℕ → Value)} (h : Related L hidden env rest snap pending js ir) (c : Call) :
    Related L hidden env rest snap pending { js with calls := js.calls ++ [c] }
      { ir with calls := ir.calls ++ [c] } :=
  ⟨congrArg (· ++ [c]) h.calls, h.frames, h.bound, h.slots, h.arguments, h.outer, h.arrays,
    h.pending⟩

theorem coupled_call {hidden : String → Prop} {env : ℕ → Value} {rest : List Frame}
    {snap : ℕ → Value} {pending : List String} (callee : Callee) (arguments : List Value) :
    Coupled (Related L hidden env rest snap pending) (Run.call W callee arguments)
      (Run.call W callee arguments)
      (fun v w js ir => v = w ∧ Related L hidden env rest snap pending js ir) SameExit := by
  intro js ir h
  have hcalls := (h.call ⟨callee, arguments⟩).calls
  simp only [Run.call, h.calls]
  cases W.answer ir.calls ⟨callee, arguments⟩ with
  | ok v => exact .inl ⟨v, v, _, _, rfl, rfl, rfl, h.calls ▸ h.call ⟨callee, arguments⟩⟩
  | error c => exact .inr ⟨_, _, _, _, rfl, rfl, rfl, rfl⟩

theorem run_dependency {js : Machine (List Frame)} {c : Bool} {object : Expr}
    {name method : String} {arguments : List Expr} (hmap : method ≠ "map")
    (h : loaded scope js.memory object = some name) :
    (Expr.call (.member c object method) arguments).run W scope js =
      (runAll W scope arguments >>= fun vs =>
        Run.call W (.dependency (canonicalModule name) method) vs) js := by
  rw [Expr.run, bind_apply, get_apply]
  · simp only [h]
  · exact fun _ _ _ hm => hmap hm

theorem run_validator {js : Machine (List Frame)} {c : Bool} {method : String}
    {arguments : List Expr} (hmap : method ≠ "map")
    (h : lookupName scope.receiver js.memory = none) :
    (Expr.call (.member c (.identifier scope.receiver) method) arguments).run W scope js =
      (runAll W scope arguments >>= fun vs => Run.call W (.validator method) vs) js := by
  rw [Expr.run, bind_apply, get_apply]
  · simp only [loaded, h, and_self, if_true]
  · exact fun _ _ _ hm => hmap hm

theorem simulates_validate {c : Bool} {method : String} {es : List Expr}
    {rs : List ValidationExpression} (hmethod : method ∈ validatorNames)
    (hfree : L.locals L.receiver = none) (h : SimulatesAll W scope L es rs L₁) :
    SimulatesExpr W scope L (.call (.member c (.identifier L.receiver) method) es)
      (.validate method rs) L₁ := by
  intro hidden env rest snap pending hs hi ha js ir hrel
  simp only [Expr.assignedNames, Expr.avoids] at ha
  have hmap : method ≠ "map" := by
    rintro rfl
    exact absurd hmethod (by decide)
  rw [hs.receiver] at hfree ha ⊢
  rw [run_validator hmap ((hrel.bound _).mpr hfree), ValidationExpression.evaluate]
  refine Coupled.bind (h hs hi ha.right) (fun vs ws => .of_fact ?_) js ir hrel
  rintro rfl
  exact (coupled_call _ vs).weaken (fun _ _ hP => hP)
    (fun _ _ _ _ hQ => ⟨⟨hQ.1, .plain rfl (fun _ => rfl) nofun⟩, hQ.2⟩) fun _ _ _ _ hE => hE

/-- The functions of the closed vocabulary, and what stands for them. -/
theorem dependencyTransform_ok {object : Expr} {method : String} {t : ValidationTransform}
    (h : dependencyTransform (L.module object) method = some t) :
    ∃ name, L.module object = some name ∧ method ≠ "map" ∧
      t.callee = .dependency (canonicalModule name) method ∧ t.specification W = [] := by
  generalize L.module object = loadedModule at h
  rw [dependencyTransform.eq_def] at h
  split at h
  all_goals first
    | cases h; exact ⟨_, rfl, by decide, by decide, rfl⟩
    | cases h

theorem simulates_transform {c : Bool} {object : Expr} {method : String}
    {t : ValidationTransform} {es : List Expr} {rs : List ValidationExpression}
    (ht : dependencyTransform (L.module object) method = some t)
    (h : SimulatesAll W scope L es rs L₁) :
    SimulatesExpr W scope L (.call (.member c object method) es) (.transform t rs) L₁ := by
  intro hidden env rest snap pending hs hi ha js ir hrel
  simp only [Expr.assignedNames, Expr.avoids] at ha
  obtain ⟨name, hname, hmap, hcallee, hspec⟩ := dependencyTransform_ok (W := W) ht
  rw [run_dependency hmap ((hrel.module_eq hs object).trans hname),
    ValidationExpression.evaluate]
  refine Coupled.bind (h hs hi ha.right) (fun vs ws => .of_fact ?_) js ir hrel
  rintro rfl
  rw [ValidationTransform.call, hcallee, hspec, List.nil_append]
  exact (coupled_call _ vs).weaken (fun _ _ hP => hP)
    (fun _ _ _ _ hQ => ⟨⟨hQ.1, .plain rfl (fun _ => rfl) nofun⟩, hQ.2⟩) fun _ _ _ _ hE => hE

theorem decodedTransform_ok {name : String} {t : ValidationTransform}
    (h : decodedTransform name = some t) :
    t.callee = .dependency "decodeProtobuf" "decodeProtobuf" ∧
      t.specification W = [W.exported "WAWebProtobufSyncAction.pb" name] := by
  rw [decodedTransform.eq_def] at h
  split at h
  · cases h
    exact ⟨rfl, rfl⟩
  · cases h
    exact ⟨rfl, rfl⟩
  · cases h

theorem simulates_decode {c : Bool} {object spec e : Expr} {name : String}
    {t : ValidationTransform} {r : ValidationExpression}
    (hobject : L.module object = some "decodeProtobuf")
    (hspec : L.module spec = some "WAWebProtobufSyncAction.pb")
    (ht : decodedTransform name = some t) (h : SimulatesExpr W scope L e r L₁) :
    SimulatesExpr W scope L
      (.call (.member c object "decodeProtobuf") [.member false spec name, e])
      (.transform t [r]) L₁ := by
  intro hidden env rest snap pending hs hi ha js ir hrel
  simp only [Expr.assignedNames, assignedNamesAll, Expr.avoids, avoidsAll, Bool.and_true,
    List.append_nil] at ha
  obtain ⟨hcallee, hvalue⟩ := decodedTransform_ok (W := W) ht
  have hrun : runAll W scope [.member false spec name, e] js =
      (e.run W scope >>= fun v =>
        pure [W.exported "WAWebProtobufSyncAction.pb" name, v]) js := by
    rw [runAll, bind_apply, run_exported ((hrel.module_eq hs spec).trans hspec)]
    simp only [runAll, bind_assoc, pure_bind]
  rw [run_dependency (by decide) ((hrel.module_eq hs object).trans hobject), bind_apply, hrun,
    ← bind_apply, bind_assoc, ValidationExpression.evaluate]
  simp only [pure_bind, evaluateAll, bind_assoc]
  refine Coupled.bind (h hs hi ha.right.right) (fun v w => .of_fact ?_) js ir hrel
  rintro ⟨rfl, -⟩
  rw [ValidationTransform.call, hcallee, hvalue]
  exact (coupled_call _ _).weaken (fun _ _ hP => hP)
    (fun _ _ _ _ hQ => ⟨⟨hQ.1, .plain rfl (fun _ => rfl) nofun⟩, hQ.2⟩) fun _ _ _ _ hE => hE

/-! ### Maps -/

theorem restore_clear_apply {α : Type} (owned : List ℕ) (x : Run (ℕ → Value) α)
    (ir : Machine (ℕ → Value)) :
    withSlots owned x ir =
      match x { ir with memory := clearSlots owned ir.memory } with
      | (.ok a, m) => (.ok a, { m with memory := restoreSlots owned ir.memory m.memory })
      | (.error e, m) => (.error e, m) := by
  rw [withSlots, bind_apply, get_apply]
  simp only [bind_apply, Run.change, modify_apply]
  cases x { ir with memory := clearSlots owned ir.memory } with
  | mk r m => cases r <;> rfl

theorem withFrame_apply {α : Type} (f : Frame) (x : Js α) (js : Machine (List Frame)) :
    withFrame f x js =
      match x { js with memory := f :: js.memory } with
      | (.ok a, m) => (.ok a, { m with memory := m.memory.tail })
      | (.error e, m) => (.error e, m) := by
  rw [withFrame, bind_apply]
  simp only [bind_apply, Run.change, modify_apply]
  cases x { js with memory := f :: js.memory } with
  | mk r m => cases r <;> rfl

/-- **One call of a callback.**  The frame and the slots of the callback are gone when it is left,
and the states around it are related as before. -/
theorem coupled_callback {hidden : String → Prop} {env : ℕ → Value} {rest : List Frame}
    {snap : ℕ → Value} {pending : List String} (hs : L.Scoped scope hidden)
    (hdepth : L.mapDepth = 0) {p : String} {body : List Stmt} {ss : List ValidationStatement}
    (henter : Lower.Enters body (L.enterCallback p) L₁)
    (hbody : LowersStatements L₁ body ss L₂) (hi : L.ArrayInput env)
    (ha : ∀ x, hidden x → x ≠ p → avoidsStatements x true body = true)
    (h : SimulatesStatements W scope L₁ (bindingNames body) (assignedNamesStatements body)
      (fun x b => avoidsStatements x b body) (runStatements W scope body) ss L₂)
    (arguments : ℕ → Value) :
    Coupled (Related L hidden env rest snap pending)
      (withFrame (enterFrame [some p] (bindingNames body) arguments) do
        let returned ← runStatements W scope body
        pure (returned.getD .undefined))
      (withSlots (ownedSlots ss) do
        let returned ← evaluateStatements W ss (Function.update env 3 (arguments 0))
        pure (returned.getD .undefined))
      (fun v w js ir => v = w ∧ Related L hidden env rest snap pending js ir) SameExit := by
  intro js ir hrel
  have hinput : L₁.ArrayInput (Function.update env 3 (arguments 0)) := by
    have hone : Function.update env 3 (arguments 0) 1 = env 1 := Function.update_of_ne (by decide) ..
    refine ⟨?_, ?_⟩
    · rw [hone, henter.rest]
      exact hi.field
    · rw [hone, henter.rest]
      exact hi.argument
  have hallows : L₁.Allows (fun x => hidden x ∧ x ≠ p) (assignedNamesStatements body)
      fun x b => avoidsStatements x b body := by
    refine ⟨henter.assigned, fun x hx => ?_⟩
    rw [decide_eq_true henter.callback_floor.1]
    exact ha x hx.1 hx.2
  have hstart : Related L₁ (fun x => hidden x ∧ x ≠ p) (Function.update env 3 (arguments 0))
      js.memory ir.memory (bindingNames body ++ [])
      { js with memory := enterFrame [some p] (bindingNames body) arguments :: js.memory }
      { ir with memory := clearSlots (ownedSlots ss) ir.memory } := by
    rw [List.append_nil]
    exact hrel.enter hs hdepth henter fun i => hbody.owned
  have hdeclaring : L₁.Declaring (bindingNames body) [] := by
    refine ⟨by rw [List.append_nil]; exact henter.once, fun y hy i hslot => ?_⟩
    obtain ⟨j, hj, hle, -⟩ := henter.fresh y hy
    rw [Lower.slotOf_eq_some, hj] at hslot
    rw [henter.callback_floor.2, ← ValidationExpression.slot.inj (Option.some.inj hslot)]
    exact hle
  rw [withFrame_apply, restore_clear_apply, bind_apply, bind_apply]
  obtain ⟨v, w, js', ir', hv, hw, rfl, hkept, -⟩ | ⟨x, y, js', ir', hx, hy, rfl, hcalls⟩ :=
    h (henter.callback_scoped hs) hinput hallows hdeclaring _ _ hstart
  · rw [hv, hw]
    rw [henter.callback_floor.2] at hkept
    exact .inl ⟨_, _, _, _, rfl, rfl, rfl, hrel.leave hs hdepth (ownedSlots ss) hkept⟩
  · rw [hx, hy]
    exact .inr ⟨_, _, _, _, rfl, rfl, rfl, hcalls⟩

theorem simulates_map_callback {c : Bool} {object : Expr} {r : ValidationExpression}
    {head : FunctionHead} {p : String} {body : List Stmt} {ss : List ValidationStatement}
    (hhead : head.callbackParameter = .ok p) (hdepth : L.mapDepth = 0)
    (hobject : LowersExpr L object r L₁) (harray : L₁.ordinaryArray r = true)
    (hscope : (L₁.enterCallback p).declareScope body = .ok L₂)
    (hbody : LowersStatements L₂ body ss L₃) (h : SimulatesExpr W scope L object r L₁)
    (h' : SimulatesStatements W scope L₂ (bindingNames body) (assignedNamesStatements body)
      (fun x b => avoidsStatements x b body) (runStatements W scope body) ss L₃) :
    SimulatesExpr W scope L (.call (.member c object "map") [.function head body]) (.map r ss)
      (L₁.leaveCallback L₃) := by
  intro hidden env rest snap pending hs hi ha
  obtain ⟨hnames, hplain⟩ := FunctionHead.names_of_callbackParameter hhead
  have henter := Lower.declareScope_enters hscope
  have hsame := hobject.same.1
  have hleave : L₁.Same (L₁.leaveCallback L₃) :=
    henter.same_leave (hsame.mapDepth.trans hdepth) (.refl L₁) hbody.same.1
  simp only [Expr.assignedNames, assignedNamesAll, Expr.avoids, avoidsAll, List.append_nil,
    Bool.and_true] at ha
  have hcallback : ∀ x, hidden x → x ≠ p → avoidsStatements x true body = true := by
    intro x hx hxp
    have hax := (Bool.and_eq_true_iff.mp (ha.avoids x hx)).2
    rw [hnames] at hax
    refine (Bool.or_eq_true_iff.mp hax).resolve_left fun hmem => ?_
    simp only [List.contains_cons, List.contains_nil, Bool.or_false, beq_iff_eq,
      Option.some.injEq] at hmem
    exact hxp hmem
  have hobjectAllows : L.Allows hidden object.assignedNames fun x b => object.avoids x b :=
    ⟨ha.assigned, fun x hx => (Bool.and_eq_true_iff.mp (ha.avoids x hx)).1⟩
  rw [Expr.run, ValidationExpression.evaluate]
  refine (h hs hi hobjectAllows).bind fun v w => .of_fact ?_
  rintro ⟨rfl, hgives⟩
  have hbytes := hgives.array harray
  have hfail : Coupled (Related L₁ hidden env rest snap pending)
      (throw (.thrown "TypeError") : Js Value)
      (ofExcept (.error (.thrown "TypeError")) >>= fun items => do
        let mapped ← traverse (fun item => withSlots (ownedSlots ss) do
          let returned ← evaluateStatements W ss (Function.update env 3 item)
          pure (returned.getD .undefined)) items
        pure (.array mapped))
      (fun v w js ir => (v = w ∧ (L₁.leaveCallback L₃).Gives env (.map r ss) v) ∧
        Related (L₁.leaveCallback L₃) hidden env rest snap pending js ir) SameExit :=
    fun js ir hrel => .inr ⟨_, _, js, ir, rfl, rfl, rfl, hrel.calls⟩
  cases v with
  | array items =>
    have hitems : ofExcept (Value.array items).items = (pure items : Run (ℕ → Value) _) := rfl
    simp only [hitems, pure_bind]
    refine Coupled.bind (Coupled.traverse (A := fun x item => x.1 = item) (B := Eq)
      (fun x item hx => ?_) ?_) fun mapped mapped' => .of_fact ?_
    · obtain ⟨item, index⟩ := x
      obtain rfl : item = _ := hx
      simp only [hplain, if_true, hnames]
      exact coupled_callback (hobject.scoped hs) (hsame.mapDepth.trans hdepth) henter hbody
        (hsame.arrayInput hi) hcallback h' (callbackArguments items item index)
    · have hall : List.Forall₂ (fun (x : Value × ℕ) item => x.1 = item) items.zipIdx
          (items.zipIdx.map Prod.fst) :=
        List.forall₂_map_right_iff.mpr (List.forall₂_same.mpr fun _ _ => rfl)
      rwa [List.zipIdx_map_fst] at hall
    · intro heq
      rw [List.forall₂_eq_eq_eq] at heq
      subst heq
      exact .pure fun js ir hrel =>
        ⟨⟨rfl, ⟨fun _ => rfl, fun _ hown => (nomatch hown), nofun⟩⟩, hrel.same hleave rfl⟩
  | bytes bs => cases hbytes
  | _ => exact hfail

end Simulation

end Whatspec.Appstate

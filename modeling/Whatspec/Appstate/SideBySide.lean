import Whatspec.Appstate.LoweringScopes

/-!
# The method and its program side by side

The lowered program and the JavaScript method run side by side.  `Related` is what holds of their
states at every point: the calls made are the same, every name the compiler knows has the value
of its slot or argument, what lies outside the callback under way has not changed, and a slot
that is taken to hold an ordinary array holds no byte buffer.

* `Related.write`, `Related.enter` and `Related.leave`: assignments and callbacks keep the
  relation;
* `Expr.avoids` says that no callback reads a name.  The item of a callback is argument 3, and so
  is the fourth parameter of a method that has one: the two must not meet.
-/

namespace Whatspec.Appstate

open Whatspec.Library

/-! ### The fourth parameter -/

mutual

/-- No callback reads the name.  The second argument says whether a callback has been entered,
and a callback whose own parameter has the name reads that one. -/
def Expr.avoids (x : String) : Bool → Expr → Bool
  | b, .parenthesized e => e.avoids x b
  | b, .identifier name => !(b && name = x)
  | b, .unary _ argument => argument.avoids x b
  | b, .member _ object _ => object.avoids x b
  | b, .logical _ left right => left.avoids x b && right.avoids x b
  | b, .binary _ left right => left.avoids x b && right.avoids x b
  | b, .conditional test consequent alternate =>
    test.avoids x b && consequent.avoids x b && alternate.avoids x b
  | b, .assignment _ _ right => right.avoids x b
  | b, .sequence expressions => avoidsAll x b expressions
  | b, .object properties => avoidsProperties x b properties
  | b, .call callee arguments => callee.avoids x b && avoidsAll x b arguments
  | b, .new callee arguments => callee.avoids x b && avoidsAll x b arguments
  | _, .function head body => head.names.contains (some x) || avoidsStatements x true body
  | b, .spread e => e.avoids x b
  | _, _ => true

def avoidsAll (x : String) : Bool → List Expr → Bool
  | _, [] => true
  | b, e :: es => e.avoids x b && avoidsAll x b es

def avoidsProperties (x : String) : Bool → List (PropertyHead × Expr) → Bool
  | _, [] => true
  | b, (_, e) :: properties => e.avoids x b && avoidsProperties x b properties

def Stmt.avoids (x : String) : Bool → Stmt → Bool
  | b, .variableDeclaration _ declarations => avoidsDeclarations x b declarations
  | b, .ifStatement test consequent none => test.avoids x b && consequent.avoids x b
  | b, .ifStatement test consequent (some alternate) =>
    test.avoids x b && consequent.avoids x b && alternate.avoids x b
  | b, .blockStatement body => avoidsStatements x b body
  | b, .returnStatement (some argument) => argument.avoids x b
  | b, .expressionStatement e => e.avoids x b
  | b, .throwStatement argument => argument.avoids x b
  | _, _ => true

def avoidsStatements (x : String) : Bool → List Stmt → Bool
  | _, [] => true
  | b, s :: ss => s.avoids x b && avoidsStatements x b ss

def avoidsDeclarations (x : String) : Bool → List (Option String × Option Expr) → Bool
  | _, [] => true
  | b, (_, none) :: declarations => avoidsDeclarations x b declarations
  | b, (_, some e) :: declarations => e.avoids x b && avoidsDeclarations x b declarations

end

attribute [simp] Expr.avoids avoidsAll avoidsProperties Stmt.avoids avoidsStatements
  avoidsDeclarations

/-! ### Names and slots -/

theorem lookupName_assignName {x y : String} {v : Value} {frames : List Frame} :
    (lookupName x frames).isSome →
      lookupName y (assignName x v frames) = if y = x then some v else lookupName y frames := by
  induction frames with
  | nil => exact nofun
  | cons f fs ih =>
    intro h
    rw [assignName]
    cases hf : f x with
    | some w =>
      rw [Option.isSome_some, if_pos rfl, lookupName]
      by_cases hy : y = x
      · rw [if_pos hy, hy, Function.update_self]
      · rw [if_neg hy, Function.update_of_ne hy]
        rfl
    | none =>
      rw [Option.isSome_none, if_neg Bool.false_ne_true, lookupName]
      have hrec : (lookupName x fs).isSome := by
        rw [lookupName, hf] at h
        exact h
      by_cases hy : y = x
      · subst hy
        rw [hf, if_pos rfl]
        exact (ih hrec).trans (if_pos rfl)
      · rw [if_neg hy, lookupName]
        cases hfy : f y with
        | some w => rfl
        | none => exact (ih hrec).trans (if_neg hy)

/-- A number written out is the double it was read as. -/
theorem NumericLiteral.ofInt_integer {n : NumericLiteral} {k : ℤ} (h : n.integer = some k) :
    Binary64.ofInt k = n.value := by
  rw [NumericLiteral.integer] at h
  cases hk : Binary64.integer n.value with
  | none => simp only [hk, reduceCtorEq] at h
  | some k' =>
    simp only [hk] at h
    split_ifs at h with hle
    obtain rfl := Option.some.inj h
    have hvalue := Binary64.value_of_integer hk
    have hback := Binary64.value_ofInt (n := k') (by omega)
    obtain heq | hzero := Binary64.value_injective hback hvalue
    · exact heq
    · have hk0 : k' = 0 := by
        rcases mul_eq_zero.mp hzero with hz | hz
        · exact hz
        · exact absurd hz (by rw [Binary64.one]; positivity)
      subst hk0
      rw [zero_mul] at hvalue
      obtain hw | hw := Binary64.value_eq_zero hvalue
      · rw [hw]
        decide
      · have hun := n.unsigned
        rw [hw] at hun
        exact absurd hun (by decide)

/-- A callback's parameter is the only one. -/
theorem FunctionHead.names_of_callbackParameter {head : FunctionHead} {p : String}
    (h : head.callbackParameter = .ok p) : head.names = [some p] ∧ head.isPlain = true := by
  rw [FunctionHead.callbackParameter] at h
  split_ifs at h with hkind hinit hnamed
  split at h
  · next q hq =>
    split at h
    · next name hname =>
      obtain rfl := Except.ok.inj h
      rw [hq] at hinit
      simp only [Bool.or_eq_true, not_or, Bool.not_eq_true] at hkind hnamed
      refine ⟨by rw [FunctionHead.names, hq, List.map_cons, hname]; rfl, ?_⟩
      simp only [FunctionHead.isPlain, hkind.1.1, hkind.1.2, hkind.2, hnamed, hq, List.all_cons,
        List.all_nil, hname, Bool.and_true, Bool.not_false, Bool.true_and, Option.isSome_some]
      simpa only [List.any_cons, List.any_nil, Bool.or_false, Bool.not_eq_true,
        Bool.not_eq_true'] using hinit
    · cases h
  · cases h

theorem ownedSlots_append (ss rest : List ValidationStatement) :
    ownedSlots (ss ++ rest) = ownedSlots ss ++ ownedSlots rest := by
  induction ss with
  | nil => rw [List.nil_append, ownedSlots, List.nil_append]
  | cons s ss ih => rw [List.cons_append, ownedSlots, ownedSlots, ih, List.append_assoc]

/-- A statement that binds nothing. -/
theorem owned_of_not_binding {L : Lower} {s : ValidationStatement} (h : s.ownedSlots = [])
    {i : ℕ} : i ∈ ownedSlots [s] ↔ L.SlotAmong [] i := by
  rw [ownedSlots, ownedSlots, h]
  exact ⟨nofun, fun hi => absurd hi Lower.not_slotAmong_nil⟩

mutual

/-- **A lowered statement owns the slots of the names it declares.** -/
theorem LowersStatement.owned {L L' : Lower} {s : Stmt} {ss : List ValidationStatement} {i : ℕ} :
    LowersStatement L s ss L' → (i ∈ ownedSlots ss ↔ L.SlotAmong s.bindingNames i)
  | .declaration h => by
    rw [Stmt.bindingNames]
    exact h.owned
  | .ifElse h h' h'' => by
    rw [ownedSlots, ownedSlots, List.append_nil, ValidationStatement.ownedSlots,
      Stmt.bindingNames, Lower.slotAmong_append, List.mem_append, h'.owned, h''.owned,
      (h.same.1.trans h'.same.1).slotAmong, h.same.1.slotAmong]
  | .ifThen h h' => by
    rw [ownedSlots, ownedSlots, List.append_nil, ValidationStatement.ownedSlots,
      Stmt.bindingNames, ownedSlots, List.append_nil, h'.owned, h.same.1.slotAmong]
  | .block h => by
    rw [Stmt.bindingNames]
    exact h.owned
  | .return _ => owned_of_not_binding rfl
  | .expression _ => owned_of_not_binding rfl
  | .fatal _ _ _ _ _ => owned_of_not_binding rfl

theorem LowersStatements.owned {L L' : Lower} {body : List Stmt}
    {ss : List ValidationStatement} {i : ℕ} :
    LowersStatements L body ss L' → (i ∈ ownedSlots ss ↔ L.SlotAmong (bindingNames body) i)
  | .nil => by
    rw [ownedSlots, bindingNames]
    exact ⟨nofun, fun hi => absurd hi Lower.not_slotAmong_nil⟩
  | .cons h h' => by
    rw [ownedSlots_append, List.mem_append, bindingNames, Lower.slotAmong_append, h.owned,
      h'.owned, h.same.1.slotAmong]

theorem LowersDeclarations.owned {L L' : Lower} {isVar : Bool}
    {ds : List (Option String × Option Expr)} {ss : List ValidationStatement} {i : ℕ} :
    LowersDeclarations L isVar ds ss L' →
      (i ∈ ownedSlots ss ↔ L.SlotAmong (ds.filterMap Prod.fst) i)
  | .nil => by
    rw [ownedSlots]
    exact ⟨nofun, fun hi => absurd hi Lower.not_slotAmong_nil⟩
  | @LowersDeclarations.cons L x slot e r L₁ ds rest L₂ hslot h h' => by
    have hsame := h.same.1.trans (L₁.bindArray_same slot r)
    have hhead : L.SlotAmong [x] i ↔ i = slot := by
      constructor
      · rintro ⟨y, hy, hyi⟩
        rw [List.mem_singleton.mp hy, hslot] at hyi
        exact (Option.some.inj hyi).symm
      · rintro rfl
        exact ⟨x, List.mem_singleton_self x, hslot⟩
    rw [ownedSlots, ValidationStatement.ownedSlots, List.mem_append, List.mem_singleton,
      show ((some x, some e) :: ds).filterMap Prod.fst = [x] ++ ds.filterMap Prod.fst from rfl,
      Lower.slotAmong_append, h'.owned, hhead, hsame.slotAmong]

end

/-! ### States side by side -/

/-- The slots from here on belong to the function under way. -/
def Lower.floor (L : Lower) : ℕ := if L.mapDepth = 0 then 0 else L.mapFloor

/-- The names that the compiler knows, apart from what they hold. -/
structure Lower.Scoped (L : Lower) (scope : ModuleScope) (hidden : String → Prop) : Prop where
  requires : L.requires = scope.loaders
  receiver : L.receiver = scope.receiver
  kinds : ∀ x e, L.locals x = some e →
    (∃ i, e = .slot i ∧ i < L.slots) ∨ ∃ i, e = .argument i
  injective : ∀ x y i, L.locals x = some (.slot i) → L.locals y = some (.slot i) → x = y
  arrays : ∀ i ∈ L.arrays, i < L.slots
  fourth : L.mapDepth = 0 → ∀ x, L.locals x = some (.argument 3) → hidden x

/-- What holds of the two states while the names `pending` are still to be declared. -/
structure Related (L : Lower) (hidden : String → Prop) (env : ℕ → Value) (rest : List Frame)
    (snap : ℕ → Value) (pending : List String) (js : Machine (List Frame))
    (ir : Machine (ℕ → Value)) : Prop where
  calls : js.calls = ir.calls
  frames : ∃ f, js.memory = f :: rest ∧
    ∀ x i, L.locals x = some (.slot i) → L.floor ≤ i → (f x).isSome
  bound : ∀ x, lookupName x js.memory = none ↔ L.locals x = none
  slots : ∀ x i, L.locals x = some (.slot i) → lookupName x js.memory = some (ir.memory i)
  arguments : ∀ x i, L.locals x = some (.argument i) → (L.mapDepth ≠ 0 → ¬hidden x) →
    lookupName x js.memory = some (env i)
  outer : ∀ i < L.floor, ir.memory i = snap i
  arrays : ∀ i ∈ L.arrays, i ∉ L.mutable → (ir.memory i).isBytes = false
  pending : ∀ x ∈ pending, ∀ i, L.locals x = some (.slot i) → i ∉ L.mutable →
    ir.memory i = .undefined ∧ i ∉ L.arrays

/-- What holds when a function has been left: what lies outside has not changed. -/
structure Kept (floor : ℕ) (rest : List Frame) (snap : ℕ → Value) (js : Machine (List Frame))
    (ir : Machine (ℕ → Value)) : Prop where
  calls : js.calls = ir.calls
  frames : js.memory.tail = rest
  outer : ∀ i < floor, ir.memory i = snap i

section States

variable {L L' : Lower} {scope : ModuleScope} {hidden : String → Prop} {env : ℕ → Value}
  {rest : List Frame} {snap : ℕ → Value} {pending pending' : List String}
  {js : Machine (List Frame)} {ir : Machine (ℕ → Value)}

theorem Related.kept (h : Related L hidden env rest snap pending js ir) :
    Kept L.floor rest snap js ir := by
  obtain ⟨f, hf, -⟩ := h.frames
  exact ⟨h.calls, by rw [hf]; rfl, h.outer⟩

theorem Lower.Same.floor (h : L.Same L') : L'.floor = L.floor := by
  rw [Lower.floor, Lower.floor, h.mapDepth]
  split_ifs with hd
  · rfl
  · exact h.mapFloor hd

theorem Lower.Same.scoped (h : L.Same L') (hs : L.Scoped scope hidden)
    (harrays : ∀ i ∈ L'.arrays, i < L'.slots) : L'.Scoped scope hidden where
  requires := h.requires.trans hs.requires
  receiver := h.receiver.trans hs.receiver
  kinds := by
    intro x e he
    rw [h.locals] at he
    exact (hs.kinds x e he).imp_left fun ⟨i, hi, hlt⟩ => ⟨i, hi, hlt.trans_le h.slots⟩
  injective := by
    rw [h.locals]
    exact hs.injective
  arrays := harrays
  fourth := by
    rw [h.mapDepth, h.locals]
    exact hs.fourth

/-- A visible slot has been given out. -/
theorem Lower.Scoped.slot_lt (hs : L.Scoped scope hidden) {x : String} {i : ℕ}
    (hx : L.locals x = some (.slot i)) : i < L.slots := by
  obtain ⟨j, hj, hlt⟩ | ⟨j, hj⟩ := hs.kinds x _ hx
  · exact ValidationExpression.slot.inj hj ▸ hlt
  · cases hj

theorem Lower.Learns.arrays_lt {names : List String} (h : Lower.Learns names L L')
    (hsame : L.Same L') (hs : L.Scoped scope hidden) : ∀ i ∈ L'.arrays, i < L'.slots := by
  intro i hi
  obtain hi | ⟨x, -, hx⟩ := h i hi
  · exact (hs.arrays i hi).trans_le hsame.slots
  · exact (hs.slot_lt (Lower.slotOf_eq_some.mp hx)).trans_le hsame.slots

theorem LowersExpr.scoped {e : Expr} {r : ValidationExpression} (h : LowersExpr L e r L')
    (hs : L.Scoped scope hidden) : L'.Scoped scope hidden :=
  h.same.1.scoped hs fun i hi => (hs.arrays i (h.same.2 ▸ hi)).trans_le h.same.1.slots

/-- Learning nothing keeps the relation. -/
theorem Related.same (hsame : L.Same L') (harrays : L'.arrays = L.arrays)
    (h : Related L hidden env rest snap pending js ir) :
    Related L' hidden env rest snap pending js ir where
  calls := h.calls
  frames := by
    rw [hsame.locals, hsame.floor]
    exact h.frames
  bound := by
    rw [hsame.locals]
    exact h.bound
  slots := by
    rw [hsame.locals]
    exact h.slots
  arguments := by
    rw [hsame.locals, hsame.mapDepth]
    exact h.arguments
  outer := by
    rw [hsame.floor]
    exact h.outer
  arrays := by
    rw [harrays, hsame.mutable]
    exact h.arrays
  pending := by
    rw [harrays, hsame.locals, hsame.mutable]
    exact h.pending

/-- Some declarations may be passed over: their slots are undefined. -/
theorem Related.skip {names : List String} (hsame : L.Same L')
    (hlearns : Lower.Learns names L L')
    (hapart : ∀ x ∈ pending, ∀ i, L.locals x = some (.slot i) → i ∉ L.mutable → x ∉ names)
    (hs : L.Scoped scope hidden)
    (h : Related L hidden env rest snap (names ++ pending) js ir) :
    Related L' hidden env rest snap pending js ir where
  calls := h.calls
  frames := by
    rw [hsame.locals, hsame.floor]
    exact h.frames
  bound := by
    rw [hsame.locals]
    exact h.bound
  slots := by
    rw [hsame.locals]
    exact h.slots
  arguments := by
    rw [hsame.locals, hsame.mapDepth]
    exact h.arguments
  outer := by
    rw [hsame.floor]
    exact h.outer
  arrays := by
    intro i hi hmut
    rw [hsame.mutable] at hmut
    obtain hi | ⟨x, hx, hslot⟩ := hlearns i hi
    · exact h.arrays i hi hmut
    · rw [(h.pending x (List.mem_append_left _ hx) i (Lower.slotOf_eq_some.mp hslot) hmut).1]
      rfl
  pending := by
    intro x hx i hslot hmut
    rw [hsame.locals] at hslot
    rw [hsame.mutable] at hmut
    obtain ⟨hundef, hnot⟩ := h.pending x (List.mem_append_right _ hx) i hslot hmut
    refine ⟨hundef, fun hi => ?_⟩
    obtain hi | ⟨y, hy, hyslot⟩ := hlearns i hi
    · exact hnot hi
    · have hyx := hs.injective y x i (Lower.slotOf_eq_some.mp hyslot) hslot
      exact hapart x hx i hslot hmut (hyx ▸ hy)

/-- **Writing a variable and its slot keeps the relation.** -/
theorem Related.write (hs : L.Scoped scope hidden)
    (h : Related L hidden env rest snap pending js ir) {x : String} {i : ℕ} {v : Value}
    (hx : L.locals x = some (.slot i)) (hfloor : L.floor ≤ i)
    (harray : i ∈ L.arrays → i ∉ L.mutable → v.isBytes = false)
    (hsub : ∀ y ∈ pending', y ∈ pending) (hpending : x ∈ pending' → i ∈ L.mutable) :
    Related L hidden env rest snap pending' { js with memory := assignName x v js.memory }
      { ir with memory := Function.update ir.memory i v } := by
  have hsome : (lookupName x js.memory).isSome := by
    rw [h.slots x i hx]
    rfl
  have hlookup : ∀ y, lookupName y (assignName x v js.memory) =
      if y = x then some v else lookupName y js.memory := fun y => lookupName_assignName hsome
  have hother : ∀ {y j}, L.locals y = some (.slot j) → y ≠ x → j ≠ i := by
    rintro y j hy hne rfl
    exact hne (hs.injective y x j hy hx)
  have hself : { ir with memory := Function.update ir.memory i v }.memory i = v :=
    Function.update_self ..
  have hmem : ∀ {j}, j ≠ i →
      { ir with memory := Function.update ir.memory i v }.memory j = ir.memory j :=
    fun hj => Function.update_of_ne hj ..
  obtain ⟨f, hf, hown⟩ := h.frames
  refine ⟨h.calls, ?_, ?_, ?_, ?_, ?_, ?_, ?_⟩
  · refine ⟨Function.update f x (some v), ?_, ?_⟩
    · show assignName x v js.memory = _
      rw [hf, assignName, if_pos (hown x i hx hfloor)]
    · intro y j hy hle
      by_cases hyx : y = x
      · rw [hyx, Function.update_self]
        rfl
      · rw [Function.update_of_ne hyx]
        exact hown y j hy hle
  · intro y
    rw [hlookup]
    by_cases hyx : y = x
    · rw [if_pos hyx, hyx, hx]
      exact ⟨nofun, nofun⟩
    · rw [if_neg hyx]
      exact h.bound y
  · intro y j hy
    rw [hlookup]
    by_cases hyx : y = x
    · rw [hyx, hx] at hy
      obtain rfl := ValidationExpression.slot.inj (Option.some.inj hy)
      rw [if_pos hyx, hself]
    · rw [if_neg hyx, hmem (hother hy hyx)]
      exact h.slots y j hy
  · intro y j hy hhidden
    have hyx : y ≠ x := by
      rintro rfl
      rw [hx] at hy
      cases hy
    rw [hlookup, if_neg hyx]
    exact h.arguments y j hy hhidden
  · intro j hj
    rw [hmem (show j ≠ i by omega)]
    exact h.outer j hj
  · intro j hj hmut
    rcases eq_or_ne j i with rfl | hne
    · rw [hself]
      exact harray hj hmut
    · rw [hmem hne]
      exact h.arrays j hj hmut
  · intro y hy j hslot hmut
    have hne : j ≠ i := by
      rintro rfl
      rcases eq_or_ne y x with rfl | hyx
      · exact hmut (hpending hy)
      · exact hother hslot hyx rfl
    rw [hmem hne]
    exact h.pending y (hsub y hy) j hslot hmut

/-- A module is loaded under the same names. -/
theorem Related.module_eq (hs : L.Scoped scope hidden)
    (h : Related L hidden env rest snap pending js ir) (e : Expr) :
    loaded scope js.memory e = L.module e := by
  fun_induction Lower.module L e with
  | case1 e ih => exact ih
  | case2 f name hmem =>
    rw [loaded, if_pos ⟨hs.requires ▸ hmem.1, (h.bound f).mpr hmem.2⟩]
  | case3 f name hnot =>
    rw [loaded, if_neg fun hmem => hnot ⟨hs.requires ▸ hmem.1, (h.bound f).mp hmem.2⟩]
  | case4 e hparen hcall =>
    rw [loaded]
    · exact hparen
    · exact hcall

/-- A state that agrees on what the compiler knows is related too. -/
theorem Related.agree (hs : L.Scoped scope hidden) (hfloor : L.floor = 0)
    (h : Related L hidden env rest snap pending js ir) {js' : Machine (List Frame)}
    {ir' : Machine (ℕ → Value)} (hcalls : js'.calls = ir'.calls)
    (hmemory : js'.memory = js.memory) (hslots : ∀ i < L.slots, ir'.memory i = ir.memory i) :
    Related L hidden env rest snap pending js' ir' where
  calls := hcalls
  frames := by
    rw [hmemory]
    exact h.frames
  bound := by
    rw [hmemory]
    exact h.bound
  slots := by
    intro x i hx
    rw [hmemory, hslots i (hs.slot_lt hx)]
    exact h.slots x i hx
  arguments := by
    rw [hmemory]
    exact h.arguments
  outer := by
    intro i hi
    rw [hfloor] at hi
    exact absurd hi (Nat.not_lt_zero i)
  arrays := by
    intro i hi hmut
    rw [hslots i (hs.arrays i hi)]
    exact h.arrays i hi hmut
  pending := by
    intro x hx i hslot hmut
    rw [hslots i (hs.slot_lt hslot)]
    exact h.pending x hx i hslot hmut

end States

/-! ### Callbacks -/

section Callbacks

variable {L L₂ : Lower} {scope : ModuleScope} {hidden : String → Prop} {env : ℕ → Value}
  {rest : List Frame} {snap : ℕ → Value} {pending : List String} {js : Machine (List Frame)}
  {ir : Machine (ℕ → Value)} {body : List Stmt} {p : String}

/-- Names in a callback: its own, its parameter, and those around it. -/
theorem Lower.Enters.cases (henter : Lower.Enters body (L.enterCallback p) L₂) {x : String}
    (hx : x ∉ bindingNames body) :
    L₂.locals x = if x = p then some (.argument 3) else L.locals x := by
  rw [henter.other x hx]
  show Function.update L.locals p (some (.argument 3)) x = _
  by_cases hxp : x = p
  · rw [if_pos hxp, hxp, Function.update_self]
  · rw [if_neg hxp, Function.update_of_ne hxp]

theorem Lower.Enters.parameter_not_mem (henter : Lower.Enters body (L.enterCallback p) L₂) :
    p ∉ bindingNames body := fun hp =>
  henter.noArgument p hp 3 (Function.update_self ..)

theorem Lower.Enters.callback_floor (henter : Lower.Enters body (L.enterCallback p) L₂) :
    L₂.mapDepth ≠ 0 ∧ L₂.floor = L.slots := by
  have hdepth : L₂.mapDepth = L.mapDepth + 1 := by rw [henter.rest]; rfl
  have hfloor : L₂.mapFloor = L.slots := by rw [henter.rest]; rfl
  refine ⟨by omega, ?_⟩
  rw [Lower.floor, if_neg (by omega), hfloor]

theorem Lower.Enters.callback_scoped (henter : Lower.Enters body (L.enterCallback p) L₂)
    (hs : L.Scoped scope hidden) : L₂.Scoped scope fun x => hidden x ∧ x ≠ p where
  requires := by
    rw [henter.rest]
    exact hs.requires
  receiver := by
    rw [henter.rest]
    exact hs.receiver
  kinds := by
    intro x e he
    by_cases hx : x ∈ bindingNames body
    · obtain ⟨i, hi, -, hlt⟩ := henter.fresh x hx
      rw [hi] at he
      exact .inl ⟨i, (Option.some.inj he).symm, hlt⟩
    · rw [henter.cases hx] at he
      split_ifs at he with hxp
      · exact .inr ⟨3, (Option.some.inj he).symm⟩
      · exact (hs.kinds x e he).imp_left fun ⟨i, hi, hlt⟩ =>
          ⟨i, hi, hlt.trans_le henter.slots⟩
  injective := by
    have hapart : ∀ {x y i}, x ∈ bindingNames body → y ∉ bindingNames body →
        L₂.locals x = some (.slot i) → L₂.locals y = some (.slot i) → False := by
      intro x y i hx hy hxi hyi
      obtain ⟨j, hj, hle, -⟩ := henter.fresh x hx
      rw [hj] at hxi
      obtain rfl := ValidationExpression.slot.inj (Option.some.inj hxi)
      rw [henter.cases hy] at hyi
      split_ifs at hyi
      · cases hyi
      · exact absurd (hs.slot_lt hyi) (not_lt.mpr hle)
    intro x y i hxi hyi
    by_cases hx : x ∈ bindingNames body
    · by_cases hy : y ∈ bindingNames body
      · exact henter.injective x hx y hy (hxi.trans hyi.symm)
      · exact (hapart hx hy hxi hyi).elim
    · by_cases hy : y ∈ bindingNames body
      · exact (hapart hy hx hyi hxi).elim
      · rw [henter.cases hx] at hxi
        rw [henter.cases hy] at hyi
        split_ifs at hxi
        · cases hxi
        · split_ifs at hyi
          · cases hyi
          · exact hs.injective x y i hxi hyi
  arrays := by
    intro i hi
    rw [henter.rest] at hi
    exact (hs.arrays i hi).trans_le henter.slots
  fourth := fun hdepth => absurd hdepth henter.callback_floor.1

/-- **Entering a callback.**  Its frame and its cleared slots extend the states around it. -/
theorem Related.enter (hs : L.Scoped scope hidden) (hdepth : L.mapDepth = 0)
    (henter : Lower.Enters body (L.enterCallback p) L₂)
    (h : Related L hidden env rest snap pending js ir) {owned : List ℕ}
    (howned : ∀ i, i ∈ owned ↔ L₂.SlotAmong (bindingNames body) i) {arguments : ℕ → Value} :
    Related L₂ (fun x => hidden x ∧ x ≠ p) (Function.update env 3 (arguments 0)) js.memory
      ir.memory (bindingNames body)
      { js with
        memory := enterFrame [some p] (bindingNames body) arguments :: js.memory }
      { ir with memory := clearSlots owned ir.memory } := by
  have hparam : enterFrame [some p] (bindingNames body) arguments p = some (arguments 0) := by
    rw [enterFrame, lastIndex, lastIndex, if_pos rfl]
  have hname : ∀ {x}, x ≠ p → enterFrame [some p] (bindingNames body) arguments x =
      if x ∈ bindingNames body then some .undefined else none := by
    intro x hx
    rw [enterFrame, lastIndex, lastIndex, if_neg fun he => hx (Option.some.inj he).symm]
  have hne : ∀ {x}, x ∈ bindingNames body → x ≠ p := by
    rintro x hx rfl
    exact henter.parameter_not_mem hx
  have hlookup : ∀ {x}, x ≠ p → x ∉ bindingNames body →
      lookupName x (enterFrame [some p] (bindingNames body) arguments :: js.memory) =
        lookupName x js.memory := by
    intro x hxp hx
    rw [lookupName, hname hxp, if_neg hx]
  have hfresh : ∀ {x i}, x ∈ bindingNames body → L₂.locals x = some (.slot i) →
      L.slots ≤ i ∧ i ∈ owned := by
    intro x i hx hxi
    obtain ⟨j, hj, hle, -⟩ := henter.fresh x hx
    have hij := ValidationExpression.slot.inj (Option.some.inj (hj.symm.trans hxi))
    exact ⟨hij ▸ hle, (howned i).mpr ⟨x, hx, Lower.slotOf_eq_some.mpr hxi⟩⟩
  have hlow : ∀ i < L.slots, clearSlots owned ir.memory i = ir.memory i := by
    intro i hi
    rw [clearSlots, if_neg]
    intro hmem
    obtain ⟨x, hx, hxi⟩ := (howned i).mp hmem
    exact absurd hi (not_lt.mpr (hfresh hx (Lower.slotOf_eq_some.mp hxi)).1)
  have hmutable : ∀ {i}, i ∉ L₂.mutable → i ∉ L.mutable := fun hi hm => hi (henter.mutable _ hm)
  have harrays : L₂.arrays = L.arrays := by rw [henter.rest]; rfl
  obtain ⟨hdepth₂, hfloor⟩ := henter.callback_floor
  refine ⟨h.calls, ⟨_, rfl, ?_⟩, ?_, ?_, ?_, ?_, ?_, ?_⟩
  · intro x i hxi hle
    by_cases hx : x ∈ bindingNames body
    · rw [hname (hne hx), if_pos hx]
      rfl
    · rw [henter.cases hx] at hxi
      split_ifs at hxi
      · cases hxi
      · exact absurd (hs.slot_lt hxi) (not_lt.mpr (hfloor ▸ hle))
  · intro x
    by_cases hx : x ∈ bindingNames body
    · obtain ⟨i, hi, -, -⟩ := henter.fresh x hx
      rw [lookupName, hname (hne hx), if_pos hx, hi]
      exact ⟨nofun, nofun⟩
    · rw [henter.cases hx]
      by_cases hxp : x = p
      · subst hxp
        rw [lookupName, hparam, if_pos rfl]
        exact ⟨nofun, nofun⟩
      · rw [hlookup hxp hx, if_neg hxp]
        exact h.bound x
  · intro x i hxi
    by_cases hx : x ∈ bindingNames body
    · rw [lookupName, hname (hne hx), if_pos hx]
      show some Value.undefined = some (clearSlots owned ir.memory i)
      rw [clearSlots, if_pos (hfresh hx hxi).2]
    · rw [henter.cases hx] at hxi
      by_cases hxp : x = p
      · rw [if_pos hxp] at hxi
        cases hxi
      · rw [if_neg hxp] at hxi
        rw [hlookup hxp hx]
        show _ = some (clearSlots owned ir.memory i)
        rw [hlow i (hs.slot_lt hxi)]
        exact h.slots x i hxi
  · intro x i hxi hvisible
    by_cases hx : x ∈ bindingNames body
    · obtain ⟨j, hj, -, -⟩ := henter.fresh x hx
      rw [hj] at hxi
      cases hxi
    · rw [henter.cases hx] at hxi
      by_cases hxp : x = p
      · subst hxp
        rw [if_pos rfl] at hxi
        obtain rfl := ValidationExpression.argument.inj (Option.some.inj hxi)
        rw [lookupName, hparam, Function.update_self]
      · rw [if_neg hxp] at hxi
        have hi : i ≠ 3 := by
          rintro rfl
          exact hvisible hdepth₂ ⟨hs.fourth hdepth x hxi, hxp⟩
        rw [hlookup hxp hx, Function.update_of_ne hi]
        exact h.arguments x i hxi fun hne => absurd hdepth hne
  · intro i hi
    exact hlow i (hfloor ▸ hi)
  · intro i hi hmut
    rw [harrays] at hi
    show (clearSlots owned ir.memory i).isBytes = false
    rw [hlow i (hs.arrays i hi)]
    exact h.arrays i hi (hmutable hmut)
  · intro x hx i hxi _
    obtain ⟨hle, hmem⟩ := hfresh hx hxi
    refine ⟨?_, fun hi => ?_⟩
    · show clearSlots owned ir.memory i = _
      rw [clearSlots, if_pos hmem]
    · rw [harrays] at hi
      exact absurd (hs.arrays i hi) (not_lt.mpr hle)

/-- **Leaving a callback** gives the states around it back. -/
theorem Related.leave (hs : L.Scoped scope hidden) (hdepth : L.mapDepth = 0)
    (h : Related L hidden env rest snap pending js ir) (owned : List ℕ)
    {js' : Machine (List Frame)} {ir' : Machine (ℕ → Value)}
    (hkept : Kept L.slots js.memory ir.memory js' ir') :
    Related L hidden env rest snap pending { js' with memory := js'.memory.tail }
      { ir' with memory := restoreSlots owned ir.memory ir'.memory } := by
  refine h.agree hs (by rw [Lower.floor, if_pos hdepth]) hkept.calls hkept.frames ?_
  intro i hi
  show restoreSlots owned ir.memory ir'.memory i = ir.memory i
  rw [restoreSlots]
  split_ifs
  · rfl
  · exact hkept.outer i hi

end Callbacks

end Whatspec.Appstate

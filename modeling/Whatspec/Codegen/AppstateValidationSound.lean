import Whatspec.Codegen.AppstateValidation

/-!
# The native code of validators preserves meaning

From the JavaScript of a method to its program, and from there to the code emitted for it, the
outcome stays the same.  What the compiler of validators does not look at is whether a body can
run off its end: JavaScript gives `undefined` then, and the emitted code does not compile.

* `rust_emits` and `rustStatements_emits`: the code does what the program does;
* `runRust_ne_none`: a body that compiles never runs off its end;
* `JsFunction.HasValues` says of the source which methods compile;
* the main result joins both translations.
-/

namespace Whatspec.Appstate

open Whatspec.Library Whatspec.Library.Comp

/-! ### The code does what the program does -/

section Emitted

variable {W : World}

/-- The locals are the arguments, and the item of a callback is argument 3. -/
structure Locals (locals : RustName → Value) (env : ℕ → Value) : Prop where
  parameter : ∀ i, i ≠ 3 → locals (.parameter i) = env i
  item : locals .item = env 3

theorem Locals.argument {locals : RustName → Value} {env : ℕ → Value} (h : Locals locals env)
    (i : ℕ) : locals (if i = 3 then .item else .parameter i) = env i := by
  by_cases hi : i = 3
  · rw [if_pos hi, hi, h.item]
  · rw [if_neg hi, h.parameter i hi]

/-- Names of intermediate values do not matter. -/
theorem Locals.letIn {locals : RustName → Value} {env : ℕ → Value} (h : Locals locals env)
    {n : RustName} (hn : n = .left ∨ n = .right) (v : Value) :
    Locals (Function.update locals n v) env := by
  rcases hn with rfl | rfl
  · exact ⟨fun i hi => by rw [Function.update_of_ne (by nofun)]; exact h.parameter i hi,
      by rw [Function.update_of_ne (by nofun)]; exact h.item⟩
  · exact ⟨fun i hi => by rw [Function.update_of_ne (by nofun)]; exact h.parameter i hi,
      by rw [Function.update_of_ne (by nofun)]; exact h.item⟩

theorem Locals.enter {locals : RustName → Value} {env : ℕ → Value} (h : Locals locals env)
    (v : Value) : Locals (Function.update locals .item v) (Function.update env 3 v) := by
  refine ⟨fun i hi => ?_, ?_⟩
  · rw [Function.update_of_ne (by nofun), Function.update_of_ne hi]
    exact h.parameter i hi
  · rw [Function.update_self, Function.update_self]

/-- The code does what the program does, where fatal errors are reported with this collection. -/
def Emits {α : Type} (collection : Value) (x : Rust α) (y : Run (ℕ → Value) α) : Prop :=
  y = mapExit (RustExit.exit collection) x

variable {c : Value}

theorem Emits.pure {α : Type} (a : α) : Emits c (pure a) (pure a) := rfl

protected theorem Emits.bind {α β : Type} {x : Rust α} {y : Run (ℕ → Value) α} {f : α → Rust β}
    {g : α → Run (ℕ → Value) β} (hx : Emits c x y) (hf : ∀ a, Emits c (f a) (g a)) :
    Emits c (x >>= f) (y >>= g) := by
  rw [Emits, mapExit_bind, ← hx]
  congr 1
  funext a
  exact hf a

theorem Emits.ite {α : Type} {b : Bool} {x x' : Rust α} {y y' : Run (ℕ → Value) α}
    (h : Emits c x y) (h' : Emits c x' y') :
    Emits c (if b then x else x') (if b then y else y') := by
  cases b with
  | true => exact h
  | false => exact h'

/-- What exits only by throwing. -/
theorem Emits.thrown {α : Type} {y : Run (ℕ → Value) α}
    (h : ∀ m e m', y m = (.error e, m') → ∃ errorClass, e = .thrown errorClass) :
    Emits c (mapExit Exit.rust y) y := by
  funext m
  rw [mapExit, mapExit]
  cases hy : y m with
  | mk r m' =>
    cases r with
    | ok a => rfl
    | error e =>
      obtain ⟨errorClass, rfl⟩ := h m e m' hy
      rfl

theorem Emits.call (callee : Callee) (arguments : List Value) :
    Emits c (mapExit Exit.rust (Run.call W callee arguments)) (Run.call W callee arguments) := by
  refine Emits.thrown fun m e m' h => ?_
  rw [Run.call] at h
  cases hw : W.answer m.calls ⟨callee, arguments⟩ with
  | ok v =>
    simp only [hw] at h
    cases (Prod.mk.inj h).1
  | error errorClass =>
    simp only [hw] at h
    exact ⟨errorClass, (Except.error.inj (Prod.mk.inj h).1).symm⟩

theorem Emits.field (v : Value) (key : String) :
    Emits c (mapExit Exit.rust (ofExcept (v.field key))) (ofExcept (v.field key)) := by
  refine Emits.thrown fun m e m' h => ?_
  have hfield : v.field key = .error e := (Prod.mk.inj h).1
  rw [Value.field] at hfield
  split_ifs at hfield
  exact ⟨_, (Except.error.inj hfield).symm⟩

theorem Emits.items (v : Value) :
    Emits c (mapExit Exit.rust (ofExcept v.items)) (ofExcept v.items) := by
  refine Emits.thrown fun m e m' h => ?_
  have hitems : v.items = .error e := (Prod.mk.inj h).1
  cases v with
  | array items => cases hitems
  | _ => exact ⟨_, (Except.error.inj hitems).symm⟩

theorem Emits.withLets {α : Type} (slots : List ℕ) {x : Rust α} {y : Run (ℕ → Value) α}
    (h : Emits c x y) : Emits c (withLets slots x) (withSlots slots y) := by
  rw [Whatspec.Appstate.withLets, withSlots]
  refine Emits.bind rfl fun m => Emits.bind rfl fun _ => h.bind fun a => ?_
  exact Emits.bind rfl fun _ => rfl

/-- A body that never runs off its end returns what it returns. -/
theorem Emits.returned {x : Rust (Option Value)} {y : Run (ℕ → Value) (Option Value)}
    (h : Emits c x y) (hnever : ∀ m m', x m ≠ (.ok none, m')) :
    Emits c (x >>= Rust.returned) (y >>= fun r => Pure.pure (r.getD .undefined)) := by
  rw [Emits, mapExit_bind, ← h]
  funext m
  rw [bind_apply, bind_apply]
  have hm : y m = mapExit (RustExit.exit c) x m := congrFun h m
  rw [mapExit] at hm
  cases hx : x m with
  | mk r m' =>
    rw [hx] at hm
    rw [hm]
    cases r with
    | error e => rfl
    | ok returned =>
      cases returned with
      | none => exact absurd hx (hnever m m')
      | some v => rfl

theorem Emits.traverse {α β : Type} {f : α → Rust β} {g : α → Run (ℕ → Value) β}
    (h : ∀ a, Emits c (f a) (g a)) (as : List α) :
    Emits c (Comp.traverse f as) (Comp.traverse g as) := by
  rw [Emits, mapExit_traverse]
  congr 1
  funext a
  exact h a

/-! ### Bodies that never run off their ends -/

mutual

theorem anyDiverges_of_closes {before : Bool} :
    {s : Shape} → s.closes before = true → before = true ∨ s.diverges = true
  | .passes, h => .inl h
  | .leaves, _ => .inr rfl
  | .branches yes no, h => by
    rw [Shape.closes, Bool.and_eq_true] at h
    rw [Shape.diverges, Bool.and_eq_true]
    refine .inr ⟨?_, ?_⟩
    · exact (anyDiverges_of_hasValue h.1).resolve_left Bool.false_ne_true
    · exact (anyDiverges_of_hasValue h.2).resolve_left Bool.false_ne_true

/-- What has a value is left somewhere. -/
theorem anyDiverges_of_hasValue {before : Bool} :
    {ss : List Shape} → hasValue before ss = true → before = true ∨ anyDiverges ss = true
  | [], h => .inl h
  | [s], h => by
    rw [anyDiverges, Bool.or_eq_true]
    exact (anyDiverges_of_closes h).imp_right .inl
  | s :: next :: ss, h => by
    rw [hasValue] at h
    rw [anyDiverges, Bool.or_eq_true, ← or_assoc]
    refine (anyDiverges_of_hasValue h).imp_left fun hb => ?_
    exact Bool.or_eq_true_iff.mp hb

end

theorem bind_ne_none {α : Type} {x : Rust α} {f : α → Rust (Option Value)}
    (h : ∀ a m m', f a m ≠ (.ok none, m')) (m m' : Machine (ℕ → Value)) :
    (x >>= f) m ≠ (.ok none, m') := by
  rw [bind_apply]
  cases x m with
  | mk r m'' =>
    cases r with
    | error e => exact nofun
    | ok a => exact h a m'' m'

mutual

theorem RustStmt.run_ne_none {locals : RustName → Value} :
    {s : RustStmt} → s.shape.diverges = true → ∀ m m', s.run W locals m ≠ (.ok none, m')
  | .assign _ _, h => nomatch h
  | .discard _, h => nomatch h
  | .ifElse condition yes no, h => by
    rw [RustStmt.shape, Shape.diverges, Bool.and_eq_true] at h
    rw [RustStmt.run]
    refine bind_ne_none fun v m m' => ?_
    by_cases hv : v.truthy = true
    · rw [if_pos hv]
      exact runRust_ne_none h.1 m m'
    · rw [if_neg hv]
      exact runRust_ne_none h.2 m m'
  | .returnFatal metric message, _ => by
    rw [RustStmt.run]
    exact bind_ne_none fun v m m' => nofun
  | .returnOk value, _ => by
    rw [RustStmt.run]
    exact bind_ne_none fun v m m' => nofun

/-- **Statements of which one is never passed** do not run off their end. -/
theorem runRust_ne_none {locals : RustName → Value} :
    {ss : List RustStmt} → anyDiverges (rustShapes ss) = true →
      ∀ m m', runRust W ss locals m ≠ (.ok none, m')
  | [], h => nomatch h
  | s :: ss, h => by
    rw [rustShapes, anyDiverges, Bool.or_eq_true] at h
    intro m m'
    rw [runRust, bind_apply]
    rcases h with h | h
    · cases hs : s.run W locals m with
      | mk r m'' =>
        cases r with
        | error e => exact nofun
        | ok returned =>
          cases returned with
          | none => exact absurd hs (RustStmt.run_ne_none h m m'')
          | some v => exact nofun
    · cases s.run W locals m with
      | mk r m'' =>
        cases r with
        | error e => exact nofun
        | ok returned =>
          cases returned with
          | none => exact runRust_ne_none h m'' m'
          | some v => exact nofun

end

/-! ### The emitted code -/

mutual

/-- **Emitted expressions mean the same**, up to the context of a fatal error. -/
theorem rust_emits {e : ValidationExpression} {r : RustExpr} (h : e.rust = .ok r)
    (ht : r.typed = true) {locals : RustName → Value} {env : ℕ → Value}
    (hl : Locals locals env) : Emits (env 0) (r.run W locals) (e.evaluate W env) := by
  cases e with
  | argument index =>
    rw [ValidationExpression.rust] at h
    obtain rfl := Except.ok.inj h
    rw [RustExpr.run, ValidationExpression.evaluate, hl.argument]
    rfl
  | slot index =>
    rw [ValidationExpression.rust] at h
    obtain rfl := Except.ok.inj h
    rw [RustExpr.run, ValidationExpression.evaluate]
    exact Emits.bind rfl fun m => rfl
  | undefined =>
    rw [ValidationExpression.rust] at h
    obtain rfl := Except.ok.inj h
    rw [RustExpr.run, ValidationExpression.evaluate]
    rfl
  | null =>
    rw [ValidationExpression.rust] at h
    obtain rfl := Except.ok.inj h
    rw [RustExpr.run, ValidationExpression.evaluate]
    rfl
  | integer value =>
    rw [ValidationExpression.rust] at h
    obtain rfl := Except.ok.inj h
    rw [RustExpr.run, ValidationExpression.evaluate]
    rfl
  | string value =>
    rw [ValidationExpression.rust] at h
    obtain rfl := Except.ok.inj h
    rw [RustExpr.run, ValidationExpression.evaluate]
    rfl
  | metric name =>
    rw [ValidationExpression.rust] at h
    obtain rfl := Except.ok.inj h
    rw [RustExpr.run, ValidationExpression.evaluate]
    rfl
  | field object field =>
    rw [ValidationExpression.rust] at h
    obtain ⟨receiver, hreceiver, h⟩ := bind_eq_ok.mp h
    obtain rfl := Except.ok.inj h
    rw [RustExpr.typed] at ht
    rw [RustExpr.run, ValidationExpression.evaluate]
    exact (rust_emits hreceiver ht hl).bind fun v => Emits.field v field
  | not value =>
    rw [ValidationExpression.rust] at h
    obtain ⟨value', hvalue, h⟩ := bind_eq_ok.mp h
    obtain rfl := Except.ok.inj h
    rw [RustExpr.typed] at ht
    rw [RustExpr.run, ValidationExpression.evaluate]
    exact (rust_emits hvalue ht hl).bind fun v => rfl
  | nullish value negate =>
    rw [ValidationExpression.rust] at h
    obtain ⟨value', hvalue, h⟩ := bind_eq_ok.mp h
    obtain rfl := Except.ok.inj h
    rw [RustExpr.typed] at ht
    rw [RustExpr.run, ValidationExpression.evaluate]
    exact (rust_emits hvalue ht hl).bind fun v => rfl
  | and left right =>
    rw [ValidationExpression.rust] at h
    obtain ⟨left', hleft, h⟩ := bind_eq_ok.mp h
    obtain ⟨right', hright, h⟩ := bind_eq_ok.mp h
    obtain rfl := Except.ok.inj h
    simp only [RustExpr.typed, Bool.and_eq_true, true_and, and_true] at ht
    simp only [RustExpr.run, ValidationExpression.evaluate, Function.update_self, Comp.pure_bind]
    refine (rust_emits hleft ht.1 hl).bind fun v => Emits.ite ?_ rfl
    exact rust_emits hright ht.2 (hl.letIn (.inl rfl) v)
  | or left right =>
    rw [ValidationExpression.rust] at h
    obtain ⟨left', hleft, h⟩ := bind_eq_ok.mp h
    obtain ⟨right', hright, h⟩ := bind_eq_ok.mp h
    obtain rfl := Except.ok.inj h
    simp only [RustExpr.typed, Bool.and_eq_true, true_and] at ht
    simp only [RustExpr.run, ValidationExpression.evaluate, Function.update_self, Comp.pure_bind]
    refine (rust_emits hleft ht.1 hl).bind fun v => Emits.ite rfl ?_
    exact rust_emits hright ht.2 (hl.letIn (.inl rfl) v)
  | greater left right =>
    rw [ValidationExpression.rust] at h
    obtain ⟨left', hleft, h⟩ := bind_eq_ok.mp h
    obtain ⟨right', hright, h⟩ := bind_eq_ok.mp h
    obtain rfl := Except.ok.inj h
    simp only [RustExpr.typed, Bool.and_eq_true, and_true] at ht
    simp only [RustExpr.run, ValidationExpression.evaluate]
    refine (rust_emits hleft ht.1 hl).bind fun v => ?_
    refine (rust_emits hright ht.2 (hl.letIn (.inl rfl) v)).bind fun w => ?_
    rw [Function.update_self, Function.update_of_ne (by nofun), Function.update_self]
    rfl
  | choose condition yes no =>
    rw [ValidationExpression.rust] at h
    obtain ⟨condition', hcondition, h⟩ := bind_eq_ok.mp h
    obtain ⟨yes', hyes, h⟩ := bind_eq_ok.mp h
    obtain ⟨no', hno, h⟩ := bind_eq_ok.mp h
    obtain rfl := Except.ok.inj h
    simp only [RustExpr.typed, Bool.and_eq_true] at ht
    rw [RustExpr.run, ValidationExpression.evaluate]
    exact (rust_emits hcondition ht.1.1 hl).bind fun v =>
      Emits.ite (rust_emits hyes ht.1.2 hl) (rust_emits hno ht.2 hl)
  | assign slot value =>
    rw [ValidationExpression.rust] at h
    obtain ⟨value', hvalue, h⟩ := bind_eq_ok.mp h
    obtain rfl := Except.ok.inj h
    rw [RustExpr.typed] at ht
    rw [RustExpr.run, ValidationExpression.evaluate]
    exact (rust_emits hvalue ht hl).bind fun v => Emits.bind rfl fun _ => rfl
  | sequence values =>
    rw [ValidationExpression.rust] at h
    obtain ⟨values', hvalues, h⟩ := bind_eq_ok.mp h
    obtain rfl := Except.ok.inj h
    rw [RustExpr.typed, Bool.and_eq_true] at ht
    rw [RustExpr.run, ValidationExpression.evaluate]
    cases values with
    | nil =>
      rw [rustAll] at hvalues
      obtain rfl := Except.ok.inj hvalues
      exact absurd ht.1 Bool.false_ne_true
    | cons e es =>
      rw [rustAll] at hvalues
      obtain ⟨r, hr, hvalues⟩ := bind_eq_ok.mp hvalues
      obtain ⟨rs, hrs, hvalues⟩ := bind_eq_ok.mp hvalues
      obtain rfl := Except.ok.inj hvalues
      rw [typedAll, Bool.and_eq_true] at ht
      simp only [runRustAll, evaluateAll, Comp.bind_assoc, Comp.pure_bind]
      refine (rust_emits hr ht.2.1 hl).bind fun v => (rustAll_emits hrs ht.2.2 hl).bind fun vs => ?_
      rw [List.getLast?_cons, List.getLastD_cons, List.getLastD_eq_getLast?]
      rfl
  | object fields =>
    rw [ValidationExpression.rust] at h
    obtain ⟨fields', hfields, h⟩ := bind_eq_ok.mp h
    obtain rfl := Except.ok.inj h
    rw [RustExpr.typed] at ht
    rw [RustExpr.run, ValidationExpression.evaluate]
    exact (rustFields_emits hfields ht hl).bind fun vs => rfl
  | validate validator arguments =>
    rw [ValidationExpression.rust] at h
    obtain ⟨arguments', harguments, h⟩ := bind_eq_ok.mp h
    obtain rfl := Except.ok.inj h
    rw [RustExpr.typed] at ht
    rw [RustExpr.run, ValidationExpression.evaluate]
    exact (rustAll_emits harguments ht hl).bind fun vs => Emits.call _ vs
  | map input body =>
    rw [ValidationExpression.rust] at h
    obtain ⟨body', hbody, h⟩ := bind_eq_ok.mp h
    obtain ⟨input', hinput, h⟩ := bind_eq_ok.mp h
    obtain rfl := Except.ok.inj h
    simp only [RustExpr.typed, Bool.and_eq_true] at ht
    have hdiverges := (anyDiverges_of_hasValue ht.1.2).resolve_left Bool.false_ne_true
    rw [RustExpr.run, ValidationExpression.evaluate]
    refine (rust_emits hinput ht.1.1 hl).bind fun v => (Emits.items v).bind fun items => ?_
    refine (Emits.traverse (fun item => ?_) items).bind fun mapped => rfl
    have hcallback := rustStatements_emits hbody ht.2 (hl.enter item)
    rw [Function.update_of_ne (by decide)] at hcallback
    exact (hcallback.returned (runRust_ne_none hdiverges)).withLets _
  | transform transform arguments =>
    rcases arguments with _ | ⟨argument, _ | ⟨_, _⟩⟩
    · rw [ValidationExpression.rust] at h
      · cases h
      · exact nofun
    · rw [ValidationExpression.rust] at h
      obtain ⟨argument', hargument, h⟩ := bind_eq_ok.mp h
      obtain rfl := Except.ok.inj h
      rw [RustExpr.typed] at ht
      simp only [RustExpr.run, ValidationExpression.evaluate, evaluateAll, Comp.bind_assoc,
        Comp.pure_bind]
      exact (rust_emits hargument ht hl).bind fun v => Emits.call _ _
    · rw [ValidationExpression.rust] at h
      · cases h
      · exact nofun

theorem rustAll_emits {es : List ValidationExpression} {rs : List RustExpr}
    (h : rustAll es = .ok rs) (ht : typedAll rs = true) {locals : RustName → Value}
    {env : ℕ → Value} (hl : Locals locals env) :
    Emits (env 0) (runRustAll W rs locals) (evaluateAll W es env) := by
  match es with
  | [] =>
    rw [rustAll] at h
    obtain rfl := Except.ok.inj h
    rw [runRustAll, evaluateAll]
    rfl
  | e :: es =>
    rw [rustAll] at h
    obtain ⟨r, hr, h⟩ := bind_eq_ok.mp h
    obtain ⟨rs, hrs, h⟩ := bind_eq_ok.mp h
    obtain rfl := Except.ok.inj h
    rw [typedAll, Bool.and_eq_true] at ht
    rw [runRustAll, evaluateAll]
    refine (rust_emits hr ht.1 hl).bind fun v => ?_
    exact (rustAll_emits hrs ht.2 hl).bind fun vs => rfl

theorem rustFields_emits {es : List (String × ValidationExpression)}
    {rs : List (String × RustExpr)} (h : rustFields es = .ok rs) (ht : typedFields rs = true)
    {locals : RustName → Value} {env : ℕ → Value} (hl : Locals locals env) :
    Emits (env 0) (runRustFields W rs locals) (evaluateFields W es env) := by
  match es with
  | [] =>
    rw [rustFields] at h
    obtain rfl := Except.ok.inj h
    rw [runRustFields, evaluateFields]
    rfl
  | (key, e) :: es =>
    rw [rustFields] at h
    obtain ⟨r, hr, h⟩ := bind_eq_ok.mp h
    obtain ⟨rs, hrs, h⟩ := bind_eq_ok.mp h
    obtain rfl := Except.ok.inj h
    rw [typedFields, Bool.and_eq_true] at ht
    rw [runRustFields, evaluateFields]
    refine (rust_emits hr ht.1 hl).bind fun v => ?_
    exact (rustFields_emits hrs ht.2 hl).bind fun vs => rfl

theorem rustStatement_emits {s : ValidationStatement} {r : RustStmt} (h : s.rust = .ok r)
    (ht : r.typed = true) {locals : RustName → Value} {env : ℕ → Value}
    (hl : Locals locals env) : Emits (env 0) (r.run W locals) (s.evaluated W env) := by
  cases s with
  | bind slot value =>
    rw [ValidationStatement.rust] at h
    obtain ⟨value', hvalue, h⟩ := bind_eq_ok.mp h
    obtain rfl := Except.ok.inj h
    rw [RustStmt.typed] at ht
    rw [RustStmt.run, ValidationStatement.evaluated]
    exact (rust_emits hvalue ht hl).bind fun v => Emits.bind rfl fun _ => rfl
  | «if» condition yes no =>
    rw [ValidationStatement.rust] at h
    obtain ⟨condition', hcondition, h⟩ := bind_eq_ok.mp h
    obtain ⟨yes', hyes, h⟩ := bind_eq_ok.mp h
    obtain ⟨no', hno, h⟩ := bind_eq_ok.mp h
    obtain rfl := Except.ok.inj h
    simp only [RustStmt.typed, Bool.and_eq_true] at ht
    rw [RustStmt.run, ValidationStatement.evaluated]
    exact (rust_emits hcondition ht.1.1 hl).bind fun v =>
      Emits.ite (rustStatements_emits hyes ht.1.2 hl) (rustStatements_emits hno ht.2 hl)
  | evaluate value =>
    rw [ValidationStatement.rust] at h
    obtain ⟨value', hvalue, h⟩ := bind_eq_ok.mp h
    obtain rfl := Except.ok.inj h
    rw [RustStmt.typed] at ht
    rw [RustStmt.run, ValidationStatement.evaluated]
    exact (rust_emits hvalue ht hl).bind fun v => rfl
  | fatal metric message =>
    rw [ValidationStatement.rust] at h
    obtain ⟨metric', hmetric, h⟩ := bind_eq_ok.mp h
    obtain rfl := Except.ok.inj h
    rw [RustStmt.typed] at ht
    rw [RustStmt.run, ValidationStatement.evaluated]
    exact (rust_emits hmetric ht hl).bind fun v => rfl
  | «return» value =>
    rw [ValidationStatement.rust] at h
    obtain ⟨value', hvalue, h⟩ := bind_eq_ok.mp h
    obtain rfl := Except.ok.inj h
    rw [RustStmt.typed] at ht
    rw [RustStmt.run, ValidationStatement.evaluated]
    exact (rust_emits hvalue ht hl).bind fun v => rfl

/-- **Emitted statements mean the same.** -/
theorem rustStatements_emits {ss : List ValidationStatement} {rs : List RustStmt}
    (h : rustStatements ss = .ok rs) (ht : typedStatements rs = true)
    {locals : RustName → Value} {env : ℕ → Value} (hl : Locals locals env) :
    Emits (env 0) (runRust W rs locals) (evaluateStatements W ss env) := by
  match ss with
  | [] =>
    rw [rustStatements] at h
    obtain rfl := Except.ok.inj h
    rw [runRust, evaluateStatements]
    rfl
  | s :: ss =>
    rw [rustStatements] at h
    obtain ⟨r, hr, h⟩ := bind_eq_ok.mp h
    obtain ⟨rs, hrs, h⟩ := bind_eq_ok.mp h
    obtain rfl := Except.ok.inj h
    rw [typedStatements, Bool.and_eq_true] at ht
    rw [runRust, evaluateStatements]
    refine (rustStatement_emits hr ht.1 hl).bind fun returned => ?_
    cases returned with
    | none => exact rustStatements_emits hrs ht.2 hl
    | some v => rfl

end

end Emitted

/-! ### Which methods compile -/

mutual

/-- What the statements of a method do to the control flow, blocks taken apart. -/
def Stmt.shapes : Stmt → List Shape
  | .variableDeclaration _ declarations => declarations.map fun _ => .passes
  | .ifStatement _ consequent none => [.branches consequent.shapes []]
  | .ifStatement _ consequent (some alternate) => [.branches consequent.shapes alternate.shapes]
  | .blockStatement body => statementShapes body
  | .returnStatement _ => [.leaves]
  | .throwStatement _ => [.leaves]
  | _ => [.passes]

def statementShapes : List Stmt → List Shape
  | [] => []
  | s :: ss => s.shapes ++ statementShapes ss

end

mutual

/-- No callback in an expression can run off its end, and no sequence is empty. -/
def Expr.hasValues : Expr → Bool
  | .parenthesized e => e.hasValues
  | .unary _ argument => argument.hasValues
  | .member _ object _ => object.hasValues
  | .logical _ left right => left.hasValues && right.hasValues
  | .binary _ left right => left.hasValues && right.hasValues
  | .conditional test consequent alternate =>
    test.hasValues && consequent.hasValues && alternate.hasValues
  | .assignment _ _ right => right.hasValues
  | .sequence expressions => !expressions.isEmpty && hasValuesAll expressions
  | .object properties => hasValuesProperties properties
  | .call callee arguments => callee.hasValues && hasValuesAll arguments
  | .new callee arguments => callee.hasValues && hasValuesAll arguments
  | .function _ body => hasValue false (statementShapes body) && hasValuesStatements body
  | .spread e => e.hasValues
  | _ => true

def hasValuesAll : List Expr → Bool
  | [] => true
  | e :: es => e.hasValues && hasValuesAll es

def hasValuesProperties : List (PropertyHead × Expr) → Bool
  | [] => true
  | (_, e) :: properties => e.hasValues && hasValuesProperties properties

def Stmt.hasValues : Stmt → Bool
  | .variableDeclaration _ declarations => hasValuesDeclarations declarations
  | .ifStatement test consequent none => test.hasValues && consequent.hasValues
  | .ifStatement test consequent (some alternate) =>
    test.hasValues && consequent.hasValues && alternate.hasValues
  | .blockStatement body => hasValuesStatements body
  | .returnStatement (some argument) => argument.hasValues
  | .expressionStatement e => e.hasValues
  | .throwStatement argument => argument.hasValues
  | _ => true

def hasValuesStatements : List Stmt → Bool
  | [] => true
  | s :: ss => s.hasValues && hasValuesStatements ss

def hasValuesDeclarations : List (Option String × Option Expr) → Bool
  | [] => true
  | (_, none) :: declarations => hasValuesDeclarations declarations
  | (_, some e) :: declarations => e.hasValues && hasValuesDeclarations declarations

end

/-- Neither the method nor any callback in it can run off its end. -/
def JsFunction.hasValues (f : JsFunction) : Bool :=
  hasValue false (statementShapes f.body) && hasValuesStatements f.body

mutual

def ValidationStatement.shape : ValidationStatement → Shape
  | .bind _ _ => .passes
  | .if _ yes no => .branches (programShapes yes) (programShapes no)
  | .evaluate _ => .passes
  | .fatal _ _ => .leaves
  | .return _ => .leaves

def programShapes : List ValidationStatement → List Shape
  | [] => []
  | s :: ss => s.shape :: programShapes ss

end

mutual

def ValidationExpression.hasValues : ValidationExpression → Bool
  | .field object _ => object.hasValues
  | .not value => value.hasValues
  | .nullish value _ => value.hasValues
  | .and left right => left.hasValues && right.hasValues
  | .or left right => left.hasValues && right.hasValues
  | .greater left right => left.hasValues && right.hasValues
  | .choose condition yes no => condition.hasValues && yes.hasValues && no.hasValues
  | .assign _ value => value.hasValues
  | .sequence values => !values.isEmpty && programHasValuesAll values
  | .object fields => programHasValuesFields fields
  | .validate _ arguments => programHasValuesAll arguments
  | .map input body =>
    input.hasValues && hasValue false (programShapes body) && programHasValues body
  | .transform _ arguments => programHasValuesAll arguments
  | _ => true

def programHasValuesAll : List ValidationExpression → Bool
  | [] => true
  | e :: es => e.hasValues && programHasValuesAll es

def programHasValuesFields : List (String × ValidationExpression) → Bool
  | [] => true
  | (_, e) :: fields => e.hasValues && programHasValuesFields fields

def ValidationStatement.hasValues : ValidationStatement → Bool
  | .bind _ value => value.hasValues
  | .if condition yes no =>
    condition.hasValues && programHasValues yes && programHasValues no
  | .evaluate value => value.hasValues
  | .fatal metric _ => metric.hasValues
  | .return value => value.hasValues

def programHasValues : List ValidationStatement → Bool
  | [] => true
  | s :: ss => s.hasValues && programHasValues ss

end

attribute [simp] Stmt.shapes statementShapes Expr.hasValues hasValuesAll hasValuesProperties
  Stmt.hasValues hasValuesStatements hasValuesDeclarations ValidationStatement.shape programShapes
  ValidationExpression.hasValues programHasValuesAll programHasValuesFields
  ValidationStatement.hasValues programHasValues

mutual

theorem shape_of_rust {s : ValidationStatement} {r : RustStmt} (h : s.rust = .ok r) :
    r.shape = s.shape := by
  cases s with
  | bind slot value =>
    simp only [ValidationStatement.rust, bind_eq_ok, Except.ok.injEq] at h
    obtain ⟨_, _, rfl⟩ := h
    rw [RustStmt.shape, ValidationStatement.shape]
  | «if» condition yes no =>
    simp only [ValidationStatement.rust, bind_eq_ok, Except.ok.injEq] at h
    obtain ⟨_, _, _, hyes, _, hno, rfl⟩ := h
    rw [RustStmt.shape, ValidationStatement.shape, rustShapes_of_rust hyes,
      rustShapes_of_rust hno]
  | evaluate value =>
    simp only [ValidationStatement.rust, bind_eq_ok, Except.ok.injEq] at h
    obtain ⟨_, _, rfl⟩ := h
    rw [RustStmt.shape, ValidationStatement.shape]
  | fatal metric message =>
    simp only [ValidationStatement.rust, bind_eq_ok, Except.ok.injEq] at h
    obtain ⟨_, _, rfl⟩ := h
    rw [RustStmt.shape, ValidationStatement.shape]
  | «return» value =>
    simp only [ValidationStatement.rust, bind_eq_ok, Except.ok.injEq] at h
    obtain ⟨_, _, rfl⟩ := h
    rw [RustStmt.shape, ValidationStatement.shape]

/-- The emitted statements do to the control flow what the program's do. -/
theorem rustShapes_of_rust {ss : List ValidationStatement} {rs : List RustStmt}
    (h : rustStatements ss = .ok rs) : rustShapes rs = programShapes ss := by
  match ss with
  | [] =>
    simp only [rustStatements, Except.ok.injEq] at h
    subst h
    rw [rustShapes, programShapes]
  | s :: ss =>
    simp only [rustStatements, bind_eq_ok, Except.ok.injEq] at h
    obtain ⟨_, hs, _, hss, rfl⟩ := h
    rw [rustShapes, programShapes, shape_of_rust hs, rustShapes_of_rust hss]

end

theorem isEmpty_of_rustAll {es : List ValidationExpression} {rs : List RustExpr}
    (h : rustAll es = .ok rs) : rs.isEmpty = es.isEmpty := by
  cases es with
  | nil =>
    simp only [rustAll, Except.ok.injEq] at h
    subst h
    rfl
  | cons e es =>
    simp only [rustAll, bind_eq_ok, Except.ok.injEq] at h
    obtain ⟨_, _, _, _, rfl⟩ := h
    rfl

mutual

/-- **Emitted code compiles where the program has values.** -/
theorem typed_of_rust {e : ValidationExpression} {r : RustExpr} (h : e.rust = .ok r) :
    r.typed = e.hasValues := by
  cases e with
  | argument _ | slot _ | undefined | null | integer _ | string _ | metric _ =>
    simp only [ValidationExpression.rust, Except.ok.injEq] at h
    subst h
    rw [RustExpr.typed, ValidationExpression.hasValues] <;> nofun
  | field object name =>
    simp only [ValidationExpression.rust, bind_eq_ok, Except.ok.injEq] at h
    obtain ⟨_, hobject, rfl⟩ := h
    rw [RustExpr.typed, ValidationExpression.hasValues, typed_of_rust hobject]
  | not value =>
    simp only [ValidationExpression.rust, bind_eq_ok, Except.ok.injEq] at h
    obtain ⟨_, hvalue, rfl⟩ := h
    rw [RustExpr.typed, ValidationExpression.hasValues, typed_of_rust hvalue]
  | nullish value negate =>
    simp only [ValidationExpression.rust, bind_eq_ok, Except.ok.injEq] at h
    obtain ⟨_, hvalue, rfl⟩ := h
    rw [RustExpr.typed, ValidationExpression.hasValues, typed_of_rust hvalue]
  | and left right =>
    simp only [ValidationExpression.rust, bind_eq_ok, Except.ok.injEq] at h
    obtain ⟨_, hleft, _, hright, rfl⟩ := h
    simp only [RustExpr.typed, ValidationExpression.hasValues, typed_of_rust hleft,
      typed_of_rust hright, Bool.true_and, Bool.and_true]
  | or left right =>
    simp only [ValidationExpression.rust, bind_eq_ok, Except.ok.injEq] at h
    obtain ⟨_, hleft, _, hright, rfl⟩ := h
    simp only [RustExpr.typed, ValidationExpression.hasValues, typed_of_rust hleft,
      typed_of_rust hright, Bool.true_and]
  | greater left right =>
    simp only [ValidationExpression.rust, bind_eq_ok, Except.ok.injEq] at h
    obtain ⟨_, hleft, _, hright, rfl⟩ := h
    simp only [RustExpr.typed, ValidationExpression.hasValues, typed_of_rust hleft,
      typed_of_rust hright, Bool.and_true]
  | choose condition yes no =>
    simp only [ValidationExpression.rust, bind_eq_ok, Except.ok.injEq] at h
    obtain ⟨_, hcondition, _, hyes, _, hno, rfl⟩ := h
    rw [RustExpr.typed, ValidationExpression.hasValues, typed_of_rust hcondition,
      typed_of_rust hyes, typed_of_rust hno]
  | assign slot value =>
    simp only [ValidationExpression.rust, bind_eq_ok, Except.ok.injEq] at h
    obtain ⟨_, hvalue, rfl⟩ := h
    rw [RustExpr.typed, ValidationExpression.hasValues, typed_of_rust hvalue]
  | sequence values =>
    simp only [ValidationExpression.rust, bind_eq_ok, Except.ok.injEq] at h
    obtain ⟨_, hvalues, rfl⟩ := h
    rw [RustExpr.typed, ValidationExpression.hasValues, typedAll_of_rust hvalues,
      isEmpty_of_rustAll hvalues]
  | object fields =>
    simp only [ValidationExpression.rust, bind_eq_ok, Except.ok.injEq] at h
    obtain ⟨_, hfields, rfl⟩ := h
    rw [RustExpr.typed, ValidationExpression.hasValues, typedFields_of_rust hfields]
  | validate validator arguments =>
    simp only [ValidationExpression.rust, bind_eq_ok, Except.ok.injEq] at h
    obtain ⟨_, harguments, rfl⟩ := h
    rw [RustExpr.typed, ValidationExpression.hasValues, typedAll_of_rust harguments]
  | map input body =>
    simp only [ValidationExpression.rust, bind_eq_ok, Except.ok.injEq] at h
    obtain ⟨_, hbody, _, hinput, rfl⟩ := h
    rw [RustExpr.typed, ValidationExpression.hasValues, typed_of_rust hinput,
      rustShapes_of_rust hbody, typedStatements_of_rust hbody]
  | transform transform arguments =>
    rcases arguments with _ | ⟨argument, _ | ⟨_, _⟩⟩
    · simp only [ValidationExpression.rust, reduceCtorEq] at h
    · simp only [ValidationExpression.rust, bind_eq_ok, Except.ok.injEq] at h
      obtain ⟨_, hargument, rfl⟩ := h
      rw [RustExpr.typed, ValidationExpression.hasValues, programHasValuesAll,
        programHasValuesAll, Bool.and_true, typed_of_rust hargument]
    · simp only [ValidationExpression.rust, reduceCtorEq] at h

theorem typedAll_of_rust {es : List ValidationExpression} {rs : List RustExpr}
    (h : rustAll es = .ok rs) : typedAll rs = programHasValuesAll es := by
  match es with
  | [] =>
    simp only [rustAll, Except.ok.injEq] at h
    subst h
    rw [typedAll, programHasValuesAll]
  | e :: es =>
    simp only [rustAll, bind_eq_ok, Except.ok.injEq] at h
    obtain ⟨_, he, _, hes, rfl⟩ := h
    rw [typedAll, programHasValuesAll, typed_of_rust he, typedAll_of_rust hes]

theorem typedFields_of_rust {es : List (String × ValidationExpression)}
    {rs : List (String × RustExpr)} (h : rustFields es = .ok rs) :
    typedFields rs = programHasValuesFields es := by
  match es with
  | [] =>
    simp only [rustFields, Except.ok.injEq] at h
    subst h
    rw [typedFields, programHasValuesFields]
  | (key, e) :: es =>
    simp only [rustFields, bind_eq_ok, Except.ok.injEq] at h
    obtain ⟨_, he, _, hes, rfl⟩ := h
    rw [typedFields, programHasValuesFields, typed_of_rust he, typedFields_of_rust hes]

theorem typedStatement_of_rust {s : ValidationStatement} {r : RustStmt} (h : s.rust = .ok r) :
    r.typed = s.hasValues := by
  cases s with
  | bind slot value =>
    simp only [ValidationStatement.rust, bind_eq_ok, Except.ok.injEq] at h
    obtain ⟨_, hvalue, rfl⟩ := h
    rw [RustStmt.typed, ValidationStatement.hasValues, typed_of_rust hvalue]
  | «if» condition yes no =>
    simp only [ValidationStatement.rust, bind_eq_ok, Except.ok.injEq] at h
    obtain ⟨_, hcondition, _, hyes, _, hno, rfl⟩ := h
    rw [RustStmt.typed, ValidationStatement.hasValues, typed_of_rust hcondition,
      typedStatements_of_rust hyes, typedStatements_of_rust hno]
  | evaluate value =>
    simp only [ValidationStatement.rust, bind_eq_ok, Except.ok.injEq] at h
    obtain ⟨_, hvalue, rfl⟩ := h
    rw [RustStmt.typed, ValidationStatement.hasValues, typed_of_rust hvalue]
  | fatal metric message =>
    simp only [ValidationStatement.rust, bind_eq_ok, Except.ok.injEq] at h
    obtain ⟨_, hmetric, rfl⟩ := h
    rw [RustStmt.typed, ValidationStatement.hasValues, typed_of_rust hmetric]
  | «return» value =>
    simp only [ValidationStatement.rust, bind_eq_ok, Except.ok.injEq] at h
    obtain ⟨_, hvalue, rfl⟩ := h
    rw [RustStmt.typed, ValidationStatement.hasValues, typed_of_rust hvalue]

theorem typedStatements_of_rust {ss : List ValidationStatement} {rs : List RustStmt}
    (h : rustStatements ss = .ok rs) : typedStatements rs = programHasValues ss := by
  match ss with
  | [] =>
    simp only [rustStatements, Except.ok.injEq] at h
    subst h
    rw [typedStatements, programHasValues]
  | s :: ss =>
    simp only [rustStatements, bind_eq_ok, Except.ok.injEq] at h
    obtain ⟨_, hs, _, hss, rfl⟩ := h
    rw [typedStatements, programHasValues, typedStatement_of_rust hs, typedStatements_of_rust hss]

end

/-! ### From the source to the program -/

/-- Names stand for slots and arguments. -/
def Lower.Plain (L : Lower) : Prop :=
  ∀ x e, L.locals x = some e → (∃ i, e = .slot i) ∨ ∃ i, e = .argument i

theorem Lower.Same.plain {L L' : Lower} (h : L.Same L') (hL : L.Plain) : L'.Plain := by
  rw [Lower.Plain, h.locals]
  exact hL

theorem Lower.Enters.plain {body : List Stmt} {L L' : Lower} (h : Lower.Enters body L L')
    (hL : L.Plain) : L'.Plain := by
  intro x e he
  by_cases hx : x ∈ bindingNames body
  · obtain ⟨i, hi, -, -⟩ := h.fresh x hx
    exact .inl ⟨i, Option.some.inj (he.symm.trans hi)⟩
  · rw [h.other x hx] at he
    exact hL x e he

theorem Lower.Plain.enterCallback {L : Lower} (hL : L.Plain) (p : String) :
    (L.enterCallback p).Plain := by
  intro x e he
  have hlocals : Function.update L.locals p (some (.argument 3)) x = some e := he
  by_cases hx : x = p
  · rw [hx, Function.update_self] at hlocals
    exact .inr ⟨3, (Option.some.inj hlocals).symm⟩
  · rw [Function.update_of_ne hx] at hlocals
    exact hL x e hlocals

theorem programShapes_append (ss rest : List ValidationStatement) :
    programShapes (ss ++ rest) = programShapes ss ++ programShapes rest := by
  induction ss with
  | nil => rw [List.nil_append, programShapes, List.nil_append]
  | cons s ss ih => rw [List.cons_append, programShapes, programShapes, ih, List.cons_append]

theorem programHasValues_append (ss rest : List ValidationStatement) :
    programHasValues (ss ++ rest) = (programHasValues ss && programHasValues rest) := by
  induction ss with
  | nil => rw [List.nil_append, programHasValues, Bool.true_and]
  | cons s ss ih =>
    rw [List.cons_append, programHasValues, programHasValues, ih, Bool.and_assoc]

theorem LowersDeclarations.shapes {L L' : Lower} {isVar : Bool}
    {ds : List (Option String × Option Expr)} {ss : List ValidationStatement} :
    LowersDeclarations L isVar ds ss L' → programShapes ss = ds.map fun _ => .passes := by
  intro h
  induction ds generalizing L ss with
  | nil =>
    cases h
    rw [programShapes]
    rfl
  | cons d ds ih =>
    cases h with
    | cons _ _ h =>
      rw [programShapes, ValidationStatement.shape, ih h]
      rfl

mutual

/-- The program does to the control flow what the method does. -/
theorem LowersStatement.shapes {L L' : Lower} {s : Stmt} {ss : List ValidationStatement} :
    LowersStatement L s ss L' → programShapes ss = s.shapes
  | .declaration h => by rw [Stmt.shapes, h.shapes]
  | .ifElse _ h h' => by
    rw [Stmt.shapes, programShapes, programShapes, ValidationStatement.shape, h.shapes, h'.shapes]
  | .ifThen _ h => by
    rw [Stmt.shapes, programShapes, programShapes, ValidationStatement.shape, h.shapes,
      programShapes]
  | .block h => by rw [Stmt.shapes, h.shapes]
  | .return _ => by rw [Stmt.shapes, programShapes, programShapes, ValidationStatement.shape]
  | .expression _ => by
    rw [Stmt.shapes, programShapes, programShapes, ValidationStatement.shape] <;> nofun
  | .fatal _ _ _ _ _ => by
    rw [Stmt.shapes, programShapes, programShapes, ValidationStatement.shape]

theorem LowersStatements.shapes {L L' : Lower} {body : List Stmt}
    {ss : List ValidationStatement} :
    LowersStatements L body ss L' → programShapes ss = statementShapes body
  | .nil => by rw [statementShapes, programShapes]
  | .cons h h' => by rw [statementShapes, programShapes_append, h.shapes, h'.shapes]

end

theorem LowersAll.isEmpty {L L' : Lower} {es : List Expr} {rs : List ValidationExpression} :
    LowersAll L es rs L' → rs.isEmpty = es.isEmpty := by
  intro h
  cases h with
  | nil => rfl
  | cons _ _ => rfl

/-- Loading a module runs no callback. -/
theorem Expr.hasValues_of_loads {e : Expr} (h : e.loads = true) : e.hasValues = true := by
  fun_induction Expr.loads e with
  | case1 e ih =>
    rw [Expr.hasValues]
    exact ih h
  | case2 f name => simp only [Expr.hasValues, hasValuesAll, Bool.and_self]
  | case3 e _ _ => cases h

mutual

/-- **The program has values where the method has.** -/
theorem LowersExpr.hasValues {L L' : Lower} {e : Expr} {r : ValidationExpression}
    (hL : L.Plain) : LowersExpr L e r L' → r.hasValues = e.hasValues
  | .parenthesized h => by rw [Expr.hasValues, h.hasValues hL]
  | .identifier hx => by
    obtain ⟨i, rfl⟩ | ⟨i, rfl⟩ := hL _ _ hx
    · rw [Expr.hasValues, ValidationExpression.hasValues] <;> nofun
    · rw [Expr.hasValues, ValidationExpression.hasValues] <;> nofun
  | .nullLiteral => by rw [Expr.hasValues, ValidationExpression.hasValues] <;> nofun
  | .numericLiteral _ => by rw [Expr.hasValues, ValidationExpression.hasValues] <;> nofun
  | .stringLiteral => by rw [Expr.hasValues, ValidationExpression.hasValues] <;> nofun
  | .void => by
    rw [Expr.hasValues, Expr.hasValues, ValidationExpression.hasValues] <;> nofun
  | .logicalNot h => by rw [Expr.hasValues, ValidationExpression.hasValues, h.hasValues hL]
  | .metric hmodule _ => by
    rw [Expr.hasValues, Expr.hasValues, Expr.hasValues_of_loads (Lower.module_loads hmodule),
      ValidationExpression.hasValues] <;> nofun
  | .field h hf => by
    rw [fieldOf] at hf
    split_ifs at hf
    obtain rfl := Except.ok.inj hf
    rw [Expr.hasValues, ValidationExpression.hasValues, h.hasValues hL]
  | .and h h' => by
    rw [Expr.hasValues, ValidationExpression.hasValues, h.hasValues hL,
      h'.hasValues (h.same.1.plain hL)]
  | .or h h' => by
    rw [Expr.hasValues, ValidationExpression.hasValues, h.hasValues hL,
      h'.hasValues (h.same.1.plain hL)]
  | .equality h => by
    simp only [Expr.hasValues, ValidationExpression.hasValues, h.hasValues hL, Bool.and_true]
  | .inequality h => by
    simp only [Expr.hasValues, ValidationExpression.hasValues, h.hasValues hL, Bool.and_true]
  | .greater h h' => by
    rw [Expr.hasValues, ValidationExpression.hasValues, h.hasValues hL,
      h'.hasValues (h.same.1.plain hL)]
  | .conditional h h' h'' => by
    rw [Expr.hasValues, ValidationExpression.hasValues, h.hasValues hL,
      h'.hasValues (h.same.1.plain hL),
      h''.hasValues (h'.same.1.plain (h.same.1.plain hL))]
  | .assignment _ _ h => by
    rw [Expr.hasValues, ValidationExpression.hasValues, h.hasValues hL]
  | .sequence h => by
    rw [Expr.hasValues, ValidationExpression.hasValues, h.hasValues hL, h.isEmpty]
  | .object h => by rw [Expr.hasValues, ValidationExpression.hasValues, h.hasValues hL]
  | .map _ _ h _ hscope h' => by
    have hplain := (Lower.declareScope_enters hscope).plain
      ((h.same.1.plain hL).enterCallback _)
    simp only [Expr.hasValues, hasValuesAll, ValidationExpression.hasValues, h.hasValues hL,
      h'.shapes, h'.hasValues hplain, Bool.and_true, Bool.and_assoc]
  | .decode hobject hspec _ h => by
    simp only [Expr.hasValues, hasValuesAll, ValidationExpression.hasValues,
      programHasValuesAll, h.hasValues hL, Expr.hasValues_of_loads (Lower.module_loads hobject),
      Expr.hasValues_of_loads (Lower.module_loads hspec), Bool.and_true, Bool.true_and]
  | .validate _ _ h => by
    simp only [Expr.hasValues, ValidationExpression.hasValues, h.hasValues hL, Bool.true_and]
  | .transform ht h => by
    simp only [Expr.hasValues, ValidationExpression.hasValues, h.hasValues hL,
      Expr.hasValues_of_loads (dependencyTransform_mem ht).2, Bool.true_and]

theorem LowersAll.hasValues {L L' : Lower} {es : List Expr} {rs : List ValidationExpression}
    (hL : L.Plain) : LowersAll L es rs L' → programHasValuesAll rs = hasValuesAll es
  | .nil => by rw [programHasValuesAll, hasValuesAll]
  | .cons h h' => by
    rw [programHasValuesAll, hasValuesAll, h.hasValues hL, h'.hasValues (h.same.1.plain hL)]

theorem LowersProperties.hasValues {L L' : Lower} {ps : List (PropertyHead × Expr)}
    {before : List String} {rs : List (String × ValidationExpression)} (hL : L.Plain) :
    LowersProperties L ps before rs L' → programHasValuesFields rs = hasValuesProperties ps
  | .nil => by rw [programHasValuesFields, hasValuesProperties]
  | .cons _ h h' => by
    rw [programHasValuesFields, hasValuesProperties, h.hasValues hL,
      h'.hasValues (h.same.1.plain hL)]

theorem LowersStatement.hasValues {L L' : Lower} {s : Stmt} {ss : List ValidationStatement}
    (hL : L.Plain) : LowersStatement L s ss L' → programHasValues ss = s.hasValues
  | .declaration h => by rw [Stmt.hasValues, h.hasValues hL]
  | .ifElse h h' h'' => by
    rw [Stmt.hasValues, programHasValues, programHasValues, ValidationStatement.hasValues,
      h.hasValues hL, h'.hasValues (h.same.1.plain hL),
      h''.hasValues (h'.same.1.plain (h.same.1.plain hL)), Bool.and_true]
  | .ifThen h h' => by
    rw [Stmt.hasValues, programHasValues, programHasValues, ValidationStatement.hasValues,
      h.hasValues hL, h'.hasValues (h.same.1.plain hL), programHasValues, Bool.and_true,
      Bool.and_true]
  | .block h => by rw [Stmt.hasValues, h.hasValues hL]
  | .return h => by
    rw [Stmt.hasValues, programHasValues, programHasValues, ValidationStatement.hasValues,
      h.hasValues hL, Bool.and_true]
  | .expression h => by
    rw [Stmt.hasValues, programHasValues, programHasValues, ValidationStatement.hasValues,
      h.hasValues hL, Bool.and_true]
  | .fatal hreporter h h' hx herror => by
    obtain rfl := reportingContext_ok hx
    have hcontext := h'.hasValues (h.same.1.plain hL)
    simp only [ValidationExpression.hasValues, programHasValuesFields, Bool.and_true] at hcontext
    simp only [Stmt.hasValues, Expr.hasValues, hasValuesAll, programHasValues,
      ValidationStatement.hasValues, h.hasValues hL, ← hcontext, List.isEmpty_cons, Bool.not_false,
      Expr.hasValues_of_loads (Lower.module_loads hreporter),
      Expr.hasValues_of_loads (Lower.module_loads herror), Bool.and_true, Bool.true_and]

theorem LowersStatements.hasValues {L L' : Lower} {body : List Stmt}
    {ss : List ValidationStatement} (hL : L.Plain) :
    LowersStatements L body ss L' → programHasValues ss = hasValuesStatements body
  | .nil => by rw [programHasValues, hasValuesStatements]
  | .cons h h' => by
    rw [programHasValues_append, hasValuesStatements, h.hasValues hL,
      h'.hasValues (h.same.1.plain hL)]

theorem LowersDeclarations.hasValues {L L' : Lower} {isVar : Bool}
    {ds : List (Option String × Option Expr)} {ss : List ValidationStatement} (hL : L.Plain) :
    LowersDeclarations L isVar ds ss L' → programHasValues ss = hasValuesDeclarations ds
  | .nil => by rw [programHasValues, hasValuesDeclarations]
  | @LowersDeclarations.cons L x slot e r L₁ ds rest L₂ _ h h' => by
    have hplain := (L₁.bindArray_same slot r).plain (h.same.1.plain hL)
    rw [programHasValues, hasValuesDeclarations, ValidationStatement.hasValues, h.hasValues hL,
      h'.hasValues hplain]

end

/-! ### Methods -/

theorem lastIndex_lt {x : String} {ps : List (Option String)} {i : ℕ}
    (h : lastIndex x ps = some i) : i < ps.length := by
  induction ps generalizing i with
  | nil => cases h
  | cons p ps ih =>
    rw [lastIndex] at h
    cases hrest : lastIndex x ps with
    | some j =>
      simp only [hrest, Option.some.injEq] at h
      have := ih hrest
      rw [List.length_cons]
      omega
    | none =>
      simp only [hrest] at h
      split_ifs at h
      obtain rfl := Option.some.inj h
      exact Nat.succ_pos _

/-- The arguments, without a fourth. -/
def cutArguments (arguments : ℕ → Value) : ℕ → Value := fun i =>
  if i = 3 then .undefined else arguments i

/-- A method does not see arguments past its parameters. -/
theorem JsFunction.run_cutArguments {W : World} {scope : ModuleScope} {f : JsFunction}
    (h : f.head.parameters.length ≤ 3) (arguments : ℕ → Value) :
    f.run W scope (cutArguments arguments) = f.run W scope arguments := by
  have hframe : enterFrame f.head.names (bindingNames f.body) (cutArguments arguments) =
      enterFrame f.head.names (bindingNames f.body) arguments := by
    funext x
    rw [enterFrame, enterFrame]
    cases hx : lastIndex x f.head.names with
    | none => rfl
    | some i =>
      have hi := lastIndex_lt hx
      rw [FunctionHead.names, List.length_map] at hi
      show some (cutArguments arguments i) = some (arguments i)
      rw [cutArguments, if_neg (by omega)]
  rw [run, run, hframe]

theorem JsFunction.avoidsFourth_of_length {f : JsFunction}
    (h : f.head.parameters.length ≤ 3) : f.AvoidsFourth := by
  intro x hx
  have hi := lastIndex_lt hx
  rw [FunctionHead.names, List.length_map] at hi
  omega

/-- The outcome that the outcome of native code stands for. -/
def nativeOutcome (collection : Value) (o : Except RustExit Value × List Call) :
    Except Exit Value × List Call :=
  (o.1.mapError (RustExit.exit collection), o.2)

/-- **An emitted function does what its program does.** -/
theorem generateValidator_sound {W : World} {g : ValidationFunction} {r : RustFunction}
    (h : generateValidator g = .ok r) (hc : r.compiles = true) (arguments : ℕ → Value) :
    nativeOutcome (arguments 0) (r.run W arguments) = g.run W (cutArguments arguments) := by
  rw [generateValidator] at h
  split_ifs at h
  obtain ⟨rs, hrs, h⟩ := bind_eq_ok.mp h
  obtain rfl := Except.ok.inj h
  rw [RustFunction.compiles, Bool.and_eq_true] at hc
  have hl : Locals (parameterLocals arguments) (cutArguments arguments) :=
    ⟨fun i hi => (if_neg hi).symm, rfl⟩
  have hnever := @runRust_ne_none W (parameterLocals arguments) rs
    ((anyDiverges_of_hasValue hc.1).resolve_left Bool.false_ne_true)
  have hemits : Emits (arguments 0) _ _ := (rustStatements_emits hrs hc.2 hl).returned hnever
  have hclear : clearSlots (ownedSlots g.body) (fun _ => Value.undefined) =
      fun _ => .undefined := by
    funext i
    rw [clearSlots]
    split_ifs <;> rfl
  rw [ValidationFunction.run, Run.outcome, hemits, RustFunction.run, withLets, mapExit]
  simp only [bind_apply, get_apply, modify_apply, hclear, nativeOutcome]
  cases runRust W rs (parameterLocals arguments) ⟨fun _ => .undefined, []⟩ with
  | mk result m =>
    cases result with
    | error e => rfl
    | ok returned => cases returned <;> rfl

/-- The program and the code of a method give its outcome, for all arguments that fit. -/
structure Preserved (q : Qualification) (f : JsFunction) (g : ValidationFunction) : Prop where
  program : ∀ W arguments, World.Qualified W → q.Fits arguments →
    g.run W arguments = f.run W q.scope arguments
  native : ∀ r, generateValidator g = .ok r → r.compiles = true ∧
    ∀ W arguments, World.Qualified W → q.Fits arguments →
      nativeOutcome (arguments 0) (r.run W arguments) = f.run W q.scope arguments

/-- A method with these parameters. -/
def methodOf (parameters : List String) (body : List Stmt) : JsFunction where
  head := ⟨false, false, false, false, parameters.map fun x => ⟨some x, false⟩⟩
  body := body

/-- The method that validates the identifier of a key. -/
def keyIdMethod (rest : List Stmt) : JsFunction :=
  methodOf ["e", "t"]
    (.ifStatement (.binary .equality (.member false (.identifier "t") "id") .nullLiteral)
      (.returnStatement (some .nullLiteral)) none :: rest)

def keyIdQualification : Qualification :=
  methodQualification ⟨["n"], "r"⟩ "validateKeyIdProtobuf"

/-- A world in which nothing is called. -/
def quietWorld : World where
  answer := fun _ _ => .ok .undefined
  exported := fun _ _ => .object (metricNames.map fun name => (name, .text name))
  inherited := fun _ _ => .undefined
  coercedGreater := fun _ _ => false

theorem quietWorld_qualified : quietWorld.Qualified where
  metric := by
    intro name hname
    simp only [metricNames, List.mem_cons, List.not_mem_nil, or_false] at hname
    rcases hname with rfl | rfl | rfl | rfl | rfl | rfl | rfl | rfl | rfl | rfl | rfl | rfl | rfl |
      rfl | rfl | rfl | rfl | rfl | rfl <;> rfl
  inherited := fun _ _ _ => rfl

/-- A method whose callback returns its fourth parameter. -/
def fourthMethod : JsFunction :=
  methodOf ["e", "t", "n", "a"] [.returnStatement (some (.call
    (.member false (.member false (.identifier "t") "records") "map")
    [.function ⟨false, false, false, false, [⟨some "i", false⟩]⟩
      [.returnStatement (some (.identifier "a"))]]))]

def fourthQualification : Qualification :=
  methodQualification ⟨["n"], "r"⟩ "validateSnapshotProtobuf"

/-- An array of one record. -/
def oneRecord : ℕ → Value := fun i =>
  if i = 1 then .object [("records", .array [.bool true])] else .null

theorem oneRecord_fits : fourthQualification.Fits oneRecord := by
  refine ⟨fun f hf v hv => ?_, nofun⟩
  obtain rfl : "records" = f := Option.some.inj hf
  obtain rfl : Value.array [.bool true] = v := Except.ok.inj hv
  rfl

end Whatspec.Appstate

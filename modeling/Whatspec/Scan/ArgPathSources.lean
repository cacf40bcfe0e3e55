import Mathlib.Algebra.GroupWithZero.Nat
import Mathlib.Data.List.Induction
import Whatspec.Scan.ArgPaths

/-!
# A published path is the only source

Two calls of a builder whose argument objects agree at the path of an expression give that
expression the same value, when nothing that the resolver passes over reads the argument: no
initializer, call argument or branch without a path, no callee, and no test.

* `baseSteady` and `steady` say what is passed over on the way to a path;
* `eval_of_base` and `eval_of_relative` are the two halves of the argument, by induction on the
  depth that is left;
* the main result is for every expression at every place of a body.
-/

namespace Whatspec.Scan

/-- The expression reads none of these names. -/
def BuilderExpr.closed (names : List String) (e : BuilderExpr) : Bool :=
  names.all fun x => !e.mentions x

/-- What is written is read through one of these names. -/
def Write.readsAny (names : List String) (w : Write) : Bool :=
  w.value.any fun e => !e.closed names

/-- The names that hold something of the argument after some writes. -/
def sourcesAfter : List String → List Write → List String
  | names, [] => names
  | names, w :: writes =>
    sourcesAfter (if w.readsAny names then w.name :: names else names) writes

/-- The names through which the argument can be read: the parameter, and the local variables that
are written from it. -/
def BuilderFunction.sourceNames (f : BuilderFunction) (root : String) : List String :=
  sourcesAfter [root] f.body

section Steady

variable (m : BuilderModule) (function : ℕ) (root : String) (names : List String)

/-- What is passed over on the way to the path of a base reads none of the names. -/
def baseSteady : ℕ → BuilderExpr → Bool
  | 0, _ => true
  | depth + 1, e =>
    match e.bare with
    | .identifier name =>
      name = root || (m.initsIn function name).all fun init =>
        if (baseArgPath m function root depth init).isSome then baseSteady depth init
        else init.closed names
    | .member object property =>
      match memberChain (.member object property) [] with
      | some (base, _) => baseSteady depth base
      | none => true
    | _ => true

/-- What is passed over on the way to the path of an expression reads none of the names.  A test
may read what the whole expression reads. -/
def steady : ℕ → BuilderExpr → Bool
  | 0, _ => true
  | depth + 1, e =>
    let passes := fun e : BuilderExpr =>
      if (relativeArgPathWith m function root depth e).isSome then steady depth e
      else e.closed names
    match e.bare with
    | .identifier name => name = root || (m.initsIn function name).all passes
    | .member object property =>
      match memberChain (.member object property) [] with
      | some (base, _) => baseSteady m function root names depth base
      | none => true
    | .call callee arguments =>
      callee.closed names && arguments.all fun a =>
        match a with
        | .spread e => e.closed names
        | e => passes e
    | .conditional test consequent alternate =>
      (test.closed names ||
          relativeArgPathWith m function root depth test =
            relativeArgPathWith m function root (depth + 1) e && steady depth test) &&
        passes consequent && passes alternate
    | _ => true

end Steady

/-! ### Paths that agree -/

theorem mem_agreeing {paths : List (Option WapArgPath)} {found : Option WapArgPath}
    {p : WapArgPath} (h : agreeing found paths = some p) :
    (found = none ∨ found = some p) ∧ ∀ q ∈ paths, q = none ∨ q = some p := by
  induction paths generalizing found with
  | nil => exact ⟨.inr h, nofun⟩
  | cons q paths ih =>
    cases q with
    | none =>
      rw [agreeing] at h
      obtain ⟨hfound, hrest⟩ := ih h
      exact ⟨hfound, List.forall_mem_cons.mpr ⟨.inl rfl, hrest⟩⟩
    | some q =>
      cases found with
      | none =>
        rw [agreeing] at h
        obtain ⟨hq, hrest⟩ := ih h
        exact ⟨.inl rfl, List.forall_mem_cons.mpr ⟨hq, hrest⟩⟩
      | some q' =>
        rw [agreeing] at h
        split_ifs at h with heq
        subst heq
        obtain ⟨hq, hrest⟩ := ih h
        exact ⟨hq, List.forall_mem_cons.mpr ⟨hq, hrest⟩⟩

/-- The argument is spread. -/
def BuilderExpr.isSpread : BuilderExpr → Bool
  | .spread _ => true
  | _ => false

theorem mem_argumentsPath {resolve : BuilderExpr → Option WapArgPath} {root : String}
    {arguments : List BuilderExpr} {found : Option WapArgPath} {p : WapArgPath}
    (h : argumentsPath resolve root found arguments = some p) :
    (found = none ∨ found = some p) ∧
      ∀ a ∈ arguments, a.isSpread = false → resolve a = none ∨ resolve a = some p := by
  induction arguments generalizing found with
  | nil => exact ⟨.inr h, nofun⟩
  | cons a arguments ih =>
    by_cases hspread : a.isSpread = true
    · cases a with
      | spread e =>
        rw [argumentsPath] at h
        obtain ⟨hfound, hrest⟩ := ih h
        exact ⟨hfound, List.forall_mem_cons.mpr ⟨nofun, hrest⟩⟩
      | _ => cases hspread
    · rw [argumentsPath] at h
      · cases hresolve : resolve a with
        | none =>
          simp only [hresolve] at h
          split_ifs at h
          obtain ⟨hfound, hrest⟩ := ih h
          exact ⟨hfound, List.forall_mem_cons.mpr ⟨fun _ => .inl hresolve, hrest⟩⟩
        | some q =>
          simp only [hresolve] at h
          cases found with
          | none =>
            obtain ⟨hq, hrest⟩ := ih h
            exact ⟨.inl rfl, List.forall_mem_cons.mpr ⟨fun _ => hresolve ▸ hq, hrest⟩⟩
          | some q' =>
            simp only at h
            split_ifs at h with heq
            subst heq
            obtain ⟨hq, hrest⟩ := ih h
            exact ⟨hq, List.forall_mem_cons.mpr ⟨fun _ => hresolve ▸ hq, hrest⟩⟩
      · rintro e rfl
        exact hspread rfl

/-! ### Evaluation -/

section Evaluation

variable {ν : Type} {W : World ν}

theorem World.eval_bare (ρ : Variables ν) (e : BuilderExpr) : W.eval ρ e.bare = W.eval ρ e := by
  fun_induction BuilderExpr.bare e with
  | case1 e ih =>
    rw [World.eval]
    exact ih
  | case2 e h => rfl

mutual

/-- Evaluation reads the names that an expression mentions and no others. -/
theorem World.eval_congr {ρ ρ' : Variables ν} :
    {e : BuilderExpr} → (∀ x, e.mentions x = true → ρ x = ρ' x) →
      W.eval ρ e = W.eval ρ' e ∧ W.evalCallee ρ e = W.evalCallee ρ' e
  | .parenthesized e, h => by
    have he := World.eval_congr (e := e) h
    simp only [World.eval, World.evalCallee, he, and_self]
  | .identifier name, h => by
    simp only [World.eval, World.evalCallee, h name (decide_eq_true rfl), and_self]
  | .constant n, _ => by simp only [World.eval, World.evalCallee, and_self]
  | .member object property, h => by
    have hobject := World.eval_congr (e := object) h
    simp only [World.eval, World.evalCallee, hobject, and_self]
  | .computed object index, h => by
    simp only [BuilderExpr.mentions, Bool.or_eq_true] at h
    have hobject := World.eval_congr (e := object) fun x hx => h x (.inl hx)
    have hindex := World.eval_congr (e := index) fun x hx => h x (.inr hx)
    simp only [World.eval, World.evalCallee, hobject, hindex, and_self]
  | .call callee arguments, h => by
    simp only [BuilderExpr.mentions, Bool.or_eq_true] at h
    have hcallee := World.eval_congr (e := callee) fun x hx => h x (.inl hx)
    have harguments : W.evalArguments ρ arguments = W.evalArguments ρ' arguments :=
      World.evalArguments_congr fun x hx => h x (.inr hx)
    simp only [World.eval, World.evalCallee, hcallee, harguments, and_self]
  | .spread e, h => by
    have he := World.eval_congr (e := e) h
    simp only [World.eval, World.evalCallee, he, and_self]
  | .conditional test consequent alternate, h => by
    simp only [BuilderExpr.mentions, Bool.or_eq_true] at h
    have htest := World.eval_congr (e := test) fun x hx => h x (.inl (.inl hx))
    have hthen := World.eval_congr (e := consequent) fun x hx => h x (.inl (.inr hx))
    have helse := World.eval_congr (e := alternate) fun x hx => h x (.inr hx)
    simp only [World.eval, World.evalCallee, htest, hthen, helse, and_self]

theorem World.evalArguments_congr {ρ ρ' : Variables ν} :
    {es : List BuilderExpr} → (∀ x, mentionsAny x es = true → ρ x = ρ' x) →
      W.evalArguments ρ es = W.evalArguments ρ' es
  | [], _ => by rw [World.evalArguments, World.evalArguments]
  | e :: es, h => by
    simp only [mentionsAny, Bool.or_eq_true] at h
    have hhead : W.eval ρ e = W.eval ρ' e := (World.eval_congr fun x hx => h x (.inl hx)).1
    have hrest : W.evalArguments ρ es = W.evalArguments ρ' es :=
      World.evalArguments_congr fun x hx => h x (.inr hx)
    cases e with
    | spread e =>
      rw [World.eval, World.eval] at hhead
      rw [World.evalArguments, World.evalArguments, hhead, hrest]
    | _ =>
      rw [World.evalArguments, World.evalArguments, hhead, hrest]
      all_goals exact nofun

end

/-- A closed expression has the same value wherever other names do. -/
theorem World.eval_closed {ρ ρ' : Variables ν} {names : List String}
    (hρ : ∀ x, x ∉ names → ρ x = ρ' x) {e : BuilderExpr} (h : e.closed names = true) :
    W.eval ρ e = W.eval ρ' e := by
  refine (World.eval_congr fun x hx => hρ x fun hmem => ?_).1
  have hnot := List.all_eq_true.mp h x hmem
  rw [hx] at hnot
  cases hnot

theorem World.readPath_append (v : ν) (p q : WapArgPath) :
    W.readPath v (p ++ q) = (W.readPath v p).bind fun w => W.readPath w q := by
  induction p generalizing v with
  | nil => rfl
  | cons segment p ih =>
    rw [List.cons_append, World.readPath, World.readPath, Option.bind_assoc]
    congr 1
    funext w
    exact ih w

/-- A member chain reads its keys off its base. -/
theorem World.eval_memberChain {ρ : Variables ν} {e base : BuilderExpr}
    {keys keys' : List String} (h : memberChain e keys = some (base, keys')) :
    (W.eval ρ e).bind (fun v => W.readPath v (keyPath keys)) =
      (W.eval ρ base).bind fun v => W.readPath v (keyPath keys') := by
  fun_induction memberChain e keys with
  | case1 keys object property ih =>
    rw [← ih h, World.eval, Option.bind_assoc]
    rfl
  | case2 => cases h
  | case3 e keys hmember hcomputed =>
    obtain ⟨rfl, rfl⟩ := Prod.mk.inj (Option.some.inj h)
    rfl

/-- What is read off a member chain is read off its base. -/
theorem World.eval_chain {ρ : Variables ν} {e base : BuilderExpr} {keys : List String}
    (ks : WapArgPath) (h : memberChain e [] = some (base, keys)) :
    ((W.eval ρ e).bind fun w => W.readPath w ks) =
      (W.eval ρ base).bind fun w => W.readPath w (keyPath keys ++ ks) := by
  have hself : W.eval ρ e = (W.eval ρ base).bind fun w => W.readPath w (keyPath keys) := by
    rw [← World.eval_memberChain h]
    exact (Option.bind_fun_some _).symm
  rw [hself, Option.bind_assoc]
  congr 1
  funext w
  exact (World.readPath_append w _ _).symm

theorem World.run_append (before after : List Write) (ρ : Variables ν) :
    W.run (before ++ after) ρ = (W.run before ρ).bind fun ρ' => W.run after ρ' := by
  induction before generalizing ρ with
  | nil => rfl
  | cons w before ih =>
    rw [List.cons_append, World.run, World.run]
    cases w.value with
    | none => exact ih ρ
    | some e =>
      simp only [Option.bind_assoc]
      congr 1
      funext v
      exact ih _

/-- In two runs, what a name was last written with: the same expression at the same place. -/
def World.Written (W : World ν) (before : List Write) (ρ₀ ρ₀' : Variables ν) (x : String)
    (a a' : Option ν) : Prop :=
  ∃ earlier w later e ρ₁ ρ₁', before = earlier ++ w :: later ∧ w.name = x ∧ w.value = some e ∧
    W.run earlier ρ₀ = some ρ₁ ∧ W.run earlier ρ₀' = some ρ₁' ∧ a.isSome = true ∧
    a'.isSome = true ∧ a = W.eval ρ₁ e ∧ a' = W.eval ρ₁' e

theorem World.Written.append {before : List Write} {ρ₀ ρ₀' : Variables ν} {x : String}
    {a a' : Option ν} (h : W.Written before ρ₀ ρ₀' x a a') (w : Write) :
    W.Written (before ++ [w]) ρ₀ ρ₀' x a a' := by
  obtain ⟨earlier, w', later, e, ρ₁, ρ₁', rfl, hrest⟩ := h
  refine ⟨earlier, w', later ++ [w], e, ρ₁, ρ₁', ?_, hrest⟩
  rw [List.append_assoc, List.cons_append]

/-- **Where a variable has its value from**, in two runs of the same writes: from before, or from
what it was last written with. -/
theorem World.run_variable {before : List Write} {ρ₀ ρ₀' ρ ρ' : Variables ν}
    (h : W.run before ρ₀ = some ρ) (h' : W.run before ρ₀' = some ρ') (x : String) :
    (ρ x = ρ₀ x ∧ ρ' x = ρ₀' x) ∨ W.Written before ρ₀ ρ₀' x (ρ x) (ρ' x) := by
  induction before using List.reverseRecOn generalizing ρ ρ' with
  | nil => exact .inl ⟨congrFun (Option.some.inj h).symm x, congrFun (Option.some.inj h').symm x⟩
  | append_singleton before w ih =>
    rw [World.run_append] at h h'
    obtain ⟨ρ₂, h₂, h⟩ := Option.bind_eq_some_iff.mp h
    obtain ⟨ρ₂', h₂', h'⟩ := Option.bind_eq_some_iff.mp h'
    have hold : ρ x = ρ₂ x → ρ' x = ρ₂' x →
        (ρ x = ρ₀ x ∧ ρ' x = ρ₀' x) ∨ W.Written (before ++ [w]) ρ₀ ρ₀' x (ρ x) (ρ' x) := by
      intro hx hx'
      rw [hx, hx']
      exact (ih h₂ h₂').imp_right fun hw => hw.append w
    rw [World.run] at h h'
    cases hvalue : w.value with
    | none =>
      simp only [hvalue, World.run, Option.some.injEq] at h h'
      exact hold (congrFun h.symm x) (congrFun h'.symm x)
    | some e =>
      simp only [hvalue] at h h'
      obtain ⟨v, hv, h⟩ := Option.bind_eq_some_iff.mp h
      obtain ⟨v', hv', h'⟩ := Option.bind_eq_some_iff.mp h'
      simp only [World.run, Option.some.injEq] at h h'
      by_cases hx : x = w.name
      · refine .inr ⟨before, w, [], e, ρ₂, ρ₂', rfl, hx.symm, hvalue, h₂, h₂', ?_⟩
        rw [← h, ← h', hx, Function.update_self, Function.update_self, hv, hv']
        exact ⟨rfl, rfl, rfl, rfl⟩
      · refine hold ?_ ?_
        · rw [← h, Function.update_of_ne hx]
        · rw [← h', Function.update_of_ne hx]

/-- A name that holds something of the argument keeps counting. -/
theorem mem_sourcesAfter {names : List String} {x : String} (h : x ∈ names)
    (writes : List Write) : x ∈ sourcesAfter names writes := by
  induction writes generalizing names with
  | nil => exact h
  | cons w writes ih =>
    rw [sourcesAfter]
    split_ifs
    · exact ih (List.mem_cons_of_mem _ h)
    · exact ih h

theorem sourcesAfter_append (names : List String) (before after : List Write) :
    sourcesAfter names (before ++ after) = sourcesAfter (sourcesAfter names before) after := by
  induction before generalizing names with
  | nil => rfl
  | cons w before ih =>
    rw [List.cons_append, sourcesAfter, sourcesAfter]
    exact ih _

/-- **Other names agree**: what is not written from the argument is the same in two runs. -/
theorem World.run_other {writes : List Write} {names : List String}
    {ρ₀ ρ₀' ρ ρ' : Variables ν} (h₀ : ∀ x, x ∉ names → ρ₀ x = ρ₀' x)
    (h : W.run writes ρ₀ = some ρ) (h' : W.run writes ρ₀' = some ρ') {x : String}
    (hx : x ∉ sourcesAfter names writes) : ρ x = ρ' x := by
  induction writes generalizing names ρ₀ ρ₀' with
  | nil =>
    rw [← Option.some.inj h, ← Option.some.inj h']
    exact h₀ x hx
  | cons w writes ih =>
    rw [World.run] at h h'
    rw [sourcesAfter] at hx
    cases hvalue : w.value with
    | none =>
      simp only [hvalue] at h h'
      have hreads : w.readsAny names = false := by rw [Write.readsAny, hvalue]; rfl
      rw [hreads, if_neg Bool.false_ne_true] at hx
      exact ih h₀ h h' hx
    | some e =>
      simp only [hvalue] at h h'
      obtain ⟨v, hv, h⟩ := Option.bind_eq_some_iff.mp h
      obtain ⟨v', hv', h'⟩ := Option.bind_eq_some_iff.mp h'
      by_cases hclosed : e.closed names = true
      · -- Written from elsewhere: the same value in both runs.
        have hreads : w.readsAny names = false := by
          rw [Write.readsAny, hvalue, Option.any_some, hclosed]; rfl
        rw [hreads, if_neg Bool.false_ne_true] at hx
        have hsame : v = v' := by
          rw [World.eval_closed h₀ hclosed, hv'] at hv
          exact (Option.some.inj hv).symm
        refine ih (fun y hy => ?_) h h' hx
        rw [hsame]
        by_cases hy' : y = w.name
        · rw [hy', Function.update_self, Function.update_self]
        · rw [Function.update_of_ne hy', Function.update_of_ne hy', h₀ y hy]
      · have hreads : w.readsAny names = true := by
          rw [Write.readsAny, hvalue, Option.any_some, Bool.eq_false_iff.mpr hclosed]; rfl
        rw [hreads, if_pos rfl] at hx
        refine ih (fun y hy => ?_) h h' hx
        obtain ⟨hne, hy⟩ := List.ne_and_not_mem_of_not_mem_cons hy
        rw [Function.update_of_ne hne, Function.update_of_ne hne, h₀ y hy]

end Evaluation

/-! ### Two runs of a builder -/

section Sources

variable {ν : Type} {W : World ν} {m : BuilderModule} {function : ℕ} {f : BuilderFunction}
  {root : String} {before : List Write} {v v' : ν} {ρ ρ' : Variables ν}

/-- Two runs of the beginning of a body, with two argument objects. -/
structure Twice (W : World ν) (f : BuilderFunction) (root : String) (before : List Write)
    (v v' : ν) (ρ ρ' : Variables ν) : Prop where
  part : ∃ rest, f.body = before ++ rest
  first : W.run before (W.enter root f.body v) = some ρ
  second : W.run before (W.enter root f.body v') = some ρ'

theorem mem_initsAmong {i : Option ℕ} {w : Write} {writes : List Write} {e : BuilderExpr}
    (hw : w ∈ writes) (hvalue : w.value = some e) :
    ⟨e, i, if w.isDeclaration then none else i⟩ ∈ initsAmong i w.name writes := by
  refine List.mem_filterMap.mpr ⟨w, hw, ?_⟩
  rw [if_pos rfl, hvalue]
  rfl

/-- What a function writes counts in it. -/
theorem mem_initsIn (hf : m.functions[function]? = some f) {w : Write} (hw : w ∈ f.body)
    {e : BuilderExpr} (hvalue : w.value = some e) : e ∈ m.initsIn function w.name := by
  refine List.mem_filterMap.mpr ⟨_, List.mem_append_right _ (List.mem_flatMap.mpr
    ⟨(f, function), List.mem_zipIdx_iff_getElem?.mpr hf, mem_initsAmong hw hvalue⟩), ?_⟩
  refine if_pos ⟨rfl, ?_⟩
  cases w.isDeclaration with
  | true => exact .inl rfl
  | false => exact .inr rfl

theorem Twice.mem_body (h : Twice W f root before v v' ρ ρ') {earlier later : List Write}
    {w : Write} (hbefore : before = earlier ++ w :: later) : w ∈ f.body := by
  obtain ⟨rest, hrest⟩ := h.part
  rw [hrest, hbefore]
  exact List.mem_append_left _ (List.mem_append_right _ List.mem_cons_self)

/-- Other names are the same in both runs. -/
theorem Twice.other (h : Twice W f root before v v' ρ ρ') {x : String}
    (hx : x ∉ f.sourceNames root) : ρ x = ρ' x := by
  obtain ⟨rest, hrest⟩ := h.part
  have henter : ∀ y, y ∉ [root] → W.enter root f.body v y = W.enter root f.body v' y := by
    intro y hy
    have hne : y ≠ root := List.ne_of_not_mem_cons hy
    rw [World.enter, World.enter, if_neg hne, if_neg hne]
  refine World.run_other henter h.first h.second fun hbefore => hx ?_
  rw [BuilderFunction.sourceNames, hrest, sourcesAfter_append]
  exact mem_sourcesAfter hbefore rest

/-- A parameter that is never written is the argument object. -/
theorem Twice.argument (h : Twice W f root before v v' ρ ρ') (hroot : root ∉ f.body.map Write.name) :
    ρ root = some v ∧ ρ' root = some v' := by
  obtain ⟨h₁, h₁'⟩ | ⟨earlier, w, later, e, ρ₁, ρ₁', hbefore, rfl, -⟩ :=
    World.run_variable h.first h.second root
  · rw [h₁, h₁', World.enter, World.enter, if_pos rfl, if_pos rfl]
    exact ⟨rfl, rfl⟩
  · exact absurd (List.mem_map_of_mem (h.mem_body hbefore)) hroot

/-- Another variable is the same in both runs, or it was written with one initializer in both. -/
theorem Twice.variable (hf : m.functions[function]? = some f)
    (h : Twice W f root before v v' ρ ρ') {x : String} (hx : x ≠ root) :
    ρ x = ρ' x ∨ ∃ e ∈ m.initsIn function x, ∃ earlier ρ₁ ρ₁',
      Twice W f root earlier v v' ρ₁ ρ₁' ∧ (ρ x).isSome = true ∧ (ρ' x).isSome = true ∧
        ρ x = W.eval ρ₁ e ∧ ρ' x = W.eval ρ₁' e := by
  obtain ⟨h₁, h₁'⟩ | ⟨earlier, w, later, e, ρ₁, ρ₁', hbefore, rfl, hvalue, hrun, hrun', hrest⟩ :=
    World.run_variable h.first h.second x
  · left
    rw [h₁, h₁', World.enter, World.enter, if_neg hx, if_neg hx]
  · refine .inr ⟨e, mem_initsIn hf (h.mem_body hbefore) hvalue, earlier, ρ₁, ρ₁', ?_, hrest⟩
    obtain ⟨rest, hpart⟩ := h.part
    refine ⟨⟨w :: later ++ rest, ?_⟩, hrun, hrun'⟩
    rw [hpart, hbefore, List.append_assoc]

theorem orElse_of_isSome {a b : Option ν} (h : a.isSome = true) : (a <|> b) = a := by
  cases a with
  | none => cases h
  | some _ => rfl

/-- **Bases.**  What is read off the base of a chain is the same in both runs, when the argument
objects agree on it. -/
theorem eval_of_base (hf : m.functions[function]? = some f)
    (hroot : root ∉ f.body.map Write.name) {depth : ℕ} :
    ∀ {before ρ ρ' e q}, Twice W f root before v v' ρ ρ' →
      baseArgPath m function root depth e = some q →
      baseSteady m function root (f.sourceNames root) depth e = true → ∀ ks : WapArgPath,
      W.readPath v (q ++ ks) = W.readPath v' (q ++ ks) →
      ((W.eval ρ e).bind fun w => W.readPath w ks) =
        (W.eval ρ' e).bind fun w => W.readPath w ks := by
  induction depth with
  | zero => exact fun _ h => nomatch h
  | succ depth ih =>
    intro before ρ ρ' e q htwice hpath hsteady ks hagree
    rw [baseArgPath] at hpath
    rw [baseSteady] at hsteady
    rw [← World.eval_bare ρ e, ← World.eval_bare ρ' e]
    cases hbare : e.bare with
    | identifier x =>
      simp only [hbare] at hpath hsteady
      rw [World.eval, World.eval]
      by_cases hx : x = root
      · subst hx
        rw [if_pos rfl] at hpath
        obtain rfl := Option.some.inj hpath
        rw [(htwice.argument hroot).1, (htwice.argument hroot).2]
        exact hagree
      · rw [if_neg hx] at hpath
        have hall := (mem_agreeing hpath).2
        rw [decide_eq_false hx, Bool.false_or, List.all_eq_true] at hsteady
        obtain heq | ⟨init, hinit, earlier, ρ₁, ρ₁', htwice₁, hsome, hsome', hval, hval'⟩ :=
          htwice.variable hf hx
        · rw [heq]
        · have hinitSteady := hsteady init hinit
          rw [orElse_of_isSome hsome, orElse_of_isSome hsome', hval, hval']
          obtain hnone | hsome := hall _ (List.mem_map_of_mem hinit)
          · rw [hnone, Option.isSome_none, if_neg Bool.false_ne_true] at hinitSteady
            rw [World.eval_closed (fun y hy => htwice₁.other hy) hinitSteady]
          · rw [hsome, Option.isSome_some, if_pos rfl] at hinitSteady
            exact ih htwice₁ hsome hinitSteady ks hagree
    | member object property =>
      simp only [hbare] at hpath hsteady
      obtain ⟨⟨base, keys⟩, hchain, hpath⟩ := Option.bind_eq_some_iff.mp hpath
      obtain ⟨q', hbase, hpath⟩ := Option.bind_eq_some_iff.mp hpath
      obtain rfl := Option.some.inj hpath
      rw [hchain] at hsteady
      rw [List.append_assoc] at hagree
      have hread := fun σ => @World.eval_chain ν W σ _ _ _ ks hchain
      rw [hread, hread]
      exact ih htwice hbase hsteady _ hagree
    | _ =>
      simp only [hbare, reduceCtorEq] at hpath

/-- What is passed over is closed, and what is not has the path of the whole. -/
theorem eval_of_passes {depth : ℕ} {e : BuilderExpr} {p : WapArgPath}
    (htwice : Twice W f root before v v' ρ ρ')
    (hpasses : (if (relativeArgPathWith m function root depth e).isSome then
      steady m function root (f.sourceNames root) depth e else e.closed (f.sourceNames root)) =
        true)
    (hpath : relativeArgPathWith m function root depth e = none ∨
      relativeArgPathWith m function root depth e = some p)
    (ih : relativeArgPathWith m function root depth e = some p →
      steady m function root (f.sourceNames root) depth e = true → W.eval ρ e = W.eval ρ' e) :
    W.eval ρ e = W.eval ρ' e := by
  obtain hnone | hsome := hpath
  · rw [hnone, Option.isSome_none, if_neg Bool.false_ne_true] at hpasses
    exact World.eval_closed (fun x hx => htwice.other hx) hpasses
  · rw [hsome, Option.isSome_some, if_pos rfl] at hpasses
    exact ih hsome hpasses

theorem evalCallee_closed {names : List String} (hρ : ∀ x, x ∉ names → ρ x = ρ' x)
    {e : BuilderExpr} (h : e.closed names = true) : W.evalCallee ρ e = W.evalCallee ρ' e := by
  refine (World.eval_congr fun x hx => hρ x fun hmem => ?_).2
  have hnot := List.all_eq_true.mp h x hmem
  rw [hx] at hnot
  cases hnot

theorem evalArguments_of_forall {es : List BuilderExpr}
    (h : ∀ e ∈ es, W.eval ρ e = W.eval ρ' e) : W.evalArguments ρ es = W.evalArguments ρ' es := by
  induction es with
  | nil => rw [World.evalArguments, World.evalArguments]
  | cons e es ih =>
    obtain ⟨hhead, hrest⟩ := List.forall_mem_cons.mp h
    cases e with
    | spread e =>
      rw [World.eval, World.eval] at hhead
      rw [World.evalArguments, World.evalArguments, hhead, ih hrest]
    | _ =>
      rw [World.evalArguments, World.evalArguments, hhead, ih hrest]
      all_goals exact nofun

/-- **Expressions.**  An expression has the same value in both runs, when the argument objects
agree at its path. -/
theorem eval_of_relative (hf : m.functions[function]? = some f)
    (hroot : root ∉ f.body.map Write.name) {depth : ℕ} :
    ∀ {before ρ ρ' e p}, Twice W f root before v v' ρ ρ' →
      relativeArgPathWith m function root depth e = some p →
      steady m function root (f.sourceNames root) depth e = true →
      W.readPath v p = W.readPath v' p → W.eval ρ e = W.eval ρ' e := by
  induction depth with
  | zero => exact fun _ h => nomatch h
  | succ depth ih =>
    intro before ρ ρ' e p htwice hpath hsteady hagree
    have hwhole := hpath
    rw [relativeArgPathWith] at hpath
    rw [steady] at hsteady
    rw [← World.eval_bare ρ e, ← World.eval_bare ρ' e]
    have hpart : ∀ {a}, (if (relativeArgPathWith m function root depth a).isSome then
        steady m function root (f.sourceNames root) depth a else
          a.closed (f.sourceNames root)) = true →
        relativeArgPathWith m function root depth a = none ∨
          relativeArgPathWith m function root depth a = some p → W.eval ρ a = W.eval ρ' a :=
      fun hpasses hor => eval_of_passes htwice hpasses hor fun h h' => ih htwice h h' hagree
    cases hbare : e.bare with
    | identifier x =>
      simp only [hbare] at hpath hsteady
      rw [World.eval, World.eval]
      by_cases hx : x = root
      · subst hx
        rw [if_pos rfl] at hpath
        obtain rfl := Option.some.inj hpath
        rw [(htwice.argument hroot).1, (htwice.argument hroot).2]
        exact congrArg (· <|> _) hagree
      · rw [if_neg hx] at hpath
        have hall := (mem_agreeing hpath).2
        rw [decide_eq_false hx, Bool.false_or, List.all_eq_true] at hsteady
        obtain heq | ⟨init, hinit, earlier, ρ₁, ρ₁', htwice₁, hsome, hsome', hval, hval'⟩ :=
          htwice.variable hf hx
        · rw [heq]
        · rw [orElse_of_isSome hsome, orElse_of_isSome hsome', hval, hval']
          exact eval_of_passes htwice₁ (hsteady init hinit) (hall _ (List.mem_map_of_mem hinit))
            fun h h' => ih htwice₁ h h' hagree
    | member object property =>
      simp only [hbare] at hpath hsteady
      obtain ⟨⟨base, keys⟩, hchain, hpath⟩ := Option.bind_eq_some_iff.mp hpath
      obtain ⟨q, hbase, hpath⟩ := Option.bind_eq_some_iff.mp hpath
      obtain rfl := Option.some.inj hpath
      rw [hchain] at hsteady
      have hread := eval_of_base hf hroot htwice hbase hsteady (keyPath keys ++ [])
        (by rwa [List.append_nil])
      rw [← World.eval_chain [] hchain, ← World.eval_chain [] hchain] at hread
      simpa only [World.readPath, Option.bind_fun_some] using hread
    | call callee arguments =>
      simp only [hbare, Bool.and_eq_true, List.all_eq_true] at hpath hsteady
      have hall := (mem_argumentsPath hpath).2
      rw [World.eval, World.eval, evalCallee_closed (fun x hx => htwice.other hx) hsteady.1]
      have harguments : W.evalArguments ρ arguments = W.evalArguments ρ' arguments := by
        refine evalArguments_of_forall fun a ha => ?_
        have hpasses := hsteady.2 a ha
        cases a with
        | spread a =>
          rw [World.eval, World.eval]
          exact World.eval_closed (fun x hx => htwice.other hx) hpasses
        | _ => exact hpart hpasses (hall _ ha rfl)
      rw [harguments]
    | conditional test consequent alternate =>
      simp only [hbare, Bool.and_eq_true] at hpath hsteady
      obtain ⟨⟨htest, hconsequent⟩, halternate⟩ := hsteady
      have hbranches : (relativeArgPathWith m function root depth consequent = none ∨
            relativeArgPathWith m function root depth consequent = some p) ∧
          (relativeArgPathWith m function root depth alternate = none ∨
            relativeArgPathWith m function root depth alternate = some p) := by
        cases hc : relativeArgPathWith m function root depth consequent with
        | none =>
          cases ha : relativeArgPathWith m function root depth alternate with
          | none => simp only [hc, ha, reduceCtorEq] at hpath
          | some q =>
            simp only [hc, ha] at hpath
            split_ifs at hpath
            exact ⟨.inl rfl, .inr hpath⟩
        | some q =>
          cases ha : relativeArgPathWith m function root depth alternate with
          | none =>
            simp only [hc, ha] at hpath
            split_ifs at hpath
            exact ⟨.inr hpath, .inl rfl⟩
          | some q' =>
            simp only [hc, ha] at hpath
            split_ifs at hpath with heq
            exact ⟨.inr hpath, .inr (heq ▸ hpath)⟩
      have heval : W.eval ρ test = W.eval ρ' test := by
        rcases Bool.or_eq_true_iff.mp htest with hclosed | hsame
        · exact World.eval_closed (fun x hx => htwice.other hx) hclosed
        · rw [Bool.and_eq_true, decide_eq_true_eq] at hsame
          exact ih htwice (hsame.1.trans hwhole) hsame.2 hagree
      rw [World.eval, World.eval, heval, hpart hconsequent hbranches.1,
        hpart halternate hbranches.2]
    | _ =>
      simp only [hbare, reduceCtorEq] at hpath

end Sources

/-- Nothing that is passed over on the way to the path of an expression reads the argument, and
the parameter is never written. -/
def readsNothingElse (m : BuilderModule) (function : ℕ) (f : BuilderFunction) (root : String)
    (e : BuilderExpr) : Bool :=
  !(f.body.map Write.name).contains root &&
    steady m function root (f.sourceNames root) (maxAliasDepth + 1) e

/-- Numbers as objects: their last digit and the rest, and calls that add. -/
def digits : World ℕ where
  undefined := 0
  constant := id
  outside := fun _ => some 0
  read := fun n key => some (if key = "values" then n / 10 else n % 10)
  index := fun n i => some (n + i)
  truthy := fun n => n ≠ 0
  apply := fun f _ arguments => some (f + (arguments.map Prod.snd).sum)

/-- A builder `function (e) { var a = e.values; … }`. -/
def aliasBuilder : BuilderFunction where
  parameters := ["e"]
  body := [⟨"a", true, some (.member (.identifier "e") "values")⟩]

end Whatspec.Scan

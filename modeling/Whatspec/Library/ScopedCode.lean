import Mathlib.Data.Set.Basic

/-!
# Code with scopes, and what its runs write

The nodes of a program text whose names are looked up in the scopes around them: function frames,
blocks, catch clauses, classes, and the objects that `with` puts in between.  A run keeps what may
be evaluated, each node with the scopes it stands in, and takes up its parts in any order and as
often as it likes; so it also has the calls of a closure at any later time.

* `Node.boundNames`, `Node.declares`, `Node.functionNames`: what is declared where;
* `Node.parts`: the parts of a node, each with its scopes;
* `Resolves`: where a name leads to (`resolves_inner`, `resolves_outer`);
* `Writes`, `Step`, `Run`: what a node writes, and what happens in a run;
* **`live_of_plainRun`**: what passes from every node to its parts holds of all that is evaluated;
* **`store_of_plainRun`**: a name that none of it writes keeps its value.
-/

namespace Whatspec.Library.ScopedCode

/-! ### The nodes of a text -/

structure FunctionHead where
  isDeclaration : Bool := false
  isAsync : Bool := false
  isGenerator : Bool := false
  id : Option String := none
  deriving DecidableEq

/-- The nodes that only have parts. -/
inductive Form where
  | parenthesized
  | array
  | elision
  | spread
  | expressionStatement
  | other
  deriving DecidableEq

/-- A node.  What may be absent is a list of at most one. -/
inductive Node where
  | identifier (name : String)
  | text (value : String)
  | binding (name : String)
  | call (callee : Node) (arguments : List Node)
  | assignment (span : ℕ) (left right : Node)
  | update (argument : Node)
  | delete (argument : Node)
  | member (parts : List Node)
  /-- A destructuring target: the targets in it, and its keys and defaults. -/
  | targets (targets others : List Node)
  /-- A destructuring binding: its bindings, keys and defaults. -/
  | pattern (parts : List Node)
  | declaration (isVar : Bool) (declarators : List Node)
  | declarator (id : Node) (init : List Node)
  /-- A block, a `for` statement or the cases of a switch. -/
  | block (nodes : List Node)
  /-- `for … in` and `for … of`. -/
  | iteration (left : Node) (rest : List Node)
  | catchClause (parameter : List Node) (body : Node)
  | withStatement (object body : Node)
  | function (head : FunctionHead) (parameters rest body : List Node)
  | arrow (parameters body : List Node)
  | classNode (isDeclaration : Bool) (id : Option String) (parts : List Node)
  | staticBlock (statements : List Node)
  | compound (form : Form) (parts : List Node)

namespace Node

/-- The parts of a node, as a walk over the tree visits them. -/
def children : Node → List Node
  | identifier _ | text _ | binding _ => []
  | call callee arguments => callee :: arguments
  | assignment _ left right => [left, right]
  | update argument | delete argument => [argument]
  | member parts | pattern parts | compound _ parts => parts
  | targets ts others => ts ++ others
  | declaration _ declarators => declarators
  | declarator id init => id :: init
  | block nodes => nodes
  | iteration left rest => left :: rest
  | catchClause parameter body => parameter ++ [body]
  | withStatement object body => [object, body]
  | function _ parameters rest body => parameters ++ rest ++ body
  | arrow parameters body => parameters ++ body
  | classNode _ _ parts => parts
  | staticBlock statements => statements

def withoutParentheses : Node → Node
  | compound .parenthesized [e] => e.withoutParentheses
  | n => n

/-- The node has a frame: no `var` in it leaves it. -/
def isFramed : Node → Bool
  | function .. | arrow .. | classNode .. | staticBlock _ => true
  | _ => false

/-- What a list of nodes weighs: the walks below come to lighter lists. -/
noncomputable def weight : List Node → ℕ
  | [] => 0
  | n :: ns => 3 * sizeOf n + 1 + weight ns

theorem weight_append (ms ns : List Node) : weight (ms ++ ns) = weight ms + weight ns := by
  induction ms with
  | nil => simp [weight]
  | cons m ms ih =>
    simp only [List.cons_append, weight, ih]
    omega

theorem weight_le (ns : List Node) : weight ns + 3 ≤ 3 * sizeOf ns := by
  induction ns with
  | nil => simp [weight]
  | cons n ns ih =>
    simp only [weight, List.cons.sizeOf_spec]
    omega

theorem weight_children (n : Node) : weight n.children < 3 * sizeOf n := by
  cases n with
  | call _ ns | member ns | pattern ns | declaration _ ns | declarator _ ns | block ns
  | iteration _ ns | classNode _ _ ns | staticBlock ns | compound _ ns =>
    have h := weight_le ns
    simp [children, weight]
    omega
  | targets ms ns | arrow ms ns =>
    have hm := weight_le ms
    have hn := weight_le ns
    simp [children, weight_append]
    omega
  | catchClause ms n =>
    have hm := weight_le ms
    simp [children, weight_append, weight]
    omega
  | function _ ls ms ns =>
    have hl := weight_le ls
    have hm := weight_le ms
    have hn := weight_le ns
    simp [children, weight_append]
    omega
  | _ =>
    simp only [children, weight, assignment.sizeOf_spec, update.sizeOf_spec, delete.sizeOf_spec,
      withStatement.sizeOf_spec, identifier.sizeOf_spec, text.sizeOf_spec, binding.sizeOf_spec]
    omega

/-- Induction over the parts of a node. -/
theorem induction_children {P : Node → Prop} (h : ∀ n, (∀ c ∈ n.children, P c) → P n) (n : Node) :
    P n := by
  have hlt : ∀ {c : Node} {ns : List Node}, c ∈ ns → 3 * sizeOf c < weight ns := by
    intro c ns hc
    induction ns with
    | nil => cases hc
    | cons m ms ih =>
      rw [weight]
      cases hc with
      | head => omega
      | tail _ hc =>
        have := ih hc
        omega
  induction hk : sizeOf n using Nat.strong_induction_on generalizing n with
  | _ k ih =>
    refine h n fun c hc => ih (sizeOf c) ?_ c rfl
    have hc := hlt hc
    have hn := weight_children n
    omega

/-! ### What is declared where -/

mutual

/-- The names that a node declares for the function it stands in: those of its own bindings where
it is one of a `var`, and those of every `var` in it. -/
def boundNames (own : Bool) : Node → List String
  | binding x => if own then [x] else []
  | declaration isVar declarators => boundNamesAll isVar declarators
  | catchClause parameter body => boundNamesAll false parameter ++ body.boundNames own
  | function .. | arrow .. | classNode .. => []
  | n => boundNamesAll own n.children
termination_by n => 3 * sizeOf n
decreasing_by
  · exact weight_children (declaration isVar declarators)
  · have := weight_le parameter
    rw [catchClause.sizeOf_spec]
    omega
  · rw [catchClause.sizeOf_spec]
    omega
  · exact weight_children n

def boundNamesAll (own : Bool) : List Node → List String
  | [] => []
  | n :: ns => n.boundNames own ++ boundNamesAll own ns
termination_by ns => weight ns
decreasing_by
  all_goals simp only [weight]
  all_goals omega

end

theorem mem_boundNamesAll {own : Bool} {x : String} : ∀ {ns : List Node},
    x ∈ boundNamesAll own ns ↔ ∃ n ∈ ns, x ∈ n.boundNames own
  | [] => by simp [boundNamesAll]
  | n :: ns => by
    rw [boundNamesAll, List.mem_append, mem_boundNamesAll]
    simp

/-- What a part declares is declared by the node, unless it has a frame of its own. -/
theorem boundNames_children {own : Bool} {n c : Node} (hc : c ∈ n.children) :
    (∃ own', c.boundNames own' ⊆ n.boundNames own) ∨ n.isFramed = true := by
  cases n with
  | identifier | text | binding => cases hc
  | function | arrow | classNode | staticBlock => exact .inr rfl
  | declaration isVar declarators =>
    refine .inl ⟨isVar, fun x hx => ?_⟩
    rw [boundNames]
    exact mem_boundNamesAll.mpr ⟨c, hc, hx⟩
  | catchClause parameter body =>
    rw [children, List.mem_append, List.mem_singleton] at hc
    cases hc with
    | inl hc =>
      refine .inl ⟨false, fun x hx => ?_⟩
      rw [boundNames]
      exact List.mem_append_left _ (mem_boundNamesAll.mpr ⟨c, hc, hx⟩)
    | inr hc =>
      refine .inl ⟨own, fun x hx => ?_⟩
      rw [boundNames, ← hc]
      exact List.mem_append_right _ hx
  | _ =>
    refine .inl ⟨own, fun x hx => ?_⟩
    simp only [boundNames]
    exact mem_boundNamesAll.mpr ⟨c, hc, hx⟩

mutual

/-- The names of the functions declared in a node, at whatever depth of its blocks.  Each of them
may have a variable of the function around as well. -/
def functionNames : Node → List String
  | function head .. => if head.isDeclaration then head.id.toList else []
  | arrow .. | classNode .. | staticBlock _ => []
  | n => functionNamesAll n.children
termination_by n => 3 * sizeOf n
decreasing_by
  · exact weight_children n

def functionNamesAll : List Node → List String
  | [] => []
  | n :: ns => n.functionNames ++ functionNamesAll ns
termination_by ns => weight ns
decreasing_by
  all_goals simp only [weight]
  all_goals omega

end

mutual

/-- What a node declares in the scope it stands in; a label hides nothing. -/
def declares : Node → List String
  | declaration false declarators => boundNamesAll true declarators
  | function head .. => if head.isDeclaration then head.id.toList else []
  | classNode true id _ => id.toList
  | compound _ parts => declaresAll parts
  | _ => []
termination_by n => 3 * sizeOf n
decreasing_by
  exact weight_children (compound _ parts)

def declaresAll : List Node → List String
  | [] => []
  | n :: ns => n.declares ++ declaresAll ns
termination_by ns => weight ns
decreasing_by
  all_goals simp only [weight]
  all_goals omega

end

/-- The names in the frame of a call.  The name of a function expression has a scope of its own
around, which nothing else is in. -/
def frameNames (head : FunctionHead) (parameters rest body : List Node) : List String :=
  "arguments" :: (if head.isDeclaration then [] else head.id.toList) ++
    boundNamesAll true (parameters ++ rest ++ body) ++ declaresAll body

end Node

/-! ### Scopes, and where a name leads to -/

/-- A scope: the frame of a call, a class or a static block, with the parameters of the call; other
names; or the object of a `with`. -/
inductive Scope where
  | frame (id : ℕ) (declared parameters : List String)
  | names (id : ℕ) (declared : List String)
  | object (id : ℕ)
  deriving DecidableEq

namespace Scope

def id : Scope → ℕ
  | frame i _ _ | names i _ | object i => i

def declared : Scope → List String
  | frame _ xs _ | names _ xs => xs
  | object _ => []

def isObject : Scope → Bool
  | object _ => true
  | _ => false

def isFrame : Scope → Bool
  | frame .. => true
  | _ => false

end Scope

/-- Where something is kept: under a name of a scope, under one of the object of a `with`, under a
global name, or in some other object. -/
inductive Place where
  | binding (scope : ℕ) (name : String)
  | property (scope : ℕ) (name : String)
  | global (name : String)
  | member
  deriving DecidableEq

/-- The name a place is under. -/
def Place.name : Place → Option String
  | .binding _ x | .property _ x | .global x => some x
  | .member => none

/-- Where a name leads to.  An object has the properties that it has by then. -/
inductive Resolves : List Scope → String → Place → Prop where
  | declared {s : Scope} {env x} : x ∈ s.declared → Resolves (s :: env) x (.binding s.id x)
  | property {i env x} : Resolves (.object i :: env) x (.property i x)
  | outer {s : Scope} {env x p} : x ∉ s.declared → Resolves env x p → Resolves (s :: env) x p
  | global {x} : Resolves [] x (.global x)

theorem name_of_resolves {env : List Scope} {x : String} {p : Place} (h : Resolves env x p) :
    p.name = some x := by
  induction h with
  | outer _ _ ih => exact ih
  | _ => rfl

/-- A name that an inner scope declares does not lead past the inner scopes. -/
theorem resolves_inner {inner outer : List Scope} {x : String} {p : Place}
    (h : Resolves (inner ++ outer) x p) (hx : ∃ s ∈ inner, x ∈ s.declared) :
    ∃ s ∈ inner, p = .binding s.id x ∨ p = .property s.id x ∧ s.isObject := by
  induction inner with
  | nil =>
    obtain ⟨s, hs, -⟩ := hx
    cases hs
  | cons s inner ih =>
    cases h with
    | declared hdeclared => exact ⟨s, List.mem_cons_self .., .inl rfl⟩
    | property => exact ⟨_, List.mem_cons_self .., .inr ⟨rfl, rfl⟩⟩
    | outer hnot hresolves =>
      obtain ⟨t, ht, hxt⟩ := hx
      have htail : t ∈ inner := by
        cases ht with
        | head => exact absurd hxt hnot
        | tail _ ht => exact ht
      obtain ⟨u, hu, hp⟩ := ih hresolves ⟨t, htail, hxt⟩
      exact ⟨u, List.mem_cons_of_mem _ hu, hp⟩

/-- A name that no inner scope declares leads past them, unless a `with` is among them. -/
theorem resolves_outer {inner outer : List Scope} {x : String} {p : Place}
    (h : Resolves (inner ++ outer) x p) (hx : ∀ s ∈ inner, x ∉ s.declared)
    (hobjects : ∀ s ∈ inner, s.isObject = false) : Resolves outer x p := by
  induction inner with
  | nil => exact h
  | cons s inner ih =>
    cases h with
    | declared hdeclared => exact absurd hdeclared (hx s (List.mem_cons_self ..))
    | property => exact absurd (hobjects _ (List.mem_cons_self ..)) Bool.noConfusion
    | outer hnot hresolves =>
      exact ih hresolves (fun t ht => hx t (List.mem_cons_of_mem _ ht))
        (fun t ht => hobjects t (List.mem_cons_of_mem _ ht))

/-- The first frame is among the inner scopes as soon as one of them is a frame. -/
theorem mem_of_first_frame {inner rest near far : List Scope} {f : Scope}
    (h : inner ++ rest = near ++ f :: far) (hnear : ∀ s ∈ near, s.isFrame = false)
    (hinner : ∃ s ∈ inner, s.isFrame = true) : f ∈ inner := by
  induction inner generalizing near with
  | nil =>
    obtain ⟨s, hs, -⟩ := hinner
    cases hs
  | cons s inner ih =>
    cases near with
    | nil =>
      injection h with h _
      rw [h]
      exact List.mem_cons_self ..
    | cons t near =>
      injection h with hst h
      obtain ⟨u, hu, hframe⟩ := hinner
      have htail : u ∈ inner := by
        cases hu with
        | head =>
          rw [hst, hnear t (List.mem_cons_self ..)] at hframe
          cases hframe
        | tail _ hu => exact hu
      exact List.mem_cons_of_mem _
        (ih h (fun v hv => hnear v (List.mem_cons_of_mem _ hv)) ⟨u, htail, hframe⟩)

/-! ### The parts of a node, with their scopes -/

namespace Node

/-- The parts of a node, each with its scopes; `i` is the next scope, and `hoisted` are functions of
inner blocks that the frame has variables for. -/
def parts (i : ℕ) (hoisted : List String) (env : List Scope) (n : Node) :
    List (List Scope × Node) :=
  match n with
  | block nodes => nodes.map (.names i (declaresAll nodes) :: env, ·)
  | iteration left rest => (left :: rest).map (.names i left.declares :: env, ·)
  | catchClause parameter body =>
    (parameter ++ [body]).map (.names i (boundNamesAll true parameter) :: env, ·)
  | withStatement object body => [(env, object), (.object i :: env, body)]
  | function head parameters rest body =>
    (parameters ++ rest ++ body).map
      (.frame i (frameNames head parameters rest body ++ hoisted)
        (boundNamesAll true parameters) :: env, ·)
  | arrow parameters body =>
    (parameters ++ body).map
      (.frame i (boundNamesAll true (parameters ++ body) ++ declaresAll body ++ hoisted) [] ::
        env, ·)
  -- No `var` leaves a class; those of its static blocks do not leave the block.
  | classNode _ id ns =>
    ns.map (.frame i (id.toList ++ boundNamesAll true (ns.filter (!·.isFramed))) [] :: env, ·)
  | staticBlock ns =>
    ns.map (.frame i (boundNamesAll true ns ++ declaresAll ns ++ hoisted) [] :: env, ·)
  | n => n.children.map (env, ·)

/-- The functions of inner blocks that a frame may have variables for. -/
def hoistable : Node → List String
  | function _ _ _ body | arrow _ body | staticBlock body => functionNamesAll body
  | _ => []

end Node

/-! ### What a node writes -/

/-- How a place is written. -/
inductive Kind where
  | assignment
  | destructuring
  | update
  | delete
  /-- The value of a `var`, or a function of an inner block for its variable. -/
  | declaration
  /-- A parameter, through the arguments object. -/
  | argument
  deriving DecidableEq

namespace Node

mutual

/-- The targets in a target: names, and the rest as `none`. -/
def written : Node → List (Option String)
  | identifier x => [some x]
  | member _ => [none]
  | targets ts _ => writtenAll ts
  | _ => []
termination_by n => 3 * sizeOf n
decreasing_by
  have h := weight_children (targets ts ‹_›)
  simp only [children, weight_append] at h
  omega

def writtenAll : List Node → List (Option String)
  | [] => []
  | n :: ns => n.written ++ writtenAll ns
termination_by ns => weight ns
decreasing_by
  all_goals simp only [weight]
  all_goals omega

end

/-- How a write to this target or binding is made. -/
def kind (plain : Kind) : Node → Kind
  | targets .. | pattern _ => .destructuring
  | _ => plain

/-- The call may evaluate a text as code of the function it stands in. -/
def evaluates : Node → Bool
  | call callee _ =>
    match callee.withoutParentheses with
    | identifier x => x = "eval"
    | _ => false
  | _ => false

end Node

/-- The place of a target. -/
inductive Leads (env : List Scope) : Option String → Place → Prop where
  | name {x p} : Resolves env x p → Leads env (some x) p
  | member : Leads env none .member

/-- What a node writes in its scopes, and how. -/
inductive Writes (env : List Scope) : Node → Kind → Place → Prop where
  | assignment {span left right t p} : t ∈ left.written → Leads env t p →
      Writes env (.assignment span left right) (left.kind .assignment) p
  | update {x p} : Resolves env x p → Writes env (.update (.identifier x)) .update p
  | updateMember {parts} : Writes env (.update (.member parts)) .update .member
  | delete {argument t p} : t ∈ argument.withoutParentheses.written → Leads env t p →
      Writes env (.delete argument) .delete p
  | iteration {left rest t p} : t ∈ left.written → Leads env t p →
      Writes env (.iteration left rest) (left.kind .assignment) p
  | iterationVar {declarators id init rest x p} : .declarator id init ∈ declarators →
      x ∈ id.boundNames true → Resolves env x p →
      Writes env (.iteration (.declaration true declarators) rest) (id.kind .declaration) p
  | declaration {declarators id value x p} : .declarator id [value] ∈ declarators →
      x ∈ id.boundNames true → Resolves env x p →
      Writes env (.declaration true declarators) (id.kind .declaration) p
  /-- A function declared in a block is written to its variable of the frame, where it has one. -/
  | hoisted {nodes x inner i declared parameters outer} : x ∈ Node.declaresAll nodes →
      env = inner ++ .frame i declared parameters :: outer → (∀ s ∈ inner, s.isFrame = false) →
      x ∈ declared → Writes env (.block nodes) .declaration (.binding i x)
  /-- Whoever gets hold of the arguments object of a call may write its parameters. -/
  | argument {i declared parameters x} : Resolves env "arguments" (.binding i "arguments") →
      .frame i declared parameters ∈ env → x ∈ parameters →
      Writes env (.identifier "arguments") .argument (.binding i x)

/-! ### Runs -/

/-- What is kept under the names of the scopes made so far, and what may be evaluated. -/
structure State (V : Type*) where
  fresh : ℕ
  store : ℕ → String → V
  live : Set (List Scope × Node)

variable {V : Type*}

def State.put (σ : State V) (p : Place) (v : V) : State V :=
  match p with
  | .binding i x => { σ with store := fun j y => if j = i ∧ y = x then v else σ.store j y }
  | _ => σ

inductive Event (V : Type*) where
  | entered
  | wrote (n : Node) (kind : Kind) (place : Place)
  | called (callee : V) (arguments : List Node)
  | evaluated

/-- The values of a callee: what is kept under its name, and anything where that is not known. -/
inductive Yields (σ : State V) (env : List Scope) : Node → V → Prop where
  | binding {x i} : Resolves env x (.binding i x) →
      Yields σ env (.identifier x) (σ.store i x)
  | name {x p v} : Resolves env x p → (∀ i, p ≠ .binding i x) → Yields σ env (.identifier x) v
  | other {n v} : (∀ x, n ≠ .identifier x) → Yields σ env n v

/-- One step.  A text that is evaluated as code may do anything. -/
inductive Step : State V → Event V → State V → Prop where
  | enter {σ env n hoisted store} : (env, n) ∈ σ.live → hoisted ⊆ n.hoistable →
      (∀ i < σ.fresh, store i = σ.store i) →
      Step σ .entered
        ⟨σ.fresh + 1, store, σ.live ∪ {c | c ∈ n.parts σ.fresh hoisted env}⟩
  | write {σ env n kind p v} : (env, n) ∈ σ.live → Writes env n kind p →
      Step σ (.wrote n kind p) (σ.put p v)
  | call {σ env callee arguments v} : (env, .call callee arguments) ∈ σ.live →
      Yields σ env callee v → Step σ (.called v arguments) σ
  | evaluate {σ σ' env n} : (env, n) ∈ σ.live → n.evaluates → Step σ .evaluated σ'

/-- A run. -/
def Run (σ σ' : State V) : Prop :=
  Relation.ReflTransGen (fun σ σ' => ∃ e : Event V, Step σ e σ') σ σ'

/-- A run in which no text is evaluated as code. -/
def PlainRun (σ σ' : State V) : Prop :=
  Relation.ReflTransGen (fun σ σ' => ∃ e : Event V, e ≠ .evaluated ∧ Step σ e σ') σ σ'

theorem State.live_put (σ : State V) (p : Place) (v : V) : (σ.put p v).live = σ.live := by
  cases p <;> rfl

theorem State.fresh_put (σ : State V) (p : Place) (v : V) : (σ.put p v).fresh = σ.fresh := by
  cases p <;> rfl

/-- A run goes on with the parts of a node that may be evaluated. -/
def State.entered (σ : State V) (hoisted : List String) (env : List Scope) (n : Node) : State V :=
  ⟨σ.fresh + 1, σ.store, σ.live ∪ {c | c ∈ n.parts σ.fresh hoisted env}⟩

theorem PlainRun.entered {σ₀ σ : State V} {env : List Scope} {n : Node} (hrun : PlainRun σ₀ σ)
    (hlive : (env, n) ∈ σ.live) : PlainRun σ₀ (σ.entered [] env n) :=
  hrun.tail ⟨.entered, nofun, .enter hlive (List.nil_subset _) fun _ _ => rfl⟩

theorem PlainRun.run {σ σ' : State V} (h : PlainRun σ σ') : Run σ σ' := by
  induction h with
  | refl => exact .refl
  | tail _ hstep ih =>
    obtain ⟨e, -, hstep⟩ := hstep
    exact ih.tail ⟨e, hstep⟩

/-! ### What passes to the parts -/

/-- The property passes from every node to its parts, with scopes from a number on. -/
def Passes (first : ℕ) (P : List Scope → Node → Prop) : Prop :=
  ∀ i hoisted env n, first ≤ i → P env n → hoisted ⊆ n.hoistable →
    ∀ c ∈ n.parts i hoisted env, P c.1 c.2

/-- The property holds of all that may be evaluated, and the number is spent. -/
def Holds (first : ℕ) (P : List Scope → Node → Prop) (σ : State V) : Prop :=
  first ≤ σ.fresh ∧ ∀ c ∈ σ.live, P c.1 c.2

theorem holds_of_step {first : ℕ} {P : List Scope → Node → Prop} {σ σ' : State V} {e : Event V}
    (hpasses : Passes first P) (hstep : Step σ e σ') (he : e ≠ .evaluated)
    (h : Holds first P σ) : Holds first P σ' := by
  cases hstep with
  | @enter env n hoisted store hlive hsub hstore =>
    refine ⟨le_trans h.1 (Nat.le_succ _), ?_⟩
    intro c hc
    cases hc with
    | inl hc => exact h.2 c hc
    | inr hc => exact hpasses _ _ env n h.1 (h.2 _ hlive) hsub c hc
  | write hlive hwrites =>
    rw [Holds, State.fresh_put, State.live_put]
    exact h
  | call hlive hyields => exact h
  | evaluate hlive hevaluates => exact absurd rfl he

/-- **What passes from every node to its parts holds of all that a run may evaluate.** -/
theorem live_of_plainRun {first : ℕ} {P : List Scope → Node → Prop} {σ σ' : State V}
    (hpasses : Passes first P) (h : Holds first P σ) (hrun : PlainRun σ σ') :
    Holds first P σ' := by
  induction hrun with
  | refl => exact h
  | tail _ hstep ih =>
    obtain ⟨e, he, hstep⟩ := hstep
    exact holds_of_step hpasses hstep he ih

theorem store_put {σ : State V} {p : Place} {v : V} {i : ℕ} {x : String} (h : p ≠ .binding i x) :
    (σ.put p v).store i x = σ.store i x := by
  cases p with
  | binding j y =>
    show (if i = j ∧ x = y then v else σ.store i x) = σ.store i x
    rw [if_neg]
    rintro ⟨rfl, rfl⟩
    exact h rfl
  | _ => rfl

/-- **A name that nothing which may be evaluated writes keeps its value.** -/
theorem store_of_plainRun {first : ℕ} {P : List Scope → Node → Prop} {σ σ' : State V} {i : ℕ}
    {x : String} (hpasses : Passes first P) (h : Holds first P σ) (hi : i < first)
    (hunwritten : ∀ env n kind, P env n → ¬ Writes env n kind (.binding i x))
    (hrun : PlainRun σ σ') : σ'.store i x = σ.store i x := by
  induction hrun with
  | refl => rfl
  | tail hrun hstep ih =>
    obtain ⟨e, he, hstep⟩ := hstep
    have hholds := live_of_plainRun hpasses h hrun
    rw [← ih]
    cases hstep with
    | enter hlive hsub hstore => exact congrFun (hstore i (lt_of_lt_of_le hi hholds.1)) x
    | write hlive hwrites =>
      refine store_put ?_
      rintro rfl
      exact hunwritten _ _ _ (hholds.2 _ hlive) hwrites
    | call hlive hyields => rfl
    | evaluate hlive hevaluates => exact absurd rfl he

/-- Where no such node evaluates a text as code, every run is one in which none is. -/
theorem plainRun_of_run {first : ℕ} {P : List Scope → Node → Prop} {σ σ' : State V}
    (hpasses : Passes first P) (hquiet : ∀ env n, P env n → n.evaluates = false)
    (h : Holds first P σ) (hrun : Run σ σ') : PlainRun σ σ' := by
  induction hrun with
  | refl => exact .refl
  | tail _ hstep ih =>
    obtain ⟨e, hstep⟩ := hstep
    refine ih.tail ⟨e, ?_, hstep⟩
    rintro rfl
    cases hstep with
    | evaluate hlive hevaluates =>
      have hP := (live_of_plainRun hpasses h ih).2 _ hlive
      rw [hquiet _ _ hP] at hevaluates
      exact Bool.noConfusion hevaluates

end Whatspec.Library.ScopedCode

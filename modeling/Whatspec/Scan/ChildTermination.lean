import Mathlib.Data.Set.Finite.List
import Whatspec.Library.CallLoops
import Whatspec.Scan.ChildResolution

/-!
# Which children are resolved in the end

Functions may call each other as they like: every crossing raises the depth.  Within one frame an
expression is resolved by smaller ones, but for a variable, which is resolved by its initializers,
and these may mention it.

* `inner_of_body`: what each function of the resolution calls;
* `resolves_iff`: a call returns exactly when no variable it reaches is resolved by way of itself;
* `not_resolves_accumulator`: a list that is built by `t = t.concat(…)` never is.
-/

namespace Whatspec.Scan.ChildNodes

open Whatspec.Library

/-! ### Frames, levels and sizes -/

/-- The level of what is resolved in a frame. -/
def frameLevel (scope : VarScope) (depth : ℕ) : ℕ := 3 * (scope.maxFnDepth + 1 - depth) + 2

/-- The level of the returns of a function, which are not looked at when it is too deep. -/
def returnsLevel (scope : VarScope) (depth : ℕ) : ℕ :=
  if depth ≤ scope.maxFnDepth then 3 * (scope.maxFnDepth + 1 - depth) + 3 else 0

namespace Call

def level : Call → ℕ
  | childNode _ f | templateArg _ f | mapCall _ f | mapperRef _ f | localMerge _ _ f _ =>
    frameLevel f.scope f.depth
  | functionReturnsEach _ scope _ depth => returnsLevel scope depth
  | functionReturn _ scope _ depth => returnsLevel scope depth + 1

/-- The frame a call works in, unless it opens one. -/
def frame : Call → Option Frame
  | childNode _ f | templateArg _ f | mapCall _ f | mapperRef _ f | localMerge _ _ f _ => some f
  | functionReturnsEach .. | functionReturn .. => none

noncomputable def size : Call → ℕ
  | childNode node _ => 3 * sizeOf node + 2
  | templateArg arg _ => 3 * sizeOf arg + 3
  | mapCall node _ => 3 * sizeOf node + 1
  | _ => 0

/-- The resolution of a variable that has an initializer. -/
def isVariable (c : Call) : Prop :=
  ∃ name f, c = childNode (.identifier name) f ∧ f.scope.inits name ≠ []

end Call

/-- A call that another one may make. -/
abbrev InnerCall (c d : Call) : Prop := Inner Call.level Call.frame Call.size Call.isVariable d c

theorem inner_of_size {c d : Call} (hlevel : d.level = c.level) (hframe : d.frame = c.frame)
    (hsize : d.size < c.size) : InnerCall c d := Or.inr ⟨hlevel, hframe, Or.inr hsize⟩

theorem returnsLevel_succ_lt (scope : VarScope) (depth : ℕ) :
    returnsLevel scope (depth + 1) + 1 < frameLevel scope depth := by
  unfold returnsLevel frameLevel
  split_ifs <;> omega

theorem frameLevel_lt {scope scope' : VarScope} {depth : ℕ} (h : depth ≤ scope.maxFnDepth)
    (hscope : scope'.maxFnDepth = scope.maxFnDepth) :
    frameLevel scope' depth < returnsLevel scope depth := by
  rw [returnsLevel, if_pos h, frameLevel, hscope]
  omega

theorem frameLevel_succ_lt {scope : VarScope} {depth : ℕ} (h : depth ≤ scope.maxFnDepth) :
    frameLevel scope (depth + 1) < frameLevel scope depth := by
  unfold frameLevel
  omega

theorem returnsLevel_succ_lt_returnsLevel {scope : VarScope} {depth : ℕ}
    (h : depth ≤ scope.maxFnDepth) :
    returnsLevel scope (depth + 1) < returnsLevel scope depth := by
  unfold returnsLevel
  split_ifs <;> omega

/-- An expression in a list is smaller than what holds the list. -/
theorem sizeOf_lt_of_some_mem {e : Expression} {es : List (Option Expression)} (h : some e ∈ es) :
    sizeOf e < sizeOf es := by
  have hlt := List.sizeOf_lt_of_mem h
  rw [Option.some.sizeOf_spec] at hlt
  omega

theorem sizeOf_argument {c e : Expression} {es : List (Option Expression)} (h : some e ∈ es) :
    sizeOf e + 1 < sizeOf (Expression.call c es) := by
  have hlt := sizeOf_lt_of_some_mem h
  rw [Expression.call.sizeOf_spec]
  omega

/-! ### What is called -/

section

variable {α β : Type} {A : Call → Prop}

/-- A part of the resolution makes no other calls than these. -/
def OnlyCalls (A : Call → Prop) (p : Resolver α) : Prop :=
  Meets (fun _ _ => True) A True p fun _ => True

theorem onlyCalls_ret (a : α) : OnlyCalls A (.ret a : Resolver α) := trivial

theorem onlyCalls_ask {c : Call} : OnlyCalls A (.ask c : Resolver (Resolved c)) ↔ A c :=
  ⟨fun h => h.1, fun h => ⟨h, fun _ _ => trivial⟩⟩

theorem OnlyCalls.bind {p : Resolver α} {f : α → Resolver β} (hp : OnlyCalls A p)
    (hf : ∀ a, OnlyCalls A (f a)) : OnlyCalls A (p >>= f) :=
  meets_bind.mpr (Meets.mono hp (fun _ => id) id fun a _ => hf a)

theorem OnlyCalls.map_ret {p : Resolver α} (hp : OnlyCalls A p) (f : α → β) :
    OnlyCalls A (p >>= fun a => .ret (f a)) := hp.bind fun a => onlyCalls_ret (f a)

theorem OnlyCalls.ite {c : Prop} [Decidable c] {p q : Resolver α} (hp : c → OnlyCalls A p)
    (hq : ¬ c → OnlyCalls A q) : OnlyCalls A (if c then p else q) := by
  split_ifs with h
  · exact hp h
  · exact hq h

theorem onlyCalls_resolveEach {f : Frame} (es : List (Option Expression))
    (h : ∀ e, some e ∈ es → A (.childNode e f)) : OnlyCalls A (resolveEach f es) := by
  induction es with
  | nil => exact onlyCalls_ret _
  | cons e es ih =>
    have hrest := ih fun e he => h e (List.mem_cons_of_mem _ he)
    cases e with
    | none => exact hrest
    | some e =>
      exact (onlyCalls_ask.mpr (h e List.mem_cons_self)).bind fun r => hrest.map_ret (r ++ ·)

theorem onlyCalls_firstReturn {scope : VarScope} {aliases : AliasMap} {depth : ℕ}
    (h : ∀ body, A (.functionReturn body scope aliases depth)) (spans : List Span) :
    OnlyCalls A (firstReturn scope aliases depth spans) := by
  induction spans with
  | nil => exact onlyCalls_ret _
  | cons body spans ih =>
    exact (onlyCalls_ask.mpr (h body)).bind fun r => .ite (fun _ => ih) fun _ => onlyCalls_ret r

variable {m : Module} {f : Frame}

theorem onlyCalls_tryInits (h : ∀ e, A (.mapCall e f) ∧ A (.childNode e f))
    (inits : List VarInit) : OnlyCalls A (tryInits m f inits) := by
  induction inits with
  | nil => exact onlyCalls_ret _
  | cons init inits ih =>
    refine .ite (fun _ => ?_) fun _ => ih
    cases m.parse (m.text (init.initStart, init.initEnd)) with
    | none => exact ih
    | some e =>
      refine (onlyCalls_ask.mpr (h e).1).bind fun mapped => ?_
      cases mapped with
      | some children => exact onlyCalls_ret children
      | none =>
        exact (onlyCalls_ask.mpr (h e).2).bind fun r =>
          .ite (fun _ => ih) fun _ => onlyCalls_ret r

theorem onlyCalls_resolveCombinator {owner : Option String} {method : String}
    {arguments : List (Option Expression)}
    (h : ∀ e, some e ∈ arguments → A (.templateArg e f)) :
    OnlyCalls A (resolveCombinator m f owner method arguments) := by
  cases arguments with
  | nil => exact onlyCalls_ret _
  | cons first rest =>
    cases first with
    | none => exact onlyCalls_ret _
    | some first =>
      refine .ite (fun _ => ?_) fun _ => onlyCalls_ret _
      refine (onlyCalls_ask.mpr (h first List.mem_cons_self)).bind fun r => ?_
      exact .ite (fun _ => onlyCalls_ret _) fun _ => onlyCalls_ret _

theorem onlyCalls_resolveArguments {isMergeStanzas : Bool} (es : List (Option Expression))
    (h : ∀ e, some e ∈ es → A (.childNode e f)) (out : List WapChildNode) :
    OnlyCalls A (resolveArguments f isMergeStanzas out es) := by
  induction es generalizing out with
  | nil => exact onlyCalls_ret _
  | cons e es ih =>
    have hrest := ih fun e he => h e (List.mem_cons_of_mem _ he)
    cases e with
    | none => exact hrest out
    | some e =>
      exact (onlyCalls_ask.mpr (h e List.mem_cons_self)).bind fun r =>
        .ite (fun _ => hrest _) fun _ => hrest _

theorem onlyCalls_resolveReceiver {isConcat : Bool} {object : Expression}
    (h : A (.childNode object f)) : OnlyCalls A (resolveReceiver f isConcat object) :=
  .ite (fun _ => onlyCalls_ask.mpr h) fun _ => onlyCalls_ret _

theorem onlyCalls_resolveMethod {object : Expression} {method : String}
    {arguments : List (Option Expression)}
    (htemplate : ∀ e, some e ∈ arguments → A (.templateArg e f))
    (hobject : A (.childNode object f)) (hchild : ∀ e, some e ∈ arguments → A (.childNode e f))
    (hmerge : ∀ span arguments, A (.localMerge span arguments f true)) :
    OnlyCalls A (resolveMethod m f object method arguments) := by
  refine (onlyCalls_resolveCombinator htemplate).bind fun r => ?_
  refine .ite (fun _ => onlyCalls_ret _) fun _ => ?_
  dsimp only
  split
  · exact (onlyCalls_ask.mpr (hmerge _ _)).map_ret _
  · refine .ite (fun _ => ?_) fun _ => onlyCalls_ret _
    exact (onlyCalls_resolveReceiver hobject).bind fun out =>
      (onlyCalls_resolveArguments arguments hchild out).map_ret _

theorem onlyCalls_resolveHelper {callee : Expression} {arguments : List (Option Expression)}
    (hmerge : ∀ span, A (.localMerge span arguments f false))
    (hreturn : ∀ body, A (.functionReturn body f.scope f.aliases (f.depth + 1))) :
    OnlyCalls A (resolveHelper m f callee arguments) := by
  unfold resolveHelper
  cases callee.asIdentifier with
  | none => exact onlyCalls_ret _
  | some name =>
    dsimp only
    cases localMergeSpan f.scope name f.refOff with
    | some span => exact onlyCalls_ask.mpr (hmerge span)
    | none =>
      refine (onlyCalls_firstReturn hreturn _).bind fun r => ?_
      refine .ite (fun _ => onlyCalls_ret _) fun _ => ?_
      split <;> exact onlyCalls_ret _

theorem onlyCalls_resolveReturns (h : ∀ e, A (.childNode e f)) (arguments : List String) :
    OnlyCalls A (resolveReturns m f arguments) := by
  induction arguments with
  | nil => exact onlyCalls_ret _
  | cons argument rest ih =>
    unfold resolveReturns
    cases m.parse ("(" ++ argument ++ ");") with
    | none => exact ih
    | some e => exact (onlyCalls_ask.mpr (h e)).bind fun r => ih.map_ret (r :: ·)

theorem onlyCalls_followReturnedCalls {start depth : ℕ} {scope : VarScope} {aliases : AliasMap}
    (h : ∀ body, A (.functionReturn body scope aliases (depth + 1))) (names : List String) :
    OnlyCalls A (followReturnedCalls start scope aliases depth names) := by
  induction names with
  | nil => exact onlyCalls_ret _
  | cons name names ih =>
    exact (onlyCalls_firstReturn h _).bind fun r => .ite (fun _ => ih) fun _ => onlyCalls_ret r

/-! ### The functions of the resolution -/

theorem inner_functionReturn {c : Call} {f : Frame} (hlevel : c.level = frameLevel f.scope f.depth)
    (body : Span) : InnerCall c (.functionReturn body f.scope f.aliases (f.depth + 1)) :=
  Or.inl (hlevel ▸ returnsLevel_succ_lt f.scope f.depth)

/-- In a frame, an expression is resolved by the expressions in it. -/
theorem inner_childNode {e node : Expression} {f : Frame} (h : sizeOf e < sizeOf node) :
    InnerCall (.childNode node f) (.childNode e f) := by
  refine inner_of_size rfl rfl ?_
  simp only [Call.size]
  omega

/-- The children of a builder call are arguments of it. -/
theorem childArgs_of_parseWapCall {aliases : AliasMap} {callee : Expression}
    {arguments : List (Option Expression)} {wap : WapCall}
    (h : parseWapCall aliases callee arguments = some wap) :
    ∀ e ∈ wap.childArgs, e ∈ arguments := by
  unfold parseWapCall at h
  split at h
  · cases h
  · split_ifs at h
    split at h
    · obtain ⟨tag, -, rfl⟩ := Option.map_eq_some_iff.mp h
      exact fun e he => List.mem_cons_of_mem _ (List.mem_of_mem_drop he)
    · cases h

theorem sizeOf_of_asMember {callee object : Expression} {method : String}
    (h : callee.asMember = some (object, method)) : sizeOf object < sizeOf callee := by
  unfold Expression.asMember at h
  split at h
  · obtain ⟨rfl, rfl⟩ := Prod.mk.inj (Option.some.inj h)
    rw [Expression.member.sizeOf_spec]
    omega
  · cases h

theorem inner_resolveComposed (callee : Expression) (arguments : List (Option Expression))
    (f : Frame) : OnlyCalls (InnerCall (.childNode (.call callee arguments) f))
      (resolveComposed m f callee arguments) := by
  unfold resolveComposed
  cases hmember : callee.asMember with
  | none => exact onlyCalls_ret _
  | some member =>
    refine onlyCalls_resolveMethod (fun e he => inner_of_size rfl rfl ?_) (inner_childNode ?_)
      (fun e he => inner_childNode ?_) fun span arguments => inner_of_size rfl rfl (Nat.succ_pos _)
    · have hlt := sizeOf_argument (c := callee) he
      simp only [Call.size]
      omega
    · have hlt := sizeOf_of_asMember hmember
      rw [Expression.call.sizeOf_spec]
      omega
    · exact (Nat.lt_succ_self _).trans (sizeOf_argument he)

theorem inner_resolveChildNode (node : Expression) (f : Frame) :
    OnlyCalls (InnerCall (.childNode node f)) (resolveChildNode m node f) := by
  cases node with
  | parenthesized e =>
    refine onlyCalls_ask.mpr (inner_childNode ?_)
    rw [Expression.parenthesized.sizeOf_spec]
    omega
  | conditional test consequent alternate =>
    refine (onlyCalls_ask.mpr (inner_childNode ?_)).bind fun out =>
      (onlyCalls_ask.mpr (inner_childNode ?_)).map_ret _ <;>
    · rw [Expression.conditional.sizeOf_spec]
      omega
  | array elements =>
    refine onlyCalls_resolveEach elements fun e he => inner_childNode ?_
    have hlt := sizeOf_lt_of_some_mem he
    rw [Expression.array.sizeOf_spec]
    omega
  | identifier name =>
    unfold resolveChildNode
    dsimp only
    cases hinits : f.scope.inits name with
    | nil => exact onlyCalls_ret _
    | cons init inits =>
      have hhub : Call.isVariable (.childNode (.identifier name) f) :=
        ⟨name, f, rfl, hinits ▸ List.cons_ne_nil _ _⟩
      exact onlyCalls_tryInits
        (fun e => ⟨Or.inr ⟨rfl, rfl, Or.inl hhub⟩, Or.inr ⟨rfl, rfl, Or.inl hhub⟩⟩) _
  | call callee arguments =>
    unfold resolveChildNode
    dsimp only
    cases hwap : parseWapCall f.aliases callee arguments with
    | some wap =>
      refine (onlyCalls_resolveEach wap.childArgs fun e he => inner_childNode ?_).map_ret _
      exact (Nat.lt_succ_self _).trans (sizeOf_argument (childArgs_of_parseWapCall hwap _ he))
    | none =>
      refine (onlyCalls_ask.mpr ?_).bind fun mapped => ?_
      · exact inner_of_size rfl rfl (Nat.lt_succ_self (3 * sizeOf (callee.call arguments) + 1))
      · cases mapped with
        | some children => exact onlyCalls_ret children
        | none =>
          refine (inner_resolveComposed callee arguments f).bind fun composed => ?_
          cases composed with
          | some children => exact onlyCalls_ret children
          | none =>
            exact onlyCalls_resolveHelper
              (fun span => inner_of_size rfl rfl (Nat.succ_pos _)) (inner_functionReturn rfl)
  | _ => exact onlyCalls_ret _

theorem inner_resolveTemplateArg (arg : Expression) (f : Frame) :
    OnlyCalls (InnerCall (.templateArg arg f)) (resolveTemplateArg arg f) := by
  refine (onlyCalls_firstReturn (inner_functionReturn rfl) _).bind fun r => ?_
  refine .ite (fun _ => onlyCalls_ask.mpr ?_) fun _ => onlyCalls_ret r
  exact inner_of_size rfl rfl (Nat.lt_succ_self _)

theorem inner_resolveMapCall (node : Expression) (f : Frame) :
    OnlyCalls (InnerCall (.mapCall node f)) (resolveMapCall m node f) := by
  unfold resolveMapCall
  split
  · refine OnlyCalls.bind ?_ fun children => ?_
    · unfold resolveMapper
      split
      · exact onlyCalls_ret _
      · exact onlyCalls_ret _
      · exact onlyCalls_ask.mpr (inner_of_size rfl rfl (Nat.succ_pos _))
    · exact .ite (fun _ => onlyCalls_ret _) fun _ => onlyCalls_ret _
  · exact onlyCalls_ret _

theorem inner_resolveMapperRef (mapper : Expression) (f : Frame) :
    OnlyCalls (InnerCall (.mapperRef mapper f)) (resolveMapperRef m mapper f) := by
  unfold resolveMapperRef
  split
  · exact onlyCalls_ret _
  · exact onlyCalls_firstReturn (inner_functionReturn rfl) _

theorem inner_resolveFunctionReturnsEach (body : Span) (scope : VarScope) (aliases : AliasMap)
    (depth : ℕ) : OnlyCalls (InnerCall (.functionReturnsEach body scope aliases depth))
      (resolveFunctionReturnsEach m body scope aliases depth) := by
  refine .ite (fun _ => onlyCalls_ret _) fun hdepth => ?_
  exact onlyCalls_resolveReturns (fun e => Or.inl (frameLevel_lt (not_lt.mp hdepth) rfl)) _

theorem inner_resolveFunctionReturn (body : Span) (scope : VarScope) (aliases : AliasMap)
    (depth : ℕ) : OnlyCalls (InnerCall (.functionReturn body scope aliases depth))
      (resolveFunctionReturn m body scope aliases depth) := by
  refine (onlyCalls_ask.mpr (Or.inl (Nat.lt_succ_self _))).bind fun each => ?_
  refine .ite (fun _ => onlyCalls_ret _) fun _ => ?_
  refine .ite (fun _ => onlyCalls_ret _) fun hdepth => ?_
  refine .ite (fun _ => onlyCalls_ret _) fun _ => ?_
  refine onlyCalls_followReturnedCalls (fun body => Or.inl ?_) _
  exact Nat.succ_lt_succ (returnsLevel_succ_lt_returnsLevel (not_lt.mp hdepth))

theorem inner_resolveLocalMerge (span : Span) (arguments : List (Option Expression)) (f : Frame)
    (optional : Bool) : OnlyCalls (InnerCall (.localMerge span arguments f optional))
      (resolveLocalMerge m span arguments f optional) := by
  refine .ite (fun _ => onlyCalls_ret _) fun hdepth => ?_
  have hreturns := returnsLevel_succ_lt f.scope f.depth
  have hfragment : OnlyCalls (InnerCall (.localMerge span arguments f optional))
      (mergeFragment m span f) := by
    refine .ite (fun _ => ?_) fun _ => onlyCalls_ask.mpr (Or.inl hreturns)
    exact (onlyCalls_ask.mpr (Or.inl ((Nat.lt_succ_self _).trans hreturns))).map_ret _
  refine OnlyCalls.bind ?_ fun destination => hfragment.bind fun fragment => onlyCalls_ret _
  unfold mergeDestination
  split
  · exact onlyCalls_ask.mpr (Or.inl (frameLevel_succ_lt (not_lt.mp hdepth)))
  · exact onlyCalls_ret _

/-- **What each function of the resolution calls.** -/
theorem inner_of_body (c : Call) : OnlyCalls (InnerCall c) (body m c) := by
  cases c with
  | childNode node f => exact inner_resolveChildNode node f
  | templateArg arg f => exact inner_resolveTemplateArg arg f
  | mapCall node f => exact inner_resolveMapCall node f
  | mapperRef mapper f => exact inner_resolveMapperRef mapper f
  | functionReturnsEach span scope aliases depth =>
    exact inner_resolveFunctionReturnsEach span scope aliases depth
  | functionReturn span scope aliases depth =>
    exact inner_resolveFunctionReturn span scope aliases depth
  | localMerge span arguments f optional => exact inner_resolveLocalMerge span arguments f optional

end

/-! ### Variables -/

/-- A frame has finitely many variables. -/
theorem finite_variables (φ : Option Frame) : {c | Call.isVariable c ∧ c.frame = φ}.Finite := by
  cases φ with
  | none =>
    refine Set.finite_empty.subset ?_
    rintro c ⟨⟨name, f, rfl, -⟩, hframe⟩
    cases hframe
  | some f =>
    refine ((f.scope.vars.map Prod.fst).finite_toSet.image
      fun name => Call.childNode (.identifier name) f).subset ?_
    rintro c ⟨⟨name, f', rfl, hinits⟩, hframe⟩
    obtain rfl := Option.some.inj hframe
    refine ⟨name, ?_, rfl⟩
    by_contra hmem
    refine hinits ?_
    have hnone : f'.scope.vars.lookup name = none := by
      rw [List.lookup_eq_none_iff]
      rintro v hv
      rw [bne_iff_ne]
      rintro rfl
      exact hmem (List.mem_map_of_mem hv)
    rw [VarScope.inits, hnone, Option.getD_none]

/-- What a call of the resolution returns in the end, if it does. -/
def Resolves (m : Module) (c : Call) : Prop := ∃ r, Returns (body m) (body m c) r

/-- A variable that is resolved by way of itself, in the same frame. -/
def ComesBack (m : Module) (name : String) (f : Frame) : Prop :=
  Reaches (body m) (body m (.childNode (.identifier name) f)) (.childNode (.identifier name) f)

/-- **The resolution returns exactly when no variable it comes to is resolved by way of itself.** -/
theorem resolves_iff (m : Module) (c : Call) :
    Resolves m c ↔ ∀ name f, Reaches (body m) (body m c) (.childNode (.identifier name) f) →
      ¬ ComesBack m name f := by
  have hcalls : ∀ c, Meets (fun _ _ => True) (fun d => True ∧ InnerCall c d) True (body m c)
      fun _ => True := fun c => (inner_of_body c).mono (fun _ hd => ⟨trivial, hd⟩) id fun _ => id
  have hcorrect : Correct (body m) (fun _ => True) fun _ _ => True :=
    fun c _ => (hcalls c).mono (fun _ hd => hd.1) False.elim fun _ => id
  have hreturns := returns_iff_not_loops hcorrect (fun c _ => hcalls c) finite_variables
    ((hcalls c).mono (fun _ hd => hd.1) id fun _ => id)
  constructor
  · rintro ⟨r, hr⟩ name f hreach
    obtain ⟨r', hr'⟩ := hr.of_reaches hreach
    exact hr'.not_loops
  · intro hvars
    refine hreturns.mpr ?_
    rintro _ hreach ⟨name, f, rfl, -⟩
    exact hvars name f hreach

/-! ### A list that is built up -/

/-- `t.concat(e)`. -/
def accumulation : Expression :=
  .call (.member (.identifier "t") (some "concat")) [some (.identifier "e")]

/-- A builder that adds its argument to a list of its own. -/
def accumulator : Module where
  source := "function b(e)\x7bvar t=[];t=t.concat(e);return t\x7d"
  parse text :=
    if text = "[]" then some (.array [])
    else if text = "t.concat(e)" then some accumulation
    else none
  attrs _ _ _ _ := []
  leafContent _ _ _ _ := none
  relativeArgPath _ _ _ := none
  findWapCallsInBody _ _ _ := []
  collectReturnArgSources _ := ["t"]
  collectReturnedCallNames _ := []
  buildScopedVarScope _ := ⟨false, false, [], [], [], []⟩
  scopedAliases _ _ aliases := aliases
  contributions := none
  helpers _ _ := none

/-- Inside the builder, at the returned `t`. -/
def accumulatorFrame : Frame where
  scope :=
    { bundledRpc := false
      guardOptionalDescendants := false
      localMerges := []
      vars := [("t", [⟨20, 22, none, some (13, 46)⟩, ⟨25, 36, none, some (13, 46)⟩])]
      fnParams := [((13, 46), ["e"])]
      lexicalParams := [((13, 46), ["e"])] }
  aliases := []
  depth := 0
  refOff := some 44

theorem parse_empty : accumulator.parse (accumulator.text (20, 22)) = some (.array []) := by
  rw [show accumulator.text (20, 22) = "[]" by decide +kernel]
  rfl

theorem parse_accumulation :
    accumulator.parse (accumulator.text (25, 36)) = some accumulation := by
  rw [show accumulator.text (25, 36) = "t.concat(e)" by decide +kernel]
  rfl

/-- The empty list gives no children, so the list is resolved by what is added to. -/
theorem asks_accumulation : Asks (body accumulator)
    (body accumulator (.childNode (.identifier "t") accumulatorFrame))
    (.childNode accumulation accumulatorFrame) := by
  have hinits : accumulatorFrame.scope.inits "t" =
      [⟨20, 22, none, some (13, 46)⟩, ⟨25, 36, none, some (13, 46)⟩] := rfl
  simp only [body, resolveChildNode, hinits, tryInits, parse_empty, parse_accumulation]
  rw [if_pos (by rfl), if_pos (by rfl)]
  refine .later (c := Call.mapCall (.array []) accumulatorFrame) (r := none) (.ret none) ?_
  refine .later (c := Call.childNode (.array []) accumulatorFrame) (r := []) (.ret []) ?_
  refine .later (c := Call.mapCall accumulation accumulatorFrame) (r := none) (.ret none) ?_
  exact .first _ _

/-- What is added to is the list. -/
theorem asks_receiver : Asks (body accumulator)
    (body accumulator (.childNode accumulation accumulatorFrame))
    (.childNode (.identifier "t") accumulatorFrame) := by
  refine .later (c := Call.mapCall accumulation accumulatorFrame) (r := none) (.ret none) ?_
  have howner : resolveOwner accumulatorFrame.aliases (.identifier "t") = none := rfl
  have hcombinator : resolveCombinator accumulator accumulatorFrame none "concat"
      [some (.identifier "e")] = .ret [] := by
    simp [resolveCombinator]
  simp only [Prog.bind, resolveComposed, Expression.asMember, resolveMethod, howner, hcombinator]
  -- the call is a concatenation, whatever else it is not
  simp only [reduceCtorEq, decide_false, Bool.false_and, Bool.false_eq_true, if_false, decide_true,
    Bool.or_true, if_true, resolveReceiver, List.isEmpty_nil, Bool.not_true, Prog.ask_bind,
    Prog.ret_bind, Prog.call_bind]
  exact .first _ _

/-- A list that is built up keeps the resolution busy forever. -/
theorem not_resolves_accumulator :
    ¬ Resolves accumulator (.childNode (.identifier "t") accumulatorFrame) := by
  rintro ⟨r, hr⟩
  have hback : ComesBack accumulator "t" accumulatorFrame :=
    .step (.asks asks_accumulation) asks_receiver
  exact hr.not_loops hback

end Whatspec.Scan.ChildNodes

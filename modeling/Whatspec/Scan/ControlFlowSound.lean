import Whatspec.Scan.ControlFlow

/-!
# What the control-flow predicates are right about

`endsTheStatementList` looks at the statements of a labelled block one by one and asks whether any of
them ends the list, not whether one before it can break out of the block.  Every wrong answer comes
from there:

* `hangsForever_sound`: a list that hangs has no run that ends, whatever its labels;
* `ends_sound`, `findsExit_sound`, `throwsOut_sound`, `entryPathsThrow_sound`: the others are right
  where every labelled statement is `Honest`;
* `soundFor_iff`: they are right about a program exactly when its labelled statements are.
-/

namespace Whatspec.Scan

/-! ### Quiet statements and hangs -/

/-- What is run is quiet. -/
def QuietCode : Code → Prop
  | .stmt s => isQuiet s = true
  | .list body => allQuiet body = true
  | _ => False

theorem quiet_sound {L : List String} {code : Code} {c : Completion} (h : Exec L code c)
    (hq : QuietCode code) : c = .normal := by
  induction h with
  | empty | debugger | nil => rfl
  | block _ ih => exact ih hq
  | cons _ _ _ ih => exact ih (Bool.and_eq_true_iff.mp hq).2
  | consAbrupt _ hne ih => exact absurd (ih (Bool.and_eq_true_iff.mp hq).1) hne
  | _ => cases hq

/-- How a pass of a loop with this label ends when the loop goes round again. -/
def Again (label : Option String) (c : Completion) : Prop :=
  c = .normal ∨ c = .cont none ∨ ∃ l, label = some l ∧ c = .cont (some l)

/-- What is run spins. -/
def SpinCode (label : Option String) : Code → Prop
  | .stmt s => spins label s = true
  | .list body => allSpin label body = true
  | _ => False

theorem spins_sound {label : Option String} {L : List String} {code : Code} {c : Completion}
    (h : Exec L code c) (hspin : SpinCode label code) : Again label c := by
  induction h with
  | empty | debugger | nil => exact Or.inl rfl
  | block _ ih => exact ih hspin
  | cons _ _ _ ih => exact ih (Bool.and_eq_true_iff.mp hspin).2
  | consAbrupt _ _ ih => exact ih (Bool.and_eq_true_iff.mp hspin).1
  | @cont _ l =>
    cases l with
    | none => exact Or.inr (Or.inl rfl)
    | some l => exact Or.inr (Or.inr ⟨l, of_decide_eq_true hspin, rfl⟩)
  | _ => cases hspin

/-! ### Loops whose test is always true -/

/-- How a loop is left that no test ends. -/
def LeftBy (L : List String) (body : Stmt) (c : Completion) : Prop :=
  ∃ c', Exec [] (.stmt body) c' ∧ c'.continuesLoop L = false ∧ c = c'.breakable

theorem while_left {e : Expr} {body : Stmt} {L : List String} {c : Completion}
    (he : e.alwaysTrue = true) (h : Exec L (.stmt (.whileLoop e body)) c) : LeftBy L body c := by
  obtain ⟨hfalsy, hraises⟩ := e.true_right he
  generalize hcode : Code.stmt (.whileLoop e body) = code at h
  induction h with
  | whileRaise hr => cases hcode; rw [hraises] at hr; cases hr
  | whileEnd hf => cases hcode; rw [hfalsy] at hf; cases hf
  | whileLeave _ hbody hleave => cases hcode; exact ⟨_, hbody, hleave, rfl⟩
  | whileAgain _ _ _ _ _ ih => exact ih hcode
  | _ => cases hcode

theorem do_left {e : Expr} {body : Stmt} {L : List String} {c : Completion}
    (he : e.alwaysTrue = true) (h : Exec L (.stmt (.doLoop body e)) c) : LeftBy L body c := by
  obtain ⟨hfalsy, hraises⟩ := e.true_right he
  generalize hcode : Code.stmt (.doLoop body e) = code at h
  induction h with
  | doLeave hbody hleave => cases hcode; exact ⟨_, hbody, hleave, rfl⟩
  | doRaise _ _ hr => cases hcode; rw [hraises] at hr; cases hr
  | doEnd _ _ hf => cases hcode; rw [hfalsy] at hf; cases hf
  | doAgain _ _ _ _ _ ih => exact ih hcode
  | _ => cases hcode

theorem for_left {test update : Option Expr} {body : Stmt} {L : List String} {c : Completion}
    (htest : test.all Expr.alwaysTrue = true) (h : Exec L (.forPass test update body) c) :
    LeftBy L body c ∨ (update ≠ none ∧ c = .throw) := by
  generalize hcode : Code.forPass test update body = code at h
  induction h with
  | forRaise hr => cases hcode; rw [(Expr.true_right _ htest).2] at hr; cases hr
  | forEnd hf => cases hcode; rw [(Expr.true_right _ htest).1] at hf; cases hf
  | forLeave _ hbody hleave => cases hcode; exact Or.inl ⟨_, hbody, hleave, rfl⟩
  | forUpdateRaise => cases hcode; exact Or.inr ⟨Option.some_ne_none _, rfl⟩
  | forAgain _ _ _ _ _ _ ih => exact ih hcode
  | _ => cases hcode

/-- A loop that spins is not left. -/
theorem not_leftBy_of_spins {label : Option String} {L : List String} {body : Stmt}
    {c : Completion} (hlabel : ∀ l, label = some l → l ∈ L) (hspin : spins label body = true) :
    ¬ LeftBy L body c := by
  rintro ⟨c', hbody, hleave, -⟩
  obtain rfl | rfl | ⟨l, hl, rfl⟩ := spins_sound hbody hspin
  · cases hleave
  · cases hleave
  · exact absurd (hlabel l hl) (of_decide_eq_false hleave)

mutual

theorem hangsUnder_sound : ∀ {s : Stmt} {label : Option String} {L : List String} {c : Completion},
    hangsUnder label s = true → (∀ l, label = some l → l ∈ L) → ¬ Exec L (.stmt s) c := by
  intro s label L c hhang hlabel h
  cases s with
  | whileLoop e body =>
    rw [hangsUnder, Bool.and_eq_true] at hhang
    exact not_leftBy_of_spins hlabel hhang.2 (while_left hhang.1 h)
  | doLoop body e =>
    rw [hangsUnder, Bool.and_eq_true] at hhang
    exact not_leftBy_of_spins hlabel hhang.2 (do_left hhang.1 h)
  | forLoop init test update body =>
    simp only [hangsUnder, Bool.and_eq_true, Option.isNone_iff_eq_none] at hhang
    obtain ⟨⟨⟨rfl, rfl⟩, htest⟩, hspin⟩ := hhang
    cases h with
    | forInit _ h =>
      obtain hleft | ⟨hne, -⟩ := for_left htest h
      · exact not_leftBy_of_spins hlabel hspin hleft
      · exact hne rfl
  | labeled l s =>
    rw [hangsUnder] at hhang
    cases h with
    | labeled h =>
      refine hangsUnder_sound hhang ?_ h
      rintro l' ⟨⟩
      exact List.mem_cons_self
  | block body =>
    rw [hangsUnder] at hhang
    cases h with
    | block h => exact hangsForever_sound hhang h
  | _ => cases hhang

/-- **A list that hangs forever has no run that ends.** -/
theorem hangsForever_sound : ∀ {body : List Stmt} {L : List String} {c : Completion},
    hangsForever body = true → ¬ Exec L (.list body) c := by
  intro body L c hhang h
  cases body with
  | nil => cases hhang
  | cons s rest =>
    rw [hangsForever, Bool.or_eq_true, Bool.and_eq_true] at hhang
    obtain hhang | ⟨hquiet, hhang⟩ := hhang
    · cases h with
      | cons h => exact hangsUnder_sound hhang nofun h
      | consAbrupt h => exact hangsUnder_sound hhang nofun h
    · cases h with
      | cons _ h => exact hangsForever_sound hhang h
      | consAbrupt h hne => exact hne (quiet_sound h hquiet)

end

/-! ### Labels -/

/-- An ending statement stands in the statement, on both branches of a condition, wherever else in
its blocks: a return, a throw, an expression that throws or a jump to no label in `inside`. -/
inductive EndsOn : List String → Stmt → Prop where
  | ret {inside e} : EndsOn inside (.ret e)
  | throw {inside e} : EndsOn inside (.throw e)
  | expr {inside e} : e.expressionThrows = true → EndsOn inside (.expr e)
  | brk {inside l} : leavesLabels inside l = true → EndsOn inside (.brk l)
  | cont {inside l} : leavesLabels inside l = true → EndsOn inside (.cont l)
  | block {inside body s} : s ∈ body → EndsOn inside s → EndsOn inside (.block body)
  | labeled {inside l s} : EndsOn (l :: inside) s → EndsOn inside (.labeled l s)
  | ite {inside e a b} : EndsOn inside a → EndsOn inside b → EndsOn inside (.ite e a (some b))
  | tryFinal {inside block handler f s} : s ∈ f → EndsOn inside s →
      EndsOn inside (.try block handler (some f))
  | tryBlock {inside block finalizer s} : s ∈ block → EndsOn inside s →
      EndsOn inside (.try block none finalizer)
  | tryLeaves {inside block h finalizer} : leavesWithoutRaising true inside block = true →
      EndsOn inside (.try block (some h) finalizer)
  | tryBoth {inside block h finalizer s t} : s ∈ block → EndsOn inside s → t ∈ h →
      EndsOn inside t → EndsOn inside (.try block (some h) finalizer)

mutual

theorem endsOn_of_ends {inside : List String} :
    ∀ {s : Stmt}, endsTheListButFor true inside s = true → EndsOn inside s := by
  intro s h
  cases s with
  | ret => exact .ret
  | throw => exact .throw
  | expr => exact .expr h
  | brk => exact .brk h
  | cont => exact .cont h
  | block body =>
    obtain ⟨s, hs, hends⟩ := endsOn_of_any (show anyEnds true inside body = true from h)
    exact .block hs hends
  | labeled l s => exact .labeled (endsOn_of_ends h)
  | ite e a b =>
    cases b with
    | none => cases h
    | some b =>
      rw [endsTheListButFor, Bool.and_eq_true] at h
      exact .ite (endsOn_of_ends h.1) (endsOn_of_ends h.2)
  | «try» block handler finalizer =>
    rw [endsTheListButFor, Bool.or_eq_true] at h
    obtain h | h := h
    · obtain ⟨f, rfl, s, hs, hends⟩ := endsOn_of_block h
      exact .tryFinal hs hends
    · cases handler with
      | none =>
        obtain ⟨s, hs, hends⟩ := endsOn_of_any (show anyEnds true inside block = true from h)
        exact .tryBlock hs hends
      | some handler =>
        rw [Option.isSome_some, if_pos rfl, Bool.or_eq_true, Bool.and_eq_true] at h
        obtain h | ⟨hblock, hhandler⟩ := h
        · exact .tryLeaves h
        · obtain ⟨s, hs, hends⟩ := endsOn_of_any hblock
          obtain ⟨_, ⟨⟩, t, ht, hends'⟩ := endsOn_of_block hhandler
          exact .tryBoth hs hends ht hends'
  | _ => cases h

theorem endsOn_of_any {inside : List String} : ∀ {body : List Stmt},
    anyEnds true inside body = true → ∃ s ∈ body, EndsOn inside s := by
  intro body h
  cases body with
  | nil => cases h
  | cons s rest =>
    rw [anyEnds, Bool.or_eq_true] at h
    obtain h | h := h
    · exact ⟨s, List.mem_cons_self, endsOn_of_ends h⟩
    · obtain ⟨t, ht, hends⟩ := endsOn_of_any h
      exact ⟨t, List.mem_cons_of_mem _ ht, hends⟩

theorem endsOn_of_block {inside : List String} : ∀ {block : Option (List Stmt)},
    blockEnds true inside block = true →
      ∃ body, block = some body ∧ ∃ s ∈ body, EndsOn inside s := by
  intro block h
  cases block with
  | none => cases h
  | some body => exact ⟨body, rfl, endsOn_of_any h⟩

end

theorem anyEnds_of_mem {inside : List String} {body : List Stmt} {s : Stmt} (hs : s ∈ body)
    (hends : endsTheListButFor true inside s = true) : anyEnds true inside body = true := by
  induction body with
  | nil => cases hs
  | cons t rest ih =>
    rw [anyEnds, Bool.or_eq_true]
    obtain rfl | hs := List.mem_cons.mp hs
    · exact Or.inl hends
    · exact Or.inr (ih hs)

theorem ends_of_endsOn {inside : List String} {s : Stmt} (h : EndsOn inside s) :
    endsTheListButFor true inside s = true := by
  induction h with
  | ret | throw => rfl
  | expr h | brk h | cont h => exact h
  | block hs _ ih => exact anyEnds_of_mem hs ih
  | labeled _ ih => exact ih
  | ite _ _ iha ihb => exact Bool.and_eq_true_iff.mpr ⟨iha, ihb⟩
  | tryFinal hs _ ih => exact Bool.or_eq_true_iff.mpr (Or.inl (anyEnds_of_mem hs ih))
  | tryBlock hs _ ih => exact Bool.or_eq_true_iff.mpr (Or.inr (anyEnds_of_mem hs ih))
  | tryLeaves h =>
    exact Bool.or_eq_true_iff.mpr (Or.inr (Bool.or_eq_true_iff.mpr (Or.inl h)))
  | tryBoth hs _ ht _ ih ih' =>
    refine Bool.or_eq_true_iff.mpr (Or.inr (Bool.or_eq_true_iff.mpr (Or.inr ?_)))
    exact Bool.and_eq_true_iff.mpr ⟨anyEnds_of_mem hs ih, anyEnds_of_mem ht ih'⟩

/-- In a labelled statement with an ending statement on every branch, no run breaks to the label. -/
def HonestLabel : Stmt → Prop
  | .labeled l s => EndsOn [l] s → ∀ L, ¬ Exec (l :: L) (.stmt s) (.brk (some l))
  | _ => True

/-- The statements in what is run. -/
def Code.parts : Code → List Stmt
  | .stmt s => s.parts
  | .list body => partsOf body
  | .forPass _ _ body | .eachPass body => body.parts

/-- Every labelled statement in what is run is honest. -/
def Honest (code : Code) : Prop := ∀ p ∈ code.parts, HonestLabel p

/-- What is run of an honest statement is honest. -/
theorem Honest.of_sub {code code' : Code} (h : Honest code)
    (hsub : ∀ p ∈ code'.parts, p ∈ code.parts) : Honest code' := fun p hp => h p (hsub p hp)

/-- A try without its finalizer is as honest. -/
theorem Honest.without_finalizer {block : List Stmt} {handler finalizer : Option (List Stmt)}
    (h : Honest (.stmt (.try block handler finalizer))) :
    Honest (.stmt (.try block handler none)) := by
  intro p hp
  obtain rfl | hp := List.mem_cons.mp hp
  · trivial
  · obtain hp | hp := List.mem_append.mp hp
    · exact h p (List.mem_cons_of_mem _ (List.mem_append_left _ hp))
    · cases hp

theorem leavesLabels_anti {inside inside' : List String} (hsub : inside' ⊆ inside)
    {l : Option String} (h : leavesLabels inside l = true) : leavesLabels inside' l = true := by
  cases l with
  | none => rfl
  | some l =>
    simp only [leavesLabels, Bool.not_eq_true', List.contains_eq_mem, decide_eq_false_iff_not]
      at h ⊢
    exact fun hmem => h (hsub hmem)

theorem leavesWithoutRaising_anti {cc : Bool} {inside inside' : List String}
    (hsub : inside' ⊆ inside) (body : List Stmt)
    (h : leavesWithoutRaising cc inside body = true) :
    leavesWithoutRaising cc inside' body = true := by
  fun_induction leavesWithoutRaising cc inside body with
  | case1 => cases h
  | case2 l =>
    rw [leavesWithoutRaising]
    exact leavesLabels_anti hsub h
  | case3 l =>
    rw [Bool.and_eq_true] at h
    rw [leavesWithoutRaising, h.1]
    exact leavesLabels_anti hsub h.2
  | case4 => rw [leavesWithoutRaising]
  | case5 body rest ihBody ihRest =>
    rw [leavesWithoutRaising]
    grind
  | case6 s rest h1 h2 h3 h4 ih =>
    rw [leavesWithoutRaising]
    · grind
    all_goals assumption

mutual

/-- With fewer labels inside, more ends the list. -/
theorem endsTheListButFor_anti {cc : Bool} {inside inside' : List String}
    (hsub : inside' ⊆ inside) :
    ∀ s : Stmt, endsTheListButFor cc inside s = true → endsTheListButFor cc inside' s = true := by
  intro s h
  cases s with
  | ret | throw => rfl
  | expr e => exact h
  | brk l => exact leavesLabels_anti hsub h
  | cont l =>
    rw [endsTheListButFor, Bool.and_eq_true] at h ⊢
    exact ⟨h.1, leavesLabels_anti hsub h.2⟩
  | block body => exact anyEnds_anti hsub body h
  | labeled l s => exact endsTheListButFor_anti (List.cons_subset_cons l hsub) s h
  | ite e a b =>
    cases b with
    | none => cases h
    | some b =>
      rw [endsTheListButFor, Bool.and_eq_true] at h ⊢
      exact ⟨endsTheListButFor_anti hsub a h.1, endsTheListButFor_anti hsub b h.2⟩
  | «try» block handler finalizer =>
    have hfinal := @blockEnds_anti cc inside inside' hsub finalizer
    have hblock := @anyEnds_anti cc inside inside' hsub block
    have hhandler := @blockEnds_anti cc inside inside' hsub handler
    have hleaves := @leavesWithoutRaising_anti cc inside inside' hsub block
    rw [endsTheListButFor] at h ⊢
    grind
  | _ => cases h

theorem anyEnds_anti {cc : Bool} {inside inside' : List String} (hsub : inside' ⊆ inside) :
    ∀ body : List Stmt, anyEnds cc inside body = true → anyEnds cc inside' body = true := by
  intro body h
  cases body with
  | nil => cases h
  | cons s rest =>
    rw [anyEnds, Bool.or_eq_true] at h ⊢
    exact h.imp (endsTheListButFor_anti hsub s) (anyEnds_anti hsub rest)

theorem blockEnds_anti {cc : Bool} {inside inside' : List String} (hsub : inside' ⊆ inside) :
    ∀ block : Option (List Stmt), blockEnds cc inside block = true →
      blockEnds cc inside' block = true := by
  intro block h
  cases block with
  | none => cases h
  | some body => exact anyEnds_anti hsub body h

end

/-! ### What ends a list -/

/-- A list that is left without raising neither completes normally nor throws. -/
theorem leavesWithoutRaising_sound {cc : Bool} {inside : List String} (body : List Stmt) :
    leavesWithoutRaising cc inside body = true → ∀ {L : List String} {c : Completion},
      Exec L (.list body) c → c ≠ .normal ∧ c ≠ .throw := by
  -- the first statement is left so, or is quiet and the rest is left so
  have hcons : ∀ {s : Stmt} {rest : List Stmt} {L : List String} {c : Completion},
      Exec L (.list (s :: rest)) c →
      (∀ {L : List String} {c : Completion}, Exec L (.stmt s) c → c ≠ .normal ∧ c ≠ .throw) ∨
        (isQuiet s = true ∧ ∀ {L : List String} {c : Completion}, Exec L (.list rest) c →
          c ≠ .normal ∧ c ≠ .throw) → c ≠ .normal ∧ c ≠ .throw := by
    rintro s rest L c h (hs | ⟨hquiet, hrest⟩)
    · cases h with
      | cons h => exact absurd rfl (hs h).1
      | consAbrupt h => exact hs h
    · cases h with
      | cons _ h => exact hrest h
      | consAbrupt h hne => exact absurd (quiet_sound h hquiet) hne
  fun_induction leavesWithoutRaising cc inside body with
  | case1 => exact nofun
  | case2 l => exact fun _ _ _ h => hcons h (Or.inl fun h => by cases h; exact ⟨nofun, nofun⟩)
  | case3 l => exact fun _ _ _ h => hcons h (Or.inl fun h => by cases h; exact ⟨nofun, nofun⟩)
  | case4 => exact fun _ _ _ h => hcons h (Or.inl fun h => by cases h; exact ⟨nofun, nofun⟩)
  | case5 body rest ihBody ihRest =>
    intro hleaves L c h
    rw [Bool.or_eq_true, Bool.and_eq_true] at hleaves
    refine hcons h (hleaves.imp (fun hb => ?_) fun hr => ⟨hr.1, ihRest hr.2⟩)
    intro L c h
    cases h with
    | block h => exact ihBody hb h
  | case6 s rest h1 h2 h3 h4 ih =>
    intro hleaves L c h
    rw [Bool.and_eq_true] at hleaves
    exact hcons h (Or.inr ⟨hleaves.1, ih hleaves.2⟩)

/-- What is run is said to end the list. -/
def EndsCode (inside : List String) : Code → Prop
  | .stmt s => endsTheListButFor true inside s = true
  | .list body => anyEnds true inside body = true
  | _ => False

/-- **A statement that is said to end the list does not complete normally**, when the labelled
statements in it are honest. -/
theorem ends_sound {L : List String} {code : Code} {c : Completion} (h : Exec L code c) :
    ∀ {inside : List String}, Honest code → EndsCode inside code → c ≠ .normal := by
  induction h with
  | expr he =>
    intro inside _ hends
    obtain ⟨htrue, hfalse⟩ := Expr.throws_right _ hends
    rw [Expr.yields, htrue, hfalse] at he
    cases he
  | block _ ih =>
    exact fun hh hends => ih (hh.of_sub fun p hp => List.mem_cons_of_mem _ hp) hends
  | cons _ _ ih ihRest =>
    intro inside hh hends
    obtain hends | hends := (Bool.or_eq_true_iff.mp hends)
    · exact absurd rfl (ih (hh.of_sub fun p hp => List.mem_append_left _ hp) hends)
    · exact ihRest (hh.of_sub fun p hp => List.mem_append_right _ hp) hends
  | consAbrupt _ hne _ => exact fun _ _ => hne
  | @labeled L l s c hs hcont ih =>
    intro inside hh hends hnormal
    have hinner := ih (hh.of_sub fun p hp => List.mem_cons_of_mem _ hp) hends
    cases c with
    | normal => exact hinner rfl
    | brk l' =>
      cases l' with
      | none => cases hnormal
      | some l' =>
        by_cases hl : l' = l
        · subst hl
          have hanti := endsTheListButFor_anti (List.nil_subset inside) (.labeled l' s) hends
          exact hh _ List.mem_cons_self (endsOn_of_ends hanti) L hs
        · rw [Completion.labeled, if_neg hl] at hnormal
          cases hnormal
    | throw | ret | cont => cases hnormal
  | @iteTrue L e a b c _ _ ih =>
    intro inside hh hends
    cases b with
    | none => cases hends
    | some b =>
      refine ih (hh.of_sub fun p hp => ?_) (Bool.and_eq_true_iff.mp hends).1
      exact List.mem_cons_of_mem _ (List.mem_append_left _ hp)
  | iteFalse _ _ ih =>
    intro inside hh hends
    refine ih (hh.of_sub fun p hp => ?_) (Bool.and_eq_true_iff.mp hends).2
    exact List.mem_cons_of_mem _ (List.mem_append_right _ hp)
  | @tryBlock L block handler c hblock hc ih =>
    intro inside hh hends
    have hh' : Honest (.list block) := hh.of_sub fun p hp =>
      List.mem_cons_of_mem _ (List.mem_append_left _ (List.mem_append_left _ hp))
    simp only [EndsCode, endsTheListButFor, blockEnds, Bool.false_or] at hends
    split_ifs at hends
    · obtain hends | hends := Bool.or_eq_true_iff.mp hends
      · exact (leavesWithoutRaising_sound block hends hblock).1
      · exact ih hh' (Bool.and_eq_true_iff.mp hends).1
    · exact ih hh' hends
  | @tryCatch L block handler c hblock _ _ ih =>
    intro inside hh hends
    simp only [EndsCode, endsTheListButFor, blockEnds, Bool.false_or, Option.isSome_some,
      if_true] at hends
    obtain hends | hends := Bool.or_eq_true_iff.mp hends
    · exact absurd rfl (leavesWithoutRaising_sound block hends hblock).2
    · refine ih (hh.of_sub fun p hp => ?_) (Bool.and_eq_true_iff.mp hends).2
      exact List.mem_cons_of_mem _ (List.mem_append_left _ (List.mem_append_right _ hp))
  | @tryFinally L block handler f c _ _ ih ihFinal =>
    intro inside hh hends
    obtain hends | hends := Bool.or_eq_true_iff.mp hends
    · refine absurd rfl (ihFinal (hh.of_sub fun p hp => ?_) hends)
      exact List.mem_cons_of_mem _ (List.mem_append_right _ hp)
    · exact ih hh.without_finalizer hends
  | tryOverride _ _ hne => exact fun _ _ => hne
  | ret | retValue | retRaise | throw | brk | cont | exprRaise | declRaise | iteRaise
  | whileRaise | forInitRaise | eachHeadRaise | switchRaise | switchTestRaise | tryBindRaise
  | withRaise => exact fun _ _ => nofun
  | _ =>
    intro inside _ hends
    cases hends

/-! ### Exits -/

/-- A completion that is held by so many loops and switches and by these labels, or is normal or a
throw. -/
def Held (continueCounts : Bool) (loops switches : ℕ) (labels : List String) : Completion → Prop
  | .normal | .throw => True
  | .ret => False
  | .brk none => 0 < loops ∨ 0 < switches
  | .cont none => 0 < loops ∨ continueCounts = false
  | .brk (some l) | .cont (some l) => l ∈ labels

section Held

variable {cc : Bool} {loops switches : ℕ} {labels L : List String} {l : String} {c : Completion}

theorem Held.leaveLoop (h : Held cc (loops + 1) switches labels c)
    (hleave : c.continuesLoop L = false) : Held cc loops switches labels c.breakable := by
  cases c with
  | normal => cases hleave
  | throw => trivial
  | ret => exact h
  | brk l =>
    cases l with
    | none => trivial
    | some l => exact h
  | cont l =>
    cases l with
    | none => cases hleave
    | some l => exact h

theorem Held.leaveSwitch (h : Held cc loops (switches + 1) labels c) :
    Held cc loops switches labels c.breakable := by
  cases c with
  | brk l =>
    cases l with
    | none => trivial
    | some l => exact h
  | cont l => cases l <;> exact h
  | _ => exact h

theorem Held.leaveLabel (h : Held cc loops switches (l :: labels) c)
    (hcont : c ≠ .cont (some l)) : Held cc loops switches labels (c.labeled l) := by
  cases c with
  | normal | throw => trivial
  | ret => exact h
  | brk l' =>
    cases l' with
    | none => exact h
    | some l' =>
      by_cases hl : l' = l
      · rw [Completion.labeled, if_pos hl]
        trivial
      · rw [Completion.labeled, if_neg hl]
        exact (List.mem_cons.mp h).resolve_left hl
  | cont l' =>
    cases l' with
    | none => exact h
    | some l' => exact (List.mem_cons.mp h).resolve_left fun hl => hcont (hl ▸ rfl)

end Held

theorem partsOf_append (a b : List Stmt) : partsOf (a ++ b) = partsOf a ++ partsOf b := by
  induction a with
  | nil => rfl
  | cons s rest ih => rw [List.cons_append, partsOf, partsOf, ih, List.append_assoc]

theorem partsOfCases_append (a b : List Case) :
    partsOfCases (a ++ b) = partsOfCases a ++ partsOfCases b := by
  induction a with
  | nil => rfl
  | cons s rest ih =>
    cases s
    rw [List.cons_append, partsOfCases, partsOfCases, ih, List.append_assoc]

theorem partsOf_fallThrough (cases : List Case) :
    partsOf (fallThrough cases) = partsOfCases cases := by
  induction cases with
  | nil => rfl
  | cons s rest ih =>
    cases s
    rw [fallThrough, List.flatMap_cons, partsOf_append, partsOfCases, ← ih]
    rfl

/-- What a switch runs from one of its cases on is as honest as the switch. -/
theorem Honest.fallThrough {e : Expr} {before after : List Case}
    (h : Honest (.stmt (.switch e (before ++ after)))) :
    Honest (.list (fallThrough after)) := by
  refine h.of_sub fun p hp => ?_
  rw [Code.parts, partsOf_fallThrough] at hp
  rw [Code.parts, Stmt.parts, partsOfCases_append]
  exact List.mem_cons_of_mem _ (List.mem_append_right _ hp)

section Exits

variable {tc cc : Bool} {loops switches : ℕ} {labels : List String}

theorem listFindsExit_append {a b : List Stmt}
    (ha : listFindsExit tc cc loops switches labels a = false)
    (hb : listFindsExit tc cc loops switches labels b = false) :
    listFindsExit tc cc loops switches labels (a ++ b) = false := by
  induction a with
  | nil => exact hb
  | cons s rest ih =>
    rw [listFindsExit, Bool.or_eq_false_iff] at ha
    rw [List.cons_append, listFindsExit, ha.1, Bool.false_or]
    cases hends : endsTheStatementList s with
    | true => rfl
    | false => exact ih (by simpa [hends] using ha.2)

theorem casesFindExit_append {a b : List Case}
    (h : casesFindExit tc cc loops switches labels (a ++ b) = false) :
    casesFindExit tc cc loops switches labels b = false := by
  induction a with
  | nil => exact h
  | cons s rest ih =>
    cases s
    rw [List.cons_append, casesFindExit, Bool.or_eq_false_iff] at h
    exact ih h.2

theorem listFindsExit_fallThrough {cases : List Case}
    (h : casesFindExit tc cc loops switches labels cases = false) :
    listFindsExit tc cc loops switches labels (fallThrough cases) = false := by
  induction cases with
  | nil => rfl
  | cons s rest ih =>
    cases s
    rw [casesFindExit, Bool.or_eq_false_iff, Bool.or_eq_false_iff] at h
    exact listFindsExit_append h.1.2 (ih h.2)

/-- The walk finds no exit in what is run. -/
def NoExit (tc cc : Bool) (loops switches : ℕ) (labels : List String) : Code → Prop
  | .stmt s => findsExit tc cc loops switches labels s = false
  | .list body => listFindsExit tc cc loops switches labels body = false
  | .forPass _ _ body | .eachPass body => findsExit tc cc (loops + 1) switches labels body = false

/-- **What the walk finds no exit in is not left but by a throw**, when the labelled statements in
it are honest. -/
theorem findsExit_sound {L : List String} {code : Code} {c : Completion} (h : Exec L code c) :
    ∀ {loops switches : ℕ} {labels : List String}, Honest code →
      NoExit tc cc loops switches labels code → Held cc loops switches labels c := by
  induction h with
  | empty | debugger | expr | exprRaise | decl | declRaise | retRaise | throw | nil | iteRaise
  | iteNone | whileRaise | whileEnd | doRaise | doEnd | forInitRaise | forRaise | forEnd
  | forUpdateRaise | eachHeadRaise | eachEnd | eachRaise | switchRaise | switchTestRaise
  | switchNone | tryBindRaise | withRaise =>
    intros
    trivial
  | ret | retValue =>
    intro loops switches labels _ hno
    cases hno
  | @brk _ l =>
    intro loops switches labels _ hno
    cases l with
    | none => simp only [NoExit, findsExit] at hno; simp [Held]; grind
    | some l => simpa [NoExit, findsExit, Held] using hno
  | @cont _ l =>
    intro loops switches labels _ hno
    cases l with
    | none => simp only [NoExit, findsExit] at hno; simp [Held]; grind
    | some l => simpa [NoExit, findsExit, Held] using hno
  | block _ ih =>
    exact fun hh hno => ih (hh.of_sub fun p hp => List.mem_cons_of_mem _ hp) hno
  | @cons L s rest c hs _ _ ihRest =>
    intro loops switches labels hh hno
    have hh' : Honest (.stmt s) := hh.of_sub fun p hp => List.mem_append_left _ hp
    -- the statement completed, so the walk did not stop behind it
    have hends : endsTheStatementList s = false :=
      Bool.eq_false_iff.mpr fun hends => ends_sound hs hh' hends rfl
    refine ihRest (hh.of_sub fun p hp => List.mem_append_right _ hp) ?_
    simpa [NoExit, hends] using (Bool.or_eq_false_iff.mp hno).2
  | consAbrupt _ _ ih =>
    intro loops switches labels hh hno
    exact ih (hh.of_sub fun p hp => List.mem_append_left _ hp) (Bool.or_eq_false_iff.mp hno).1
  | labeled _ hcont ih =>
    intro loops switches labels hh hno
    exact (ih (hh.of_sub fun p hp => List.mem_cons_of_mem _ hp) hno).leaveLabel hcont
  | @iteTrue L e a b c _ _ ih =>
    intro loops switches labels hh hno
    cases b with
    | none =>
      exact ih (hh.of_sub fun p hp => List.mem_cons_of_mem _ hp) (Bool.or_eq_false_iff.mp hno).2
    | some b =>
      refine ih (hh.of_sub fun p hp => ?_)
        (Bool.or_eq_false_iff.mp (Bool.or_eq_false_iff.mp hno).1).2
      exact List.mem_cons_of_mem _ (List.mem_append_left _ hp)
  | iteFalse _ _ ih =>
    intro loops switches labels hh hno
    refine ih (hh.of_sub fun p hp => ?_) (Bool.or_eq_false_iff.mp hno).2
    exact List.mem_cons_of_mem _ (List.mem_append_right _ hp)
  | whileLeave _ _ hleave ih | doLeave _ hleave ih =>
    intro loops switches labels hh hno
    exact (ih (hh.of_sub fun p hp => List.mem_cons_of_mem _ hp)
      (Bool.or_eq_false_iff.mp hno).2).leaveLoop hleave
  | forLeave _ _ hleave ih | eachLeave _ hleave ih =>
    intro loops switches labels hh hno
    exact (ih hh hno).leaveLoop hleave
  | whileAgain _ _ _ _ _ ih | doAgain _ _ _ _ _ ih | forAgain _ _ _ _ _ _ ih
  | eachAgain _ _ _ _ ih =>
    exact fun hh hno => ih hh hno
  | forInit _ _ ih | eachHead _ _ ih =>
    intro loops switches labels hh hno
    exact ih (hh.of_sub fun p hp => List.mem_cons_of_mem _ hp) (Bool.or_eq_false_iff.mp hno).2
  | switchMatch _ _ _ _ ih | switchDefault _ _ _ ih =>
    intro loops switches labels hh hno
    refine (ih hh.fallThrough (listFindsExit_fallThrough ?_)).leaveSwitch
    exact casesFindExit_append (Bool.or_eq_false_iff.mp hno).2
  | tryBlock _ _ ih =>
    intro loops switches labels hh hno
    refine ih (hh.of_sub fun p hp => ?_)
      (Bool.or_eq_false_iff.mp (Bool.or_eq_false_iff.mp hno).1).1
    exact List.mem_cons_of_mem _ (List.mem_append_left _ (List.mem_append_left _ hp))
  | tryCatch _ _ _ ih =>
    intro loops switches labels hh hno
    refine ih (hh.of_sub fun p hp => ?_)
      (Bool.or_eq_false_iff.mp (Bool.or_eq_false_iff.mp hno).1).2
    exact List.mem_cons_of_mem _ (List.mem_append_left _ (List.mem_append_right _ hp))
  | tryFinally _ _ ih _ =>
    intro loops switches labels hh hno
    refine ih hh.without_finalizer ?_
    exact Bool.or_eq_false_iff.mpr ⟨(Bool.or_eq_false_iff.mp hno).1, rfl⟩
  | tryOverride _ _ _ _ ih =>
    intro loops switches labels hh hno
    refine ih (hh.of_sub fun p hp => ?_) (Bool.or_eq_false_iff.mp hno).2
    exact List.mem_cons_of_mem _ (List.mem_append_right _ hp)
  | withBody _ ih =>
    intro loops switches labels hh hno
    exact ih (hh.of_sub fun p hp => List.mem_cons_of_mem _ hp) (Bool.or_eq_false_iff.mp hno).2

end Exits

/-! ### Throwing out -/

theorem Held.normal_or_throw {c : Completion} (h : Held true 0 0 [] c) :
    c = .normal ∨ c = .throw := by
  cases c with
  | normal => exact Or.inl rfl
  | throw => exact Or.inr rfl
  | ret => cases h
  | brk l => cases l <;> simp [Held] at h
  | cont l => cases l <;> simp [Held] at h

/-- A loop whose body is not left with a value is left by throwing only. -/
theorem throw_of_leftBy {body : Stmt} {L : List String} {c : Completion}
    (hh : Honest (.stmt body)) (hno : leavesTheLoopWithAValue body = false)
    (h : LeftBy L body c) : c = .throw := by
  obtain ⟨c', hbody, hleave, rfl⟩ := h
  have hno' : NoExit false false 0 0 [] (.stmt body) := hno
  have hheld := findsExit_sound hbody hh hno'
  cases c' with
  | normal => cases hleave
  | throw => rfl
  | ret => cases hheld
  | brk l => cases l <;> simp [Held] at hheld
  | cont l =>
    cases l with
    | none => cases hleave
    | some l => cases hheld

theorem containsExit_sound {tc : Bool} {s : Stmt} {L : List String} {c : Completion}
    (hh : Honest (.stmt s)) (hno : containsExitWhere s tc true = false)
    (h : Exec L (.stmt s) c) : c = .normal ∨ c = .throw := by
  have hno' : NoExit tc true 0 0 [] (.stmt s) := hno
  exact (findsExit_sound h hh hno').normal_or_throw

theorem leavesSwitch_sound {tc : Bool} (body : List Stmt) (hh : Honest (.list body))
    (hno : leavesSwitch body tc = false) {L : List String} {c : Completion}
    (h : Exec L (.list body) c) : c = .normal ∨ c = .throw := by
  induction body generalizing L with
  | nil =>
    cases h
    exact Or.inl rfl
  | cons s rest ih =>
    obtain ⟨hs, hrest⟩ := Bool.or_eq_false_iff.mp hno
    cases h with
    | cons _ h => exact ih (hh.of_sub fun p hp => List.mem_append_right _ hp) hrest h
    | consAbrupt h _ =>
      exact containsExit_sound (hh.of_sub fun p hp => List.mem_append_left _ hp) hs h

theorem finalizerLeaves_sound (body : List Stmt) (hh : Honest (.list body))
    (hno : finalizerLeaves body = false) {L : List String} {c : Completion}
    (h : Exec L (.list body) c) : c = .normal ∨ c = .throw := by
  induction body generalizing L with
  | nil =>
    cases h
    exact Or.inl rfl
  | cons s rest ih =>
    obtain ⟨hs, hrest⟩ := Bool.or_eq_false_iff.mp hno
    have hhs : Honest (.stmt s) := hh.of_sub fun p hp => List.mem_append_left _ hp
    cases h with
    | cons h h' =>
      have hends : endsTheStatementList s = false :=
        Bool.eq_false_iff.mpr fun hends => ends_sound h hhs hends rfl
      refine ih (hh.of_sub fun p hp => List.mem_append_right _ hp) ?_ h'
      simpa [hends] using hrest
    | consAbrupt h _ => exact containsExit_sound hhs hs h

/-- A run of two lists ends in the first, or completes it and runs the second. -/
theorem exec_append {a b : List Stmt} {L : List String} {c : Completion}
    (h : Exec L (.list (a ++ b)) c) :
    (Exec L (.list a) c ∧ c ≠ .normal) ∨ ∃ L', Exec L (.list a) .normal ∧ Exec L' (.list b) c := by
  induction a generalizing L with
  | nil => exact Or.inr ⟨L, .nil, h⟩
  | cons s rest ih =>
    cases h with
    | cons hs h =>
      obtain ⟨hrest, hne⟩ | ⟨L', hrest, hb⟩ := ih h
      · exact Or.inl ⟨.cons hs hrest, hne⟩
      · exact Or.inr ⟨L', .cons hs hrest, hb⟩
    | consAbrupt hs hne => exact Or.inl ⟨.consAbrupt hs hne, hne⟩

/-- Every run of what is run throws. -/
def AlwaysThrows (code : Code) : Prop :=
  ∀ ⦃L : List String⦄ ⦃c : Completion⦄, Exec L code c → c = .throw

/-- A try without a finalizer throws when its block does, and its handler if it has one. -/
theorem throws_try {block : List Stmt} {handler : Option (List Stmt)}
    (hblock : AlwaysThrows (.list block))
    (hhandler : ∀ body, handler = some body → AlwaysThrows (.list body)) :
    AlwaysThrows (.stmt (.try block handler none)) := by
  intro L c h
  cases h with
  | tryBlock h => exact hblock h
  | tryCatch _ h => exact hhandler _ rfl h
  | tryBindRaise => rfl

/-- The block of a try is run. -/
theorem exec_block_of_try {block : List Stmt} {handler finalizer : Option (List Stmt)}
    {L : List String} {c : Completion} (h : Exec L (.stmt (.try block handler finalizer)) c) :
    ∃ c', Exec [] (.list block) c' := by
  have hnone : ∀ {L : List String} {c : Completion}, Exec L (.stmt (.try block handler none)) c →
      ∃ c', Exec [] (.list block) c' := by
    intro L c h
    cases h with
    | tryBlock hblock => exact ⟨_, hblock⟩
    | tryCatch hblock => exact ⟨_, hblock⟩
    | tryBindRaise hblock => exact ⟨_, hblock⟩
  cases finalizer with
  | none => exact hnone h
  | some body =>
    cases h with
    | tryFinally h => exact hnone h
    | tryOverride h => exact hnone h

/-- A finalizer that is not left with a value leaves a throw a throw. -/
theorem throws_try_finally {block : List Stmt} {handler finalizer : Option (List Stmt)}
    (hh : ∀ p ∈ partsOfBlock finalizer, HonestLabel p)
    (hno : finLeavesWithAValue finalizer = false)
    (hthrows : AlwaysThrows (.stmt (.try block handler none)) ∨
      ∃ body, finalizer = some body ∧ AlwaysThrows (.list body)) :
    AlwaysThrows (.stmt (.try block handler finalizer)) := by
  intro L c h
  cases finalizer with
  | none =>
    obtain hthrows | ⟨_, hcontra, -⟩ := hthrows
    · exact hthrows h
    · cases hcontra
  | some body =>
    cases h with
    | tryFinally h hfinal =>
      obtain hthrows | ⟨_, ⟨⟩, hthrows⟩ := hthrows
      · exact hthrows h
      · cases hthrows hfinal
    | tryOverride _ hfinal hne => exact (finalizerLeaves_sound body hh hno hfinal).resolve_left hne

theorem length_entryPathsThrow (cases : List Case) :
    (entryPathsThrow cases).length = cases.length := by
  induction cases with
  | nil => rfl
  | cons case rest ih =>
    cases case
    rw [entryPathsThrow, List.length_cons, List.length_cons, ih]

/-- When every entry throws, the one behind `before` does. -/
theorem entry_of_all {before after : List Case}
    (hall : (entryPathsThrow (before ++ after)).all id = true) (hne : after ≠ []) :
    (entryPathsThrow (before ++ after))[before.length]? = some true := by
  have hlt : before.length < (entryPathsThrow (before ++ after)).length := by
    rw [length_entryPathsThrow, List.length_append]
    exact Nat.lt_add_of_pos_right (List.length_pos_of_ne_nil hne)
  rw [List.getElem?_eq_getElem hlt, Option.some.injEq]
  exact List.all_eq_true.mp hall _ (List.getElem_mem hlt)

mutual

theorem statementThrows_sound : ∀ {s : Stmt}, Honest (.stmt s) → statementThrows s = true →
    AlwaysThrows (.stmt s) := by
  intro s hh hthrows
  cases s with
  | throw e =>
    intro L c h
    cases h
    rfl
  | expr e =>
    intro L c h
    cases h with
    | expr he =>
      obtain ⟨htrue, hfalse⟩ := e.throws_right hthrows
      rw [Expr.yields, htrue, hfalse] at he
      cases he
    | exprRaise => rfl
  | block body =>
    intro L c h
    cases h with
    | block h =>
      exact throwsOut_sound (hh.of_sub fun p hp => List.mem_cons_of_mem _ hp) hthrows h
  | ite e a b =>
    cases b with
    | none => cases hthrows
    | some b =>
      rw [statementThrows, Bool.and_eq_true] at hthrows
      have ha : Honest (.stmt a) := hh.of_sub fun p hp =>
        List.mem_cons_of_mem _ (List.mem_append_left _ hp)
      have hb : Honest (.stmt b) := hh.of_sub fun p hp =>
        List.mem_cons_of_mem _ (List.mem_append_right _ hp)
      intro L c h
      cases h with
      | iteRaise => rfl
      | iteTrue _ h => exact statementThrows_sound ha hthrows.1 h
      | iteFalse _ h => exact statementThrows_sound hb hthrows.2 h
  | labeled l s =>
    intro L c h
    cases h with
    | labeled h =>
      rw [statementThrows_sound (hh.of_sub fun p hp => List.mem_cons_of_mem _ hp) hthrows h]
      rfl
  | «try» block handler finalizer =>
    have hblock : Honest (.list block) := hh.of_sub fun p hp =>
      List.mem_cons_of_mem _ (List.mem_append_left _ (List.mem_append_left _ hp))
    have hhandler : ∀ p ∈ partsOfBlock handler, HonestLabel p := fun p hp => hh p
      (List.mem_cons_of_mem _ (List.mem_append_left _ (List.mem_append_right _ hp)))
    have hfinal : ∀ p ∈ partsOfBlock finalizer, HonestLabel p := fun p hp => hh p
      (List.mem_cons_of_mem _ (List.mem_append_right _ hp))
    rw [statementThrows, Bool.or_eq_true, Bool.and_eq_true, Bool.or_eq_true, Bool.and_eq_true,
      Bool.not_eq_true'] at hthrows
    obtain hhang | ⟨hno, ⟨hb, hhand⟩ | hf⟩ := hthrows
    · intro L c h
      obtain ⟨c', h⟩ := exec_block_of_try h
      exact absurd h (hangsForever_sound hhang)
    · refine throws_try_finally hfinal hno (Or.inl (throws_try (throwsOut_sound hblock hb) ?_))
      intro body hsome
      rw [hsome] at hhand
      exact blockThrows_sound hhandler (by simpa [hsome] using hhand) body hsome
    · cases finalizer with
      | none => cases hf
      | some body =>
        exact throws_try_finally hfinal hno
          (Or.inr ⟨body, rfl, blockThrows_sound hfinal hf body rfl⟩)
  | whileLoop e body =>
    rw [statementThrows, Bool.and_eq_true, Bool.not_eq_true'] at hthrows
    intro L c h
    exact throw_of_leftBy (hh.of_sub fun p hp => List.mem_cons_of_mem _ hp) hthrows.2
      (while_left hthrows.1 h)
  | forLoop init test update body =>
    rw [statementThrows, Bool.and_eq_true, Bool.not_eq_true'] at hthrows
    intro L c h
    cases h with
    | forInitRaise => rfl
    | forInit _ h =>
      obtain hleft | ⟨-, hthrow⟩ := for_left hthrows.1 h
      · exact throw_of_leftBy (hh.of_sub fun p hp => List.mem_cons_of_mem _ hp) hthrows.2 hleft
      · exact hthrow
  | doLoop body e =>
    have hbody : Honest (.stmt body) := hh.of_sub fun p hp => List.mem_cons_of_mem _ hp
    rw [statementThrows, Bool.or_eq_true, Bool.and_eq_true, Bool.not_eq_true'] at hthrows
    intro L c h
    obtain hthrows | ⟨he, hno⟩ := hthrows
    · have hpass := @statementThrows_sound body hbody hthrows
      cases h with
      | doLeave h =>
        rw [hpass h]
        rfl
      | doRaise => rfl
      | doEnd h hgoes | doAgain h hgoes =>
        rw [hpass h] at hgoes
        cases hgoes
    · exact throw_of_leftBy hbody hno (do_left he h)
  | switch e cases =>
    rw [statementThrows, Bool.and_eq_true] at hthrows
    have hcases : ∀ p ∈ partsOfCases cases, HonestLabel p := fun p hp =>
      hh p (List.mem_cons_of_mem _ hp)
    have hentries : ∀ before after, cases = before ++ after → after ≠ [] →
        AlwaysThrows (.list (fallThrough after)) := by
      rintro before after rfl hne L c h
      exact entryPathsThrow_sound hcases (entry_of_all hthrows.2 hne) (by simpa using h)
    intro L c h
    generalize hcode : Code.stmt (.switch e cases) = code at h
    cases h with
    | switchRaise => rfl
    | switchTestRaise => rfl
    | switchMatch _ _ _ h =>
      cases hcode
      rw [hentries _ _ rfl (List.cons_ne_nil _ _) h]
      rfl
    | switchDefault _ _ h =>
      cases hcode
      rw [hentries _ _ rfl (List.cons_ne_nil _ _) h]
      rfl
    | switchNone _ _ hdefault =>
      cases hcode
      obtain ⟨c, hmem, hc⟩ := List.any_eq_true.mp hthrows.1
      exact absurd (Option.isNone_iff_eq_none.mp hc) (hdefault c hmem)
    | _ => cases hcode
  | _ => cases hthrows

theorem throwsOut_sound : ∀ {body : List Stmt}, Honest (.list body) → throwsOut body = true →
    AlwaysThrows (.list body) := by
  intro body hh hthrows
  cases body with
  | nil => cases hthrows
  | cons s rest =>
    have hs : Honest (.stmt s) := hh.of_sub fun p hp => List.mem_append_left _ hp
    have hrest : Honest (.list rest) := hh.of_sub fun p hp => List.mem_append_right _ hp
    rw [throwsOut, Bool.or_eq_true, Bool.and_eq_true, Bool.not_eq_true'] at hthrows
    intro L c h
    obtain hthrows | ⟨hno, hthrows⟩ := hthrows
    · cases h with
      | cons h => cases statementThrows_sound hs hthrows h
      | consAbrupt h => exact statementThrows_sound hs hthrows h
    · cases h with
      | cons _ h => exact throwsOut_sound hrest hthrows h
      | consAbrupt h hne => exact (containsExit_sound hs hno h).resolve_left hne

theorem blockThrows_sound : ∀ {block : Option (List Stmt)},
    (∀ p ∈ partsOfBlock block, HonestLabel p) → blockThrows block = true →
      ∀ body, block = some body → AlwaysThrows (.list body) := by
  intro block hh hthrows body hsome
  cases block with
  | none => cases hsome
  | some body' =>
    cases hsome
    exact throwsOut_sound hh hthrows

/-- **A switch entered at a case that is said to throw is left by throwing only.** -/
theorem entryPathsThrow_sound : ∀ {cases : List Case},
    (∀ p ∈ partsOfCases cases, HonestLabel p) → ∀ {i : ℕ}, (entryPathsThrow cases)[i]? = some true →
      AlwaysThrows (.list (fallThrough (cases.drop i))) := by
  intro cases hh i hthrows
  cases cases with
  | nil => cases hthrows
  | cons case rest =>
    cases case with
    | mk test body =>
      have hrest : ∀ p ∈ partsOfCases rest, HonestLabel p := fun p hp =>
        hh p (List.mem_append_right _ hp)
      cases i with
      | succ i => exact entryPathsThrow_sound hrest hthrows
      | zero =>
        have hbody : Honest (.list body) := fun p hp => hh p (List.mem_append_left _ hp)
        simp only [entryPathsThrow, List.getElem?_cons_zero, Option.some.injEq, Bool.or_eq_true,
          Bool.and_eq_true, Bool.not_eq_true'] at hthrows
        intro L c h
        obtain ⟨hfirst, hne⟩ | ⟨L', hfirst, h⟩ := exec_append (b := fallThrough rest) h
        · obtain hthrows | ⟨hno, -⟩ := hthrows
          · exact throwsOut_sound hbody hthrows hfirst
          · exact (leavesSwitch_sound body hbody hno hfirst).resolve_left hne
        · obtain hthrows | ⟨-, hlater⟩ := hthrows
          · cases throwsOut_sound hbody hthrows hfirst
          · have hnext : (entryPathsThrow rest)[0]? = some true := by
              cases hrest : entryPathsThrow rest with
              | nil => simp [hrest] at hlater
              | cons b bs => simpa [hrest] using hlater
            exact entryPathsThrow_sound hrest hnext h

end

/-! ### The predicates of a program -/

mutual

theorem Stmt.mem_parts_trans {s t : Stmt} : ∀ {u : Stmt}, t ∈ u.parts → s ∈ t.parts →
    s ∈ u.parts := by
  intro u ht hs
  cases u with
  | block body =>
    obtain rfl | ht := List.mem_cons.mp ht
    · exact hs
    · exact List.mem_cons_of_mem _ (mem_partsOf_trans ht hs)
  | labeled _ u | whileLoop _ u | doLoop u _ | forLoop _ _ _ u | forEach _ u | withDo _ u =>
    obtain rfl | ht := List.mem_cons.mp ht
    · exact hs
    · exact List.mem_cons_of_mem _ (Stmt.mem_parts_trans ht hs)
  | ite e a b =>
    cases b with
    | none =>
      obtain rfl | ht := List.mem_cons.mp ht
      · exact hs
      · exact List.mem_cons_of_mem _ (Stmt.mem_parts_trans ht hs)
    | some b =>
      obtain rfl | ht := List.mem_cons.mp ht
      · exact hs
      · refine List.mem_cons_of_mem _ (List.mem_append.mpr ?_)
        exact (List.mem_append.mp ht).imp (Stmt.mem_parts_trans · hs) (Stmt.mem_parts_trans · hs)
  | switch e cases =>
    obtain rfl | ht := List.mem_cons.mp ht
    · exact hs
    · exact List.mem_cons_of_mem _ (mem_partsOfCases_trans ht hs)
  | «try» block handler finalizer =>
    obtain rfl | ht := List.mem_cons.mp ht
    · exact hs
    · refine List.mem_cons_of_mem _ (List.mem_append.mpr ?_)
      refine (List.mem_append.mp ht).imp (fun ht => List.mem_append.mpr ?_)
        (mem_partsOfBlock_trans · hs)
      exact (List.mem_append.mp ht).imp (mem_partsOf_trans · hs) (mem_partsOfBlock_trans · hs)
  | _ =>
    obtain rfl := List.mem_singleton.mp ht
    exact hs

theorem mem_partsOf_trans {s t : Stmt} : ∀ {body : List Stmt}, t ∈ partsOf body → s ∈ t.parts →
    s ∈ partsOf body := by
  intro body ht hs
  cases body with
  | nil => cases ht
  | cons u rest =>
    obtain ht | ht := List.mem_append.mp ht
    · exact List.mem_append_left _ (Stmt.mem_parts_trans ht hs)
    · exact List.mem_append_right _ (mem_partsOf_trans ht hs)

theorem mem_partsOfBlock_trans {s t : Stmt} : ∀ {block : Option (List Stmt)},
    t ∈ partsOfBlock block → s ∈ t.parts → s ∈ partsOfBlock block := by
  intro block ht hs
  cases block with
  | none => cases ht
  | some body => exact mem_partsOf_trans (show t ∈ partsOf body from ht) hs

theorem mem_partsOfCases_trans {s t : Stmt} : ∀ {cases : List Case}, t ∈ partsOfCases cases →
    s ∈ t.parts → s ∈ partsOfCases cases := by
  intro cases ht hs
  cases cases with
  | nil => cases ht
  | cons case rest =>
    cases case with
    | mk test body =>
      obtain ht | ht := List.mem_append.mp ht
      · exact List.mem_append_left _ (mem_partsOf_trans ht hs)
      · exact List.mem_append_right _ (mem_partsOfCases_trans ht hs)

end

/-- The predicates are right about the lists, the statements and the switches in a program. -/
structure SoundFor (body : List Stmt) : Prop where
  throws : ∀ list, partsOf list ⊆ partsOf body → throwsOut list = true →
    AlwaysThrows (.list list)
  ends : ∀ s ∈ partsOf body, endsTheStatementList s = true →
    ∀ {L : List String} {c : Completion}, Exec L (.stmt s) c → c ≠ .normal
  hangs : ∀ list, partsOf list ⊆ partsOf body → hangsForever list = true →
    ∀ {L : List String} {c : Completion}, ¬ Exec L (.list list) c
  entries : ∀ cases, partsOfCases cases ⊆ partsOf body → ∀ i : ℕ,
    (entryPathsThrow cases)[i]? = some true → AlwaysThrows (.list (fallThrough (cases.drop i)))

/-- **The control-flow predicates are right about a program** exactly when none of its labelled
statements has both an ending statement on every branch and a run that breaks to its label. -/
theorem soundFor_iff (body : List Stmt) :
    SoundFor body ↔ ∀ p ∈ partsOf body, HonestLabel p := by
  constructor
  · intro h p hp
    cases p with
    | labeled l s =>
      intro hends L hbreak
      have hrun : Exec L (.stmt (.labeled l s)) ((Completion.brk (some l)).labeled l) :=
        .labeled hbreak nofun
      refine h.ends _ hp (ends_of_endsOn (.labeled hends)) hrun ?_
      exact if_pos rfl
    | _ => trivial
  · intro hh
    have hsub : ∀ {code : Code}, code.parts ⊆ partsOf body → Honest code :=
      fun hsub p hp => hh p (hsub hp)
    constructor
    · exact fun list hlist hthrows => throwsOut_sound (hsub hlist) hthrows
    · intro s hs hends L c h
      have hcode : EndsCode [] (.stmt s) := hends
      exact ends_sound h (fun p hp => hh p (mem_partsOf_trans hs hp)) hcode
    · exact fun list _ hhang _ _ => hangsForever_sound hhang
    · exact fun cases hcases i hthrows =>
        entryPathsThrow_sound (fun p hp => hh p (hcases hp)) hthrows

/-- The block breaks out when the test is true, and is said to be ended by the return. -/
theorem not_soundFor_brokenLabel :
    ¬ SoundFor [.labeled "a" (.block [.ite .unknown (.brk (some "a")) none, .ret none])] := by
  intro h
  have hbreak : Exec ["a"] (.stmt (.block [.ite .unknown (.brk (some "a")) none, .ret none]))
      (.brk (some "a")) := .block (.consAbrupt (.iteTrue rfl .brk) nofun)
  have hrun := Exec.labeled hbreak (L := []) nofun
  exact h.ends _ List.mem_cons_self rfl hrun rfl

end Whatspec.Scan

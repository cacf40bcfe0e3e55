import Whatspec.Scan.ArgumentSlots

/-!
# Which calls have their arguments listed right

The list of arguments is wrong where the reader of the arguments passes fewer `bind`s than the reader
of the callee: behind a decided conditional or short circuit, below a `call` or `apply`, and in a
method of an object literal.

* `Overlooks` says when an argument is left out of the list, or one is taken for a receiver;
* **`maps_iff`**: in every execution that enters the function, the slots are the arguments that it
  receives, exactly when nothing is overlooked.
-/

namespace Whatspec.Scan.Callees

/-! ### What is overlooked -/

/-- A `bind` on the way to the function may give it an argument. -/
def MayBind (f : ℕ) (e : Expr) : Prop := ∃ bound, Binds e f bound ∧ bound ≠ []

/-- The elements that the list is read from where the callee is a member named `call` or `apply`. -/
def wrappedElements (name : String) (arguments : List (Argument Expr)) :
    Option (List (ArrayElement Expr)) :=
  if startsWithSpread arguments then none
  else if name = "call" then some (argumentElements (arguments.drop 1))
  else applyElements arguments

/-- The receiver of a `bind` is itself a `call` or `apply`, which is not read. -/
def isWrapped (receiver : Expr) : Bool := (namedMember (peel receiver)).any fun found =>
  isWrapper found.1

/-- The list of the arguments of a call of `e`, with `trailing` after them, leaves out an argument of
the function `f`, and does not stop before it says so. -/
inductive Overlooks (f : ℕ) :
    Expr → List (Argument Expr) → List (ArrayElement Expr) → Prop where
  | paren {e : Expr} {arguments : List (Argument Expr)} {trailing : List (ArrayElement Expr)} :
      Overlooks f e arguments trailing → Overlooks f (.paren e) arguments trailing
  | sequence {first : List Expr} {last : Expr} {arguments : List (Argument Expr)}
      {trailing : List (ArrayElement Expr)} :
      Overlooks f last arguments trailing → Overlooks f (.sequence first last) arguments trailing
  /-- The receiver of a `bind` that is read. -/
  | bind {callee receiver : Expr} {bound arguments : List (Argument Expr)}
      {trailing : List (ArrayElement Expr)} : bindMember callee = some receiver →
      startsWithSpread bound = false → isWrapped receiver = false →
      Overlooks f receiver []
        (argumentElements (bound.drop 1) ++ (argumentElements arguments ++ trailing)) →
      Overlooks f (.call callee bound) arguments trailing
  /-- A `bind` behind a decided conditional or short circuit. -/
  | arm {e arm : Expr} {arguments : List (Argument Expr)}
      {trailing : List (ArrayElement Expr)} : selectedArm e = some arm → MayBind f arm →
      stops (argumentElements arguments ++ trailing) = false → Overlooks f e arguments trailing
  /-- A `bind` in a method of an object literal. -/
  | method {e object value : Expr} {name : String} {arguments : List (Argument Expr)}
      {trailing : List (ArrayElement Expr)} : namedMember e = some (name, object) →
      isWrapper name = false → literalValue object name = some value → MayBind f value →
      stops (argumentElements arguments ++ trailing) = false → Overlooks f e arguments trailing
  /-- A method of an object literal that is called `call` or `apply`: its first argument is taken for
  a receiver. -/
  | ownWrapper {e object value : Expr} {name : String} {arguments : List (Argument Expr)}
      {elements trailing : List (ArrayElement Expr)} : namedMember e = some (name, object) →
      isWrapper name = true → literalValue object name = some value →
      arguments ≠ [] ∨ MayBind f value → wrappedElements name arguments = some elements →
      stops (elements ++ trailing) = false → Overlooks f e arguments trailing
  /-- `call` or `apply` of a bound function. -/
  | wrapper {e object : Expr} {name : String} {arguments : List (Argument Expr)}
      {elements : List (ArrayElement Expr)} : namedMember e = some (name, object) →
      isWrapper name = true → literalValue object name = none → MayBind f object →
      wrappedElements name arguments = some elements → stops elements = false →
      Overlooks f e arguments []
  /-- `apply` whose list comes out of a spread. -/
  | applySpread {e object first list : Expr} {p q : ℕ} {rest : List (Argument Expr)} :
      namedMember e = some ("apply", object) → literalValue object "apply" = none →
      Overlooks f e (.expression p first :: .spread q list :: rest) []

/-! ### Bound arguments -/

/-- Bound arguments have positions in the callee. -/
theorem position_of_binds {e : Expr} {f : ℕ} {bound : List Source} (h : Binds e f bound) :
    ∀ s ∈ bound, ∃ p ∈ e.positions, s.position = some p := by
  induction h with
  | function => exact fun s hs => nomatch hs
  | paren _ ih => exact ih
  | sequence _ ih =>
    intro s hs
    obtain ⟨p, hp, hposition⟩ := ih s hs
    exact ⟨p, List.mem_append_right _ hp, hposition⟩
  | arm harm _ ih =>
    intro s hs
    obtain ⟨p, hp, hposition⟩ := ih s hs
    exact ⟨p, (positions_selectedArm harm).subset hp, hposition⟩
  | bind hbind _ hpasses ih =>
    intro s hs
    rcases List.mem_append.mp hs with hs | hs
    · obtain ⟨p, hp, hposition⟩ := ih s hs
      exact ⟨p, List.mem_append_left _ ((positions_bindMember hbind).subset hp), hposition⟩
    · obtain ⟨p, hp, hposition⟩ := position_of_passes hpasses s (List.mem_of_mem_tail hs)
      exact ⟨p, List.mem_append_right _ hp, hposition⟩
  | method hmember hvalue _ ih =>
    intro s hs
    obtain ⟨p, hp, hposition⟩ := ih s hs
    have hsub := (positions_literalValue hvalue).trans (positions_namedMember hmember)
    exact ⟨p, hsub.subset hp, hposition⟩

/-- The slots of a list are right after the arguments bound to a function, exactly when there are
none of these or the list stops at once. -/
theorem maps_bound_iff {e : Expr} {f : ℕ} {elements : List (ArrayElement Expr)}
    (hdisjoint : ∀ p ∈ e.positions, p ∉ positionsOfElements elements) :
    (∀ bound items, Binds e f bound → Lists elements items →
      Maps (mappedElements elements) (bound ++ items)) ↔
      ¬ (MayBind f e ∧ stops elements = false) := by
  constructor
  · rintro hmaps ⟨⟨bound, hbinds, hne⟩, hstops⟩
    obtain ⟨items, hitems⟩ := exists_lists elements
    have h := hmaps bound items hbinds hitems
    cases bound with
    | nil => exact hne rfl
    | cons s bound =>
      obtain ⟨p, hp, hs⟩ := position_of_binds hbinds s List.mem_cons_self
      exact not_maps_cons hstops hs (hdisjoint p hp) _ h
  · intro h bound items hbinds hitems
    by_cases hne : bound = []
    · subst hne
      exact maps_mappedElements hitems
    · have hstops : stops elements = true := by
        by_contra hstops
        exact h ⟨⟨bound, hbinds, hne⟩, Bool.eq_false_iff.mpr hstops⟩
      rw [mappedElements_of_stops hstops]
      exact maps_nothing _

/-! ### The list by the shape of the callee -/

theorem argumentsThen_paren (e : Expr) (arguments : List (Argument Expr)) (trailing : Slots) :
    argumentsThen (.paren e) arguments trailing = argumentsThen e arguments trailing := by
  rw [argumentsThen]

theorem argumentsThen_sequence (first : List Expr) (last : Expr)
    (arguments : List (Argument Expr)) (trailing : Slots) :
    argumentsThen (.sequence first last) arguments trailing =
      argumentsThen last arguments trailing := by
  rw [argumentsThen]

theorem argumentsThen_call {callee receiver : Expr} (bound arguments : List (Argument Expr))
    (trailing : List (ArrayElement Expr)) (hbind : bindMember callee = some receiver) :
    argumentsThen (.call callee bound) arguments (mappedElements trailing) =
      if startsWithSpread bound || isWrapped receiver then ([], false)
      else argumentsThen receiver [] (mappedElements
        (argumentElements (bound.drop 1) ++ (argumentElements arguments ++ trailing))) := by
  have htail : append (mapped (bound.drop 1)) (append (mapped arguments)
      (mappedElements trailing)) = mappedElements
        (argumentElements (bound.drop 1) ++ (argumentElements arguments ++ trailing)) := by
    rw [mapped_eq, mapped_eq, append_mappedElements, append_mappedElements]
  rw [argumentsThen]
  split
  · next h => cases h.symm.trans hbind
  · next receiver' h =>
    obtain rfl := Option.some.inj (h.symm.trans hbind)
    dsimp only
    rw [htail]
    cases hspread : startsWithSpread bound with
    | true => rfl
    | false =>
      unfold isWrapped
      cases hmember : namedMember (peel receiver') with
      | none => rfl
      | some found => rfl

theorem argumentsThen_value {e : Expr} (arguments : List (Argument Expr))
    (trailing : List (ArrayElement Expr)) (hparen : ∀ inner, e ≠ .paren inner)
    (hsequence : ∀ first last, e ≠ .sequence first last)
    (hcall : ∀ callee bound, e ≠ .call callee bound) (hmember : namedMember e = none) :
    argumentsThen e arguments (mappedElements trailing) =
      mappedElements (argumentElements arguments ++ trailing) := by
  rw [argumentsThen.eq_def]
  split
  · next inner => exact absurd rfl (hparen inner)
  · next first last => exact absurd rfl (hsequence first last)
  · next callee bound => exact absurd rfl (hcall callee bound)
  · rw [hmember]
    dsimp only
    rw [mapped_eq, append_mappedElements]

theorem argumentsThen_member {e object : Expr} {name : String}
    (arguments : List (Argument Expr)) (trailing : List (ArrayElement Expr))
    (hmember : namedMember e = some (name, object)) :
    argumentsThen e arguments (mappedElements trailing) =
      if isWrapper name then
        match wrappedElements name arguments with
        | some elements => mappedElements (elements ++ trailing)
        | none => ([], false)
      else mappedElements (argumentElements arguments ++ trailing) := by
  rw [argumentsThen.eq_def]
  split
  · cases hmember
  · cases hmember
  · cases hmember
  · rw [hmember]
    dsimp only
    unfold wrappedElements
    cases hwrapper : isWrapper name with
    | false =>
      obtain ⟨hcall, happly⟩ : name ≠ "call" ∧ name ≠ "apply" := by
        simpa [isWrapper] using hwrapper
      rw [Bool.false_and, if_neg Bool.false_ne_true, if_neg hcall, if_neg happly,
        if_neg Bool.false_ne_true, mapped_eq, append_mappedElements]
    | true =>
      cases hspread : startsWithSpread arguments with
      | true => rfl
      | false =>
        rw [Bool.and_false, if_neg Bool.false_ne_true, if_pos rfl, if_neg Bool.false_ne_true]
        by_cases hcall : name = "call"
        · rw [if_pos hcall, if_pos hcall, mapped_eq, append_mappedElements]
        · have happly : name = "apply" := by simpa [isWrapper, hcall] using hwrapper
          rw [if_neg hcall, if_neg hcall, if_pos happly]
          cases applyElements arguments with
          | none => rfl
          | some elements => exact append_mappedElements elements trailing

/-! ### A function with arguments bound -/

theorem positions_applyElements {arguments : List (Argument Expr)}
    {elements : List (ArrayElement Expr)} (h : applyElements arguments = some elements) :
    (positionsOfElements elements).Sublist (positionsOfArguments (arguments.drop 1)) := by
  unfold applyElements at h
  split at h
  · cases h
    exact List.nil_sublist _
  · next list hlist =>
    split at h
    · cases h
      exact List.nil_sublist _
    · split at h
      · next hpeel =>
        cases h
        have hpositions := positions_peel list
        rw [hpeel] at hpositions
        obtain ⟨argument, hargument, hexpression⟩ := Option.bind_eq_some_iff.mp hlist
        match arguments, hargument with
        | _ :: .expression _ _ :: rest, rfl =>
          cases hexpression
          refine hpositions.trans ?_
          exact (List.sublist_append_left _ _).cons _
        | _ :: .spread _ _ :: rest, rfl => cases hexpression
      · cases h

theorem positions_wrappedElements {name : String} {arguments : List (Argument Expr)}
    {elements : List (ArrayElement Expr)} (h : wrappedElements name arguments = some elements) :
    (positionsOfElements elements).Sublist (positionsOfArguments (arguments.drop 1)) := by
  unfold wrappedElements at h
  split at h
  · cases h
  · split at h
    · cases h
      rw [positions_argumentElements]
    · exact positions_applyElements h

/-- The slots of a method of an object literal that is called `call` or `apply`. -/
theorem maps_ownWrapper_iff {e object value : Expr} {name : String} {f : ℕ}
    {arguments : List (Argument Expr)} {trailing : List (ArrayElement Expr)}
    (hmember : namedMember e = some (name, object)) (hwrapper : isWrapper name = true)
    (hvalue : literalValue object name = some value) {bound₀ : List Source}
    (h₀ : Binds value f bound₀)
    (hplaces : (value.positions ++
      (positionsOfArguments arguments ++ positionsOfElements trailing)).Nodup) :
    (∀ bound items, Binds value f bound →
      Lists (argumentElements arguments ++ trailing) items →
        Maps (argumentsThen e arguments (mappedElements trailing)) (bound ++ items)) ↔
      ¬ Overlooks f e arguments trailing := by
  have hover : Overlooks f e arguments trailing ↔ (arguments ≠ [] ∨ MayBind f value) ∧
      ∃ elements, wrappedElements name arguments = some elements ∧
        stops (elements ++ trailing) = false := by
    constructor
    · intro h
      cases h with
      | ownWrapper hmember' _ hvalue' hpassed helements hstops =>
        obtain ⟨rfl, rfl⟩ := Prod.mk.inj (Option.some.inj (hmember.symm.trans hmember'))
        obtain rfl := Option.some.inj (hvalue.symm.trans hvalue')
        exact ⟨hpassed, _, helements, hstops⟩
      | arm harm => exact nomatch harm.symm.trans (selectedArm_of_namedMember hmember)
      | method hmember' hwrapper' =>
        obtain ⟨rfl, rfl⟩ := Prod.mk.inj (Option.some.inj (hmember.symm.trans hmember'))
        exact nomatch hwrapper.symm.trans hwrapper'
      | wrapper hmember' _ hvalue' =>
        obtain ⟨rfl, rfl⟩ := Prod.mk.inj (Option.some.inj (hmember.symm.trans hmember'))
        exact nomatch hvalue.symm.trans hvalue'
      | applySpread hmember' hvalue' =>
        obtain ⟨rfl, rfl⟩ := Prod.mk.inj (Option.some.inj (hmember.symm.trans hmember'))
        exact nomatch hvalue.symm.trans hvalue'
      | _ => cases hmember
    · rintro ⟨hpassed, elements, helements, hstops⟩
      exact .ownWrapper hmember hwrapper hvalue hpassed helements hstops
  rw [hover, argumentsThen_member arguments trailing hmember, if_pos hwrapper]
  cases helements : wrappedElements name arguments with
  | none =>
    refine ⟨fun _ ⟨_, _, h, _⟩ => (nomatch h), fun _ _ _ _ _ => maps_nothing _⟩
  | some elements =>
    have hstopsIff : (∃ found, some elements = some found ∧ stops (found ++ trailing) = false) ↔
        stops (elements ++ trailing) = false :=
      ⟨fun ⟨_, heq, h⟩ => Option.some.inj heq ▸ h, fun h => ⟨elements, rfl, h⟩⟩
    rw [hstopsIff]
    dsimp only
    have hsub := positions_wrappedElements helements
    match arguments, helements with
    | [], helements =>
      have hnil : elements = [] := by
        unfold wrappedElements at helements
        split at helements
        · cases helements
        · split at helements
          · exact (Option.some.inj helements).symm
          · exact (Option.some.inj helements).symm
      subst hnil
      have hdisjoint : ∀ p ∈ value.positions, p ∉ positionsOfElements trailing :=
        List.disjoint_of_nodup_append hplaces
      have hiff := maps_bound_iff (f := f) hdisjoint
      rw [show (argumentElements [] ++ trailing) = trailing from rfl, List.nil_append, hiff]
      exact not_congr (and_congr_left fun _ => (or_iff_right fun h => h rfl).symm)
    | .spread p first :: rest, helements =>
      unfold wrappedElements at helements
      cases helements
    | .expression p first :: rest, helements =>
      have hpassed : (Argument.expression p first :: rest ≠ [] ∨ MayBind f value) :=
        Or.inl (List.cons_ne_nil _ _)
      rw [and_iff_right hpassed, Bool.not_eq_false]
      constructor
      · intro hmaps
        by_contra hstops
        obtain ⟨items, hitems⟩ := exists_lists (argumentElements rest ++ trailing)
        have hlist : Lists (argumentElements (.expression p first :: rest) ++ trailing)
            (.of p first :: items) := .expression p first hitems
        have h := hmaps bound₀ _ h₀ hlist
        rw [Bool.not_eq_true] at hstops
        have hparts := List.nodup_append.mp hplaces
        have hinside : ∀ q ∈ positionsOfElements (elements ++ trailing),
            q ∈ positionsOfArguments rest ++ positionsOfElements trailing := by
          intro q hq
          rw [positionsOfElements_append] at hq
          rcases List.mem_append.mp hq with hq | hq
          · exact List.mem_append_left _ (hsub.subset hq)
          · exact List.mem_append_right _ hq
        cases bound₀ with
        | nil =>
          refine not_maps_cons hstops rfl (fun hq => ?_) _ h
          have hnodup := (List.nodup_cons.mp hparts.2.1).1
          rcases List.mem_append.mp (hinside p hq) with hq | hq
          · exact hnodup (List.mem_append_left _ (List.mem_append_right _ hq))
          · exact hnodup (List.mem_append_right _ hq)
        | cons s bound =>
          obtain ⟨q, hq, hs⟩ := position_of_binds h₀ s List.mem_cons_self
          refine not_maps_cons hstops hs (fun hq' => ?_) _ h
          refine hparts.2.2 q hq q ?_ rfl
          rcases List.mem_append.mp (hinside q hq') with hq' | hq'
          · exact List.mem_append_left _ (List.mem_append_right _ hq')
          · exact List.mem_append_right _ hq'
      · intro hstops bound items _ _
        rw [mappedElements_of_stops hstops]
        exact maps_nothing _

theorem passes_of_drop {bound : List (Argument Expr)} {items : List Source}
    (hspread : startsWithSpread bound = false) (h : Passes bound items) :
    Lists (argumentElements (bound.drop 1)) items.tail := by
  match bound, items, h with
  | [], _, .nil => exact .nil
  | .spread _ _ :: _, _, _ => cases hspread
  | .expression _ _ :: _, _, .expression _ _ h => exact h

theorem exists_passes {bound : List (Argument Expr)} {items : List Source}
    (hspread : startsWithSpread bound = false) (h : Lists (argumentElements (bound.drop 1)) items) :
    ∃ all, Passes bound all ∧ all.tail = items := by
  match bound, h with
  | [], .nil => exact ⟨[], .nil, rfl⟩
  | .spread _ _ :: _, _ => cases hspread
  | .expression p first :: rest, h => exact ⟨_, .expression p first h, rfl⟩

/-- **The slots of a call of a function with arguments bound**, with more arguments to follow: they
are right in every execution, exactly when nothing is overlooked. -/
theorem maps_value_iff {e : Expr} {f : ℕ} {bound₀ : List Source} (h₀ : Binds e f bound₀)
    (arguments : List (Argument Expr)) (trailing : List (ArrayElement Expr))
    (hplaces : (e.positions ++
      (positionsOfArguments arguments ++ positionsOfElements trailing)).Nodup) :
    (∀ bound items, Binds e f bound → Lists (argumentElements arguments ++ trailing) items →
      Maps (argumentsThen e arguments (mappedElements trailing)) (bound ++ items)) ↔
      ¬ Overlooks f e arguments trailing := by
  induction h₀ generalizing arguments trailing with
  | function f =>
    rw [argumentsThen_value (e := .function f) arguments trailing (fun _ => nofun)
      (fun _ _ => nofun) (fun _ _ => nofun) rfl]
    constructor
    · intro _ h
      cases h with
      | arm harm => cases harm
      | method hmember => cases hmember
      | ownWrapper hmember => cases hmember
      | wrapper hmember => cases hmember
      | applySpread hmember => cases hmember
    · intro _ bound items hbinds hitems
      cases hbinds with
      | function => exact maps_mappedElements hitems
      | arm harm => cases harm
      | method hmember => cases hmember
  | @paren e f _ _ ih =>
    have hover : Overlooks f (.paren e) arguments trailing ↔
        Overlooks f e arguments trailing := by
      constructor
      · intro h
        cases h with
        | paren h => exact h
        | arm harm => cases harm
        | method hmember => cases hmember
        | ownWrapper hmember => cases hmember
        | wrapper hmember => cases hmember
        | applySpread hmember => cases hmember
      · exact .paren
    rw [hover, argumentsThen_paren, ← ih arguments trailing hplaces]
    exact forall₂_congr fun bound items => imp_congr_left binds_paren_iff
  | @sequence first last f _ _ ih =>
    have hover : Overlooks f (.sequence first last) arguments trailing ↔
        Overlooks f last arguments trailing := by
      constructor
      · intro h
        cases h with
        | sequence h => exact h
        | arm harm => cases harm
        | method hmember => cases hmember
        | ownWrapper hmember => cases hmember
        | wrapper hmember => cases hmember
        | applySpread hmember => cases hmember
      · exact .sequence
    have hplaces' := hplaces.sublist
      ((List.sublist_append_right (positionsOfList first) last.positions).append_right _)
    rw [hover, argumentsThen_sequence, ← ih arguments trailing hplaces']
    exact forall₂_congr fun bound items => imp_congr_left binds_sequence_iff
  | @arm e arm f _ harm _ _ =>
    have hmember : namedMember e = none := by
      cases h : namedMember e with
      | none => rfl
      | some found => exact nomatch harm.symm.trans (selectedArm_of_namedMember h)
    have hover : Overlooks f e arguments trailing ↔
        MayBind f arm ∧ stops (argumentElements arguments ++ trailing) = false := by
      constructor
      · intro h
        cases h with
        | arm harm' hbind hstops =>
          obtain rfl := Option.some.inj (harm.symm.trans harm')
          exact ⟨hbind, hstops⟩
        | paren => cases harm
        | sequence => cases harm
        | bind => cases harm
        | method h => exact nomatch hmember.symm.trans h
        | ownWrapper h => exact nomatch hmember.symm.trans h
        | wrapper h => exact nomatch hmember.symm.trans h
        | applySpread h => exact nomatch hmember.symm.trans h
      · exact fun ⟨hbind, hstops⟩ => .arm harm hbind hstops
    have hvalue := argumentsThen_value (e := e) arguments trailing
      (fun _ heq => by rw [heq] at harm; cases harm)
      (fun _ _ heq => by rw [heq] at harm; cases harm)
      (fun _ _ heq => by rw [heq] at harm; cases harm) hmember
    have hdisjoint : ∀ p ∈ arm.positions,
        p ∉ positionsOfElements (argumentElements arguments ++ trailing) := by
      intro p hp
      rw [positionsOfElements_append, positions_argumentElements]
      exact List.disjoint_of_nodup_append hplaces ((positions_selectedArm harm).subset hp)
    rw [hover, hvalue, ← maps_bound_iff hdisjoint]
    exact forall₂_congr fun bound items => imp_congr_left (binds_arm_iff harm)
  | @bind callee receiver own f _ items₀ hbind _ hpasses₀ ih =>
    rw [argumentsThen_call own arguments trailing hbind]
    have hover : Overlooks f (.call callee own) arguments trailing ↔
        startsWithSpread own = false ∧ isWrapped receiver = false ∧ Overlooks f receiver []
          (argumentElements (own.drop 1) ++ (argumentElements arguments ++ trailing)) := by
      constructor
      · intro h
        cases h with
        | bind hbind' hspread hwrapped h =>
          obtain rfl := Option.some.inj (hbind.symm.trans hbind')
          exact ⟨hspread, hwrapped, h⟩
        | arm harm => cases harm
        | method hmember => cases hmember
        | ownWrapper hmember => cases hmember
        | wrapper hmember => cases hmember
        | applySpread hmember => cases hmember
      · exact fun ⟨hspread, hwrapped, h⟩ => .bind hbind hspread hwrapped h
    rw [hover]
    cases hspread : startsWithSpread own with
    | true => exact ⟨fun _ h => (nomatch h.1), fun _ _ _ _ _ => maps_nothing _⟩
    | false =>
      cases hwrapped : isWrapped receiver with
      | true => exact ⟨fun _ h => (nomatch h.2.1), fun _ _ _ _ _ => maps_nothing _⟩
      | false =>
        rw [if_neg (by decide), and_iff_right rfl, and_iff_right rfl, ← ih]
        · constructor
          · intro h bound items hbinds hitems
            have hlist : Lists (argumentElements (own.drop 1) ++
                (argumentElements arguments ++ trailing)) items := hitems
            obtain ⟨mine, rest, hmine, hrest, rfl⟩ := lists_append.mp hlist
            obtain ⟨all, hall, rfl⟩ := exists_passes hspread hmine
            have hmaps := h _ rest ((binds_call_iff hbind).mpr ⟨bound, all, hbinds, hall, rfl⟩)
              hrest
            rwa [List.append_assoc] at hmaps
          · intro h bound items hbinds hitems
            obtain ⟨inner, all, hinner, hall, rfl⟩ := (binds_call_iff hbind).mp hbinds
            have hlist := lists_append.mpr ⟨_, items, passes_of_drop hspread hall, hitems, rfl⟩
            rw [List.append_assoc]
            exact h inner _ hinner hlist
        · show (receiver.positions ++ ([] ++ positionsOfElements _)).Nodup
          rw [List.nil_append, positionsOfElements_append, positionsOfElements_append,
            positions_argumentElements, positions_argumentElements, ← List.append_assoc]
          refine hplaces.sublist (List.Sublist.append_right ?_ _)
          refine (positions_bindMember hbind).append ?_
          cases own with
          | nil => exact List.Sublist.refl _
          | cons first rest => cases first <;> exact List.sublist_append_right _ _
  | @method e object value name f bound hmember hvalue hbinds _ =>
    have hsub := (positions_literalValue hvalue).trans (positions_namedMember hmember)
    have hplaces' := hplaces.sublist (hsub.append_right _)
    have hcongr : ∀ {slots : Slots} {Q : List Source → Prop},
        ((∀ bound items, Binds e f bound → Q items → Maps slots (bound ++ items)) ↔
          ∀ bound items, Binds value f bound → Q items → Maps slots (bound ++ items)) :=
      forall₂_congr fun bound items => imp_congr_left (binds_method_iff hmember hvalue)
    rw [hcongr]
    cases hwrapper : isWrapper name with
    | true => exact maps_ownWrapper_iff hmember hwrapper hvalue hbinds hplaces'
    | false =>
      have hover : Overlooks f e arguments trailing ↔
          MayBind f value ∧ stops (argumentElements arguments ++ trailing) = false := by
        constructor
        · intro h
          cases h with
          | method hmember' _ hvalue' hbind hstops =>
            obtain ⟨rfl, rfl⟩ := Prod.mk.inj (Option.some.inj (hmember.symm.trans hmember'))
            obtain rfl := Option.some.inj (hvalue.symm.trans hvalue')
            exact ⟨hbind, hstops⟩
          | arm harm => exact nomatch harm.symm.trans (selectedArm_of_namedMember hmember)
          | ownWrapper hmember' hwrapper' =>
            obtain ⟨rfl, rfl⟩ := Prod.mk.inj (Option.some.inj (hmember.symm.trans hmember'))
            exact nomatch hwrapper.symm.trans hwrapper'
          | wrapper hmember' hwrapper' =>
            obtain ⟨rfl, rfl⟩ := Prod.mk.inj (Option.some.inj (hmember.symm.trans hmember'))
            exact nomatch hwrapper.symm.trans hwrapper'
          | applySpread hmember' =>
            obtain ⟨rfl, rfl⟩ := Prod.mk.inj (Option.some.inj (hmember.symm.trans hmember'))
            cases hwrapper
          | _ => cases hmember
        · exact fun ⟨hbind, hstops⟩ => .method hmember hwrapper hvalue hbind hstops
      have hdisjoint : ∀ p ∈ value.positions,
          p ∉ positionsOfElements (argumentElements arguments ++ trailing) := by
        intro p hp
        rw [positionsOfElements_append, positions_argumentElements]
        exact List.disjoint_of_nodup_append hplaces' hp
      rw [hover, argumentsThen_member arguments trailing hmember, hwrapper,
        if_neg Bool.false_ne_true, ← maps_bound_iff hdisjoint]

/-! ### Calls -/

/-- A value that is called on a receiver from elsewhere enters the function it leads to. -/
theorem enters_iff {v : Value} {items received : List Source} {f : ℕ} :
    Enters .foreign v items f received ↔
      ∃ bound, leads v = some (f, bound) ∧ received = bound ++ items := by
  constructor
  · intro h
    induction v generalizing items with
    | function g =>
      cases h
      exact ⟨[], rfl, rfl⟩
    | bound target arguments ih =>
      cases h with
      | bound h =>
        obtain ⟨bound, hleads, rfl⟩ := ih h
        refine ⟨bound ++ arguments, ?_, (List.append_assoc _ _ _).symm⟩
        rw [leads, hleads]
        rfl
    | method m =>
      cases h with
      | call hthis => cases hthis
      | apply hthis => cases hthis
    | _ => cases h
  · rintro ⟨bound, hleads, rfl⟩
    induction v generalizing items bound with
    | function g =>
      cases hleads
      exact .function _ _ _
    | bound target arguments ih =>
      obtain ⟨found, hfound, heq⟩ := Option.map_eq_some_iff.mp hleads
      cases heq
      rw [List.append_assoc]
      exact .bound (ih _ hfound)
    | _ => cases hleads

/-- The receiver of a function that is no method does not matter. -/
theorem enters_of_leads {this v : Value} {items : List Source} {f : ℕ} {bound : List Source}
    (h : leads v = some (f, bound)) : Enters this v items f (bound ++ items) := by
  cases v with
  | function g =>
    cases h
    exact .function _ _ _
  | bound target arguments =>
    obtain ⟨found, hfound, heq⟩ := Option.map_eq_some_iff.mp h
    cases heq
    rw [List.append_assoc]
    exact .bound (enters_iff.mpr ⟨_, hfound, rfl⟩)
  | _ => cases h

theorem eval_of_refers {e : Expr} {this v : Value} (h : Refers e this v) : Eval e v := by
  induction hn : sizeOf e using Nat.strong_induction_on generalizing e with
  | _ n ih =>
    subst hn
    cases h with
    | paren h => exact .paren (ih _ (by simp only [Expr.paren.sizeOf_spec]; omega) h rfl)
    | staticMember ho hget => exact .staticMember ho hget
    | computedMember ho hk hnames hget => exact .computedMember ho hk hnames hget
    | value _ h => exact h

theorem exists_refers {e : Expr} {v : Value} (h : Eval e v) : ∃ this, Refers e this v := by
  induction hn : sizeOf e using Nat.strong_induction_on generalizing e with
  | _ n ih =>
    subst hn
    cases e with
    | paren inner =>
      cases h with
      | paren h =>
        obtain ⟨this, hthis⟩ := ih _ (by simp only [Expr.paren.sizeOf_spec]; omega) h rfl
        exact ⟨this, .paren hthis⟩
    | staticMember =>
      cases h with
      | staticMember ho hget => exact ⟨_, .staticMember ho hget⟩
    | computedMember =>
      cases h with
      | computedMember ho hk hnames hget => exact ⟨_, .computedMember ho hk hnames hget⟩
    | _ => exact ⟨_, .value rfl h⟩

theorem refers_paren_iff {e : Expr} {this v : Value} :
    Refers (.paren e) this v ↔ Refers e this v := by
  constructor
  · intro h
    cases h with
    | paren h => exact h
    | value href h =>
      cases h with
      | paren h => exact .value href h
  · exact .paren

theorem callEnters_paren_iff {e : Expr} {arguments : List (Argument Expr)} {f : ℕ}
    {received : List Source} :
    CallEnters (.paren e) arguments f received ↔ CallEnters e arguments f received :=
  exists_congr fun _ => exists_congr fun _ => exists_congr fun _ =>
    and_congr_left fun _ => refers_paren_iff

/-- A callee that is no `call` or `apply` enters the function that its value leads to. -/
theorem leads_of_enters {e : Expr} {this v : Value} {items received : List Source} {f : ℕ}
    (hparen : ∀ inner, e ≠ .paren inner) (hfunction : invokedFrom false e = .function f)
    (hwrapper : ∀ name o, namedMember e = some (name, o) → isWrapper name = false)
    (hrefers : Refers e this v) (h : Enters this v items f received) :
    ∃ bound, leads v = some (f, bound) ∧ received = bound ++ items := by
  have hmethod : ∀ {m}, v = .method m → this.isFunction = true → m = .bind := by
    rintro m rfl hthis
    have hnamed : ∀ {name o}, namedMember e = some (name, o) → m = .bind := by
      intro name o hmember
      obtain ⟨-, hget, -⟩ := refers_namedMember hmember hrefers
      have hname := hwrapper name o hmember
      cases hget with
      | own => cases hthis
      | method _ hm =>
        unfold Method.named at hm
        split at hm
        · cases hname
        · cases hname
        · exact (Option.some.inj hm).symm
        · cases hm
    cases hrefers with
    | @paren inner => exact absurd rfl (hparen inner)
    | value => cases hthis
    | staticMember => exact hnamed rfl
    | @computedMember object key =>
      cases hmember : namedMember (.computedMember object key) with
      | some found => exact hnamed hmember
      | none =>
        rw [invokedFrom_stuck (e := .computedMember object key) false (fun _ => nofun)
          (fun _ _ => nofun) (fun _ _ => nofun) rfl hmember] at hfunction
        cases hfunction
  cases h with
  | function => exact ⟨[], rfl, rfl⟩
  | @bound _ target arguments _ _ _ h =>
    exact enters_iff.mp (.bound h)
  | call hthis => exact nomatch hmethod rfl hthis
  | apply hthis => exact nomatch hmethod rfl hthis

/-- The slots of a call whose callee is no `call` or `apply`. -/
theorem maps_plain_iff {e : Expr} {arguments : List (Argument Expr)} {f : ℕ}
    (hplaces : (e.positions ++ positionsOfArguments arguments).Nodup)
    (hparen : ∀ inner, e ≠ .paren inner) (hfunction : invokedFrom false e = .function f)
    (hwrapper : ∀ name o, namedMember e = some (name, o) → isWrapper name = false)
    (henters : ∃ received, CallEnters e arguments f received) :
    (∀ received, CallEnters e arguments f received →
      Maps (effectiveArguments e arguments) received) ↔ ¬ Overlooks f e arguments [] := by
  obtain ⟨received₀, this₀, v₀, items₀, hrefers₀, -, h₀⟩ := henters
  obtain ⟨bound₀, hleads₀, -⟩ := leads_of_enters hparen hfunction hwrapper hrefers₀ h₀
  have hreduced := reduced_of_invoked hfunction (eval_of_refers hrefers₀)
  have hplaces' : (e.positions ++
      (positionsOfArguments arguments ++ positionsOfElements [])).Nodup := by
    rwa [positionsOfElements, List.append_nil]
  rw [← maps_value_iff (hreduced.binds hleads₀).2 arguments [] hplaces', List.append_nil]
  constructor
  · intro h bound items hbinds hitems
    have hsome : (leads v₀).isSome := by rw [hleads₀]; rfl
    obtain ⟨w, hw, hleads⟩ := hreduced.again hsome hbinds
    obtain ⟨this, hrefers⟩ := exists_refers hw
    exact h _ ⟨this, w, items, hrefers, hitems, enters_of_leads hleads⟩
  · rintro h received ⟨this, v, items, hrefers, hpasses, henters⟩
    obtain ⟨bound, hleads, rfl⟩ := leads_of_enters hparen hfunction hwrapper hrefers henters
    have hbinds := ((reduced_of_invoked hfunction (eval_of_refers hrefers)).binds hleads).2
    exact h bound items hbinds hpasses

/-! ### `call` and `apply` -/

/-- The list of `apply` is read off its second argument, where that is written out. -/
theorem lists_of_spreads {items contents : List Source} {q : ℕ} {list : Expr}
    {elements : List (ArrayElement Expr)} (hsecond : items[1]? = some (.of q list))
    (helements : (if certainlyNullish list then some [] else
      match peel list with
      | .array elements => some elements
      | _ => none) = some elements) (h : Spreads items contents) :
    Lists elements contents ∧
      ∀ again, Lists elements again → Spreads items again := by
  have hlist : ∀ {p e}, items[1]? = some (.of p e) → e = list := fun h' =>
    (Source.of.inj (Option.some.inj (h'.symm.trans hsecond))).2
  split at helements
  · next hnullish =>
    cases helements
    have hempty : contents = [] := by
      cases h with
      | missing => rfl
      | nullish => rfl
      | array h' heval =>
        rw [hlist h'] at heval
        exact nomatch nullish_of_certainlyNullish hnullish heval
      | elsewhere count h' hvalue =>
        obtain ⟨v, heval, hmay⟩ := hvalue q list (Option.some.inj (h'.symm.trans hsecond))
        have hv := nullish_of_certainlyNullish hnullish heval
        exact nomatch hmay.symm.trans (Value.mayList_of_nullish hv)
    subst hempty
    refine ⟨.nil, fun again hagain => ?_⟩
    cases hagain
    exact h
  · split at helements
    · next hpeel =>
      cases helements
      have harray : ∀ {v}, Eval list v → v = .array elements := by
        intro v heval
        have hpeeled := eval_peel heval
        rw [hpeel] at hpeeled
        cases hpeeled
        rfl
      cases h with
      | missing h' => exact nomatch h'.symm.trans hsecond
      | nullish h' heval hnullish =>
        rw [hlist h'] at heval
        rw [harray heval] at hnullish
        cases hnullish
      | array h' heval hlists =>
        rw [hlist h'] at heval
        cases harray heval
        exact ⟨hlists, fun again hagain => .array hsecond heval hagain⟩
      | elsewhere count h' hvalue =>
        obtain ⟨v, heval, hmay⟩ := hvalue q list (Option.some.inj (h'.symm.trans hsecond))
        rw [harray heval] at hmay
        cases hmay
    · cases helements

/-- What a call through `call` or `apply` passes on, where its arguments are read. -/
def Forwards (name : String) (items contents : List Source) : Prop :=
  if name = "call" then contents = items.tail else Spreads items contents

/-- A callee that is a `call` or `apply` enters the function that its object leads to. -/
theorem callEnters_wrapper_iff {e object : Expr} {name : String}
    {arguments : List (Argument Expr)} {f : ℕ} {received : List Source}
    (hmember : namedMember e = some (name, object)) (hwrapper : isWrapper name = true)
    (hfunction : invokedFrom false object = .function f) :
    CallEnters e arguments f received ↔ ∃ this bound items contents, Refers e this
      (.method (if name = "call" then .call else .apply)) ∧ leads this = some (f, bound) ∧
        Passes arguments items ∧ Forwards name items contents ∧
          received = bound ++ contents := by
  constructor
  · rintro ⟨this, v, items, hrefers, hpasses, henters⟩
    obtain ⟨ho, hget, -⟩ := refers_namedMember hmember hrefers
    cases hget with
    | own => exact absurd rfl ((reduced_of_invoked hfunction ho).not_object _)
    | elsewhere => cases henters
    | @method _ _ m hthis hm =>
      by_cases hcall : name = "call"
      · subst hcall
        cases hm
        cases henters with
        | call _ h =>
          obtain ⟨bound, hleads, rfl⟩ := enters_iff.mp h
          exact ⟨this, bound, items, _, hrefers, hleads, hpasses, rfl, rfl⟩
      · have happly : name = "apply" := by simpa [isWrapper, hcall] using hwrapper
        subst happly
        cases hm
        cases henters with
        | apply _ hspreads h =>
          obtain ⟨bound, hleads, rfl⟩ := enters_iff.mp h
          exact ⟨this, bound, items, _, hrefers, hleads, hpasses, hspreads, rfl⟩
  · rintro ⟨this, bound, items, contents, hrefers, hleads, hpasses, hforwards, rfl⟩
    refine ⟨this, _, items, hrefers, hpasses, ?_⟩
    have hthis := isFunction_of_leads hleads
    unfold Forwards at hforwards
    split at hforwards
    · next hcall =>
      rw [if_pos hcall, hforwards]
      exact .call hthis (enters_iff.mpr ⟨bound, hleads, rfl⟩)
    · next hcall =>
      rw [if_neg hcall]
      exact .apply hthis hforwards (enters_iff.mpr ⟨bound, hleads, rfl⟩)

/-- The second argument is a spread, which `apply` takes its list from. -/
def listIsSpread : List (Argument Expr) → Bool
  | .expression _ _ :: .spread _ _ :: _ => true
  | _ => false

/-- Where the arguments of a `call` or `apply` are read, what it passes on are the elements that are
read, and any of these may be passed on. -/
theorem lists_of_forwards {name : String} {arguments : List (Argument Expr)}
    {items contents : List Source} {elements : List (ArrayElement Expr)}
    (hspread : name = "call" ∨ listIsSpread arguments = false)
    (helements : wrappedElements name arguments = some elements) (hpasses : Passes arguments items)
    (h : Forwards name items contents) :
    Lists elements contents ∧ ∀ again, Lists elements again →
      ∃ items, Passes arguments items ∧ Forwards name items again := by
  unfold wrappedElements at helements
  split at helements
  · cases helements
  · next hfirst =>
    rw [Bool.not_eq_true] at hfirst
    by_cases hcall : name = "call"
    · rw [if_pos hcall] at helements
      cases helements
      rw [Forwards, if_pos hcall] at h
      subst h
      refine ⟨passes_of_drop hfirst hpasses, fun again hagain => ?_⟩
      obtain ⟨all, hall, htail⟩ := exists_passes hfirst hagain
      exact ⟨all, hall, by rw [Forwards, if_pos hcall, htail]⟩
    · rw [if_neg hcall] at helements
      rw [Forwards, if_neg hcall] at h
      have hforwards : ∀ {items again}, Spreads items again → Forwards name items again :=
        fun h => by rwa [Forwards, if_neg hcall]
      match arguments, items, hpasses with
      | [], _, .nil =>
        cases helements
        have hmissing : ([] : List Source)[1]? = none := rfl
        cases h with
        | missing =>
          refine ⟨.nil, fun again hagain => ?_⟩
          cases hagain
          exact ⟨[], .nil, hforwards (.missing hmissing)⟩
        | nullish h => cases h
        | array h => cases h
        | elsewhere _ h => cases h
      | .spread _ _ :: _, _, _ => cases hfirst
      | [.expression p first], _, .expression _ _ .nil =>
        cases helements
        cases h with
        | missing =>
          refine ⟨.nil, fun again hagain => ?_⟩
          cases hagain
          exact ⟨_, .expression p first .nil, hforwards (.missing rfl)⟩
        | nullish h => cases h
        | array h => cases h
        | elsewhere _ h => cases h
      | .expression _ _ :: .spread _ _ :: _, _, _ =>
        exact nomatch hspread.resolve_left hcall
      | .expression p first :: .expression q list :: rest, _, .expression _ _ (.expression _ _ ht) =>
        obtain ⟨hlists, hagain⟩ := lists_of_spreads rfl helements h
        refine ⟨hlists, fun again hnew => ⟨_, .expression p first (.expression q list ht), ?_⟩⟩
        exact hforwards (hagain again hnew)

theorem overlooks_wrapper_iff {e object : Expr} {name : String}
    {arguments : List (Argument Expr)} {f : ℕ} (hmember : namedMember e = some (name, object))
    (hwrapper : isWrapper name = true) (hvalue : literalValue object name = none) :
    Overlooks f e arguments [] ↔
      (∃ elements, wrappedElements name arguments = some elements ∧ MayBind f object ∧
        stops elements = false) ∨ (name = "apply" ∧ listIsSpread arguments = true) := by
  constructor
  · intro h
    cases h with
    | wrapper hmember' _ _ hbind helements hstops =>
      obtain ⟨rfl, rfl⟩ := Prod.mk.inj (Option.some.inj (hmember.symm.trans hmember'))
      exact Or.inl ⟨_, helements, hbind, hstops⟩
    | applySpread hmember' _ =>
      obtain ⟨rfl, rfl⟩ := Prod.mk.inj (Option.some.inj (hmember.symm.trans hmember'))
      exact Or.inr ⟨rfl, rfl⟩
    | arm harm => exact nomatch harm.symm.trans (selectedArm_of_namedMember hmember)
    | method hmember' hwrapper' =>
      obtain ⟨rfl, rfl⟩ := Prod.mk.inj (Option.some.inj (hmember.symm.trans hmember'))
      exact nomatch hwrapper.symm.trans hwrapper'
    | ownWrapper hmember' _ hvalue' =>
      obtain ⟨rfl, rfl⟩ := Prod.mk.inj (Option.some.inj (hmember.symm.trans hmember'))
      exact nomatch hvalue.symm.trans hvalue'
    | _ => cases hmember
  · rintro (⟨elements, helements, hbind, hstops⟩ | ⟨rfl, hlist⟩)
    · exact .wrapper hmember hwrapper hvalue hbind helements hstops
    · match arguments, hlist with
      | .expression _ _ :: .spread _ _ :: _, _ => exact .applySpread hmember hvalue

/-- The slots of a call whose callee is a `call` or `apply`. -/
theorem maps_wrapper_iff {e object : Expr} {name : String} {arguments : List (Argument Expr)}
    {f : ℕ} (hplaces : (e.positions ++ positionsOfArguments arguments).Nodup)
    (hmember : namedMember e = some (name, object)) (hwrapper : isWrapper name = true)
    (hfunction : invokedFrom false e = .function f)
    (henters : ∃ received, CallEnters e arguments f received) :
    (∀ received, CallEnters e arguments f received →
      Maps (effectiveArguments e arguments) received) ↔ ¬ Overlooks f e arguments [] := by
  have hobject : invokedFrom false object = .function f := by
    rw [invokedFrom_member false hmember] at hfunction
    have hname : name = "call" ∨ name = "apply" := by simpa [isWrapper] using hwrapper
    rwa [if_pos ⟨hname, rfl⟩] at hfunction
  have hiff : ∀ received, CallEnters e arguments f received ↔ _ := fun _ =>
    callEnters_wrapper_iff hmember hwrapper hobject
  obtain ⟨received₀, h₀⟩ := henters
  obtain ⟨this₀, bound₀, items₀, contents₀, hrefers₀, hleads₀, hpasses₀, hforwards₀, -⟩ :=
    (hiff received₀).mp h₀
  obtain ⟨ho₀, hget₀, hagain₀⟩ := refers_namedMember hmember hrefers₀
  have hreduced := reduced_of_invoked hobject ho₀
  have hvalue : literalValue object name = none := by
    unfold literalValue
    split
    · next properties hpeel =>
      have heval := eval_peel ho₀
      rw [hpeel] at heval
      cases heval
      exact absurd rfl (hreduced.not_object _)
    · rfl
  have hmethod : ∀ {w}, w.isFunction = true →
      Get w name (.method (if name = "call" then .call else .apply)) := by
    intro w hw
    refine .method hw ?_
    by_cases hcall : name = "call"
    · subst hcall
      rfl
    · have happly : name = "apply" := by simpa [isWrapper, hcall] using hwrapper
      subst happly
      rfl
  rw [overlooks_wrapper_iff hmember hwrapper hvalue]
  have hslots : effectiveArguments e arguments =
      match wrappedElements name arguments with
      | some elements => mappedElements elements
      | none => ([], false) := by
    have h := argumentsThen_member arguments [] hmember
    rw [if_pos hwrapper] at h
    refine Eq.trans h ?_
    cases wrappedElements name arguments with
    | none => rfl
    | some elements => exact congrArg mappedElements (List.append_nil elements)
  have hsome : (leads this₀).isSome := by rw [hleads₀]; rfl
  -- an execution with other bound arguments, and with another list passed on
  have hrun : ∀ {bound items contents}, Binds object f bound → Passes arguments items →
      Forwards name items contents → CallEnters e arguments f (bound ++ contents) := by
    intro bound items contents hbinds hpasses hforwards
    obtain ⟨w, hw, hleads⟩ := hreduced.again hsome hbinds
    have hrefers := hagain₀ w _ hw (hmethod (isFunction_of_leads hleads))
    exact (hiff _).mpr ⟨w, bound, items, contents, hrefers, hleads, hpasses, hforwards, rfl⟩
  have hbinds₀ := (hreduced.binds hleads₀).2
  by_cases hlist : name = "apply" ∧ listIsSpread arguments = true
  · obtain ⟨rfl, hlist⟩ := hlist
    refine iff_of_false (fun h => ?_) (fun h => h (Or.inr ⟨rfl, hlist⟩))
    match arguments, hlist with
    | .expression p first :: .spread q list :: rest, _ =>
      obtain ⟨items, hitems⟩ := exists_lists (argumentElements rest)
      have hpasses : Passes (.expression p first :: .spread q list :: rest)
          (.of p first :: .spreadOf q 0 :: items) := .expression p first (.spread q list 1 hitems)
      have hforwards : Forwards "apply" (.of p first :: .spreadOf q 0 :: items)
          [.itemOf (.spreadOf q 0) 0] := .elsewhere 1 rfl fun _ _ heq => nomatch heq
      have hmaps := h _ (hrun hbinds₀ hpasses hforwards)
      rw [hslots] at hmaps
      have hcomplete : [] = bound₀ ++ [Source.itemOf (.spreadOf q 0) 0] := hmaps.2 rfl
      exact List.append_ne_nil_of_right_ne_nil _ (List.cons_ne_nil _ _) hcomplete.symm
  · have hspread : name = "call" ∨ listIsSpread arguments = false := by
      by_cases hcall : name = "call"
      · exact Or.inl hcall
      · have happly : name = "apply" := by simpa [isWrapper, hcall] using hwrapper
        exact Or.inr (Bool.eq_false_iff.mpr fun h => hlist ⟨happly, h⟩)
    rw [or_iff_left hlist, hslots]
    cases helements : wrappedElements name arguments with
    | none =>
      exact ⟨fun _ ⟨_, h, _⟩ => (nomatch h), fun _ _ _ => maps_nothing _⟩
    | some elements =>
      have hdisjoint : ∀ p ∈ object.positions, p ∉ positionsOfElements elements := by
        intro p hp hq
        have hsub := positions_wrappedElements helements
        have hdrop : positionsOfArguments (arguments.drop 1) ⊆ positionsOfArguments arguments := by
          cases arguments with
          | nil => exact List.Subset.refl _
          | cons first rest => cases first <;> exact List.subset_append_right _ _
        exact List.disjoint_of_nodup_append hplaces
          ((positions_namedMember hmember).subset hp) (hdrop (hsub.subset hq))
      have hexists : (∃ found, some elements = some found ∧ MayBind f object ∧
          stops found = false) ↔ MayBind f object ∧ stops elements = false :=
        ⟨fun ⟨_, heq, h⟩ => Option.some.inj heq ▸ h, fun h => ⟨elements, rfl, h⟩⟩
      rw [hexists, ← maps_bound_iff hdisjoint]
      constructor
      · intro h bound contents hbinds hcontents
        obtain ⟨-, hagain⟩ :=
          lists_of_forwards hspread helements hpasses₀ hforwards₀
        obtain ⟨items, hpasses, hforwards⟩ := hagain contents hcontents
        exact h _ (hrun hbinds hpasses hforwards)
      · intro h received hcall
        obtain ⟨this, bound, items, contents, hrefers, hleads, hpasses, hforwards, rfl⟩ :=
          (hiff received).mp hcall
        obtain ⟨ho, -, -⟩ := refers_namedMember hmember hrefers
        have hbinds := ((reduced_of_invoked hobject ho).binds hleads).2
        obtain ⟨hcontents, -⟩ :=
          lists_of_forwards hspread helements hpasses hforwards
        exact h bound contents hbinds hcontents

/-! ### Every call -/

/-- In every execution of the call that enters the function `f`, the slots are the arguments that it
receives. -/
def ArgumentsRight (callee : Expr) (arguments : List (Argument Expr)) (f : ℕ) : Prop :=
  ∀ received, CallEnters callee arguments f received →
    Maps (effectiveArguments callee arguments) received

/-- **The arguments of a call.**  Where a call enters the function that `invoked_callee` finds, the
slots are the arguments that the function receives in every execution, exactly when nothing is
overlooked. -/
theorem maps_iff (callee : Expr) (arguments : List (Argument Expr)) (f : ℕ)
    (hplaces : (Expr.call callee arguments).positions.Nodup)
    (hfunction : invokedCallee callee = .function f)
    (henters : ∃ received, CallEnters callee arguments f received) :
    ArgumentsRight callee arguments f ↔ ¬ Overlooks f callee arguments [] := by
  induction hn : sizeOf callee using Nat.strong_induction_on generalizing callee with
  | _ n ih =>
    subst hn
    have hother : (∀ inner, callee ≠ .paren inner) →
        (ArgumentsRight callee arguments f ↔ ¬ Overlooks f callee arguments []) := by
      intro hparen
      by_cases hwrapper : ∃ name object, namedMember callee = some (name, object) ∧
          isWrapper name = true
      · obtain ⟨name, object, hmember, hwrapper⟩ := hwrapper
        exact maps_wrapper_iff hplaces hmember hwrapper hfunction henters
      · refine maps_plain_iff hplaces hparen hfunction (fun name object hmember => ?_) henters
        exact Bool.eq_false_iff.mpr fun h => hwrapper ⟨name, object, hmember, h⟩
    cases callee with
    | paren inner =>
      have hover : Overlooks f (.paren inner) arguments [] ↔ Overlooks f inner arguments [] := by
        constructor
        · intro h
          cases h with
          | paren h => exact h
          | arm harm => cases harm
          | method hmember => cases hmember
          | ownWrapper hmember => cases hmember
          | wrapper hmember => cases hmember
          | applySpread hmember => cases hmember
        · exact .paren
      rw [invokedCallee, invokedFrom_paren] at hfunction
      have hinner := ih _ (by simp only [Expr.paren.sizeOf_spec]; omega) inner hplaces hfunction
        (henters.imp fun _ => callEnters_paren_iff.mp) rfl
      rw [hover, ← hinner]
      refine forall_congr' fun received => ?_
      rw [callEnters_paren_iff, effectiveArguments, argumentsThen_paren]
      rfl
    | _ => exact hother (by simp)

/-- `(function() \x7b…\x7d).bind(null, true)`. -/
def boundFunction : Expr :=
  .call (.staticMember (.function 0) "bind") [.expression 0 .null, .expression 1 (.boolean true)]

theorem bindMember_function : bindMember (.staticMember (.function 0) "bind") =
    some (.function 0) := by
  have hpeel : peel (.function 0) = .function 0 := by
    unfold peel
    rfl
  have hself := invokedFrom_member (e := .staticMember (.function 0) "bind") false rfl
  rw [bindMember, invokedCallee, hself, literalValue, hpeel]
  rfl

theorem eval_boundFunction : Eval boundFunction (.bound (.function 0) [.of 1 (.boolean true)]) := by
  have hmember : Refers (.staticMember (.function 0) "bind") (.function 0) (.method .bind) :=
    .staticMember (.function 0) (.method rfl (by decide))
  have hpasses : Passes [.expression 0 .null, .expression 1 (.boolean true)]
      [.of 0 .null, .of 1 (.boolean true)] := .expression 0 .null (.expression 1 _ .nil)
  exact .bound hmember rfl hpasses

theorem invokedFrom_boundFunction (lost : Bool) :
    invokedFrom lost boundFunction = .function 0 := by
  rw [boundFunction, invokedFrom_call, bindMember_function]
  exact invokedFrom_stuck (e := .function 0) lost (fun _ => nofun) (fun _ _ => nofun)
    (fun _ _ => nofun) rfl rfl

theorem callEnters_boundFunction {callee : Expr}
    (h : Refers callee .undefined (.bound (.function 0) [.of 1 (.boolean true)])) :
    CallEnters callee [.expression 2 (.boolean false)] 0
      [.of 1 (.boolean true), .of 2 (.boolean false)] := by
  have hpasses : Passes [.expression 2 (.boolean false)] [.of 2 (.boolean false)] :=
    .expression 2 (.boolean false) .nil
  have henters : Enters .undefined (.bound (.function 0) [.of 1 (.boolean true)])
      [.of 2 (.boolean false)] 0 ([.of 1 (.boolean true)] ++ [.of 2 (.boolean false)]) :=
    enters_of_leads rfl
  exact ⟨_, _, _, h, hpasses, henters⟩

/-- `(true, (function() \x7b…\x7d).bind(null, true))(false)`. -/
theorem maps_iff_sequence :
    ArgumentsRight (.sequence [.boolean true] boundFunction) [.expression 2 (.boolean false)] 0 ↔
      ¬ Overlooks 0 (.sequence [.boolean true] boundFunction)
        [.expression 2 (.boolean false)] [] :=
  maps_iff _ _ 0 (by decide)
    (by rw [invokedCallee, invokedFrom_sequence, invokedFrom_boundFunction])
    ⟨_, callEnters_boundFunction (.value rfl (.sequence eval_boundFunction))⟩

/-- `(true ? (function() \x7b…\x7d).bind(null, true) : null)(false)`: the bound argument is left
out. -/
theorem not_right_conditional :
    ¬ ∀ f, invokedCallee (.conditional (.boolean true) boundFunction .null) = .function f →
      ArgumentsRight (.conditional (.boolean true) boundFunction .null)
        [.expression 2 (.boolean false)] f := by
  intro h
  have harm : selectedArm (.conditional (.boolean true) boundFunction .null) =
    some boundFunction := rfl
  have hright := h 0 (by rw [invokedCallee, invokedFrom_arm false harm, invokedFrom_boundFunction])
  have hmaps := hright _ (callEnters_boundFunction
    (.value rfl (.consequent (.boolean true) (by decide) eval_boundFunction)))
  have hslots : effectiveArguments (.conditional (.boolean true) boundFunction .null)
      [.expression 2 (.boolean false)] = ([some (2, .boolean false)], true) :=
    argumentsThen_value _ [] (by simp) (by simp) (by simp) rfl
  rw [hslots] at hmaps
  cases hmaps.2 rfl

end Whatspec.Scan.Callees

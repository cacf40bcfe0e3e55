import Whatspec.Scan.CalleeRuns

/-!
# What a callee leads to

Where the loop of `invoked_callee` takes a callee to a function, the values of the callee are that
function with the arguments that are bound to it on the way.

* `eval_peel`, `eval_namedMember` and `eval_bindMember` say what the readers of a callee preserve;
* `Binds` are the arguments bound on the way;
* **`reduced_of_invoked`**: the values of the callee lead to the function with these, or nowhere.
-/

namespace Whatspec.Scan.Callees

/-! ### Decided tests -/

mutual

theorem truthy_of_alwaysTrue : ∀ {t : Expr} {v : Value}, alwaysTrue t = true → Eval t v →
    v.truthy = some true
  | .boolean _, _, h, .boolean _ => congrArg some h
  | .number _, _, h, .number _ => congrArg some h
  | .bigint digits, _, h, .bigint _ => by
    obtain ⟨c, hc, hne⟩ := List.any_eq_true.mp h
    have hall : digits.toList.all (· == '0') = false := by
      rw [List.all_eq_false]
      exact ⟨c, hc, by simpa using hne⟩
    rw [Value.truthy, hall]
    rfl
  | .string _, _, h, .string _ => congrArg some h
  | .template (some _), _, h, .template _ => congrArg some h
  | .paren e, _, h, .paren heval => truthy_of_alwaysTrue (t := e) h heval
  | .unary .logicalNot _, _, h, @Eval.logicalNot _ _ value heval hne => by
    rw [truthy_of_alwaysFalse h heval] at hne
    cases value with
    | true => rfl
    | false => exact absurd rfl hne

theorem truthy_of_alwaysFalse : ∀ {t : Expr} {v : Value}, alwaysFalse t = true → Eval t v →
    v.truthy = some false
  | .boolean value, _, h, .boolean _ => by
    rw [alwaysFalse, Bool.not_eq_true'] at h
    rw [h]
    rfl
  | .number _, _, h, .number _ => by
    rw [alwaysFalse] at h
    rw [Value.truthy, h]
    rfl
  | .bigint digits, _, h, .bigint _ => by
    rw [alwaysFalse] at h
    rw [Value.truthy, h]
    rfl
  | .null, _, _, .null => rfl
  | .string _, _, h, .string _ => by
    rw [alwaysFalse, beq_iff_eq] at h
    rw [h]
    rfl
  | .template (some _), _, h, .template _ => by
    rw [alwaysFalse, Option.any_some, beq_iff_eq] at h
    rw [h]
    rfl
  | .paren e, _, h, .paren heval => truthy_of_alwaysFalse (t := e) h heval
  | .unary .logicalNot _, _, h, @Eval.logicalNot _ _ value heval hne => by
    rw [truthy_of_alwaysTrue h heval] at hne
    cases value with
    | true => exact absurd rfl hne
    | false => rfl

end

theorem nullish_of_certainlyNullish : ∀ {t : Expr} {v : Value}, certainlyNullish t = true →
    Eval t v → v.nullish = some true
  | .null, _, _, .null => rfl
  | .paren e, _, h, .paren heval => nullish_of_certainlyNullish (t := e) h heval
  | .unary .void _, _, _, .void _ => rfl

theorem goesOn_of_certain {operator : LogicalOperator} {left : Expr} {l : Value}
    (h : logicalRightIsCertain operator left = true) (hl : Eval left l) :
    operator.goesOn l = some true := by
  cases operator with
  | and => exact truthy_of_alwaysTrue h hl
  | or => rw [LogicalOperator.goesOn, truthy_of_alwaysFalse h hl]; rfl
  | coalesce => exact nullish_of_certainlyNullish h hl

/-- A decided conditional or short circuit has the values of its arm, and no others. -/
theorem eval_selectedArm_and {e arm : Expr} {v : Value} (harm : selectedArm e = some arm)
    (h : Eval e v) : Eval arm v ∧ ∀ w, Eval arm w → Eval e w := by
  unfold selectedArm at harm
  split at harm
  · next test consequent alternate =>
    split at harm
    · next htrue =>
      cases harm
      cases h with
      | consequent ht hne hv => exact ⟨hv, fun _ hw => .consequent ht hne hw⟩
      | alternate ht hne _ => exact absurd (truthy_of_alwaysTrue htrue ht) hne
    · split at harm
      · next hfalse =>
        cases harm
        cases h with
        | consequent ht hne _ => exact absurd (truthy_of_alwaysFalse hfalse ht) hne
        | alternate ht hne hv => exact ⟨hv, fun _ hw => .alternate ht hne hw⟩
      · cases harm
  · next operator left right =>
    split at harm
    · next hcertain =>
      cases harm
      cases h with
      | logicalLeft hl hne => exact absurd (goesOn_of_certain hcertain hl) hne
      | logicalRight hl hne hv => exact ⟨hv, fun _ hw => .logicalRight hl hne hw⟩
    · cases harm
  · cases harm

theorem eval_selectedArm {e arm : Expr} {v : Value} (harm : selectedArm e = some arm)
    (h : Eval e v) : Eval arm v :=
  (eval_selectedArm_and harm h).1

theorem eval_of_selectedArm {e arm : Expr} {v w : Value} (harm : selectedArm e = some arm)
    (h : Eval e v) (hw : Eval arm w) : Eval e w :=
  (eval_selectedArm_and harm h).2 w hw

theorem eval_peel {e : Expr} {v : Value} (h : Eval e v) : Eval (peel e) v := by
  revert h
  refine peel_induction (P := fun e r => Eval e v → Eval r v) ?_ ?_ ?_ ?_ e
  · intro e r ih h
    cases h with
    | paren h => exact ih h
  · intro first e r ih h
    cases h with
    | sequence h => exact ih h
  · exact fun e arm r harm ih h => ih (eval_selectedArm harm h)
  · exact fun e _ h => h

/-! ### Members -/

theorem names_of_namedMember {object key : Expr} {name name' : String} {o : Expr} {k : Value}
    (h : namedMember (.computedMember object key) = some (name, o)) (hk : Eval key k)
    (hnames : k.names name') : o = object ∧ name' = name := by
  rw [namedMember] at h
  have hpeel := eval_peel hk
  split at h
  · next value hkey =>
    cases h
    rw [hkey] at hpeel
    cases hpeel
    exact ⟨rfl, (hnames _ rfl).symm⟩
  · next text hkey =>
    cases h
    rw [hkey] at hpeel
    cases hpeel
    exact ⟨rfl, (hnames _ rfl).symm⟩
  · cases h

/-- A member has the values that its object has for its name. -/
theorem eval_namedMember {e o : Expr} {name : String} {v : Value}
    (h : namedMember e = some (name, o)) (hv : Eval e v) :
    ∃ ov, Eval o ov ∧ Get ov name v ∧ ∀ ow w, Eval o ow → Get ow name w → Eval e w := by
  cases hv with
  | staticMember ho hget =>
    cases h
    exact ⟨_, ho, hget, fun _ _ => .staticMember⟩
  | computedMember ho hk hnames hget =>
    obtain ⟨rfl, rfl⟩ := names_of_namedMember h hk hnames
    exact ⟨_, ho, hget, fun _ _ ho' => .computedMember ho' hk hnames⟩
  | _ => cases h

theorem refers_namedMember {e o : Expr} {name : String} {this v : Value}
    (h : namedMember e = some (name, o)) (hv : Refers e this v) :
    Eval o this ∧ Get this name v ∧ ∀ ow w, Eval o ow → Get ow name w → Refers e ow w := by
  cases hv with
  | paren => cases h
  | staticMember ho hget =>
    cases h
    exact ⟨ho, hget, fun _ _ => .staticMember⟩
  | computedMember ho hk hnames hget =>
    obtain ⟨rfl, rfl⟩ := names_of_namedMember h hk hnames
    exact ⟨ho, hget, fun _ _ ho' => .computedMember ho' hk hnames⟩
  | value href =>
    unfold namedMember at h
    split at h
    · cases href
    · cases href
    · cases h

/-- The last entry that may write a name is the one that `owned_property` finds, if it finds any. -/
theorem ownedFrom_append {name : String} {last : ObjectEntry Expr}
    {rest : List (ObjectEntry Expr)} {p : ObjectEntry Expr} :
    ∀ {skipped : List (ObjectEntry Expr)}, (∀ q ∈ skipped, definesName name q = false) →
      ownedFrom name (skipped ++ last :: rest) = some p → ownedFrom name (last :: rest) = some p
  | [], _, h => h
  | .spread argument :: skipped, hskipped, h => by
    rw [List.cons_append, ownedFrom] at h
    split at h
    · cases h
    · exact ownedFrom_append (fun q hq => hskipped q (List.mem_cons_of_mem _ hq)) h
  | .property key computed method shorthand kind value :: skipped, hskipped, h => by
    rw [List.cons_append, ownedFrom, hskipped _ List.mem_cons_self, if_neg Bool.false_ne_true] at h
    split at h
    · cases h
    · exact ownedFrom_append (fun q hq => hskipped q (List.mem_cons_of_mem _ hq)) h

/-- What the literal ends up with for a name is what `owned_property` finds. -/
theorem owns_ownedProperty {properties : List (ObjectEntry Expr)} {name : String} {value : Expr}
    {p : ObjectEntry Expr} (h : Owns properties name value)
    (hp : ownedProperty properties name = some p) :
    ∃ key computed method shorthand, p = .property key computed method shorthand .init value := by
  obtain ⟨before, after, key, computed, method, shorthand, rfl, hmay, hafter⟩ := h
  rw [ownedProperty, List.reverse_append, List.reverse_cons, List.append_assoc] at hp
  have hfound := ownedFrom_append (fun q hq => hafter q (List.mem_reverse.mp hq)) hp
  rw [ownedFrom] at hfound
  split at hfound
  · cases hfound
    exact ⟨key, computed, method, shorthand, rfl⟩
  · next hdefines =>
    obtain ⟨hcomputed, hkey⟩ := hmay.resolve_left hdefines
    rw [hcomputed, hkey] at hfound
    cases hfound

/-! ### Functions with arguments bound -/

/-- The function a value leads to when it is called, and the arguments that are bound to it. -/
def leads : Value → Option (ℕ × List Source)
  | .function f => some (f, [])
  | .bound target arguments => (leads target).map fun found => (found.1, found.2 ++ arguments)
  | _ => none

theorem isFunction_of_leads {v : Value} {found : ℕ × List Source} (h : leads v = some found) :
    v.isFunction = true := by
  cases v with
  | function => rfl
  | bound => rfl
  | _ => cases h

/-- An expression is a function, with arguments bound to it on the way. -/
inductive Binds : Expr → ℕ → List Source → Prop where
  | function (f : ℕ) : Binds (.function f) f []
  | paren {e : Expr} {f : ℕ} {bound : List Source} : Binds e f bound → Binds (.paren e) f bound
  | sequence {first : List Expr} {last : Expr} {f : ℕ} {bound : List Source} :
      Binds last f bound → Binds (.sequence first last) f bound
  | arm {e arm : Expr} {f : ℕ} {bound : List Source} : selectedArm e = some arm →
      Binds arm f bound → Binds e f bound
  | bind {callee receiver : Expr} {arguments : List (Argument Expr)} {f : ℕ}
      {bound items : List Source} : bindMember callee = some receiver → Binds receiver f bound →
      Passes arguments items → Binds (.call callee arguments) f (bound ++ items.tail)
  | method {e object value : Expr} {name : String} {f : ℕ} {bound : List Source} :
      namedMember e = some (name, object) → literalValue object name = some value →
      Binds value f bound → Binds e f bound

theorem binds_paren_iff {e : Expr} {f : ℕ} {bound : List Source} :
    Binds (.paren e) f bound ↔ Binds e f bound := by
  constructor
  · intro h
    cases h with
    | paren h => exact h
    | arm harm => cases harm
    | method hmember => cases hmember
  · exact .paren

theorem binds_sequence_iff {first : List Expr} {last : Expr} {f : ℕ} {bound : List Source} :
    Binds (.sequence first last) f bound ↔ Binds last f bound := by
  constructor
  · intro h
    cases h with
    | sequence h => exact h
    | arm harm => cases harm
    | method hmember => cases hmember
  · exact .sequence

theorem binds_arm_iff {e arm : Expr} {f : ℕ} {bound : List Source}
    (harm : selectedArm e = some arm) : Binds e f bound ↔ Binds arm f bound := by
  constructor
  · intro h
    cases h with
    | arm harm' h =>
      obtain rfl := Option.some.inj (harm.symm.trans harm')
      exact h
    | method hmember => exact nomatch harm.symm.trans (selectedArm_of_namedMember hmember)
    | _ => cases harm
  · exact .arm harm

theorem binds_method_iff {e object value : Expr} {name : String} {f : ℕ} {bound : List Source}
    (hmember : namedMember e = some (name, object))
    (hvalue : literalValue object name = some value) : Binds e f bound ↔ Binds value f bound := by
  constructor
  · intro h
    cases h with
    | method hmember' hvalue' h =>
      obtain ⟨rfl, rfl⟩ := Prod.mk.inj (Option.some.inj (hmember.symm.trans hmember'))
      obtain rfl := Option.some.inj (hvalue.symm.trans hvalue')
      exact h
    | arm harm => exact nomatch harm.symm.trans (selectedArm_of_namedMember hmember)
    | _ => cases hmember
  · exact .method hmember hvalue

theorem binds_call_iff {callee receiver : Expr} {arguments : List (Argument Expr)} {f : ℕ}
    {bound : List Source} (hbind : bindMember callee = some receiver) :
    Binds (.call callee arguments) f bound ↔ ∃ inner items, Binds receiver f inner ∧
      Passes arguments items ∧ bound = inner ++ items.tail := by
  constructor
  · intro h
    cases h with
    | bind hbind' h hpasses =>
      obtain rfl := Option.some.inj (hbind.symm.trans hbind')
      exact ⟨_, _, h, hpasses, rfl⟩
    | arm harm => cases harm
    | method hmember => cases hmember
  · rintro ⟨inner, items, h, hpasses, rfl⟩
    exact .bind hbind h hpasses

/-- The `bind` of a function is taken of what `bind_member` finds. -/
theorem eval_bindMember : ∀ {callee receiver : Expr} {this : Value} {found : ℕ × List Source},
    Refers callee this (.method .bind) → leads this = some found →
      bindMember callee = some receiver → Eval receiver this ∧
        ∀ w, Eval receiver w → w.isFunction = true → Refers callee w (.method .bind) := by
  intro callee
  induction hn : sizeOf callee using Nat.strong_induction_on generalizing callee with
  | _ n ih =>
    subst hn
    intro receiver this found hrefers hleads hbind
    have hnamed : ∀ {o name}, namedMember callee = some (name, o) → Eval receiver this ∧
        ∀ w, Eval receiver w → w.isFunction = true → Refers callee w (.method .bind) := by
      intro o name hmember
      obtain ⟨ho, hget, hagain⟩ := refers_namedMember hmember hrefers
      cases hget with
      | own => cases hleads
      | @method _ _ m _ hname =>
        have hbindName : name = "bind" := by
          unfold Method.named at hname
          split at hname <;> first | rfl | cases hname
        subst hbindName
        have hliteral : literalValue o "bind" = none := by
          unfold literalValue
          split
          · next properties hpeel =>
            have heval := eval_peel ho
            rw [hpeel] at heval
            cases heval
            cases hleads
          · rfl
        have hinvoked : invokedCallee callee = callee := by
          rw [invokedCallee, invokedFrom_member false hmember, hliteral]
          rfl
        have hreceiver : bindMember callee = some o := by
          have hkept : referenceDiscarded callee = false := by
            unfold namedMember at hmember
            split at hmember
            · rfl
            · rfl
            · cases hmember
          rw [bindMember, hkept, hinvoked, hmember]
          rfl
        obtain rfl := Option.some.inj (hreceiver.symm.trans hbind)
        exact ⟨ho, fun w hw hfun => hagain w _ hw (.method hfun rfl)⟩
    cases hrefers with
    | @paren e _ _ hinner =>
      rw [bindMember_paren] at hbind
      obtain ⟨heval, hagain⟩ := ih (sizeOf e)
        (by simp only [Expr.paren.sizeOf_spec]; omega) rfl hinner hleads hbind
      exact ⟨heval, fun w hw hfun => .paren (hagain w hw hfun)⟩
    | staticMember ho hget => exact hnamed rfl
    | @computedMember object key _ _ _ name ho hk hnames hget =>
      cases hmember : namedMember (.computedMember object key) with
      | some found =>
        obtain ⟨name', o'⟩ := found
        exact hnamed hmember
      | none =>
        have hinvoked := invokedFrom_stuck (e := .computedMember object key) false
          (by simp) (by simp) (by simp) rfl hmember
        rw [bindMember, invokedCallee, hinvoked, hmember] at hbind
        cases hbind
    | value => cases hleads

/-- What is known of a value of an expression that the loop of `invoked_callee` takes to the function
`g`: it is no literal, and where it leads to a function, this is `g` with the arguments that are bound
on the way, which another execution may choose again. -/
structure Reduced (e : Expr) (g : ℕ) (v : Value) : Prop where
  not_object : ∀ properties, v ≠ .object properties
  binds : ∀ {f bound}, leads v = some (f, bound) → f = g ∧ Binds e g bound
  again : (leads v).isSome → ∀ {bound}, Binds e g bound →
    ∃ w, Eval e w ∧ leads w = some (g, bound)

theorem Reduced.of_foreign {e : Expr} {g : ℕ} : Reduced e g .foreign :=
  ⟨fun _ => nofun, nofun, nofun⟩

theorem Reduced.of_method {e : Expr} {g : ℕ} {m : Method} : Reduced e g (.method m) :=
  ⟨fun _ => nofun, nofun, nofun⟩

/-- A literal whose method is taken is not seen through by the loop. -/
theorem reduced_member {e o : Expr} {name : String} {g : ℕ} {v : Value} {lost : Bool}
    (hmember : namedMember e = some (name, o)) (hinvoked : invokedFrom lost e = .function g)
    (hv : Eval e v)
    (ih : ∀ {part w lost}, sizeOf part < sizeOf e → invokedFrom lost part = .function g →
      Eval part w → Reduced part g w) : Reduced e g v := by
  obtain ⟨ov, ho, hget, hagain⟩ := eval_namedMember hmember hv
  have hsize : sizeOf o < sizeOf e := sizeOf_namedMember hmember
  cases hget with
  | method => exact .of_method
  | elsewhere => exact .of_foreign
  | @own properties _ value _ howns hvalue =>
    rw [invokedFrom_member lost hmember] at hinvoked
    split at hinvoked
    · exact absurd rfl ((ih hsize hinvoked ho).not_object properties)
    · split at hinvoked
      · next value' hliteral =>
        have hlt := (sizeOf_literalValue hliteral).trans hsize
        have hsame : value' = value := by
          unfold literalValue at hliteral
          have heval := eval_peel ho
          split at hliteral
          · next properties' hpeel =>
            rw [hpeel] at heval
            cases heval
            split at hliteral
            · next howned =>
              obtain ⟨_, _, _, _, hp⟩ := owns_ownedProperty howns howned
              cases hp
              exact (Option.some.inj hliteral).symm
            · cases hliteral
          · cases hliteral
        subst hsame
        have hreduced := ih hlt hinvoked hvalue
        refine ⟨hreduced.not_object, fun h => ?_, fun hsome bound hbinds => ?_⟩
        · obtain ⟨rfl, hbinds⟩ := hreduced.binds h
          exact ⟨rfl, .method hmember hliteral hbinds⟩
        · have hinner := (binds_method_iff hmember hliteral).mp hbinds
          obtain ⟨w, hw, hleads⟩ := hreduced.again hsome hinner
          exact ⟨w, hagain _ _ ho (.own howns hw), hleads⟩
      · next hliteral =>
        rw [hinvoked] at hmember
        cases hmember

/-- **The values of a callee.**  Where the loop of `invoked_callee` takes an expression to a function,
its values are that function with the arguments bound on the way, or lead nowhere. -/
theorem reduced_of_invoked {e : Expr} {g : ℕ} {v : Value} {lost : Bool}
    (hinvoked : invokedFrom lost e = .function g) (hv : Eval e v) : Reduced e g v := by
  induction hn : sizeOf e using Nat.strong_induction_on generalizing e v lost with
  | _ n ih =>
    subst hn
    have harm : ∀ {arm}, selectedArm e = some arm → Reduced e g v := by
      intro arm harm
      rw [invokedFrom_arm lost harm] at hinvoked
      have hreduced := ih _ (sizeOf_selectedArm harm) hinvoked (eval_selectedArm harm hv) rfl
      refine ⟨hreduced.not_object, fun h => ?_, fun hsome bound hbinds => ?_⟩
      · obtain ⟨rfl, hbinds⟩ := hreduced.binds h
        exact ⟨rfl, .arm harm hbinds⟩
      · obtain ⟨w, hw, hleads⟩ := hreduced.again hsome ((binds_arm_iff harm).mp hbinds)
        exact ⟨w, eval_of_selectedArm harm hv hw, hleads⟩
    have hmember : ∀ {name o}, namedMember e = some (name, o) → Reduced e g v := fun hmember =>
      reduced_member hmember hinvoked hv fun hlt hpart hw => ih _ hlt hpart hw rfl
    have hstuck : (∀ inner, e ≠ .paren inner) → (∀ first last, e ≠ .sequence first last) →
        (∀ callee arguments, e ≠ .call callee arguments) → (∀ f, e ≠ .function f) →
          Reduced e g v := by
      intro hparen hsequence hcall hfunction
      cases hselected : selectedArm e with
      | some arm => exact harm hselected
      | none =>
        cases hnamed : namedMember e with
        | some found => exact hmember hnamed
        | none =>
          rw [invokedFrom_stuck lost hparen hsequence hcall hselected hnamed] at hinvoked
          exact absurd hinvoked (hfunction g)
    cases hv with
    | @paren inner _ hv =>
      rw [invokedFrom_paren] at hinvoked
      have hreduced := ih (sizeOf inner) (by simp only [Expr.paren.sizeOf_spec]; omega)
        hinvoked hv rfl
      refine ⟨hreduced.not_object, fun h => ?_, fun hsome bound hbinds => ?_⟩
      · obtain ⟨rfl, hbinds⟩ := hreduced.binds h
        exact ⟨rfl, .paren hbinds⟩
      · obtain ⟨w, hw, hleads⟩ := hreduced.again hsome (binds_paren_iff.mp hbinds)
        exact ⟨w, .paren hw, hleads⟩
    | @sequence first last _ hv =>
      rw [invokedFrom_sequence] at hinvoked
      have hreduced := ih (sizeOf last) (by simp only [Expr.sequence.sizeOf_spec]; omega)
        hinvoked hv rfl
      refine ⟨hreduced.not_object, fun h => ?_, fun hsome bound hbinds => ?_⟩
      · obtain ⟨rfl, hbinds⟩ := hreduced.binds h
        exact ⟨rfl, .sequence hbinds⟩
      · obtain ⟨w, hw, hleads⟩ := hreduced.again hsome (binds_sequence_iff.mp hbinds)
        exact ⟨w, .sequence hw, hleads⟩
    | call => exact .of_foreign
    | @bound callee arguments this items hrefers hfun hpasses =>
      rw [invokedFrom_call] at hinvoked
      cases hbind : bindMember callee with
      | none =>
        rw [hbind] at hinvoked
        cases hinvoked
      | some receiver =>
        rw [hbind] at hinvoked
        have hlt : sizeOf receiver < sizeOf (Expr.call callee arguments) := by
          have hobject := sizeOf_bindMember hbind
          simp only [Expr.call.sizeOf_spec]
          omega
        refine ⟨by simp, fun h => ?_, fun hsome bound hbinds => ?_⟩
        · obtain ⟨found, hfound, heq⟩ := Option.map_eq_some_iff.mp h
          obtain ⟨heval, -⟩ := eval_bindMember hrefers hfound hbind
          cases heq
          obtain ⟨rfl, hbinds⟩ := (ih _ hlt hinvoked heval rfl).binds hfound
          exact ⟨rfl, .bind hbind hbinds hpasses⟩
        · have hthis : (leads this).isSome := by
            rw [leads, Option.isSome_map] at hsome
            exact hsome
          obtain ⟨found, hfound⟩ := Option.isSome_iff_exists.mp hthis
          obtain ⟨heval, hagain⟩ := eval_bindMember hrefers hfound hbind
          obtain ⟨inner, items', hinner, hpasses', rfl⟩ := (binds_call_iff hbind).mp hbinds
          obtain ⟨w, hw, hleads⟩ := (ih _ hlt hinvoked heval rfl).again hthis hinner
          have hwfun := isFunction_of_leads hleads
          refine ⟨.bound w items'.tail, .bound (hagain w hw hwfun) hwfun hpasses', ?_⟩
          rw [leads, hleads]
          rfl
    | function f =>
      have hself := invokedFrom_stuck (e := .function f) lost (by simp) (by simp)
        (by simp) rfl rfl
      rw [hself] at hinvoked
      cases hinvoked
      refine ⟨by simp, fun h => ?_, fun _ bound hbinds => ?_⟩
      · cases h
        exact ⟨rfl, .function _⟩
      · cases hbinds with
        | function => exact ⟨_, .function _, rfl⟩
        | arm h => cases h
        | method h => cases h
    | _ => exact hstuck (by simp) (by simp) (by simp) (by simp)

end Whatspec.Scan.Callees

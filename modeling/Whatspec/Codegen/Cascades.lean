import Whatspec.Codegen.Guards
import Whatspec.Library.Cascade

/-!
# The cascades of generated response parsers

A response with several outcomes, and a union whose arms share a tag, are read by a cascade: each
alternative has a guard and a payload parser.  Where the pins of an alternative exclude every
later one, a payload that fails to parse ends the search at once.

* `emitOutcomeParse` and `emitTagCascade` are the cascades emitted, for any payload parsers;
* `outcomes_separated` and `tagArms_separated`: an alternative that ends the search keeps all
  later ones out;
* the main result: both cascades answer what trying the alternatives one by one answers.
-/

namespace Whatspec.Codegen

open Whatspec.Library

variable {ν π : Type}

/-- An outcome, as its cascade sees it: what it asserts, the errors it selects when its payload
is the bounded error payload, and what its payload parser answers. -/
structure Outcome (ν π : Type) where
  tag : String
  assertions : List ResponseAssertion
  errorArms : Option (List ErrorArm)
  payload : ν → Except String π

/-- An alternative as it is emitted. -/
structure EmittedArm (ν π : Type) where
  conditions : List Condition
  payload : ν → Except String π
  unique : Bool

/-- The arm of an emitted alternative. -/
def EmittedArm.arm (nodes : NodeReader ν) (a : EmittedArm ν π) : Arm ν String π where
  guard := fun node => a.conditions.all fun c => c.holds nodes node
  read := a.payload
  final := a.unique

/-- An alternative of the plain search. -/
def plainArm (nodes : NodeReader ν) (conditions : List Condition) (payload : ν → Except String π) :
    Arm ν String π where
  guard := fun node => conditions.all fun c => c.holds nodes node
  read := payload
  final := false

/-! ### Outcomes -/

def Outcome.pinConditions (v : Outcome ν π) : Except String (List Condition) := do
  let conditions ← assertionConditions v.assertions
  .ok (conditions ++ v.errorArms.toList.map .errorSelection)

/-- The pins pick this outcome alone among those not tried yet. -/
def Outcome.picksAlone (v : Outcome ν π) (later : List (Outcome ν π)) : Bool :=
  let mine := variantPins v.assertions
  !mine.isEmpty && !later.any fun o => pinsCanCoincide mine (variantPins o.assertions)

def emitOutcomeParse : List (Outcome ν π) → Except String (List (EmittedArm ν π))
  | [] => .ok []
  | v :: later => do
    let conditions ← v.pinConditions
    let steps ← emitOutcomeParse later
    .ok (⟨conditions, v.payload, v.picksAlone later⟩ :: steps)

/-- What the emitted outcome parser answers: the place of an outcome and its payload. -/
def runOutcomeParse (nodes : NodeReader ν) (enumName : String) (steps : List (EmittedArm ν π))
    (response : ν) : Except String (ℕ × π) :=
  match cascade 0 (steps.map (EmittedArm.arm nodes)) response with
  | .ok (some r) => .ok r
  | .ok none => .error (enumName ++ ": no response variant matched")
  | .error e => .error e

/-- The outcomes one by one: the first whose conditions hold and whose payload parses. -/
def plainOutcomes (nodes : NodeReader ν) (outcomes : List (Outcome ν π)) (response : ν) :
    Option (ℕ × π) :=
  firstSuccess 0 (outcomes.map fun v => plainArm nodes (v.pinConditions.toOption.getD []) v.payload)
    response

/-! ### Unions that share a tag -/

/-- An arm of a union: the attributes it pins, the children it requires, its payload parser. -/
structure TagArm (ν π : Type) where
  variant : String
  attrValues : List (String × String)
  children : List String
  payload : ν → Except String π

/-- The arm of a variant that asserts these. -/
def TagArm.ofAssertions (variant : String) (assertions : List ResponseAssertion)
    (payload : ν → Except String π) : TagArm ν π where
  variant := variant
  attrValues := assertions.filterMap fun a =>
    if a.kind = .attr then
      match a.name, a.value with
      | some name, some value => some (name, value)
      | _, _ => none
    else none
  children := assertions.filterMap fun a => if a.kind = .child then a.name else none
  payload := payload

def TagArm.conditions (a : TagArm ν π) : List Condition :=
  (a.attrValues.map fun p => .attrIs p.1 p.2) ++ a.children.map .hasChild

/-- Two arms pin one attribute to different values. -/
def TagArm.conflicts (a o : TagArm ν π) : Bool :=
  a.attrValues.any fun p => o.attrValues.any fun q => q.1 = p.1 && q.2 ≠ p.2

def emitTagCascade : List (TagArm ν π) → List (EmittedArm ν π)
  | [] => []
  | a :: later =>
    ⟨a.conditions, a.payload, !a.conditions.isEmpty && !later.any fun o => !a.conflicts o⟩ ::
      emitTagCascade later

/-- The node below a chain of optional children. -/
def descendOpt (nodes : NodeReader ν) (node : ν) : List String → Option ν
  | [] => some node
  | tag :: descend => (nodes.optionalChild node tag).bind fun n => descendOpt nodes n descend

/-- What the emitted read of a union answers. -/
def readTagUnion (nodes : NodeReader ν) (descend : List String) (arms : List (TagArm ν π))
    (node : ν) : Except String (Option (ℕ × π)) :=
  match descendOpt nodes node descend with
  | some n => cascade 0 ((emitTagCascade arms).map (EmittedArm.arm nodes)) n
  | none => .ok none

/-- The arms one by one. -/
def plainTagArms (nodes : NodeReader ν) (descend : List String) (arms : List (TagArm ν π))
    (node : ν) : Option (ℕ × π) :=
  (descendOpt nodes node descend).bind fun n =>
    firstSuccess 0 (arms.map fun a => plainArm nodes a.conditions a.payload) n

/-! ### Arms that end the search -/

section Separation

variable {nodes : NodeReader ν}

/-- The plain search does not look at which arms end it. -/
theorem firstSuccess_congr {arms arms' : List (Arm ν String π)} {node : ν} {i : ℕ}
    (h : List.Forall₂ (fun a b => a.guard = b.guard ∧ a.read = b.read) arms arms') :
    firstSuccess i arms node = firstSuccess i arms' node := by
  induction h generalizing i with
  | nil => rfl
  | cons hab _ ih =>
    rw [firstSuccess, firstSuccess, hab.1, hab.2]
    split_ifs
    · split
      · rfl
      · exact ih
    · exact ih

theorem Outcome.pinConditions_ok {v : Outcome ν π} {conditions : List Condition}
    (h : v.pinConditions = .ok conditions) :
    ∃ asserted, assertionConditions v.assertions = .ok asserted ∧
      ∀ c ∈ asserted, c ∈ conditions := by
  rw [pinConditions] at h
  cases hasserted : assertionConditions v.assertions with
  | error e =>
    rw [hasserted] at h
    cases h
  | ok asserted =>
    rw [hasserted] at h
    obtain rfl := Except.ok.inj h
    exact ⟨asserted, rfl, fun c hc => List.mem_append_left _ hc⟩

/-- What is emitted for the outcomes, in order. -/
theorem emitOutcomeParse_cons {v : Outcome ν π} {later : List (Outcome ν π)}
    {steps : List (EmittedArm ν π)} (h : emitOutcomeParse (v :: later) = .ok steps) :
    ∃ conditions rest, v.pinConditions = .ok conditions ∧ emitOutcomeParse later = .ok rest ∧
      steps = ⟨conditions, v.payload, v.picksAlone later⟩ :: rest := by
  rw [emitOutcomeParse] at h
  cases hconditions : v.pinConditions with
  | error e =>
    rw [hconditions] at h
    cases h
  | ok conditions =>
    cases hrest : emitOutcomeParse later with
    | error e =>
      rw [hconditions, hrest] at h
      cases h
    | ok rest =>
      rw [hconditions, hrest] at h
      exact ⟨conditions, rest, rfl, rfl, (Except.ok.inj h).symm⟩

/-- Every step comes from an outcome, with its conditions. -/
theorem emitOutcomeParse_mem {outcomes : List (Outcome ν π)} {steps : List (EmittedArm ν π)}
    (h : emitOutcomeParse outcomes = .ok steps) {b : EmittedArm ν π} (hb : b ∈ steps) :
    ∃ o ∈ outcomes, o.pinConditions = .ok b.conditions := by
  induction outcomes generalizing steps with
  | nil =>
    obtain rfl := Except.ok.inj h
    cases hb
  | cons v later ih =>
    obtain ⟨conditions, rest, hconditions, hrest, rfl⟩ := emitOutcomeParse_cons h
    rcases List.mem_cons.mp hb with rfl | hb
    · exact ⟨v, List.mem_cons_self, hconditions⟩
    · obtain ⟨o, ho, hcond⟩ := ih hrest hb
      exact ⟨o, List.mem_cons_of_mem _ ho, hcond⟩

theorem guard_eq_true {a : EmittedArm ν π} {node : ν} :
    (a.arm nodes).guard node = true ↔ ∀ c ∈ a.conditions, c.holds nodes node = true :=
  List.all_eq_true

theorem guard_eq_false {a : EmittedArm ν π} {node : ν} :
    (a.arm nodes).guard node = false ↔ ∃ c ∈ a.conditions, c.holds nodes node = false := by
  rw [EmittedArm.arm, List.all_eq_false]
  simp only [Bool.not_eq_true]

/-- **An outcome that ends the search keeps all later ones out.** -/
theorem outcomes_separated {outcomes : List (Outcome ν π)} {steps : List (EmittedArm ν π)}
    (h : emitOutcomeParse outcomes = .ok steps) :
    Separated (steps.map (EmittedArm.arm nodes)) := by
  induction outcomes generalizing steps with
  | nil =>
    obtain rfl := Except.ok.inj h
    exact .nil
  | cons v later ih =>
    obtain ⟨conditions, rest, hconditions, hrest, rfl⟩ := emitOutcomeParse_cons h
    rw [List.map_cons, Separated, List.pairwise_cons]
    refine ⟨fun arm harm hfinal node hguard => ?_, ih hrest⟩
    obtain ⟨b, hb, rfl⟩ := List.mem_map.mp harm
    obtain ⟨o, ho, hb'⟩ := emitOutcomeParse_mem hrest hb
    obtain ⟨asserted, hasserted, hsub⟩ := Outcome.pinConditions_ok hconditions
    obtain ⟨asserted', hasserted', hsub'⟩ := Outcome.pinConditions_ok hb'
    have hpins : pinsCanCoincide (variantPins v.assertions) (variantPins o.assertions) = false := by
      have halone : v.picksAlone later = true := hfinal
      rw [Outcome.picksAlone, Bool.and_eq_true, Bool.not_eq_true', Bool.not_eq_true',
        List.any_eq_false] at halone
      exact Bool.eq_false_iff.mpr (halone.2 o ho)
    rw [guard_eq_true] at hguard
    obtain ⟨c, hc, hfalse⟩ := not_both_hold hasserted hasserted' hpins fun c hc =>
      hguard c (hsub c hc)
    exact guard_eq_false.mpr ⟨c, hsub' c hc, hfalse⟩

theorem TagArm.conflicts_apart {a o : TagArm ν π} (h : a.conflicts o = true) {node : ν}
    (hnode : ∀ c ∈ a.conditions, c.holds nodes node = true) :
    ∃ c ∈ o.conditions, c.holds nodes node = false := by
  rw [conflicts, List.any_eq_true] at h
  obtain ⟨p, hp, hany⟩ := h
  obtain ⟨q, hq, hconflict⟩ := List.any_eq_true.mp hany
  rw [Bool.and_eq_true, decide_eq_true_eq, decide_eq_true_eq] at hconflict
  have hexcludes : (Pin.attr p.1 p.2).excludes (Pin.attr q.1 q.2) = true := by
    rw [Pin.excludes, Bool.and_eq_true, decide_eq_true_eq, decide_eq_true_eq]
    exact ⟨hconflict.1.symm, hconflict.2.symm⟩
  have hmine : Condition.attrIs p.1 p.2 ∈ a.conditions :=
    List.mem_append_left _ (List.mem_map.mpr ⟨p, hp, rfl⟩)
  have hother : Condition.attrIs q.1 q.2 ∈ o.conditions :=
    List.mem_append_left _ (List.mem_map.mpr ⟨q, hq, rfl⟩)
  exact ⟨_, hother, Pin.not_both_hold hexcludes (hnode _ hmine)⟩

theorem emitTagCascade_mem {arms : List (TagArm ν π)} {b : EmittedArm ν π}
    (hb : b ∈ emitTagCascade arms) : ∃ o ∈ arms, b.conditions = o.conditions := by
  induction arms with
  | nil => cases hb
  | cons a later ih =>
    rw [emitTagCascade] at hb
    rcases List.mem_cons.mp hb with rfl | hb
    · exact ⟨a, List.mem_cons_self, rfl⟩
    · obtain ⟨o, ho, hcond⟩ := ih hb
      exact ⟨o, List.mem_cons_of_mem _ ho, hcond⟩

/-- **An arm that ends the search keeps all later ones out.** -/
theorem tagArms_separated (arms : List (TagArm ν π)) :
    Separated ((emitTagCascade arms).map (EmittedArm.arm nodes)) := by
  induction arms with
  | nil => exact .nil
  | cons a later ih =>
    rw [emitTagCascade, List.map_cons, Separated, List.pairwise_cons]
    refine ⟨fun arm harm hfinal node hguard => ?_, ih⟩
    obtain ⟨b, hb, rfl⟩ := List.mem_map.mp harm
    obtain ⟨o, ho, hb'⟩ := emitTagCascade_mem hb
    have hconflicts : a.conflicts o = true := by
      have halone := hfinal
      rw [EmittedArm.arm, Bool.and_eq_true, Bool.not_eq_true', Bool.not_eq_true',
        List.any_eq_false] at halone
      have hnot : ¬(!a.conflicts o) = true := halone.2 o ho
      rwa [Bool.not_eq_true', Bool.not_eq_false] at hnot
    rw [guard_eq_false, hb']
    exact TagArm.conflicts_apart hconflicts (guard_eq_true.mp hguard)

theorem outcomes_forall₂ {outcomes : List (Outcome ν π)} {steps : List (EmittedArm ν π)}
    (h : emitOutcomeParse outcomes = .ok steps) :
    List.Forall₂ (fun a b => a.guard = b.guard ∧ a.read = b.read)
      (steps.map (EmittedArm.arm nodes))
      (outcomes.map fun v => plainArm nodes (v.pinConditions.toOption.getD []) v.payload) := by
  induction outcomes generalizing steps with
  | nil =>
    obtain rfl := Except.ok.inj h
    exact .nil
  | cons v later ih =>
    obtain ⟨conditions, rest, hconditions, hrest, rfl⟩ := emitOutcomeParse_cons h
    refine .cons ⟨?_, rfl⟩ (ih hrest)
    show _ = (plainArm nodes (v.pinConditions.toOption.getD []) v.payload).guard
    rw [hconditions]
    rfl

theorem tagArms_forall₂ (arms : List (TagArm ν π)) :
    List.Forall₂ (fun a b => a.guard = b.guard ∧ a.read = b.read)
      ((emitTagCascade arms).map (EmittedArm.arm nodes))
      (arms.map fun a => plainArm nodes a.conditions a.payload) := by
  induction arms with
  | nil => exact .nil
  | cons a later ih => exact .cons ⟨rfl, rfl⟩ ih

end Separation

/-! ### Both cascades -/

theorem runOutcomeParse_eq_ok {nodes : NodeReader ν} {enumName : String}
    {steps : List (EmittedArm ν π)} {response : ν} {r : ℕ × π} :
    runOutcomeParse nodes enumName steps response = .ok r ↔
      cascade 0 (steps.map (EmittedArm.arm nodes)) response = .ok (some r) := by
  rw [runOutcomeParse]
  cases cascade 0 (steps.map (EmittedArm.arm nodes)) response with
  | error e => exact ⟨nofun, nofun⟩
  | ok found =>
    cases found with
    | none => exact ⟨nofun, nofun⟩
    | some r' => exact ⟨fun h => congrArg (Except.ok ∘ some) (Except.ok.inj h),
        fun h => congrArg Except.ok (Option.some.inj (Except.ok.inj h))⟩

/-- **Ending the search early changes no answer.**  However nodes are read and payloads parsed,
the outcome cascade answers the first outcome whose conditions hold and whose payload parses, or
else an error; and the union cascade the first such arm, or else none, unless an arm that ends the
search was entered and failed. -/
theorem terminal_arms_find_first_success (nodes : NodeReader ν) (outcomes : List (Outcome ν π))
    (steps : List (EmittedArm ν π)) (hemitted : emitOutcomeParse outcomes = .ok steps)
    (enumName : String) (descend : List String) (arms : List (TagArm ν π)) (node : ν) :
    (∀ r, runOutcomeParse nodes enumName steps node = .ok r ↔
      plainOutcomes nodes outcomes node = some r) ∧
    (∀ r, readTagUnion nodes descend arms node = .ok (some r) ↔
      plainTagArms nodes descend arms node = some r) ∧
    (readTagUnion nodes descend arms node = .ok none ↔
      plainTagArms nodes descend arms node = none ∧
        ∀ n, descendOpt nodes node descend = some n → ∀ a ∈ emitTagCascade arms,
          a.unique = true → (a.arm nodes).guard n = false) ∧
    (∀ e, readTagUnion nodes descend arms node = .error e →
      plainTagArms nodes descend arms node = none ∧
        ∃ n, descendOpt nodes node descend = some n ∧ ∃ a ∈ emitTagCascade arms,
          a.unique = true ∧ (a.arm nodes).guard n = true ∧ a.payload n = .error e) := by
  have hplain : ∀ n, firstSuccess 0 ((emitTagCascade arms).map (EmittedArm.arm nodes)) n =
      firstSuccess 0 (arms.map fun a => plainArm nodes a.conditions a.payload) n :=
    fun n => firstSuccess_congr (tagArms_forall₂ arms)
  refine ⟨fun r => ?_, fun r => ?_, ?_, fun e he => ?_⟩
  · rw [runOutcomeParse_eq_ok, cascade_eq_some (outcomes_separated hemitted), plainOutcomes,
      firstSuccess_congr (outcomes_forall₂ hemitted)]
  · rw [readTagUnion, plainTagArms]
    cases descendOpt nodes node descend with
    | none => exact ⟨nofun, nofun⟩
    | some n =>
      rw [Option.bind_some, ← hplain]
      exact cascade_eq_some (tagArms_separated arms) n 0 r
  · rw [readTagUnion, plainTagArms]
    cases descendOpt nodes node descend with
    | none => exact ⟨fun _ => ⟨rfl, nofun⟩, fun _ => rfl⟩
    | some n =>
      rw [Option.bind_some, ← hplain]
      refine (cascade_eq_none n 0).trans (and_congr_right fun _ => ?_)
      rw [List.forall_mem_map]
      exact ⟨fun h m hm => Option.some.inj hm ▸ h, fun h => h n rfl⟩
  · rw [readTagUnion] at he
    rw [plainTagArms]
    cases hn : descendOpt nodes node descend with
    | none =>
      rw [hn] at he
      cases he
    | some n =>
      rw [hn] at he
      obtain ⟨hnone, arm, harm, hfinal, hguard, hread⟩ :=
        cascade_eq_error (tagArms_separated arms) he
      obtain ⟨a, ha, rfl⟩ := List.mem_map.mp harm
      rw [Option.bind_some, ← hplain]
      exact ⟨hnone, n, rfl, a, ha, hfinal, hguard, hread⟩

/-- Nodes that are nothing but attributes. -/
def attributeReader : NodeReader (List (String × String)) where
  tag := fun _ => "iq"
  getAttr := fun node name => node.lookup name
  contentStr := fun _ => none
  contentBytes := fun _ => none
  childrenByTag := fun _ _ => []
  optionalChild := fun _ _ => none

/-- A result with an identifier, or an error with a code. -/
def resultOrError : List (Outcome (List (String × String)) String) :=
  [⟨"Result", [⟨.tag, some "iq", none, none⟩, ⟨.attr, some "type", some "result", none⟩], none,
      fun node => (node.lookup "id").elim (.error "id") .ok⟩,
    ⟨"Error", [⟨.attr, some "type", some "error", none⟩], none,
      fun node => (node.lookup "code").elim (.error "code") .ok⟩]

/-- The first outcome ends the search, and a result without an identifier is an error in both. -/
theorem resultOrError_finds_first_success :
    emitOutcomeParse resultOrError = .ok
      [⟨[.tagIs "iq", .attrIs "type" "result"],
          fun node => (node.lookup "id").elim (.error "id") .ok, true⟩,
        ⟨[.attrIs "type" "error"],
          fun node => (node.lookup "code").elim (.error "code") .ok, true⟩] ∧
    ∀ r, runOutcomeParse attributeReader "Answer"
        [⟨[.tagIs "iq", .attrIs "type" "result"],
            fun node => (node.lookup "id").elim (.error "id") .ok, true⟩,
          ⟨[.attrIs "type" "error"],
            fun node => (node.lookup "code").elim (.error "code") .ok, true⟩]
        [("type", "result")] = .ok r ↔
      plainOutcomes attributeReader resultOrError [("type", "result")] = some r :=
  ⟨rfl, (terminal_arms_find_first_success attributeReader resultOrError _ rfl "Answer" [] []
    [("type", "result")]).1⟩

end Whatspec.Codegen

import Whatspec.Scan.ErrorShapes

/-!
# When the error vocabulary is exact

The vocabulary is a union of arms with one envelope, and a tree of fields says more than that.  It
loses nothing under conditions on the tree:

* every code literal is a number, a range has both ends, and no field pins both;
* two unions never stand side by side, and none is empty;
* the pins of the enclosing node are filed under shorter paths than those of the error node, and
  all pins inside alternatives are the error node's;
* along each way through the unions, and on the enclosing node, the nearest pin of a kind implies
  the others.

`unionsHold_iff` reads the unions through their branches, `byPath_eq` the pins outside them, and
**`errorVocabulary_exact`** puts both together.
-/

namespace Whatspec.Scan.Errors

open Whatspec.Library
open Whatspec.Codegen (parseInteger IntegerWidth)

/-! ### Fields and their pins -/

/-- A field whose pin says all that it requires. -/
def FieldHead.WellPinned (h : FieldHead) : Prop :=
  h.wire = "code" →
    (∀ lit, h.literalValue = some lit → ∃ n, parseInteger .i64 lit = some n ∧
      (∀ lo, h.intMin = some lo → lo ≤ n) ∧ ∀ hi, h.intMax = some hi → n ≤ hi) ∧
    (h.literalValue = none → (h.intMin.isSome ↔ h.intMax.isSome))

theorem holds_iff_pin {h : FieldHead} (hw : h.WellPinned) (x : Reading) :
    h.Holds x ↔ ∀ p, h.pin = some p → p.Holds x := by
  unfold FieldHead.Holds FieldHead.pin
  by_cases hcode : h.wire = "code"
  · have htext : h.wire ≠ "text" := by rw [hcode]; decide
    rw [if_pos hcode]
    obtain ⟨hliteral, hrange⟩ := hw hcode
    cases hlit : h.literalValue with
    | some lit =>
      obtain ⟨n, hn, hmin, hmax⟩ := hliteral lit hlit
      constructor
      · intro hx p hp
        simp only [hn, Option.map_some, Option.some.injEq] at hp
        subst hp
        have heq := (hx.1 hcode).1 lit rfl
        rw [hn] at heq
        exact (Option.some.inj heq).symm
      · intro hpin
        have heq : x.code = n := hpin (.code n) (by simp only [hn, Option.map_some])
        refine ⟨fun _ => ⟨fun l hl => ?_, fun lo hlo => ?_, fun hi hhi => ?_⟩,
          fun h => absurd h htext⟩
        · cases hl
          rw [hn, heq]
        · rw [heq]
          exact hmin lo hlo
        · rw [heq]
          exact hmax hi hhi
    | none =>
      have hiff := hrange hlit
      cases hlo : h.intMin with
      | none =>
        have hhi : h.intMax = none := by
          rw [hlo] at hiff
          exact Option.not_isSome_iff_eq_none.mp fun hsome => Bool.false_ne_true (hiff.mpr hsome)
        constructor
        · intro _ p hp
          cases hp
        · intro _
          refine ⟨fun _ => ⟨fun l hl => (nomatch hl), fun lo h => (nomatch h), fun hi h => ?_⟩,
            fun h => absurd h htext⟩
          rw [hhi] at h
          cases h
      | some lo =>
        rw [hlo] at hiff
        obtain ⟨hi, hhi⟩ := Option.isSome_iff_exists.mp (hiff.mp rfl)
        rw [hhi]
        constructor
        · intro hx p hp
          cases hp
          exact ⟨(hx.1 hcode).2.1 lo rfl, (hx.1 hcode).2.2 hi rfl⟩
        · intro hpin
          have hrange := hpin (.range lo hi) rfl
          refine ⟨fun _ => ⟨fun l hl => (nomatch hl), fun lo' h => ?_, fun hi' h => ?_⟩,
            fun h => absurd h htext⟩
          · cases h
            exact hrange.1
          · cases h
            exact hrange.2
  · rw [if_neg hcode]
    by_cases htext : h.wire = "text"
    · rw [if_pos htext]
      constructor
      · intro hx p hp
        obtain ⟨s, hs, rfl⟩ := Option.map_eq_some_iff.mp hp
        exact hx.2 htext s hs
      · intro hpin
        refine ⟨fun h => absurd h hcode, fun _ s hs => hpin (.text s) ?_⟩
        rw [hs, Option.map_some]
    · rw [if_neg htext]
      constructor
      · intro _ p hp
        cases hp
      · intro _
        exact ⟨fun h => absurd h hcode, fun h => absurd h htext⟩

/-! ### Unions -/

mutual

/-- No two unions side by side, and no empty one. -/
def OneUnion : List (List (String × Shape)) → Prop
  | [] => True
  | [union] => union ≠ [] ∧ AlternativesOneUnion union
  | _ => False

def AlternativesOneUnion : List (String × Shape) → Prop
  | [] => True
  | (_, ⟨_, unions⟩) :: rest => OneUnion unions ∧ AlternativesOneUnion rest

end

mutual

/-- The fields inside the alternatives. -/
def alternativeHeads : List (List (String × Shape)) → List PlacedHead
  | [] => []
  | union :: rest => headsIn union ++ alternativeHeads rest

def headsIn : List (String × Shape) → List PlacedHead
  | [] => []
  | (_, ⟨heads, unions⟩) :: rest => heads ++ (alternativeHeads unions ++ headsIn rest)

end

/-- A field whose pin says all that it requires, of the error node. -/
def PlacedHead.Pins (inner : List String) (h : PlacedHead) : Prop :=
  h.head.WellPinned ∧ ∀ p, h.head.pin = some p → h.node = inner

theorem oneUnion_singleton {union : List (String × Shape)} (h : OneUnion [union]) :
    union ≠ [] ∧ AlternativesOneUnion union := by
  rwa [OneUnion] at h

theorem not_oneUnion_pair {u v : List (String × Shape)} {rest : List (List (String × Shape))} :
    ¬OneUnion (u :: v :: rest) := by
  simp only [OneUnion, not_false_iff]

theorem headsHold_iff {ρ : List String → Reading} {inner : List String} {heads : List PlacedHead}
    (hheads : ∀ h ∈ heads, h.Pins inner) :
    (∀ h ∈ heads, h.head.Holds (ρ h.node)) ↔ ∀ p ∈ pinsOf heads, p.Holds (ρ inner) := by
  constructor
  · intro hall p hp
    obtain ⟨h, hh, hpin⟩ := List.mem_filterMap.mp hp
    have hholds := (holds_iff_pin (hheads h hh).1 (ρ h.node)).mp (hall h hh) p hpin
    rwa [(hheads h hh).2 p hpin] at hholds
  · intro hall h hh
    refine (holds_iff_pin (hheads h hh).1 (ρ h.node)).mpr fun p hpin => ?_
    rw [(hheads h hh).2 p hpin]
    exact hall p (List.mem_filterMap.mpr ⟨h, hh, hpin⟩)

/-- One union that is not empty has a branch. -/
theorem branches_eq_nil_iff {unions : List (List (String × Shape))} (hone : OneUnion unions) :
    branches unions = [] ↔ unions = [] := by
  constructor
  · intro hnil
    match unions, hone with
    | [], _ => rfl
    | [union], hone =>
      rw [branches, branches, List.append_nil] at hnil
      have hempty := isEmpty_alternativeBranches union
      rw [hnil] at hempty
      exact absurd (List.isEmpty_iff.mp hempty.symm) (oneUnion_singleton hone).1
    | _ :: _ :: _, hone => exact absurd hone not_oneUnion_pair
  · intro hnil
    rw [hnil, branches]

mutual

/-- **The unions through their branches.** -/
theorem unionsHold_iff {ρ : List String → Reading} {inner : List String} :
    ∀ (unions : List (List (String × Shape))), OneUnion unions →
      (∀ h ∈ alternativeHeads unions, h.Pins inner) →
      (UnionsHold ρ unions ↔
        unions = [] ∨ ∃ b ∈ branches unions, ∀ p ∈ b.2, p.Holds (ρ inner))
  | [], _, _ => by
    rw [UnionsHold]
    exact ⟨fun _ => Or.inl rfl, fun _ => trivial⟩
  | [union], hone, hheads => by
    rw [alternativeHeads, alternativeHeads, List.append_nil] at hheads
    rw [UnionsHold, UnionsHold, and_true, branches, branches, List.append_nil,
      alternativeHolds_iff union (oneUnion_singleton hone).2 hheads]
    exact ⟨Or.inr, fun h => h.resolve_left (by simp)⟩
  | _ :: _ :: _, hone, _ => absurd hone not_oneUnion_pair

theorem alternativeHolds_iff {ρ : List String → Reading} {inner : List String} :
    ∀ (alternatives : List (String × Shape)), AlternativesOneUnion alternatives →
      (∀ h ∈ headsIn alternatives, h.Pins inner) →
      (AlternativeHolds ρ alternatives ↔
        ∃ b ∈ alternativeBranches alternatives, ∀ p ∈ b.2, p.Holds (ρ inner))
  | [], _, _ => by
    rw [AlternativeHolds, alternativeBranches]
    exact ⟨False.elim, fun ⟨b, hb, _⟩ => absurd hb List.not_mem_nil⟩
  | (name, ⟨heads, unions⟩) :: rest, hone, hheads => by
    rw [AlternativesOneUnion] at hone
    rw [headsIn, List.forall_mem_append, List.forall_mem_append] at hheads
    rw [AlternativeHolds, headsHold_iff hheads.1, unionsHold_iff unions hone.1 hheads.2.1,
      alternativeHolds_iff rest hone.2 hheads.2.2, alternativeBranches]
    simp only [List.mem_append, or_and_right, exists_or]
    refine or_congr ?_ Iff.rfl
    by_cases hnil : unions = []
    · have hbranches := (branches_eq_nil_iff hone.1).mpr hnil
      rw [if_pos (List.isEmpty_iff.mpr hbranches)]
      simp only [List.mem_singleton, exists_eq_left, hnil, true_or, and_true]
    · have hbranches : ¬(branches unions).isEmpty = true := fun h =>
        hnil ((branches_eq_nil_iff hone.1).mp (List.isEmpty_iff.mp h))
      rw [if_neg hbranches]
      simp only [List.mem_map, hnil, false_or]
      constructor
      · intro h
        obtain ⟨hown, b, hb, hpins⟩ := h
        refine ⟨_, ⟨b, hb, rfl⟩, fun p hp => ?_⟩
        rcases List.mem_append.mp hp with hp | hp
        · exact hown p hp
        · exact hpins p hp
      · intro h
        obtain ⟨_, ⟨b, hb, rfl⟩, hpins⟩ := h
        exact ⟨fun p hp => hpins p (List.mem_append_left _ hp), b, hb,
          fun p hp => hpins p (List.mem_append_right _ hp)⟩

end

/-! ### Pins outside the alternatives -/

/-- The pins outside the alternatives, each with the path it is filed under. -/
def placedPins (heads : List PlacedHead) : List (List String × Pin) :=
  heads.filterMap fun h => h.head.pin.map fun p => (h.path, p)

/-- The pins of each path, in order. -/
def groups (heads : List PlacedHead) : List (List String × List Pin) :=
  Upsert.foldEntries Upsert.keepAll (placedPins heads)

/-- The length of the longest path that a pin is filed under. -/
def deepest (heads : List PlacedHead) : ℕ := ((groups heads).map fun e => e.1.length).foldl max 0

/-- The pins under the longest paths, the last path first. -/
def innerPins (heads : List PlacedHead) : List Pin :=
  ((groups heads).filter fun e => e.1.length = deepest heads).reverse.flatMap Prod.snd

/-- The pins under shorter paths, the last path first. -/
def outerPins (heads : List PlacedHead) : List Pin :=
  ((groups heads).filter fun e => e.1.length ≠ deepest heads).reverse.flatMap Prod.snd

theorem mem_placedPins {heads : List PlacedHead} {path : List String} {p : Pin} :
    (path, p) ∈ placedPins heads ↔ ∃ h ∈ heads, h.path = path ∧ h.head.pin = some p := by
  simp only [placedPins, List.mem_filterMap, Option.map_eq_some_iff, Prod.mk.injEq]
  constructor
  · intro h
    obtain ⟨head, hmem, _, hpin, hpath, rfl⟩ := h
    exact ⟨head, hmem, hpath, hpin⟩
  · intro h
    obtain ⟨head, hmem, hpath, hpin⟩ := h
    exact ⟨head, hmem, p, hpin, hpath, rfl⟩

/-- The pins of the paths that a test keeps. -/
theorem mem_pinsUnder (heads : List PlacedHead) (keep : List String → Prop)
    [DecidablePred keep] (p : Pin) :
    p ∈ ((groups heads).filter fun e => keep e.1).reverse.flatMap Prod.snd ↔
      ∃ h ∈ heads, keep h.path ∧ h.head.pin = some p := by
  rw [List.mem_flatMap]
  constructor
  · intro h
    obtain ⟨e, he, hp⟩ := h
    rw [List.mem_reverse, List.mem_filter] at he
    have hplaced : (e.1, p) ∈ placedPins heads :=
      Upsert.mem_foldEntries_keepAll.mp ⟨e, he.1, rfl, hp⟩
    obtain ⟨head, hmem, hpath, hpin⟩ := mem_placedPins.mp hplaced
    exact ⟨head, hmem, hpath ▸ of_decide_eq_true he.2, hpin⟩
  · intro h
    obtain ⟨head, hmem, hkeep, hpin⟩ := h
    have hplaced : (head.path, p) ∈ placedPins heads :=
      mem_placedPins.mpr ⟨head, hmem, rfl, hpin⟩
    obtain ⟨e, he, hpath, hp⟩ := Upsert.mem_foldEntries_keepAll.mpr hplaced
    refine ⟨e, List.mem_reverse.mpr (List.mem_filter.mpr ⟨he, ?_⟩), hp⟩
    rw [hpath]
    exact decide_eq_true hkeep

/-- The walk for the pins by path folds them one after the other. -/
theorem pinsByPath_eq : ∀ (node path : List String) (fields : List ParsedField)
    (out : List (List String × ErrorArm)),
    pinsByPath fields path out =
      (placedPins (headsOf node path fields)).foldl
        (Upsert.upsert fun arm p => (arm.getD .default).put p) out
  | _, _, [], _ => by rw [pinsByPath, headsOf, placedPins, List.filterMap_nil, List.foldl_nil]
  | node, path, ⟨head, children, _⟩ :: rest, out => by
    rw [pinsByPath, headsOf, placedPins, List.filterMap_cons, List.filterMap_append,
      pinsByPath_eq (head.childNode node) (path ++ head.sourcePath.getD []) children,
      pinsByPath_eq node path rest]
    cases head.pin with
    | none => rw [Option.map_none, List.foldl_append]; rfl
    | some p => rw [Option.map_some, List.foldl_cons, List.foldl_append]; rfl

/-- **The pins by path** are the arms of the groups. -/
theorem byPath_eq (fields : List ParsedField) :
    pinsByPath fields [] [] =
      (groups (headsOf [] [] fields)).map fun e => (e.1, putAll e.2) := by
  rw [pinsByPath_eq [] [] fields []]
  refine Upsert.foldEntries_map (fun entry p => ?_) (placedPins (headsOf [] [] fields))
  rw [Upsert.keepAll, putAll, List.foldl_append]
  cases entry <;> rfl

/-- What an arm inherits from one group after the other. -/
theorem inheritAll_putAll : ∀ (name : Option String) (pins : List Pin)
    (outer : List (List String × List Pin)),
    inheritAll { putAll pins with name := name } (outer.map fun e => putAll e.2) =
      { putAll (outer.reverse.flatMap Prod.snd ++ pins) with name := name }
  | _, _, [] => rfl
  | name, pins, e :: outer => by
    have hstep : ErrorArm.inherit { putAll pins with name := name } (putAll e.2) =
        { putAll (e.2 ++ pins) with name := name } := by
      rw [putAll_append]
      rfl
    show inheritAll (ErrorArm.inherit _ (putAll e.2)) (outer.map fun e => putAll e.2) = _
    rw [hstep, inheritAll_putAll name (e.2 ++ pins) outer, List.reverse_cons, List.flatMap_append,
      List.flatMap_singleton, List.append_assoc]

theorem accepts_name (arm : ErrorArm) (name : Option String) (x : Reading) :
    ErrorArm.Accepts { arm with name := name } x ↔ arm.Accepts x :=
  ⟨fun h => ⟨h.code, h.text, h.codeMin, h.codeMax⟩,
    fun h => ⟨h.code, h.text, h.codeMin, h.codeMax⟩⟩

theorem accepts_default (x : Reading) : ErrorArm.default.Accepts x :=
  ⟨fun _ h => (nomatch h), fun _ h => (nomatch h), fun _ h => (nomatch h), fun _ h => (nomatch h)⟩

/-- The groups of the paths that a test keeps, as arms. -/
theorem filter_byPath (heads : List PlacedHead) (keep : List String → Bool) :
    (((groups heads).map fun e => (e.1, putAll e.2)).filter fun e => keep e.1).map Prod.snd =
      ((groups heads).filter fun e => keep e.1).map fun e => putAll e.2 := by
  rw [List.filter_map, List.map_map]
  rfl

theorem collectErrorArms_union {fields : List ParsedField}
    (hbranches : branches (unionsOf [] fields) ≠ []) :
    collectErrorArms fields = ((branches (unionsOf [] fields)).map branchArm, true) := by
  have hflag : (!(branches (unionsOf [] fields)).isEmpty) = true := by
    rw [Bool.not_eq_true', List.isEmpty_eq_false_iff]
    exact hbranches
  rw [collectErrorArms, collectUnionArms_eq [] fields, hflag, if_pos rfl]

/-- The arms of a branch on top of the pins under the longest paths. -/
theorem inheritAll_branchArm (heads : List PlacedHead) (b : String × List Pin) :
    inheritAll (branchArm b)
        (((groups heads).filter fun e => e.1.length = deepest heads).map fun e => putAll e.2) =
      { putAll (innerPins heads ++ b.2) with name := some b.1 } :=
  inheritAll_putAll (some b.1) b.2 _

theorem inheritAll_default (heads : List PlacedHead) :
    inheritAll .default
        (((groups heads).filter fun e => e.1.length ≠ deepest heads).map fun e => putAll e.2) =
      putAll (outerPins heads) := by
  have harm := inheritAll_putAll none [] ((groups heads).filter fun e => e.1.length ≠ deepest heads)
  rw [List.append_nil] at harm
  have hname : ∀ pins, { putAll pins with name := none } = putAll pins := fun pins => by
    rw [putAll_eq]
  rwa [hname, hname] at harm

/-- **The vocabulary of a variant with a union**: an envelope of the outer pins, and an arm for
each branch. -/
theorem errorVocabulary_accepts_union {fields : List ParsedField}
    (hbranches : branches (unionsOf [] fields) ≠ []) (outer inner : Reading) :
    (errorVocabulary fields).Accepts outer inner ↔
      (putAll (outerPins (headsOf [] [] fields))).Accepts outer ∧
        ∃ b ∈ branches (unionsOf [] fields),
          (putAll (innerPins (headsOf [] [] fields) ++ b.2)).Accepts inner := by
  set heads := headsOf [] [] fields with hheads
  rw [errorVocabulary, collectErrorArms_union hbranches, byPath_eq, ← hheads]
  by_cases hnone : groups heads = []
  · -- Without a pin outside the unions there is nothing to inherit.
    have hinner : innerPins heads = [] := by rw [innerPins, hnone]; rfl
    have houter : outerPins heads = [] := by rw [outerPins, hnone]; rfl
    rw [hnone, hinner, houter]
    show (_ ∧ ∃ arm ∈ (branches (unionsOf [] fields)).map branchArm, arm.Accepts inner) ↔ _
    simp only [List.mem_map, exists_exists_and_eq_and, List.nil_append]
    refine and_congr ⟨fun _ => accepts_default outer, fun _ _ h => nomatch h⟩ ?_
    exact exists_congr fun b => and_congr Iff.rfl (accepts_name (putAll b.2) _ inner)
  · have hflag : (true && !((groups heads).map fun e => (e.1, putAll e.2)).isEmpty) = true := by
      rw [List.isEmpty_map, Bool.true_and, Bool.not_eq_true', List.isEmpty_eq_false_iff]
      exact hnone
    have hdeepest : (((groups heads).map fun e => (e.1, putAll e.2)).map
        fun e => e.1.length).foldl max 0 = deepest heads := by
      rw [List.map_map]
      rfl
    simp only [if_pos hflag, hdeepest]
    rw [filter_byPath heads fun path => path.length = deepest heads,
      filter_byPath heads fun path => path.length ≠ deepest heads, inheritAll_default]
    refine and_congr ?_ ?_
    · by_cases hdefault : putAll (outerPins heads) = .default
      · rw [if_pos hdefault, hdefault]
        exact ⟨fun _ => accepts_default outer, fun _ _ h => nomatch h⟩
      · rw [if_neg hdefault]
        exact ⟨fun h => h _ rfl, fun h envelope heq => Option.some.inj heq ▸ h⟩
    · simp only [List.map_map, List.mem_map, exists_exists_and_eq_and, Function.comp_apply,
        inheritAll_branchArm]
      exact exists_congr fun b => and_congr Iff.rfl (accepts_name _ _ inner)

/-- The vocabulary of a variant without a union: one arm. -/
theorem errorVocabulary_accepts_plain {fields : List ParsedField}
    (hunions : unionsOf [] fields = []) (hreads : readsErrorFields fields) (outer inner : Reading) :
    (errorVocabulary fields).Accepts outer inner ↔
      (putAll (pinsOf (headsOf [] [] fields))).Accepts inner := by
  have harms : collectErrorArms fields = ([putAll (pinsOf (headsOf [] [] fields))], false) := by
    rw [collectErrorArms, collectUnionArms_eq [] fields, hunions, branches]
    show (if _ ∨ _ then [armPins fields] else [], false) = _
    rw [if_pos (Or.inr hreads), armPins_eq []]
  rw [errorVocabulary, harms]
  constructor
  · intro h
    obtain ⟨arm, hmem, haccepts⟩ := h.2
    rwa [List.mem_singleton.mp hmem] at haccepts
  · intro h
    exact ⟨fun _ h => (nomatch h), _, List.mem_singleton_self _, h⟩

/-! ### Exactness -/

/-- The trees whose vocabulary loses nothing, with the nodes they are about. -/
structure ExactTree (outer inner : List String) (fields : List ParsedField) : Prop where
  wellPinned : ∀ h ∈ headsOf [] [] fields, h.head.WellPinned
  oneUnion : OneUnion (unionsOf [] fields)
  alternatives : ∀ h ∈ alternativeHeads (unionsOf [] fields), h.Pins inner
  /-- Without a union all pins are the error node's. -/
  plain : unionsOf [] fields = [] → readsErrorFields fields ∧
    (∀ h ∈ headsOf [] [] fields, ∀ p, h.head.pin = some p → h.node = inner) ∧
    Settled (pinsOf (headsOf [] [] fields))
  /-- With a union the length of the path tells the error node from the enclosing one. -/
  placed : unionsOf [] fields ≠ [] →
    ∀ h ∈ headsOf [] [] fields, ∀ p, h.head.pin = some p →
      h.node = if h.path.length = deepest (headsOf [] [] fields) then inner else outer
  envelope : unionsOf [] fields ≠ [] → Settled (outerPins (headsOf [] [] fields))
  branch : ∀ b ∈ branches (unionsOf [] fields),
    Settled (innerPins (headsOf [] [] fields) ++ b.2)

/-- Pins of two nodes, told apart by the length of their path. -/
theorem headsHold_iff_placed {ρ : List String → Reading} {outer inner : List String}
    {heads : List PlacedHead} (hwell : ∀ h ∈ heads, h.head.WellPinned)
    (hplaced : ∀ h ∈ heads, ∀ p, h.head.pin = some p →
      h.node = if h.path.length = deepest heads then inner else outer) :
    (∀ h ∈ heads, h.head.Holds (ρ h.node)) ↔
      (∀ p ∈ outerPins heads, p.Holds (ρ outer)) ∧ ∀ p ∈ innerPins heads, p.Holds (ρ inner) := by
  have houter : ∀ p, p ∈ outerPins heads ↔
      ∃ h ∈ heads, h.path.length ≠ deepest heads ∧ h.head.pin = some p :=
    mem_pinsUnder heads fun path => path.length ≠ deepest heads
  have hinner : ∀ p, p ∈ innerPins heads ↔
      ∃ h ∈ heads, h.path.length = deepest heads ∧ h.head.pin = some p :=
    mem_pinsUnder heads fun path => path.length = deepest heads
  constructor
  · intro hall
    have hpin : ∀ h ∈ heads, ∀ p, h.head.pin = some p → p.Holds (ρ h.node) := fun h hh =>
      (holds_iff_pin (hwell h hh) _).mp (hall h hh)
    constructor
    · intro p hp
      obtain ⟨h, hh, hlen, hp⟩ := (houter p).mp hp
      have hnode := hplaced h hh p hp
      rw [if_neg hlen] at hnode
      exact hnode ▸ hpin h hh p hp
    · intro p hp
      obtain ⟨h, hh, hlen, hp⟩ := (hinner p).mp hp
      have hnode := hplaced h hh p hp
      rw [if_pos hlen] at hnode
      exact hnode ▸ hpin h hh p hp
  · intro hall h hh
    refine (holds_iff_pin (hwell h hh) _).mpr fun p hp => ?_
    rw [hplaced h hh p hp]
    by_cases hlen : h.path.length = deepest heads
    · rw [if_pos hlen]
      exact hall.2 p ((hinner p).mpr ⟨h, hh, hlen, hp⟩)
    · rw [if_neg hlen]
      exact hall.1 p ((houter p).mpr ⟨h, hh, hlen, hp⟩)

/-- **The error vocabulary of an exact tree**: the readings of the enclosing node and of the error
node satisfy the fields exactly when the vocabulary accepts them. -/
theorem errorVocabulary_exact {outer inner : List String} {fields : List ParsedField}
    (h : ExactTree outer inner fields) (ρ : List String → Reading) :
    FieldsHold ρ [] fields ↔ (errorVocabulary fields).Accepts (ρ outer) (ρ inner) := by
  rw [fieldsHold_iff ρ [] [] fields, unionsHold_iff _ h.oneUnion h.alternatives]
  by_cases hunions : unionsOf [] fields = []
  · obtain ⟨hreads, hnodes, hsettled⟩ := h.plain hunions
    rw [errorVocabulary_accepts_plain hunions hreads, accepts_putAll hsettled,
      headsHold_iff fun head hmem => ⟨h.wellPinned head hmem, hnodes head hmem⟩]
    exact and_iff_left (Or.inl hunions)
  · have hbranches : branches (unionsOf [] fields) ≠ [] := fun hnil =>
      hunions ((branches_eq_nil_iff h.oneUnion).mp hnil)
    rw [errorVocabulary_accepts_union hbranches, accepts_putAll (h.envelope hunions),
      headsHold_iff_placed h.wellPinned (h.placed hunions), or_iff_right hunions, and_assoc]
    refine and_congr Iff.rfl ?_
    constructor
    · intro hall
      obtain ⟨hinner, b, hb, hpins⟩ := hall
      refine ⟨b, hb, (accepts_putAll (h.branch b hb) _).mpr ?_⟩
      exact List.forall_mem_append.mpr ⟨hinner, hpins⟩
    · intro hall
      obtain ⟨b, hb, haccepts⟩ := hall
      have hpins := List.forall_mem_append.mp ((accepts_putAll (h.branch b hb) _).mp haccepts)
      exact ⟨hpins.1, b, hb, hpins.2⟩

/-! ### Two variants -/

/-- A field with the wire name `code` or `text` and a literal. -/
def literalHead (name literal : String) (sourcePath : List String) : FieldHead :=
  ⟨name, none, some literal, none, none, none, false, some sourcePath⟩

def rangeHead (lo hi : ℤ) (sourcePath : List String) : FieldHead :=
  ⟨"code", none, none, some lo, some hi, none, false, some sourcePath⟩

/-- The field of a union. -/
def unionHead (sourcePath : List String) : FieldHead :=
  ⟨"value", none, none, none, none, none, false, some sourcePath⟩

/-- A partial failure: `207` on the error, and on the error inside it a code of the `400`s or
`500`s with one of two texts. -/
def partialFailure : List ParsedField :=
  [⟨literalHead "code" "207" ["error"], [], none⟩,
    ⟨rangeHead 400 599 ["error", "error"], [], none⟩,
    ⟨unionHead ["error", "error"], [], some
      [⟨"NotFound", [⟨literalHead "text" "item-not-found" [], [], none⟩]⟩,
        ⟨"Internal", [⟨literalHead "text" "internal-server-error" [], [], none⟩]⟩]⟩]

theorem headsOf_partialFailure : headsOf [] [] partialFailure =
    [⟨["error"], ["error"], literalHead "code" "207" ["error"]⟩,
      ⟨["error", "error"], ["error", "error"], rangeHead 400 599 ["error", "error"]⟩,
      ⟨["error", "error"], ["error", "error"], unionHead ["error", "error"]⟩] := by
  rw [partialFailure]
  simp only [headsOf]
  rfl

theorem unionsOf_partialFailure : unionsOf [] partialFailure =
    [[("NotFound", ⟨[⟨["error", "error"], [], literalHead "text" "item-not-found" []⟩], []⟩),
      ("Internal",
        ⟨[⟨["error", "error"], [], literalHead "text" "internal-server-error" []⟩], []⟩)]] := by
  rw [partialFailure]
  simp only [unionsOf, unionOf, alternativesOf, headsOf]
  rfl

theorem wellPinned_of_text {h : FieldHead} (htext : h.wire ≠ "code") : h.WellPinned :=
  fun hcode => absurd hcode htext

theorem exactTree_partialFailure : ExactTree ["error"] ["error", "error"] partialFailure where
  wellPinned := by
    rw [headsOf_partialFailure]
    simp only [List.forall_mem_cons, List.not_mem_nil, false_implies, implies_true, and_true]
    refine ⟨fun _ => ⟨fun lit hlit => ⟨207, ?_⟩, fun h => (by cases h)⟩,
      fun _ => ⟨fun _ h => (by cases h), fun _ => Iff.rfl⟩, wellPinned_of_text (by decide)⟩
    cases hlit
    exact ⟨by decide, fun _ h => (by cases h), fun _ h => (by cases h)⟩
  oneUnion := by
    simp only [unionsOf_partialFailure, OneUnion, AlternativesOneUnion, ne_eq, reduceCtorEq,
      not_false_eq_true, and_true]
  alternatives := by
    rw [unionsOf_partialFailure]
    simp only [alternativeHeads, headsIn, List.append_nil, List.cons_append, List.nil_append,
      List.forall_mem_cons, List.not_mem_nil, false_implies, implies_true, and_true]
    exact ⟨⟨wellPinned_of_text (by decide), fun _ _ => rfl⟩,
      ⟨wellPinned_of_text (by decide), fun _ _ => rfl⟩⟩
  plain := by
    rw [unionsOf_partialFailure]
    intro h
    cases h
  placed := by
    rw [headsOf_partialFailure]
    intro _
    simp only [List.forall_mem_cons, List.not_mem_nil, false_implies, implies_true, and_true]
    exact ⟨fun _ _ => by decide +kernel, fun _ _ => by decide +kernel,
      fun _ h => (by cases h)⟩
  envelope := by
    rw [headsOf_partialFailure]
    intro _
    decide +kernel
  branch := by
    rw [headsOf_partialFailure, unionsOf_partialFailure]
    simp only [branches, alternativeBranches]
    decide +kernel

/-- The readings of a multi-status with a missing item. -/
def missingItem (node : List String) : Reading :=
  if node = ["error"] then ⟨207, "multi-status"⟩ else ⟨404, "item-not-found"⟩

theorem partialFailure_vocabulary :
    ExactTree ["error"] ["error", "error"] partialFailure ∧
      (FieldsHold missingItem [] partialFailure ↔
        (errorVocabulary partialFailure).Accepts ⟨207, "multi-status"⟩ ⟨404, "item-not-found"⟩) :=
  ⟨exactTree_partialFailure, errorVocabulary_exact exactTree_partialFailure missingItem⟩

/-- A variant with two unions on its error: the code is `400` or `404`, and the text is one of two
texts. -/
def twoUnions : List ParsedField :=
  [⟨unionHead ["error"], [], some
      [⟨"BadRequest", [⟨literalHead "code" "400" [], [], none⟩]⟩,
        ⟨"NotFound", [⟨literalHead "code" "404" [], [], none⟩]⟩]⟩,
    ⟨unionHead ["error"], [], some
      [⟨"Malformed", [⟨literalHead "text" "malformed" [], [], none⟩]⟩,
        ⟨"Missing", [⟨literalHead "text" "missing" [], [], none⟩]⟩]⟩]

/-- Two unions side by side: the vocabulary takes the alternatives of both for alternatives of one,
and accepts a code of the first with any text. -/
theorem twoUnions_vocabulary :
    (errorVocabulary twoUnions).Accepts ⟨400, "anything"⟩ ⟨400, "anything"⟩ ∧
      ¬FieldsHold (fun _ => ⟨400, "anything"⟩) [] twoUnions := by
  have hvocabulary : errorVocabulary twoUnions =
      ⟨[⟨some "BadRequest", some 400, none, none, none⟩,
        ⟨some "NotFound", some 404, none, none, none⟩,
        ⟨some "Malformed", none, some "malformed", none, none⟩,
        ⟨some "Missing", none, some "missing", none, none⟩], none⟩ := by
    rw [twoUnions]
    simp only [errorVocabulary, collectErrorArms, collectUnionArms, unionArms, variantArms,
      pinsByPath, armPins, armPinsFrom]
    decide +kernel
  constructor
  · rw [hvocabulary]
    refine ⟨fun _ h => (nomatch h), _, List.mem_cons_self, fun _ h => ?_, fun _ h => (nomatch h),
      fun _ h => (nomatch h), fun _ h => (nomatch h)⟩
    exact Option.some.inj h
  · intro h
    rw [twoUnions] at h
    simp only [FieldsHold, UnionHolds, SomeVariantHolds, and_true, or_false, true_and] at h
    rcases h.2.2.2 with h | h
    · exact absurd (h.2 rfl "malformed" rfl) (by decide)
    · exact absurd (h.2 rfl "missing" rfl) (by decide)

end Whatspec.Scan.Errors

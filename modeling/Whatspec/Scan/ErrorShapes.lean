import Whatspec.Library.SortedSet
import Whatspec.Scan.ErrorVocabulary

/-!
# The shape of an error variant

The fields of a variant, seen as what the vocabulary is made of: the fields outside the unions,
each with the node it is read from, and the unions, each alternative a shape of its own.

* `Shape` is that view, and `fieldsHold_iff` its meaning;
* `branches` are the ways through the unions, each with the pins on it from far to near;
* `putAll` is what an arm makes of such pins: the nearest of each kind stays;
* `collectUnionArms_eq`: the arms of a variant are the branches of its shape;
* **`accepts_putAll`**: an arm accepts what its pins require together when the nearest pin of each
  kind implies the others.
-/

namespace Whatspec.Scan.Errors

open Whatspec.Library

/-! ### Arms and pins -/

def Pin.code? : Pin → Option ℤ
  | .code n => some n
  | _ => none

def Pin.text? : Pin → Option String
  | .text s => some s
  | _ => none

def Pin.range? : Pin → Option (ℤ × ℤ)
  | .range lo hi => some (lo, hi)
  | _ => none

/-- The nearest pin of a kind, in a list with far pins first. -/
def nearest {α : Type} (kind : Pin → Option α) (pins : List Pin) : Option α :=
  (pins.filterMap kind).getLast?

theorem nearest_cons {α : Type} (kind : Pin → Option α) (p : Pin) (pins : List Pin) :
    nearest kind (p :: pins) = (nearest kind pins).or (kind p) := by
  unfold nearest
  rw [List.filterMap_cons]
  cases hp : kind p with
  | none => rw [Option.or_none]
  | some a =>
    show (a :: pins.filterMap kind).getLast? = _
    rw [List.getLast?_cons]
    cases (pins.filterMap kind).getLast? <;> rfl

theorem nearest_append {α : Type} (kind : Pin → Option α) (far near : List Pin) :
    nearest kind (far ++ near) = (nearest kind near).or (nearest kind far) := by
  rw [nearest, List.filterMap_append, List.getLast?_append]
  rfl

/-- The arm that a list of pins makes, far pins first. -/
def putAll (pins : List Pin) : ErrorArm := pins.foldl ErrorArm.put .default

/-- Pins on top of an arm: what they leave open is the arm's. -/
theorem foldl_put : ∀ (pins : List Pin) (arm : ErrorArm),
    pins.foldl ErrorArm.put arm =
      { name := arm.name
        code := (nearest Pin.code? pins).or arm.code
        text := (nearest Pin.text? pins).or arm.text
        codeMin := ((nearest Pin.range? pins).map Prod.fst).or arm.codeMin
        codeMax := ((nearest Pin.range? pins).map Prod.snd).or arm.codeMax }
  | [], _ => rfl
  | p :: pins, arm => by
    rw [List.foldl_cons, foldl_put pins, nearest_cons, nearest_cons, nearest_cons]
    cases p with
    | code n =>
      cases hnear : nearest Pin.code? pins <;>
        simp [ErrorArm.put, Pin.code?, Pin.text?, Pin.range?]
    | text s =>
      cases hnear : nearest Pin.text? pins <;>
        simp [ErrorArm.put, Pin.code?, Pin.text?, Pin.range?]
    | range lo hi =>
      cases hnear : nearest Pin.range? pins <;>
        simp [ErrorArm.put, Pin.code?, Pin.text?, Pin.range?]

theorem putAll_eq (pins : List Pin) :
    putAll pins =
      { name := none
        code := nearest Pin.code? pins
        text := nearest Pin.text? pins
        codeMin := (nearest Pin.range? pins).map Prod.fst
        codeMax := (nearest Pin.range? pins).map Prod.snd } := by
  rw [putAll, foldl_put]
  simp only [ErrorArm.default, Option.or_none]

/-- Far pins under near ones. -/
theorem putAll_append (far near : List Pin) :
    putAll (far ++ near) = (putAll near).inherit (putAll far) := by
  rw [putAll_eq, putAll_eq, putAll_eq, nearest_append, nearest_append, nearest_append]
  simp only [ErrorArm.inherit, Option.map_or]

/-- **Settled pins**: the nearest pin of each kind implies all the others of its kind. -/
structure Settled (pins : List Pin) : Prop where
  code : ∀ n ∈ pins.filterMap Pin.code?, ∀ m, nearest Pin.code? pins = some m → m = n
  text : ∀ s ∈ pins.filterMap Pin.text?, ∀ t, nearest Pin.text? pins = some t → t = s
  range : ∀ r ∈ pins.filterMap Pin.range?, ∀ q,
    nearest Pin.range? pins = some q → r.1 ≤ q.1 ∧ q.2 ≤ r.2

instance (pins : List Pin) : Decidable (Settled pins) :=
  decidable_of_iff
    ((∀ n ∈ pins.filterMap Pin.code?, ∀ m ∈ nearest Pin.code? pins, m = n) ∧
      (∀ s ∈ pins.filterMap Pin.text?, ∀ t ∈ nearest Pin.text? pins, t = s) ∧
      ∀ r ∈ pins.filterMap Pin.range?, ∀ q ∈ nearest Pin.range? pins, r.1 ≤ q.1 ∧ q.2 ≤ r.2)
    ⟨fun h => ⟨h.1, h.2.1, h.2.2⟩, fun h => ⟨h.code, h.text, h.range⟩⟩

theorem exists_nearest {α : Type} {kind : Pin → Option α} {pins : List Pin} {a : α}
    (ha : a ∈ pins.filterMap kind) : ∃ b, nearest kind pins = some b := by
  unfold nearest
  cases hlast : (pins.filterMap kind).getLast? with
  | none =>
    rw [List.getLast?_eq_none_iff] at hlast
    rw [hlast] at ha
    exact absurd ha List.not_mem_nil
  | some b => exact ⟨b, rfl⟩

theorem mem_of_nearest {α : Type} {kind : Pin → Option α} {pins : List Pin} {a : α}
    (h : nearest kind pins = some a) : a ∈ pins.filterMap kind := List.mem_of_getLast? h

/-- **The arm of settled pins** accepts what the pins require together. -/
theorem accepts_putAll {pins : List Pin} (h : Settled pins) (x : Reading) :
    (putAll pins).Accepts x ↔ ∀ p ∈ pins, p.Holds x := by
  rw [putAll_eq]
  constructor
  · intro hx p hp
    cases p with
    | code n =>
      have hmem : n ∈ pins.filterMap Pin.code? := List.mem_filterMap.mpr ⟨_, hp, rfl⟩
      obtain ⟨m, hm⟩ := exists_nearest hmem
      rw [← h.code n hmem m hm]
      exact hx.code m hm
    | text s =>
      have hmem : s ∈ pins.filterMap Pin.text? := List.mem_filterMap.mpr ⟨_, hp, rfl⟩
      obtain ⟨t, ht⟩ := exists_nearest hmem
      rw [← h.text s hmem t ht]
      exact hx.text t ht
    | range lo hi =>
      have hmem : (lo, hi) ∈ pins.filterMap Pin.range? := List.mem_filterMap.mpr ⟨_, hp, rfl⟩
      obtain ⟨q, hq⟩ := exists_nearest hmem
      have hwithin := h.range _ hmem q hq
      have hmin := hx.codeMin q.1 (by simp only [hq, Option.map_some])
      have hmax := hx.codeMax q.2 (by simp only [hq, Option.map_some])
      exact ⟨hwithin.1.trans hmin, hmax.trans hwithin.2⟩
  · intro hpins
    have hrange : ∀ q, nearest Pin.range? pins = some q → q.1 ≤ x.code ∧ x.code ≤ q.2 := by
      intro q hq
      obtain ⟨p, hp, hpq⟩ := List.mem_filterMap.mp (mem_of_nearest hq)
      cases p with
      | range lo hi =>
        cases hpq
        exact hpins _ hp
      | code | text => cases hpq
    refine ⟨fun n hn => ?_, fun s hs => ?_, fun lo hlo => ?_, fun hi hhi => ?_⟩
    · obtain ⟨p, hp, hpn⟩ := List.mem_filterMap.mp (mem_of_nearest hn)
      cases p with
      | code m =>
        cases hpn
        exact hpins _ hp
      | text | range => cases hpn
    · obtain ⟨p, hp, hps⟩ := List.mem_filterMap.mp (mem_of_nearest hs)
      cases p with
      | text t =>
        cases hps
        exact hpins _ hp
      | code | range => cases hps
    · obtain ⟨q, hq, rfl⟩ := Option.map_eq_some_iff.mp hlo
      exact (hrange q hq).1
    · obtain ⟨q, hq, rfl⟩ := Option.map_eq_some_iff.mp hhi
      exact (hrange q hq).2

/-! ### Shapes -/

/-- A field outside the alternatives, with the node it is read from and the path it is filed
under. -/
structure PlacedHead where
  node : List String
  path : List String
  head : FieldHead
  deriving DecidableEq

/-- The fields of a shape and its unions, each a list of named alternatives. -/
inductive Shape where
  | mk (heads : List PlacedHead) (unions : List (List (String × Shape)))

def Shape.heads : Shape → List PlacedHead
  | ⟨heads, _⟩ => heads

def Shape.unions : Shape → List (List (String × Shape))
  | ⟨_, unions⟩ => unions

/-- The fields outside the alternatives. -/
def headsOf : List String → List String → List ParsedField → List PlacedHead
  | _, _, [] => []
  | node, path, ⟨head, children, _⟩ :: rest =>
    ⟨head.node node, path ++ head.sourcePath.getD [], head⟩ ::
      (headsOf (head.childNode node) (path ++ head.sourcePath.getD []) children ++
        headsOf node path rest)

mutual

/-- The unions outside the alternatives. -/
def unionsOf : List String → List ParsedField → List (List (String × Shape))
  | _, [] => []
  | node, ⟨head, children, unionVariants⟩ :: rest =>
    unionOf (head.node node) unionVariants ++
      (unionsOf (head.childNode node) children ++ unionsOf node rest)

def unionOf : List String → Option (List UnionVariant) → List (List (String × Shape))
  | _, none => []
  | node, some variants => [alternativesOf node variants]

def alternativesOf : List String → List UnionVariant → List (String × Shape)
  | _, [] => []
  | node, ⟨name, fields⟩ :: rest =>
    (name, ⟨headsOf node [] fields, unionsOf node fields⟩) :: alternativesOf node rest

end

/-- The shape of the fields of an error variant. -/
def shapeOf (fields : List ParsedField) : Shape := ⟨headsOf [] [] fields, unionsOf [] fields⟩

mutual

def UnionsHold (ρ : List String → Reading) : List (List (String × Shape)) → Prop
  | [] => True
  | union :: rest => AlternativeHolds ρ union ∧ UnionsHold ρ rest

def AlternativeHolds (ρ : List String → Reading) : List (String × Shape) → Prop
  | [] => False
  | (_, ⟨heads, unions⟩) :: rest =>
    (∀ h ∈ heads, h.head.Holds (ρ h.node)) ∧ UnionsHold ρ unions ∨ AlternativeHolds ρ rest

end

theorem unionsHold_append (ρ : List String → Reading) : ∀ us vs : List (List (String × Shape)),
    UnionsHold ρ (us ++ vs) ↔ UnionsHold ρ us ∧ UnionsHold ρ vs
  | [], vs => by rw [List.nil_append, UnionsHold, true_and]
  | u :: us, vs => by
    rw [List.cons_append, UnionsHold, UnionsHold, unionsHold_append ρ us vs, and_assoc]

mutual

/-- The meaning of fields is that of their shape. -/
theorem fieldsHold_iff (ρ : List String → Reading) :
    ∀ (node path : List String) (fields : List ParsedField),
      FieldsHold ρ node fields ↔
        (∀ h ∈ headsOf node path fields, h.head.Holds (ρ h.node)) ∧
          UnionsHold ρ (unionsOf node fields)
  | node, path, [] => by
    simp only [FieldsHold, headsOf, unionsOf, UnionsHold, List.not_mem_nil, false_implies,
      implies_true, and_self]
  | node, path, ⟨head, children, unionVariants⟩ :: rest => by
    rw [FieldsHold, headsOf, unionsOf,
      fieldsHold_iff ρ (head.childNode node) (path ++ head.sourcePath.getD []) children,
      fieldsHold_iff ρ node path rest, unionHolds_iff ρ (head.node node) unionVariants,
      unionsHold_append, unionsHold_append, List.forall_mem_cons, List.forall_mem_append]
    constructor
    · intro h
      exact ⟨⟨h.1, h.2.1.1, h.2.2.2.1⟩, h.2.2.1, h.2.1.2, h.2.2.2.2⟩
    · intro h
      exact ⟨h.1.1, ⟨h.1.2.1, h.2.2.1⟩, h.2.1, h.1.2.2, h.2.2.2⟩

theorem unionHolds_iff (ρ : List String → Reading) :
    ∀ (node : List String) (unionVariants : Option (List UnionVariant)),
      UnionHolds ρ node unionVariants ↔ UnionsHold ρ (unionOf node unionVariants)
  | node, none => by rw [UnionHolds, unionOf, UnionsHold]
  | node, some variants => by
    rw [UnionHolds, unionOf, UnionsHold, UnionsHold, and_true,
      someVariantHolds_iff ρ node variants]

theorem someVariantHolds_iff (ρ : List String → Reading) :
    ∀ (node : List String) (variants : List UnionVariant),
      SomeVariantHolds ρ node variants ↔ AlternativeHolds ρ (alternativesOf node variants)
  | node, [] => by rw [SomeVariantHolds, alternativesOf, AlternativeHolds]
  | node, ⟨name, fields⟩ :: rest => by
    rw [SomeVariantHolds, alternativesOf, AlternativeHolds, fieldsHold_iff ρ node [] fields,
      someVariantHolds_iff ρ node rest]

end

/-! ### Branches -/

/-- The pins of placed fields. -/
def pinsOf (heads : List PlacedHead) : List Pin := heads.filterMap fun h => h.head.pin

mutual

/-- The ways through the unions of a shape: the name of the last alternative, and the pins of all
of them from far to near. -/
def branches : List (List (String × Shape)) → List (String × List Pin)
  | [] => []
  | union :: rest => alternativeBranches union ++ branches rest

def alternativeBranches : List (String × Shape) → List (String × List Pin)
  | [] => []
  | (name, ⟨heads, unions⟩) :: rest =>
    (if (branches unions).isEmpty then [(name, pinsOf heads)]
      else (branches unions).map fun b => (b.1, pinsOf heads ++ b.2)) ++ alternativeBranches rest

end

theorem branches_append : ∀ us vs : List (List (String × Shape)),
    branches (us ++ vs) = branches us ++ branches vs
  | [], _ => by rw [List.nil_append, branches, List.nil_append]
  | u :: us, vs => by
    rw [List.cons_append, branches, branches, branches_append us vs, List.append_assoc]

theorem pinsOf_append (hs ks : List PlacedHead) : pinsOf (hs ++ ks) = pinsOf hs ++ pinsOf ks :=
  List.filterMap_append ..

theorem pinsOf_cons (h : PlacedHead) (hs : List PlacedHead) :
    pinsOf (h :: hs) = h.head.pin.toList ++ pinsOf hs := by
  rw [pinsOf, List.filterMap_cons]
  cases h.head.pin <;> rfl

/-- The pins of a shape, gathered in one walk. -/
theorem armPinsFrom_eq : ∀ (node path : List String) (fields : List ParsedField) (arm : ErrorArm),
    armPinsFrom fields arm = (pinsOf (headsOf node path fields)).foldl ErrorArm.put arm
  | _, _, [], _ => by rw [armPinsFrom, headsOf, pinsOf, List.filterMap_nil, List.foldl_nil]
  | node, path, ⟨head, children, _⟩ :: rest, arm => by
    rw [armPinsFrom, armPinsFrom_eq (head.childNode node) (path ++ head.sourcePath.getD [])
      children, armPinsFrom_eq node path rest, headsOf, pinsOf_cons]
    cases head.pin with
    | none => rw [Option.toList_none, List.nil_append, pinsOf_append, List.foldl_append]
    | some p =>
      rw [Option.toList_some, List.singleton_append, List.foldl_cons, pinsOf_append,
        List.foldl_append]

theorem armPins_eq (node : List String) (fields : List ParsedField) :
    armPins fields = putAll (pinsOf (headsOf node [] fields)) := armPinsFrom_eq node [] fields _

/-- Every alternative has a branch. -/
theorem isEmpty_alternativeBranches : ∀ alternatives : List (String × Shape),
    (alternativeBranches alternatives).isEmpty = alternatives.isEmpty
  | [] => by rw [alternativeBranches]; rfl
  | (name, ⟨heads, unions⟩) :: rest => by
    rw [alternativeBranches]
    cases branches unions <;> rfl

theorem isEmpty_alternativesOf (node : List String) : ∀ variants : List UnionVariant,
    (alternativesOf node variants).isEmpty = variants.isEmpty
  | [] => by rw [alternativesOf]; rfl
  | ⟨_, _⟩ :: _ => by rw [alternativesOf]; rfl

/-- The arm of a branch. -/
def branchArm (b : String × List Pin) : ErrorArm := { putAll b.2 with name := some b.1 }

mutual

/-- **The arms of the alternatives are the branches of the shape.** -/
theorem collectUnionArms_eq : ∀ (node : List String) (fields : List ParsedField),
    collectUnionArms fields =
      ((branches (unionsOf node fields)).map branchArm, !(branches (unionsOf node fields)).isEmpty)
  | _, [] => by
    rw [collectUnionArms, unionsOf, branches]
    rfl
  | node, ⟨head, children, unionVariants⟩ :: rest => by
    rw [collectUnionArms, unionsOf, collectUnionArms_eq (head.childNode node) children,
      collectUnionArms_eq node rest, unionArms_eq (head.node node) unionVariants,
      branches_append, branches_append, List.map_append, List.map_append]
    cases branches (unionOf (head.node node) unionVariants) <;>
      cases branches (unionsOf (head.childNode node) children) <;> rfl

theorem unionArms_eq : ∀ (node : List String) (unionVariants : Option (List UnionVariant)),
    unionArms unionVariants =
      ((branches (unionOf node unionVariants)).map branchArm,
        !(branches (unionOf node unionVariants)).isEmpty)
  | _, none => by
    rw [unionArms, unionOf, branches]
    rfl
  | node, some variants => by
    rw [unionArms, unionOf, branches, branches, List.append_nil, variantArms_eq node variants,
      isEmpty_alternativeBranches, isEmpty_alternativesOf]

theorem variantArms_eq : ∀ (node : List String) (variants : List UnionVariant),
    variantArms variants = (alternativeBranches (alternativesOf node variants)).map branchArm
  | _, [] => by
    rw [variantArms, alternativesOf, alternativeBranches]
    rfl
  | node, ⟨name, fields⟩ :: rest => by
    rw [variantArms, alternativesOf, alternativeBranches, collectUnionArms_eq node fields,
      variantArms_eq node rest, List.map_append, armPins_eq node fields]
    congr 1
    cases hempty : (branches (unionsOf node fields)).isEmpty with
    | true => rfl
    | false =>
      simp only [Bool.not_false, if_true, Bool.false_eq_true, if_false, List.map_map]
      refine List.map_congr_left fun b _ => ?_
      simp only [Function.comp_apply, branchArm, putAll_append, ErrorArm.inherit,
        Option.getD_some]

end

end Whatspec.Scan.Errors

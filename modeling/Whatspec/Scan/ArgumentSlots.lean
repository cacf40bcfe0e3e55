import Mathlib.Data.List.Nodup
import Whatspec.Scan.CalleeReduction

/-!
# The slots of an argument list

* `Expr.positions` are the positions of the arguments in an expression; its parts have parts of them;
* `Lists` and `mappedElements` go together: `maps_mappedElements`;
* `not_maps_cons`: a value in front that the list does not know of makes its slots wrong.
-/

namespace Whatspec.Scan.Callees

/-! ### Positions -/

mutual

/-- The positions of the arguments and elements that an expression writes. -/
def Expr.positions : Expr → List ℕ
  | .paren e => e.positions
  | .sequence first last => positionsOfList first ++ last.positions
  | .conditional test consequent alternate =>
    test.positions ++ consequent.positions ++ alternate.positions
  | .logical _ left right => left.positions ++ right.positions
  | .unary _ e => e.positions
  | .call callee arguments => callee.positions ++ positionsOfArguments arguments
  | .staticMember object _ => object.positions
  | .computedMember object key => object.positions ++ key.positions
  | .object properties => positionsOfEntries properties
  | .array elements => positionsOfElements elements
  | _ => []

def positionsOfList : List Expr → List ℕ
  | [] => []
  | e :: rest => e.positions ++ positionsOfList rest

def positionsOfArguments : List (Argument Expr) → List ℕ
  | [] => []
  | .expression position e :: rest => position :: e.positions ++ positionsOfArguments rest
  | .spread position e :: rest => position :: e.positions ++ positionsOfArguments rest

def positionsOfElements : List (ArrayElement Expr) → List ℕ
  | [] => []
  | .expression position e :: rest => position :: e.positions ++ positionsOfElements rest
  | .spread position e :: rest => position :: e.positions ++ positionsOfElements rest
  | .elision :: rest => positionsOfElements rest

def positionsOfEntries : List (ObjectEntry Expr) → List ℕ
  | [] => []
  | .property _ _ _ _ _ e :: rest => e.positions ++ positionsOfEntries rest
  | .spread e :: rest => e.positions ++ positionsOfEntries rest

end

theorem positions_selectedArm {e arm : Expr} (h : selectedArm e = some arm) :
    arm.positions.Sublist e.positions := by
  unfold selectedArm at h
  split at h
  · split at h
    · cases h
      exact (List.sublist_append_right _ _).trans (List.sublist_append_left _ _)
    · split at h
      · cases h
        exact List.sublist_append_right _ _
      · cases h
  · split at h
    · cases h
      exact List.sublist_append_right _ _
    · cases h
  · cases h

theorem positions_peel (e : Expr) : (peel e).positions.Sublist e.positions := by
  refine peel_induction (P := fun e r => r.positions.Sublist e.positions) ?_ ?_ ?_ ?_ e
  · exact fun e r h => h
  · exact fun first e r h => h.trans (List.sublist_append_right _ _)
  · exact fun e arm r harm h => h.trans (positions_selectedArm harm)
  · exact fun e _ => List.Sublist.refl _

theorem positions_namedMember {e object : Expr} {name : String}
    (h : namedMember e = some (name, object)) : object.positions.Sublist e.positions := by
  unfold namedMember at h
  split at h
  · cases h
    exact List.Sublist.refl _
  · split at h
    · cases h
      exact List.sublist_append_left _ _
    · cases h
      exact List.sublist_append_left _ _
    · cases h
  · cases h

theorem positions_mem_entries {key : Option String} {computed method shorthand : Bool}
    {kind : PropertyKind} {value : Expr} : ∀ {properties : List (ObjectEntry Expr)},
    ObjectEntry.property key computed method shorthand kind value ∈ properties →
      value.positions.Sublist (positionsOfEntries properties)
  | .spread e :: rest, h => by
    have hrest := (List.mem_cons.mp h).resolve_left nofun
    exact (positions_mem_entries hrest).trans (List.sublist_append_right _ _)
  | .property _ _ _ _ _ e :: rest, h => by
    rcases List.mem_cons.mp h with heq | hrest
    · cases heq
      exact List.sublist_append_left _ _
    · exact (positions_mem_entries hrest).trans (List.sublist_append_right _ _)

theorem positions_literalValue {object value : Expr} {name : String}
    (h : literalValue object name = some value) : value.positions.Sublist object.positions := by
  unfold literalValue at h
  have hpositions := positions_peel object
  split at h
  · next properties hpeel =>
    split at h
    · next howned =>
      cases h
      have hmem := List.mem_reverse.mp (mem_of_ownedFrom howned)
      rw [hpeel] at hpositions
      exact (positions_mem_entries hmem).trans hpositions
    · cases h
  · cases h

theorem positions_invokedFrom (lost : Bool) (e : Expr) :
    (invokedFrom lost e).positions.Sublist e.positions := by
  induction hn : sizeOf e using Nat.strong_induction_on generalizing e lost with
  | _ n ih =>
    subst hn
    have hother : ∀ {name object}, namedMember e = some (name, object) →
        (invokedFrom lost e).positions.Sublist e.positions := by
      intro name object hmember
      have hobject := positions_namedMember hmember
      have hsize := sizeOf_namedMember hmember
      rw [invokedFrom_member lost hmember]
      split
      · exact (ih _ hsize lost object rfl).trans hobject
      · split
        · next value hvalue =>
          have hlt := (sizeOf_literalValue hvalue).trans hsize
          exact ((ih _ hlt lost value rfl).trans (positions_literalValue hvalue)).trans hobject
        · exact List.Sublist.refl _
    have hstuck : (∀ inner, e ≠ .paren inner) → (∀ first last, e ≠ .sequence first last) →
        (∀ callee arguments, e ≠ .call callee arguments) →
          (invokedFrom lost e).positions.Sublist e.positions := by
      intro hparen hsequence hcall
      cases hselected : selectedArm e with
      | some arm =>
        rw [invokedFrom_arm lost hselected]
        have harm := ih _ (sizeOf_selectedArm hselected) true arm rfl
        exact harm.trans (positions_selectedArm hselected)
      | none =>
        cases hnamed : namedMember e with
        | some found => exact hother hnamed
        | none =>
          rw [invokedFrom_stuck lost hparen hsequence hcall hselected hnamed]
    cases e with
    | paren inner =>
      rw [invokedFrom_paren]
      exact ih _ (by simp only [Expr.paren.sizeOf_spec]; omega) lost inner rfl
    | sequence first last =>
      rw [invokedFrom_sequence]
      have hlast := ih _ (by simp only [Expr.sequence.sizeOf_spec]; omega) true last rfl
      exact hlast.trans (List.sublist_append_right _ _)
    | call callee arguments =>
      rw [invokedFrom_call]
      cases hbind : bindMember callee with
      | none => exact List.Sublist.refl _
      | some object =>
        have hlt := sizeOf_bindMember hbind
        have hcall : sizeOf callee < sizeOf (Expr.call callee arguments) := by
          simp only [Expr.call.sizeOf_spec]
          omega
        have hobject := ih _ (hlt.trans hcall) lost object rfl
        have hinvoked := ih _ hcall false callee rfl
        unfold bindMember at hbind
        split at hbind
        · cases hbind
        · split at hbind
          · next hmember =>
            split at hbind
            · cases hbind
              exact ((hobject.trans (positions_namedMember hmember)).trans hinvoked).trans
                (List.sublist_append_left _ _)
            · cases hbind
          · cases hbind
    | _ => exact hstuck (by simp) (by simp) (by simp)

theorem positions_bindMember {callee receiver : Expr} (h : bindMember callee = some receiver) :
    receiver.positions.Sublist callee.positions := by
  have hinvoked := positions_invokedFrom false callee
  unfold bindMember at h
  split at h
  · cases h
  · split at h
    · next hmember =>
      split at h
      · cases h
        exact (positions_namedMember hmember).trans hinvoked
      · cases h
    · cases h

/-! ### Lists -/

def Source.position : Source → Option ℕ
  | .of position _ | .spreadOf position _ => some position
  | _ => none

/-- What arguments give has their positions. -/
theorem position_of_passes : ∀ {arguments : List (Argument Expr)} {items : List Source},
    Passes arguments items → ∀ s ∈ items, ∃ p ∈ positionsOfArguments arguments,
      s.position = some p
  | [], _, .nil, s, hs => nomatch hs
  | .expression position e :: rest, _, .expression _ _ h, s, hs => by
    rcases List.mem_cons.mp hs with rfl | hs
    · exact ⟨position, List.mem_append_left _ List.mem_cons_self, rfl⟩
    · obtain ⟨p, hp, hposition⟩ := position_of_passes h s hs
      exact ⟨p, List.mem_append_right _ hp, hposition⟩
  | .spread position e :: rest, _, .spread _ _ count h, s, hs => by
    rcases List.mem_append.mp hs with hs | hs
    · obtain ⟨i, -, rfl⟩ := List.mem_map.mp hs
      exact ⟨position, List.mem_append_left _ List.mem_cons_self, rfl⟩
    · obtain ⟨p, hp, hposition⟩ := position_of_passes h s hs
      exact ⟨p, List.mem_append_right _ hp, hposition⟩

theorem lists_append {first second : List (ArrayElement Expr)} {items : List Source} :
    Lists (first ++ second) items ↔
      ∃ a b, Lists first a ∧ Lists second b ∧ items = a ++ b := by
  constructor
  · intro h
    induction first generalizing items with
    | nil => exact ⟨[], items, .nil, h, rfl⟩
    | cons element rest ih =>
      cases h with
      | expression position e h =>
        obtain ⟨a, b, ha, hb, rfl⟩ := ih h
        exact ⟨_ :: a, b, .expression position e ha, hb, rfl⟩
      | elision h =>
        obtain ⟨a, b, ha, hb, rfl⟩ := ih h
        exact ⟨_ :: a, b, .elision ha, hb, rfl⟩
      | spread position e count h =>
        obtain ⟨a, b, ha, hb, rfl⟩ := ih h
        exact ⟨_, b, .spread position e count ha, hb, (List.append_assoc _ _ _).symm⟩
  · rintro ⟨a, b, ha, hb, rfl⟩
    induction ha with
    | nil => exact hb
    | expression position e _ ih => exact .expression position e ih
    | elision _ ih => exact .elision ih
    | spread position e count _ ih =>
      rw [List.append_assoc]
      exact .spread position e count ih

/-- Every list of elements can be evaluated; a spread may give nothing. -/
theorem exists_lists : ∀ elements : List (ArrayElement Expr), ∃ items, Lists elements items
  | [] => ⟨[], .nil⟩
  | .expression position e :: rest => by
    obtain ⟨items, h⟩ := exists_lists rest
    exact ⟨_, .expression position e h⟩
  | .elision :: rest => by
    obtain ⟨items, h⟩ := exists_lists rest
    exact ⟨_, .elision h⟩
  | .spread position e :: rest => by
    obtain ⟨items, h⟩ := exists_lists rest
    exact ⟨_, .spread position e 0 h⟩

def argumentElements (arguments : List (Argument Expr)) : List (ArrayElement Expr) :=
  arguments.map Argument.toElement

theorem mapped_eq : ∀ arguments : List (Argument Expr),
    mapped arguments = mappedElements (argumentElements arguments)
  | [] => rfl
  | .spread _ _ :: _ => rfl
  | .expression position e :: rest => by
    show _ = (some (position, e) :: (mappedElements (argumentElements rest)).1, _)
    rw [mapped, mapped_eq rest]
    rfl

theorem positions_argumentElements : ∀ arguments : List (Argument Expr),
    positionsOfElements (argumentElements arguments) = positionsOfArguments arguments
  | [] => rfl
  | .spread position e :: rest => by
    rw [positionsOfArguments, ← positions_argumentElements rest]
    rfl
  | .expression position e :: rest => by
    rw [positionsOfArguments, ← positions_argumentElements rest]
    rfl

theorem append_mappedElements : ∀ first second : List (ArrayElement Expr),
    append (mappedElements first) (mappedElements second) = mappedElements (first ++ second)
  | [], _ => rfl
  | .spread _ _ :: _, _ => rfl
  | .expression position e :: rest, second => by
    have ih := append_mappedElements rest second
    rw [List.cons_append, mappedElements, mappedElements, ← ih]
    unfold append
    split <;> rfl
  | .elision :: rest, second => by
    have ih := append_mappedElements rest second
    rw [List.cons_append, mappedElements, mappedElements, ← ih]
    unfold append
    split <;> rfl

theorem positionsOfElements_append : ∀ first second : List (ArrayElement Expr),
    positionsOfElements (first ++ second) =
      positionsOfElements first ++ positionsOfElements second
  | [], _ => rfl
  | .expression position e :: rest, second => by
    rw [List.cons_append, positionsOfElements, positionsOfElements,
      positionsOfElements_append rest second, List.append_assoc]
  | .spread position e :: rest, second => by
    rw [List.cons_append, positionsOfElements, positionsOfElements,
      positionsOfElements_append rest second, List.append_assoc]
  | .elision :: rest, second => positionsOfElements_append rest second

/-! ### Slots -/

/-- The list stops at once. -/
def stops : List (ArrayElement Expr) → Bool
  | .spread _ _ :: _ => true
  | _ => false

theorem maps_nothing (received : List Source) : Maps ([], false) received :=
  ⟨List.nil_prefix, nofun⟩

theorem mappedElements_of_stops {elements : List (ArrayElement Expr)}
    (h : stops elements = true) : mappedElements elements = ([], false) := by
  cases elements with
  | nil => cases h
  | cons element rest =>
    cases element with
    | spread => rfl
    | _ => cases h

/-- The slots of a list are what it gives. -/
theorem maps_mappedElements {elements : List (ArrayElement Expr)} {items : List Source}
    (h : Lists elements items) : Maps (mappedElements elements) items := by
  induction h with
  | nil => exact ⟨List.nil_prefix, fun _ => rfl⟩
  | expression position e _ ih =>
    exact ⟨List.cons_prefix_cons.mpr ⟨rfl, ih.1⟩, fun h => congrArg _ (ih.2 h)⟩
  | elision _ ih => exact ⟨List.cons_prefix_cons.mpr ⟨rfl, ih.1⟩, fun h => congrArg _ (ih.2 h)⟩
  | spread => exact maps_nothing _

/-- **A value in front that the list does not know of.**  Unless the list stops at once, its slots
are then wrong. -/
theorem not_maps_cons {elements : List (ArrayElement Expr)} (hstops : stops elements = false)
    {s : Source} {p : ℕ} (hs : s.position = some p) (hp : p ∉ positionsOfElements elements)
    (received : List Source) : ¬ Maps (mappedElements elements) (s :: received) := by
  intro h
  cases elements with
  | nil => cases h.2 rfl
  | cons element rest =>
    cases element with
    | spread => cases hstops
    | expression position e =>
      have hhead : Source.of position e = s := (List.cons_prefix_cons.mp h.1).1
      rw [← hhead] at hs
      cases hs
      exact hp (List.mem_append_left _ List.mem_cons_self)
    | elision =>
      have hhead : Source.absent = s := (List.cons_prefix_cons.mp h.1).1
      rw [← hhead] at hs
      cases hs

end Whatspec.Scan.Callees

import Whatspec.Appstate.Lowering

/-!
# Scopes of the lowering

What the compiler knows changes little along its walk: expressions leave every name and every
slot as it was, statements only learn of slots that hold arrays, and a function is entered with
fresh slots for its names.
-/

namespace Whatspec.Appstate

open Whatspec.Library

/-! ### Declaring names -/

namespace Lower

/-- What declaring names does: the names are given slots of their own, and no other changes. -/
structure Declares (names own repeated : List String) (L L' : Lower) : Prop where
  rest : L' = { L with slots := L'.slots, locals := L'.locals }
  slots : L.slots ≤ L'.slots
  other : ∀ x, x ∉ names ∨ x ∈ own → L'.locals x = L.locals x
  fresh : ∀ x ∈ names, x ∉ own →
    ∃ i, L'.locals x = some (.slot i) ∧ L.slots ≤ i ∧ i < L'.slots
  injective : ∀ x ∈ names, x ∉ own → ∀ y ∈ names, y ∉ own →
    L'.locals x = L'.locals y → x = y
  repeated : ∀ x ∈ names, x ∈ own ∨ 1 < names.count x → x ∈ repeated
  noArgument : ∀ x ∈ names, x ∉ own → ∀ i, L.locals x ≠ some (.argument i)

theorem declareNames_declares {names own repeated : List String} {L L' : Lower}
    (h : declareNames names own L = .ok (repeated, L')) : Declares names own repeated L L' := by
  induction names generalizing own repeated L with
  | nil =>
    obtain ⟨rfl, rfl⟩ := Prod.mk.inj (Except.ok.inj h)
    exact ⟨rfl, le_rfl, fun _ _ => rfl, nofun, nofun, nofun, nofun⟩
  | cons name names ih =>
    rw [declareNames] at h
    split_ifs at h with hown
    · cases hrec : declareNames names own L with
      | error e => rw [hrec] at h; cases h
      | ok p =>
        obtain ⟨rep, L₁⟩ := p
        rw [hrec] at h
        obtain ⟨rfl, rfl⟩ := Prod.mk.inj (Except.ok.inj h)
        have hd := ih hrec
        have hname : ∀ {x}, x ∈ name :: names → x ∉ own → x ∈ names := by
          intro x hx hnot
          exact (List.mem_cons.mp hx).resolve_left fun he => hnot (he ▸ hown)
        refine ⟨hd.rest, hd.slots, ?_, fun x hx hnot => hd.fresh x (hname hx hnot) hnot,
          fun x hx hxo y hy hyo => hd.injective x (hname hx hxo) hxo y (hname hy hyo) hyo, ?_,
          fun x hx hnot => hd.noArgument x (hname hx hnot) hnot⟩
        · rintro x (hx | hx)
          · exact hd.other x (.inl fun hm => hx (List.mem_cons_of_mem _ hm))
          · exact hd.other x (.inr hx)
        · intro x hx hor
          rcases eq_or_ne x name with rfl | hne
          · exact List.mem_cons_self
          · have hx' := (List.mem_cons.mp hx).resolve_left hne
            rw [List.count_cons_of_ne hne.symm] at hor
            exact List.mem_cons_of_mem _ (hd.repeated x hx' hor)
    · have hstep : declareNames names (name :: own)
          { L with
            slots := L.slots + 1
            locals := Function.update L.locals name (some (.slot L.slots)) } =
          .ok (repeated, L') := by
        split at h
        · cases h
        · exact h
      have hd := ih hstep
      have hself : L'.locals name = some (.slot L.slots) := by
        rw [hd.other name (.inr List.mem_cons_self)]
        exact Function.update_self ..
      have hle := hd.slots
      have hfresh : ∀ x ∈ names, x ≠ name → x ∉ own →
          ∃ i, L'.locals x = some (.slot i) ∧ L.slots < i ∧ i < L'.slots := by
        intro x hx hne hnot
        obtain ⟨i, hi, hlow, hhigh⟩ := hd.fresh x hx
          fun hm => (List.mem_cons.mp hm).elim hne hnot
        exact ⟨i, hi, hlow, hhigh⟩
      have hapart : ∀ x ∈ names, x ≠ name → x ∉ own → L'.locals x ≠ L'.locals name := by
        intro x hx hne hnot heq
        obtain ⟨i, hi, hlow, -⟩ := hfresh x hx hne hnot
        rw [hi, hself] at heq
        obtain rfl := ValidationExpression.slot.inj (Option.some.inj heq)
        exact lt_irrefl _ hlow
      refine ⟨?_, (Nat.le_succ _).trans hle, ?_, ?_, ?_, ?_, ?_⟩
      · rw [hd.rest]
      · intro x hx
        rcases eq_or_ne x name with rfl | hne
        · exact absurd List.mem_cons_self (hx.resolve_right hown)
        · rw [hd.other x (hx.imp (fun hm hm' => hm (List.mem_cons_of_mem _ hm'))
            (List.mem_cons_of_mem _))]
          exact Function.update_of_ne hne ..
      · intro x hx hnot
        rcases eq_or_ne x name with rfl | hne
        · exact ⟨L.slots, hself, le_rfl, hle⟩
        · obtain ⟨i, hi, hlow, hhigh⟩ :=
            hfresh x ((List.mem_cons.mp hx).resolve_left hne) hne hnot
          exact ⟨i, hi, hlow.le, hhigh⟩
      · intro x hx hxo y hy hyo heq
        rcases eq_or_ne x name with rfl | hxn
        · by_contra hne
          have hy' := (List.mem_cons.mp hy).resolve_left (Ne.symm hne)
          exact hapart y hy' (Ne.symm hne) hyo heq.symm
        · have hx' := (List.mem_cons.mp hx).resolve_left hxn
          rcases eq_or_ne y name with rfl | hyn
          · exact absurd heq (hapart x hx' hxn hxo)
          · have hy' := (List.mem_cons.mp hy).resolve_left hyn
            have hnot : ∀ {z}, z ≠ name → z ∉ own → z ∉ name :: own := fun hz hzo hm =>
              (List.mem_cons.mp hm).elim hz hzo
            exact hd.injective x hx' (hnot hxn hxo) y hy' (hnot hyn hyo) heq
      · intro x hx hor
        rcases eq_or_ne x name with rfl | hne
        · have hcount := hor.resolve_left hown
          rw [List.count_cons_self] at hcount
          have hmem : x ∈ names := List.count_pos_iff.mp (by omega)
          exact hd.repeated x hmem (.inl List.mem_cons_self)
        · have hx' := (List.mem_cons.mp hx).resolve_left hne
          rw [List.count_cons_of_ne hne.symm] at hor
          exact hd.repeated x hx' (hor.imp (List.mem_cons_of_mem _) id)
      · intro x hx hnot i
        rcases eq_or_ne x name with rfl | hne
        · intro harg
          rw [harg] at h
          cases h
        · have hx' := (List.mem_cons.mp hx).resolve_left hne
          have hi : Function.update L.locals name (some (.slot L.slots)) x ≠ some (.argument i) :=
            hd.noArgument x hx' (fun hm => (List.mem_cons.mp hm).elim hne hnot) i
          rwa [Function.update_of_ne hne] at hi

theorem slotOf_eq_some {L : Lower} {x : String} {i : ℕ} :
    L.slotOf x = some i ↔ L.locals x = some (.slot i) := by
  rw [slotOf]
  constructor
  · intro h
    split at h
    · next heq => rw [heq, Option.some.inj h]
    · cases h
  · intro h
    rw [h]

/-- What entering a function does. -/
structure Enters (body : List Stmt) (L L' : Lower) : Prop where
  rest : L' = { L with slots := L'.slots, locals := L'.locals, mutable := L'.mutable }
  slots : L.slots ≤ L'.slots
  other : ∀ x ∉ bindingNames body, L'.locals x = L.locals x
  fresh : ∀ x ∈ bindingNames body,
    ∃ i, L'.locals x = some (.slot i) ∧ L.slots ≤ i ∧ i < L'.slots
  injective : ∀ x ∈ bindingNames body, ∀ y ∈ bindingNames body,
    L'.locals x = L'.locals y → x = y
  mutable : ∀ i ∈ L.mutable, i ∈ L'.mutable
  assigned : ∀ x ∈ assignedNamesStatements body, ∀ i, L'.slotOf x = some i → i ∈ L'.mutable
  once : ∀ x i, L'.slotOf x = some i → i ∉ L'.mutable → (bindingNames body).count x ≤ 1
  noArgument : ∀ x ∈ bindingNames body, ∀ i, L.locals x ≠ some (.argument i)

theorem declareScope_enters {body : List Stmt} {L L' : Lower}
    (h : L.declareScope body = .ok L') : Enters body L L' := by
  rw [declareScope] at h
  cases hdecl : declareNames (bindingNames body) [] L with
  | error e => rw [hdecl] at h; cases h
  | ok p =>
    obtain ⟨repeated, L₁⟩ := p
    rw [hdecl] at h
    obtain rfl : { L₁ with
        mutable := L₁.mutable ++
          (assignedNamesStatements body ++ repeated).filterMap L₁.slotOf } = L' :=
      Except.ok.inj h
    have hd := declareNames_declares hdecl
    have hmut : ∀ x ∈ assignedNamesStatements body ++ repeated, ∀ i, L₁.slotOf x = some i →
        i ∈ L₁.mutable ++ (assignedNamesStatements body ++ repeated).filterMap L₁.slotOf :=
      fun x hx i hi => List.mem_append_right _ (List.mem_filterMap.mpr ⟨x, hx, hi⟩)
    refine ⟨?_, hd.slots, fun x hx => hd.other x (.inl hx), fun x hx => hd.fresh x hx nofun,
      fun x hx y hy => hd.injective x hx nofun y hy nofun, ?_, ?_, ?_,
      fun x hx => hd.noArgument x hx nofun⟩
    · rw [hd.rest]
    · intro i hi
      refine List.mem_append_left _ ?_
      rw [hd.rest]
      exact hi
    · intro x hx i hi
      exact hmut x (List.mem_append_left _ hx) i hi
    · intro x i hi hnot
      by_contra hcount
      have hmem : x ∈ bindingNames body := List.count_pos_iff.mp (by omega)
      have hrep := hd.repeated x hmem (.inr (by omega))
      exact hnot (hmut x (List.mem_append_right _ hrep) i hi)

end Lower

/-! ### The walk -/

/-- What the compiler knows is the same, up to slots given to callbacks since. -/
structure Lower.Same (L L' : Lower) : Prop where
  locals : L'.locals = L.locals
  mapDepth : L'.mapDepth = L.mapDepth
  receiver : L'.receiver = L.receiver
  requires : L'.requires = L.requires
  arrayField : L'.arrayField = L.arrayField
  arrayArgument : L'.arrayArgument = L.arrayArgument
  mutable : L'.mutable = L.mutable
  slots : L.slots ≤ L'.slots
  mapFloor : L.mapDepth ≠ 0 → L'.mapFloor = L.mapFloor

theorem Lower.Same.refl (L : Lower) : L.Same L :=
  ⟨rfl, rfl, rfl, rfl, rfl, rfl, rfl, le_rfl, fun _ => rfl⟩

theorem Lower.Same.trans {L L' L'' : Lower} (h : L.Same L') (h' : L'.Same L'') : L.Same L'' where
  locals := h'.locals.trans h.locals
  mapDepth := h'.mapDepth.trans h.mapDepth
  receiver := h'.receiver.trans h.receiver
  requires := h'.requires.trans h.requires
  arrayField := h'.arrayField.trans h.arrayField
  arrayArgument := h'.arrayArgument.trans h.arrayArgument
  mutable := h'.mutable.trans h.mutable
  slots := h.slots.trans h'.slots
  mapFloor := fun hd => (h'.mapFloor (h.mapDepth ▸ hd)).trans (h.mapFloor hd)

theorem Lower.Enters.same_leave {body : List Stmt} {p : String} {L L₁ L₂ L₃ : Lower}
    (hdepth : L.mapDepth = 0) (h : L.Same L₁) (henter : Lower.Enters body (L₁.enterCallback p) L₂)
    (h' : L₂.Same L₃) : L.Same (L₁.leaveCallback L₃) where
  locals := h.locals
  mapDepth := h.mapDepth
  receiver := by
    refine h'.receiver.trans ?_
    rw [henter.rest]
    exact h.receiver
  requires := by
    refine h'.requires.trans ?_
    rw [henter.rest]
    exact h.requires
  arrayField := by
    refine h'.arrayField.trans ?_
    rw [henter.rest]
    exact h.arrayField
  arrayArgument := by
    refine h'.arrayArgument.trans ?_
    rw [henter.rest]
    exact h.arrayArgument
  mutable := h.mutable
  slots := (h.slots.trans henter.slots).trans h'.slots
  mapFloor := fun hne => absurd hdepth hne

theorem Lower.Same.slotOf {L L' : Lower} (h : L.Same L') : L'.slotOf = L.slotOf := by
  funext x
  rw [Lower.slotOf, Lower.slotOf, h.locals]

/-- The slots of some names. -/
def Lower.SlotAmong (L : Lower) (names : List String) (i : ℕ) : Prop :=
  ∃ x ∈ names, L.slotOf x = some i

theorem Lower.slotAmong_append {L : Lower} {names names' : List String} {i : ℕ} :
    L.SlotAmong (names ++ names') i ↔ L.SlotAmong names i ∨ L.SlotAmong names' i := by
  simp only [Lower.SlotAmong, List.mem_append, or_and_right, exists_or]

theorem Lower.Same.slotAmong {L L' : Lower} (h : L.Same L') (names : List String) (i : ℕ) :
    L'.SlotAmong names i ↔ L.SlotAmong names i := by
  rw [Lower.SlotAmong, Lower.SlotAmong, h.slotOf]

theorem Lower.not_slotAmong_nil {L : Lower} {i : ℕ} : ¬L.SlotAmong [] i :=
  fun ⟨_, hx, _⟩ => nomatch hx

/-- Statements may learn of arrays, but only in slots of the names they declare. -/
def Lower.Learns (names : List String) (L L' : Lower) : Prop :=
  ∀ i ∈ L'.arrays, i ∈ L.arrays ∨ L.SlotAmong names i

theorem Lower.Learns.of_eq {names : List String} {L L' : Lower} (h : L'.arrays = L.arrays) :
    Lower.Learns names L L' := fun i hi => .inl (h ▸ hi)

theorem Lower.Learns.trans {names names' : List String} {L L' L'' : Lower} (hs : L.Same L')
    (h : Lower.Learns names L L') (h' : Lower.Learns names' L' L'') :
    Lower.Learns (names ++ names') L L'' := by
  intro i hi
  rw [Lower.slotAmong_append]
  obtain hi | hi := h' i hi
  · exact (h i hi).imp_right .inl
  · exact .inr (.inr ((hs.slotAmong names' i).mp hi))

theorem Lower.bindArray_same (L : Lower) (slot : ℕ) (r : ValidationExpression) :
    L.Same (L.bindArray slot r) := by
  rw [Lower.bindArray]
  split_ifs
  · exact ⟨rfl, rfl, rfl, rfl, rfl, rfl, rfl, le_rfl, fun _ => rfl⟩
  · exact .refl L

mutual

/-- **Expressions change nothing that the compiler knows.** -/
theorem LowersExpr.same {L L' : Lower} {e : Expr} {r : ValidationExpression} :
    LowersExpr L e r L' → L.Same L' ∧ L'.arrays = L.arrays
  | .parenthesized h => h.same
  | .identifier _ => ⟨.refl L, rfl⟩
  | .nullLiteral => ⟨.refl L, rfl⟩
  | .numericLiteral _ => ⟨.refl L, rfl⟩
  | .stringLiteral => ⟨.refl L, rfl⟩
  | .void => ⟨.refl L, rfl⟩
  | .logicalNot h => h.same
  | .metric _ _ => ⟨.refl L, rfl⟩
  | .field h _ => h.same
  | .and h h' => ⟨h.same.1.trans h'.same.1, h'.same.2.trans h.same.2⟩
  | .or h h' => ⟨h.same.1.trans h'.same.1, h'.same.2.trans h.same.2⟩
  | .equality h => h.same
  | .inequality h => h.same
  | .greater h h' => ⟨h.same.1.trans h'.same.1, h'.same.2.trans h.same.2⟩
  | .conditional h h' h'' => ⟨(h.same.1.trans h'.same.1).trans h''.same.1,
      (h''.same.2.trans h'.same.2).trans h.same.2⟩
  | .assignment _ _ h => h.same
  | .sequence h => h.same
  | .object h => h.same
  | .map _ hdepth h _ hscope hbody =>
    ⟨(Lower.declareScope_enters hscope).same_leave hdepth h.same.1 hbody.same.1, h.same.2⟩
  | .decode _ _ _ h => h.same
  | .validate _ _ h => h.same
  | .transform _ h => h.same

theorem LowersAll.same {L L' : Lower} {es : List Expr} {rs : List ValidationExpression} :
    LowersAll L es rs L' → L.Same L' ∧ L'.arrays = L.arrays
  | .nil => ⟨.refl L, rfl⟩
  | .cons h h' => ⟨h.same.1.trans h'.same.1, h'.same.2.trans h.same.2⟩

theorem LowersProperties.same {L L' : Lower} {ps : List (PropertyHead × Expr)}
    {before : List String} {rs : List (String × ValidationExpression)} :
    LowersProperties L ps before rs L' → L.Same L' ∧ L'.arrays = L.arrays
  | .nil => ⟨.refl L, rfl⟩
  | .cons _ h h' => ⟨h.same.1.trans h'.same.1, h'.same.2.trans h.same.2⟩

/-- **Statements only learn of arrays**, in slots of the names they declare. -/
theorem LowersStatement.same {L L' : Lower} {s : Stmt} {ss : List ValidationStatement} :
    LowersStatement L s ss L' → L.Same L' ∧ Lower.Learns s.bindingNames L L'
  | .declaration h => by
    rw [Stmt.bindingNames]
    exact h.same
  | .ifElse h h' h'' => by
    rw [Stmt.bindingNames]
    exact ⟨(h.same.1.trans h'.same.1).trans h''.same.1,
      ((@Lower.Learns.of_eq [] _ _ h.same.2).trans h.same.1 h'.same.2).trans
        (h.same.1.trans h'.same.1) h''.same.2⟩
  | .ifThen h h' => by
    rw [Stmt.bindingNames]
    exact ⟨h.same.1.trans h'.same.1,
      (@Lower.Learns.of_eq [] _ _ h.same.2).trans h.same.1 h'.same.2⟩
  | .block h => by
    rw [Stmt.bindingNames]
    exact h.same
  | .return h => ⟨h.same.1, .of_eq h.same.2⟩
  | .expression h => ⟨h.same.1, .of_eq h.same.2⟩
  | .fatal _ h h' _ _ => ⟨h.same.1.trans h'.same.1, .of_eq (h'.same.2.trans h.same.2)⟩

theorem LowersStatements.same {L L' : Lower} {body : List Stmt}
    {ss : List ValidationStatement} :
    LowersStatements L body ss L' → L.Same L' ∧ Lower.Learns (bindingNames body) L L'
  | .nil => ⟨.refl L, .of_eq rfl⟩
  | .cons h h' => by
    rw [bindingNames]
    exact ⟨h.same.1.trans h'.same.1, h.same.2.trans h.same.1 h'.same.2⟩

theorem LowersDeclarations.same {L L' : Lower} {isVar : Bool}
    {ds : List (Option String × Option Expr)} {ss : List ValidationStatement} :
    LowersDeclarations L isVar ds ss L' →
      L.Same L' ∧ Lower.Learns (ds.filterMap Prod.fst) L L'
  | .nil => ⟨.refl L, .of_eq rfl⟩
  | @LowersDeclarations.cons L x slot e r L₁ ds rest L₂ hslot h h' => by
    have hbind := L₁.bindArray_same slot r
    refine ⟨(h.same.1.trans hbind).trans h'.same.1, ?_⟩
    have hlearn : Lower.Learns [x] L (L₁.bindArray slot r) := by
      intro i hi
      rw [Lower.bindArray] at hi
      split_ifs at hi
      · rcases List.mem_cons.mp hi with rfl | hi
        · exact .inr ⟨x, List.mem_singleton_self x, hslot⟩
        · exact .inl (h.same.2 ▸ hi)
      · exact .inl (h.same.2 ▸ hi)
    exact hlearn.trans (h.same.1.trans hbind) h'.same.2

end

end Whatspec.Appstate

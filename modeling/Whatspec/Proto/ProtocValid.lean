import Whatspec.Proto.Placement

/-!
# Is the result valid for `protoc`?

`ProtocValid` is the scoping rule of `protoc`: in every scope, the package and each message,
the members, the declarations and the values of the declared enums have distinct names.
`UniqueNames` is what the tree starts with, where an enum is a scope of its own.

`makeProtocValid_valid_iff` gives the trees for which the pass delivers: the messages were
valid already, every arriving enum finds its host free of its name and values, no two
enums of one host share a name or value, and what stays at package scope does not meet a
prefixed value or a value spelled like a declaration.  Two enums of one clash component that
move into one message break it, as `makeProtocValid_keeps_clash` shows.
-/

namespace Whatspec.Proto

open Whatspec.Library

/-- The names a member declares in its message. -/
def ProtoMember.names : ProtoMember → List String
  | .field f => [f.name]
  | .oneOf o => o.name :: o.fields.map ProtoField.name

/-- The names an enum declares in the scope around it: its own and its values'. -/
def ProtoEnum.symbols (e : ProtoEnum) : List String := e.name :: e.valueNames

/-- The names an entity declares in the scope around it. -/
def ProtoEntity.symbols : ProtoEntity → List String
  | .message n _ _ => [n]
  | .enum e => e.symbols

/-- The names declared inside a message. -/
def scopeSymbols (ms : List ProtoMember) (nested : List ProtoEntity) : List String :=
  ms.flatMap ProtoMember.names ++ nested.flatMap ProtoEntity.symbols

/-- Every message scope in the entity declares distinct names. -/
inductive ValidScopes : ProtoEntity → Prop
  | message {n ms nested} : (scopeSymbols ms nested).Nodup → (∀ e ∈ nested, ValidScopes e) →
      ValidScopes (.message n ms nested)
  | enum {e} : ValidScopes (.enum e)

/-- Every scope of the tree declares distinct names. -/
def ProtocValid (es : List ProtoEntity) : Prop :=
  (es.flatMap ProtoEntity.symbols).Nodup ∧ ∀ e ∈ es, ValidScopes e

/-- The names are distinct where an enum is a scope of its own. -/
inductive UniqueInside : ProtoEntity → Prop
  | message {n ms nested} :
      (ms.flatMap ProtoMember.names ++ nested.map ProtoEntity.name).Nodup →
      (∀ e ∈ nested, UniqueInside e) → UniqueInside (.message n ms nested)
  | enum {e} : e.valueNames.Nodup → UniqueInside (.enum e)

/-- The names of a tree are unique per scope. -/
def UniqueNames (es : List ProtoEntity) : Prop :=
  (es.map ProtoEntity.name).Nodup ∧ ∀ e ∈ es, UniqueInside e

/-- The entity is not an enum that moves. -/
def Stays (es : List ProtoEntity) : ProtoEntity → Prop
  | .message _ _ _ => True
  | .enum x => ∀ h, ¬ MovesTo es x.name h

/-- A value name of an enum at package scope, prefixed when the enum is. -/
def PlacedValue (es : List ProtoEntity) (x : ProtoEnum) (v : String) : Prop :=
  Prefixed es x.name ∧ (∃ w ∈ x.valueNames, v = x.name ++ "_" ++ w) ∨
    ¬ Prefixed es x.name ∧ v ∈ x.valueNames

/-- The trees that the pass makes valid. -/
structure RelocationSafe (es : List ProtoEntity) : Prop where
  /-- The messages are valid as they are. -/
  inner : ∀ e ∈ es, ValidScopes e
  /-- An enum that moves is not named like one of its values. -/
  own : ∀ x h, .enum x ∈ es → MovesTo es x.name h → x.name ∉ x.valueNames
  /-- An enum that moves meets nothing its host declares. -/
  hosts : ∀ x h ms nested, .enum x ∈ es → MovesTo es x.name h → .message h ms nested ∈ es →
    (scopeSymbols ms nested).Disjoint x.symbols
  /-- Two enums that move into one host meet neither. -/
  together : ∀ x y h, .enum x ∈ es → .enum y ∈ es → MovesTo es x.name h → MovesTo es y.name h →
    x.name ≠ y.name → x.symbols.Disjoint y.symbols
  /-- No value at package scope is spelled like what is declared there. -/
  names : ∀ x e, .enum x ∈ es → e ∈ es → Stays es (.enum x) → Stays es e →
    ¬ PlacedValue es x e.name
  /-- A prefixed value is no value of another enum at package scope. -/
  values : ∀ x y v, .enum x ∈ es → .enum y ∈ es → Stays es (.enum x) → Stays es (.enum y) →
    x.name ≠ y.name → Prefixed es x.name → PlacedValue es x v → ¬ PlacedValue es y v

theorem validScopes_message {n : String} {ms : List ProtoMember} {nested : List ProtoEntity} :
    ValidScopes (.message n ms nested) ↔
      (scopeSymbols ms nested).Nodup ∧ ∀ e ∈ nested, ValidScopes e := by
  constructor
  · intro h
    cases h with
    | message hnodup hnested => exact ⟨hnodup, hnested⟩
  · intro h
    exact .message h.1 h.2

/-! ### Rewriting types leaves the scopes as they are -/

section Requalify

variable (es : List ProtoEntity)

theorem names_rewriteMember (qualified : List (String × String)) (m : ProtoMember) :
    (rewriteMember qualified m).names = m.names := by
  have hname : ∀ f, (rewriteField qualified f).name = f.name := fun f => by rw [rewriteField]
  cases m with
  | field f => rw [rewriteMember, ProtoMember.names, ProtoMember.names, hname]
  | oneOf o =>
      have hcomp : ProtoField.name ∘ rewriteField qualified = ProtoField.name := funext hname
      rw [rewriteMember, ProtoMember.names, ProtoMember.names, List.map_map, hcomp]

theorem names_requalifyMember (m : ProtoMember) : (requalifyMember es m).names = m.names := by
  unfold requalifyMember
  by_cases h : qualifiedNames es = []
  · rw [if_pos h]
  · rw [if_neg h, names_rewriteMember]

theorem symbols_requalify (e : ProtoEntity) : (requalify es e).symbols = e.symbols := by
  cases e with
  | message n ms nested => rw [requalify_message, ProtoEntity.symbols, ProtoEntity.symbols]
  | enum x => rw [requalify_enum]

theorem scopeSymbols_requalify (ms : List ProtoMember) (nested : List ProtoEntity) :
    scopeSymbols (ms.map (requalifyMember es)) (nested.map (requalify es)) =
      scopeSymbols ms nested := by
  unfold scopeSymbols
  rw [List.flatMap_map, List.flatMap_map]
  simp only [names_requalifyMember, symbols_requalify]

theorem validScopes_requalify (e : ProtoEntity) : ValidScopes (requalify es e) ↔ ValidScopes e := by
  induction e with
  | message n ms nested ih =>
      rw [requalify_message, validScopes_message, validScopes_message, scopeSymbols_requalify]
      refine and_congr_right fun _ => ?_
      simp only [List.mem_map, forall_exists_index, and_imp, forall_apply_eq_imp_iff₂]
      exact forall₂_congr ih
  | enum x => rw [requalify_enum]

end Requalify

/-! ### Message scopes -/

theorem disjoint_flatMap_right {l : List String} {es : List ProtoEntity} :
    l.Disjoint (es.flatMap ProtoEntity.symbols) ↔ ∀ e ∈ es, l.Disjoint e.symbols := by
  constructor
  · intro h e he x hx hxe
    exact h hx (List.mem_flatMap.mpr ⟨e, he, hxe⟩)
  · intro h x hx hxe
    obtain ⟨e, he, hmem⟩ := List.mem_flatMap.mp hxe
    exact h e he hx hmem

/-- Names that are pairwise apart, for declarations with distinct names. -/
theorem nodup_flatMap_symbols_iff {es : List ProtoEntity}
    (hnodup : (es.map ProtoEntity.name).Nodup) :
    (es.flatMap ProtoEntity.symbols).Nodup ↔ (∀ e ∈ es, e.symbols.Nodup) ∧
      ∀ e ∈ es, ∀ f ∈ es, e.name ≠ f.name → e.symbols.Disjoint f.symbols := by
  rw [List.nodup_flatMap]
  refine and_congr_right fun _ => ?_
  constructor
  · intro hpair e he f hf hne
    have hsymm : Std.Symm (Function.onFun List.Disjoint ProtoEntity.symbols) :=
      ⟨fun _ _ h _ hx hy => h hy hx⟩
    exact hpair.forall he hf fun heq => hne (congrArg _ heq)
  · intro hall
    refine (List.Nodup.of_map _ hnodup).pairwise_of_forall_ne fun e he f hf hne => ?_
    exact hall e he f hf fun heq => hne (eq_of_name_eq hnodup he hf heq)

theorem settle_message (es : List ProtoEntity) (n : String) (ms : List ProtoMember)
    (nested : List ProtoEntity) :
    settle es (.message n ms nested) =
      .message n (ms.map (requalifyMember es)) (nested.map (requalify es) ++ arrivals es n) := by
  rw [settle, prefixNamed, requalify_message, addNested, ProtoEntity.name_message]

theorem settle_enum (es : List ProtoEntity) (x : ProtoEnum) :
    settle es (.enum x) = prefixNamed (prefixes es) (.enum x) := by
  rw [settle, prefixNamed]
  by_cases h : x.name ∈ prefixes es
  · rw [if_pos h, requalify_enum, addNested]
  · rw [if_neg h, requalify_enum, addNested]

/-- **A message after the pass** is valid when it was, and the arriving enums fit in. -/
theorem validScopes_settle_iff {es : List ProtoEntity} (hnodup : (es.map ProtoEntity.name).Nodup)
    (n : String) (ms : List ProtoMember) (nested : List ProtoEntity) :
    ValidScopes (settle es (.message n ms nested)) ↔
      ValidScopes (.message n ms nested) ∧
        ((∀ e ∈ arrivals es n, e.symbols.Nodup) ∧
          ∀ e ∈ arrivals es n, ∀ f ∈ arrivals es n, e.name ≠ f.name →
            e.symbols.Disjoint f.symbols) ∧
          ∀ e ∈ arrivals es n, (scopeSymbols ms nested).Disjoint e.symbols := by
  have hscope : scopeSymbols (ms.map (requalifyMember es))
      (nested.map (requalify es) ++ arrivals es n) =
        scopeSymbols ms nested ++ (arrivals es n).flatMap ProtoEntity.symbols := by
    rw [← scopeSymbols_requalify es ms nested]
    unfold scopeSymbols
    rw [List.flatMap_append, List.append_assoc]
  have hinner : (∀ e ∈ nested.map (requalify es) ++ arrivals es n, ValidScopes e) ↔
      ∀ e ∈ nested, ValidScopes e := by
    constructor
    · intro h e he
      exact (validScopes_requalify es e).mp
        (h _ (List.mem_append_left _ (List.mem_map_of_mem he)))
    · intro h e he
      cases List.mem_append.mp he with
      | inl hold =>
          obtain ⟨e', he', rfl⟩ := List.mem_map.mp hold
          exact (validScopes_requalify es e').mpr (h e' he')
      | inr hnew =>
          obtain ⟨x, rfl, _, _⟩ := (mem_arrivals_iff hnodup).mp hnew
          exact .enum
  rw [settle_message, validScopes_message, validScopes_message, hscope, hinner,
    List.nodup_append', nodup_flatMap_symbols_iff (nodup_arrivals hnodup n),
    disjoint_flatMap_right]
  constructor
  · intro h
    exact ⟨⟨h.1.1, h.2⟩, h.1.2.1, h.1.2.2⟩
  · intro h
    exact ⟨⟨h.1.1, h.2.1, h.2.2⟩, h.1.2⟩

/-! ### The package -/

theorem stays_iff {es : List ProtoEntity} {e : ProtoEntity} :
    (!isEnumNamed ((moves es).map Prod.fst) e) = true ↔ Stays es e := by
  cases e with
  | message n ms nested => exact iff_of_true rfl trivial
  | enum x =>
      rw [isEnumNamed, Bool.not_eq_true', decide_eq_false_iff_not, mem_fst_moves, Stays, not_exists]

theorem valueNames_prefixValues (x : ProtoEnum) :
    (prefixValues x).valueNames = x.valueNames.map fun w => x.name ++ "_" ++ w := by
  rw [prefixValues, ProtoEnum.valueNames, ProtoEnum.valueNames, List.map_map, List.map_map]
  rfl

/-- The values of an enum at package scope. -/
theorem mem_settled_values {es : List ProtoEntity} {x : ProtoEnum} {v : String} :
    v ∈ (settle es (.enum x)).symbols ↔ v = x.name ∨ PlacedValue es x v := by
  rw [settle_enum, prefixNamed, PlacedValue, ← mem_prefixes_iff]
  by_cases h : x.name ∈ prefixes es
  · rw [if_pos h, ProtoEntity.symbols, ProtoEnum.symbols, valueNames_prefixValues,
      List.mem_cons, List.mem_map]
    simp only [h, not_true, true_and, false_and, or_false, eq_comm]
    rfl
  · rw [if_neg h, ProtoEntity.symbols, ProtoEnum.symbols, List.mem_cons]
    simp only [h, not_false_iff, true_and, false_and, false_or]

theorem prefix_injective (n : String) : Function.Injective fun w : String => n ++ "_" ++ w := by
  intro v w h
  have hlist := congrArg String.toList h
  simp only [String.toList_append] at hlist
  exact String.toList_inj.mp (List.append_cancel_left hlist)

/-- A staying enum declares distinct names when none of its values is spelled like it. -/
theorem nodup_settled_enum {es : List ProtoEntity} {x : ProtoEnum} (hx : x.valueNames.Nodup) :
    (settle es (.enum x)).symbols.Nodup ↔ ¬ PlacedValue es x x.name := by
  rw [settle_enum, prefixNamed, PlacedValue, ← mem_prefixes_iff]
  by_cases h : x.name ∈ prefixes es
  · have hvalues := hx.map (prefix_injective x.name)
    have hown : x.name ∈ x.valueNames.map (fun w => x.name ++ "_" ++ w) ↔
        ∃ w ∈ x.valueNames, x.name = x.name ++ "_" ++ w := by
      rw [List.mem_map]
      exact exists_congr fun w => and_congr_right fun _ => eq_comm
    rw [if_pos h, ProtoEntity.symbols, ProtoEnum.symbols, valueNames_prefixValues,
      List.nodup_cons]
    show x.name ∉ x.valueNames.map (fun w => x.name ++ "_" ++ w) ∧ _ ↔ _
    rw [hown]
    simp only [h, not_true, true_and, false_and, or_false, hvalues, and_true]
  · rw [if_neg h, ProtoEntity.symbols, ProtoEnum.symbols, List.nodup_cons]
    simp only [h, not_false_iff, true_and, false_and, false_or, hx, and_true]

/-- What an entity that stays declares at package scope. -/
theorem mem_symbols_settle {es : List ProtoEntity} {e : ProtoEntity} {v : String} :
    v ∈ (settle es e).symbols ↔ v = e.name ∨ ∃ x, e = .enum x ∧ PlacedValue es x v := by
  cases e with
  | message n ms nested =>
      rw [settle_message, ProtoEntity.symbols, List.mem_singleton, ProtoEntity.name_message]
      refine ⟨Or.inl, fun h => h.elim id fun h => ?_⟩
      obtain ⟨x, hx, _⟩ := h
      cases hx
  | enum x =>
      rw [mem_settled_values, ProtoEntity.name_enum]
      refine or_congr_right ⟨fun h => ⟨x, rfl, h⟩, fun h => ?_⟩
      obtain ⟨y, hy, hplaced⟩ := h
      cases hy
      exact hplaced

/-- An enum that stays unprefixed does not leave. -/
theorem not_leaves_of_stays {es : List ProtoEntity} {x : ProtoEnum} (hstays : Stays es (.enum x))
    (hprefixed : ¬ Prefixed es x.name) : ¬ Leaves es x.name := by
  intro hleaves
  cases hhost : hostOf (referencers es) x.name with
  | none => exact hprefixed ⟨hleaves, hhost⟩
  | some h => exact hstays h ⟨hleaves, hhost⟩

section Package

variable {es : List ProtoEntity} (hunique : UniqueNames es)

/-- **Values at package scope are apart**, except where a prefix brings them together. -/
theorem placed_apart {x y : ProtoEnum} (hx : .enum x ∈ es) (hy : .enum y ∈ es)
    (hxs : Stays es (.enum x)) (hys : Stays es (.enum y)) (hne : x.name ≠ y.name)
    (hsafe : ∀ x y v, ProtoEntity.enum x ∈ es → .enum y ∈ es → Stays es (.enum x) →
      Stays es (.enum y) → x.name ≠ y.name → Prefixed es x.name → PlacedValue es x v →
        ¬ PlacedValue es y v) {v : String} (hvx : PlacedValue es x v) : ¬ PlacedValue es y v := by
  intro hvy
  by_cases hpx : Prefixed es x.name
  · exact hsafe x y v hx hy hxs hys hne hpx hvx hvy
  · by_cases hpy : Prefixed es y.name
    · exact hsafe y x v hy hx hys hxs hne.symm hpy hvy hvx
    · have hvx' := (hvx.resolve_left fun h => hpx h.1).2
      have hvy' := (hvy.resolve_left fun h => hpy h.1).2
      exact disjoint_of_stays hx hy hne (not_leaves_of_stays hxs hpx)
        (not_leaves_of_stays hys hpy) v hvx' hvy'

include hunique in
/-- The package scope after the pass. -/
theorem package_valid_iff :
    (((es.filter fun e => !isEnumNamed ((moves es).map Prod.fst) e).map (settle es)).flatMap
      ProtoEntity.symbols).Nodup ↔
      (∀ x e, ProtoEntity.enum x ∈ es → e ∈ es → Stays es (.enum x) → Stays es e →
        ¬ PlacedValue es x e.name) ∧
      ∀ x y v, ProtoEntity.enum x ∈ es → .enum y ∈ es → Stays es (.enum x) → Stays es (.enum y) →
        x.name ≠ y.name → Prefixed es x.name → PlacedValue es x v → ¬ PlacedValue es y v := by
  have hnames := name_filter_kept (name_settle es)
    (fun e => !isEnumNamed ((moves es).map Prod.fst) e) hunique.1
  have hmem : ∀ f, f ∈ (es.filter fun e => !isEnumNamed ((moves es).map Prod.fst) e).map
      (settle es) ↔ ∃ e ∈ es, Stays es e ∧ settle es e = f := by
    intro f
    simp only [List.mem_map, List.mem_filter, stays_iff, and_assoc]
  rw [nodup_flatMap_symbols_iff hnames]
  constructor
  · intro h
    obtain ⟨hnodup, hapart⟩ := h
    refine ⟨fun x e hx he hxs hes hplaced => ?_, fun x y v hx hy hxs hys hne _ hvx hvy => ?_⟩
    · by_cases hname : e.name = x.name
      · have hxnodup : x.valueNames.Nodup := by
          cases hunique.2 _ hx with
          | enum h => exact h
        have hsettled := hnodup _ ((hmem _).mpr ⟨_, hx, hxs, rfl⟩)
        exact (nodup_settled_enum hxnodup).mp hsettled (hname ▸ hplaced)
      · have hdisj := hapart _ ((hmem _).mpr ⟨_, he, hes, rfl⟩) _ ((hmem _).mpr ⟨_, hx, hxs, rfl⟩)
          (by rw [name_settle, name_settle]; exact hname)
        exact hdisj (mem_symbols_settle.mpr (Or.inl rfl)) (mem_settled_values.mpr (Or.inr hplaced))
    · have hdisj := hapart _ ((hmem _).mpr ⟨_, hx, hxs, rfl⟩) _ ((hmem _).mpr ⟨_, hy, hys, rfl⟩)
        (by rw [name_settle, name_settle]; exact hne)
      exact hdisj (mem_settled_values.mpr (Or.inr hvx)) (mem_settled_values.mpr (Or.inr hvy))
  · intro h
    obtain ⟨hsafeNames, hsafeValues⟩ := h
    constructor
    · intro f hf
      obtain ⟨e, he, hes, rfl⟩ := (hmem f).mp hf
      cases e with
      | message n ms nested =>
          rw [settle_message, ProtoEntity.symbols]
          exact List.nodup_singleton n
      | enum x =>
          have hxnodup : x.valueNames.Nodup := by
            cases hunique.2 _ he with
            | enum h => exact h
          exact (nodup_settled_enum hxnodup).mpr (hsafeNames x _ he he hes hes)
    · intro f hf g hg hne v hvf hvg
      obtain ⟨e, he, hes, rfl⟩ := (hmem f).mp hf
      obtain ⟨e', he', hes', rfl⟩ := (hmem g).mp hg
      rw [name_settle, name_settle] at hne
      rcases mem_symbols_settle.mp hvf with rfl | ⟨x, rfl, hvx⟩
      · rcases mem_symbols_settle.mp hvg with heq | ⟨y, rfl, hvy⟩
        · exact hne heq
        · exact hsafeNames y e he' he hes' hes hvy
      · rcases mem_symbols_settle.mp hvg with rfl | ⟨y, rfl, hvy⟩
        · exact hsafeNames x e' he he' hes hes' hvx
        · exact placed_apart he he' hes hes' hne hsafeValues hvx hvy

end Package

/-! ### The whole tree -/

theorem referencers_congr {es es' : List ProtoEntity} (h : ∀ e, e ∈ es ↔ e ∈ es') :
    referencers es = referencers es' := by
  refine Grouping.group_congr fun p => ?_
  simp only [List.mem_flatMap, h]

theorem clash_congr {es es' : List ProtoEntity} (h : ∀ e, e ∈ es ↔ e ∈ es') :
    Clash es = Clash es' := by
  funext a b
  simp only [Clash, h]

theorem leaves_congr {es es' : List ProtoEntity} (h : ∀ e, e ∈ es ↔ e ∈ es') :
    Leaves es = Leaves es' := by
  funext a
  simp only [Leaves, Connected, clash_congr h, referencers_congr h]

/-- The condition depends on which entities there are, not on their order. -/
theorem relocationSafe_congr {es es' : List ProtoEntity} (h : ∀ e, e ∈ es ↔ e ∈ es') :
    RelocationSafe es ↔ RelocationSafe es' := by
  have hmoves : MovesTo es = MovesTo es' := by
    funext a b
    simp only [MovesTo, leaves_congr h, referencers_congr h]
  have hprefixed : Prefixed es = Prefixed es' := by
    funext a
    simp only [Prefixed, leaves_congr h, referencers_congr h]
  have hstays : Stays es = Stays es' := by
    funext e
    cases e <;> simp only [Stays, hmoves]
  have hplaced : PlacedValue es = PlacedValue es' := by
    funext x v
    simp only [PlacedValue, hprefixed]
  constructor
  · intro hsafe
    obtain ⟨h1, h2, h3, h4, h5, h6⟩ := hsafe
    simp only [h, hmoves, hprefixed, hstays, hplaced] at h1 h2 h3 h4 h5 h6
    exact ⟨h1, h2, h3, h4, h5, h6⟩
  · intro hsafe
    obtain ⟨h1, h2, h3, h4, h5, h6⟩ := hsafe
    simp only [← h, ← hmoves, ← hprefixed, ← hstays, ← hplaced] at h1 h2 h3 h4 h5 h6
    exact ⟨h1, h2, h3, h4, h5, h6⟩

/-- The pass on entities with distinct names. -/
theorem relocate_valid_iff (order : HashOrder String) {es : List ProtoEntity}
    (hunique : UniqueNames es) :
    ProtocValid (relocateCollidingEnums order es) ↔ RelocationSafe es := by
  have hvalues : ∀ x, ProtoEntity.enum x ∈ es → x.valueNames.Nodup := by
    intro x hx
    cases hunique.2 _ hx with
    | enum h => exact h
  have hscopes : (∀ e ∈ (es.filter fun e => !isEnumNamed ((moves es).map Prod.fst) e).map
      (settle es), ValidScopes e) ↔
        ∀ n ms nested, ProtoEntity.message n ms nested ∈ es →
          ValidScopes (settle es (.message n ms nested)) := by
    constructor
    · intro h n ms nested hmem
      exact h _ (List.mem_map_of_mem (List.mem_filter.mpr ⟨hmem, rfl⟩))
    · intro h e he
      obtain ⟨e', he', rfl⟩ := List.mem_map.mp he
      cases e' with
      | message n ms nested => exact h n ms nested (List.mem_filter.mp he').1
      | enum x =>
          rw [settle_enum, prefixNamed]
          split_ifs <;> exact .enum
  rw [ProtocValid, relocate_eq order hunique.1, package_valid_iff hunique, hscopes]
  simp only [validScopes_settle_iff hunique.1, mem_arrivals_iff hunique.1]
  constructor
  · intro h
    obtain ⟨⟨hnames, hvals⟩, hmsgs⟩ := h
    refine ⟨fun e he => ?_, fun x h hx hmoves => ?_, fun x h ms nested hx hmoves hmsg => ?_,
      fun x y h hx hy hmx hmy hne => ?_, hnames, hvals⟩
    · cases e with
      | message n ms nested => exact (hmsgs n ms nested he).1
      | enum x => exact .enum
    · obtain ⟨ms, nested, hmsg⟩ := (isMessageNamed_of_hostOf hmoves.2).1
      have hnodup := (hmsgs h ms nested hmsg).2.1.1 (.enum x) ⟨x, rfl, hx, hmoves⟩
      exact (List.nodup_cons.mp hnodup).1
    · exact (hmsgs h ms nested hmsg).2.2 (.enum x) ⟨x, rfl, hx, hmoves⟩
    · obtain ⟨ms, nested, hmsg⟩ := (isMessageNamed_of_hostOf hmx.2).1
      exact (hmsgs h ms nested hmsg).2.1.2 (.enum x) ⟨x, rfl, hx, hmx⟩ (.enum y)
        ⟨y, rfl, hy, hmy⟩ hne
  · intro hsafe
    refine ⟨⟨hsafe.names, hsafe.values⟩, fun n ms nested hmsg => ⟨hsafe.inner _ hmsg, ⟨?_, ?_⟩, ?_⟩⟩
    · intro e he
      obtain ⟨x, rfl, hx, hmoves⟩ := he
      exact List.nodup_cons.mpr ⟨hsafe.own x n hx hmoves, hvalues x hx⟩
    · intro e he f hf hne
      obtain ⟨x, rfl, hx, hmx⟩ := he
      obtain ⟨y, rfl, hy, hmy⟩ := hf
      exact hsafe.together x y n hx hy hmx hmy hne
    · intro e he
      obtain ⟨x, rfl, hx, hmoves⟩ := he
      exact hsafe.hosts x n ms nested hx hmoves hmsg

/-- **The pass makes exactly the safe trees valid.** -/
theorem makeProtocValid_valid_iff (printable : Char → Bool) (order : HashOrder String)
    (es : List ProtoEntity) (hunique : UniqueNames es) :
    ProtocValid (makeProtocValid printable order es) ↔ RelocationSafe es := by
  have hperm := perm_dedupTopLevel printable hunique.1
  have hunique' : UniqueNames (dedupTopLevel printable es) :=
    ⟨nodup_dedupTopLevel printable es, fun e he => hunique.2 e (hperm.mem_iff.mp he)⟩
  rw [makeProtocValid, relocate_valid_iff order hunique']
  exact relocationSafe_congr fun e => hperm.mem_iff

/-- A message with one optional enum field. -/
def oneField (message field typeName : String) : ProtoEntity :=
  .message message [.field ⟨field, 1, typeName, ["optional"], false, none⟩] []

/-- Two enums share a value name; one is referenced twice, the other once. -/
def collidingEnums : List ProtoEntity :=
  [.enum ⟨"EnumA", [⟨"SHARED", 0⟩, ⟨"X", 1⟩]⟩, .enum ⟨"EnumB", [⟨"SHARED", 0⟩, ⟨"Y", 1⟩]⟩,
    oneField "One" "a" "EnumA", oneField "Two" "a" "EnumA", oneField "Three" "b" "EnumB"]

theorem makeProtocValid_separates_colliding :
    RelocationSafe collidingEnums ∧
      ProtocValid (makeProtocValid (fun _ => true) HashOrder.increasing collidingEnums) := by
  have hunique : UniqueNames collidingEnums := by
    refine ⟨by decide, fun e he => ?_⟩
    simp only [collidingEnums, List.mem_cons, List.not_mem_nil, or_false] at he
    rcases he with rfl | rfl | rfl | rfl | rfl
    · exact .enum (by decide)
    · exact .enum (by decide)
    · exact .message (by decide) (fun _ h => absurd h List.not_mem_nil)
    · exact .message (by decide) (fun _ h => absurd h List.not_mem_nil)
    · exact .message (by decide) (fun _ h => absurd h List.not_mem_nil)
  have hout : makeProtocValid (fun _ => true) HashOrder.increasing collidingEnums =
      [.enum ⟨"EnumA", [⟨"SHARED", 0⟩, ⟨"X", 1⟩]⟩, oneField "One" "a" "EnumA",
        addNested [.enum ⟨"EnumB", [⟨"SHARED", 0⟩, ⟨"Y", 1⟩]⟩] (oneField "Three" "b" "EnumB"),
        oneField "Two" "a" "EnumA"] := by decide +kernel
  have hvalid : ProtocValid
      (makeProtocValid (fun _ => true) HashOrder.increasing collidingEnums) := by
    rw [hout]
    refine ⟨by decide, fun e he => ?_⟩
    simp only [List.mem_cons, List.not_mem_nil, or_false] at he
    rcases he with rfl | rfl | rfl | rfl
    · exact .enum
    · exact .message (by decide) (fun _ h => absurd h List.not_mem_nil)
    · refine .message (by decide) (fun e h => ?_)
      rw [List.mem_singleton.mp h]
      exact .enum
    · exact .message (by decide) (fun _ h => absurd h List.not_mem_nil)
  exact ⟨(makeProtocValid_valid_iff _ _ collidingEnums hunique).mp hvalid, hvalid⟩

/-- Three enums share a value name and one message references them all. -/
def sharedHost : List ProtoEntity :=
  [.enum ⟨"A", [⟨"S", 0⟩]⟩, .enum ⟨"B", [⟨"S", 0⟩]⟩, .enum ⟨"C", [⟨"S", 0⟩]⟩,
    .message "M" [.field ⟨"a", 1, "A", ["optional"], false, none⟩,
      .field ⟨"b", 2, "B", ["optional"], false, none⟩,
      .field ⟨"c", 3, "C", ["optional"], false, none⟩] []]

/-- Two of the three move into the same message, which then declares the value twice. -/
theorem makeProtocValid_keeps_clash :
    UniqueNames sharedHost ∧
      ¬ ProtocValid (makeProtocValid (fun _ => true) HashOrder.increasing sharedHost) := by
  constructor
  · refine ⟨by decide, fun e he => ?_⟩
    simp only [sharedHost, List.mem_cons, List.not_mem_nil, or_false] at he
    rcases he with rfl | rfl | rfl | rfl
    · exact .enum (by decide)
    · exact .enum (by decide)
    · exact .enum (by decide)
    · exact .message (by decide) (fun _ h => absurd h List.not_mem_nil)
  · intro hvalid
    have hout : ∃ ms, ProtoEntity.message "M" ms
        [.enum ⟨"B", [⟨"S", 0⟩]⟩, .enum ⟨"C", [⟨"S", 0⟩]⟩] ∈
          makeProtocValid (fun _ => true) HashOrder.increasing sharedHost :=
      ⟨[.field ⟨"a", 1, "A", ["optional"], false, none⟩,
        .field ⟨"b", 2, "B", ["optional"], false, none⟩,
        .field ⟨"c", 3, "C", ["optional"], false, none⟩], by decide +kernel⟩
    obtain ⟨ms, hmem⟩ := hout
    have hscope := (validScopes_message.mp (hvalid.2 _ hmem)).1
    have hvalues := (List.nodup_append.mp hscope).2.1
    exact absurd hvalues (by decide)

end Whatspec.Proto

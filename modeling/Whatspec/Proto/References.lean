import Whatspec.Library.Scopes
import Whatspec.Proto.Placement
import Whatspec.Proto.TypeNames

/-!
# Do references still mean the same?

A field's type is looked up from the message it stands in: the innermost scope that declares
the first segment of the name decides.  `RefsPreserved` says that every reference that
resolved before the pass resolves to the same declaration afterwards, at its new place when
it moved.

The pass rewrites by spelling.  `refs_preserved_iff` gives the exact condition, reference by
reference (`SafeReference`): a name that is spelled like a qualified enum must mean that enum
and reach its host from where it stands, or else find the same declaration under the new
spelling; any other name must not be looked up inside a host that already declares a name
arriving there.
-/

namespace Whatspec.Proto

open Whatspec.Library

/-- What an entity declares inside. -/
def ProtoEntity.nested : ProtoEntity → List ProtoEntity
  | .message _ _ es => es
  | .enum _ => []

/-- The fields of a message, those of its `oneof` groups included. -/
def fieldsOf : ProtoEntity → List ProtoField
  | .message _ ms _ => ms.flatMap ProtoMember.fields
  | .enum _ => []

/-- The messages around a position, innermost first. -/
def descend (m : ProtoEntity) (outer : List ProtoEntity) : List ℕ → Option (List ProtoEntity)
  | [] => some (m :: outer)
  | i :: path => (m.nested[i]?).bind fun e => descend e (m :: outer) path

/-- The place of a type name: a top-level message, the way down, a field, and which of the
names in its printed type. -/
structure ReferenceSite where
  message : String
  path : List ℕ
  field : ℕ
  ref : ℕ

/-- The messages around a type name, and the name. -/
def referenceAt (es : List ProtoEntity) (site : ReferenceSite) :
    Option (List ProtoEntity × String) :=
  (es.find? fun e => e.name = site.message).bind fun top =>
    (descend top [] site.path).bind fun chain =>
      (chain.head?.bind fun m => (fieldsOf m)[site.field]?).bind fun f =>
        ((typeRefs f.typeName)[site.ref]?).map fun r => (chain, r)

/-- The scopes around a position, innermost first, the package last. -/
def scopesAround (es : List ProtoEntity) :
    List ProtoEntity → List (Scopes.Scope ProtoEntity String)
  | [] => [⟨[], es⟩]
  | m :: outer => ⟨((m :: outer).map ProtoEntity.name).reverse, m.nested⟩ :: scopesAround es outer

/-- Look a path up from a position; the answer is a full name. -/
def lookupFrom (es chain : List ProtoEntity) (path : List String) : Option (List String) :=
  Scopes.resolve ProtoEntity.name ProtoEntity.nested (scopesAround es chain) path

/-- Every declaration is named by an identifier. -/
inductive WellNamed : ProtoEntity → Prop
  | message {n ms nested} : isIdent n = true → (∀ e ∈ nested, WellNamed e) →
      WellNamed (.message n ms nested)
  | enum {e} : isIdent e.name = true → WellNamed (.enum e)

/-- A reference resolves to the declaration of a full name: the file parses, and the lookup
finds it. -/
def ResolvesTo (es chain : List ProtoEntity) (r : String) (q : List String) : Prop :=
  (∀ e ∈ es, WellNamed e) ∧ lookupFrom es chain (components r) = some q

/-- Where the declaration of a full name is after the pass. -/
def NewPlace (es : List ProtoEntity) (q q' : List String) : Prop :=
  (∃ a h, q = [a] ∧ MovesTo es a h ∧ q' = [h, a]) ∨
    ((∀ a h, q = [a] → ¬ MovesTo es a h) ∧ q' = q)

/-- **Every reference that resolved means the same declaration after the pass.** -/
def RefsPreserved (printable : Char → Bool) (order : HashOrder String)
    (es : List ProtoEntity) : Prop :=
  ∀ site chain r q, referenceAt (dedupTopLevel printable es) site = some (chain, r) →
    ResolvesTo (dedupTopLevel printable es) chain r q →
      ∃ chain' r' q', referenceAt (makeProtocValid printable order es) site = some (chain', r') ∧
        NewPlace (dedupTopLevel printable es) q q' ∧
          ResolvesTo (makeProtocValid printable order es) chain' r' q'

/-- The message itself declares the name. -/
def HostDeclares (es : List ProtoEntity) (h x : String) : Prop :=
  ∃ ms nested, ProtoEntity.message h ms nested ∈ es ∧
    Scopes.declares ProtoEntity.name nested x = true

/-- The enum moves, and its name is rewritten to the qualified one. -/
def Qualifies (es : List ProtoEntity) (a h : String) : Prop :=
  MovesTo es a h ∧ 1 < refCount (referencers es) a

/-- The lookup of a path that led to a full name reads a name inside a top-level message where
an enum of that name arrives beside the message's own. -/
def ReadsCrowded (es : List ProtoEntity) (path q : List String) : Prop :=
  ∃ h x rest, q = h :: x :: rest ∧ q.length ≤ path.length + 1 ∧ MovesTo es x h ∧
    HostDeclares es h x

/-- The references that the pass keeps. -/
structure SafeReference (es chain : List ProtoEntity) (r : String) (q : List String) : Prop where
  /-- A name that is not rewritten does not meet an enum that arrives. -/
  kept : (∀ h, ¬ Qualifies es r h) → ¬ ReadsCrowded es (components r) q
  /-- A rewritten name means the moved enum, whose host it reaches and finds free, or it finds
  what it meant under the new spelling. -/
  rewritten : ∀ h, Qualifies es r h →
    (q = [r] ∧ lookupFrom es chain [h] = some [h] ∧ ¬ HostDeclares es h r) ∨
      (q ≠ [r] ∧ q ≠ [h, r] ∧ lookupFrom es chain [h, r] = some q)

/-! ### One scope at a time -/

section Lookup

variable {es : List ProtoEntity}

theorem lookupFrom_cons (m : ProtoEntity) (outer : List ProtoEntity) (x : String)
    (rest : List String) :
    lookupFrom es (m :: outer) (x :: rest) =
      if Scopes.declares ProtoEntity.name m.nested x = true then
        Scopes.lookup ProtoEntity.name ProtoEntity.nested
          ⟨((m :: outer).map ProtoEntity.name).reverse, m.nested⟩ x rest
      else lookupFrom es outer (x :: rest) := by
  rw [lookupFrom, scopesAround, Scopes.resolve_cons, lookupFrom]

theorem lookupFrom_nil (x : String) (rest : List String) :
    lookupFrom es [] (x :: rest) =
      Scopes.lookup ProtoEntity.name ProtoEntity.nested ⟨[], es⟩ x rest := by
  rw [lookupFrom, scopesAround, Scopes.resolve_cons]
  cases h : Scopes.declares ProtoEntity.name es x with
  | true => rfl
  | false =>
      rw [Scopes.lookup, Scopes.declaredAs_eq_none h]
      rfl

/-- The name that a scope gives to a path. -/
theorem path_of_lookup {s : Scopes.Scope ProtoEntity String} {x : String} {rest q : List String}
    (h : Scopes.lookup ProtoEntity.name ProtoEntity.nested s x rest = some q) :
    q = s.path ++ x :: rest := by
  rw [Scopes.lookup, Option.map_eq_some_iff] at h
  obtain ⟨_, _, heq⟩ := h
  exact heq.symm

/-- A path of two or more segments, one segment further. -/
theorem lookup_step (p : List String) (ds : List ProtoEntity) (x y : String) (rest : List String) :
    Scopes.lookup ProtoEntity.name ProtoEntity.nested ⟨p, ds⟩ x (y :: rest) =
      (Scopes.declaredAs ProtoEntity.name ds x).bind fun e =>
        Scopes.lookup ProtoEntity.name ProtoEntity.nested ⟨p ++ [x], e.nested⟩ y rest := by
  unfold Scopes.lookup
  cases Scopes.declaredAs ProtoEntity.name ds x with
  | none => rfl
  | some e =>
      rw [Option.bind_some, Option.bind_some, Scopes.within, List.append_assoc]
      rfl

/-- A lookup answers with some scope's path in front of the reference. -/
theorem suffix_of_lookupFrom {chain : List ProtoEntity} {path q : List String}
    (h : lookupFrom es chain path = some q) : ∃ p, q = p ++ path := by
  cases path with
  | nil => cases h
  | cons x rest =>
      induction chain with
      | nil =>
          rw [lookupFrom_nil] at h
          exact ⟨[], path_of_lookup h⟩
      | cons m outer ih =>
          rw [lookupFrom_cons] at h
          by_cases hd : Scopes.declares ProtoEntity.name m.nested x = true
          · rw [if_pos hd] at h
            exact ⟨_, path_of_lookup h⟩
          · rw [if_neg hd] at h
            exact ih h

end Lookup

/-! ### The tree after the pass -/

section After

variable (es : List ProtoEntity)

/-- The messages around a position, after the pass. -/
def carried : List ProtoEntity → List ProtoEntity
  | [] => []
  | [root] => [settle es root]
  | m :: o :: outer => requalify es m :: carried (o :: outer)

theorem names_carried (chain : List ProtoEntity) :
    (carried es chain).map ProtoEntity.name = chain.map ProtoEntity.name := by
  induction chain with
  | nil => rfl
  | cons m outer ih =>
      cases outer with
      | nil => rw [carried, List.map_singleton, List.map_singleton, name_settle]
      | cons o outer =>
          rw [carried, List.map_cons, name_requalify, ih, ← List.map_cons]

theorem nested_requalify (e : ProtoEntity) :
    (requalify es e).nested = e.nested.map (requalify es) := by
  cases e with
  | message n ms nested => rw [requalify_message, ProtoEntity.nested, ProtoEntity.nested]
  | enum x => rw [requalify_enum]; rfl

/-- Lookups do not see rewritten types. -/
theorem lookup_requalify (p : List String) (ds : List ProtoEntity) (x : String)
    (rest : List String) :
    Scopes.lookup ProtoEntity.name ProtoEntity.nested ⟨p, ds.map (requalify es)⟩ x rest =
      Scopes.lookup ProtoEntity.name ProtoEntity.nested ⟨p, ds⟩ x rest := by
  unfold Scopes.lookup
  rw [Scopes.declaredAs_map (name_requalify es)]
  cases Scopes.declaredAs ProtoEntity.name ds x with
  | none => rfl
  | some e =>
      rw [Option.map_some, Option.bind_some, Option.bind_some,
        Scopes.within_map (name_requalify es) (nested_requalify es), Option.map_map]
      rfl

variable {es} (hnodup : (es.map ProtoEntity.name).Nodup)

include hnodup in
/-- The names that arrive in a message. -/
theorem declares_arrivals {h x : String} :
    Scopes.declares ProtoEntity.name (arrivals es h) x = true ↔ MovesTo es x h := by
  rw [Scopes.declares_iff]
  constructor
  · intro hx
    obtain ⟨e, he, rfl⟩ := hx
    obtain ⟨y, rfl, _, hmoves⟩ := (mem_arrivals_iff hnodup).mp he
    exact hmoves
  · intro hmoves
    obtain ⟨y, hy, hname⟩ := hmoves.1.exists_enum
    exact ⟨.enum y, (mem_arrivals_iff hnodup).mpr ⟨y, rfl, hy, hname ▸ hmoves⟩, hname⟩

include hnodup in
/-- **Inside a top-level message after the pass**: a name that does not arrive means what it
meant, one that does means the moved enum unless the message had its own. -/
theorem lookup_settled (p : List String) (n : String) (nested : List ProtoEntity) (x : String)
    (rest : List String) :
    (¬ MovesTo es x n →
      Scopes.lookup ProtoEntity.name ProtoEntity.nested
        ⟨p, nested.map (requalify es) ++ arrivals es n⟩ x rest =
          Scopes.lookup ProtoEntity.name ProtoEntity.nested ⟨p, nested⟩ x rest) ∧
    (MovesTo es x n → Scopes.declares ProtoEntity.name nested x = true →
      Scopes.lookup ProtoEntity.name ProtoEntity.nested
        ⟨p, nested.map (requalify es) ++ arrivals es n⟩ x rest = none) ∧
    (MovesTo es x n → Scopes.declares ProtoEntity.name nested x = false →
      Scopes.lookup ProtoEntity.name ProtoEntity.nested
        ⟨p, nested.map (requalify es) ++ arrivals es n⟩ x [] = some (p ++ [x])) := by
  refine ⟨fun hno => ?_, fun hmoves hown => ?_, fun hmoves hfree => ?_⟩
  · have harr : Scopes.declares ProtoEntity.name (arrivals es n) x = false := by
      rw [Bool.eq_false_iff]
      exact fun h => hno ((declares_arrivals hnodup).mp h)
    rw [← lookup_requalify es p nested]
    unfold Scopes.lookup
    rw [Scopes.declaredAs_append_left harr]
  · have hboth := Scopes.declaredAs_append_both
      (by rw [Scopes.declares_map (name_requalify es)]; exact hown)
      ((declares_arrivals hnodup).mpr hmoves)
    unfold Scopes.lookup
    rw [hboth]
    rfl
  · obtain ⟨y, hy, hname⟩ := hmoves.1.exists_enum
    have hmem : ProtoEntity.enum y ∈ arrivals es n :=
      (mem_arrivals_iff hnodup).mpr ⟨y, rfl, hy, hname ▸ hmoves⟩
    have hdecl := Scopes.declaredAs_of_mem (nodup_arrivals hnodup n) hmem
    rw [ProtoEntity.name_enum, hname] at hdecl
    unfold Scopes.lookup
    rw [Scopes.declaredAs_append_right
      (by rw [Scopes.declares_map (name_requalify es)]; exact hfree), hdecl]
    rfl

end After

end Whatspec.Proto

import Whatspec.Mex.Readings

/-!
# Writing a path into a recovered object

`writeKey` replaces, in place, what an object literal writes under a key, or adds the key at the
end.

* `writeKey_cases`: what a write makes of an object;
* `keyValue_writeKey`: the path reads to what was written.
-/

namespace Whatspec.Mex

open Whatspec.Library VariablePresenceNode

/-! ### The last write of a key -/

theorem lastValue_split {props : List Property} {key : String} {value : Value}
    (h : lastValue props key = some value) :
    ∃ above below, props = above ++ .key key value :: below ∧
      ∀ p ∈ below, p.name ≠ some key := by
  obtain ⟨below, p, above, hrev, hp, hbelow⟩ := List.findSome?_eq_some_iff.mp h
  have hprops : props = above.reverse ++ p :: below.reverse := by
    rw [← List.reverse_reverse props, hrev]
    simp
  have hentry : p = .key key value := by
    cases p with
    | key k v =>
        dsimp only at hp
        split at hp
        · next hk => rw [hk, Option.some.inj hp]
        · cases hp
    | spread _ => cases hp
    | unreadable => cases hp
  refine ⟨above.reverse, below.reverse, hentry ▸ hprops, fun q hq hname => ?_⟩
  have hnone := hbelow q (List.mem_reverse.mp hq)
  cases q with
  | key k v =>
      obtain rfl : k = key := Option.some.inj hname
      simp at hnone
  | spread _ => cases hname
  | unreadable => cases hname

theorem lastValue_append {above below : List Property} {key : String} {value : Value}
    (hbelow : ∀ p ∈ below, p.name ≠ some key) :
    lastValue (above ++ .key key value :: below) key = some value := by
  refine List.findSome?_eq_some_iff.mpr
    ⟨below.reverse, .key key value, above.reverse, by simp, by simp, fun q hq => ?_⟩
  have hname := hbelow q (List.mem_reverse.mp hq)
  cases q with
  | key k v =>
      have hk : k ≠ key := fun hk => hname (congrArg some hk)
      simp [hk]
  | spread _ => rfl
  | unreadable => rfl

/-! ### Replacing -/

/-- A property and what the replacement of a key makes of it. -/
inductive Replaced (key : String) (replace : Value → Option Value) : Property → Property → Prop
  | other {p : Property} (h : p.name ≠ some key) : Replaced key replace p p
  | entry {value value' : Value} (h : replace value = some value') :
      Replaced key replace (.key key value) (.key key value')

theorem Replaced.name {key : String} {replace : Value → Option Value} {p p' : Property}
    (h : Replaced key replace p p') : p.name = p'.name := by
  cases h <;> rfl

theorem replaced_of_replaceKey {key : String} {replace : Value → Option Value}
    {props out : List Property} (h : replaceKey key replace props = some out) :
    List.Forall₂ (Replaced key replace) props out := by
  induction props generalizing out with
  | nil =>
      cases h
      exact .nil
  | cons p props ih =>
      cases p with
      | key k inner =>
          rw [replaceKey] at h
          split at h
          · next hk =>
              subst hk
              split at h
              · next value rest hvalue hrest =>
                  cases h
                  exact .cons (.entry hvalue) (ih hrest)
              · cases h
          · next hk =>
              obtain ⟨rest, hrest, rfl⟩ := Option.map_eq_some_iff.mp h
              exact .cons (.other fun hname => hk (Option.some.inj hname)) (ih hrest)
      | spread source =>
          rw [replaceKey] at h
          · obtain ⟨rest, hrest, rfl⟩ := Option.map_eq_some_iff.mp h
            exact .cons (.other nofun) (ih hrest)
          · nofun
      | unreadable =>
          rw [replaceKey] at h
          · obtain ⟨rest, hrest, rfl⟩ := Option.map_eq_some_iff.mp h
            exact .cons (.other nofun) (ih hrest)
          · nofun

section Replacement

variable {key : String} {replace : Value → Option Value} {props out : List Property}

theorem names_replaced (h : List.Forall₂ (Replaced key replace) props out) :
    props.map Property.name = out.map Property.name := by
  induction h with
  | nil => rfl
  | cons hp _ ih => rw [List.map_cons, List.map_cons, hp.name, ih]

theorem filter_replaced (h : List.Forall₂ (Replaced key replace) props out) {k : String}
    (hk : k ≠ key) :
    (props.filter fun p => p.name = some k) = out.filter fun p => p.name = some k := by
  induction h with
  | nil => rfl
  | cons hp _ ih =>
      cases hp with
      | other hother => rw [List.filter_cons, List.filter_cons, ih]
      | entry hvalue =>
          have hne : ¬(some key = some k) := fun h => hk (Option.some.inj h).symm
          rw [List.filter_cons_of_neg (by simpa [Property.name] using hne),
            List.filter_cons_of_neg (by simpa [Property.name] using hne), ih]

/-- The last write of the key is replaced. -/
theorem lastValue_replaced (h : List.Forall₂ (Replaced key replace) props out) {value : Value}
    (hlast : lastValue props key = some value) :
    ∃ above below value' above', replace value = some value' ∧
      props = above ++ .key key value :: below ∧ out = above' ++ .key key value' :: below ∧
      List.Forall₂ (Replaced key replace) above above' ∧ ∀ p ∈ below, p.name ≠ some key := by
  obtain ⟨above, below, rfl, hbelow⟩ := lastValue_split hlast
  obtain ⟨above', rest, habove, hrest, rfl⟩ :
      ∃ above' rest, List.Forall₂ (Replaced key replace) above above' ∧
        List.Forall₂ (Replaced key replace) (.key key value :: below) rest ∧
        out = above' ++ rest := by
    refine ⟨out.take above.length, out.drop above.length, ?_, ?_, (List.take_append_drop _ _).symm⟩
    · simpa using List.forall₂_take above.length h
    · simpa using List.forall₂_drop above.length h
  cases hrest with
  | @cons _ p' _ below' hp hrest =>
      have hsame : below = below' := by
        clear h habove hlast
        induction hrest with
        | nil => rfl
        | @cons q q' below below' hq hrest ih =>
            cases hq with
            | other _ => rw [ih fun p hp => hbelow p (List.mem_cons_of_mem _ hp)]
            | entry _ => exact absurd rfl (hbelow _ List.mem_cons_self)
      subst hsame
      cases hp with
      | other hother => exact absurd rfl hother
      | entry hvalue => exact ⟨above, below, _, above', hvalue, rfl, rfl, habove, hbelow⟩

theorem lastValue_isSome_of_writesKey (h : writesKey props key = true) :
    ∃ value, lastValue props key = some value := by
  obtain ⟨p, hp, hname⟩ := List.any_eq_true.mp h
  cases hlast : lastValue props key with
  | some value => exact ⟨value, rfl⟩
  | none =>
      have hnone := List.findSome?_eq_none_iff.mp hlast p (List.mem_reverse.mpr hp)
      cases p with
      | key k v =>
          obtain rfl : k = key := by simpa [Property.name] using hname
          simp at hnone
      | spread _ => simp [Property.name] at hname
      | unreadable => simp [Property.name] at hname

theorem not_named_of_writesKey (h : writesKey props key = false) :
    ∀ p ∈ props, p.name ≠ some key := by
  intro p hp hname
  have htrue : writesKey props key = true := List.any_eq_true.mpr ⟨p, hp, by simpa using hname⟩
  rw [h] at htrue
  cases htrue

/-- A key that is not there has nothing to replace. -/
theorem replaced_eq (h : List.Forall₂ (Replaced key replace) props out)
    (hprops : ∀ p ∈ props, p.name ≠ some key) : props = out := by
  induction h with
  | nil => rfl
  | cons hp _ ih =>
      cases hp with
      | other _ => rw [ih fun p hp => hprops p (List.mem_cons_of_mem _ hp)]
      | entry _ => exact absurd rfl (hprops _ List.mem_cons_self)

end Replacement

/-! ### What is written is read -/

@[simp] theorem resolve_object (scopes : Scopes) (props : List Property) :
    scopes.resolve maxDepth (.object props) = .object props := rfl

/-- What a write answers: the entries of the key are replaced, or the key is added last. -/
theorem writeKey_cases {scopes : Scopes} {remaining : ℕ} {value written result : Value}
    {key : String} {rest : List String}
    (h : writeKey scopes remaining value (key :: rest) written = some result) :
    ∃ m props, remaining = m + 1 ∧ scopes.resolve maxDepth value = .object props ∧
      ((∃ out, writesKey props key = true ∧ result = .object out ∧
        List.Forall₂ (Replaced key fun inner =>
          if rest.isEmpty then some written else writeKey scopes m inner rest written) props out) ∨
      (rest = [] ∧ writesKey props key = false ∧
        result = .object (props ++ [.key key written]))) := by
  cases remaining with
  | zero => cases h
  | succ m =>
      obtain ⟨props, hprops⟩ : ∃ props, scopes.resolve maxDepth value = .object props := by
        cases hres : scopes.resolve maxDepth value with
        | object props => exact ⟨props, rfl⟩
        | _ => simp [writeKey.eq_def, hres] at h
      rw [writeKey.eq_def] at h
      simp only [hprops] at h
      obtain ⟨out, hout, h⟩ := Option.bind_eq_some_iff.mp h
      have hreplaced := replaced_of_replaceKey hout
      refine ⟨m, props, rfl, hprops, ?_⟩
      split at h
      · next hwrites => exact .inl ⟨out, hwrites, (Option.some.inj h).symm, hreplaced⟩
      · next hwrites =>
          have hno : writesKey props key = false := by simpa using hwrites
          obtain rfl := replaced_eq hreplaced (not_named_of_writesKey hno)
          split at h
          · next hrest =>
              exact .inr ⟨List.isEmpty_iff.mp hrest, hno, (Option.some.inj h).symm⟩
          · cases h

/-- A write reads an object and makes one. -/
theorem writeKey_objects {scopes : Scopes} {remaining : ℕ} {value written result : Value}
    {path : List String} (h : writeKey scopes remaining value path written = some result) :
    (∃ props, scopes.resolve maxDepth value = .object props) ∧ ∃ out, result = .object out := by
  cases path with
  | nil =>
      cases remaining with
      | zero => cases h
      | succ m =>
          rw [writeKey] at h
          · cases h
          · nofun
  | cons key rest =>
      obtain ⟨-, props, -, hprops, ⟨out, -, rfl, -⟩ | ⟨-, -, rfl⟩⟩ := writeKey_cases h
      · exact ⟨⟨props, hprops⟩, out, rfl⟩
      · exact ⟨⟨props, hprops⟩, _, rfl⟩

theorem keyValue_cons {scopes : Scopes} {m : ℕ} {props : List Property} {key : String}
    (rest : List String) {inner : Value} (h : lastValue props key = some inner) :
    keyValue scopes (m + 1) (.object props) (key :: rest) =
      if rest.isEmpty then some inner else keyValue scopes m inner rest := by
  simp only [keyValue, resolve_object, h, Option.bind_some]

theorem keyValue_writeKey {scopes : Scopes} {path : List String} {remaining : ℕ}
    {value written result : Value}
    (h : writeKey scopes remaining value path written = some result) :
    keyValue scopes remaining result path = some written := by
  induction path generalizing remaining value result with
  | nil =>
      cases remaining with
      | zero => cases h
      | succ m =>
          rw [writeKey] at h
          · cases h
          · nofun
  | cons key rest ih =>
      obtain ⟨m, props, rfl, -, ⟨out, hwrites, rfl, hreplaced⟩ | ⟨rfl, -, rfl⟩⟩ := writeKey_cases h
      · obtain ⟨inner, hinner⟩ := lastValue_isSome_of_writesKey hwrites
        obtain ⟨above, below, inner', above', hreplace, -, rfl, -, hbelow⟩ :=
          lastValue_replaced hreplaced hinner
        rw [keyValue_cons rest (lastValue_append hbelow)]
        split at hreplace
        · next hrest => rw [if_pos hrest, hreplace]
        · next hrest => rw [if_neg hrest, ih hreplace]
      · rw [keyValue_cons [] (lastValue_append (by simp))]
        rfl

end Whatspec.Mex

import Whatspec.Mex.Classify
import Whatspec.Mex.PresenceMerge

/-!
# How the reading of an object literal proceeds

* `classifyObject_mono`: the answer does not depend on the fuel;
* `readProps_append`: a literal is read one part after the other;
* `Alike` compares two readings key by key, up to a relation that withdrawal keeps;
  `readProps_alike` compares those of two literals.
-/

namespace Whatspec.Mex

open Whatspec.Library VariablePresenceNode

/-! ### The fuel -/

section Mono

variable {scopes : Scopes} {remaining : ℕ}
  {classify classify' : Value → Option (VariablePresenceNode × List Opaque)}
  {spread spread' : List Property → Option Classified}

/-- What reading a key leaves. -/
theorem readPlain_key {r r' : Reading} {key : String} {value : Value}
    (h : readPlain scopes remaining classify spread r (.key key value) = some r') :
    (isHook scopes remaining (.key key value) = true ∧ r' = r.withdrawAll) ∨
    (isHook scopes remaining (.key key value) = false ∧ value = .getter ∧
      r' = { r with
        out := SortedMap.insert key (leaf .undetermined) r.out
        opaquePaths := r.opaquePaths ++ [.here] }) ∨
    (isHook scopes remaining (.key key value) = false ∧ value ≠ .getter ∧
      ∃ c, classify value = some c ∧ r' = r.put key c) := by
  cases hhook : isHook scopes remaining (.key key value) with
  | true =>
      have heq : readPlain scopes remaining classify spread r (.key key value) =
          some r.withdrawAll := by
        simp only [readPlain.eq_def, hhook, if_true]
      exact .inl ⟨rfl, Option.some.inj (h.symm.trans heq)⟩
  | false =>
      refine .inr ?_
      by_cases hgetter : value = .getter
      · subst hgetter
        rw [readPlain, if_neg (by simp [hhook])] at h
        exact .inl ⟨rfl, rfl, (Option.some.inj h).symm⟩
      · simp only [readPlain, hhook] at h
        obtain ⟨c, hc, rfl⟩ := Option.map_eq_some_iff.mp h
        exact .inr ⟨rfl, hgetter, c, hc, rfl⟩

/-- What reading a spread leaves. -/
theorem readPlain_spread {r r' : Reading} {value : Value}
    (h : readPlain scopes remaining classify spread r (.spread value) = some r') :
    (spreadsNothing scopes (spreadSource scopes value).1 = true ∧ r' = r) ∨
    (spreadsNothing scopes (spreadSource scopes value).1 = false ∧
      ∃ inner c, scopes.resolve maxDepth (spreadSource scopes value).1 = .object inner ∧
        spread inner = some c ∧
        r' = r.putAll (if (spreadSource scopes value).2 then .conditional else .always) c) ∨
    (spreadsNothing scopes (spreadSource scopes value).1 = false ∧
      (∀ inner, scopes.resolve maxDepth (spreadSource scopes value).1 ≠ .object inner) ∧
      r' = r.withdrawAll) := by
  rw [readPlain] at h
  generalize spreadSource scopes value = copied at h ⊢
  obtain ⟨source, gated⟩ := copied
  dsimp only at h ⊢
  cases hnothing : spreadsNothing scopes source with
  | true =>
      rw [if_pos hnothing] at h
      exact .inl ⟨rfl, (Option.some.inj h).symm⟩
  | false =>
      rw [if_neg (by simp [hnothing])] at h
      refine .inr ?_
      split at h
      · next inner hinner =>
          obtain ⟨c, hc, rfl⟩ := Option.map_eq_some_iff.mp h
          exact .inl ⟨rfl, inner, c, hinner, hc, rfl⟩
      · next hother => exact .inr ⟨rfl, hother, (Option.some.inj h).symm⟩

theorem readPlain_mono (hclassify : ∀ v c, classify v = some c → classify' v = some c)
    (hspread : ∀ ps c, spread ps = some c → spread' ps = some c) {r r' : Reading} {p : Property}
    (h : readPlain scopes remaining classify spread r p = some r') :
    readPlain scopes remaining classify' spread' r p = some r' := by
  cases p with
  | unreadable => exact h
  | key key value =>
      obtain ⟨hhook, rfl⟩ | ⟨hhook, rfl, rfl⟩ | ⟨hhook, hgetter, c, hc, rfl⟩ := readPlain_key h
      · simp only [readPlain.eq_def, hhook, if_true]
      · rw [readPlain, if_neg (by simp [hhook])]
      · simp [readPlain, hhook, hclassify _ _ hc]
  | spread value =>
      obtain ⟨hnothing, rfl⟩ | ⟨hnothing, inner, c, hinner, hc, rfl⟩ | ⟨hnothing, hother, rfl⟩ :=
        readPlain_spread h
      · simp [readPlain, hnothing]
      · simp [readPlain, hnothing, hinner, hspread _ _ hc]
      · simp only [readPlain, hnothing]
        split <;> simp_all

theorem readProps_mono (hclassify : ∀ v c, classify v = some c → classify' v = some c)
    (hspread : ∀ ps c, spread ps = some c → spread' ps = some c) {standing : List ℕ}
    {props : List Property} {r r' : Reading} {index : ℕ}
    (h : readProps scopes remaining classify spread standing r index props = some r') :
    readProps scopes remaining classify' spread' standing r index props = some r' := by
  induction props generalizing r index with
  | nil => exact h
  | cons p props ih =>
      rw [readProps] at h ⊢
      cases hp : readProperty scopes remaining classify spread standing r index p with
      | none => simp [hp] at h
      | some r₁ =>
          have hp' : readProperty scopes remaining classify' spread' standing r index p =
              some r₁ := readPlain_mono hclassify hspread hp
          rw [hp] at h
          rw [hp']
          exact ih h

theorem readElements_mono (hspread : ∀ ps c, spread ps = some c → spread' ps = some c)
    {items : List Value} {e e' : Elements} (h : readElements scopes spread e items = some e') :
    readElements scopes spread' e items = some e' := by
  induction items generalizing e with
  | nil => exact h
  | cons item items ih =>
      rw [readElements] at h ⊢
      split
      · next props hitem =>
          rw [hitem] at h
          cases hc : spread props with
          | none => simp [hc] at h
          | some c =>
              rw [hspread _ _ hc]
              simp only [hc] at h
              exact ih h
      · next hitem =>
          rw [hitem] at h
          cases hc : spread [] with
          | none => simp [hc] at h
          | some c =>
              rw [hspread _ _ hc]
              simp only [hc] at h
              exact ih h
      · next hobject hnull =>
          split at h
          · next props hitem => exact absurd hitem (hobject props)
          · next hitem => exact absurd hitem hnull
          · exact ih h

end Mono

/-- One more call changes nothing. -/
theorem classify_succ (scopes : Scopes) (fuel : ℕ) :
    (∀ remaining props c, classifyObject scopes fuel remaining props = some c →
      classifyObject scopes (fuel + 1) remaining props = some c) ∧
    (∀ remaining value floor c, classifyValue scopes fuel remaining value floor = some c →
      classifyValue scopes (fuel + 1) remaining value floor = some c) := by
  induction fuel with
  | zero => exact ⟨nofun, nofun⟩
  | succ fuel ih =>
      obtain ⟨ihObject, ihValue⟩ := ih
      constructor
      · intro remaining props c h
        cases remaining with
        | zero => exact h
        | succ remaining =>
            rw [classifyObject] at h ⊢
            obtain ⟨r, hr, rfl⟩ := Option.map_eq_some_iff.mp h
            rw [readProps_mono (fun v c hv => ihValue _ v _ c hv)
              (fun ps c hps => ihObject _ ps c hps) hr]
            rfl
      · intro remaining value floor c h
        cases remaining with
        | zero => exact h
        | succ remaining =>
            rw [classifyValue] at h ⊢
            split
            · next props hprops =>
                rw [hprops] at h
                obtain ⟨d, hd, rfl⟩ := Option.map_eq_some_iff.mp h
                rw [ihObject _ _ _ hd]
                rfl
            · next items hitems =>
                rw [hitems] at h
                obtain ⟨e, he, rfl⟩ := Option.map_eq_some_iff.mp h
                rw [readElements_mono (fun ps c hps => ihObject _ ps c hps) he]
                rfl
            · next a b hab =>
                rw [hab] at h
                dsimp only at h
                split at h
                · next left right hleft hright =>
                    rw [ihValue _ _ _ _ hleft, ihValue _ _ _ _ hright]
                    exact h
                · cases h
            · next hobject harray heither =>
                split at h
                · next props hprops => exact absurd hprops (hobject props)
                · next items hitems => exact absurd hitems (harray items)
                · next a b hab => exact absurd hab (heither a b)
                · exact h

theorem classifyObject_mono {scopes : Scopes} {fuel fuel' remaining : ℕ} (hle : fuel ≤ fuel')
    {props : List Property} {c : Classified}
    (h : classifyObject scopes fuel remaining props = some c) :
    classifyObject scopes fuel' remaining props = some c := by
  induction fuel', hle using Nat.le_induction with
  | base => exact h
  | succ m _ ih => exact (classify_succ scopes m).1 _ _ _ ih

/-- What the classification of an object answers. -/
def Classifies (scopes : Scopes) (remaining : ℕ) (props : List Property) (c : Classified) : Prop :=
  ∃ fuel, classifyObject scopes fuel remaining props = some c

/-- What the classification of a value answers, for a key that is always written. -/
def ClassifiesValue (scopes : Scopes) (remaining : ℕ) (value : Value)
    (c : VariablePresenceNode × List Opaque) : Prop :=
  ∃ fuel, classifyValue scopes fuel remaining value .always = some c

theorem Classifies.unique {scopes : Scopes} {remaining : ℕ} {props : List Property}
    {c c' : Classified} (h : Classifies scopes remaining props c)
    (h' : Classifies scopes remaining props c') : c = c' := by
  obtain ⟨fuel, h⟩ := h
  obtain ⟨fuel', h'⟩ := h'
  have hmax := classifyObject_mono (Nat.le_max_left fuel fuel') h
  have hmax' := classifyObject_mono (Nat.le_max_right fuel fuel') h'
  exact Option.some.inj (hmax.symm.trans hmax')

/-! ### Withdrawal, twice -/

mutual

theorem withdrawChildren_withdrawChildren (n : VariablePresenceNode) :
    withdrawChildren (withdrawChildren n) = withdrawChildren n := by
  cases n with
  | mk p fs is =>
      rw [withdrawChildren, withdrawChildren, withdrawFields_withdrawFields fs,
        withdrawItems_withdrawItems is]

theorem withdraw_withdraw (n : VariablePresenceNode) : withdraw (withdraw n) = withdraw n := by
  cases n with
  | mk p fs is =>
      rw [withdraw, withdraw, withdrawFields_withdrawFields fs, withdrawItems_withdrawItems is]
      congr 1
      exact max_eq_left (le_max_right p _)

theorem withdrawFields_withdrawFields (fs : List (String × VariablePresenceNode)) :
    withdrawFields (withdrawFields fs) = withdrawFields fs := by
  cases fs with
  | nil => rfl
  | cons e rest =>
      obtain ⟨key, n⟩ := e
      rw [withdrawFields, withdrawFields, withdraw_withdraw n, withdrawFields_withdrawFields rest]

theorem withdrawItems_withdrawItems (is : Option VariablePresenceNode) :
    withdrawItems (withdrawItems is) = withdrawItems is := by
  cases is with
  | none => rfl
  | some n =>
      rw [withdrawItems, withdrawItems, withdrawChildren_withdrawChildren n]

end

theorem get_withdrawFields (fs : List (String × VariablePresenceNode)) (key : String) :
    SortedMap.get (withdrawFields fs) key = (SortedMap.get fs key).map withdraw := by
  rw [withdrawFields_eq]
  exact SortedMap.get_map (fun _ n => withdraw n) fs key

/-! ### One part after the other -/

theorem readProps_append {scopes : Scopes} {remaining : ℕ}
    {classify : Value → Option (VariablePresenceNode × List Opaque)}
    {spread : List Property → Option Classified} {standing : List ℕ} (first second : List Property)
    (r : Reading) (index : ℕ) :
    readProps scopes remaining classify spread standing r index (first ++ second) =
      (readProps scopes remaining classify spread standing r index first).bind fun r =>
        readProps scopes remaining classify spread standing r (index + first.length) second := by
  induction first generalizing r index with
  | nil => rfl
  | cons p first ih =>
      rw [List.cons_append, readProps, readProps]
      cases readProperty scopes remaining classify spread standing r index p with
      | none => rfl
      | some r =>
          dsimp only
          rw [ih, List.length_cons, Nat.add_right_comm, Nat.add_assoc]

/-! ### Two readings side by side -/

/-- A relation between what two readings hold under a key, that withdrawal keeps. -/
structure Comparison where
  rel : String → Option VariablePresenceNode → Option VariablePresenceNode → Prop
  same : ∀ k a, rel k a a
  withdraw : ∀ k a b, rel k a b → rel k (a.map withdraw) (b.map withdraw)
  /-- Under a key that it says anything about, it tells whether there is a verdict. -/
  seen : ∀ k a b, rel k a b → a.isSome = b.isSome ∨ ∀ x y, rel k x y

/-- The two readings compare under every key, and have put the same keys above a getter. -/
structure Alike (R : Comparison) (r r' : Reading) : Prop where
  out : ∀ k, R.rel k (SortedMap.get r.out k) (SortedMap.get r'.out k)
  above : ∀ k, (∀ x y, R.rel k x y) ∨ r.alreadyWritten.contains k = r'.alreadyWritten.contains k
  runs : r.serializingRunsCode = r'.serializingRunsCode

theorem contains_keys (m : List (String × VariablePresenceNode)) (k : String) :
    (m.map Prod.fst).contains k = (SortedMap.get m k).isSome := by
  have hnone := SortedMap.get_eq_none_iff m k
  cases hget : SortedMap.get m k with
  | none => simpa using hnone.mp hget
  | some n =>
      have hmem : k ∈ m.map Prod.fst := by
        by_contra hk
        rw [hnone.mpr hk] at hget
        cases hget
      simpa using hmem

namespace Alike

variable {R : Comparison} {r r' : Reading}

theorem start : Alike R .start .start :=
  ⟨fun k => R.same k _, fun _ => .inr rfl, rfl⟩

/-- The same keys are at risk. -/
theorem risk (h : Alike R r r') {k : String} {n n' : VariablePresenceNode}
    (hn : R.rel k (some n) (some n')) :
    R.rel k (some (r.atRisk k n)) (some (r'.atRisk k n')) := by
  obtain hany | habove := h.above k
  · exact hany _ _
  · rw [Reading.atRisk, Reading.atRisk, ← h.runs, ← habove]
    split
    · exact R.withdraw k _ _ hn
    · exact hn

theorem passGetter (standing : List ℕ) (index : ℕ) (h : Alike R r r') :
    Alike R (r.passGetter standing index) (r'.passGetter standing index) := by
  rw [Reading.passGetter, Reading.passGetter, ← h.runs]
  split
  · refine ⟨h.out, fun k => ?_, rfl⟩
    dsimp only
    rw [contains_keys, contains_keys]
    exact (R.seen k _ _ (h.out k)).symm
  · exact h

theorem withdrawAll (h : Alike R r r') : Alike R r.withdrawAll r'.withdrawAll := by
  refine ⟨fun k => ?_, h.above, h.runs⟩
  dsimp only [Reading.withdrawAll]
  rw [get_withdrawFields, get_withdrawFields]
  exact R.withdraw k _ _ (h.out k)

theorem insert {out out' : List (String × VariablePresenceNode)} {key : String}
    {n n' : VariablePresenceNode}
    (h : ∀ k, R.rel k (SortedMap.get out k) (SortedMap.get out' k))
    (hn : R.rel key (some n) (some n')) (k : String) :
    R.rel k (SortedMap.get (SortedMap.insert key n out) k)
      (SortedMap.get (SortedMap.insert key n' out') k) := by
  rw [SortedMap.get_insert, SortedMap.get_insert]
  split
  · next hk => exact hk ▸ hn
  · exact h k

theorem put (h : Alike R r r') {key : String} {c c' : VariablePresenceNode × List Opaque}
    (hc : R.rel key (some c.1) (some c'.1)) : Alike R (r.put key c) (r'.put key c') :=
  ⟨insert h.out (h.risk hc), h.above, h.runs⟩

theorem putAll (h : Alike R r r') (floor : VariablePresence) (c : Classified) :
    Alike R (r.putAll floor c) (r'.putAll floor c) := by
  refine ⟨?_, h.above, h.runs⟩
  dsimp only [Reading.putAll]
  suffices hfold : ∀ (es : List (String × VariablePresenceNode)) out out',
      (∀ k, R.rel k (SortedMap.get out k) (SortedMap.get out' k)) → ∀ k, R.rel k
        (SortedMap.get (es.foldl (fun out e =>
          SortedMap.insert e.1 (r.atRisk e.1 (e.2.weakenTo floor)) out) out) k)
        (SortedMap.get (es.foldl (fun out e =>
          SortedMap.insert e.1 (r'.atRisk e.1 (e.2.weakenTo floor)) out) out') k) from
    hfold c.1 _ _ h.out
  intro es
  induction es with
  | nil => exact fun _ _ hout => hout
  | cons e es ih =>
      intro out out' hout
      exact ih _ _ (insert hout (h.risk (R.same _ _)))

end Alike

section Runs

variable {R : Comparison} {scopes : Scopes} {remaining : ℕ}
  {classify : Value → Option (VariablePresenceNode × List Opaque)}
  {spread : List Property → Option Classified}

/-- One property read twice. -/
theorem readPlain_alike {p : Property} {r r' s s' : Reading} (h : Alike R r r')
    (hs : readPlain scopes remaining classify spread r p = some s)
    (hs' : readPlain scopes remaining classify spread r' p = some s') : Alike R s s' := by
  cases p with
  | unreadable =>
      cases hs
      cases hs'
      exact h.withdrawAll
  | key key value =>
      obtain ⟨hhook, rfl⟩ | ⟨hhook, rfl, rfl⟩ | ⟨hhook, hgetter, c, hc, rfl⟩ := readPlain_key hs
      · obtain ⟨_, rfl⟩ | ⟨hno, _⟩ | ⟨hno, _⟩ := readPlain_key hs'
        · exact h.withdrawAll
        · simp [hhook] at hno
        · simp [hhook] at hno
      · obtain ⟨hyes, _⟩ | ⟨_, _, rfl⟩ | ⟨_, hno, _⟩ := readPlain_key hs'
        · simp [hhook] at hyes
        · exact ⟨Alike.insert h.out (R.same _ _), h.above, h.runs⟩
        · exact absurd rfl hno
      · obtain ⟨hyes, _⟩ | ⟨_, hyes, _⟩ | ⟨_, _, c', hc', rfl⟩ := readPlain_key hs'
        · simp [hhook] at hyes
        · exact absurd hyes hgetter
        · obtain rfl : c = c' := Option.some.inj (hc.symm.trans hc')
          exact h.put (R.same _ _)
  | spread value =>
      obtain ⟨hnothing, rfl⟩ | ⟨hnothing, inner, c, hinner, hc, rfl⟩ | ⟨hnothing, hother, rfl⟩ :=
        readPlain_spread hs
      · obtain ⟨_, rfl⟩ | ⟨hno, _⟩ | ⟨hno, _⟩ := readPlain_spread hs'
        · exact h
        · simp [hnothing] at hno
        · simp [hnothing] at hno
      · obtain ⟨hyes, _⟩ | ⟨_, inner', c', hinner', hc', rfl⟩ | ⟨_, hno, _⟩ := readPlain_spread hs'
        · simp [hnothing] at hyes
        · obtain rfl : inner = inner' := by simpa [hinner] using hinner'
          obtain rfl : c = c' := Option.some.inj (hc.symm.trans hc')
          exact h.putAll _ c
        · exact absurd hinner (hno inner)
      · obtain ⟨hyes, _⟩ | ⟨_, inner', _, hinner', _⟩ | ⟨_, _, rfl⟩ := readPlain_spread hs'
        · simp [hnothing] at hyes
        · exact absurd hinner' (hother inner')
        · exact h.withdrawAll

/-- Two literals whose properties compare one by one. -/
theorem readProps_alike {standing : List ℕ} {Q : Property → Property → Prop}
    (hstep : ∀ {p p' r r' s s'}, Q p p' → Alike R r r' →
      readPlain scopes remaining classify spread r p = some s →
      readPlain scopes remaining classify spread r' p' = some s' → Alike R s s')
    {props props' : List Property} (hprops : List.Forall₂ Q props props') {r r' s s' : Reading}
    {index : ℕ} (h : Alike R r r')
    (hs : readProps scopes remaining classify spread standing r index props = some s)
    (hs' : readProps scopes remaining classify spread standing r' index props' = some s') :
    Alike R s s' := by
  induction hprops generalizing r r' index with
  | nil =>
      cases hs
      cases hs'
      exact h
  | @cons p p' props props' hp hrest ih =>
      rw [readProps] at hs hs'
      cases hr : readProperty scopes remaining classify spread standing r index p with
      | none => simp [hr] at hs
      | some r₁ =>
          cases hr' : readProperty scopes remaining classify spread standing r' index p' with
          | none => simp [hr'] at hs'
          | some r₁' =>
              rw [hr] at hs
              rw [hr'] at hs'
              exact ih (hstep hp (h.passGetter standing index) hr hr') hs hs'

end Runs

end Whatspec.Mex

import Mathlib.Data.List.Perm.Basic
import Whatspec.Library.SortedMap

/-!
# Maps that fold observations under their keys

A map is filled from a list of observations: the first one of a key makes its entry, every later
one changes it.

* `get_foldEntries` reads the map: under a key stands the fold of the observations of that key;
* `foldEntries_perm`: when an entry does not depend on the order of its observations, neither does
  the map;
* `foldEntries_map`: a map of the entries may as well be taken observation by observation;
* `keepFirst` and `keepLeast` are the two ways to choose one of the observations of a key, and
  `keepAll` keeps them in order.
-/

namespace Whatspec.Library.Upsert

open SortedMap

variable {κ α β : Type*} [LinearOrder κ]

/-- Fold one observation into the entry of its key. -/
def upsert (step : Option α → β → α) (m : List (κ × α)) (o : κ × β) : List (κ × α) :=
  insert o.1 (step (get m o.1) o.2) m

/-- The map of a list of observations. -/
def foldEntries (step : Option α → β → α) (observations : List (κ × β)) : List (κ × α) :=
  observations.foldl (upsert step) []

/-- The observations of one key, in order. -/
def ofKey (k : κ) (observations : List (κ × β)) : List β :=
  observations.filterMap fun o => if o.1 = k then some o.2 else none

/-- The entry that observations make of an earlier one. -/
def foldEntry (step : Option α → β → α) (entry : Option α) (observations : List β) : Option α :=
  observations.foldl (fun a o => some (step a o)) entry

theorem get_foldl_upsert (step : Option α → β → α) (k : κ) :
    ∀ (observations : List (κ × β)) (m : List (κ × α)),
      get (observations.foldl (upsert step) m) k =
        foldEntry step (get m k) (ofKey k observations)
  | [], _ => rfl
  | o :: rest, m => by
    rw [List.foldl_cons, get_foldl_upsert step k rest, upsert, get_insert]
    by_cases hk : k = o.1
    · have hfirst : ofKey k (o :: rest) = o.2 :: ofKey k rest := by
        rw [ofKey, List.filterMap_cons, if_pos hk.symm]
        rfl
      rw [if_pos hk, hfirst, foldEntry, foldEntry, List.foldl_cons, hk]
    · have hskip : ofKey k (o :: rest) = ofKey k rest := by
        rw [ofKey, List.filterMap_cons, if_neg (Ne.symm hk)]
        rfl
      rw [if_neg hk, hskip]

/-- Under a key stands the fold of its observations. -/
theorem get_foldEntries (step : Option α → β → α) (observations : List (κ × β)) (k : κ) :
    get (foldEntries step observations) k = foldEntry step none (ofKey k observations) :=
  get_foldl_upsert step k observations []

theorem sorted_foldl_upsert (step : Option α → β → α) :
    ∀ (observations : List (κ × β)) {m : List (κ × α)}, Sorted m →
      Sorted (observations.foldl (upsert step) m)
  | [], _, hm => hm
  | o :: rest, _, hm => sorted_foldl_upsert step rest (sorted_insert o.1 _ hm)

theorem sorted_foldEntries (step : Option α → β → α) (observations : List (κ × β)) :
    Sorted (foldEntries step observations) :=
  sorted_foldl_upsert step observations List.Pairwise.nil

/-- Two maps with the same entries are the same map. -/
theorem foldEntries_congr {step : Option α → β → α} {observations observations' : List (κ × β)}
    (h : ∀ k, foldEntry step none (ofKey k observations) =
      foldEntry step none (ofKey k observations')) :
    foldEntries step observations = foldEntries step observations' :=
  ext_of_sorted (sorted_foldEntries step observations) (sorted_foldEntries step observations')
    fun k => by rw [get_foldEntries, get_foldEntries, h k]

/-- **Order does not matter** where the entries do not depend on it. -/
theorem foldEntries_perm {step : Option α → β → α}
    (hstep : ∀ a b c, step (some (step a b)) c = step (some (step a c)) b)
    {observations observations' : List (κ × β)} (h : observations.Perm observations') :
    foldEntries step observations = foldEntries step observations' := by
  refine foldEntries_congr fun k => ?_
  refine List.Perm.foldl_eq' (h.filterMap _) (fun x _ y _ a => ?_) none
  exact congrArg some (hstep a x y)

/-- **Another reading of the entries** can be folded at once. -/
theorem foldEntries_map {γ : Type*} {step : Option α → β → α} {step' : Option γ → β → γ}
    {f : α → γ} (hstep : ∀ entry o, step' (entry.map f) o = f (step entry o))
    (observations : List (κ × β)) :
    foldEntries step' observations =
      (foldEntries step observations).map fun e => (e.1, f e.2) := by
  have hfold : ∀ (os : List β) (entry : Option α),
      foldEntry step' (entry.map f) os = (foldEntry step entry os).map f := by
    intro os
    induction os with
    | nil => exact fun _ => rfl
    | cons o os ih =>
      intro entry
      show foldEntry step' (some (step' (entry.map f) o)) os = _
      rw [hstep, ← Option.map_some, ih]
      rfl
  refine ext_of_sorted (sorted_foldEntries step' observations)
    (sorted_map (fun _ => f) (sorted_foldEntries step observations)) fun k => ?_
  rw [get_map (fun _ => f), get_foldEntries, get_foldEntries]
  exact hfold (ofKey k observations) none

/-! ### Keeping all observations -/

/-- The observations of a key stay in order. -/
def keepAll (entry : Option (List β)) (o : β) : List β := entry.getD [] ++ [o]

theorem foldEntry_keepAll_some : ∀ (observations kept : List β),
    foldEntry keepAll (some kept) observations = some (kept ++ observations)
  | [], kept => by rw [List.append_nil]; rfl
  | o :: rest, kept => by
    show foldEntry keepAll (some (kept ++ [o])) rest = _
    rw [foldEntry_keepAll_some rest, List.append_assoc]
    rfl

theorem mem_ofKey {k : κ} {o : β} {observations : List (κ × β)} :
    o ∈ ofKey k observations ↔ (k, o) ∈ observations := by
  rw [ofKey, List.mem_filterMap]
  constructor
  · intro h
    obtain ⟨e, he, hif⟩ := h
    by_cases hk : e.1 = k
    · rw [if_pos hk] at hif
      cases hif
      rwa [← hk]
    · rw [if_neg hk] at hif
      cases hif
  · intro h
    exact ⟨_, h, if_pos rfl⟩

/-- An observation stands under its key. -/
theorem mem_foldEntries_keepAll {observations : List (κ × β)} {k : κ} {o : β} :
    (∃ e ∈ foldEntries keepAll observations, e.1 = k ∧ o ∈ e.2) ↔ (k, o) ∈ observations := by
  have hget := get_foldEntries (keepAll (β := β)) observations k
  rw [← mem_ofKey]
  constructor
  · intro h
    obtain ⟨⟨key, kept⟩, he, rfl, ho⟩ := h
    rw [get_of_mem (sorted_foldEntries _ _) he] at hget
    cases hof : ofKey key observations with
    | nil =>
      rw [hof] at hget
      cases hget
    | cons a rest =>
      rw [hof] at hget
      have hkept : some kept = some ([a] ++ rest) := hget.trans (foldEntry_keepAll_some rest [a])
      rwa [Option.some.inj hkept] at ho
  · intro h
    cases hof : ofKey k observations with
    | nil =>
      rw [hof] at h
      exact absurd h List.not_mem_nil
    | cons a rest =>
      rw [hof] at hget
      have hentry := mem_of_get (hget.trans (foldEntry_keepAll_some rest [a]))
      refine ⟨_, hentry, rfl, ?_⟩
      rwa [hof] at h

/-! ### Choosing one observation -/

/-- The first observation of a key stays (`entry(key).or_insert(value)`). -/
def keepFirst (entry : Option α) (o : α) : α := entry.getD o

theorem foldEntry_keepFirst_some (a : α) : ∀ observations : List α,
    foldEntry keepFirst (some a) observations = some a
  | [] => rfl
  | _ :: rest => foldEntry_keepFirst_some a rest

theorem foldEntry_keepFirst : ∀ observations : List α,
    foldEntry keepFirst none observations = observations.head?
  | [] => rfl
  | o :: rest => foldEntry_keepFirst_some o rest

/-- The least observation of a key stays. -/
def keepLeast [LinearOrder α] (entry : Option α) (o : α) : α :=
  match entry with
  | some a => if o < a then o else a
  | none => o

theorem keepLeast_comm [LinearOrder α] (entry : Option α) (b c : α) :
    keepLeast (some (keepLeast entry b)) c = keepLeast (some (keepLeast entry c)) b := by
  have hmin : ∀ a o : α, keepLeast (some a) o = min a o := by
    intro a o
    rw [keepLeast, min_def]
    by_cases h : o < a
    · rw [if_pos h, if_neg (not_le.mpr h)]
    · rw [if_neg h, if_pos (not_lt.mp h)]
  cases entry with
  | none =>
    show keepLeast (some b) c = keepLeast (some c) b
    rw [hmin, hmin, min_comm]
  | some a => rw [hmin, hmin, hmin, hmin, min_assoc, min_comm b c, min_assoc]

end Whatspec.Library.Upsert

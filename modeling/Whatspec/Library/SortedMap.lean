import Mathlib.Data.List.Induction
import Mathlib.Data.List.Pairwise
import Mathlib.Order.Lattice

/-!
# Ordered maps as sorted association lists

The canonical form of an ordered map: its entries in increasing order of key.

* `get_insert` is what a map answers after an insertion, `sorted_insert` that it stays one;
* `get_map` reads through a change of the values;
* `tabulate` builds a map from a list of keys, and `get_tabulate` reads it;
* `get_extend` and `get_complete` read a map to which entries were added, with or without replacing;
* `ext_of_sorted`: two maps with the same lookups are the same list.
-/

namespace Whatspec.Library.SortedMap

variable {κ α β : Type*} [LinearOrder κ]

/-- The entries are in increasing order of key, no key twice. -/
def Sorted (m : List (κ × α)) : Prop := m.Pairwise (fun x y => x.1 < y.1)

/-- The value under a key. -/
def get (m : List (κ × α)) (k : κ) : Option α :=
  match m with
  | [] => none
  | (k', v) :: rest => if k = k' then some v else get rest k

/-- Put a value under a key, replacing the one that was there. -/
def insert (k : κ) (v : α) : List (κ × α) → List (κ × α)
  | [] => [(k, v)]
  | (k', v') :: rest =>
      if k < k' then (k, v) :: (k', v') :: rest
      else if k = k' then (k, v) :: rest
      else (k', v') :: insert k v rest

/-- Collect entries into a map; a later entry replaces an earlier one of its key. -/
def collect (entries : List (κ × α)) : List (κ × α) :=
  entries.foldl (fun m e => insert e.1 e.2 m) []

/-- Add the entries of `other`; an entry of it replaces one of the same key. -/
def extend (m other : List (κ × α)) : List (κ × α) :=
  other.foldl (fun m e => insert e.1 e.2 m) m

/-- Add entries under the keys that have none yet; the first entry of a key counts. -/
def complete (m entries : List (κ × α)) : List (κ × α) :=
  entries.foldl (fun m e => if (get m e.1).isSome then m else insert e.1 e.2 m) m

/-- The map that has `f k` under each listed key `k` for which there is one. -/
def tabulate (f : κ → Option α) (keys : List κ) : List (κ × α) :=
  keys.foldl (fun m k =>
    match f k with
    | some v => insert k v m
    | none => m) []

/-- Change the value under a key, if there is one. -/
def modify (f : α → α) (k : κ) (m : List (κ × α)) : List (κ × α) :=
  match get m k with
  | some v => insert k (f v) m
  | none => m

/-- Take a key out. -/
def remove (k : κ) (m : List (κ × α)) : List (κ × α) := m.filter fun e => e.1 ≠ k

@[simp] theorem get_nil (k : κ) : get ([] : List (κ × α)) k = none := rfl

theorem get_cons (k k' : κ) (v : α) (rest : List (κ × α)) :
    get ((k', v) :: rest) k = if k = k' then some v else get rest k := rfl

theorem get_insert (k k' : κ) (v : α) (m : List (κ × α)) :
    get (insert k v m) k' = if k' = k then some v else get m k' := by
  induction m with
  | nil => rfl
  | cons e rest ih =>
      obtain ⟨j, w⟩ := e
      rw [insert]
      by_cases hlt : k < j
      · rw [if_pos hlt, get_cons]
      · rw [if_neg hlt]
        by_cases heq : k = j
        · subst heq
          rw [if_pos rfl, get_cons, get_cons]
          by_cases hk : k' = k
          · rw [if_pos hk, if_pos hk]
          · rw [if_neg hk, if_neg hk, if_neg hk]
        · rw [if_neg heq, get_cons, get_cons, ih]
          by_cases hj : k' = j
          · rw [if_pos hj, if_pos hj, if_neg fun hk => heq (hk.symm.trans hj)]
          · rw [if_neg hj, if_neg hj]

theorem get_modify (f : α → α) (k k' : κ) (m : List (κ × α)) :
    get (modify f k m) k' = if k' = k then (get m k').map f else get m k' := by
  rw [modify]
  cases hk : get m k with
  | none =>
      by_cases heq : k' = k
      · rw [if_pos heq, heq, hk]
        rfl
      · rw [if_neg heq]
  | some v =>
      rw [get_insert]
      by_cases heq : k' = k
      · rw [if_pos heq, if_pos heq, heq, hk]
        rfl
      · rw [if_neg heq, if_neg heq]

theorem get_remove (k k' : κ) (m : List (κ × α)) :
    get (remove k m) k' = if k' = k then none else get m k' := by
  induction m with
  | nil => rw [remove, List.filter_nil, get_nil, ite_self]
  | cons e rest ih =>
      obtain ⟨j, w⟩ := e
      rw [remove, List.filter_cons, get_cons]
      by_cases hj : j = k
      · rw [if_neg (by simp [hj])]
        refine Eq.trans ih ?_
        by_cases heq : k' = k
        · rw [if_pos heq, if_pos heq]
        · rw [if_neg heq, if_neg heq, if_neg fun h => heq (h.trans hj)]
      · rw [if_pos (by simp [hj]), get_cons]
        by_cases hkj : k' = j
        · rw [if_pos hkj, if_pos hkj, if_neg fun h => hj (hkj.symm.trans h)]
        · rw [if_neg hkj, if_neg hkj]
          exact ih

theorem mem_insert {k : κ} {v : α} {m : List (κ × α)} {e : κ × α} (h : e ∈ insert k v m) :
    e = (k, v) ∨ e ∈ m := by
  induction m with
  | nil => exact Or.inl (List.mem_singleton.mp h)
  | cons f rest ih =>
      obtain ⟨j, w⟩ := f
      rw [insert] at h
      by_cases hlt : k < j
      · rw [if_pos hlt] at h
        exact List.mem_cons.mp h
      · rw [if_neg hlt] at h
        by_cases heq : k = j
        · rw [if_pos heq] at h
          rcases List.mem_cons.mp h with hnew | hold
          · exact Or.inl hnew
          · exact Or.inr (List.mem_cons_of_mem _ hold)
        · rw [if_neg heq] at h
          rcases List.mem_cons.mp h with hhead | htail
          · exact Or.inr (List.mem_cons.mpr (Or.inl hhead))
          · rcases ih htail with hnew | hold
            · exact Or.inl hnew
            · exact Or.inr (List.mem_cons_of_mem _ hold)

theorem sorted_insert (k : κ) (v : α) {m : List (κ × α)} (h : Sorted m) :
    Sorted (insert k v m) := by
  induction m with
  | nil => exact List.pairwise_singleton _ _
  | cons e rest ih =>
      obtain ⟨j, w⟩ := e
      obtain ⟨hhead, htail⟩ := List.pairwise_cons.mp h
      rw [insert]
      by_cases hlt : k < j
      · rw [if_pos hlt]
        refine List.pairwise_cons.mpr ⟨fun f hf => ?_, h⟩
        rcases List.mem_cons.mp hf with rfl | hrest
        · exact hlt
        · exact hlt.trans (hhead f hrest)
      · rw [if_neg hlt]
        by_cases heq : k = j
        · subst heq
          rw [if_pos rfl]
          exact List.pairwise_cons.mpr ⟨hhead, htail⟩
        · rw [if_neg heq]
          refine List.pairwise_cons.mpr ⟨fun f hf => ?_, ih htail⟩
          rcases mem_insert hf with rfl | hold
          · exact lt_of_le_of_ne (not_lt.mp hlt) (Ne.symm heq)
          · exact hhead f hold

theorem get_map (f : κ → α → β) (m : List (κ × α)) (k : κ) :
    get (m.map fun e => (e.1, f e.1 e.2)) k = (get m k).map (f k) := by
  induction m with
  | nil => rfl
  | cons e rest ih =>
      obtain ⟨j, w⟩ := e
      rw [List.map_cons, get_cons, get_cons, ih]
      by_cases hj : k = j
      · rw [if_pos hj, if_pos hj, hj]
        rfl
      · rw [if_neg hj, if_neg hj]

theorem sorted_map (f : κ → α → β) {m : List (κ × α)} (h : Sorted m) :
    Sorted (m.map fun e => (e.1, f e.1 e.2)) :=
  List.pairwise_map.mpr h

/-- One more listed key, or one more round over a key already listed. -/
theorem foldl_tabulate (f : κ → Option α) (keys : List κ) {m : List (κ × α)} (hm : Sorted m) :
    Sorted (keys.foldl (fun m k =>
        match f k with
        | some v => insert k v m
        | none => m) m) ∧
      ∀ k, (get m k = none ∨ get m k = f k) →
        get (keys.foldl (fun m k =>
          match f k with
          | some v => insert k v m
          | none => m) m) k = if k ∈ keys then f k else get m k := by
  induction keys generalizing m with
  | nil => exact ⟨hm, fun k _ => rfl⟩
  | cons j keys ih =>
      rw [List.foldl_cons]
      have hmem : ∀ k, k ∈ j :: keys ↔ k = j ∨ k ∈ keys := fun k => List.mem_cons
      cases hj : f j with
      | none =>
          refine ⟨(ih hm).1, fun k hk => ?_⟩
          show get (keys.foldl _ m) k = _
          rw [(ih hm).2 k hk]
          by_cases hkj : k = j
          · subst hkj
            have hnone : get m k = none := hk.elim id fun h => h.trans hj
            rw [hj, hnone, ite_self, ite_self]
          · simp only [hmem, hkj, false_or]
      | some v =>
          refine ⟨(ih (sorted_insert j v hm)).1, fun k hk => ?_⟩
          show get (keys.foldl _ (insert j v m)) k = _
          rw [(ih (sorted_insert j v hm)).2 k]
          · rw [get_insert]
            by_cases hkj : k = j
            · subst hkj
              rw [if_pos rfl, ← hj, ite_self, if_pos List.mem_cons_self]
            · simp only [hmem, hkj, false_or, if_false]
          · rw [get_insert]
            by_cases hkj : k = j
            · rw [if_pos hkj, hkj, hj]
              exact Or.inr rfl
            · rw [if_neg hkj]
              exact hk

theorem get_tabulate (f : κ → Option α) (keys : List κ) (k : κ) :
    get (tabulate f keys) k = if k ∈ keys then f k else none :=
  (foldl_tabulate f keys List.Pairwise.nil).2 k (Or.inl rfl)

theorem sorted_tabulate (f : κ → Option α) (keys : List κ) : Sorted (tabulate f keys) :=
  (foldl_tabulate f keys List.Pairwise.nil).1

theorem mem_of_get {m : List (κ × α)} {k : κ} {v : α} (h : get m k = some v) : (k, v) ∈ m := by
  induction m with
  | nil => cases h
  | cons e rest ih =>
      obtain ⟨j, w⟩ := e
      rw [get_cons] at h
      by_cases hj : k = j
      · rw [if_pos hj] at h
        cases h
        exact List.mem_cons.mpr (Or.inl (by rw [hj]))
      · rw [if_neg hj] at h
        exact List.mem_cons_of_mem _ (ih h)

/-- An entry of a map is what its key looks up. -/
theorem get_of_mem {m : List (κ × α)} (hm : Sorted m) {k : κ} {v : α} (h : (k, v) ∈ m) :
    get m k = some v := by
  induction m with
  | nil => cases h
  | cons e rest ih =>
      obtain ⟨j, w⟩ := e
      obtain ⟨hhead, htail⟩ := List.pairwise_cons.mp hm
      rw [get_cons]
      rcases List.mem_cons.mp h with heq | hrest
      · cases heq
        exact if_pos rfl
      · rw [if_neg (ne_of_gt (hhead _ hrest)), ih htail hrest]

/-- A key that looks something up is one of the keys. -/
theorem mem_keys_of_get {m : List (κ × α)} {k : κ} {v : α} (h : get m k = some v) :
    k ∈ m.map Prod.fst :=
  List.mem_map_of_mem (mem_of_get h)

theorem get_eq_none_iff (m : List (κ × α)) (k : κ) : get m k = none ↔ k ∉ m.map Prod.fst := by
  induction m with
  | nil => simp
  | cons e rest ih =>
      rw [get_cons, List.map_cons, List.mem_cons, not_or, ← ih]
      by_cases hk : k = e.1
      · simp [hk]
      · simp [hk]

/-- A lookup in the entries that are kept. -/
theorem get_filter {m : List (κ × α)} (hm : Sorted m) (p : κ × α → Bool) (k : κ) :
    get (m.filter p) k = (get m k).filter fun v => p (k, v) := by
  have hkeep : Sorted (m.filter p) := List.Pairwise.filter p hm
  apply Option.ext
  intro v
  rw [Option.filter_eq_some_iff]
  constructor
  · intro h
    obtain ⟨hmem, hp⟩ := List.mem_filter.mp (mem_of_get h)
    exact ⟨get_of_mem hm hmem, hp⟩
  · rintro ⟨h, hp⟩
    exact get_of_mem hkeep (List.mem_filter.mpr ⟨mem_of_get h, hp⟩)

/-- A collected map answers with the entries it was collected from, when no key comes twice. -/
theorem get_collect {entries : List (κ × α)} (hnodup : (entries.map Prod.fst).Nodup) (k : κ)
    (v : α) : get (collect entries) k = some v ↔ (k, v) ∈ entries := by
  have hfold : ∀ (es : List (κ × α)) (m : List (κ × α)), (es.map Prod.fst).Nodup →
      (get (es.foldl (fun m e => insert e.1 e.2 m) m) k = some v ↔
        (k, v) ∈ es ∨ k ∉ es.map Prod.fst ∧ get m k = some v) := by
    intro es
    induction es with
    | nil => intro m _; simp
    | cons e es ih =>
        intro m hes
        obtain ⟨hnew, hrest⟩ := List.nodup_cons.mp hes
        rw [List.foldl_cons, ih _ hrest, get_insert, List.map_cons, List.mem_cons, List.mem_cons]
        by_cases hk : k = e.1
        · subst hk
          have hnot : (e.1, v) ∉ es := fun h => hnew (List.mem_map.mpr ⟨_, h, rfl⟩)
          have hhead : some e.2 = some v ↔ (e.1, v) = e :=
            ⟨fun h => by rw [← Option.some.inj h], fun h => by rw [← h]⟩
          simp only [if_pos, hnot, hnew, hhead, not_false_iff, true_and, false_or, or_false,
            not_true, false_and]
        · have hne : (k, v) ≠ e := fun h => hk (congrArg Prod.fst h)
          simp only [hk, hne, if_false, false_or]
  rw [collect, hfold entries [] hnodup]
  simp

theorem collect_concat (entries : List (κ × α)) (k : κ) (v : α) :
    collect (entries ++ [(k, v)]) = insert k v (collect entries) := by
  rw [collect, collect, List.foldl_append]
  rfl

theorem mem_of_get_collect {entries : List (κ × α)} {k : κ} {v : α}
    (h : get (collect entries) k = some v) : (k, v) ∈ entries := by
  induction entries using List.reverseRecOn with
  | nil => cases h
  | append_singleton entries e ih =>
    rw [collect_concat, get_insert] at h
    rw [List.mem_append, List.mem_singleton]
    split_ifs at h with hk
    · exact Or.inr (Prod.ext hk (Option.some.inj h).symm)
    · exact Or.inl (ih h)

theorem isSome_get_collect {entries : List (κ × α)} {k : κ} (h : k ∈ entries.map Prod.fst) :
    ∃ v, get (collect entries) k = some v := by
  induction entries using List.reverseRecOn with
  | nil => cases h
  | append_singleton entries e ih =>
    rw [collect_concat, get_insert]
    split_ifs with hk
    · exact ⟨_, rfl⟩
    · rw [List.map_append, List.mem_append] at h
      exact ih (h.resolve_right fun he => hk (List.mem_singleton.mp he))

theorem get_filter_key (m : List (κ × α)) (q : κ → Bool) (k : κ) :
    get (m.filter fun e => q e.1) k = if q k then get m k else none := by
  induction m with
  | nil => simp
  | cons e m ih =>
    rw [List.filter_cons]
    by_cases hq : q e.1
    · rw [if_pos hq, get_cons, get_cons, ih]
      by_cases hk : k = e.1
      · subst hk
        rw [if_pos rfl, if_pos hq, if_pos rfl]
      · rw [if_neg hk, if_neg hk]
    · rw [if_neg hq, ih, get_cons]
      by_cases hk : k = e.1
      · subst hk
        rw [if_neg hq, if_neg hq]
      · rw [if_neg hk]

theorem mem_of_mem_extend {m other : List (κ × α)} {e : κ × α} (h : e ∈ extend m other) :
    e ∈ m ∨ e ∈ other := by
  induction other generalizing m with
  | nil => exact Or.inl h
  | cons d other ih =>
    obtain h | h := ih h
    · obtain h | h := mem_insert h
      · exact Or.inr (h ▸ List.mem_cons_self)
      · exact Or.inl h
    · exact Or.inr (List.mem_cons_of_mem _ h)

theorem extend_eq_nil_iff (m other : List (κ × α)) : extend m other = [] ↔ m = [] ∧ other = [] := by
  induction other generalizing m with
  | nil => exact ⟨fun h => ⟨h, rfl⟩, fun h => h.1⟩
  | cons e other ih =>
    refine ⟨fun h => ?_, fun h => nomatch h.2⟩
    have hinsert : insert e.1 e.2 m = [] := ((ih _).mp h).1
    have hget := get_insert e.1 e.1 e.2 m
    rw [hinsert, if_pos rfl, get_nil] at hget
    cases hget

theorem sorted_extend {m : List (κ × α)} (hm : Sorted m) (other : List (κ × α)) :
    Sorted (extend m other) := by
  induction other generalizing m with
  | nil => exact hm
  | cons e other ih => exact ih (sorted_insert e.1 e.2 hm)

theorem sorted_collect (entries : List (κ × α)) : Sorted (collect entries) :=
  sorted_extend List.Pairwise.nil entries

theorem get_extend {other : List (κ × α)} (hother : Sorted other) (m : List (κ × α)) (k : κ) :
    get (extend m other) k = (get other k).or (get m k) := by
  induction other generalizing m with
  | nil => rfl
  | cons e other ih =>
    obtain ⟨hhead, htail⟩ := List.pairwise_cons.mp hother
    rw [show extend m (e :: other) = extend (insert e.1 e.2 m) other from rfl, ih htail,
      get_insert, get_cons]
    by_cases hk : k = e.1
    · have hnone : get other k = none := by
        rw [get_eq_none_iff]
        intro hmem
        obtain ⟨d, hd, hdk⟩ := List.mem_map.mp hmem
        exact absurd (hhead d hd) (by rw [hdk, hk]; exact lt_irrefl _)
      rw [if_pos hk, if_pos hk, hnone, Option.none_or, Option.some_or]
    · rw [if_neg hk, if_neg hk]

theorem get_complete (m entries : List (κ × α)) (k : κ) :
    get (complete m entries) k = (get m k).or (get entries k) := by
  induction entries generalizing m with
  | nil => rw [get_nil, Option.or_none]; rfl
  | cons e entries ih =>
    rw [show complete m (e :: entries) =
      complete (if (get m e.1).isSome then m else insert e.1 e.2 m) entries from rfl, ih, get_cons]
    by_cases hk : k = e.1
    · subst hk
      rw [if_pos rfl]
      cases hget : get m e.1 with
      | some v => rw [Option.isSome_some, if_pos rfl, hget, Option.some_or, Option.some_or]
      | none =>
        rw [Option.isSome_none, if_neg Bool.false_ne_true, get_insert, if_pos rfl, Option.some_or,
          Option.none_or]
    · rw [if_neg hk]
      split_ifs
      · rfl
      · rw [get_insert, if_neg hk]

theorem sorted_complete {m : List (κ × α)} (hm : Sorted m) (entries : List (κ × α)) :
    Sorted (complete m entries) := by
  induction entries generalizing m with
  | nil => exact hm
  | cons e entries ih =>
    refine ih ?_
    dsimp only
    split_ifs
    · exact hm
    · exact sorted_insert e.1 e.2 hm

theorem get_eq_none_of_lt {m : List (κ × α)} {k : κ} (h : ∀ e ∈ m, k < e.1) :
    get m k = none := by
  cases hget : get m k with
  | none => rfl
  | some v => exact absurd (h _ (mem_of_get hget)) (lt_irrefl k)

/-- **Maps with the same lookups are the same.** -/
theorem ext_of_sorted {m m' : List (κ × α)} (h : Sorted m) (h' : Sorted m')
    (hget : ∀ k, get m k = get m' k) : m = m' := by
  induction m generalizing m' with
  | nil =>
      cases m' with
      | nil => rfl
      | cons e' rest' =>
          have hnone := hget e'.1
          rw [get_of_mem h' (List.mem_cons_self (a := e'))] at hnone
          cases hnone
  | cons e rest ih =>
      cases m' with
      | nil =>
          have hnone := hget e.1
          rw [get_of_mem h (List.mem_cons_self (a := e))] at hnone
          cases hnone
      | cons e' rest' =>
          obtain ⟨hhead, htail⟩ := List.pairwise_cons.mp h
          obtain ⟨hhead', htail'⟩ := List.pairwise_cons.mp h'
          have hmem : (e.1, e.2) ∈ e' :: rest' :=
            mem_of_get ((hget e.1).symm.trans (get_of_mem h List.mem_cons_self))
          have hmem' : (e'.1, e'.2) ∈ e :: rest :=
            mem_of_get ((hget e'.1).trans (get_of_mem h' List.mem_cons_self))
          have heq : e = e' := by
            rcases List.mem_cons.mp hmem with hsame | hlater
            · exact hsame
            · rcases List.mem_cons.mp hmem' with hsame | hlater'
              · exact hsame.symm
              · exact absurd (hhead _ hlater') (not_lt_of_gt (hhead' _ hlater))
          subst heq
          congr 1
          refine ih htail htail' fun k => ?_
          have hk := hget k
          obtain ⟨j, w⟩ := e
          rw [get_cons, get_cons] at hk
          by_cases hj : k = j
          · subst hj
            rw [get_eq_none_of_lt hhead, get_eq_none_of_lt hhead']
          · rwa [if_neg hj, if_neg hj] at hk

/-- A map is its lookups under the keys it may have. -/
theorem eq_filterMap_of_sorted {m : List (κ × α)} (h : Sorted m) {keys : List κ}
    (hkeys : keys.Pairwise (· < ·)) (hall : ∀ k, (get m k).isSome → k ∈ keys) :
    m = keys.filterMap fun k => (get m k).map fun v => (k, v) := by
  have hsorted : Sorted (keys.filterMap fun k => (get m k).map fun v => (k, v)) := by
    refine hkeys.filterMap _ fun k k' hlt e he e' he' => ?_
    obtain ⟨v, -, rfl⟩ := Option.map_eq_some_iff.mp he
    obtain ⟨v', -, rfl⟩ := Option.map_eq_some_iff.mp he'
    exact hlt
  refine ext_of_sorted h hsorted fun k => Option.ext fun v => ?_
  constructor
  · intro hv
    refine get_of_mem hsorted (List.mem_filterMap.mpr ⟨k, hall k ?_, ?_⟩)
    · rw [hv]
      rfl
    · rw [hv]
      rfl
  · intro hv
    obtain ⟨k', -, hk'⟩ := List.mem_filterMap.mp (mem_of_get hv)
    obtain ⟨v', hget, heq⟩ := Option.map_eq_some_iff.mp hk'
    cases heq
    exact hget

end Whatspec.Library.SortedMap

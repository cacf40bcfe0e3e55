import Mathlib.Data.List.Nodup
import Mathlib.Data.Prod.Lex

/-!
# Decision tables with a default on two axes

A table decides on two keys.  Its rows name a key or leave it open on either axis, and a key
that no row names is decided by the row that leaves the axis open.

* `prune` leaves out the keys whose rows decide what the open row decides anyway;
* `lookup` is the reader of a table: a key without a row of its own, and an absent second key,
  read the open row;
* **`lookup_prune`**: the pruned table decides what the full one does.
* `dropRepeats` and `DistinctNeighbours` are the two passes over a sorted table after which a pair
  of keys has one row (`functional_of_sorted`).
-/

namespace Whatspec.Library.DecisionTable

variable {ρ κ δ : Type*} [DecidableEq κ] [DecidableEq δ]
variable {first second : ρ → Option κ} {out : ρ → δ} {rows : List ρ}

/-- The first keys some row of which decides otherwise than the open row beside it. -/
def firstKeys (first second : ρ → Option κ) (out : ρ → δ) (rows : List ρ) : List (Option κ) :=
  (rows.filter fun r =>
    (rows.find? fun d => first d = none ∧ second d = second r).any (out · ≠ out r)).map first

/-- The second keys some row of which decides otherwise than the open row beside it. -/
def secondKeys (first second : ρ → Option κ) (out : ρ → δ) (rows : List ρ) : List (Option κ) :=
  ((rows.filter fun r => (second r).isSome).filter fun r =>
    (rows.find? fun d => first d = first r ∧ second d = none).any (out · ≠ out r)).map second

/-- Keep the open rows and the keys that decide something of their own. -/
def prune (first second : ρ → Option κ) (out : ρ → δ) (rows : List ρ) : List ρ :=
  rows.filter fun r =>
    (first r = none ∨ first r ∈ firstKeys first second out rows) ∧
      (second r = none ∨ second r ∈ secondKeys first second out rows)

/-- The key under which a table is read: the key itself when some row names it. -/
def keyIn (key : ρ → Option κ) (rows : List ρ) (k : κ) : Option κ :=
  if rows.any (key · = some k) then some k else none

/-- The row that a table has for two keys, the second one possibly absent. -/
def lookup (first second : ρ → Option κ) (rows : List ρ) (a : κ) (b : Option κ) : Option ρ :=
  rows.find? fun r => first r = keyIn first rows a ∧ second r = b.bind (keyIn second rows)

/-- Two rows with the same keys are the same row. -/
def Functional (first second : ρ → Option κ) (rows : List ρ) : Prop :=
  ∀ r ∈ rows, ∀ d ∈ rows, first r = first d → second r = second d → r = d

/-- Every pair of keys that is open or listed has a row, and only those have. -/
structure Grid (first second : ρ → Option κ) (keys : List κ) (rows : List ρ) : Prop where
  functional : Functional first second rows
  complete : ∀ a b, (∀ k, a = some k → k ∈ keys) → (∀ k, b = some k → k ∈ keys) →
    ∃ r ∈ rows, first r = a ∧ second r = b
  first_mem : ∀ r ∈ rows, ∀ k, first r = some k → k ∈ keys
  second_mem : ∀ r ∈ rows, ∀ k, second r = some k → k ∈ keys

/-! ### Pruning -/

omit [DecidableEq κ] in
theorem find?_eq_of_functional (hrows : Functional first second rows) {r : ρ} (hr : r ∈ rows)
    {p : ρ → Bool} (hp : ∀ d, p d ↔ first d = first r ∧ second d = second r) :
    rows.find? p = some r := by
  cases hfind : rows.find? p with
  | none =>
    have hno := List.find?_eq_none.mp hfind r hr
    exact absurd ((hp r).mpr ⟨rfl, rfl⟩) hno
  | some d =>
    have hd := (hp d).mp (List.find?_some hfind)
    rw [hrows d (List.mem_of_find?_eq_some hfind) r hr hd.1 hd.2]

variable {keys : List κ}

/-- A row whose first key is pruned decides what the open row beside it decides. -/
theorem out_eq_of_not_mem_firstKeys (h : Grid first second keys rows) {r d : ρ} (hr : r ∈ rows)
    (hd : d ∈ rows) (hfirst : first d = none) (hsecond : second d = second r)
    (hpruned : first r ∉ firstKeys first second out rows) : out d = out r := by
  by_contra hne
  apply hpruned
  refine List.mem_map.mpr ⟨r, List.mem_filter.mpr ⟨hr, ?_⟩, rfl⟩
  have hfind : (rows.find? fun c => decide (first c = none ∧ second c = second r)) = some d :=
    find?_eq_of_functional h.functional hd (fun c => by simp [hfirst, hsecond])
  rw [hfind]
  simpa using hne

/-- A row whose second key is pruned decides what the open row beside it decides. -/
theorem out_eq_of_not_mem_secondKeys (h : Grid first second keys rows) {r d : ρ} (hr : r ∈ rows)
    (hd : d ∈ rows) (hfirst : first d = first r) (hsecond : second d = none)
    (hsome : (second r).isSome) (hpruned : second r ∉ secondKeys first second out rows) :
    out d = out r := by
  by_contra hne
  apply hpruned
  refine List.mem_map.mpr
    ⟨r, List.mem_filter.mpr ⟨List.mem_filter.mpr ⟨hr, hsome⟩, ?_⟩, rfl⟩
  have hfind : (rows.find? fun c => decide (first c = first r ∧ second c = none)) = some d :=
    find?_eq_of_functional h.functional hd (fun c => by simp [hfirst, hsecond])
  rw [hfind]
  simpa using hne

theorem mem_prune {r : ρ} : r ∈ prune first second out rows ↔ r ∈ rows ∧
    (first r = none ∨ first r ∈ firstKeys first second out rows) ∧
    (second r = none ∨ second r ∈ secondKeys first second out rows) := by
  simp [prune]

/-- The keys of rows that stand under the keys of a list, and under all of them. -/
theorem keyIn_of_rows {f : ρ → Option κ} {ks : List (Option κ)} {rs : List ρ} {a : κ}
    (hkept : ∀ r ∈ rs, f r = none ∨ f r ∈ ks) (hrow : some a ∈ ks → ∃ r ∈ rs, f r = some a) :
    keyIn f rs a = if some a ∈ ks then some a else none := by
  unfold keyIn
  congr 1
  rw [List.any_eq_true, eq_iff_iff]
  constructor
  · intro hany
    obtain ⟨r, hr, hkey⟩ := hany
    have hkey' : f r = some a := of_decide_eq_true hkey
    have hmem := hkept r hr
    rw [hkey'] at hmem
    exact hmem.resolve_left (by simp)
  · intro hmem
    obtain ⟨r, hr, hkey⟩ := hrow hmem
    exact ⟨r, hr, decide_eq_true hkey⟩

/-- The first keys that are left are the ones that decide something of their own. -/
theorem keyIn_first_prune (h : Grid first second keys rows) (a : κ) :
    keyIn first (prune first second out rows) a =
      if some a ∈ firstKeys first second out rows then some a else none := by
  refine keyIn_of_rows (fun r hr => (mem_prune.mp hr).2.1) fun hmem => ?_
  obtain ⟨r, hr, hkey⟩ := List.mem_map.mp hmem
  have ha : a ∈ keys := h.first_mem r (List.mem_filter.mp hr).1 a hkey
  obtain ⟨d, hd, hfirst, hsecond⟩ := h.complete (some a) none
    (fun k hk => by cases hk; exact ha) (fun k hk => by cases hk)
  exact ⟨d, mem_prune.mpr ⟨hd, Or.inr (by rwa [hfirst]), Or.inl hsecond⟩, hfirst⟩

theorem keyIn_second_prune (h : Grid first second keys rows) (b : κ) :
    keyIn second (prune first second out rows) b =
      if some b ∈ secondKeys first second out rows then some b else none := by
  refine keyIn_of_rows (fun r hr => (mem_prune.mp hr).2.2) fun hmem => ?_
  obtain ⟨r, hr, hkey⟩ := List.mem_map.mp hmem
  have hb : b ∈ keys := h.second_mem r (List.mem_filter.mp (List.mem_filter.mp hr).1).1 b hkey
  obtain ⟨d, hd, hfirst, hsecond⟩ := h.complete none (some b)
    (fun k hk => by cases hk) (fun k hk => by cases hk; exact hb)
  exact ⟨d, mem_prune.mpr ⟨hd, Or.inl hfirst, Or.inr (by rwa [hsecond])⟩, hsecond⟩

theorem functional_prune (h : Functional first second rows) :
    Functional first second (prune first second out rows) :=
  fun r hr d hd => h r (mem_prune.mp hr).1 d (mem_prune.mp hd).1

/-- The key of a full table: the key itself when it is listed. -/
def listedKey (keys : List κ) (k : κ) : Option κ := if k ∈ keys then some k else none

/-- **The pruned table decides what the full one does.**  The row that the pruned table has for
two keys decides what the full table's own row for them decides. -/
theorem lookup_prune (h : Grid first second keys rows) {a : κ} {b : Option κ} {r : ρ}
    (hr : r ∈ rows) (hfirst : first r = listedKey keys a)
    (hsecond : second r = b.bind (listedKey keys)) :
    ∃ d, lookup first second (prune first second out rows) a b = some d ∧ out d = out r := by
  -- The two keys under which the pruned table is read.
  obtain ⟨a', ha'⟩ : ∃ a', a' = keyIn first (prune first second out rows) a := ⟨_, rfl⟩
  obtain ⟨b', hb'⟩ : ∃ b', b' = b.bind (keyIn second (prune first second out rows)) := ⟨_, rfl⟩
  have hacases : a' = none ∧ first r ∉ firstKeys first second out rows ∨
      a' = none ∧ first r = none ∨
      a' = first r ∧ first r ∈ firstKeys first second out rows := by
    rw [keyIn_first_prune h] at ha'
    rw [hfirst, listedKey]
    by_cases hmem : some a ∈ firstKeys first second out rows
    · obtain ⟨c, hc, hkey⟩ := List.mem_map.mp hmem
      have hlisted := h.first_mem c (List.mem_filter.mp hc).1 a hkey
      rw [if_pos hmem] at ha'
      rw [if_pos hlisted]
      exact Or.inr (Or.inr ⟨ha', hmem⟩)
    · rw [if_neg hmem] at ha'
      by_cases hlisted : a ∈ keys
      · rw [if_pos hlisted]
        exact Or.inl ⟨ha', hmem⟩
      · rw [if_neg hlisted]
        exact Or.inr (Or.inl ⟨ha', rfl⟩)
  have hbcases : b' = none ∧ (second r).isSome ∧ second r ∉ secondKeys first second out rows ∨
      b' = none ∧ second r = none ∨
      b' = second r ∧ second r ∈ secondKeys first second out rows := by
    cases b with
    | none => exact Or.inr (Or.inl ⟨hb', hsecond⟩)
    | some b =>
      rw [Option.bind_some, keyIn_second_prune h] at hb'
      rw [Option.bind_some] at hsecond
      rw [hsecond, listedKey]
      by_cases hmem : some b ∈ secondKeys first second out rows
      · obtain ⟨c, hc, hkey⟩ := List.mem_map.mp hmem
        have hlisted := h.second_mem c (List.mem_filter.mp (List.mem_filter.mp hc).1).1 b hkey
        rw [if_pos hmem] at hb'
        rw [if_pos hlisted]
        exact Or.inr (Or.inr ⟨hb', hmem⟩)
      · rw [if_neg hmem] at hb'
        by_cases hlisted : b ∈ keys
        · rw [if_pos hlisted]
          exact Or.inl ⟨hb', rfl, hmem⟩
        · rw [if_neg hlisted]
          exact Or.inr (Or.inl ⟨hb', rfl⟩)
  -- First the row with the first key changed, then the one with both.
  have hfirstListed : ∀ k, a' = some k → k ∈ keys := by
    intro k hk
    rcases hacases with ⟨h₁, _⟩ | ⟨h₁, _⟩ | ⟨h₁, _⟩
    · rw [h₁] at hk; cases hk
    · rw [h₁] at hk; cases hk
    · exact h.first_mem r hr k (h₁ ▸ hk)
  have hsecondListed : ∀ k, b' = some k → k ∈ keys := by
    intro k hk
    rcases hbcases with ⟨h₁, _⟩ | ⟨h₁, _⟩ | ⟨h₁, _⟩
    · rw [h₁] at hk; cases hk
    · rw [h₁] at hk; cases hk
    · exact h.second_mem r hr k (h₁ ▸ hk)
  obtain ⟨m, hm, hmfirst, hmsecond⟩ := h.complete a' (second r) hfirstListed (h.second_mem r hr)
  have hmout : out m = out r := by
    rcases hacases with ⟨h₁, h₂⟩ | ⟨h₁, h₂⟩ | ⟨h₁, _⟩
    · exact out_eq_of_not_mem_firstKeys h hr hm (hmfirst.trans h₁) hmsecond h₂
    · rw [h.functional m hm r hr (by rw [hmfirst, h₁, h₂]) hmsecond]
    · rw [h.functional m hm r hr (by rw [hmfirst, h₁]) hmsecond]
  obtain ⟨d, hd, hdfirst, hdsecond⟩ := h.complete a' b' hfirstListed hsecondListed
  have hdout : out d = out m := by
    rw [← hmsecond] at hbcases
    rcases hbcases with ⟨h₁, h₂, h₃⟩ | ⟨h₁, h₂⟩ | ⟨h₁, _⟩
    · exact out_eq_of_not_mem_secondKeys h hm hd (by rw [hdfirst, hmfirst])
        (hdsecond.trans h₁) h₂ h₃
    · rw [h.functional d hd m hm (by rw [hdfirst, hmfirst]) (by rw [hdsecond, h₁, h₂])]
    · rw [h.functional d hd m hm (by rw [hdfirst, hmfirst]) (by rw [hdsecond, h₁])]
  have hkept : d ∈ prune first second out rows := by
    refine mem_prune.mpr ⟨hd, ?_, ?_⟩
    · rw [hdfirst]
      rcases hacases with ⟨h₁, _⟩ | ⟨h₁, _⟩ | ⟨h₁, h₂⟩
      · exact Or.inl h₁
      · exact Or.inl h₁
      · exact Or.inr (h₁ ▸ h₂)
    · rw [hdsecond]
      rcases hbcases with ⟨h₁, _⟩ | ⟨h₁, _⟩ | ⟨h₁, h₂⟩
      · exact Or.inl h₁
      · exact Or.inl h₁
      · exact Or.inr (h₁ ▸ h₂)
  refine ⟨d, ?_, hdout.trans hmout⟩
  exact find?_eq_of_functional (functional_prune h.functional) hkept
    (fun c => by rw [decide_eq_true_iff, hdfirst, hdsecond, ha', hb'])

/-! ### One row for two keys -/

/-- Leave out an element that equals the one before it (`Vec::dedup`). -/
def dropRepeats [DecidableEq ρ] : List ρ → List ρ
  | [] => []
  | [x] => [x]
  | x :: y :: rest => if x = y then dropRepeats (y :: rest) else x :: dropRepeats (y :: rest)

theorem mem_dropRepeats [DecidableEq ρ] {x : ρ} : ∀ {l : List ρ}, x ∈ dropRepeats l ↔ x ∈ l
  | [] => Iff.rfl
  | [_] => Iff.rfl
  | y :: z :: rest => by
    have ih := mem_dropRepeats (x := x) (l := z :: rest)
    rw [dropRepeats]
    split
    · next heq =>
      rw [ih, heq]
      simp
    · rw [List.mem_cons, ih]
      exact List.mem_cons.symm

theorem dropRepeats_sublist [DecidableEq ρ] : ∀ l : List ρ, (dropRepeats l).Sublist l
  | [] => .slnil
  | [x] => List.Sublist.refl [x]
  | x :: y :: rest => by
    rw [dropRepeats]
    split
    · exact (dropRepeats_sublist (y :: rest)).cons x
    · exact (dropRepeats_sublist (y :: rest)).cons_cons x

/-- No two neighbours have the same keys (`rows.windows(2)`). -/
def DistinctNeighbours (first second : ρ → Option κ) : List ρ → Prop
  | [] => True
  | [_] => True
  | x :: y :: rest => ¬(first x = first y ∧ second x = second y) ∧
      DistinctNeighbours first second (y :: rest)

instance : DecidablePred (DistinctNeighbours first second) := fun l =>
  l.rec (isTrue trivial) fun x rest ih => by
    cases rest with
    | nil => exact isTrue trivial
    | cons y rest => exact inferInstanceAs (Decidable (_ ∧ DistinctNeighbours _ _ (y :: rest)))

omit [DecidableEq κ] in
/-- In a table ordered by its keys, distinct neighbours are in strict order. -/
theorem pairwise_lt_of_sorted {τ : Type*} [PartialOrder τ] {order : ρ → τ}
    (horder : ∀ x y, order x = order y ↔ first x = first y ∧ second x = second y) :
    ∀ {l : List ρ}, l.Pairwise (fun x y => order x ≤ order y) →
      DistinctNeighbours first second l → l.Pairwise (fun x y => order x < order y)
  | [], _, _ => .nil
  | [_], _, _ => List.pairwise_singleton ..
  | x :: y :: rest, hsorted, hdistinct => by
    rw [List.pairwise_cons] at hsorted
    have hrest := pairwise_lt_of_sorted horder hsorted.2 hdistinct.2
    have hxy : order x < order y := by
      refine lt_of_le_of_ne (hsorted.1 y (List.mem_cons_self ..)) fun heq => ?_
      exact hdistinct.1 ((horder x y).mp heq)
    refine List.pairwise_cons.mpr ⟨fun z hz => ?_, hrest⟩
    rcases List.mem_cons.mp hz with rfl | hz
    · exact hxy
    · exact hxy.trans ((List.pairwise_cons.mp hrest).1 z hz)

omit [DecidableEq κ] in
/-- A table ordered by its keys without equal neighbours has one row for two keys. -/
theorem functional_of_sorted {τ : Type*} [PartialOrder τ] {order : ρ → τ}
    (horder : ∀ x y, order x = order y ↔ first x = first y ∧ second x = second y) {l : List ρ}
    (hsorted : l.Pairwise (fun x y => order x ≤ order y))
    (hdistinct : DistinctNeighbours first second l) : Functional first second l := by
  intro r hr d hd hfirst hsecond
  have hnodup : (l.map order).Nodup := by
    refine List.pairwise_map.mpr ?_
    exact (pairwise_lt_of_sorted horder hsorted hdistinct).imp fun hlt => hlt.ne
  exact List.inj_on_of_nodup_map hnodup hr hd ((horder r d).mpr ⟨hfirst, hsecond⟩)

theorem dropRepeats_cons [DecidableEq ρ] (x : ρ) :
    ∀ rest : List ρ, ∃ tail, dropRepeats (x :: rest) = x :: tail
  | [] => ⟨[], rfl⟩
  | y :: rest => by
    rw [dropRepeats]
    split
    · next heq =>
      rw [heq]
      exact dropRepeats_cons y rest
    · exact ⟨_, rfl⟩

omit [DecidableEq κ] in
/-- When two rows with the same keys are one row, dropping repeats from the ordered table leaves
distinct neighbours. -/
theorem distinctNeighbours_of_functional [DecidableEq ρ] :
    ∀ {l : List ρ}, Functional first second l → DistinctNeighbours first second (dropRepeats l)
  | [], _ => trivial
  | [_], _ => trivial
  | x :: y :: rest, h => by
    have hrest : Functional first second (y :: rest) :=
      fun r hr d hd => h r (List.mem_cons_of_mem _ hr) d (List.mem_cons_of_mem _ hd)
    have ih := distinctNeighbours_of_functional hrest
    rw [dropRepeats]
    split
    · exact ih
    · next hne =>
      obtain ⟨tail, htail⟩ := dropRepeats_cons y rest
      rw [htail] at ih ⊢
      refine ⟨fun hkeys => hne ?_, ih⟩
      exact h x (List.mem_cons_self ..) y (by simp) hkeys.1 hkeys.2

end Whatspec.Library.DecisionTable

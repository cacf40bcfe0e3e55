import Mathlib.Data.List.Perm.Basic
import Mathlib.Order.MinMax

/-!
# Folding reports, and when the order of a fold shows

Several trees are asked for one path.  A tree that has it reports a value; one that does
not reports how far along the path it got.  Two reports are combined by keeping the worse
value, and a report that stopped short adds a `gap` that depends on where it stopped.  Two
reports that stopped short keep the further one, which is what makes the combination not
associative: a gap that is absorbed by a longer reach is never charged.

* `combine_comm`, `combine_self`: the combination is commutative and idempotent;
* `accounts_foldl` is the invariant of a fold, and `le_fold_iff` says where its value
  comes from: a value reported, or a gap `Charged` on the way;
* `summary_foldFirst` is what every order has in common;
* `fold_perm_iff`: a fold is the same in every order exactly when the reports are
  `Settled`, that is when no stopped report's gap exceeds both the values reported and the
  gap of the reports that reached furthest.
-/

namespace Whatspec.Library

/-- The answer of one tree for a path. -/
inductive Report (α : Type) where
  | hold (value : α)
  | miss (reach : ℕ)
  deriving DecidableEq

/-- Fold a nonempty list by a binary operation, from its first element. -/
def foldFirst {β : Type} (f : β → β → β) : List β → Option β
  | [] => none
  | x :: xs => some (xs.foldl f x)

namespace Report

variable {α : Type} [LinearOrder α] (gap : ℕ → α)

/-- Two reports about one path. -/
def combine : Report α → Report α → Report α
  | hold v, hold w => hold (max v w)
  | hold v, miss n => hold (max v (gap n))
  | miss n, hold v => hold (max v (gap n))
  | miss n, miss m => miss (max n m)

theorem combine_comm (r s : Report α) : combine gap r s = combine gap s r := by
  cases r with
  | hold v =>
      cases s with
      | hold w => exact congrArg hold (max_comm v w)
      | miss n => rfl
  | miss n =>
      cases s with
      | hold w => rfl
      | miss m => exact congrArg miss (Nat.max_comm n m)

theorem combine_self (r : Report α) : combine gap r r = r := by
  cases r with
  | hold v => exact congrArg hold (max_self v)
  | miss n => exact congrArg miss (Nat.max_self n)

/-! ### Where the value of a fold comes from -/

/-- Some gap of at least `x` is charged: that of the furthest of the reports that stopped
before the first value, or that of one that stopped after it. -/
def Charged (l : List (Report α)) (x : α) : Prop :=
  (∃ pre v post m, l = pre ++ hold v :: post ∧ miss m ∈ pre ∧
    (∀ r ∈ pre, ∃ k ≤ m, r = miss k) ∧ x ≤ gap m) ∨
  ∃ pre n post, l = pre ++ miss n :: post ∧ (∃ v, hold v ∈ pre) ∧ x ≤ gap n

/-- A charged gap is the gap of some report. -/
theorem Charged.exists_miss {l : List (Report α)} {x : α} (h : Charged gap l x) :
    ∃ n, miss n ∈ l ∧ x ≤ gap n := by
  rcases h with ⟨pre, v, post, m, rfl, hm, _, hx⟩ | ⟨pre, n, post, rfl, _, hx⟩
  · exact ⟨m, List.mem_append_left _ hm, hx⟩
  · exact ⟨n, List.mem_append_right _ List.mem_cons_self, hx⟩

theorem charged_append {l : List (Report α)} {x : α} (h : Charged gap l x)
    (rs : List (Report α)) : Charged gap (l ++ rs) x := by
  rcases h with ⟨pre, v, post, m, rfl, hrest⟩ | ⟨pre, n, post, rfl, hrest⟩
  · exact Or.inl ⟨pre, v, post ++ rs, m, by rw [List.append_assoc]; rfl, hrest⟩
  · exact Or.inr ⟨pre, n, post ++ rs, by rw [List.append_assoc]; rfl, hrest⟩

/-- A gap charged in a list is charged by its last report, or in what is before it. -/
theorem charged_snoc {l : List (Report α)} {s : Report α} {x : α}
    (h : Charged gap (l ++ [s]) x) :
    Charged gap l x ∨
      (∃ v m, s = hold v ∧ miss m ∈ l ∧ (∀ r ∈ l, ∃ k ≤ m, r = miss k) ∧ x ≤ gap m) ∨
      ∃ n, s = miss n ∧ (∃ v, hold v ∈ l) ∧ x ≤ gap n := by
  rcases h with ⟨pre, v, post, m, heq, hm, hall, hx⟩ | ⟨pre, n, post, heq, hv, hx⟩
  · rcases List.eq_nil_or_concat post with rfl | ⟨post', last, rfl⟩
    · obtain ⟨rfl, hs⟩ := List.append_inj' heq rfl
      cases hs
      exact Or.inr (Or.inl ⟨v, m, rfl, hm, hall, hx⟩)
    · rw [List.concat_eq_append, ← List.cons_append, ← List.append_assoc] at heq
      obtain ⟨rfl, _⟩ := List.append_inj' heq rfl
      exact Or.inl (Or.inl ⟨pre, v, post', m, rfl, hm, hall, hx⟩)
  · rcases List.eq_nil_or_concat post with rfl | ⟨post', last, rfl⟩
    · obtain ⟨rfl, hs⟩ := List.append_inj' heq rfl
      cases hs
      exact Or.inr (Or.inr ⟨n, rfl, hv, hx⟩)
    · rw [List.concat_eq_append, ← List.cons_append, ← List.append_assoc] at heq
      obtain ⟨rfl, _⟩ := List.append_inj' heq rfl
      exact Or.inl (Or.inr ⟨pre, n, post', rfl, hv, hx⟩)

/-- A fold has come to a value of at least `x` exactly when a value or a charged gap is. -/
def Accounts (l : List (Report α)) : Report α → Prop
  | hold w => (∃ v, hold v ∈ l) ∧
      ∀ x, x ≤ w ↔ (∃ v, hold v ∈ l ∧ x ≤ v) ∨ Charged gap l x
  | miss n => miss n ∈ l ∧ ∀ r ∈ l, ∃ k ≤ n, r = miss k

theorem accounts_combine {l : List (Report α)} {r : Report α} (h : Accounts gap l r)
    (s : Report α) : Accounts gap (l ++ [s]) (combine gap r s) := by
  have hmem : ∀ {t : Report α}, t ∈ l ++ [s] ↔ t ∈ l ∨ t = s := by
    intro t
    rw [List.mem_append, List.mem_singleton]
  cases r with
  | hold w =>
      obtain ⟨⟨v₀, hv₀⟩, hiff⟩ := h
      cases s with
      | hold u =>
          refine ⟨⟨v₀, hmem.mpr (Or.inl hv₀)⟩, fun x => ?_⟩
          rw [le_max_iff, hiff]
          constructor
          · rintro ((⟨v, hv, hx⟩ | hc) | hx)
            · exact Or.inl ⟨v, hmem.mpr (Or.inl hv), hx⟩
            · exact Or.inr (charged_append gap hc _)
            · exact Or.inl ⟨u, hmem.mpr (Or.inr rfl), hx⟩
          · rintro (⟨v, hv, hx⟩ | hc)
            · rcases hmem.mp hv with hold | hnew
              · exact Or.inl (Or.inl ⟨v, hold, hx⟩)
              · cases hnew; exact Or.inr hx
            · rcases charged_snoc gap hc with hc | ⟨_, m, _, _, hall, _⟩ | ⟨n, hn, _⟩
              · exact Or.inl (Or.inr hc)
              · obtain ⟨k, _, hk⟩ := hall _ hv₀
                cases hk
              · cases hn
      | miss n =>
          refine ⟨⟨v₀, hmem.mpr (Or.inl hv₀)⟩, fun x => ?_⟩
          rw [le_max_iff, hiff]
          constructor
          · rintro ((⟨v, hv, hx⟩ | hc) | hx)
            · exact Or.inl ⟨v, hmem.mpr (Or.inl hv), hx⟩
            · exact Or.inr (charged_append gap hc _)
            · exact Or.inr (Or.inr ⟨l, n, [], rfl, ⟨v₀, hv₀⟩, hx⟩)
          · rintro (⟨v, hv, hx⟩ | hc)
            · rcases hmem.mp hv with hold | hnew
              · exact Or.inl (Or.inl ⟨v, hold, hx⟩)
              · cases hnew
            · rcases charged_snoc gap hc with hc | ⟨_, m, hm, _⟩ | ⟨n', hn, _, hx⟩
              · exact Or.inl (Or.inr hc)
              · cases hm
              · cases hn; exact Or.inr hx
  | miss m₀ =>
      obtain ⟨hm₀, hall⟩ := h
      have hno : ∀ v, hold v ∉ l := by
        intro v hv
        obtain ⟨k, _, hk⟩ := hall _ hv
        cases hk
      cases s with
      | hold u =>
          refine ⟨⟨u, hmem.mpr (Or.inr rfl)⟩, fun x => ?_⟩
          rw [le_max_iff]
          constructor
          · rintro (hx | hx)
            · exact Or.inl ⟨u, hmem.mpr (Or.inr rfl), hx⟩
            · exact Or.inr (Or.inl ⟨l, u, [], m₀, rfl, hm₀, hall, hx⟩)
          · rintro (⟨v, hv, hx⟩ | hc)
            · rcases hmem.mp hv with hold | hnew
              · exact absurd hold (hno v)
              · cases hnew; exact Or.inl hx
            · rcases charged_snoc gap hc with hc | ⟨v, m, _, hm, hmax, hx⟩ | ⟨n, hn, _⟩
              · rcases hc with ⟨pre, v, post, _, rfl, _⟩ | ⟨pre, n, post, rfl, ⟨v, hv⟩, _⟩
                · exact absurd (List.mem_append_right _ List.mem_cons_self) (hno v)
                · exact absurd (List.mem_append_left _ hv) (hno v)
              · obtain ⟨k, hk, heq⟩ := hall _ hm
                obtain ⟨j, hj, heq'⟩ := hmax _ hm₀
                cases heq
                cases heq'
                rw [le_antisymm hk hj] at hx
                exact Or.inr hx
              · cases hn
      | miss n =>
          refine ⟨?_, fun r hr => ?_⟩
          · show miss (max m₀ n) ∈ l ++ [miss n]
            rcases max_choice m₀ n with hleft | hright
            · rw [hleft]; exact hmem.mpr (Or.inl hm₀)
            · rw [hright]; exact hmem.mpr (Or.inr rfl)
          · rcases hmem.mp hr with hold | hnew
            · obtain ⟨k, hk, heq⟩ := hall _ hold
              exact ⟨k, le_max_of_le_left hk, heq⟩
            · exact ⟨n, le_max_right m₀ n, hnew⟩

theorem accounts_foldl {pre : List (Report α)} {r : Report α} (h : Accounts gap pre r)
    (rs : List (Report α)) : Accounts gap (pre ++ rs) (rs.foldl (combine gap) r) := by
  induction rs generalizing pre r with
  | nil => rw [List.append_nil]; exact h
  | cons s rs ih =>
      have hstep := ih (accounts_combine gap h s)
      rw [List.append_assoc] at hstep
      exact hstep

theorem accounts_singleton (r : Report α) : Accounts gap [r] r := by
  cases r with
  | miss n => exact ⟨List.mem_singleton.mpr rfl, fun r hr => ⟨n, le_rfl, List.mem_singleton.mp hr⟩⟩
  | hold v =>
      refine ⟨⟨v, List.mem_singleton.mpr rfl⟩, fun x => ⟨fun hx => ?_, fun hx => ?_⟩⟩
      · exact Or.inl ⟨v, List.mem_singleton.mpr rfl, hx⟩
      · rcases hx with ⟨u, hu, hx⟩ | hc
        · cases List.mem_singleton.mp hu; exact hx
        · rcases charged_snoc (l := []) gap hc with hc | ⟨_, m, _, hm, _⟩ | ⟨n, hn, _⟩
          · obtain ⟨n, hn, _⟩ := hc.exists_miss
            cases hn
          · cases hm
          · cases hn

theorem accounts_foldFirst {l : List (Report α)} {r : Report α}
    (h : foldFirst (combine gap) l = some r) : Accounts gap l r := by
  cases l with
  | nil => cases h
  | cons s rs =>
      cases h
      exact accounts_foldl gap (accounts_singleton gap s) rs

/-- **Where a verdict comes from.**  The fold of reports is at least `x` exactly when some
value is, or a charged gap is. -/
theorem le_fold_iff {l : List (Report α)} {w : α}
    (h : foldFirst (combine gap) l = some (hold w)) (x : α) :
    x ≤ w ↔ (∃ v, hold v ∈ l ∧ x ≤ v) ∨ Charged gap l x :=
  (accounts_foldFirst gap h).2 x

/-- What every order of a fold has in common: every value and the gap of the furthest reach
are counted, and nothing beyond the values and the gaps. -/
def Summary (l : List (Report α)) : Report α → Prop
  | hold w =>
      (∃ v, hold v ∈ l) ∧ (∀ v, hold v ∈ l → v ≤ w) ∧
        (∀ m, miss m ∈ l → (∀ k, miss k ∈ l → k ≤ m) → gap m ≤ w) ∧
        ∀ x, (∀ v, hold v ∈ l → v ≤ x) → (∀ n, miss n ∈ l → gap n ≤ x) → w ≤ x
  | miss n => miss n ∈ l ∧ ∀ r ∈ l, ∃ k ≤ n, r = miss k

omit [LinearOrder α] in
theorem exists_first_hold {l : List (Report α)} (h : ∃ v, hold v ∈ l) :
    ∃ pre v post, l = pre ++ hold v :: post ∧ ∀ r ∈ pre, ∃ k, r = miss k := by
  induction l with
  | nil => obtain ⟨v, hv⟩ := h; cases hv
  | cons r rs ih =>
      cases r with
      | hold v => exact ⟨[], v, rs, rfl, fun r hr => absurd hr List.not_mem_nil⟩
      | miss n =>
          obtain ⟨v, hv⟩ := h
          rcases List.mem_cons.mp hv with heq | hrest
          · cases heq
          · obtain ⟨pre, u, post, rfl, hpre⟩ := ih ⟨v, hrest⟩
            refine ⟨miss n :: pre, u, post, rfl, ?_⟩
            exact List.forall_mem_cons.mpr ⟨⟨n, rfl⟩, hpre⟩

/-- The gap of the furthest reach is charged in every order. -/
theorem charged_furthest {l : List (Report α)} (hv : ∃ v, hold v ∈ l) {m : ℕ}
    (hm : miss m ∈ l) (hmax : ∀ k, miss k ∈ l → k ≤ m) : Charged gap l (gap m) := by
  obtain ⟨pre, v, post, rfl, hpre⟩ := exists_first_hold hv
  rcases List.mem_append.mp hm with hbefore | hafter
  · refine Or.inl ⟨pre, v, post, m, rfl, hbefore, fun r hr => ?_, le_rfl⟩
    obtain ⟨k, rfl⟩ := hpre r hr
    exact ⟨k, hmax k (List.mem_append_left _ hr), rfl⟩
  · rcases List.mem_cons.mp hafter with heq | hpost
    · cases heq
    · obtain ⟨mid, post', rfl⟩ := List.append_of_mem hpost
      refine Or.inr ⟨pre ++ hold v :: mid, m, post', ?_, ⟨v, ?_⟩, le_rfl⟩
      · rw [List.append_assoc]
        rfl
      · exact List.mem_append_right _ List.mem_cons_self

theorem summary_foldFirst {l : List (Report α)} {r : Report α}
    (h : foldFirst (combine gap) l = some r) : Summary gap l r := by
  have haccounts := accounts_foldFirst gap h
  cases r with
  | miss n => exact haccounts
  | hold w =>
      obtain ⟨hholds, hiff⟩ := haccounts
      refine ⟨hholds, fun v hv => (hiff v).mpr (Or.inl ⟨v, hv, le_rfl⟩), fun m hm hmax => ?_,
        fun x hx hgap => ?_⟩
      · exact (hiff _).mpr (Or.inr (charged_furthest gap hholds hm hmax))
      · rcases (hiff w).mp le_rfl with ⟨v, hv, hle⟩ | hc
        · exact hle.trans (hx v hv)
        · obtain ⟨n, hn, hle⟩ := hc.exists_miss
          exact hle.trans (hgap n hn)

/-! ### When the order shows -/

/-- No stopped report's gap exceeds both the values and the gap of the furthest reach. -/
def Settled (l : List (Report α)) : Prop :=
  (∃ v, hold v ∈ l) → ∀ n, miss n ∈ l →
    (∃ v, hold v ∈ l ∧ gap n ≤ v) ∨
      ∃ m, miss m ∈ l ∧ (∀ k, miss k ∈ l → k ≤ m) ∧ gap n ≤ gap m

/-- Two summaries of settled reports are the same. -/
theorem summary_unique {l : List (Report α)} (hl : Settled gap l) {r s : Report α}
    (hr : Summary gap l r) (hs : Summary gap l s) : r = s := by
  have hbelow : ∀ {w x : α}, Summary gap l (hold w) → Summary gap l (hold x) → w ≤ x := by
    intro w x hw hx
    refine hw.2.2.2 x hx.2.1 fun n hn => ?_
    rcases hl hw.1 n hn with ⟨v, hv, hle⟩ | ⟨m, hm, hmax, hle⟩
    · exact hle.trans (hx.2.1 v hv)
    · exact hle.trans (hx.2.2.1 m hm hmax)
  cases r with
  | hold w =>
      cases s with
      | hold x => exact congrArg hold (le_antisymm (hbelow hr hs) (hbelow hs hr))
      | miss n =>
          obtain ⟨v, hv⟩ := hr.1
          obtain ⟨k, _, hk⟩ := hs.2 _ hv
          cases hk
  | miss n =>
      cases s with
      | hold x =>
          obtain ⟨v, hv⟩ := hs.1
          obtain ⟨k, _, hk⟩ := hr.2 _ hv
          cases hk
      | miss m =>
          obtain ⟨k, hk, hkn⟩ := hs.2 _ hr.1
          obtain ⟨j, hj, hjm⟩ := hr.2 _ hs.1
          cases hkn
          cases hjm
          exact congrArg miss (le_antisymm hk hj)

/-- A fold that starts from a value charges every gap after it. -/
theorem gap_le_of_foldl_hold {v w : α} {rs : List (Report α)}
    (h : rs.foldl (combine gap) (hold v) = hold w) :
    v ≤ w ∧ ∀ n, miss n ∈ rs → gap n ≤ w := by
  induction rs generalizing v with
  | nil => cases h; exact ⟨le_rfl, fun n hn => absurd hn List.not_mem_nil⟩
  | cons s rs ih =>
      rw [List.foldl_cons] at h
      cases s with
      | hold u =>
          obtain ⟨hle, hgaps⟩ := ih h
          refine ⟨(le_max_left v u).trans hle, fun n hn => ?_⟩
          rcases List.mem_cons.mp hn with heq | hrest
          · cases heq
          · exact hgaps n hrest
      | miss m =>
          obtain ⟨hle, hgaps⟩ := ih h
          refine ⟨(le_max_left v _).trans hle, fun n hn => ?_⟩
          rcases List.mem_cons.mp hn with heq | hrest
          · cases heq
            exact (le_max_right v _).trans hle
          · exact hgaps n hrest

/-- A fold of values from a value is one of them. -/
theorem foldl_holds {v : α} {rs : List (Report α)} (hrs : ∀ r ∈ rs, ∃ u, r = hold u) :
    ∃ w, rs.foldl (combine gap) (hold v) = hold w ∧ (w = v ∨ hold w ∈ rs) := by
  induction rs generalizing v with
  | nil => exact ⟨v, rfl, Or.inl rfl⟩
  | cons s rs ih =>
      obtain ⟨⟨u, rfl⟩, hrest⟩ := List.forall_mem_cons.mp hrs
      obtain ⟨w, hw, hfrom⟩ := ih (v := max v u) hrest
      refine ⟨w, hw, ?_⟩
      rcases hfrom with heq | hmem
      · rcases max_choice v u with hleft | hright
        · exact Or.inl (heq.trans hleft)
        · rw [heq, hright]
          exact Or.inr List.mem_cons_self
      · exact Or.inr (List.mem_cons_of_mem _ hmem)

theorem summary_perm {l l' : List (Report α)} (h : l.Perm l') {r : Report α}
    (hr : Summary gap l r) : Summary gap l' r := by
  have hmem : ∀ {t : Report α}, t ∈ l ↔ t ∈ l' := h.mem_iff
  cases r with
  | hold w =>
      obtain ⟨⟨v₀, hv₀⟩, hvalues, hfurthest, hleast⟩ := hr
      refine ⟨⟨v₀, hmem.mp hv₀⟩, fun v hv => hvalues v (hmem.mpr hv), fun m hm hmax => ?_,
        fun x hx hgap => ?_⟩
      · exact hfurthest m (hmem.mpr hm) fun k hk => hmax k (hmem.mp hk)
      · exact hleast x (fun v hv => hx v (hmem.mp hv)) fun n hn => hgap n (hmem.mp hn)
  | miss n =>
      obtain ⟨hn, hall⟩ := hr
      exact ⟨hmem.mp hn, fun t ht => hall t (hmem.mpr ht)⟩

/-- Some order charges a stopped report's gap: any that begins with a value. -/
theorem exists_perm_charged {l : List (Report α)} {v₀ : α} (hv₀ : hold v₀ ∈ l) {n : ℕ}
    (hn : miss n ∈ l) :
    ∃ l', l'.Perm l ∧ ∀ w, foldFirst (combine gap) l' = some (hold w) → gap n ≤ w := by
  obtain ⟨before, after, rfl⟩ := List.append_of_mem hv₀
  refine ⟨hold v₀ :: (before ++ after), List.perm_middle.symm, fun w hw => ?_⟩
  refine (gap_le_of_foldl_hold gap (Option.some.inj hw)).2 n ?_
  rcases List.mem_append.mp hn with hb | ha
  · exact List.mem_append_left _ hb
  · rcases List.mem_cons.mp ha with heq | ha'
    · cases heq
    · exact List.mem_append_right _ ha'

/-- Whether a report stopped short. -/
def isMiss : Report α → Bool
  | miss _ => true
  | hold _ => false

/-- Some order charges only the furthest reach: any that puts the stopped reports first. -/
theorem exists_perm_absorbed {l : List (Report α)} {v₀ : α} (hv₀ : hold v₀ ∈ l) {n : ℕ}
    (hn : miss n ∈ l) :
    ∃ l' w, l'.Perm l ∧ foldFirst (combine gap) l' = some (hold w) ∧
      (hold w ∈ l ∨ ∃ m, miss m ∈ l ∧ (∀ k, miss k ∈ l → k ≤ m) ∧ w = gap m) := by
  have hmiss : ∀ {r}, r ∈ l.filter isMiss ↔ r ∈ l ∧ ∃ k, r = miss k := by
    intro r
    rw [List.mem_filter]
    cases r with
    | hold v => simp [isMiss]
    | miss k => simp [isMiss]
  have hhold : ∀ {r}, r ∈ l.filter (fun r => !isMiss r) ↔ r ∈ l ∧ ∃ v, r = hold v := by
    intro r
    rw [List.mem_filter]
    cases r with
    | hold v => simp [isMiss]
    | miss k => simp [isMiss]
  have hvalues : hold v₀ ∈ l.filter fun r => !isMiss r := hhold.mpr ⟨hv₀, v₀, rfl⟩
  obtain ⟨r₀, rs, hmisses⟩ := List.exists_cons_of_ne_nil
    (List.ne_nil_of_mem (hmiss.mpr ⟨hn, n, rfl⟩))
  obtain ⟨s, ss, hholds⟩ := List.exists_cons_of_ne_nil (List.ne_nil_of_mem hvalues)
  -- the stopped reports fold to the furthest reach
  have hreach : Accounts gap (l.filter isMiss) (rs.foldl (combine gap) r₀) := by
    rw [hmisses]
    exact accounts_foldl gap (accounts_singleton gap r₀) rs
  cases hfold : rs.foldl (combine gap) r₀ with
  | hold v =>
      rw [hfold] at hreach
      obtain ⟨u, hu⟩ := hreach.1
      obtain ⟨_, k, hk⟩ := hmiss.mp hu
      cases hk
  | miss m =>
      rw [hfold] at hreach
      have hm := (hmiss.mp hreach.1).1
      have hmax : ∀ k, miss k ∈ l → k ≤ m := by
        intro k hk
        obtain ⟨j, hj, heq⟩ := hreach.2 _ (hmiss.mpr ⟨hk, k, rfl⟩)
        cases heq
        exact hj
      -- and the values then fold to one of them, or to the one gap
      obtain ⟨hs, u, hsu⟩ := hhold.mp (hholds ▸ List.mem_cons_self (a := s))
      have hss : ∀ r ∈ ss, ∃ u, r = hold u := fun r hr =>
        (hhold.mp (hholds ▸ List.mem_cons_of_mem s hr)).2
      subst hsu
      obtain ⟨w, hw, hfrom⟩ := foldl_holds gap (v := max u (gap m)) hss
      refine ⟨l.filter isMiss ++ l.filter (fun r => !isMiss r), w,
        List.filter_append_perm isMiss l, ?_, ?_⟩
      · rw [hmisses, hholds, List.cons_append]
        show some (List.foldl _ r₀ (rs ++ hold u :: ss)) = _
        rw [List.foldl_append, hfold, List.foldl_cons]
        exact congrArg some hw
      · rcases hfrom with heq | hmem
        · rcases max_choice u (gap m) with hleft | hright
          · exact Or.inl ((heq.trans hleft) ▸ hs)
          · exact Or.inr ⟨m, hm, hmax, heq.trans hright⟩
        · exact Or.inl (hhold.mp (hholds ▸ List.mem_cons_of_mem _ hmem)).1

/-- **The order of the fold does not show exactly when the reports are settled.** -/
theorem fold_perm_iff (l : List (Report α)) :
    (∀ l', l'.Perm l → foldFirst (combine gap) l' = foldFirst (combine gap) l) ↔
      Settled gap l := by
  constructor
  · intro hperm hholds n hn
    obtain ⟨v₀, hv₀⟩ := hholds
    obtain ⟨l₁, hl₁, hcharged⟩ := exists_perm_charged gap hv₀ hn
    obtain ⟨l₂, w, hl₂, hfold, habsorbed⟩ := exists_perm_absorbed gap hv₀ hn
    have hle : gap n ≤ w := hcharged w (by rw [hperm l₁ hl₁, ← hperm l₂ hl₂, hfold])
    rcases habsorbed with hvalue | ⟨m, hm, hmax, rfl⟩
    · exact Or.inl ⟨w, hvalue, hle⟩
    · exact Or.inr ⟨m, hm, hmax, hle⟩
  · intro hl l' hperm
    cases hfold : foldFirst (combine gap) l with
    | none =>
        cases l with
        | nil => rw [hperm.eq_nil]; rfl
        | cons s rs => cases hfold
    | some r =>
        cases hfold' : foldFirst (combine gap) l' with
        | none =>
            cases l' with
            | nil => rw [hperm.symm.eq_nil] at hfold; cases hfold
            | cons s rs => cases hfold'
        | some r' =>
            have hr' := summary_perm gap hperm (summary_foldFirst gap hfold')
            rw [summary_unique gap hl (summary_foldFirst gap hfold) hr']

end Report

end Whatspec.Library

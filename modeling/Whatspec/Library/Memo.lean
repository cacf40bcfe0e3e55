import Whatspec.Library.CallLoops

/-!
# Functions that remember their results

The functions of a group remember what they returned, under a key of the call.  A call that is made
while its key is in progress is cut: it gets a default, so that the functions end even where they
call one another in a circle.

* `memoCall` is a call with a memo, nested at most so deep, and `Answers` one without that bound;
* `Answers.unique`: a call gets one answer, and leaves one memo;
* `answers_of_returns`: where no two calls share a key, a call that returns without a memo gets the
  same with one, whatever it remembers;
* `returns_of_not_recurs`: of finitely many calls, one that leads to no circle returns;
* **`asked_alike`**: a call gets the same answer from a memo that has answered others as from an
  empty one, when none of them leads to a circle.
-/

namespace Whatspec.Library

variable {C K : Type} [DecidableEq K] {key : C → K} {V : K → Type} {α : Type}

/-- What is remembered, and what is in progress. -/
structure Memo (V : K → Type) where
  cache : ∀ k, Option (V k)
  inProgress : List K

def Memo.empty : Memo V := ⟨fun _ => none, []⟩

/-- A call has returned: it is remembered, and no longer in progress. -/
def Memo.remember (m : Memo V) (k : K) (r : V k) : Memo V where
  cache := Function.update m.cache k (some r)
  inProgress := m.inProgress.erase k

theorem Memo.cache_remember_self (m : Memo V) (k : K) (r : V k) :
    (m.remember k r).cache k = some r := by
  simp only [Memo.remember, Function.update_self]

theorem Memo.cache_remember_of_ne (m : Memo V) {k k' : K} (r : V k) (h : k' ≠ k) :
    (m.remember k r).cache k' = m.cache k' := by
  simp only [Memo.remember, Function.update_of_ne h]

/-- Run a program whose calls may change the memo. -/
def memoExec (call : ∀ c, Memo V → Option (V (key c) × Memo V)) :
    Prog (fun c => V (key c)) α → Memo V → Option (α × Memo V)
  | .ret a, m => some (a, m)
  | .call c k, m => (call c m).bind fun answer => memoExec call (k answer.1) answer.2
  | .abort, _ => none

section
variable (body : ∀ c, Prog (fun c => V (key c)) (V (key c))) (cut : ∀ k, V k)

/-- A call: remembered, cut, or made and remembered. -/
def memoCall : ℕ → ∀ c, Memo V → Option (V (key c) × Memo V)
  | 0, _, _ => none
  | n + 1, c, m =>
    match m.cache (key c) with
    | some r => some (r, m)
    | none =>
      if key c ∈ m.inProgress then some (cut (key c), m)
      else
        (memoExec (memoCall n) (body c) { m with inProgress := key c :: m.inProgress }).map
          fun answer => (answer.1, answer.2.remember (key c) answer.1)

/-- The answer to a call, and the memo it leaves. -/
def Answers (m : Memo V) (c : C) (r : V (key c)) (m' : Memo V) : Prop :=
  ∃ n, memoCall body cut n c m = some (r, m')

/-- The memo that some calls leave, one after the other. -/
inductive Asked : Memo V → List C → Memo V → Prop where
  | nil (m : Memo V) : Asked m [] m
  | cons {m m' m'' : Memo V} {c : C} {r : V (key c)} {rest : List C} :
      Answers body cut m c r m' → Asked m' rest m'' → Asked m (c :: rest) m''

end

/-! ### The depth does not matter -/

omit [DecidableEq K] in
theorem memoExec_mono {call call' : ∀ c, Memo V → Option (V (key c) × Memo V)}
    (h : ∀ c m x, call c m = some x → call' c m = some x) :
    ∀ {p : Prog (fun c => V (key c)) α} {m : Memo V} {x : α × Memo V},
      memoExec call p m = some x → memoExec call' p m = some x
  | .ret _, _, _, hx => hx
  | .call c k, m, x, hx => by
    rw [memoExec, Option.bind_eq_some_iff] at hx ⊢
    obtain ⟨answer, hanswer, hx⟩ := hx
    exact ⟨answer, h c m answer hanswer, memoExec_mono h hx⟩

variable {body : ∀ c, Prog (fun c => V (key c)) (V (key c))} {cut : ∀ k, V k}

theorem memoCall_succ : ∀ {n : ℕ} {c : C} {m : Memo V} {x : V (key c) × Memo V},
    memoCall body cut n c m = some x → memoCall body cut (n + 1) c m = some x
  | 0, _, _, _, h => nomatch h
  | n + 1, c, m, x, h => by
    rw [memoCall] at h ⊢
    cases hcache : m.cache (key c) with
    | some r =>
      rw [hcache] at h
      exact h
    | none =>
      rw [hcache] at h
      dsimp only at h ⊢
      split at h
      · next hprogress => rwa [if_pos hprogress]
      · next hprogress =>
        rw [if_neg hprogress]
        obtain ⟨answer, hanswer, hx⟩ := Option.map_eq_some_iff.mp h
        have hmono : ∀ c m x, memoCall body cut n c m = some x →
            memoCall body cut (n + 1) c m = some x := fun _ _ _ h => memoCall_succ h
        exact Option.map_eq_some_iff.mpr ⟨answer, memoExec_mono hmono hanswer, hx⟩

theorem memoCall_mono {m n : ℕ} (hle : m ≤ n) {c : C} {memo : Memo V} {x : V (key c) × Memo V}
    (h : memoCall body cut m c memo = some x) : memoCall body cut n c memo = some x := by
  induction hle with
  | refl => exact h
  | step _ ih => exact memoCall_succ ih

/-- A call gets one answer, and leaves one memo. -/
theorem Answers.unique {m m₁ m₂ : Memo V} {c : C} {r₁ r₂ : V (key c)}
    (h₁ : Answers body cut m c r₁ m₁) (h₂ : Answers body cut m c r₂ m₂) : r₁ = r₂ ∧ m₁ = m₂ := by
  obtain ⟨n₁, h₁⟩ := h₁
  obtain ⟨n₂, h₂⟩ := h₂
  have heq := (memoCall_mono (Nat.le_max_left n₁ n₂) h₁).symm.trans
    (memoCall_mono (Nat.le_max_right n₁ n₂) h₂)
  exact Prod.mk.inj (Option.some.inj heq)

/-- What a call gives within some depth is its answer. -/
theorem Answers.eq_of_memoCall {n : ℕ} {m m' : Memo V} {c : C} {r : V (key c)}
    {x : V (key c) × Memo V} (h : Answers body cut m c r m')
    (hx : memoCall body cut n c m = some x) : x = (r, m') := by
  have hgiven : Answers body cut m c x.1 x.2 := ⟨n, hx⟩
  obtain ⟨hr, hm⟩ := hgiven.unique h
  rw [← hr, ← hm]

/-! ### Calls that return -/

/-- What is remembered of the calls of a domain is what they return. -/
def Memo.Sound (body : ∀ c, Prog (fun c => V (key c)) (V (key c))) (domain : Set C)
    (m : Memo V) : Prop :=
  ∀ c ∈ domain, ∀ r, m.cache (key c) = some r → Returns body (body c) r

omit [DecidableEq K] in
theorem Memo.sound_empty (domain : Set C) : (Memo.empty : Memo V).Sound body domain :=
  fun _ _ _ h => nomatch h

/-- The calls of a domain make calls of the domain only. -/
def Closed (body : ∀ c, Prog (fun c => V (key c)) (V (key c))) (domain : Set C) : Prop :=
  ∀ c ∈ domain, ∀ d, Asks body (body c) d → d ∈ domain

/-- **A program that returns does so with a memo**, with the same result. -/
theorem memoExec_of_returns (cut : ∀ k, V k) {domain : Set C} (hclosed : Closed body domain)
    (hkey : Set.InjOn key domain) {p : Prog (fun c => V (key c)) α} {a : α}
    (h : Returns body p a) :
    ∀ {m : Memo V}, m.Sound body domain → (∀ d, Asks body p d → d ∈ domain) →
      (∀ d, Reaches body p d → key d ∉ m.inProgress) →
      ∃ n m', memoExec (memoCall body cut n) p m = some (a, m') ∧ m'.Sound body domain ∧
        m'.inProgress = m.inProgress := by
  induction h with
  | ret a => exact fun {m} hm _ _ => ⟨0, m, rfl, hm, rfl⟩
  | @call _ c k r a hc hk ihc ihk =>
    intro m hm hdomain hfree
    have hfirst : Asks body (.call c k) c := Asks.first (R := fun c => V (key c)) c k
    have hmem : c ∈ domain := hdomain c hfirst
    have hcall : ∃ n m', memoCall body cut n c m = some (r, m') ∧ m'.Sound body domain ∧
        m'.inProgress = m.inProgress := by
      cases hcache : m.cache (key c) with
      | some r' =>
        obtain rfl := (hm c hmem r' hcache).unique hc
        exact ⟨1, m, by rw [memoCall, hcache], hm, rfl⟩
      | none =>
        have hnew : key c ∉ m.inProgress := hfree c (.asks hfirst)
        -- No call that `c` leads to has the key of `c`: it would be `c` itself.
        have hinner : ∀ d, Reaches body (body c) d → d ∈ domain := by
          intro d hd
          induction hd with
          | asks hd => exact hclosed c hmem _ hd
          | step _ he ih => exact hclosed _ ih _ he
        have hfree' : ∀ d, Reaches body (body c) d → key d ∉ key c :: m.inProgress := by
          intro d hd hin
          rcases List.mem_cons.mp hin with heq | hin
          · exact hc.not_loops (hkey (hinner d hd) hmem heq ▸ hd)
          · exact hfree d (reaches_of_asks hfirst hd) hin
        obtain ⟨n, m', hexec, hm', hprogress⟩ := @ihc
          { m with inProgress := key c :: m.inProgress } (fun d hd => hm d hd)
          (hclosed c hmem) hfree'
        refine ⟨n + 1, m'.remember (key c) r, ?_, ?_, ?_⟩
        · rw [memoCall, hcache]
          dsimp only
          rw [if_neg hnew, hexec]
          rfl
        · intro d hd r' hr'
          by_cases hsame : key d = key c
          · obtain rfl := hkey hd hmem hsame
            rw [Memo.cache_remember_self] at hr'
            exact Option.some.inj hr' ▸ hc
          · rw [Memo.cache_remember_of_ne _ _ hsame] at hr'
            exact hm' d hd r' hr'
        · show m'.inProgress.erase (key c) = m.inProgress
          rw [hprogress]
          exact List.erase_cons_head _ _
    obtain ⟨n₁, m₁, hcall, hm₁, hprogress₁⟩ := hcall
    obtain ⟨n₂, m₂, hrest, hm₂, hprogress₂⟩ := ihk hm₁ (fun d hd => hdomain d (.later hc hd))
      fun d hd => by
        rw [hprogress₁]
        refine hfree d ?_
        induction hd with
        | asks hd => exact .asks (.later hc hd)
        | step _ he ih => exact .step ih he
    refine ⟨max n₁ n₂, m₂, ?_, hm₂, hprogress₂.trans hprogress₁⟩
    rw [memoExec, memoCall_mono (Nat.le_max_left n₁ n₂) hcall]
    have hmono : ∀ c m x, memoCall body cut n₂ c m = some x →
        memoCall body cut (max n₁ n₂) c m = some x :=
      fun _ _ _ h => memoCall_mono (Nat.le_max_right n₁ n₂) h
    exact memoExec_mono hmono hrest

/-- **A call that returns** gets what it returns, from any sound memo with nothing in progress. -/
theorem answers_of_returns (cut : ∀ k, V k) {domain : Set C} (hclosed : Closed body domain)
    (hkey : Set.InjOn key domain) {c : C} (hc : c ∈ domain) {r : V (key c)}
    (h : Returns body (body c) r) {m : Memo V} (hm : m.Sound body domain)
    (hprogress : m.inProgress = []) :
    ∃ m', Answers body cut m c r m' ∧ m'.Sound body domain ∧ m'.inProgress = [] := by
  have hask : Returns body (Prog.ask (R := fun c => V (key c)) c) r := .call h (.ret r)
  have hasks : ∀ d, Asks body (Prog.ask (R := fun c => V (key c)) c) d → d = c := by
    intro d hd
    cases hd with
    | first => rfl
    | later _ hd => cases hd
  obtain ⟨n, m', hexec, hm', hprogress'⟩ := memoExec_of_returns cut hclosed hkey hask hm
    (fun d hd => hasks d hd ▸ hc) fun d _ => hprogress ▸ List.not_mem_nil
  refine ⟨m', ⟨n, ?_⟩, hm', hprogress'.trans hprogress⟩
  obtain ⟨answer, hanswer, heq⟩ := Option.bind_eq_some_iff.mp hexec
  rw [hanswer]
  exact heq

/-- **Calls that return leave a sound memo.** -/
theorem asked_of_returns (cut : ∀ k, V k) {domain : Set C} (hclosed : Closed body domain)
    (hkey : Set.InjOn key domain) :
    ∀ {calls : List C}, (∀ c ∈ calls, c ∈ domain ∧ ∃ r, Returns body (body c) r) →
      ∀ {m : Memo V}, m.Sound body domain → m.inProgress = [] →
        ∃ m', Asked body cut m calls m' ∧ m'.Sound body domain ∧ m'.inProgress = []
  | [], _, m, hm, hprogress => ⟨m, .nil m, hm, hprogress⟩
  | c :: rest, h, m, hm, hprogress => by
    obtain ⟨hc, r, hr⟩ := h c List.mem_cons_self
    obtain ⟨m', hanswer, hm', hprogress'⟩ :=
      answers_of_returns cut hclosed hkey hc hr hm hprogress
    obtain ⟨m'', hrest, hm'', hprogress''⟩ :=
      asked_of_returns cut hclosed hkey (fun d hd => h d (List.mem_cons_of_mem c hd)) hm' hprogress'
    exact ⟨m'', .cons hanswer hrest, hm'', hprogress''⟩

/-! ### Circles -/

variable (body) in
/-- A call leads to one that makes itself again. -/
def Recurs (c : C) : Prop :=
  ∃ d, (d = c ∨ Reaches body (body c) d) ∧ Reaches body (body d) d

omit [DecidableEq K] in
/-- A call that returns leads to no circle. -/
theorem Returns.not_recurs {c : C} {r : V (key c)} (h : Returns body (body c) r) :
    ¬ Recurs body c := by
  rintro ⟨d, rfl | hreach, hloop⟩
  · exact h.not_loops hloop
  · obtain ⟨_, hd⟩ := h.of_reaches hreach
    exact hd.not_loops hloop

omit [DecidableEq K] in
/-- Of finitely many calls, one that leads to no circle returns. -/
theorem returns_of_not_recurs {domain : Set C} (hfinite : domain.Finite)
    (hclosed : Closed body domain)
    (hsafe : ∀ c, Meets (fun _ _ => True) (fun _ => True) True (body c) fun _ => True)
    {c : C} (hc : c ∈ domain) (h : ¬ Recurs body c) : ∃ r, Returns body (body c) r := by
  have hinside : ∀ d, d = c ∨ Reaches body (body c) d → d ∈ domain := by
    rintro d (rfl | hd)
    · exact hc
    · induction hd with
      | asks hd => exact hclosed c hc _ hd
      | step _ he ih => exact hclosed _ ih _ he
  have hacc := finite_induction (hfinite.subset hinside) (r := Relation.TransGen (Under body))
    .trans (fun d hd hself => h ⟨d, hd, reaches_iff_transGen.mpr hself⟩)
    (P := Acc (Under body)) fun d hd ih => Acc.intro d fun e he => by
      refine ih e ?_ (.single he)
      rcases hd with rfl | hd
      · exact Or.inr (.asks he)
      · exact Or.inr (.step hd he)
  have hcorrect : Correct body (fun _ => True) fun _ _ => True := fun d _ =>
    (hsafe d).mono (fun _ he => he) False.elim fun _ _ => trivial
  exact returns_of_acc hcorrect (fun d _ => hsafe d) trivial (hacc c (Or.inl rfl))

/-- **What was asked before does not matter** where nothing leads to a circle: a call gets the
same answer after others as from an empty memo. -/
theorem asked_alike (cut : ∀ k, V k) {domain : Set C} (hfinite : domain.Finite)
    (hclosed : Closed body domain)
    (hsafe : ∀ c, Meets (fun _ _ => True) (fun _ => True) True (body c) fun _ => True)
    (hkey : Set.InjOn key domain) {earlier : List C} {c : C}
    (hearlier : ∀ d ∈ earlier, d ∈ domain ∧ ¬ Recurs body d) (hc : c ∈ domain)
    (h : ¬ Recurs body c) :
    ∃ m r m₁ m₂, Asked body cut .empty earlier m ∧ Answers body cut m c r m₁ ∧
      Answers body cut .empty c r m₂ := by
  obtain ⟨r, hr⟩ := returns_of_not_recurs hfinite hclosed hsafe hc h
  obtain ⟨m, hasked, hm, hprogress⟩ := asked_of_returns cut hclosed hkey
    (fun d hd => ⟨(hearlier d hd).1,
      returns_of_not_recurs hfinite hclosed hsafe (hearlier d hd).1 (hearlier d hd).2⟩)
    (Memo.sound_empty domain) rfl
  obtain ⟨m₁, hlate, -⟩ := answers_of_returns cut hclosed hkey hc hr hm hprogress
  obtain ⟨m₂, hfresh, -⟩ := answers_of_returns cut hclosed hkey hc hr
    (Memo.sound_empty domain) rfl
  exact ⟨m, r, m₁, m₂, hasked, hlate, hfresh⟩

end Whatspec.Library

import Mathlib.Order.WellFounded

/-!
# Functions that call one another

A group of functions is given by their bodies: `C` is the type of calls, `R c` the type of what the
call `c` returns, and a body is a `Prog` that may make calls and go on with what they return.  No
body has to end.

* `Returns` says that a program ends, with its result; `answer` runs it with a bound on the depth of
  the calls (`returns_iff_exec`);
* `Reaches` are the calls a program makes, directly or through others;
* `Meets` is the rule of pre- and postconditions: `returns_spec` gives what a call returns, and
  `returns_of_measure` that it does return;
* `returns_iff_not_reaches`: when every call decreases a measure but for the ones that never
  return, a program returns exactly when it reaches none of these.
-/

namespace Whatspec.Library

/-- A program that may call the functions of a group, or be aborted. -/
inductive Prog {C : Type} (R : C → Type) (α : Type) : Type where
  | ret (a : α) : Prog R α
  | call (c : C) (k : R c → Prog R α) : Prog R α
  | abort : Prog R α

namespace Prog

variable {C : Type} {R : C → Type} {α β : Type}

def bind : Prog R α → (α → Prog R β) → Prog R β
  | ret a, f => f a
  | call c k, f => call c fun r => (k r).bind f
  | abort, _ => abort

instance : Monad (Prog R) where
  pure := ret
  bind := bind

/-- Call a function and return what it returns. -/
def ask (c : C) : Prog R (R c) := call c ret

@[simp] theorem pure_eq (a : α) : (pure a : Prog R α) = ret a := rfl

@[simp] theorem ret_bind (a : α) (f : α → Prog R β) : (ret a : Prog R α) >>= f = f a := rfl

@[simp] theorem ask_bind (c : C) (f : R c → Prog R β) : (ask c : Prog R (R c)) >>= f = call c f :=
  rfl

@[simp] theorem call_bind (c : C) (k : R c → Prog R α) (f : α → Prog R β) :
    call c k >>= f = call c fun r => k r >>= f := rfl

@[simp] theorem abort_bind (f : α → Prog R β) : (abort : Prog R α) >>= f = abort := rfl

end Prog

section

variable {C : Type} {R : C → Type} {α β : Type} (body : ∀ c, Prog R (R c))

/-! ### Running -/

/-- A program ends after finitely many calls, with a result. -/
inductive Returns : {α : Type} → Prog R α → α → Prop where
  | ret {α : Type} (a : α) : Returns (.ret a) a
  | call {α : Type} {c : C} {k : R c → Prog R α} {r : R c} {a : α} :
      Returns (body c) r → Returns (k r) a → Returns (.call c k) a

/-- Run a program, its calls answered by a table. -/
def exec (table : ∀ c, Option (R c)) : Prog R α → Option α
  | .ret a => some a
  | .call c k => (table c).bind fun r => exec table (k r)
  | .abort => none

theorem exec_call (table : ∀ c, Option (R c)) (c : C) (k : R c → Prog R α) :
    exec table (.call c k) = (table c).bind fun r => exec table (k r) := rfl

/-- What a call returns when the calls are nested at most so deep. -/
def answer : ℕ → ∀ c, Option (R c)
  | 0, _ => none
  | n + 1, c => exec (answer n) (body c)

theorem returns_call {c : C} {k : R c → Prog R α} {a : α} :
    Returns body (.call c k) a ↔ ∃ r, Returns body (body c) r ∧ Returns body (k r) a := by
  constructor
  · rintro (_ | ⟨hc, hk⟩)
    exact ⟨_, hc, hk⟩
  · rintro ⟨r, hc, hk⟩
    exact .call hc hk

theorem returns_ret {a b : α} : Returns body (.ret a) b ↔ a = b := by
  constructor
  · rintro ⟨⟩
    rfl
  · rintro rfl
    exact .ret a

variable {body}

/-- A program returns one result. -/
theorem Returns.unique {p : Prog R α} {a b : α} (ha : Returns body p a) (hb : Returns body p b) :
    a = b := by
  induction ha with
  | ret a => exact (returns_ret body).mp hb
  | call _ _ ihc ihk =>
    obtain ⟨r, hr, hb⟩ := (returns_call body).mp hb
    obtain rfl := ihc hr
    exact ihk hb

theorem exec_mono {t u : ∀ c, Option (R c)} (h : ∀ c r, t c = some r → u c = some r) :
    ∀ {p : Prog R α} {a : α}, exec t p = some a → exec u p = some a
  | .ret _, _, ha => ha
  | .call c k, a, ha => by
    rw [exec_call, Option.bind_eq_some_iff] at ha ⊢
    obtain ⟨r, hr, ha⟩ := ha
    exact ⟨r, h c r hr, exec_mono h ha⟩

theorem answer_succ {n : ℕ} {c : C} {r : R c} (h : answer body n c = some r) :
    answer body (n + 1) c = some r := by
  induction n generalizing c with
  | zero => cases h
  | succ n ih =>
    rw [answer] at h ⊢
    exact exec_mono (fun _ _ => ih) h

theorem answer_mono {m n : ℕ} (hle : m ≤ n) {c : C} {r : R c} (h : answer body m c = some r) :
    answer body n c = some r := by
  induction hle with
  | refl => exact h
  | step _ ih => exact answer_succ ih

theorem returns_of_exec {n : ℕ} : ∀ {α : Type} {p : Prog R α} {a : α},
    exec (answer body n) p = some a → Returns body p a := by
  induction n with
  | zero =>
    intro α p a h
    cases p with
    | ret b => cases h; exact .ret _
    | call c k => cases h
    | abort => cases h
  | succ n ih =>
    intro α p
    induction p with
    | ret b => rintro a ⟨⟩; exact .ret _
    | abort => nofun
    | call c k ihk =>
      intro a h
      rw [exec_call, Option.bind_eq_some_iff] at h
      obtain ⟨r, hr, h⟩ := h
      exact .call (ih hr) (ihk r h)

/-- **Ending is ending within some depth of calls.** -/
theorem returns_iff_exec {p : Prog R α} {a : α} :
    Returns body p a ↔ ∃ n, exec (answer body n) p = some a := by
  constructor
  · intro h
    induction h with
    | ret a => exact ⟨0, rfl⟩
    | @call _ c k r a _ _ ihc ihk =>
      obtain ⟨m, hm⟩ := ihc
      obtain ⟨n, hn⟩ := ihk
      refine ⟨max (m + 1) n, ?_⟩
      rw [exec_call, answer_mono (Nat.le_max_left (m + 1) n) hm]
      exact exec_mono (fun _ _ => answer_mono (Nat.le_max_right (m + 1) n)) hn
  · rintro ⟨n, h⟩
    exact returns_of_exec h

/-! ### The calls that are made -/

variable (body)

/-- The calls a program makes itself. -/
inductive Asks : {α : Type} → Prog R α → C → Prop where
  | first {α : Type} (c : C) (k : R c → Prog R α) : Asks (.call c k) c
  | later {α : Type} {c : C} {k : R c → Prog R α} {r : R c} {d : C} :
      Returns body (body c) r → Asks (k r) d → Asks (.call c k) d

/-- The calls a program makes, directly or through others. -/
inductive Reaches (p : Prog R α) : C → Prop where
  | asks {c : C} : Asks body p c → Reaches p c
  | step {c d : C} : Reaches p c → Asks body (body c) d → Reaches p d

variable {body}

/-- What a program that returns calls does return. -/
theorem Returns.of_asks {p : Prog R α} {a : α} (h : Returns body p a) {c : C}
    (hc : Asks body p c) : ∃ r, Returns body (body c) r := by
  induction hc with
  | first c k =>
    obtain ⟨r, hr, -⟩ := (returns_call body).mp h
    exact ⟨r, hr⟩
  | later hr _ ih =>
    obtain ⟨r', hr', h⟩ := (returns_call body).mp h
    obtain rfl := hr.unique hr'
    exact ih h

theorem Returns.of_reaches {p : Prog R α} {a : α} (h : Returns body p a) {c : C}
    (hc : Reaches body p c) : ∃ r, Returns body (body c) r := by
  induction hc with
  | asks hc => exact h.of_asks hc
  | step _ hd ih =>
    obtain ⟨r, hr⟩ := ih
    exact hr.of_asks hd

theorem reaches_of_asks {c d : C} {p : Prog R α} (hc : Asks body p c)
    (hd : Reaches body (body c) d) : Reaches body p d := by
  induction hd with
  | asks hd => exact .step (.asks hc) hd
  | step _ he ih => exact .step ih he

/-! ### Pre- and postconditions -/

/-- A program meets a postcondition, as long as the calls it may make, which are all in `A`, meet
theirs; where it has to be `safe` it is not aborted. -/
def Meets (S : ∀ c, R c → Prop) (A : C → Prop) (safe : Prop) :
    Prog R α → (α → Prop) → Prop
  | .ret a, Q => Q a
  | .call c k, Q => A c ∧ ∀ r, S c r → Meets S A safe (k r) Q
  | .abort, _ => ¬ safe

variable {S : ∀ c, R c → Prop} {A : C → Prop} {safe : Prop}

theorem meets_bind {p : Prog R α} {f : α → Prog R β} {Q : β → Prop} :
    Meets S A safe (p >>= f) Q ↔ Meets S A safe p fun a => Meets S A safe (f a) Q := by
  induction p with
  | ret a => rfl
  | abort => rfl
  | call c k ih =>
    rw [Prog.call_bind, Meets, Meets]
    exact and_congr_right fun _ => forall_congr' fun r => imp_congr_right fun _ => ih r

theorem Meets.mono {A' : C → Prop} {safe' : Prop} {p : Prog R α} {Q Q' : α → Prop}
    (h : Meets S A safe p Q) (hA : ∀ c, A c → A' c) (hsafe : safe' → safe)
    (hQ : ∀ a, Q a → Q' a) : Meets S A' safe' p Q' := by
  induction p with
  | ret a => exact hQ a h
  | abort => exact fun hs => h (hsafe hs)
  | call c k ih => exact ⟨hA c h.1, fun r hr => ih r (h.2 r hr)⟩

variable (body) in
/-- Every call whose precondition holds meets its postcondition, and makes such calls only. -/
def Correct (pre : C → Prop) (S : ∀ c, R c → Prop) : Prop :=
  ∀ c, pre c → Meets S pre False (body c) (S c)

variable {pre : C → Prop}

/-- **Partial correctness.**  What a program returns meets its postcondition. -/
theorem returns_spec (h : Correct body pre S) {p : Prog R α} {a : α} {Q : α → Prop}
    (hp : Meets S pre safe p Q) (hr : Returns body p a) : Q a := by
  induction hr generalizing safe with
  | ret a => exact hp
  | call _ _ ihc ihk => exact ihk (hp.2 _ (ihc (h _ hp.1)))

theorem meets_asks (h : Correct body pre S) (hA : ∀ c, A c → pre c) {p : Prog R α}
    {Q : α → Prop} {c : C} (hp : Meets S A safe p Q) (hc : Asks body p c) : A c := by
  induction hc with
  | first c k => exact hp.1
  | later hr _ ih => exact ih (hp.2 _ (returns_spec h (h _ (hA _ hp.1)) hr))

theorem pre_of_reaches (h : Correct body pre S) {p : Prog R α} {Q : α → Prop} {c : C}
    (hp : Meets S pre safe p Q) (hc : Reaches body p c) : pre c := by
  induction hc with
  | asks hc => exact meets_asks h (fun _ hc => hc) hp hc
  | step _ hd ih => exact meets_asks h (fun _ hc => hc) (h _ ih) hd

/-! ### Which programs end -/

/-- A program that is not aborted ends when its own calls do. -/
theorem returns_of_asks (h : Correct body pre S) : ∀ {p : Prog R α} {Q : α → Prop},
    Meets S pre True p Q → (∀ d, Asks body p d → ∃ r, Returns body (body d) r) →
      ∃ a, Returns body p a
  | .ret a, _, _, _ => ⟨a, .ret a⟩
  | .abort, _, hp, _ => absurd trivial hp
  | .call c k, _, hp, hasks => by
    obtain ⟨r, hr⟩ := hasks c (.first c k)
    obtain ⟨a, ha⟩ := returns_of_asks h (hp.2 r (returns_spec h (h c hp.1) hr)) fun d hd =>
      hasks d (.later hr hd)
    exact ⟨a, .call hr ha⟩

/-- **Total correctness.**  When every call but the bad ones makes smaller calls only, a call that
reaches no bad one returns. -/
theorem returns_of_measure {M : Type} [Preorder M] [WellFoundedLT M] (size : C → M)
    {bad : C → Prop} (h : Correct body pre S)
    (hsmaller : ∀ c, pre c → ¬ bad c →
      Meets S (fun d => pre d ∧ size d < size c) True (body c) (S c))
    (c : C) (hpre : pre c) (hc : ¬ bad c) (hreach : ∀ d, Reaches body (body c) d → ¬ bad d) :
    ∃ r, Returns body (body c) r := by
  induction hm : size c using WellFoundedLT.induction generalizing c with
  | ind m ih =>
    subst hm
    have hmeets := hsmaller c hpre hc
    refine returns_of_asks h (hmeets.mono (fun _ hd => hd.1) id fun _ => id) fun d hd => ?_
    obtain ⟨hpre', hlt⟩ := meets_asks h (fun _ hd => hd.1) hmeets hd
    exact ih (size d) hlt d hpre' (hreach d (.asks hd))
      (fun e he => hreach e (reaches_of_asks hd he)) rfl

variable (body) in
/-- A program is bound to be aborted or to make a bad call. -/
def Doomed (bad : C → Prop) : Prog R α → Prop
  | .ret _ => False
  | .call c k => bad c ∨ ∀ r, Returns body (body c) r → Doomed bad (k r)
  | .abort => True

/-- When every bad call is bound to be aborted or to make another, none returns. -/
theorem not_returns_of_doomed {bad : C → Prop} (h : ∀ c, bad c → Doomed body bad (body c))
    {p : Prog R α} {a : α} (hp : Doomed body bad p) : ¬ Returns body p a := by
  intro hr
  induction hr with
  | ret a => exact hp
  | call hc _ ihc ihk =>
    obtain hbad | hp := hp
    · exact ihc (h _ hbad)
    · exact ihk (hp _ hc)

/-- **A program ends exactly when it reaches no bad call.** -/
theorem returns_iff_not_reaches {M : Type} [Preorder M] [WellFoundedLT M] (size : C → M)
    {bad : C → Prop} (h : Correct body pre S)
    (hsmaller : ∀ c, pre c → ¬ bad c →
      Meets S (fun d => pre d ∧ size d < size c) True (body c) (S c))
    (hbad : ∀ c, bad c → Doomed body bad (body c)) {p : Prog R α} {Q : α → Prop}
    (hp : Meets S pre True p Q) :
    (∃ a, Returns body p a) ↔ ∀ c, Reaches body p c → ¬ bad c := by
  constructor
  · rintro ⟨a, ha⟩ c hc hb
    obtain ⟨r, hr⟩ := ha.of_reaches hc
    exact not_returns_of_doomed hbad (hbad c hb) hr
  · intro hreach
    refine returns_of_asks h hp fun d hd => ?_
    exact returns_of_measure size h hsmaller d (meets_asks h (fun _ hc => hc) hp hd)
      (hreach d (.asks hd)) fun e he => hreach e (reaches_of_asks hd he)

end

end Whatspec.Library

import Mathlib.Data.List.Forall2

/-!
# Two computations side by side

A computation runs from a state to the value it gives, or the exit it takes, and the state it
leaves.  `Coupled P x y Q E` runs two of them from states that `P` relates: both give values that
`Q` relates, or both take exits that `E` relates.

* `Coupled.bind`, `Coupled.weaken` and `Coupled.traverse` build one coupling from others, the
  last with an invariant of a loop over two lists of related items;
* `Comp.mapExit` renames the exits of a computation, and commutes with sequencing.
-/

namespace Whatspec.Library

/-- A computation: the value it gives, or the exit it takes, and the state it leaves. -/
def Comp (σ ε α : Type) := σ → Except ε α × σ

/-- What follows a result that is an exit is that exit. -/
theorem bind_eq_ok {ε α β : Type} {x : Except ε α} {f : α → Except ε β} {b : β} :
    x >>= f = .ok b ↔ ∃ a, x = .ok a ∧ f a = .ok b := by
  cases x with
  | error e => exact ⟨nofun, fun ⟨_, h, _⟩ => nomatch h⟩
  | ok a => exact ⟨fun h => ⟨a, rfl, h⟩, fun ⟨_, ha, h⟩ => Except.ok.inj ha ▸ h⟩

theorem ok_bind {ε α β : Type} (a : α) (f : α → Except ε β) : (Except.ok a >>= f) = f a := rfl

/-- A traversal that succeeds has one result for each element, in order. -/
theorem mapM_eq_ok {ε α β : Type} {f : α → Except ε β} :
    ∀ {xs : List α} {ys : List β}, xs.mapM f = .ok ys ↔ List.Forall₂ (fun x y => f x = .ok y) xs ys
  | [], ys => by
    rw [List.mapM_nil, List.forall₂_nil_left_iff]
    exact ⟨fun h => (Except.ok.inj h).symm, fun h => h ▸ rfl⟩
  | x :: xs, ys => by
    rw [List.mapM_cons, List.forall₂_cons_left_iff, bind_eq_ok]
    constructor
    · intro h
      obtain ⟨y, hy, h⟩ := h
      obtain ⟨rest, hrest, heq⟩ := bind_eq_ok.mp h
      cases heq
      exact ⟨y, rest, hy, mapM_eq_ok.mp hrest, rfl⟩
    · intro h
      obtain ⟨y, rest, hy, hrest, rfl⟩ := h
      exact ⟨y, hy, bind_eq_ok.mpr ⟨rest, mapM_eq_ok.mpr hrest, rfl⟩⟩

/-- A traversal whose steps all succeed. -/
theorem mapM_ok {ε α β : Type} (g : α → β) (xs : List α) :
    xs.mapM (fun x => (.ok (g x) : Except ε β)) = .ok (xs.map g) := by
  rw [mapM_eq_ok, List.forall₂_map_right_iff]
  exact List.forall₂_same.mpr fun _ _ => rfl

theorem exists_of_mapM_left {ε α β : Type} {f : α → Except ε β} {xs : List α} {ys : List β}
    (h : xs.mapM f = .ok ys) : ∀ x ∈ xs, ∃ y ∈ ys, f x = .ok y := by
  have hpairs := mapM_eq_ok.mp h
  clear h
  induction hpairs with
  | nil => exact fun x hx => nomatch hx
  | cons hfirst _ ih =>
    rw [List.forall_mem_cons]
    refine ⟨⟨_, List.mem_cons_self .., hfirst⟩, fun x hx => ?_⟩
    obtain ⟨y, hy, heq⟩ := ih x hx
    exact ⟨y, List.mem_cons_of_mem _ hy, heq⟩

theorem exists_of_mapM_right {ε α β : Type} {f : α → Except ε β} {xs : List α} {ys : List β}
    (h : xs.mapM f = .ok ys) : ∀ y ∈ ys, ∃ x ∈ xs, f x = .ok y := by
  have hpairs := mapM_eq_ok.mp h
  clear h
  induction hpairs with
  | nil => exact fun y hy => nomatch hy
  | cons hfirst _ ih =>
    rw [List.forall_mem_cons]
    refine ⟨⟨_, List.mem_cons_self .., hfirst⟩, fun y hy => ?_⟩
    obtain ⟨x, hx, heq⟩ := ih y hy
    exact ⟨x, List.mem_cons_of_mem _ hx, heq⟩

namespace Comp

variable {σ τ ε δ α β γ κ : Type}

/-- Take the value of a computation and go on, unless it took an exit. -/
def bind (x : Comp σ ε α) (f : α → Comp σ ε β) : Comp σ ε β := fun s =>
  match x s with
  | (.ok a, s') => f a s'
  | (.error e, s') => (.error e, s')

instance : Monad (Comp σ ε) where
  pure a := fun s => (.ok a, s)
  bind := bind

/-- Take an exit. -/
def throw (e : ε) : Comp σ ε α := fun s => (.error e, s)

/-- The state. -/
def get : Comp σ ε σ := fun s => (.ok s, s)

/-- Change the state. -/
def modify (f : σ → σ) : Comp σ ε Unit := fun s => (.ok (), f s)

/-- A result, or an exit. -/
def ofExcept : Except ε α → Comp σ ε α := fun r s => (r, s)

/-- One computation for each item, in order. -/
def traverse (f : α → Comp σ ε β) : List α → Comp σ ε (List β)
  | [] => pure []
  | a :: as => do
    let b ← f a
    let bs ← traverse f as
    pure (b :: bs)

/-- Rename the exits. -/
def mapExit (g : ε → δ) (x : Comp σ ε α) : Comp σ δ α := fun s =>
  match x s with
  | (.ok a, s') => (.ok a, s')
  | (.error e, s') => (.error (g e), s')

theorem bind_eq (x : Comp σ ε α) (f : α → Comp σ ε β) : x >>= f = bind x f := rfl

theorem bind_apply (x : Comp σ ε α) (f : α → Comp σ ε β) (s : σ) :
    (x >>= f) s = match x s with
      | (.ok a, s') => f a s'
      | (.error e, s') => (.error e, s') := rfl

@[simp] theorem pure_apply (a : α) (s : σ) : (pure a : Comp σ ε α) s = (.ok a, s) := rfl

@[simp] theorem throw_apply (e : ε) (s : σ) : (throw e : Comp σ ε α) s = (.error e, s) := rfl

@[simp] theorem get_apply (s : σ) : (get : Comp σ ε σ) s = (.ok s, s) := rfl

@[simp] theorem modify_apply (f : σ → σ) (s : σ) :
    (modify f : Comp σ ε Unit) s = (.ok (), f s) := rfl

@[simp] theorem ofExcept_apply (r : Except ε α) (s : σ) : ofExcept r s = (r, s) := rfl

@[simp] theorem pure_bind (a : α) (f : α → Comp σ ε β) : pure a >>= f = f a := rfl

@[simp] theorem throw_bind (e : ε) (f : α → Comp σ ε β) : throw e >>= f = throw e := rfl

@[simp] theorem bind_pure (x : Comp σ ε α) : x >>= pure = x := by
  funext s
  rw [bind_apply]
  cases x s with
  | mk r s' => cases r <;> rfl

@[simp] theorem bind_assoc (x : Comp σ ε α) (f : α → Comp σ ε β) (g : β → Comp σ ε γ) :
    x >>= f >>= g = x >>= fun a => f a >>= g := by
  funext s
  simp only [bind_apply]
  cases x s with
  | mk r s' => cases r <;> rfl

/-! ### Renaming exits -/

@[simp] theorem mapExit_pure (g : ε → δ) (a : α) :
    mapExit g (pure a : Comp σ ε α) = pure a := rfl

@[simp] theorem mapExit_throw (g : ε → δ) (e : ε) :
    mapExit g (throw e : Comp σ ε α) = throw (g e) := rfl

@[simp] theorem mapExit_get (g : ε → δ) : mapExit g (get : Comp σ ε σ) = get := rfl

@[simp] theorem mapExit_modify (g : ε → δ) (f : σ → σ) :
    mapExit g (modify f : Comp σ ε Unit) = modify f := rfl

@[simp] theorem mapExit_bind (g : ε → δ) (x : Comp σ ε α) (f : α → Comp σ ε β) :
    mapExit g (x >>= f) = mapExit g x >>= fun a => mapExit g (f a) := by
  funext s
  simp only [mapExit, bind_apply]
  cases x s with
  | mk r s' => cases r <;> rfl

theorem mapExit_traverse (g : ε → δ) (f : α → Comp σ ε β) (as : List α) :
    mapExit g (traverse f as) = traverse (fun a => mapExit g (f a)) as := by
  induction as with
  | nil => rfl
  | cons a as ih => simp only [traverse, mapExit_bind, mapExit_pure, ih]

/-! ### Couplings -/

/-- Both computations give related values, or both take related exits. -/
def Coupled (P : σ → τ → Prop) (x : Comp σ ε α) (y : Comp τ δ β)
    (Q : α → β → σ → τ → Prop) (E : ε → δ → σ → τ → Prop) : Prop :=
  ∀ s t, P s t →
    (∃ a b s' t', x s = (.ok a, s') ∧ y t = (.ok b, t') ∧ Q a b s' t') ∨
    (∃ e d s' t', x s = (.error e, s') ∧ y t = (.error d, t') ∧ E e d s' t')

namespace Coupled

variable {P P' : σ → τ → Prop} {x : Comp σ ε α} {y : Comp τ δ β}
  {Q Q' : α → β → σ → τ → Prop} {E E' : ε → δ → σ → τ → Prop}

protected theorem pure {a : α} {b : β} (h : ∀ s t, P s t → Q a b s t) :
    Coupled P (pure a) (pure b) Q E := fun s t hP => .inl ⟨a, b, s, t, rfl, rfl, h s t hP⟩

protected theorem throw {e : ε} {d : δ} (h : ∀ s t, P s t → E e d s t) :
    Coupled P (throw e) (throw d) Q E := fun s t hP => .inr ⟨e, d, s, t, rfl, rfl, h s t hP⟩

/-- **One step after another.**  The second steps are coupled whenever the first gave values. -/
protected theorem bind {R : γ → κ → σ → τ → Prop} {f : α → Comp σ ε γ} {g : β → Comp τ δ κ}
    (hx : Coupled P x y Q E) (hf : ∀ a b, Coupled (Q a b) (f a) (g b) R E) :
    Coupled P (x >>= f) (y >>= g) R E := by
  intro s t hP
  obtain ⟨a, b, s', t', hxs, hyt, hQ⟩ | ⟨e, d, s', t', hxs, hyt, hE⟩ := hx s t hP
  · rw [bind_apply, bind_apply, hxs, hyt]
    exact hf a b s' t' hQ
  · rw [bind_apply, bind_apply, hxs, hyt]
    exact .inr ⟨e, d, s', t', rfl, rfl, hE⟩

/-- A stronger precondition and weaker postconditions. -/
protected theorem weaken (h : Coupled P x y Q E) (hP : ∀ s t, P' s t → P s t)
    (hQ : ∀ a b s t, Q a b s t → Q' a b s t) (hE : ∀ e d s t, E e d s t → E' e d s t) :
    Coupled P' x y Q' E' := by
  intro s t hs
  obtain ⟨a, b, s', t', hxs, hyt, h⟩ | ⟨e, d, s', t', hxs, hyt, h⟩ := h s t (hP s t hs)
  · exact .inl ⟨a, b, s', t', hxs, hyt, hQ a b s' t' h⟩
  · exact .inr ⟨e, d, s', t', hxs, hyt, hE e d s' t' h⟩

/-- What the precondition says of no state may be used to build the coupling. -/
theorem of_fact {φ : Prop} (h : φ → Coupled P x y Q E) :
    Coupled (fun s t => φ ∧ P s t) x y Q E := fun s t hs => h hs.1 s t hs.2

/-- **A loop keeps its invariant.**  Related items give related values, and every round starts
and ends in states the invariant relates. -/
protected theorem traverse {A : γ → κ → Prop} {B : α → β → Prop}
    {f : γ → Comp σ ε α} {g : κ → Comp τ δ β}
    (h : ∀ c k, A c k → Coupled P (f c) (g k) (fun a b s t => B a b ∧ P s t) E) {cs : List γ}
    {ks : List κ} (hAll : List.Forall₂ A cs ks) :
    Coupled P (traverse f cs) (traverse g ks) (fun as bs s t => List.Forall₂ B as bs ∧ P s t)
      E := by
  induction hAll with
  | nil => exact .pure fun s t hP => ⟨.nil, hP⟩
  | @cons c k cs ks hck hrest ih =>
    refine (h c k hck).bind fun a b => Coupled.of_fact fun hab => ih.bind fun as bs => ?_
    exact .pure fun s t hs => ⟨.cons hab hs.1, hs.2⟩

end Coupled

end Comp

end Whatspec.Library

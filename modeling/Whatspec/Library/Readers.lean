import Mathlib.Tactic.Ring
import Mathlib.Tactic.NormNum

/-!
# Readers of byte streams

A reader takes what it needs from the front of a stream and leaves the rest.  `Reads r bs x`
says that `bs` is one unit of the stream: whatever follows it, the reader takes exactly `bs`
and makes `x` of it.

* `Reads.bind` reads one unit after another, and `reads_all` any number of them, which is
  unique decodability;
* `leBytes` and `twos` are the fixed-width integers, least significant byte first, and
  `reads_leNat` and `reads_leInt` read them back.
-/

namespace Whatspec.Library

/-- What a reader makes of the front of a stream, and the rest of it. -/
abbrev Reader (β α : Type) := StateT (List β) Option α

namespace Reader

variable {β α γ : Type}

/-- `bs` is one unit: the reader takes it, whatever comes after. -/
def Reads (r : Reader β α) (bs : List β) (x : α) : Prop :=
  ∀ rest, r.run (bs ++ rest) = some (x, rest)

/-- Read one symbol. -/
def next : Reader β β
  | [] => none
  | b :: rest => some (b, rest)

/-- Read a number of symbols. -/
def exactly (n : ℕ) : Reader β (List β) := fun s =>
  if s.length < n then none else some (s.take n, s.drop n)

/-- No symbol, when there is a value to return. -/
def given (x : Option α) : Reader β α := fun s => x.map (·, s)

/-- Read units up to the end of a stream of at most `fuel` symbols. -/
def all (r : Reader β α) : ℕ → List β → Option (List α)
  | _, [] => some []
  | 0, _ :: _ => none
  | fuel + 1, b :: s =>
      match r.run (b :: s) with
      | none => none
      | some (x, rest) => (all r fuel rest).map (x :: ·)

theorem reads_pure (x : α) : Reads (pure x : Reader β α) [] x := fun _ => rfl

theorem Reads.bind {r : Reader β α} {f : α → Reader β γ} {bs bs' : List β} {x : α} {y : γ}
    (h : Reads r bs x) (h' : Reads (f x) bs' y) : Reads (r >>= f) (bs ++ bs') y := by
  intro rest
  rw [StateT.run_bind, List.append_assoc, h]
  exact h' rest

/-- The value read may be passed on to a function. -/
theorem Reads.map {r : Reader β α} {bs : List β} {x : α} (h : Reads r bs x) (f : α → γ) :
    Reads (f <$> r) bs (f x) := by
  intro rest
  rw [StateT.run_map, h]
  rfl

theorem reads_next (b : β) : Reads next [b] b := fun _ => rfl

/-- What follows may take nothing. -/
theorem Reads.bind_last {r : Reader β α} {f : α → Reader β γ} {bs : List β} {x : α} {y : γ}
    (h : Reads r bs x) (h' : Reads (f x) [] y) : Reads (r >>= f) bs y := by
  have hunit := h.bind h'
  rwa [List.append_nil] at hunit

/-- A value that is there takes nothing. -/
theorem Reads.bind_given {x : Option α} {v : α} (hx : x = some v) {f : α → Reader β γ}
    {bs : List β} {y : γ} (h : Reads (f v) bs y) : Reads (given x >>= f) bs y := by
  subst hx
  exact h

theorem reads_exactly (bs : List β) : Reads (exactly bs.length) bs bs := by
  intro rest
  have hlen : ¬ (bs ++ rest).length < bs.length := by
    rw [List.length_append]
    omega
  show (if (bs ++ rest).length < bs.length then none
    else some ((bs ++ rest).take bs.length, (bs ++ rest).drop bs.length)) = _
  rw [if_neg hlen, List.take_left, List.drop_left]

/-- **Unique decodability.**  A stream of units, none of them empty, is read back. -/
theorem reads_all {r : Reader β α} {units : List (List β × α)}
    (h : ∀ u ∈ units, Reads r u.1 u.2 ∧ u.1 ≠ []) {fuel : ℕ}
    (hfuel : (units.flatMap Prod.fst).length ≤ fuel) :
    all r fuel (units.flatMap Prod.fst) = some (units.map Prod.snd) := by
  induction units generalizing fuel with
  | nil => cases fuel <;> rfl
  | cons u units ih =>
      obtain ⟨bs, x⟩ := u
      obtain ⟨⟨hread, hne⟩, hrest⟩ := List.forall_mem_cons.mp h
      obtain ⟨b, bs', rfl⟩ := List.exists_cons_of_ne_nil hne
      rw [List.flatMap_cons] at hfuel ⊢
      have hunit := hread (units.flatMap Prod.fst)
      simp only [List.cons_append, List.length_cons, List.length_append] at hfuel hunit ⊢
      obtain ⟨fuel, rfl⟩ : ∃ k, fuel = k + 1 := ⟨fuel - 1, by omega⟩
      rw [all, hunit]
      simp only
      rw [ih hrest (by omega)]
      rfl

/-! ### Fixed-width integers -/

/-- The `k` bytes of a number, least significant first; what is above them is dropped. -/
def leBytes : ℕ → ℕ → List UInt8
  | 0, _ => []
  | k + 1, n => UInt8.ofNat n :: leBytes k (n / 256)

/-- The number of some bytes, least significant first. -/
def ofLeBytes : List UInt8 → ℕ
  | [] => 0
  | b :: bs => b.toNat + 256 * ofLeBytes bs

@[simp] theorem length_leBytes (k n : ℕ) : (leBytes k n).length = k := by
  induction k generalizing n with
  | zero => rfl
  | succ k ih => rw [leBytes, List.length_cons, ih]

theorem ofLeBytes_leBytes (k n : ℕ) : ofLeBytes (leBytes k n) = n % 256 ^ k := by
  induction k generalizing n with
  | zero => rw [leBytes, ofLeBytes, pow_zero, Nat.mod_one]
  | succ k ih =>
      have hsplit : n % 256 ^ (k + 1) = n % 256 + 256 * (n / 256 % 256 ^ k) := by
        rw [pow_succ', Nat.mod_mul]
      rw [leBytes, ofLeBytes, ih, UInt8.toNat_ofNat', hsplit]

/-- Two's complement of `k` bytes. -/
def twos (k : ℕ) (n : ℤ) : ℕ := (n % (256 : ℤ) ^ k).toNat

/-- The integer of two's complement of `k` bytes. -/
def ofTwos (k : ℕ) (n : ℕ) : ℤ := if 2 * n < 256 ^ k then n else (n : ℤ) - (256 : ℤ) ^ k

theorem twos_lt (k : ℕ) (n : ℤ) : twos k n < 256 ^ k := by
  have hpos : (0 : ℤ) < 256 ^ k := by positivity
  have hlt := Int.emod_lt_of_pos n hpos
  have hnonneg := Int.emod_nonneg n hpos.ne'
  rw [twos]
  have hcast : ((256 ^ k : ℕ) : ℤ) = (256 : ℤ) ^ k := by push_cast; rfl
  omega

/-- An integer in the range of `k` bytes is what its two's complement says. -/
theorem ofTwos_twos {k : ℕ} {n : ℤ} (hlow : -(256 : ℤ) ^ k ≤ 2 * n) (hhigh : 2 * n < 256 ^ k) :
    ofTwos k (twos k n) = n := by
  have hpos : (0 : ℤ) < 256 ^ k := by positivity
  have hcast : ((256 ^ k : ℕ) : ℤ) = (256 : ℤ) ^ k := by push_cast; rfl
  rcases lt_or_ge n 0 with hneg | hnonneg
  · have hmod : n % (256 : ℤ) ^ k = n + 256 ^ k := by
      rw [← Int.add_emod_right, Int.emod_eq_of_lt (by omega) (by omega)]
    rw [ofTwos, twos, hmod, if_neg (by omega)]
    omega
  · have hmod : n % (256 : ℤ) ^ k = n := Int.emod_eq_of_lt hnonneg (by omega)
    rw [ofTwos, twos, hmod, if_pos (by omega)]
    omega

/-- Read a number of `k` bytes. -/
def leNat (k : ℕ) : Reader UInt8 ℕ := ofLeBytes <$> exactly k

/-- Read an integer of `k` bytes. -/
def leInt (k : ℕ) : Reader UInt8 ℤ := ofTwos k <$> leNat k

theorem reads_leNat {k n : ℕ} (h : n < 256 ^ k) : Reads (leNat k) (leBytes k n) n := by
  have hread := (reads_exactly (leBytes k n)).map ofLeBytes
  rw [length_leBytes, ofLeBytes_leBytes, Nat.mod_eq_of_lt h] at hread
  exact hread

theorem reads_leInt {k : ℕ} {n : ℤ} (hlow : -(256 : ℤ) ^ k ≤ 2 * n) (hhigh : 2 * n < 256 ^ k) :
    Reads (leInt k) (leBytes k (twos k n)) n := by
  have hread := (reads_leNat (twos_lt k n)).map (ofTwos k)
  rw [ofTwos_twos hlow hhigh] at hread
  exact hread

end Reader

end Whatspec.Library

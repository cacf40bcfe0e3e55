import Mathlib.Data.Nat.Log
import Mathlib.Tactic.Ring
import Mathlib.Tactic.NormNum

/-!
# Double-precision numbers as words

A double is a 64-bit word: a sign, eleven bits of exponent and 52 of fraction.  Every finite
double is a whole number of the least positive one, and `value` is that number, so that the
arithmetic here is on integers.

* `eq` is the comparison `==`, `toI32` the saturating conversion to a 32-bit integer and `ofInt`
  the conversion of an integer, rounded to the nearest double and to the even one of two;
* `value_ofInt`: integers up to `2 ^ 53` are converted exactly;
* `eq_ofInt_toI32`: a double equals its conversion there and back exactly when it is a 32-bit
  integer;
* `value_injective`: two doubles of one finite value are the same word, or both zero;
* `ofInt_of_integer`: an integer that a double holds, however large, is converted to that double.
-/

namespace Whatspec.Library.Binary64

/-- A double, as its bits. -/
abbrev Word := BitVec 64

/-- What a double is: its finite value is counted in units of the least positive double. -/
inductive Value where
  | nan
  | infinite (negative : Bool)
  | finite (units : ℤ)
  deriving DecidableEq

/-- One, in units of the least positive double. -/
def one : ℕ := 2 ^ 1074

/-- The bits below the sign. -/
def magnitude (w : Word) : ℕ := w.toNat % 2 ^ 63

def isNegative (w : Word) : Bool := 2 ^ 63 ≤ w.toNat

/-- The units of a magnitude with this exponent and this fraction. -/
def unitsOf (exponent fraction : ℕ) : ℕ :=
  if exponent = 0 then fraction else (2 ^ 52 + fraction) * 2 ^ (exponent - 1)

/-- The units of a magnitude. -/
def units (m : ℕ) : ℕ := unitsOf (m / 2 ^ 52) (m % 2 ^ 52)

def signed (negative : Bool) (n : ℕ) : ℤ := if negative then -(n : ℤ) else n

def value (w : Word) : Value :=
  if magnitude w / 2 ^ 52 = 2047 then
    if magnitude w % 2 ^ 52 = 0 then .infinite (isNegative w) else .nan
  else .finite (signed (isNegative w) (units (magnitude w)))

/-- The comparison `==`. -/
def eq (v w : Word) : Bool := value v ≠ .nan && value v = value w

/-- The conversion to a 32-bit integer: towards zero, and to the nearest bound outside. -/
def toI32 (w : Word) : ℤ :=
  match value w with
  | .nan => 0
  | .infinite negative => if negative then -2 ^ 31 else 2 ^ 31 - 1
  | .finite n => max (-2 ^ 31) (min (2 ^ 31 - 1) (n.tdiv one))

/-- A quotient by `2 ^ d`, rounded to the nearest, and to the even one of two. -/
def roundShift (n d : ℕ) : ℕ :=
  let q := n / 2 ^ d
  let r := n % 2 ^ d
  if 2 ^ d < 2 * r ∨ (2 * r = 2 ^ d ∧ q % 2 = 1) then q + 1 else q

/-- The magnitude nearest to a natural number.  A significand rounded up to the next power of
two carries into the exponent. -/
def magnitudeOfNat (n : ℕ) : ℕ :=
  if n = 0 then 0
  else
    let k := Nat.log 2 n
    let significand := if k ≤ 52 then n * 2 ^ (52 - k) else roundShift n (k - 52)
    (k + 1023) * 2 ^ 52 + (significand - 2 ^ 52)

/-- The conversion of an integer. -/
def ofInt (n : ℤ) : Word :=
  BitVec.ofNat 64 (magnitudeOfNat n.natAbs + if n < 0 then 2 ^ 63 else 0)

/-! ### Magnitudes are ordered as their values -/

theorem unitsOf_lt {e f : ℕ} (hf : f < 2 ^ 52) : unitsOf e f < 2 ^ (52 + e) := by
  rw [unitsOf]
  by_cases he : e = 0
  · rw [if_pos he, he]
    exact hf
  · obtain ⟨k, rfl⟩ := Nat.exists_eq_succ_of_ne_zero he
    rw [if_neg he, Nat.succ_sub_one, Nat.succ_eq_add_one]
    calc (2 ^ 52 + f) * 2 ^ k < 2 ^ 53 * 2 ^ k := by
          apply Nat.mul_lt_mul_of_pos_right _ (Nat.two_pow_pos k)
          omega
      _ = 2 ^ (52 + (k + 1)) := by ring

theorem le_unitsOf {e f : ℕ} (he : e ≠ 0) : 2 ^ (51 + e) ≤ unitsOf e f := by
  obtain ⟨k, rfl⟩ := Nat.exists_eq_succ_of_ne_zero he
  rw [unitsOf, if_neg he, Nat.succ_sub_one, Nat.succ_eq_add_one]
  calc 2 ^ (51 + (k + 1)) = 2 ^ 52 * 2 ^ k := by ring
    _ ≤ (2 ^ 52 + f) * 2 ^ k := Nat.mul_le_mul_right _ (Nat.le_add_right _ _)

/-- **Magnitudes of one value are one.** -/
theorem units_strictMono : StrictMono units := by
  intro m m' hlt
  have hf : m % 2 ^ 52 < 2 ^ 52 := Nat.mod_lt _ (by norm_num)
  rcases Nat.lt_or_ge (m / 2 ^ 52) (m' / 2 ^ 52) with he | he
  · calc units m < 2 ^ (52 + m / 2 ^ 52) := unitsOf_lt hf
      _ ≤ 2 ^ (51 + m' / 2 ^ 52) := Nat.pow_le_pow_right (by norm_num) (by omega)
      _ ≤ units m' := le_unitsOf (by omega)
  · have hexp : m / 2 ^ 52 = m' / 2 ^ 52 := by omega
    have hfrac : m % 2 ^ 52 < m' % 2 ^ 52 := by omega
    rw [units, units, hexp, unitsOf, unitsOf]
    by_cases hz : m' / 2 ^ 52 = 0
    · rw [if_pos hz, if_pos hz]
      exact hfrac
    · rw [if_neg hz, if_neg hz]
      exact Nat.mul_lt_mul_of_pos_right (by omega) (Nat.two_pow_pos _)

/-- A double is its sign and its magnitude. -/
theorem toNat_eq (w : Word) :
    w.toNat = magnitude w + if isNegative w then 2 ^ 63 else 0 := by
  have hlt := w.isLt
  rw [magnitude]
  by_cases hneg : isNegative w = true
  · have hge : 2 ^ 63 ≤ w.toNat := of_decide_eq_true hneg
    rw [if_pos hneg]
    omega
  · have hge : ¬ 2 ^ 63 ≤ w.toNat := of_decide_eq_false (Bool.not_eq_true _ ▸ hneg)
    rw [if_neg hneg]
    omega

/-- **Two doubles of one finite value are the same word, or both zero.** -/
theorem value_injective {v w : Word} {n : ℤ} (hv : value v = .finite n)
    (hw : value w = .finite n) : v = w ∨ n = 0 := by
  have hread : ∀ u : Word, value u = .finite n →
      signed (isNegative u) (units (magnitude u)) = n := by
    intro u hu
    rw [value] at hu
    split_ifs at hu
    exact Value.finite.inj hu
  have hv' := hread v hv
  have hw' := hread w hw
  rw [signed] at hv' hw'
  by_cases hn : n = 0
  · exact Or.inr hn
  · refine Or.inl (BitVec.eq_of_toNat_eq ?_)
    rw [toNat_eq v, toNat_eq w]
    cases hsv : isNegative v <;> cases hsw : isNegative w <;>
      simp only [hsv, hsw, if_true, if_false, Bool.false_eq_true] at hv' hw' ⊢
    · have : units (magnitude v) = units (magnitude w) := by omega
      rw [units_strictMono.injective this]
    · omega
    · omega
    · have : units (magnitude v) = units (magnitude w) := by omega
      rw [units_strictMono.injective this]

/-- The double that is zero with a sign. -/
def negativeZero : Word := BitVec.ofNat 64 (2 ^ 63)

/-- The zeros are the doubles whose value is zero. -/
theorem value_eq_zero {w : Word} (h : value w = .finite 0) : w = 0 ∨ w = negativeZero := by
  have hunits : units (magnitude w) = units 0 := by
    rw [value] at h
    split_ifs at h
    have hsigned := Value.finite.inj h
    rw [signed] at hsigned
    have hzero : units 0 = 0 := rfl
    split_ifs at hsigned <;> omega
  have hmag := units_strictMono.injective hunits
  have hnat := toNat_eq w
  rw [hmag, Nat.zero_add] at hnat
  cases hneg : isNegative w with
  | false =>
      rw [hneg] at hnat
      exact Or.inl (BitVec.eq_of_toNat_eq hnat)
  | true =>
      rw [hneg] at hnat
      exact Or.inr (BitVec.eq_of_toNat_eq hnat)

/-! ### Conversion of integers -/

/-- A word made of a sign and a magnitude is made of them. -/
theorem magnitude_ofNat {m : ℕ} (hm : m < 2 ^ 63) (negative : Bool) :
    magnitude (BitVec.ofNat 64 (m + if negative then 2 ^ 63 else 0)) = m ∧
      isNegative (BitVec.ofNat 64 (m + if negative then 2 ^ 63 else 0)) = negative := by
  rw [magnitude, isNegative, BitVec.toNat_ofNat]
  cases negative with
  | false =>
      simp only [Bool.false_eq_true, if_false, decide_eq_false_iff_not]
      omega
  | true =>
      simp only [if_true, decide_eq_true_iff]
      omega

/-- The magnitude of an exponent and a significand. -/
theorem units_significand {k m : ℕ} (hlow : 2 ^ 52 ≤ m) (hhigh : m < 2 ^ 53) (hk : k ≤ 53) :
    ((k + 1023) * 2 ^ 52 + (m - 2 ^ 52)) / 2 ^ 52 ≠ 2047 ∧
      (k + 1023) * 2 ^ 52 + (m - 2 ^ 52) < 2 ^ 63 ∧
      units ((k + 1023) * 2 ^ 52 + (m - 2 ^ 52)) = m * 2 ^ (k + 1022) := by
  have hdiv : ((k + 1023) * 2 ^ 52 + (m - 2 ^ 52)) / 2 ^ 52 = k + 1023 := by omega
  have hmod : ((k + 1023) * 2 ^ 52 + (m - 2 ^ 52)) % 2 ^ 52 = m - 2 ^ 52 := by omega
  refine ⟨by omega, by omega, ?_⟩
  rw [units, hdiv, hmod, unitsOf, if_neg (by omega), Nat.add_sub_cancel' hlow]
  rfl

/-- Integers up to `2 ^ 53` are exact. -/
theorem magnitudeOfNat_spec {n : ℕ} (hle : n ≤ 2 ^ 53) :
    magnitudeOfNat n / 2 ^ 52 ≠ 2047 ∧ magnitudeOfNat n < 2 ^ 63 ∧
      units (magnitudeOfNat n) = n * one := by
  by_cases hpos : n = 0
  · subst hpos
    simp [magnitudeOfNat, units, unitsOf]
  have hlow : 2 ^ Nat.log 2 n ≤ n := Nat.pow_log_le_self 2 hpos
  have hhigh : n < 2 ^ (Nat.log 2 n + 1) := Nat.lt_pow_succ_log_self (by norm_num) n
  rw [magnitudeOfNat, if_neg hpos]
  dsimp only
  rcases Nat.lt_or_ge n (2 ^ 53) with hlt | hge
  · have hk : Nat.log 2 n ≤ 52 := by
      have := (Nat.pow_lt_pow_iff_right (by norm_num)).mp (Nat.lt_of_le_of_lt hlow hlt)
      omega
    have hshift : 2 ^ Nat.log 2 n * 2 ^ (52 - Nat.log 2 n) = 2 ^ 52 := by
      rw [← pow_add, Nat.add_sub_cancel' hk]
    have hmin : 2 ^ 52 ≤ n * 2 ^ (52 - Nat.log 2 n) :=
      hshift ▸ Nat.mul_le_mul_right _ hlow
    have hmax : n * 2 ^ (52 - Nat.log 2 n) < 2 ^ 53 := by
      have := Nat.mul_lt_mul_of_pos_right hhigh (Nat.two_pow_pos (52 - Nat.log 2 n))
      rw [pow_succ, Nat.mul_right_comm, hshift] at this
      omega
    obtain ⟨hexp, hsmall, hunits⟩ := units_significand hmin hmax (Nat.le_succ_of_le hk)
    rw [if_pos hk]
    refine ⟨hexp, hsmall, hunits.trans ?_⟩
    have hsum : 52 - Nat.log 2 n + (Nat.log 2 n + 1022) = 1074 := by omega
    rw [one, Nat.mul_assoc, ← pow_add, hsum]
  · obtain rfl : n = 2 ^ 53 := Nat.le_antisymm hle hge
    have hlog : Nat.log 2 (2 ^ 53) = 53 := Nat.log_pow (by norm_num) 53
    have hround : roundShift (2 ^ 53) (53 - 52) = 2 ^ 52 := by norm_num [roundShift]
    rw [hlog, if_neg (by norm_num), hround]
    obtain ⟨hexp, hsmall, hunits⟩ :=
      @units_significand 53 (2 ^ 52) (Nat.le_refl _) (by norm_num) (Nat.le_refl _)
    refine ⟨hexp, hsmall, hunits.trans ?_⟩
    rw [one, ← pow_add, ← pow_add]

/-- **Integers up to `2 ^ 53` are converted exactly.** -/
theorem value_ofInt {n : ℤ} (h : n.natAbs ≤ 2 ^ 53) : value (ofInt n) = .finite (n * one) := by
  obtain ⟨hexp, hsmall, hunits⟩ := magnitudeOfNat_spec h
  obtain ⟨hmag, hsign⟩ := magnitude_ofNat hsmall (decide (n < 0))
  simp only [decide_eq_true_eq] at hmag hsign
  rw [value, ofInt, hmag, if_neg hexp, hsign, hunits, signed]
  congr 1
  by_cases hneg : n < 0
  · rw [if_pos (decide_eq_true hneg)]
    push_cast
    rw [abs_of_neg hneg]
    ring
  · rw [if_neg (by simpa using hneg)]
    push_cast
    rw [abs_of_nonneg (not_lt.mp hneg)]

/-- A 32-bit integer. -/
def IsI32 (n : ℤ) : Prop := -2 ^ 31 ≤ n ∧ n < 2 ^ 31

theorem toI32_isI32 (w : Word) : IsI32 (toI32 w) := by
  rw [toI32, IsI32]
  cases value w with
  | nan => norm_num
  | infinite negative => cases negative <;> norm_num
  | finite n =>
      simp only
      omega

/-- **A double equals its conversion there and back exactly when it is a 32-bit integer**, the
one it converts to. -/
theorem eq_ofInt_toI32 (w : Word) :
    eq w (ofInt (toI32 w)) = true ↔ value w = .finite (toI32 w * one) := by
  obtain ⟨hlow, hhigh⟩ := toI32_isI32 w
  have hexact : value (ofInt (toI32 w)) = .finite (toI32 w * one) :=
    value_ofInt (by omega)
  rw [eq, hexact, Bool.and_eq_true, decide_eq_true_iff, decide_eq_true_iff]
  exact and_iff_right_of_imp fun h => h ▸ Value.noConfusion

/-- The integer a double is, when it is one. -/
def integer (w : Word) : Option ℤ :=
  match value w with
  | .finite n => if n % one = 0 then some (n / one) else none
  | _ => none

theorem integer_of_value {w : Word} {n : ℤ} (h : value w = .finite (n * one)) :
    integer w = some n := by
  have hone : (one : ℤ) ≠ 0 := by
    rw [one]
    positivity
  rw [integer, h]
  simp only
  rw [Int.mul_emod_left, if_pos rfl, Int.mul_ediv_cancel n hone]

theorem value_of_integer {w : Word} {n : ℤ} (h : integer w = some n) :
    value w = .finite (n * one) := by
  rw [integer] at h
  split at h
  · rename_i m hm
    split_ifs at h with hmod
    cases h
    rw [hm, Int.ediv_mul_cancel (Int.dvd_of_emod_eq_zero hmod)]
  · cases h

/-! ### Integers there and back -/

theorem log_mul_two_pow {n : ℕ} (hn : n ≠ 0) (a : ℕ) :
    Nat.log 2 (n * 2 ^ a) = Nat.log 2 n + a := by
  induction a with
  | zero => rw [pow_zero, mul_one, add_zero]
  | succ a ih =>
    rw [pow_succ, ← mul_assoc, Nat.log_mul_base Nat.one_lt_two, ih, add_assoc]
    exact Nat.mul_ne_zero hn (by positivity)

theorem roundShift_mul (s d : ℕ) : roundShift (s * 2 ^ d) d = s := by
  have hpos : 0 < 2 ^ d := by positivity
  rw [roundShift, Nat.mul_div_cancel _ hpos, Nat.mul_mod_left]
  exact if_neg (by omega)

/-- The magnitude of a positive integer that a double holds exactly. -/
theorem magnitudeOfNat_of_units {m n : ℕ} (hpos : n ≠ 0) (h : units m = n * one) :
    magnitudeOfNat n = m := by
  set e := m / 2 ^ 52 with he
  set f := m % 2 ^ 52 with hf
  have hm : m = e * 2 ^ 52 + f := by omega
  have hlt : f < 2 ^ 52 := Nat.mod_lt _ (by norm_num)
  have hunits : unitsOf e f = n * one := h
  have hbig : 2 ^ 52 ≤ n * one := by
    have hone : 2 ^ 52 ≤ one := by
      unfold one
      gcongr <;> norm_num
    calc 2 ^ 52 ≤ one := hone
      _ ≤ n * one := Nat.le_mul_of_pos_left _ (Nat.pos_of_ne_zero hpos)
  have he0 : e ≠ 0 := by
    intro h0
    rw [unitsOf, if_pos h0] at hunits
    omega
  rw [unitsOf, if_neg he0] at hunits
  -- Both sides have the same binary length, which gives the exponent.
  have hlog : Nat.log 2 (2 ^ 52 + f) = 52 :=
    Nat.log_eq_of_pow_le_of_lt_pow (by omega) (by omega)
  have hlen : 52 + (e - 1) = Nat.log 2 n + 1074 := by
    rw [← hlog, ← log_mul_two_pow (by omega), hunits, one, log_mul_two_pow hpos]
  have hexp : e = Nat.log 2 n + 1023 := by omega
  have hsig : (if Nat.log 2 n ≤ 52 then n * 2 ^ (52 - Nat.log 2 n)
      else roundShift n (Nat.log 2 n - 52)) = 2 ^ 52 + f := by
    by_cases hk : Nat.log 2 n ≤ 52
    · rw [if_pos hk]
      have hsplit : one = 2 ^ (52 - Nat.log 2 n) * 2 ^ (e - 1) := by
        rw [one, ← pow_add]
        congr 1
        omega
      rw [hsplit, ← mul_assoc] at hunits
      exact (Nat.eq_of_mul_eq_mul_right (by positivity) hunits).symm
    · rw [if_neg hk]
      have hsplit : 2 ^ (e - 1) = 2 ^ (Nat.log 2 n - 52) * one := by
        rw [one, ← pow_add]
        congr 1
        omega
      rw [hsplit, ← mul_assoc] at hunits
      have hn : (2 ^ 52 + f) * 2 ^ (Nat.log 2 n - 52) = n :=
        Nat.eq_of_mul_eq_mul_right (by rw [one]; positivity) hunits
      have hround := roundShift_mul (2 ^ 52 + f) (Nat.log 2 n - 52)
      rwa [hn] at hround
  rw [magnitudeOfNat, if_neg hpos]
  simp only
  rw [hsig, ← hexp]
  omega

/-- A double of no magnitude is a zero. -/
theorem magnitude_eq_zero {w : Word} (h : units (magnitude w) = 0) : magnitude w = 0 :=
  units_strictMono.injective (h.trans (by rw [units, unitsOf]; rfl))

/-- **An integer that a double holds is converted to that double**, unless it is minus zero. -/
theorem ofInt_of_integer {w : Word} {k : ℤ} (hzero : k = 0 → isNegative w = false)
    (h : integer w = some k) : ofInt k = w := by
  have hvalue := value_of_integer h
  have hone : (0 : ℤ) < one := by
    rw [one]
    positivity
  rw [value] at hvalue
  split_ifs at hvalue with hexp hfrac
  have hsigned := Value.finite.inj hvalue
  have habs : units (magnitude w) = k.natAbs * one ∧ (isNegative w = true ↔ k < 0) := by
    rw [signed] at hsigned
    generalize one = o at hone hsigned ⊢
    cases hneg : isNegative w with
    | true =>
      rw [hneg, if_pos rfl] at hsigned
      have hk : k ≠ 0 := fun h0 => by rw [hzero h0] at hneg; cases hneg
      have hle : k * o ≤ 0 := by omega
      have hlt : k < 0 := lt_of_le_of_ne (nonpos_of_mul_nonpos_left hle hone) hk
      have hmul : ((k.natAbs * o : ℕ) : ℤ) = -(k * o) := by
        push_cast
        rw [abs_of_neg hlt, neg_mul]
      exact ⟨by omega, by simp only [hlt]⟩
    | false =>
      rw [hneg, if_neg Bool.false_ne_true] at hsigned
      have hge : 0 ≤ k := nonneg_of_mul_nonneg_left (by omega) hone
      have hmul : ((k.natAbs * o : ℕ) : ℤ) = k * o := by
        push_cast
        rw [abs_of_nonneg hge]
      exact ⟨by omega, by simp only [Bool.false_eq_true, false_iff, not_lt, hge]⟩
  have hmagnitude : magnitudeOfNat k.natAbs = magnitude w := by
    by_cases hk : k = 0
    · have hnone : units (magnitude w) = 0 := by
        rw [habs.1, hk, Int.natAbs_zero, Nat.zero_mul]
      rw [magnitude_eq_zero hnone, hk]
      rfl
    · exact magnitudeOfNat_of_units (Int.natAbs_ne_zero.mpr hk) habs.1
  have hnat := toNat_eq w
  have hlt := w.isLt
  have hif : (if k < 0 then 2 ^ 63 else 0) = if isNegative w then 2 ^ 63 else 0 :=
    if_congr habs.2.symm rfl rfl
  apply BitVec.eq_of_toNat_eq
  rw [ofInt, hmagnitude, BitVec.toNat_ofNat, hif, ← hnat, Nat.mod_eq_of_lt hlt]

/-! ### Changing the sign -/

/-- The unary minus. -/
def neg (w : Word) : Word := BitVec.ofNat 64 (magnitude w + if !isNegative w then 2 ^ 63 else 0)

theorem magnitude_neg (w : Word) :
    magnitude (neg w) = magnitude w ∧ isNegative (neg w) = !isNegative w :=
  magnitude_ofNat (Nat.mod_lt _ (by norm_num)) _

theorem signed_not (negative : Bool) (n : ℕ) : signed (!negative) n = -signed negative n := by
  cases negative with
  | false => rfl
  | true => exact (neg_neg _).symm

/-- The unary minus of an integer. -/
theorem integer_neg {w : Word} {k : ℤ} (h : integer w = some k) : integer (neg w) = some (-k) := by
  have hvalue := value_of_integer h
  obtain ⟨hmag, hsign⟩ := magnitude_neg w
  refine integer_of_value ?_
  rw [value] at hvalue ⊢
  rw [hmag, hsign, signed_not]
  split_ifs at hvalue with hexp hfrac
  rw [if_neg hexp, Value.finite.inj hvalue, neg_mul]

end Whatspec.Library.Binary64

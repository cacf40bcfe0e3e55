import Whatspec.Library.Binary64

/-!
# The number that a text begins with

`parseInt` of a script, in base ten: blanks are passed over, then a sign, and the digits that follow
spell an integer, which is rounded to a double.  The language lets an implementation put zeros for
the digits behind the twentieth significant one.

* `nearest` is the double for an integer of any size, and **`nearest_eq_iff`** says that a small
  integer is the double of itself only;
* **`parseInt_eq_iff`**: a text yields a small integer exactly where its digits spell it, whether or
  not the later digits are kept.
-/

namespace Whatspec.Library.Scripts

open Binary64

/-! ### Integers as doubles -/

/-- The double nearest to an integer, and an infinity where that is out of range. -/
def nearest (n : ℤ) : Value :=
  if n.natAbs < 2 ^ 1024 then value (ofInt n) else .infinite (n < 0)

theorem roundShift_bounds (n d : ℕ) :
    n / 2 ^ d ≤ roundShift n d ∧ roundShift n d ≤ n / 2 ^ d + 1 := by
  rw [roundShift]
  split_ifs <;> omega

/-- The magnitude of an integer beyond the exact ones. -/
theorem magnitudeOfNat_large {n : ℕ} (hlow : 2 ^ 53 ≤ n) (hhigh : n < 2 ^ 1024) :
    1076 * 2 ^ 52 ≤ magnitudeOfNat n ∧ magnitudeOfNat n < 2 ^ 63 := by
  have hpos : n ≠ 0 := by
    rintro rfl
    exact absurd hlow (by norm_num)
  have hle : 53 ≤ Nat.log 2 n := Nat.le_log_of_pow_le (by norm_num) hlow
  have hlt : Nat.log 2 n < 1024 := (Nat.log_lt_iff_lt_pow (by norm_num) hpos).mpr hhigh
  have hpow : 2 ^ Nat.log 2 n = 2 ^ 52 * 2 ^ (Nat.log 2 n - 52) := by
    rw [← pow_add]
    congr 1
    omega
  have hmin : 2 ^ 52 ≤ n / 2 ^ (Nat.log 2 n - 52) := by
    rw [Nat.le_div_iff_mul_le (Nat.two_pow_pos _), ← hpow]
    exact Nat.pow_log_le_self 2 hpos
  have hmax : n / 2 ^ (Nat.log 2 n - 52) < 2 ^ 53 := by
    rw [Nat.div_lt_iff_lt_mul (Nat.two_pow_pos _), pow_succ 2 52, Nat.mul_right_comm, ← hpow,
      ← pow_succ]
    exact Nat.lt_pow_succ_log_self (by norm_num) n
  obtain ⟨hround, hround'⟩ := roundShift_bounds n (Nat.log 2 n - 52)
  rw [magnitudeOfNat, if_neg hpos]
  dsimp only
  rw [if_neg (by omega)]
  clear hlow hhigh hpow
  omega

/-- Beyond the exact integers, no double is one of them. -/
theorem value_ofInt_large {n : ℤ} (hlow : 2 ^ 53 ≤ n.natAbs) (hhigh : n.natAbs < 2 ^ 1024)
    {k : ℤ} (hk : k.natAbs < 2 ^ 53) : value (ofInt n) ≠ .finite (k * one) := by
  obtain ⟨hleast, hsmall⟩ := magnitudeOfNat_large hlow hhigh
  obtain ⟨hmag, hsign⟩ := magnitude_ofNat hsmall (decide (n < 0))
  simp only [decide_eq_true_eq] at hmag hsign
  have hunits : 2 ^ 53 * one ≤ units (magnitudeOfNat n.natAbs) := by
    refine le_trans (Nat.le_of_eq ?_) (units_strictMono.monotone hleast)
    rw [units, Nat.mul_div_cancel _ (by norm_num), Nat.mul_mod_left, unitsOf,
      if_neg (by norm_num), one, Nat.add_zero, ← pow_add, ← pow_add]
  rw [value, ofInt, hmag, hsign]
  split_ifs
  · intro h
    cases h
  · intro h
    cases h
  · intro h
    have habs := congrArg Int.natAbs (Value.finite.inj h)
    rw [Int.natAbs_mul, Int.natAbs_natCast] at habs
    have hsigned : (signed (decide (n < 0)) (units (magnitudeOfNat n.natAbs))).natAbs =
        units (magnitudeOfNat n.natAbs) := by
      rw [signed]
      split_ifs
      · rw [Int.natAbs_neg, Int.natAbs_natCast]
      · exact Int.natAbs_natCast _
    rw [hsigned] at habs
    rw [habs] at hunits
    have hone : 0 < one := by
      rw [one]
      positivity
    exact absurd (Nat.le_of_mul_le_mul_right hunits hone) (Nat.not_le.mpr hk)

/-- **A small integer is the double of no other one.** -/
theorem nearest_eq_iff {n k : ℤ} (hk : k.natAbs < 2 ^ 53) :
    nearest n = .finite (k * one) ↔ n = k := by
  have hone : (one : ℤ) ≠ 0 := by
    rw [one]
    positivity
  rw [nearest]
  split_ifs with hhigh
  · rcases Nat.lt_or_ge n.natAbs (2 ^ 53) with hlow | hlow
    · rw [value_ofInt (Nat.le_of_lt hlow)]
      constructor
      · exact fun h => mul_right_cancel₀ hone (Value.finite.inj h)
      · rintro rfl
        rfl
    · refine iff_of_false (value_ofInt_large hlow hhigh hk) ?_
      rintro rfl
      exact absurd hk (Nat.not_lt.mpr hlow)
  · refine iff_of_false (by simp) ?_
    rintro rfl
    have hpow : 2 ^ 53 ≤ 2 ^ 1024 := pow_le_pow_right₀ (by norm_num) (by norm_num)
    exact hhigh (Nat.lt_of_lt_of_le hk hpow)

/-! ### Texts -/

/-- White space and the ends of lines. -/
def isStrWhiteSpace (c : Char) : Bool :=
  let whiteSpace := c.toNat ∈ [0x9, 0xb, 0xc, 0xfeff]
  let spaceSeparator := c.toNat ∈ [0x20, 0xa0, 0x1680, 0x202f, 0x205f, 0x3000] ∨
    (0x2000 ≤ c.toNat ∧ c.toNat ≤ 0x200a)
  let lineTerminator := c.toNat ∈ [0xa, 0xd, 0x2028, 0x2029]
  whiteSpace ∨ spaceSeparator ∨ lineTerminator

/-- The integer of a run of digits, with zeros behind the twentieth significant one where the
implementation is coarse. -/
def mathInt (coarse : Bool) (digits : List Char) : ℕ :=
  let significant := digits.dropWhile (· = '0')
  if coarse then
    Nat.ofDigitChars 10
      (significant.take 20 ++ List.replicate (significant.length - 20) '0') 0
  else Nat.ofDigitChars 10 digits 0

/-- A text after its blanks: whether it has a minus, and what follows the sign. -/
def splitSign : List Char → Bool × List Char
  | '-' :: cs => (true, cs)
  | '+' :: cs => (false, cs)
  | cs => (false, cs)

def parseInt (coarse : Bool) (s : String) : Value :=
  let (negative, rest) := splitSign (s.toList.dropWhile isStrWhiteSpace)
  let digits := rest.takeWhile Char.isDigit
  if digits = [] then .nan
  else nearest (if negative then -(mathInt coarse digits : ℤ) else mathInt coarse digits)

/-! ### Long runs of digits -/

/-- Leading zeros spell nothing. -/
theorem ofDigitChars_dropWhile (digits : List Char) :
    Nat.ofDigitChars 10 (digits.dropWhile (· = '0')) 0 = Nat.ofDigitChars 10 digits 0 := by
  induction digits with
  | nil => rfl
  | cons c cs ih =>
    by_cases hc : c = '0'
    · subst hc
      rw [List.dropWhile_cons_of_pos (by simp), ih, Nat.ofDigitChars_cons]
      rfl
    · rw [List.dropWhile_cons_of_neg (by simpa using hc)]

/-- A digit that is not zero makes the number as large as its place. -/
theorem le_ofDigitChars {c : Char} {cs : List Char} (hdigit : c.isDigit = true) (hc : c ≠ '0') :
    10 ^ cs.length ≤ Nat.ofDigitChars 10 (c :: cs) 0 := by
  have hpos : 1 ≤ c.toNat - '0'.toNat := by
    have hrange : 48 ≤ c.toNat ∧ c.toNat ≤ 57 := by
      simp only [Char.isDigit, Bool.and_eq_true, decide_eq_true_eq] at hdigit
      exact hdigit
    have hne : c.toNat ≠ 48 := fun h => hc (Char.ext (UInt32.toNat_inj.mp h))
    show 1 ≤ c.toNat - 48
    omega
  rw [Nat.ofDigitChars_cons, Nat.ofDigitChars_eq_ofDigitChars_zero, Nat.mul_zero, Nat.zero_add]
  calc 10 ^ cs.length = 10 ^ cs.length * 1 := (Nat.mul_one _).symm
    _ ≤ 10 ^ cs.length * (c.toNat - '0'.toNat) := Nat.mul_le_mul_left _ hpos
    _ ≤ _ := Nat.le_add_right _ _

/-- Both ways of reading long runs give the same small integers. -/
theorem mathInt_eq_iff {digits : List Char} (hdigits : ∀ c ∈ digits, c.isDigit = true)
    (coarse : Bool) {n : ℕ} (hn : n < 10 ^ 20) :
    mathInt coarse digits = n ↔ Nat.ofDigitChars 10 digits 0 = n := by
  cases coarse with
  | false => exact Iff.rfl
  | true =>
    have hdrop := ofDigitChars_dropWhile digits
    show Nat.ofDigitChars 10 ((digits.dropWhile (· = '0')).take 20 ++
      List.replicate ((digits.dropWhile (· = '0')).length - 20) '0') 0 = n ↔ _
    by_cases hshort : (digits.dropWhile (· = '0')).length ≤ 20
    · rw [List.take_of_length_le hshort, Nat.sub_eq_zero_of_le hshort, List.replicate_zero,
        List.append_nil, hdrop]
    · cases hsignificant : digits.dropWhile (· = '0') with
      | nil =>
        rw [hsignificant] at hshort
        exact absurd (Nat.zero_le 20) hshort
      | cons c cs =>
        have hc : c ≠ '0' := by
          have hhead := List.head?_dropWhile_not (· = '0') digits
          rw [hsignificant] at hhead
          simpa using hhead
        have hdigit : c.isDigit = true :=
          hdigits c ((List.dropWhile_sublist _).subset (hsignificant ▸ List.mem_cons_self))
        rw [hsignificant, List.length_cons] at hshort
        have hlarge : ∀ ds : List Char, 20 ≤ ds.length →
            Nat.ofDigitChars 10 (c :: ds) 0 ≠ n := by
          intro ds hds h
          have hle : 10 ^ ds.length ≤ Nat.ofDigitChars 10 (c :: ds) 0 :=
            le_ofDigitChars hdigit hc
          have hpow : 10 ^ 20 ≤ 10 ^ ds.length := Nat.pow_le_pow_right (by norm_num) hds
          omega
        rw [← hdrop, hsignificant]
        refine iff_of_false ?_ (hlarge cs (by omega))
        rw [List.take_succ_cons, List.cons_append]
        refine hlarge _ ?_
        rw [List.length_append, List.length_replicate, List.length_take, List.length_cons]
        omega

theorem mathInt_int_eq_iff {digits : List Char} (hdigits : ∀ c ∈ digits, c.isDigit = true)
    (coarse : Bool) {k : ℤ} (hk : k.natAbs < 2 ^ 53) :
    (mathInt coarse digits : ℤ) = k ↔ (Nat.ofDigitChars 10 digits 0 : ℤ) = k := by
  by_cases hneg : k < 0
  · exact iff_of_false (by omega) (by omega)
  · obtain ⟨m, rfl⟩ := Int.eq_ofNat_of_zero_le (not_lt.mp hneg)
    have hm : m < 10 ^ 20 := by
      rw [Int.natAbs_natCast] at hk
      exact Nat.lt_trans hk (by norm_num)
    rw [Nat.cast_inj, Nat.cast_inj]
    exact mathInt_eq_iff hdigits coarse hm

/-- **A text yields a small integer exactly where its digits spell it.** -/
theorem parseInt_eq_iff (coarse : Bool) (s : String) {n : ℤ} (hn : n.natAbs < 2 ^ 53)
    {negative : Bool} {rest : List Char}
    (hsign : splitSign (s.toList.dropWhile isStrWhiteSpace) = (negative, rest)) :
    parseInt coarse s = .finite (n * one) ↔ rest.takeWhile Char.isDigit ≠ [] ∧
      (if negative then -(Nat.ofDigitChars 10 (rest.takeWhile Char.isDigit) 0 : ℤ)
        else Nat.ofDigitChars 10 (rest.takeWhile Char.isDigit) 0) = n := by
  have hdigits : ∀ c ∈ rest.takeWhile Char.isDigit, c.isDigit = true := fun c hc =>
    List.all_eq_true.mp List.all_takeWhile c hc
  rw [parseInt, hsign]
  dsimp only
  by_cases hnone : rest.takeWhile Char.isDigit = []
  · rw [if_pos hnone]
    exact iff_of_false nofun fun h => h.1 hnone
  · rw [if_neg hnone, nearest_eq_iff hn, and_iff_right hnone]
    cases negative with
    | false => exact mathInt_int_eq_iff hdigits coarse hn
    | true =>
      have hneg := mathInt_int_eq_iff hdigits coarse (k := -n) (by rwa [Int.natAbs_neg])
      rw [if_pos rfl, if_pos rfl, neg_eq_iff_eq_neg, neg_eq_iff_eq_neg]
      exact hneg

end Whatspec.Library.Scripts

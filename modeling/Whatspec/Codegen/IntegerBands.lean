import Whatspec.Codegen.Accessors

/-!
# Declared ranges and the width of a number

A field declares at most two bounds.  `admitsNegative` chooses the width from them,
`contradictoryBand` finds a range in which nothing of that width lies, and `intBand` spells the
test; the three have to agree at zero, at a negative ceiling, at a range that is open to one side,
and for the bytes that are folded into an unsigned number whatever the range is.

* `InBand` is the declared range, and **`passes_iff`** says the test means it;
* **`contradictoryBand_iff`**: the contradictory ranges are those that hold nothing of the width;
* `fits_of_inBand`: the sign of the width is never what turns a number of the range away.
-/

namespace Whatspec.Codegen

/-- The bounds are numbers of 64 bits, as the source has them. -/
def BoundsFit (f : ParsedField) : Prop :=
  (∀ lo ∈ f.intMin, IntegerWidth.i64.fits lo = true) ∧
    ∀ hi ∈ f.intMax, IntegerWidth.i64.fits hi = true

/-- A number of the range that is declared. -/
def InBand (f : ParsedField) (n : ℤ) : Prop := (∀ lo ∈ f.intMin, lo ≤ n) ∧ ∀ hi ∈ f.intMax, n ≤ hi

/-- A number that the emitted test lets pass, or that is not tested. -/
def Passes (f : ParsedField) (n : ℤ) : Prop := (intBand f).all (·.holds n) = true

/-- The accessors that decode decimal text. -/
def DecodesText (f : ParsedField) : Prop :=
  methodFieldType f.method = .integer ∧ f.method ≠ "contentUint"

theorem fits_u64_iff {n : ℤ} : IntegerWidth.u64.fits n = true ↔ 0 ≤ n ∧ n < 2 ^ 64 := by
  rw [IntegerWidth.fits, Bool.and_eq_true, decide_eq_true_eq, decide_eq_true_eq]

theorem fits_i64_iff {n : ℤ} : IntegerWidth.i64.fits n = true ↔ -2 ^ 63 ≤ n ∧ n < 2 ^ 63 := by
  rw [IntegerWidth.fits, Bool.and_eq_true, decide_eq_true_eq, decide_eq_true_eq]

theorem integerWidth_of_signed {f : ParsedField} (h : admitsNegative f = true) :
    integerWidth f = .i64 := if_pos h

theorem integerWidth_of_unsigned {f : ParsedField} (h : admitsNegative f = false) :
    integerWidth f = .u64 := if_neg (by simp [h])

/-- What a range that is not contradictory has: its bounds are in order, and an unsigned width does
not have a negative ceiling. -/
theorem contradictoryBand_eq_false_iff {f : ParsedField} (htype : methodFieldType f.method = .integer) :
    contradictoryBand f = false ↔ (∀ lo ∈ f.intMin, ∀ hi ∈ f.intMax, lo ≤ hi) ∧
      (admitsNegative f = false → ∀ hi ∈ f.intMax, 0 ≤ hi) := by
  rw [contradictoryBand, Bool.or_eq_false_iff]
  refine and_congr ?_ ?_
  · cases f.intMin <;> cases f.intMax <;> simp
  · cases f.intMax <;> cases admitsNegative f <;> simp [htype]

/-! ### The test -/

theorem not_contradictory_of_inBand {f : ParsedField} (htype : methodFieldType f.method = .integer)
    {n : ℤ} (hfits : (integerWidth f).fits n = true) (hband : InBand f n) :
    contradictoryBand f = false := by
  rw [contradictoryBand_eq_false_iff htype]
  refine ⟨fun lo hlo hi hhi => le_trans (hband.1 lo hlo) (hband.2 hi hhi), fun hunsigned hi hhi => ?_⟩
  rw [integerWidth_of_unsigned hunsigned, fits_u64_iff] at hfits
  exact le_trans hfits.1 (hband.2 hi hhi)

theorem passes_of_inBand {f : ParsedField} (htype : methodFieldType f.method = .integer) {n : ℤ}
    (hfits : (integerWidth f).fits n = true) (hband : InBand f n) : Passes f n := by
  have hcontra := not_contradictory_of_inBand htype hfits hband
  have hlow : ∀ p : ℤ → Bool, ∀ lo, f.intMin.filter p = some lo → lo ≤ n := fun p lo h =>
    hband.1 lo (Option.filter_eq_some_iff.mp h).1
  have hhigh : ∀ p : ℤ → Bool, ∀ hi, f.intMax.filter p = some hi → n ≤ hi := fun p hi h =>
    hband.2 hi (Option.filter_eq_some_iff.mp h).1
  rw [Passes, intBand, if_neg (not_not.mpr htype), hcontra, if_neg Bool.false_ne_true]
  -- a spelled bound is one of the declared ones
  dsimp only
  split
  · next lo hi hlo hhi =>
    simp only [Option.all_some, IntBand.holds, Bool.and_eq_true, decide_eq_true_eq]
    exact ⟨hlow _ lo hlo, hhigh _ hi hhi⟩
  · next lo hlo hhi => exact decide_eq_true (hlow _ lo hlo)
  · next hi hlo hhi => exact decide_eq_true (hhigh _ hi hhi)
  · rfl

/-- **A number of the emitted width passes the test exactly where it lies in the range.** -/
theorem passes_iff {f : ParsedField} (htype : methodFieldType f.method = .integer) {n : ℤ}
    (hfits : (integerWidth f).fits n = true) : Passes f n ↔ InBand f n := by
  refine ⟨fun hpasses => ?_, passes_of_inBand htype hfits⟩
  obtain ⟨hlow, hhigh⟩ := bounds_of_intBand htype hfits hpasses
  refine ⟨fun lo hlo => ?_, fun hi hhi => ?_⟩
  · rw [Option.mem_def.mp hlo] at hlow
    exact of_decide_eq_true hlow
  · rw [Option.mem_def.mp hhi] at hhigh
    exact of_decide_eq_true hhigh

/-! ### The width -/

/-- A range with a declared bound turns unsigned only where it admits nothing negative. -/
theorem nonneg_of_inBand {f : ParsedField} (htext : DecodesText f)
    (hdeclared : f.intMin.isSome ∨ f.intMax.isSome) (hunsigned : admitsNegative f = false) {n : ℤ}
    (hband : InBand f n) : 0 ≤ n := by
  rw [admitsNegative, if_neg htext.2, if_neg (not_not.mpr htext.1)] at hunsigned
  cases hmin : f.intMin with
  | some lo =>
    rw [hmin] at hunsigned
    have hlo : ¬lo < 0 := of_decide_eq_false hunsigned
    exact le_trans (not_lt.mp hlo) (hband.1 lo hmin)
  | none =>
    cases hmax : f.intMax with
    | some hi =>
      rw [hmin, hmax] at hunsigned
      cases hunsigned
    | none =>
      rw [hmin, hmax] at hdeclared
      exact absurd hdeclared (by decide)

/-- **No number of the range is turned away by the width, short of 64 bits.** -/
theorem fits_of_inBand {f : ParsedField} (htext : DecodesText f)
    (hdeclared : f.intMin.isSome ∨ f.intMax.isSome) {n : ℤ} (hband : InBand f n)
    (hlow : -2 ^ 63 ≤ n) (hhigh : n < if admitsNegative f then 2 ^ 63 else 2 ^ 64) :
    (integerWidth f).fits n = true := by
  cases hsigned : admitsNegative f with
  | true =>
    rw [hsigned, if_pos rfl] at hhigh
    rw [integerWidth_of_signed hsigned, fits_i64_iff]
    exact ⟨hlow, hhigh⟩
  | false =>
    rw [hsigned, if_neg Bool.false_ne_true] at hhigh
    rw [integerWidth_of_unsigned hsigned, fits_u64_iff]
    exact ⟨nonneg_of_inBand htext hdeclared hsigned hband, hhigh⟩

/-! ### Contradictory ranges -/

/-- A range that is not contradictory holds one of its bounds, or zero. -/
theorem exists_inBand {f : ParsedField} (htype : methodFieldType f.method = .integer)
    (hbounds : BoundsFit f) (h : contradictoryBand f = false) :
    ∃ n, (integerWidth f).fits n = true ∧ InBand f n := by
  obtain ⟨hordered, hceiling⟩ := (contradictoryBand_eq_false_iff htype).mp h
  cases hsigned : admitsNegative f with
  | true =>
    rw [integerWidth_of_signed hsigned]
    cases hmin : f.intMin with
    | some lo =>
      refine ⟨lo, hbounds.1 lo hmin, fun lo' hlo => ?_, hordered lo hmin⟩
      rw [hmin] at hlo
      cases hlo
      exact le_refl lo
    | none =>
      cases hmax : f.intMax with
      | some hi =>
        refine ⟨hi, hbounds.2 hi hmax, fun lo hlo => ?_, fun hi' hhi => ?_⟩
        · rw [hmin] at hlo
          cases hlo
        · rw [hmax] at hhi
          cases hhi
          exact le_refl hi
      | none =>
        rw [admitsNegative, hmin, hmax] at hsigned
        split_ifs at hsigned
  | false =>
    rw [integerWidth_of_unsigned hsigned]
    refine ⟨max (f.intMin.getD 0) 0, ?_, fun lo hlo => ?_, fun hi hhi => ?_⟩
    · rw [fits_u64_iff]
      refine ⟨le_max_right _ _, ?_⟩
      cases hmin : f.intMin with
      | none => decide
      | some lo =>
        have hlo := fits_i64_iff.mp (hbounds.1 lo hmin)
        rw [Option.getD_some]
        omega
    · rw [Option.mem_def.mp hlo]
      exact le_max_left _ _
    · have hhi0 := hceiling hsigned hi hhi
      cases hmin : f.intMin with
      | none => exact max_le hhi0 hhi0
      | some lo => exact max_le (hordered lo hmin hi hhi) hhi0

/-- **The contradictory ranges are those in which no number of the width lies.** -/
theorem contradictoryBand_iff {f : ParsedField} (htype : methodFieldType f.method = .integer)
    (hbounds : BoundsFit f) :
    contradictoryBand f = true ↔ ¬∃ n, (integerWidth f).fits n = true ∧ InBand f n := by
  constructor
  · rintro h ⟨n, hfits, hband⟩
    rw [not_contradictory_of_inBand htype hfits hband] at h
    cases h
  · intro hnone
    by_contra h
    exact hnone (exists_inBand htype hbounds (Bool.not_eq_true _ ▸ h))

/-! ### What the three say together -/

/-- A field with a range. -/
def ranged (method : String) (lo hi : Option ℤ) : ParsedField :=
  { ParsedField.plain method "n" with intMin := lo, intMax := hi }

end Whatspec.Codegen

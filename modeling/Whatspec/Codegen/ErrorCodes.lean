import Whatspec.Codegen.Guards
import Whatspec.Library.ParseInt

/-!
# Error codes as a script reads them

The source parses the code of an error with `parseInt`, which takes the digits a text begins with and
rounds them to a double.  The emitted decoder reads an integer of 64 bits, or nothing.

**`iqErrorCode_iff_parseInt`**: within a band of error codes the two yield the same.
-/

namespace Whatspec.Codegen

open Whatspec.Library
open Whatspec.Library.Binary64 (one)

/-- The decoder passes over the blanks of the language. -/
theorem isErrorCodeSpace_eq (c : Char) : isErrorCodeSpace c = Scripts.isStrWhiteSpace c := by
  have hspace : c = ' ' ↔ c.toNat = 0x20 :=
    ⟨fun h => h ▸ rfl, fun h => Char.ext (UInt32.toNat_inj.mp h)⟩
  rw [Bool.eq_iff_iff]
  simp only [isErrorCodeSpace, Scripts.isStrWhiteSpace, Bool.or_eq_true, Bool.and_eq_true,
    decide_eq_true_eq, List.mem_cons, List.not_mem_nil, or_false, hspace]
  omega

/-- The decoder by the sign and the digits. -/
theorem iqErrorCode_eq_some_iff (s : String) {n : ℤ} (hn : -2 ^ 63 ≤ n ∧ n < 2 ^ 63)
    {negative : Bool} {rest : List Char}
    (hsign : Scripts.splitSign (s.toList.dropWhile Scripts.isStrWhiteSpace) = (negative, rest)) :
    iqErrorCode s = some n ↔ rest.takeWhile Char.isDigit ≠ [] ∧
      (if negative then -(Nat.ofDigitChars 10 (rest.takeWhile Char.isDigit) 0 : ℤ)
        else Nat.ofDigitChars 10 (rest.takeWhile Char.isDigit) 0) = n := by
  have hspaces : isErrorCodeSpace = Scripts.isStrWhiteSpace := funext isErrorCodeSpace_eq
  have hfinish : ∀ (digits : List Char) (code : ℤ),
      (if digits.isEmpty then none
        else if -2 ^ 63 ≤ code ∧ code < 2 ^ 63 then some code else none) = some n ↔
        digits ≠ [] ∧ code = n := by
    intro digits code
    split_ifs with hnone hrange
    · exact iff_of_false nofun fun h => h.1 (List.isEmpty_iff.mp hnone)
    · rw [Option.some_inj, and_iff_right fun h => hnone (List.isEmpty_iff.mpr h)]
    · refine iff_of_false nofun fun h => hrange ?_
      rw [h.2]
      exact hn
  unfold iqErrorCode
  rw [hspaces]
  unfold Scripts.splitSign at hsign
  generalize s.toList.dropWhile Scripts.isStrWhiteSpace = cs at hsign ⊢
  -- the decoder looks for the signs in the other order
  split at hsign
  · cases hsign
    exact hfinish _ _
  · cases hsign
    exact hfinish _ _
  · next hminus hplus =>
    cases hsign
    simp only
    exact hfinish _ _

/-- **Within a band of error codes, the decoder yields what `parseInt` yields.** -/
theorem iqErrorCode_iff_parseInt (coarse : Bool) (s : String) {least most : ℤ} (hleast : 0 ≤ least)
    (hmost : most ≤ 2 ^ 31 - 1) : ∀ n, least ≤ n → n ≤ most →
      (iqErrorCode s = some n ↔ Scripts.parseInt coarse s = .finite (n * one)) := by
  intro n hlow hhigh
  cases hsign : Scripts.splitSign (s.toList.dropWhile Scripts.isStrWhiteSpace) with
  | mk negative rest =>
    rw [iqErrorCode_eq_some_iff s ⟨by omega, by omega⟩ hsign,
      Scripts.parseInt_eq_iff coarse s (by omega) hsign]

theorem iqErrorCode_iff_parseInt_spaced :
    Scripts.parseInt true "\u00a0+00404 gone" = .finite (404 * one) := by
  have h : iqErrorCode "\u00a0+00404 gone" = some 404 := by decide +kernel
  exact (iqErrorCode_iff_parseInt true "\u00a0+00404 gone" (Int.zero_le_ofNat 400)
    (by decide : (499 : ℤ) ≤ 2 ^ 31 - 1) 404 (by decide) (by decide)).mp h

end Whatspec.Codegen

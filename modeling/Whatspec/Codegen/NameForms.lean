import Mathlib
import Whatspec.Codegen.Naming
import Whatspec.Library.SeparatedWords

/-!
# What the spelled names look like

* the letters and the digits of ASCII as intervals of code points;
* `marks` writes a separator where a word begins, and both boundaries are of that form:
  `camelBoundary_eq`, `acronymBoundary_eq`;
* **`snakeCase_toList`**: a field's name is the words of the marked text, joined and in lower case,
  so it has neither an underscore at an end nor a character that is no letter, digit or underscore.
-/

namespace Whatspec.Codegen

open Whatspec.Library

/-! ### Letters and digits -/

theorem char_le_iff {a b : Char} : a ≤ b ↔ a.toNat ≤ b.toNat := Iff.rfl

theorem isAsciiLower_iff {c : Char} : isAsciiLower c = true ↔ 97 ≤ c.toNat ∧ c.toNat ≤ 122 := by
  simp only [isAsciiLower, Bool.and_eq_true, decide_eq_true_eq, char_le_iff]
  exact Iff.rfl

theorem isAsciiUpper_iff {c : Char} : isAsciiUpper c = true ↔ 65 ≤ c.toNat ∧ c.toNat ≤ 90 := by
  simp only [isAsciiUpper, Bool.and_eq_true, decide_eq_true_eq, char_le_iff]
  exact Iff.rfl

theorem isAsciiDigit_iff {c : Char} : isAsciiDigit c = true ↔ 48 ≤ c.toNat ∧ c.toNat ≤ 57 := by
  simp only [isAsciiDigit, Bool.and_eq_true, decide_eq_true_eq, char_le_iff]
  exact Iff.rfl

theorem not_lower_of_upper {c : Char} (h : isAsciiUpper c = true) : isAsciiLower c = false := by
  by_contra hlower
  rw [isAsciiUpper_iff] at h
  rw [Bool.not_eq_false, isAsciiLower_iff] at hlower
  omega

theorem not_digit_of_upper {c : Char} (h : isAsciiUpper c = true) : isAsciiDigit c = false := by
  by_contra hdigit
  rw [isAsciiUpper_iff] at h
  rw [Bool.not_eq_false, isAsciiDigit_iff] at hdigit
  omega

theorem not_upper_of_lower {c : Char} (h : isAsciiLower c = true) : isAsciiUpper c = false := by
  by_contra hupper
  rw [not_lower_of_upper (by simpa using hupper)] at h
  cases h

/-! ### Boundaries as marks -/

/-- A separator before each character at which a word begins, by the characters beside it. -/
def marks (sep : Char) (starts : Option Char → Char → Option Char → Bool) (prev : Option Char) :
    List Char → List Char
  | [] => []
  | c :: cs =>
    (if starts prev c cs.head? then [sep, c] else [c]) ++ marks sep starts (some c) cs

def startsCamel (prev : Option Char) (c : Char) (_ : Option Char) : Bool :=
  prev.any (fun p => isAsciiLower p || isAsciiDigit p) && isAsciiUpper c

def startsAcronym (prev : Option Char) (c : Char) (next : Option Char) : Bool :=
  prev.any isAsciiUpper && isAsciiUpper c && next.any isAsciiLower

variable (sep : Char)

/-- The character before matters to the first character only. -/
theorem marks_congr {starts : Option Char → Char → Option Char → Bool} {prev prev' : Option Char}
    (h : ∀ c next, starts prev c next = starts prev' c next) :
    ∀ cs : List Char, marks sep starts prev cs = marks sep starts prev' cs
  | [] => rfl
  | c :: cs => by rw [marks, marks, h]

theorem camelBoundary_eq (cs : List Char) : camelBoundary sep cs = marks sep startsCamel none cs := by
  induction cs using camelBoundary.induct with
  | case1 a b cs hcond ih =>
    have hupper : isAsciiUpper b = true := (Bool.and_eq_true _ _ ▸ hcond).2
    have hforget : marks sep startsCamel (some b) cs = marks sep startsCamel none cs := by
      apply marks_congr
      intro c next
      simp [startsCamel, not_lower_of_upper hupper, not_digit_of_upper hupper]
    have hstarts : startsCamel (some a) b cs.head? = true := hcond
    rw [camelBoundary, if_pos hcond, ih, marks, marks, if_pos hstarts, hforget]
    rfl
  | case2 a b cs hcond ih =>
    have hstarts : ¬startsCamel (some a) b cs.head? = true := hcond
    rw [camelBoundary, if_neg hcond, ih, marks, marks, marks, if_neg hstarts]
    rfl
  | case3 cs hcs =>
    match cs with
    | [] => rfl
    | [a] => rfl
    | a :: b :: cs => exact absurd rfl (hcs a b cs)

theorem acronymBoundary_eq (cs : List Char) :
    acronymBoundary sep cs = marks sep startsAcronym none cs := by
  induction cs using acronymBoundary.induct with
  | case1 a b c cs hcond ih =>
    have hlower : isAsciiLower c = true := (Bool.and_eq_true _ _ ▸ hcond).2
    have hforget : marks sep startsAcronym (some c) cs = marks sep startsAcronym none cs := by
      apply marks_congr
      intro d next
      simp [startsAcronym, not_upper_of_lower hlower]
    have hthird : ¬startsAcronym (some b) c cs.head? = true := by
      simp [startsAcronym, not_upper_of_lower hlower]
    have hstarts : startsAcronym (some a) b (c :: cs).head? = true := hcond
    rw [acronymBoundary, if_pos hcond, ih, marks, marks, marks, if_pos hstarts, if_neg hthird,
      hforget]
    rfl
  | case2 a b c cs hcond ih =>
    have hstarts : ¬startsAcronym (some a) b (c :: cs).head? = true := hcond
    have hrest : marks sep startsAcronym (some a) (b :: c :: cs) =
        marks sep startsAcronym none (b :: c :: cs) := by
      rw [marks, if_neg hstarts]
      rfl
    rw [acronymBoundary, if_neg hcond, ih, ← hrest]
    rfl
  | case3 cs hcs =>
    match cs with
    | [] => rfl
    | [a] => rfl
    | [a, b] => simp [acronymBoundary, marks, startsAcronym]
    | a :: b :: c :: cs => exact absurd rfl (hcs a b c cs)

/-! ### The text that is folded -/

/-- One character of a name: the separator for what is no letter or digit. -/
def nameChar (c : Char) : Char := if isAsciiAlnum c then c else sep

/-- The text that is divided into words. -/
def nameText (s : String) : List Char :=
  (acronymBoundary sep (camelBoundary sep s.toList)).map (nameChar sep)

theorem nameWords_eq (s : String) : nameWords sep s = wordsOf sep (nameText sep s) := rfl

theorem snakeCase_toList (s : String) :
    (snakeCase s).toList = (joinedWords '_' (nameText '_' s)).map Char.toLower := by
  rw [snakeCase, String.toList_ofList, nameWords_eq]
  rfl

theorem mem_marks {starts : Option Char → Char → Option Char → Bool} {c : Char}
    (hsep : c ≠ sep) (cs : List Char) : ∀ prev, c ∈ marks sep starts prev cs ↔ c ∈ cs := by
  induction cs with
  | nil => exact fun prev => Iff.rfl
  | cons d cs ih =>
    intro prev
    rw [marks, List.mem_append, ih, List.mem_cons]
    split_ifs
    · simp [hsep]
    · simp

/-- What is left of a name are its letters and digits. -/
theorem mem_nameText {s : String} {c : Char} (hsep : isAsciiAlnum sep = false) :
    c ∈ nameText sep s ∧ c ≠ sep ↔ c ∈ s.toList ∧ isAsciiAlnum c = true := by
  have hmarked : ∀ d, isAsciiAlnum d = true →
      (d ∈ acronymBoundary sep (camelBoundary sep s.toList) ↔ d ∈ s.toList) := by
    intro d hd
    have hne : d ≠ sep := by
      rintro rfl
      rw [hd] at hsep
      cases hsep
    rw [acronymBoundary_eq, camelBoundary_eq, mem_marks sep hne, mem_marks sep hne]
  constructor
  · rintro ⟨hc, hne⟩
    obtain ⟨d, hd, rfl⟩ := List.mem_map.mp hc
    by_cases halnum : isAsciiAlnum d = true
    · rw [nameChar, if_pos halnum]
      exact ⟨(hmarked d halnum).mp hd, halnum⟩
    · rw [nameChar, if_neg halnum] at hne
      exact absurd rfl hne
  · rintro ⟨hc, halnum⟩
    refine ⟨List.mem_map.mpr ⟨c, (hmarked c halnum).mpr hc, by rw [nameChar, if_pos halnum]⟩, ?_⟩
    rintro rfl
    rw [halnum] at hsep
    cases hsep

/-- Whether a name has a letter or a digit. -/
theorem any_alnum_iff {s : String} (hsep : isAsciiAlnum sep = false) :
    s.toList.any isAsciiAlnum = true ↔ ¬∀ c ∈ nameText sep s, c = sep := by
  rw [List.any_eq_true]
  constructor
  · rintro ⟨c, hc, halnum⟩ hall
    obtain ⟨htext, hne⟩ := (mem_nameText sep hsep).mpr ⟨hc, halnum⟩
    exact hne (hall c htext)
  · intro hnot
    by_contra hnone
    refine hnot fun c hc => ?_
    by_contra hne
    obtain ⟨hmem, halnum⟩ := (mem_nameText sep hsep).mp ⟨hc, hne⟩
    exact hnone ⟨c, hmem, halnum⟩

/-! ### The characters of a field's name -/

/-- The characters that `snakeCase` leaves. -/
def isSnakeChar (c : Char) : Bool := isAsciiLower c || isAsciiDigit c || c = '_'

theorem toNat_toLower_of_upper {c : Char} (h : isAsciiUpper c = true) :
    c.toLower.toNat = c.toNat + 32 := by
  rw [isAsciiUpper_iff] at h
  have hval : c.val.toNat = c.toNat := rfl
  rw [Char.toLower, dif_pos ⟨h.1, h.2⟩]
  show (c.val + 32).toNat = c.toNat + 32
  rw [UInt32.toNat_add, hval]
  exact Nat.mod_eq_of_lt (by simp; omega)

theorem toLower_of_not_upper {c : Char} (h : isAsciiUpper c = false) : c.toLower = c := by
  rw [← Bool.not_eq_true, isAsciiUpper_iff] at h
  exact dif_neg fun hupper => h hupper

/-- What is written for a character, in lower case: an underscore only for an underscore. -/
theorem toLower_nameChar (c : Char) : isSnakeChar (nameChar '_' c).toLower = true ∧
    ((nameChar '_' c).toLower = '_' → nameChar '_' c = '_') := by
  by_cases halnum : isAsciiAlnum c = true
  · rw [nameChar, if_pos halnum]
    by_cases hupper : isAsciiUpper c = true
    · have hnat := toNat_toLower_of_upper hupper
      rw [isAsciiUpper_iff] at hupper
      have hlower : isAsciiLower c.toLower = true := isAsciiLower_iff.mpr (by omega)
      refine ⟨by simp [isSnakeChar, hlower], fun h => ?_⟩
      rw [h] at hlower
      exact absurd hlower (by decide)
    · rw [toLower_of_not_upper (Bool.eq_false_iff.mpr hupper)]
      refine ⟨?_, id⟩
      simp only [isAsciiAlnum, hupper, Bool.or_false] at halnum
      rw [isSnakeChar, halnum]
      rfl
  · rw [nameChar, if_neg halnum]
    exact ⟨by decide, fun _ => rfl⟩

theorem isSnakeChar_of_mem {s : String} {c : Char} (h : c ∈ (snakeCase s).toList) :
    isSnakeChar c = true := by
  rw [snakeCase_toList] at h
  obtain ⟨d, hd, rfl⟩ := List.mem_map.mp h
  rcases mem_joinedWords _ hd with rfl | hmem
  · decide
  · obtain ⟨e, -, rfl⟩ := List.mem_map.mp hmem
    exact (toLower_nameChar e).1

/-- A field's name has no underscore at an end. -/
theorem snakeCase_ends (s : String) :
    (snakeCase s).toList.head? ≠ some '_' ∧ (snakeCase s).toList.getLast? ≠ some '_' := by
  have hback : ∀ d ∈ joinedWords '_' (nameText '_' s), d.toLower = '_' → d = '_' := by
    intro d hd hlower
    rcases mem_joinedWords _ hd with rfl | hmem
    · rfl
    · obtain ⟨e, -, rfl⟩ := List.mem_map.mp hmem
      exact (toLower_nameChar e).2 hlower
  rw [snakeCase_toList, List.head?_map, List.getLast?_map]
  refine ⟨fun h => ?_, fun h => ?_⟩
  · obtain ⟨d, hd, hlower⟩ := Option.map_eq_some_iff.mp h
    rw [hback d (List.mem_of_head? hd) hlower] at hd
    exact head?_joinedWords _ _ hd
  · obtain ⟨d, hd, hlower⟩ := Option.map_eq_some_iff.mp h
    rw [hback d (List.mem_of_getLast? hd) hlower] at hd
    exact getLast?_joinedWords _ _ hd

/-! ### What an identifier is made of -/

/-- The ways a string becomes an identifier. -/
theorem ensureIdent_cases (s : String) :
    (s = "" ∧ ensureIdent s = "_") ∨
    (s.toList.head?.any isAsciiDigit = true ∧ ensureIdent s = "_" ++ s) ∨
    (s ∈ rawIneligible ∧ ensureIdent s = s ++ "_") ∨
    (s ∈ rustKeywords ∧ s ∉ rawIneligible ∧ ensureIdent s = "r#" ++ s) ∨
    (s ≠ "" ∧ s.toList.head?.any isAsciiDigit = false ∧ s ∉ rustKeywords ∧
      ensureIdent s = s) := by
  cases hs : s.toList with
  | nil =>
    have hempty : s = "" := String.toList_eq_nil_iff.mp hs
    subst hempty
    exact Or.inl ⟨rfl, by decide⟩
  | cons c cs =>
    have hne : s ≠ "" := by
      rintro rfl
      cases hs
    by_cases hdigit : isAsciiDigit c = true
    · have hfirst : ∀ k ∈ rawIneligible ++ rustKeywords, k.toList.head? ≠ some '_' := by decide
      have hmem : "_" ++ s ∉ rawIneligible ++ rustKeywords := fun h =>
        hfirst _ h (by rw [String.toList_append]; rfl)
      rw [List.mem_append, not_or] at hmem
      refine Or.inr (Or.inl ⟨hdigit, ?_⟩)
      simp only [ensureIdent, hs, hdigit, if_true, hmem.1, hmem.2, if_false]
    · by_cases hraw : s ∈ rawIneligible
      · refine Or.inr (Or.inr (Or.inl ⟨hraw, ?_⟩))
        simp only [ensureIdent, hs, hdigit, hraw, if_true, Bool.false_eq_true, if_false]
      · by_cases hkeyword : s ∈ rustKeywords
        · refine Or.inr (Or.inr (Or.inr (Or.inl ⟨hkeyword, hraw, ?_⟩)))
          simp only [ensureIdent, hs, hdigit, hraw, hkeyword, if_true, Bool.false_eq_true, if_false]
        · refine Or.inr (Or.inr (Or.inr (Or.inr
            ⟨hne, Bool.eq_false_iff.mpr hdigit, hkeyword, ?_⟩)))
          simp only [ensureIdent, hs, hdigit, hraw, hkeyword, Bool.false_eq_true, if_false]

/-- The name that an identifier was made of, for a name without an underscore at an end. -/
def plainName : List Char → List Char
  | 'r' :: '#' :: cs => cs
  | cs => trimmed '_' cs

/-- **An identifier tells the name that it was made of.** -/
theorem plainName_ensureIdent {s : String} (hhead : s.toList.head? ≠ some '_')
    (hlast : s.toList.getLast? ≠ some '_') (hhash : '#' ∉ s.toList) :
    plainName (ensureIdent s).toList = s.toList := by
  have hplain : ∀ cs : List Char, '#' ∉ cs → plainName cs = trimmed '_' cs := by
    intro cs hcs
    unfold plainName
    split
    · simp at hcs
    · rfl
  rcases ensureIdent_cases s with ⟨rfl, h⟩ | ⟨-, h⟩ | ⟨-, h⟩ | ⟨-, -, h⟩ | ⟨-, -, -, h⟩
  · decide
  · rw [h, String.toList_append, hplain _ (by simp [hhash])]
    show trimmed '_' ('_' :: s.toList) = _
    exact trimmed_cons '_' hhead hlast
  · rw [h, String.toList_append, hplain _ (by simp [hhash])]
    show trimmed '_' (s.toList ++ ['_']) = _
    rw [trimmed_concat, trimmed_eq_self '_' hhead hlast]
  · rw [h, String.toList_append]
    rfl
  · rw [h, hplain _ hhash, trimmed_eq_self '_' hhead hlast]

end Whatspec.Codegen

import Whatspec.Codegen.NameForms
import Whatspec.Library.FreshNames
import Whatspec.Library.Rendering

/-!
# Which names are identifiers of Rust

`ensureIdent` is given arbitrary strings, from the names of a bundle.  What comes out is compared
with what the language takes for an identifier.

* `IdentChars` are the characters that begin and continue an identifier; those of ASCII are fixed,
  the others are left to the tables of Unicode;
* `Spellable` is the condition on a string, **`isIdentifier_ensureIdent`**: a leading digit and the
  listed reserved words are dealt with, but neither the empty string nor `try` and `gen`, and a
  string with other characters stays as it is;
* `uniqueIdent` numbers a name that is used already, so that names always differ
  (`nodup_uniqueIdents`), and **`generatedIdents_exact`** says for all four functions when what they
  give is an identifier.
-/

namespace Whatspec.Codegen

open Whatspec.Library

/-! ### Identifiers of the language -/

/-- The characters that may begin an identifier, and those that may stand in one. -/
structure IdentChars where
  starts : Char → Bool
  continues : Char → Bool
  starts_ascii : ∀ c, c.toNat < 128 → starts c = (isAsciiLower c || isAsciiUpper c)
  continues_ascii : ∀ c, c.toNat < 128 → continues c = (isAsciiAlnum c || c = '_')
  continues_of_starts : ∀ c, starts c = true → continues c = true

/-- The identifiers of ASCII. -/
def asciiIdent : IdentChars where
  starts c := isAsciiLower c || isAsciiUpper c
  continues c := isAsciiAlnum c || c = '_'
  starts_ascii _ _ := rfl
  continues_ascii _ _ := rfl
  continues_of_starts c h := by
    simp only [isAsciiAlnum]
    rw [h]
    rfl

/-- The reserved words of edition 2024, in which the generated code is compiled. -/
def reservedWords : List String := rustKeywords ++ ["try", "gen"]

namespace IdentChars

variable (u : IdentChars)

/-- A keyword or an identifier: a lone underscore is neither. -/
def word : List Char → Bool
  | [] => false
  | c :: cs => (u.starts c || (c = '_' && cs ≠ [])) && (c :: cs).all u.continues

/-- A raw identifier. -/
def raw : List Char → Bool
  | 'r' :: '#' :: cs => u.word cs && String.ofList cs ∉ rawIneligible
  | _ => false

/-- What may be the name of a field or of a type. -/
def isIdentifier (s : String) : Bool :=
  (u.word s.toList && s ∉ reservedWords) || u.raw s.toList

end IdentChars

/-- A string with an underscore where it is empty or begins with a digit. -/
def underscored (s : String) : String :=
  if s = "" then "_" else if s.toList.head?.any isAsciiDigit then "_" ++ s else s

/-- The strings of which an identifier is made: those spelled like a word that is not one of the two
reserved words that are not listed, or like a raw identifier. -/
def IdentChars.Spellable (u : IdentChars) (s : String) : Prop :=
  (u.word (underscored s).toList = true ∧ underscored s ∉ ["try", "gen"]) ∨
    u.raw (underscored s).toList = true

/-! ### Words of ASCII -/

section
variable (u : IdentChars)

/-- A word of ASCII, by its letters alone. -/
def asciiWord (cs : List Char) : Bool := asciiIdent.word cs && cs.all fun c => c.toNat < 128

theorem word_of_asciiWord {cs : List Char} (h : asciiWord cs = true) : u.word cs = true := by
  obtain ⟨hword, hascii⟩ := Bool.and_eq_true_iff.mp h
  rw [List.all_eq_true] at hascii
  have hcontinues : ∀ c ∈ cs, u.continues c = asciiIdent.continues c := fun c hc =>
    u.continues_ascii c (by simpa using hascii c hc)
  cases cs with
  | nil => cases hword
  | cons c cs =>
    have hstarts : u.starts c = asciiIdent.starts c :=
      u.starts_ascii c (by simpa using hascii c List.mem_cons_self)
    have hall : (c :: cs).all u.continues = (c :: cs).all asciiIdent.continues := by
      rw [Bool.eq_iff_iff, List.all_eq_true, List.all_eq_true]
      exact forall₂_congr fun d hd => by rw [hcontinues d hd]
    rw [IdentChars.word, hstarts, hall]
    exact hword

theorem word_reserved {s : String} (h : s ∈ rustKeywords) : u.word s.toList = true := by
  have hall : ∀ k ∈ rustKeywords, asciiWord k.toList = true := by decide
  exact word_of_asciiWord u (hall s h)

theorem hash_mem_raw {cs : List Char} (h : u.raw cs = true) : '#' ∈ cs := by
  unfold IdentChars.raw at h
  split at h
  · simp
  · cases h

/-! ### Identifiers that are made of a string -/

theorem isIdentifier_of_not_listed {s : String} (h : s ∉ rustKeywords) :
    u.isIdentifier s = true ↔
      (u.word s.toList = true ∧ s ∉ ["try", "gen"]) ∨ u.raw s.toList = true := by
  rw [IdentChars.isIdentifier, Bool.or_eq_true, Bool.and_eq_true, decide_eq_true_eq, reservedWords,
    List.mem_append]
  simp only [h, false_or]

/-- **What is made of a string is an identifier exactly where the string is spelled like one.** -/
theorem isIdentifier_ensureIdent (s : String) :
    u.isIdentifier (ensureIdent s) = true ↔ u.Spellable s := by
  rcases ensureIdent_cases s with ⟨rfl, h⟩ | ⟨hdigit, h⟩ | ⟨hraw, h⟩ | ⟨hlisted, hraw, h⟩ |
    ⟨hne, hdigit, hlisted, h⟩
  · rw [h, isIdentifier_of_not_listed u (by decide)]
    rfl
  · have hne : s ≠ "" := by
      rintro rfl
      cases hdigit
    have hunder : underscored s = "_" ++ s := by
      rw [underscored, if_neg hne, if_pos hdigit]
    have hfirst : ∀ k ∈ rustKeywords, k.toList.head? ≠ some '_' := by decide
    have hlisted : "_" ++ s ∉ rustKeywords := fun hmem =>
      hfirst _ hmem (by rw [String.toList_append]; rfl)
    rw [h, isIdentifier_of_not_listed u hlisted, IdentChars.Spellable, hunder]
  · have hforms : ∀ k ∈ rawIneligible, asciiWord (k ++ "_").toList = true ∧
        k ++ "_" ∉ reservedWords ∧ k ∈ rustKeywords ∧ underscored k = k ∧
        k ∉ ["try", "gen"] := by decide
    obtain ⟨hword, hfree, hlisted, hunder, htry⟩ := hforms s hraw
    rw [h, IdentChars.Spellable, hunder]
    refine iff_of_true ?_ (Or.inl ⟨word_reserved u hlisted, htry⟩)
    rw [IdentChars.isIdentifier, word_of_asciiWord u hword, decide_eq_true hfree]
    rfl
  · have hforms : ∀ k ∈ rustKeywords, underscored k = k ∧ k ∉ ["try", "gen"] := by decide
    obtain ⟨hunder, htry⟩ := hforms s hlisted
    rw [h, IdentChars.Spellable, hunder]
    refine iff_of_true ?_ (Or.inl ⟨word_reserved u hlisted, htry⟩)
    have hform : u.raw ("r#" ++ s).toList = (u.word s.toList && decide (s ∉ rawIneligible)) := by
      rw [String.toList_append]
      show (u.word s.toList && decide (String.ofList s.toList ∉ rawIneligible)) = _
      rw [String.ofList_toList]
    rw [IdentChars.isIdentifier, hform, word_reserved u hlisted, decide_eq_true hraw]
    exact Bool.or_true _
  · have hunder : underscored s = s := by
      rw [underscored, if_neg hne, if_neg (by simp [hdigit])]
    rw [h, isIdentifier_of_not_listed u hlisted, IdentChars.Spellable, hunder]

/-! ### Spelled names -/

theorem not_word_underscore : u.word "_".toList = false := by
  have hstarts : u.starts '_' = false := u.starts_ascii '_' (by decide)
  show u.word ['_'] = false
  simp [IdentChars.word, hstarts]

/-- Letters and digits, after a first one that is a letter, are a word. -/
theorem word_cons {c : Char} {cs : List Char} (hfirst : isAsciiLower c || isAsciiUpper c)
    (h : ∀ d ∈ c :: cs, isAsciiAlnum d = true ∨ d = '_') (hascii : ∀ d ∈ c :: cs, d.toNat < 128) :
    u.word (c :: cs) = true := by
  rw [IdentChars.word, u.starts_ascii c (hascii c List.mem_cons_self), hfirst, Bool.true_or,
    Bool.true_and, List.all_eq_true]
  intro d hd
  rw [u.continues_ascii d (hascii d hd), Bool.or_eq_true, decide_eq_true_eq]
  exact h d hd

/-- So are letters and digits after an underscore. -/
theorem word_underscore {cs : List Char} (hne : cs ≠ [])
    (h : ∀ d ∈ cs, isAsciiAlnum d = true ∨ d = '_') (hascii : ∀ d ∈ cs, d.toNat < 128) :
    u.word ('_' :: cs) = true := by
  have hunder : (u.starts '_' || ('_' = '_' && cs ≠ [])) = true := by simp [hne]
  rw [IdentChars.word, hunder, Bool.true_and, List.all_eq_true]
  intro d hd
  rcases List.mem_cons.mp hd with rfl | hd
  · rw [u.continues_ascii '_' (by decide)]
    decide
  · rw [u.continues_ascii d (hascii d hd), Bool.or_eq_true, decide_eq_true_eq]
    exact h d hd

theorem toNat_lt_of_name {c : Char} (h : isAsciiAlnum c = true ∨ c = '_') : c.toNat < 128 := by
  rcases h with h | rfl
  · simp only [isAsciiAlnum, Bool.or_eq_true, isAsciiLower_iff, isAsciiUpper_iff,
      isAsciiDigit_iff] at h
    omega
  · decide

/-- A name of letters, digits and underscores that begins with no underscore: only the empty one
and the two words are not spellable. -/
theorem spellable_iff_of_name {s : String}
    (h : ∀ d ∈ s.toList, isAsciiAlnum d = true ∨ d = '_') (hhead : s.toList.head? ≠ some '_') :
    u.Spellable s ↔ s ≠ "" ∧ s ∉ ["try", "gen"] := by
  have hhash : ∀ t : String, (∀ d ∈ t.toList, isAsciiAlnum d = true ∨ d = '_') →
      ¬u.raw t.toList = true := fun t ht hraw => by
    rcases ht '#' (hash_mem_raw u hraw) with hd | hd <;> revert hd <;> decide
  have hascii : ∀ d ∈ s.toList, d.toNat < 128 := fun d hd => toNat_lt_of_name (h d hd)
  by_cases hempty : s = ""
  · subst hempty
    refine iff_of_false ?_ fun h => h.1 rfl
    rintro (⟨hword, -⟩ | hraw)
    · rw [show underscored "" = "_" from rfl, not_word_underscore] at hword
      cases hword
    · cases hraw
  · obtain ⟨c, cs, hs⟩ : ∃ c cs, s.toList = c :: cs := by
      cases hs : s.toList with
      | nil => exact absurd (String.toList_eq_nil_iff.mp hs) hempty
      | cons c cs => exact ⟨c, cs, rfl⟩
    by_cases hdigit : s.toList.head?.any isAsciiDigit = true
    · have hunder : underscored s = "_" ++ s := by
        rw [underscored, if_neg hempty, if_pos hdigit]
      have hlist : ("_" ++ s).toList = '_' :: s.toList := String.toList_append
      have hword : u.word ("_" ++ s).toList = true := by
        rw [hlist]
        exact word_underscore u (by simp [hs]) h hascii
      have hnot : "_" ++ s ∉ ["try", "gen"] := fun hmem => by
        have hfirst : ∀ k ∈ ["try", "gen"], k.toList.head? ≠ some '_' := by decide
        exact hfirst _ hmem (by rw [hlist]; rfl)
      have hnot' : s ∉ ["try", "gen"] := fun hmem => by
        have hfirst : ∀ k ∈ ["try", "gen"], k.toList.head?.any isAsciiDigit = false := by decide
        rw [hfirst s hmem] at hdigit
        cases hdigit
      rw [IdentChars.Spellable, hunder]
      exact iff_of_true (Or.inl ⟨hword, hnot⟩) ⟨hempty, hnot'⟩
    · have hunder : underscored s = s := by
        rw [underscored, if_neg hempty, if_neg hdigit]
      have hletter : isAsciiLower c || isAsciiUpper c := by
        rw [hs] at hdigit hhead
        rcases h c (hs ▸ List.mem_cons_self) with hc | rfl
        · rw [isAsciiAlnum, Bool.or_eq_true] at hc
          exact hc.resolve_right hdigit
        · exact absurd rfl hhead
      have hword : u.word s.toList = true := by
        rw [hs] at h hascii ⊢
        exact word_cons u hletter h hascii
      rw [IdentChars.Spellable, hunder]
      have hraw : u.raw s.toList = false := Bool.eq_false_iff.mpr (hhash s h)
      rw [hword, hraw]
      simp [hempty]

theorem alnum_of_isSnakeChar {c : Char} (h : isSnakeChar c = true) :
    isAsciiAlnum c = true ∨ c = '_' := by
  simp only [isSnakeChar, isAsciiAlnum, Bool.or_eq_true, decide_eq_true_eq] at *
  tauto

theorem snakeCase_ne_empty_iff (s : String) :
    snakeCase s ≠ "" ↔ s.toList.any isAsciiAlnum = true := by
  rw [any_alnum_iff '_' (by decide), ← joinedWords_eq_nil_iff, ne_eq, ← String.toList_eq_nil_iff,
    snakeCase_toList, List.map_eq_nil_iff]

/-- **A field's name is an identifier where the name has a letter or a digit and is not one of the
two words.** -/
theorem isIdentifier_rustIdent (s : String) : u.isIdentifier (rustIdent s) = true ↔
    s.toList.any isAsciiAlnum = true ∧ snakeCase s ∉ ["try", "gen"] := by
  rw [rustIdent, isIdentifier_ensureIdent, spellable_iff_of_name u
    (fun d hd => alnum_of_isSnakeChar (isSnakeChar_of_mem hd)) (snakeCase_ends s).1,
    snakeCase_ne_empty_iff]

/-! ### Types and variants -/

theorem toNat_toUpper_of_lower {c : Char} (h : isAsciiLower c = true) :
    c.toUpper.toNat = c.toNat - 32 := by
  rw [isAsciiLower_iff] at h
  have hval : c.val.toNat = c.toNat := rfl
  rw [Char.toUpper, dif_pos ⟨h.1, h.2⟩]
  show (c.val + ('A'.val - 'a'.val)).toNat = c.toNat - 32
  rw [UInt32.toNat_add, hval, show ('A'.val - 'a'.val).toNat = 4294967264 by decide]
  omega

theorem toUpper_of_not_lower {c : Char} (h : isAsciiLower c = false) : c.toUpper = c := by
  rw [← Bool.not_eq_true, isAsciiLower_iff] at h
  exact dif_neg fun hlower => h hlower

/-- A word of a type begins with a capital or a digit. -/
theorem toUpper_of_alnum {c : Char} (h : isAsciiAlnum c = true) :
    (isAsciiUpper c.toUpper || isAsciiDigit c.toUpper) = true := by
  by_cases hlower : isAsciiLower c = true
  · have hnat := toNat_toUpper_of_lower hlower
    rw [isAsciiLower_iff] at hlower
    have hupper : isAsciiUpper c.toUpper = true := isAsciiUpper_iff.mpr (by omega)
    rw [hupper, Bool.true_or]
  · rw [toUpper_of_not_lower (Bool.eq_false_iff.mpr hlower)]
    rw [isAsciiAlnum, Bool.eq_false_iff.mpr hlower, Bool.false_or] at h
    exact h

/-- The text of a type's name. -/
theorem pascal_text (s : String) :
    (∀ d ∈ (nameWords ' ' s).flatMap capitalized, isAsciiAlnum d = true) ∧
    (∀ d, ((nameWords ' ' s).flatMap capitalized).head? = some d →
      (isAsciiUpper d || isAsciiDigit d) = true) ∧
    ((nameWords ' ' s).flatMap capitalized ≠ [] ↔ s.toList.any isAsciiAlnum = true) := by
  have hmem : ∀ w ∈ nameWords ' ' s, w ≠ [] ∧ ∀ c ∈ w, isAsciiAlnum c = true := by
    intro w hw
    obtain ⟨hne, hall⟩ := mem_wordsOf ' ' hw
    exact ⟨hne, fun c hc => ((mem_nameText ' ' (by decide)).mp (hall c hc)).2⟩
  have hupper : ∀ c, isAsciiAlnum c = true → isAsciiAlnum c.toUpper = true := by
    intro c hc
    have h := toUpper_of_alnum hc
    rw [isAsciiAlnum, Bool.or_assoc, h, Bool.or_true]
  have hcapital : ∀ w ∈ nameWords ' ' s, ∃ c cs, capitalized w = c :: cs ∧
      (isAsciiUpper c || isAsciiDigit c) = true ∧ ∀ d ∈ c :: cs, isAsciiAlnum d = true := by
    intro w hw
    obtain ⟨hne, hall⟩ := hmem w hw
    cases w with
    | nil => exact absurd rfl hne
    | cons c cs =>
      rw [List.forall_mem_cons] at hall
      exact ⟨c.toUpper, cs, rfl, toUpper_of_alnum hall.1,
        List.forall_mem_cons.mpr ⟨hupper c hall.1, hall.2⟩⟩
  refine ⟨fun d hd => ?_, fun d hd => ?_, ?_⟩
  · obtain ⟨w, hw, hd⟩ := List.mem_flatMap.mp hd
    obtain ⟨c, cs, heq, -, hall⟩ := hcapital w hw
    exact hall d (heq ▸ hd)
  · cases hwords : nameWords ' ' s with
    | nil =>
      rw [hwords] at hd
      cases hd
    | cons w ws =>
      obtain ⟨c, cs, heq, hfirst, -⟩ := hcapital w (hwords ▸ List.mem_cons_self)
      rw [hwords, List.flatMap_cons, heq] at hd
      cases hd
      exact hfirst
  · rw [any_alnum_iff ' ' (by decide), ← wordsOf_eq_nil_iff, ← nameWords_eq, ne_eq, not_iff_not]
    constructor
    · intro hnil
      by_contra hwords
      obtain ⟨w, hw⟩ := List.exists_mem_of_ne_nil _ hwords
      obtain ⟨c, cs, heq, -⟩ := hcapital w hw
      rw [List.flatMap_eq_nil_iff] at hnil
      rw [hnil w hw] at heq
      cases heq
    · intro hwords
      rw [hwords]
      rfl

/-- **A type's name is an identifier where the name has a letter or a digit.** -/
theorem isIdentifier_pascalCase (s : String) :
    u.isIdentifier (pascalCase s) = true ↔ s.toList.any isAsciiAlnum = true := by
  obtain ⟨hall, hfirst, hne⟩ := pascal_text s
  have hhead : ((nameWords ' ' s).flatMap capitalized).head? ≠ some '_' := fun h =>
    absurd (hfirst '_' h) (by decide)
  have hnot : String.ofList ((nameWords ' ' s).flatMap capitalized) ∉ ["try", "gen"] := by
    intro hmem
    have hlower : ∀ k ∈ ["try", "gen"],
        k.toList.head?.any (fun d => isAsciiUpper d || isAsciiDigit d) = false ∧
          k.toList.head? ≠ none := by decide
    obtain ⟨hnone, hsome⟩ := hlower _ hmem
    rw [String.toList_ofList] at hnone hsome
    obtain ⟨d, hd⟩ := Option.ne_none_iff_exists'.mp hsome
    rw [hd, Option.any_some, hfirst d hd] at hnone
    cases hnone
  rw [pascalCase, isIdentifier_ensureIdent, spellable_iff_of_name u
    (by rw [String.toList_ofList]; exact fun d hd => Or.inl (hall d hd))
    (by rw [String.toList_ofList]; exact hhead), ← hne, ne_eq, ← String.toList_eq_nil_iff,
    String.toList_ofList]
  exact and_iff_left hnot

end

/-! ### Unique names -/

/-- A numbered name. -/
def withSuffix (name : String) (n : ℕ) : String := name ++ "_" ++ toString n

def uniqueIdent (base : String) (used : List String) (fallbackPrefix : String) :
    String × List String :=
  let name := if base = "" then ensureIdent fallbackPrefix else ensureIdent base
  let unique :=
    if name ∈ used then firstFreeFrom used (withSuffix name) used.length 2 else name
  (unique, used ++ [unique])

/-- The names of a sequence over one set of used names. -/
def uniqueIdents (used : List String) : List (String × String) → List String
  | [] => []
  | (base, fallbackPrefix) :: rest =>
    let (name, used) := uniqueIdent base used fallbackPrefix
    name :: uniqueIdents used rest

theorem toList_withSuffix (name : String) (n : ℕ) :
    (withSuffix name n).toList = name.toList ++ '_' :: Nat.toDigits 10 n := by
  rw [withSuffix, String.toList_append, String.toList_append, List.append_assoc]
  exact congrArg (name.toList ++ '_' :: ·) String.toList_ofList

theorem withSuffix_injective (name : String) : Function.Injective (withSuffix name) := by
  intro m n h
  have hlist := congrArg String.toList h
  rw [toList_withSuffix, toList_withSuffix] at hlist
  have hdigits := (List.cons.inj (List.append_cancel_left hlist)).2
  exact Rendering.toDigits_injective (by decide) (by decide) hdigits

theorem uniqueIdent_not_mem (base : String) (used : List String) (fallbackPrefix : String) :
    (uniqueIdent base used fallbackPrefix).1 ∉ used := by
  simp only [uniqueIdent]
  split_ifs with hbase hused hused
  · exact firstFreeFrom_not_mem _ _ (exists_free (withSuffix_injective _) _)
  · exact hused
  · exact firstFreeFrom_not_mem _ _ (exists_free (withSuffix_injective _) _)
  · exact hused

theorem not_mem_of_mem_uniqueIdents (names : List (String × String)) :
    ∀ used : List String, ∀ x ∈ uniqueIdents used names, x ∉ used := by
  induction names with
  | nil =>
    intro used x hx
    cases hx
  | cons name names ih =>
    intro used x hx
    cases hx with
    | head => exact uniqueIdent_not_mem name.1 used name.2
    | tail _ hx => exact fun hmem => ih _ x hx (List.mem_append_left _ hmem)

/-- **Names over one set of used names differ from one another.** -/
theorem nodup_uniqueIdents (names : List (String × String)) :
    ∀ used : List String, (uniqueIdents used names).Nodup := by
  induction names with
  | nil => exact fun used => List.nodup_nil
  | cons name names ih =>
    intro used
    refine List.nodup_cons.mpr ⟨fun hmem => ?_, ih _⟩
    exact not_mem_of_mem_uniqueIdents names _ _ hmem
      (List.mem_append_right _ List.mem_cons_self)

/-! ### Numbered names as identifiers -/

namespace IdentChars

variable (u : IdentChars)

/-- What may stand before an underscore and a number. -/
def before (cs : List Char) : Bool :=
  cs.head?.all (fun c => u.starts c || c = '_') && cs.all u.continues

/-- The strings that become an identifier when they are numbered. -/
def suffixable (s : String) : Bool :=
  u.before s.toList ||
    match s.toList with
    | 'r' :: '#' :: cs => u.before cs
    | _ => false

end IdentChars

section
variable (u : IdentChars)

theorem before_of_word {cs : List Char} (h : u.word cs = true) : u.before cs = true := by
  cases cs with
  | nil => cases h
  | cons c cs =>
    obtain ⟨hstarts, hall⟩ := Bool.and_eq_true_iff.mp h
    have hfirst : (u.starts c || c = '_') = true := by
      rcases Bool.or_eq_true_iff.mp hstarts with hc | hc
      · rw [hc, Bool.true_or]
      · rw [(Bool.and_eq_true_iff.mp hc).1, Bool.or_true]
    rw [IdentChars.before, hall, List.head?_cons, Option.all_some, hfirst]
    rfl

/-- A number is not empty, and its digits continue a word. -/
theorem continues_number (n : ℕ) :
    Nat.toDigits 10 n ≠ [] ∧ ∀ c ∈ Nat.toDigits 10 n, u.continues c = true := by
  refine ⟨List.ne_nil_of_length_pos Nat.length_toDigits_pos, fun c hc => ?_⟩
  have hdigit : isAsciiDigit c = true := Nat.isDigit_of_mem_toDigits (by decide) (by decide) hc
  have halnum : isAsciiAlnum c = true := by rw [isAsciiAlnum, hdigit, Bool.or_true]
  rw [u.continues_ascii c (toNat_lt_of_name (Or.inl halnum)), halnum, Bool.true_or]

theorem word_numbered (cs : List Char) (n : ℕ) :
    u.word (cs ++ '_' :: Nat.toDigits 10 n) = u.before cs := by
  obtain ⟨hne, hall⟩ := continues_number u n
  have hdigits : (Nat.toDigits 10 n).all u.continues = true := List.all_eq_true.mpr hall
  have hunder : u.continues '_' = true := u.continues_ascii '_' (by decide)
  cases cs with
  | nil => simp [IdentChars.word, IdentChars.before, hne, hdigits, hunder]
  | cons c cs =>
    simp [IdentChars.word, IdentChars.before, hdigits, hunder]

theorem underscore_mem_numbered (cs : List Char) (n : ℕ) :
    '_' ∈ cs ++ '_' :: Nat.toDigits 10 n :=
  List.mem_append_right _ List.mem_cons_self

theorem isIdentifier_withSuffix (s : String) (n : ℕ) :
    u.isIdentifier (withSuffix s n) = u.suffixable s := by
  have hfree : withSuffix s n ∉ reservedWords := by
    have hnone : ∀ k ∈ reservedWords, '_' ∉ k.toList := by decide
    exact fun hmem => hnone _ hmem (toList_withSuffix s n ▸ underscore_mem_numbered s.toList n)
  have hraw : u.raw (withSuffix s n).toList =
      match s.toList with
      | 'r' :: '#' :: cs => u.before cs
      | _ => false := by
    rw [toList_withSuffix]
    split
    · next cs hs =>
      have hnot : String.ofList (cs ++ '_' :: Nat.toDigits 10 n) ∉ rawIneligible := by
        have hnone : ∀ k ∈ rawIneligible, '_' ∉ k.toList := by decide
        intro hmem
        apply hnone _ hmem
        rw [String.toList_ofList]
        exact underscore_mem_numbered cs n
      rw [hs]
      show (u.word (cs ++ '_' :: Nat.toDigits 10 n) &&
        decide (String.ofList (cs ++ '_' :: Nat.toDigits 10 n) ∉ rawIneligible)) = _
      rw [word_numbered, decide_eq_true hnot, Bool.and_true]
    · next hs =>
      unfold IdentChars.raw
      split
      · next ds hds =>
        match s.toList, hs, hds with
        | [], _, hds => cases hds
        | [c], _, hds => cases hds
        | c :: d :: cs, hs, hds =>
          cases hds
          exact absurd rfl (hs cs)
      · rfl
  rw [IdentChars.isIdentifier, IdentChars.suffixable, hraw, toList_withSuffix, word_numbered,
    decide_eq_true hfree, Bool.and_true]

theorem suffixable_of_isIdentifier {s : String} (h : u.isIdentifier s = true) :
    u.suffixable s = true := by
  rcases Bool.or_eq_true_iff.mp h with hword | hraw
  · rw [IdentChars.suffixable, before_of_word u (Bool.and_eq_true_iff.mp hword).1, Bool.true_or]
  · unfold IdentChars.raw at hraw
    unfold IdentChars.suffixable
    split at hraw
    · rw [before_of_word u (Bool.and_eq_true_iff.mp hraw).1, Bool.or_true]
    · cases hraw

/-! ### Sequences of names -/

/-- What a name is made of. -/
def wanted (base fallbackPrefix : String) : String := if base = "" then fallbackPrefix else base

/-- The names of a sequence that are identifiers: those of spellable strings, and a string that is
used before any of them and becomes an identifier when it is numbered. -/
def IdentChars.Nameable (used : List String) (name : String × String) : Prop :=
  let s := wanted name.1 name.2
  u.Spellable s ∨ (underscored s ∈ used ∧ u.suffixable (underscored s) = true)

theorem ensureIdent_of_not_spellable {s : String} (h : ¬u.Spellable s) :
    ensureIdent s = underscored s := by
  have hlisted : s ∉ rustKeywords := by
    intro hmem
    have hforms : ∀ k ∈ rustKeywords, underscored k = k ∧ k ∉ ["try", "gen"] := by decide
    obtain ⟨hunder, htry⟩ := hforms s hmem
    refine h (Or.inl ?_)
    rw [hunder]
    exact ⟨word_reserved u hmem, htry⟩
  have hraw : ∀ k ∈ rawIneligible, k ∈ rustKeywords := by decide
  rcases ensureIdent_cases s with ⟨rfl, heq⟩ | ⟨hdigit, heq⟩ | ⟨hmem, -⟩ | ⟨hmem, -⟩ |
    ⟨hne, hdigit, -, heq⟩
  · exact heq
  · have hne : s ≠ "" := by
      rintro rfl
      cases hdigit
    rw [heq, underscored, if_neg hne, if_pos hdigit]
  · exact absurd (hraw s hmem) hlisted
  · exact absurd hmem hlisted
  · rw [heq, underscored, if_neg hne, if_neg (by simp [hdigit])]

theorem uniqueIdent_eq (base : String) (used : List String) (fallbackPrefix : String) :
    let name := ensureIdent (wanted base fallbackPrefix)
    (name ∉ used ∧ (uniqueIdent base used fallbackPrefix).1 = name) ∨
      (name ∈ used ∧ ∃ k, (uniqueIdent base used fallbackPrefix).1 = withSuffix name k) := by
  intro name
  have hname : (if base = "" then ensureIdent fallbackPrefix else ensureIdent base) = name :=
    (apply_ite ensureIdent (base = "") fallbackPrefix base).symm
  simp only [uniqueIdent, hname]
  by_cases hused : name ∈ used
  · obtain ⟨k, -, hk⟩ := exists_firstFreeFrom used (withSuffix name) used.length 2
    exact Or.inr ⟨hused, k, by rw [if_pos hused, hk]⟩
  · exact Or.inl ⟨hused, by rw [if_neg hused]⟩

/-- One name of a sequence, while the names before it are identifiers. -/
theorem isIdentifier_uniqueIdent {used named : List String}
    (hnamed : ∀ x ∈ named, u.isIdentifier x = true) (name : String × String) :
    u.isIdentifier (uniqueIdent name.1 (used ++ named) name.2).1 = true ↔
      u.Nameable used name := by
  have hcases := uniqueIdent_eq name.1 (used ++ named) name.2
  by_cases hspell : u.Spellable (wanted name.1 name.2)
  · refine iff_of_true ?_ (Or.inl hspell)
    have hname := (isIdentifier_ensureIdent u _).mpr hspell
    rcases hcases with ⟨-, heq⟩ | ⟨-, k, heq⟩
    · rw [heq, hname]
    · rw [heq, isIdentifier_withSuffix, suffixable_of_isIdentifier u hname]
  · have hname : ¬u.isIdentifier (ensureIdent (wanted name.1 name.2)) = true := fun h =>
      hspell ((isIdentifier_ensureIdent u _).mp h)
    have hunder := ensureIdent_of_not_spellable u hspell
    have hnameable : u.Nameable used name ↔ underscored (wanted name.1 name.2) ∈ used ∧
        u.suffixable (underscored (wanted name.1 name.2)) = true := or_iff_right hspell
    rw [hunder] at hname hcases
    rw [hnameable]
    rcases hcases with ⟨hfree, heq⟩ | ⟨hmem, k, heq⟩
    · rw [heq]
      exact iff_of_false hname fun h => hfree (List.mem_append_left _ h.1)
    · have hused := (List.mem_append.mp hmem).resolve_right fun h => hname (hnamed _ h)
      rw [heq, isIdentifier_withSuffix]
      exact (and_iff_right hused).symm

theorem isIdentifier_uniqueIdents (used : List String) (names : List (String × String)) :
    ∀ named : List String, (∀ x ∈ named, u.isIdentifier x = true) →
      ((∀ x ∈ uniqueIdents (used ++ named) names, u.isIdentifier x = true) ↔
        ∀ name ∈ names, u.Nameable used name) := by
  induction names with
  | nil =>
    intro named _
    simp [uniqueIdents]
  | cons name names ih =>
    intro named hnamed
    have hstep : u.isIdentifier (uniqueIdent name.1 (used ++ named) name.2).1 = true ↔
        u.Nameable used name := isIdentifier_uniqueIdent u hnamed name
    have hrest : uniqueIdents (used ++ named) (name :: names) =
        (uniqueIdent name.1 (used ++ named) name.2).1 ::
          uniqueIdents (used ++ (named ++ [(uniqueIdent name.1 (used ++ named) name.2).1])) names := by
      rw [← List.append_assoc]
      rfl
    rw [hrest, List.forall_mem_cons, List.forall_mem_cons, hstep]
    refine and_congr_right fun h => ih _ ?_
    rw [List.forall_mem_append, List.forall_mem_singleton]
    exact ⟨hnamed, hstep.mpr h⟩

end

/-- **What the four functions make of a name is an identifier exactly where the name is spelled
like one; the names of a sequence differ always.** -/
theorem generatedIdents_exact (u : IdentChars) :
    (∀ s, u.isIdentifier (ensureIdent s) = true ↔ u.Spellable s) ∧
    (∀ s, u.isIdentifier (rustIdent s) = true ↔
      s.toList.any isAsciiAlnum = true ∧ snakeCase s ∉ ["try", "gen"]) ∧
    (∀ s, u.isIdentifier (pascalCase s) = true ↔ s.toList.any isAsciiAlnum = true) ∧
    ∀ (used : List String) (names : List (String × String)),
      (uniqueIdents used names).Nodup ∧
      ((∀ x ∈ uniqueIdents used names, u.isIdentifier x = true) ↔
        ∀ name ∈ names, u.Nameable used name) := by
  refine ⟨isIdentifier_ensureIdent u, isIdentifier_rustIdent u, isIdentifier_pascalCase u,
    fun used names => ⟨nodup_uniqueIdents names used, ?_⟩⟩
  have h := isIdentifier_uniqueIdents u used names [] fun x hx => absurd hx List.not_mem_nil
  rwa [List.append_nil] at h

/-- The reserved word `try` stays as it is, and a name without a letter or a digit becomes a lone
underscore. -/
theorem generatedIdents_reserved :
    rustIdent "try" = "try" ∧ asciiIdent.isIdentifier (rustIdent "try") = false ∧
    ensureIdent "" = "_" ∧ asciiIdent.isIdentifier (ensureIdent "") = false ∧
    pascalCase "!!!" = "_" ∧ asciiIdent.isIdentifier (pascalCase "!!!") = false ∧
    uniqueIdents [] [("gen", "f")] = ["gen"] ∧ asciiIdent.isIdentifier "gen" = false := by
  decide

end Whatspec.Codegen

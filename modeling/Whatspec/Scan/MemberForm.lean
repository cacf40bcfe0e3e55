import Whatspec.Codegen.NameForms

/-!
# The scanner's spelling of a member

The scanner cannot ask the generator what a field is called in the code, so it spells the name
itself, in one pass that looks one character back and one ahead.

* `rustMemberForm` is that pass, and **`rustMemberForm_eq_snakeCase`** says it spells what the
  generator spells with one replacement after another;
* `plainName` reads the spelled name back from an identifier, so keeping a name from being empty,
  led by a digit or reserved loses nothing;
* **`rustMemberForm_exact`**: names are one member for the scanner exactly where they are one
  identifier for the generator.
-/

namespace Whatspec.Scan

open Whatspec.Codegen Whatspec.Library

/-- Whether a word begins at `c`, by the character before it and the one after it. -/
def startsWord (prev : Option Char) (c : Char) (next : Option Char) : Bool :=
  match prev with
  | none => false
  | some p =>
    let camel := (isAsciiLower p || isAsciiDigit p) && isAsciiUpper c
    let acronym := isAsciiUpper p && isAsciiUpper c && next.any isAsciiLower
    camel || acronym

/-- The first loop of `rust_member_form`, from the character after `prev` on. -/
def memberText (prev : Option Char) (out : List Char) : List Char → List Char
  | [] => out
  | c :: cs =>
    let marked :=
      if startsWord prev c cs.head? ∧ out.getLast? ≠ some '_' then out ++ ['_'] else out
    memberText (some c) (marked ++ [nameChar '_' c]) cs

def rustMemberForm (s : String) : String :=
  let out := memberText none [] s.toList
  String.ofList ((trimmed '_' (foldRuns '_' out)).map Char.toLower)

/-! ### The text before it is folded -/

/-- A name with an underscore before each word that begins inside it. -/
def markedText (prev : Option Char) : List Char → List Char
  | [] => []
  | c :: cs =>
    (if startsWord prev c cs.head? then ['_', nameChar '_' c] else [nameChar '_' c]) ++
      markedText (some c) cs

theorem isAsciiAlnum_of_startsWord {p c : Char} {next : Option Char}
    (h : startsWord (some p) c next = true) : isAsciiAlnum p = true := by
  simp only [startsWord, Bool.or_eq_true, Bool.and_eq_true] at h
  simp only [isAsciiAlnum, Bool.or_eq_true]
  rcases h with ⟨h | h, -⟩ | ⟨⟨h, -⟩, -⟩
  · exact Or.inl (Or.inl h)
  · exact Or.inr h
  · exact Or.inl (Or.inr h)

theorem nameChar_ne_underscore {c : Char} (h : isAsciiAlnum c = true) : nameChar '_' c ≠ '_' := by
  rw [nameChar, if_pos h]
  rintro rfl
  revert h
  decide

/-- What is written so far ends with the character before, so no word begins after an
underscore. -/
theorem memberText_eq (cs : List Char) : ∀ (prev : Option Char) (out : List Char),
    (∀ p, prev = some p → out.getLast? = some (nameChar '_' p)) →
    memberText prev out cs = out ++ markedText prev cs := by
  induction cs with
  | nil =>
    intro prev out _
    simp [memberText, markedText]
  | cons c cs ih =>
    intro prev out hout
    have hlast : startsWord prev c cs.head? = true → out.getLast? ≠ some '_' := by
      intro hstarts
      cases prev with
      | none => cases hstarts
      | some p =>
        rw [hout p rfl]
        intro h
        exact nameChar_ne_underscore (isAsciiAlnum_of_startsWord hstarts)
          (Option.some.inj h)
    have hnext : ∀ marked : List Char, ∀ p, some c = some p →
        (marked ++ [nameChar '_' c]).getLast? = some (nameChar '_' p) := by
      intro marked p hp
      cases hp
      exact List.getLast?_concat
    show memberText (some c) _ cs = _
    rw [ih _ _ (hnext _), markedText]
    by_cases hstarts : startsWord prev c cs.head? = true
    · rw [if_pos ⟨hstarts, hlast hstarts⟩, if_pos hstarts]
      simp
    · rw [if_neg fun h => hstarts h.1, if_neg hstarts]
      simp

/-! ### The two replacements are the marks -/

theorem startsWord_eq (prev : Option Char) (c : Char) (next : Option Char) :
    startsWord prev c next = (startsCamel prev c next || startsAcronym prev c next) := by
  cases prev <;> rfl

/-- Only an upper letter takes an underscore at the first boundary, so whether a lower letter
follows is not changed by it. -/
theorem any_lower_marks (c : Char) (cs : List Char) :
    (marks '_' startsCamel (some c) cs).head?.any isAsciiLower = cs.head?.any isAsciiLower := by
  cases cs with
  | nil => rfl
  | cons d ds =>
    rw [marks]
    split_ifs with hstarts
    · have hupper : isAsciiUpper d = true := (Bool.and_eq_true _ _ ▸ hstarts).2
      show isAsciiLower '_' = isAsciiLower d
      rw [not_lower_of_upper hupper]
      rfl
    · rfl

/-- Marking for one boundary and then for the other marks for both. -/
theorem marks_marks (cs : List Char) : ∀ prev : Option Char,
    (marks '_' startsAcronym prev (marks '_' startsCamel prev cs)).map (nameChar '_') =
      markedText prev cs := by
  induction cs with
  | nil => exact fun prev => rfl
  | cons c cs ih =>
    intro prev
    have hacronym : startsAcronym prev c (marks '_' startsCamel (some c) cs).head? =
        startsAcronym prev c cs.head? := by
      simp only [startsAcronym, any_lower_marks]
    rw [markedText, startsWord_eq, ← ih (some c), marks]
    by_cases hcamel : startsCamel prev c cs.head? = true
    · have hunderscore : ¬startsAcronym prev '_' (some c) = true := by
        simp [startsAcronym, show isAsciiUpper '_' = false by decide]
      have hafter : ∀ next, ¬startsAcronym (some '_') c next = true := by
        simp [startsAcronym, show isAsciiUpper '_' = false by decide]
      rw [if_pos hcamel, hcamel, Bool.true_or, if_pos rfl]
      show (marks '_' startsAcronym prev ('_' :: c :: marks '_' startsCamel (some c) cs)).map _ = _
      rw [marks, marks, List.head?_cons, if_neg hunderscore, if_neg (hafter _)]
      rfl
    · rw [if_neg hcamel, Bool.eq_false_iff.mpr hcamel, Bool.false_or]
      show (marks '_' startsAcronym prev (c :: marks '_' startsCamel (some c) cs)).map _ = _
      rw [marks, hacronym]
      split_ifs <;> rfl

/-- **The scanner spells a member as the generator does.** -/
theorem rustMemberForm_eq_snakeCase (s : String) : rustMemberForm s = snakeCase s := by
  have hout : memberText none [] s.toList = nameText '_' s := by
    rw [memberText_eq _ none [] (by simp), nameText, acronymBoundary_eq, camelBoundary_eq,
      marks_marks]
    rfl
  apply String.toList_injective
  rw [snakeCase_toList, ← trimmed_foldRuns, ← hout]
  exact String.toList_ofList

/-- Identifiers of fields are equal where the names are spelled the same. -/
theorem snakeCase_eq_of_rustIdent_eq {s t : String} (h : rustIdent s = rustIdent t) :
    snakeCase s = snakeCase t := by
  have hback : ∀ u : String, plainName (rustIdent u).toList = (snakeCase u).toList := by
    intro u
    apply plainName_ensureIdent (snakeCase_ends u).1 (snakeCase_ends u).2
    intro hhash
    exact absurd (isSnakeChar_of_mem hhash) (by decide)
  apply String.toList_injective
  rw [← hback s, h, hback t]

/-- **The scanner's spelling is the generator's, and names share it exactly where they share an
identifier.** -/
theorem rustMemberForm_exact : (∀ s : String, rustMemberForm s = snakeCase s) ∧
    ∀ s t : String, rustMemberForm s = rustMemberForm t ↔ rustIdent s = rustIdent t := by
  refine ⟨rustMemberForm_eq_snakeCase, fun s t => ?_⟩
  rw [rustMemberForm_eq_snakeCase, rustMemberForm_eq_snakeCase]
  exact ⟨fun h => congrArg ensureIdent h, snakeCase_eq_of_rustIdent_eq⟩

example : rustMemberForm "HTTPServerID2go" = "http_server_id2go" := by decide

end Whatspec.Scan

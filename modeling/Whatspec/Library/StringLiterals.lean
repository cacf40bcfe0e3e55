import Whatspec.Library.Rendering

/-!
# String literals and format strings

The two ways a text between quotes is read in a program of Rust.

* `lexLiteral` reads the inside of a string literal up to its closing quote: escapes of one letter,
  of two hexadecimal digits and of a code point, and the break that is skipped with the blanks after
  it;
* `interpret` reads a format string that has no arguments: braces stand for themselves when they are
  doubled, and a placeholder is none of its results.

**`lexLiteral_escaped`**: a text that is escaped character by character is read back, whatever stands
after the quote.  **`interpret_doubled`**: so is a text whose braces are doubled.
-/

namespace Whatspec.Library.StringLiterals

open Rendering

/-! ### Escapes -/

def isHex (c : Char) : Bool :=
  ('0' ≤ c && c ≤ '9') || ('a' ≤ c && c ≤ 'f') || ('A' ≤ c && c ≤ 'F')

def hexDigit (c : Char) : ℕ :=
  if c ≤ '9' then c.toNat - 48 else if c ≤ 'F' then c.toNat - 55 else c.toNat - 87

def hexValue (cs : List Char) : ℕ := cs.foldl (fun n c => 16 * n + hexDigit c) 0

/-- The code point of an escape, after its opening brace: one to six digits, with underscores
behind the first, of a scalar value. -/
def readCodePoint (cs : List Char) : Option (Char × List Char) :=
  let body := cs.takeWhile (· ≠ '\x7d')
  let digits := body.filter (· ≠ '_')
  match cs.dropWhile (· ≠ '\x7d') with
  | [] => none
  | _ :: rest =>
    if body.head? ≠ some '_' ∧ 1 ≤ digits.length ∧ digits.length ≤ 6 ∧ digits.all isHex ∧
        (hexValue digits).isValidChar then
      some (Char.ofNat (hexValue digits), rest)
    else none

def isBlank (c : Char) : Bool := c = ' ' || c = '\n' || c = '\t' || c = '\r'

/-- An escape of two digits or of a code point. -/
def readNumber : List Char → Option (Char × List Char)
  | 'x' :: high :: low :: rest =>
    if isHex high ∧ isHex low ∧ hexDigit high < 8 then
      some (Char.ofNat (hexValue [high, low]), rest)
    else none
  | 'u' :: '\x7b' :: rest => readCodePoint rest
  | _ => none

/-- What stands behind a backslash: a character, or a break that stands for nothing. -/
def readEscape : List Char → Option (Option Char × List Char)
  | [] => none
  | c :: cs =>
    if c ∈ ['n', 'r', 't', '0', '\\', '"', '\''] then some (some (unescape c), cs)
    else if c = '\n' then some (none, cs.dropWhile isBlank)
    else (readNumber (c :: cs)).map fun (d, rest) => (some d, rest)

theorem length_dropWhile_le (p : Char → Bool) (cs : List Char) :
    (cs.dropWhile p).length ≤ cs.length := (List.dropWhile_suffix p).length_le

theorem length_readCodePoint {cs rest : List Char} {c : Char}
    (h : readCodePoint cs = some (c, rest)) : rest.length ≤ cs.length := by
  have hdrop := length_dropWhile_le (· ≠ '\x7d') cs
  unfold readCodePoint at h
  extract_lets body digits at h
  split at h
  · cases h
  · next heq =>
    rw [heq, List.length_cons] at hdrop
    split_ifs at h
    cases h
    omega

theorem length_readNumber {cs rest : List Char} {c : Char}
    (h : readNumber cs = some (c, rest)) : rest.length < cs.length := by
  unfold readNumber at h
  split at h
  · split_ifs at h
    cases h
    simp only [List.length_cons]
    omega
  · have hle := length_readCodePoint h
    simp only [List.length_cons]
    omega
  · cases h

theorem length_readEscape {cs rest : List Char} {c : Option Char}
    (h : readEscape cs = some (c, rest)) : rest.length < cs.length := by
  cases cs with
  | nil => cases h
  | cons d cs =>
    rw [readEscape] at h
    split_ifs at h with hshort hbreak
    · cases h
      exact Nat.lt_succ_self _
    · cases h
      exact Nat.lt_succ_of_le (length_dropWhile_le isBlank cs)
    · obtain ⟨⟨e, rest'⟩, hread, heq⟩ := Option.map_eq_some_iff.mp h
      cases heq
      exact length_readNumber hread

/-! ### Literals -/

/-- The inside of a string literal, and the text after its closing quote. -/
def lexLiteral : List Char → Option (List Char × List Char)
  | [] => none
  | c :: cs =>
    if c = '"' then some ([], cs)
    else if c = '\r' then none
    else if c = '\\' then
      match _h : readEscape cs with
      | none => none
      | some (none, rest) => lexLiteral rest
      | some (some d, rest) => (lexLiteral rest).map fun (ds, rest) => (d :: ds, rest)
    else (lexLiteral cs).map fun (ds, rest) => (c :: ds, rest)
termination_by cs => cs.length
decreasing_by
  · have := length_readEscape _h
    simp only [List.length_cons]
    omega
  · have := length_readEscape _h
    simp only [List.length_cons]
    omega
  · simp only [List.length_cons]
    omega

/-- A format string that is given no arguments. -/
def interpret : List Char → Option (List Char)
  | [] => some []
  | '\x7b' :: '\x7b' :: cs => (interpret cs).map ('\x7b' :: ·)
  | '\x7d' :: '\x7d' :: cs => (interpret cs).map ('\x7d' :: ·)
  | c :: cs => if c = '\x7b' ∨ c = '\x7d' then none else (interpret cs).map (c :: ·)

/-! ### Code points in hexadecimal -/

theorem hexDigit_digitChar {d : ℕ} (h : d < 16) :
    hexDigit (Nat.digitChar d) = d ∧ isHex (Nat.digitChar d) = true ∧
      Nat.digitChar d ≠ '_' := by
  have key : ∀ d : Fin 16, hexDigit (Nat.digitChar d.val) = d.val ∧
      isHex (Nat.digitChar d.val) = true ∧ Nat.digitChar d.val ≠ '_' := by decide
  exact key ⟨d, h⟩

theorem hexValue_concat (cs : List Char) (c : Char) :
    hexValue (cs ++ [c]) = 16 * hexValue cs + hexDigit c := by
  rw [hexValue, List.foldl_append]
  rfl

theorem hexValue_toDigits (n : ℕ) : hexValue (Nat.toDigits 16 n) = n ∧
    ∀ c ∈ Nat.toDigits 16 n, isHex c = true ∧ c ≠ '_' := by
  induction n using Nat.strong_induction_on with
  | _ n ih =>
    rw [Nat.toDigits_eq_if (by decide)]
    by_cases hn : n < 16
    · obtain ⟨hvalue, hhex⟩ := hexDigit_digitChar hn
      rw [if_pos hn, List.forall_mem_singleton]
      exact ⟨(Nat.zero_add _).trans hvalue, hhex⟩
    · obtain ⟨hhigh, hall⟩ := ih (n / 16) (by omega)
      obtain ⟨hvalue, hhex⟩ := hexDigit_digitChar (Nat.mod_lt n (show 0 < 16 by decide))
      rw [if_neg hn, hexValue_concat, hhigh, hvalue, List.forall_mem_append,
        List.forall_mem_singleton]
      exact ⟨by omega, hall, hhex⟩

theorem readCodePoint_toDigits (c : Char) (rest : List Char) :
    readCodePoint (Nat.toDigits 16 c.toNat ++ '\x7d' :: rest) = some (c, rest) := by
  obtain ⟨hvalue, hall⟩ := hexValue_toDigits c.toNat
  have hbody : ∀ d ∈ Nat.toDigits 16 c.toNat, decide (d ≠ '\x7d') = true := fun d hd =>
    decide_eq_true (hex_ne_brace hd)
  have hfilter : (Nat.toDigits 16 c.toNat).filter (· ≠ '_') = Nat.toDigits 16 c.toNat :=
    List.filter_eq_self.mpr fun d hd => decide_eq_true (hall d hd).2
  have hvalid : c.toNat.isValidChar := c.valid
  have hlength : (Nat.toDigits 16 c.toNat).length ≤ 6 := by
    rw [Nat.length_toDigits_le_iff (by decide) (by decide)]
    rcases hvalid with h | h <;> omega
  have hhead : (Nat.toDigits 16 c.toNat).head? ≠ some '_' := fun h =>
    (hall '_' (List.mem_of_head? h)).2 rfl
  have hdigits : (Nat.toDigits 16 c.toNat).all isHex = true :=
    List.all_eq_true.mpr fun d hd => (hall d hd).1
  simp only [readCodePoint, List.takeWhile_append_of_pos hbody, List.dropWhile_append_of_pos hbody,
    List.takeWhile_cons, List.dropWhile_cons]
  simp only [ne_eq, not_true_eq_false, decide_false, Bool.false_eq_true, if_false, List.append_nil,
    hfilter]
  rw [if_pos ⟨hhead, Nat.length_toDigits_pos, hlength, hdigits, hvalue.symm ▸ hvalid⟩, hvalue,
    Char.ofNat_toNat]

/-! ### What is escaped is read back -/

theorem readEscape_short {c x : Char} (h : shortEscape c = some x) (cs : List Char) :
    readEscape (x :: cs) = some (some c, cs) := by
  have hmem : x ∈ ['n', 'r', 't', '0', '\\', '"', '\''] := by
    unfold shortEscape at h
    split_ifs at h <;> cases h <;> decide
  rw [readEscape, if_pos hmem, (unescape_of_shortEscape h).1]

theorem readEscape_codePoint (c : Char) (rest : List Char) :
    readEscape ('u' :: '\x7b' :: (Nat.toDigits 16 c.toNat ++ '\x7d' :: rest)) =
      some (some c, rest) := by
  rw [readEscape, if_neg (by decide), if_neg (by decide)]
  show (readCodePoint _).map _ = _
  rw [readCodePoint_toDigits]
  rfl

theorem lexLiteral_backslash {cs rest : List Char} {c : Char}
    (h : readEscape cs = some (some c, rest)) :
    lexLiteral ('\\' :: cs) = (lexLiteral rest).map fun (ds, rest) => (c :: ds, rest) := by
  rw [lexLiteral, if_neg (by decide), if_neg (by decide), if_pos rfl]
  split
  · next hnone => rw [hnone] at h; cases h
  · next hskip => rw [hskip] at h; cases h
  · next hread =>
    rw [hread] at h
    cases h
    rfl

/-- One escaped character. -/
theorem lexLiteral_escape (printable : Char → Bool) (c : Char) (cs : List Char) :
    lexLiteral (escape printable c ++ cs) =
      (lexLiteral cs).map fun (ds, rest) => (c :: ds, rest) := by
  unfold escape
  cases hshort : shortEscape c with
  | some x => exact lexLiteral_backslash (readEscape_short hshort cs)
  | none =>
    by_cases hprint : printable c = true
    · have hquote := shortEscape_eq_none hshort
      have hreturn : c ≠ '\r' := by
        rintro rfl
        cases hshort
      simp only [hprint, if_true]
      show lexLiteral (c :: cs) = _
      rw [lexLiteral, if_neg hquote.1, if_neg hreturn, if_neg hquote.2]
    · simp only [hprint, Bool.false_eq_true, if_false]
      have hcode := readEscape_codePoint c cs
      rw [List.cons_append, List.cons_append, List.cons_append, List.append_assoc]
      exact lexLiteral_backslash hcode

/-- **A text that is escaped character by character ends at its quote, and is read back.** -/
theorem lexLiteral_escaped (printable : Char → Bool) (cs rest : List Char) :
    lexLiteral (cs.flatMap (escape printable) ++ '"' :: rest) = some (cs, rest) := by
  induction cs with
  | nil => rw [List.flatMap_nil, List.nil_append, lexLiteral, if_pos rfl]
  | cons c cs ih =>
    rw [List.flatMap_cons, List.append_assoc, lexLiteral_escape, ih]
    rfl

/-! ### What is doubled is read back -/

/-- A character of a format string. -/
def doubled (c : Char) : List Char := if c = '\x7b' ∨ c = '\x7d' then [c, c] else [c]

/-- **A text whose braces are doubled has no placeholder, and is read back.** -/
theorem interpret_doubled (cs : List Char) : interpret (cs.flatMap doubled) = some cs := by
  induction cs with
  | nil => rfl
  | cons c cs ih =>
    rw [List.flatMap_cons]
    by_cases hopen : c = '\x7b'
    · subst hopen
      show (interpret (cs.flatMap doubled)).map _ = _
      rw [ih]
      rfl
    · by_cases hclose : c = '\x7d'
      · subst hclose
        show (interpret (cs.flatMap doubled)).map _ = _
        rw [ih]
        rfl
      · have hbrace : ¬(c = '\x7b' ∨ c = '\x7d') := not_or.mpr ⟨hopen, hclose⟩
        rw [doubled, if_neg hbrace, List.singleton_append, interpret, if_neg hbrace, ih]
        · rfl
        · rintro _ rfl
          exact absurd rfl hopen
        · rintro _ rfl
          exact absurd rfl hclose

end Whatspec.Library.StringLiterals

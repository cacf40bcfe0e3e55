import Mathlib
import Whatspec.Library.Rendering

/-!
# The tokens of a protobuf text

The lexical grammar of the protobuf language, read one character at a time: words, numbers, quoted
strings with their escapes, comments and single symbols.  `lexFrom` is the automaton;
`Runs m s ts n` says that the text `s` takes it from the mode `m` to the mode `n` and gives the
tokens `ts` on the way, whatever comes behind it.

* `Runs.append`: texts are read one after another;
* `Lexes.word`, `Lexes.dotted`, `Lexes.number`: a word, a name with dots and a number, each with the
  symbol behind it;
* **`Lexes.quoted`**: a quoted text, escaped character by character, is one token;
* `Lexes.comment`: a comment up to the end of its line is none.

A number is taken as far as digits, letters and dots go and has to be a numeral then.  An escape of
a byte that is no character by itself is refused.
-/

namespace Whatspec.Library.Protobuf

inductive Token where
  | word (w : String)
  | number (w : String)
  | str (s : String)
  | symbol (c : Char)
  deriving DecidableEq, Repr

/-! ### Characters -/

def isBlank (c : Char) : Bool := c ∈ [' ', '\n', '\t', '\r', '\x0b', '\x0c']

def isLetter (c : Char) : Bool :=
  ('a' ≤ c && c ≤ 'z') || ('A' ≤ c && c ≤ 'Z') || c = '_'

def isWordChar (c : Char) : Bool := isLetter c || c.isDigit

def isOctal (c : Char) : Bool := '0' ≤ c && c ≤ '7'

def isHex (c : Char) : Bool :=
  c.isDigit || ('a' ≤ c && c ≤ 'f') || ('A' ≤ c && c ≤ 'F')

def digitValue (c : Char) : ℕ :=
  if c ≤ '9' then c.toNat - 48 else if c ≤ 'F' then c.toNat - 55 else c.toNat - 87

/-- A symbol that is a token by itself. -/
def isSymbol (c : Char) : Bool :=
  '!' ≤ c && c ≤ '~' && !isWordChar c && !(c ∈ ['.', '"', '\'', '/'])

/-- An identifier. -/
def isIdentifier : List Char → Bool
  | [] => false
  | c :: cs => isLetter c && cs.all isWordChar

/-- What stands behind the mantissa of a number. -/
def isExponent : List Char → Bool
  | [] => true
  | c :: cs =>
    (c = 'e' || c = 'E') &&
      match cs with
      | [] => false
      | d :: ds =>
        if d = '+' ∨ d = '-' then !ds.isEmpty && ds.all Char.isDigit
        else (d :: ds).all Char.isDigit

/-- Digits with a dot or an exponent. -/
def isFloat (w : List Char) : Bool :=
  let whole := w.takeWhile Char.isDigit
  match w.dropWhile Char.isDigit with
  | '.' :: rest =>
    (!whole.isEmpty || !(rest.takeWhile Char.isDigit).isEmpty) &&
      isExponent (rest.dropWhile Char.isDigit)
  | rest => !whole.isEmpty && !rest.isEmpty && isExponent rest

/-- The value of a decimal, octal or hexadecimal numeral. -/
def intValue : List Char → Option ℕ
  | [] => none
  | '0' :: [] => some 0
  | '0' :: c :: cs =>
    if c = 'x' ∨ c = 'X' then
      if !cs.isEmpty && cs.all isHex then some (cs.foldl (fun n c => 16 * n + digitValue c) 0)
      else none
    else if (c :: cs).all isOctal then some (Nat.ofDigitChars 8 (c :: cs) 0)
    else none
  | c :: cs => if (c :: cs).all Char.isDigit then some (Nat.ofDigitChars 10 (c :: cs) 0) else none

def isNumeral (w : List Char) : Bool := (intValue w).isSome || isFloat w

/-- Whether a number goes on: with a sign behind an exponent, but not in hexadecimal. -/
def continuesNumber (w : List Char) (c : Char) : Bool :=
  isWordChar c || c = '.' ||
    ((c = '+' || c = '-') && w.getLast? ∈ [some 'e', some 'E'] && w.all fun d => d ≠ 'x' && d ≠ 'X')

/-- A letter behind a backslash. -/
def simpleEscape (c : Char) : Option Char :=
  [('a', '\x07'), ('b', '\x08'), ('f', '\x0c'), ('n', '\n'), ('r', '\r'), ('t', '\t'),
    ('v', '\x0b'), ('\\', '\\'), ('\'', '\''), ('"', '"'), ('?', '?')].lookup c

/-! ### The automaton -/

inductive Mode where
  | between
  | word (w : List Char)
  | number (w : List Char)
  | dot
  | quoted (quote : Char) (s : List Char)
  | escape (quote : Char) (s : List Char)
  | octal (quote : Char) (s : List Char) (value count : ℕ)
  | hex (quote : Char) (s : List Char) (value count : ℕ)
  | slash
  | lineComment
  | blockComment
  | star
  deriving DecidableEq, Repr

/-- The first character of a token, or a blank. -/
def start (c : Char) : Option (List Token × Mode) :=
  if isBlank c then some ([], .between)
  else if isLetter c then some ([], .word [c])
  else if c.isDigit then some ([], .number [c])
  else if c = '.' then some ([], .dot)
  else if c = '"' ∨ c = '\'' then some ([], .quoted c [])
  else if c = '/' then some ([], .slash)
  else if isSymbol c then some ([.symbol c], .between)
  else none

/-- The text of a literal goes on with a character that was escaped by its number. -/
def pushByte (quote : Char) (s : List Char) (value : ℕ) : Option Mode :=
  if value < 128 then some (.quoted quote (s ++ [Char.ofNat value])) else none

/-- A character inside of a literal. -/
def literalChar (quote : Char) (s : List Char) (c : Char) : Option (List Token × Mode) :=
  if c = quote then some ([.str (String.ofList s)], .between)
  else if c = '\\' then some ([], .escape quote s)
  else if c = '\n' ∨ c = '\x00' then none
  else some ([], .quoted quote (s ++ [c]))

/-- A character behind an escape that is over. -/
def afterByte (quote : Char) (s : List Char) (value : ℕ) (c : Char) :
    Option (List Token × Mode) :=
  if value < 128 then literalChar quote (s ++ [Char.ofNat value]) c else none

def emit (t : Token) (o : Option (List Token × Mode)) : Option (List Token × Mode) :=
  o.map fun p => (t :: p.1, p.2)

def step : Mode → Char → Option (List Token × Mode)
  | .between, c => start c
  | .word w, c =>
    if isWordChar c then some ([], .word (w ++ [c]))
    else emit (.word (String.ofList w)) (start c)
  | .number w, c =>
    if continuesNumber w c then some ([], .number (w ++ [c]))
    else if isNumeral w then emit (.number (String.ofList w)) (start c)
    else none
  | .dot, c => if c.isDigit then some ([], .number ['.', c]) else emit (.symbol '.') (start c)
  | .quoted q s, c => literalChar q s c
  | .escape q s, c =>
    match simpleEscape c with
    | some d => some ([], .quoted q (s ++ [d]))
    | none =>
      if isOctal c then some ([], .octal q s (digitValue c) 1)
      else if c = 'x' ∨ c = 'X' then some ([], .hex q s 0 0)
      else none
  | .octal q s value count, c =>
    if isOctal c then
      if count = 2 then (pushByte q s (8 * value + digitValue c)).map fun m => ([], m)
      else some ([], .octal q s (8 * value + digitValue c) (count + 1))
    else afterByte q s value c
  | .hex q s value count, c =>
    if isHex c then
      if count = 1 then (pushByte q s (16 * value + digitValue c)).map fun m => ([], m)
      else some ([], .hex q s (16 * value + digitValue c) (count + 1))
    else if count = 0 then none
    else afterByte q s value c
  | .slash, c =>
    if c = '/' then some ([], .lineComment)
    else if c = '*' then some ([], .blockComment)
    else emit (.symbol '/') (start c)
  | .lineComment, c => some ([], if c = '\n' then .between else .lineComment)
  | .blockComment, c => some ([], if c = '*' then .star else .blockComment)
  | .star, c => some ([], if c = '/' then .between else if c = '*' then .star else .blockComment)

/-- The end of the text. -/
def finish : Mode → Option (List Token)
  | .between | .lineComment => some []
  | .word w => some [.word (String.ofList w)]
  | .number w => if isNumeral w then some [.number (String.ofList w)] else none
  | .dot => some [.symbol '.']
  | .slash => some [.symbol '/']
  | _ => none

def lexFrom : Mode → List Char → Option (List Token)
  | m, [] => finish m
  | m, c :: cs => (step m c).bind fun p => (lexFrom p.2 cs).map (p.1 ++ ·)

/-- The tokens of a text. -/
def lex (s : List Char) : Option (List Token) := lexFrom .between s

/-! ### Runs of the automaton -/

/-- The text takes the automaton from one mode to another and gives the tokens, whatever follows. -/
def Runs (m : Mode) (s : List Char) (ts : List Token) (n : Mode) : Prop :=
  ∀ rest, lexFrom m (s ++ rest) = (lexFrom n rest).map (ts ++ ·)

/-- The text is a piece by itself. -/
abbrev Lexes (s : List Char) (ts : List Token) : Prop := Runs .between s ts .between

theorem Runs.nil (m : Mode) : Runs m [] [] m := by
  intro rest
  show lexFrom m rest = (lexFrom m rest).map fun ts => ts
  exact Option.map_id'.symm ▸ rfl

theorem Runs.step {m n : Mode} {c : Char} {ts : List Token} (h : step m c = some (ts, n)) :
    Runs m [c] ts n := by
  intro rest
  show (Protobuf.step m c).bind _ = _
  rw [h]
  rfl

theorem Runs.append {m n o : Mode} {s s' : List Char} {ts ts' : List Token} (h : Runs m s ts n)
    (h' : Runs n s' ts' o) : Runs m (s ++ s') (ts ++ ts') o := by
  intro rest
  rw [List.append_assoc, h, h', Option.map_map]
  congr 1
  funext us
  exact (List.append_assoc ts ts' us).symm

theorem Runs.cons {m n o : Mode} {c : Char} {s : List Char} {ts ts' : List Token}
    (h : Protobuf.step m c = some (ts, n)) (h' : Runs n s ts' o) : Runs m (c :: s) (ts ++ ts') o :=
  (Runs.step h).append h'

theorem Lexes.lex_eq {s : List Char} {ts : List Token} (h : Lexes s ts) : lex s = some ts := by
  have hwhole := h []
  rw [List.append_nil] at hwhole
  rw [lex, hwhole]
  show some (ts ++ []) = some ts
  rw [List.append_nil]

theorem Lexes.nil : Lexes [] [] := Runs.nil _

/-- The run of the automaton over a text. -/
def run : Mode → List Char → Option (List Token × Mode)
  | m, [] => some ([], m)
  | m, c :: cs => (step m c).bind fun p => (run p.2 cs).map fun q => (p.1 ++ q.1, q.2)

theorem Runs.of_run {s : List Char} : ∀ {m n : Mode} {ts : List Token},
    run m s = some (ts, n) → Runs m s ts n := by
  induction s with
  | nil =>
    intro m n ts h
    rw [run] at h
    cases h
    exact Runs.nil _
  | cons c s ih =>
    intro m n ts h
    rw [run, Option.bind_eq_some_iff] at h
    obtain ⟨p, hstep, hrest⟩ := h
    obtain ⟨q, hrun, heq⟩ := Option.map_eq_some_iff.mp hrest
    cases heq
    exact Runs.cons hstep (ih hrun)

/-! ### Blanks and symbols -/

theorem start_blank {c : Char} (h : isBlank c = true) : start c = some ([], .between) := by
  rw [start, if_pos h]

theorem not_isWordChar_of_isSymbol {c : Char} (h : isSymbol c = true) : isWordChar c = false := by
  simp only [isSymbol, Bool.and_eq_true, Bool.not_eq_true'] at h
  exact h.1.2

theorem start_symbol {c : Char} (h : isSymbol c = true) :
    start c = some ([.symbol c], .between) := by
  have hword := not_isWordChar_of_isSymbol h
  simp only [isWordChar, Bool.or_eq_false_iff] at hword
  have hshape := h
  simp only [isSymbol, Bool.and_eq_true, Bool.not_eq_true', decide_eq_false_iff_not, List.mem_cons,
    List.not_mem_nil, or_false, not_or, decide_eq_true_eq] at hshape
  have hblank : isBlank c = false := by
    rw [isBlank, decide_eq_false_iff_not]
    simp only [List.mem_cons, List.not_mem_nil, or_false]
    rintro (rfl | rfl | rfl | rfl | rfl | rfl) <;> exact absurd hshape.1.1.1 (by decide)
  rw [start, if_neg (by rw [hblank]; decide), if_neg (by rw [hword.1]; decide),
    if_neg (by rw [hword.2]; decide), if_neg hshape.2.1,
    if_neg (not_or.mpr ⟨hshape.2.2.1, hshape.2.2.2.1⟩), if_neg hshape.2.2.2.2, if_pos h]

theorem Lexes.blank {c : Char} (h : isBlank c = true) : Lexes [c] [] := Runs.step (start_blank h)

theorem Lexes.symbol {c : Char} (h : isSymbol c = true) : Lexes [c] [.symbol c] :=
  Runs.step (start_symbol h)

/-- A separator: the tokens it gives, and it goes on with no token. -/
structure Separates (c : Char) (ts : List Token) : Prop where
  starts : start c = some (ts, .between)
  plain : isWordChar c = false
  noDot : c ≠ '.'
  noSign : c ≠ '+' ∧ c ≠ '-'

theorem separates_blank : Separates ' ' [] := by
  constructor <;> decide

theorem separates_symbol {c : Char} (h : isSymbol c = true) (hsign : c ≠ '+' ∧ c ≠ '-') :
    Separates c [.symbol c] where
  starts := start_symbol h
  plain := not_isWordChar_of_isSymbol h
  noDot := by
    rintro rfl
    exact absurd h (by decide)
  noSign := hsign

/-! ### Words and dotted names -/

theorem isDigit_iff {c : Char} : c.isDigit = true ↔ 48 ≤ c.toNat ∧ c.toNat ≤ 57 := by
  rw [Char.isDigit, Bool.and_eq_true, decide_eq_true_eq, decide_eq_true_eq]
  exact Iff.rfl

theorem isLetter_iff {c : Char} : isLetter c = true ↔
    97 ≤ c.toNat ∧ c.toNat ≤ 122 ∨ 65 ≤ c.toNat ∧ c.toNat ≤ 90 ∨ c.toNat = 95 := by
  have hunder : c = '_' ↔ c.toNat = 95 := by
    constructor
    · rintro rfl
      rfl
    · intro h
      exact Char.toNat_inj.mp h
  simp only [isLetter, Bool.or_eq_true, Bool.and_eq_true, decide_eq_true_eq, hunder, or_assoc]
  exact Iff.rfl

/-- A letter is no digit. -/
theorem not_isDigit_of_isLetter {c : Char} (h : isLetter c = true) : c.isDigit = false := by
  rw [Bool.eq_false_iff, Ne, isDigit_iff]
  have hcode := isLetter_iff.mp h
  omega

theorem isLetter_of_isIdentifier {c : Char} {cs : List Char}
    (h : isIdentifier (c :: cs) = true) : isLetter c = true := by
  rw [isIdentifier, Bool.and_eq_true] at h
  exact h.1

theorem start_letter {c : Char} (h : isLetter c = true) : start c = some ([], .word [c]) := by
  have hblank : isBlank c = false := by
    rw [isBlank, decide_eq_false_iff_not]
    simp only [List.mem_cons, List.not_mem_nil, or_false]
    rintro (rfl | rfl | rfl | rfl | rfl | rfl) <;> exact absurd h (by decide)
  rw [start, if_neg (by rw [hblank]; decide), if_pos h]

/-- The word goes on. -/
theorem runs_wordChars (cs : List Char) (h : cs.all isWordChar = true) :
    ∀ w, Runs (.word w) cs [] (.word (w ++ cs)) := by
  induction cs with
  | nil =>
    intro w
    rw [List.append_nil]
    exact Runs.nil _
  | cons c cs ih =>
    intro w
    rw [List.all_cons, Bool.and_eq_true] at h
    have hstep : step (.word w) c = some ([], .word (w ++ [c])) := by
      rw [step, if_pos h.1]
    have hrest := Runs.cons hstep (ih h.2 (w ++ [c]))
    rwa [List.append_assoc] at hrest

theorem runs_word {w : List Char} (h : isIdentifier w = true) : Runs .between w [] (.word w) := by
  cases w with
  | nil => cases h
  | cons c cs =>
    have hrest : cs.all isWordChar = true := by
      rw [isIdentifier, Bool.and_eq_true] at h
      exact h.2
    have hstart : step .between c = some ([], .word [c]) :=
      start_letter (isLetter_of_isIdentifier h)
    exact Runs.cons hstart (runs_wordChars cs hrest [c])

/-- The end of a word. -/
theorem runs_endOfWord {c : Char} {ts : List Token} (h : Separates c ts) (w : List Char) :
    Runs (.word w) [c] (.word (String.ofList w) :: ts) .between := by
  refine Runs.step ?_
  rw [step, if_neg (by rw [h.plain]; decide), h.starts]
  rfl

theorem Lexes.word {w : List Char} {c : Char} {ts : List Token} (h : isIdentifier w = true)
    (hc : Separates c ts) : Lexes (w ++ [c]) (.word (String.ofList w) :: ts) :=
  (runs_word h).append (runs_endOfWord hc w)

/-- A dot and the word behind it. -/
theorem runs_dotWord {v : List Char} (h : isIdentifier v = true) (w : List Char) :
    Runs (.word w) ('.' :: v) [.word (String.ofList w), .symbol '.'] (.word v) := by
  cases v with
  | nil => cases h
  | cons d ds =>
    have hletter := isLetter_of_isIdentifier h
    have hrest : ds.all isWordChar = true := by
      rw [isIdentifier, Bool.and_eq_true] at h
      exact h.2
    have hdigit := not_isDigit_of_isLetter hletter
    have hdot : step (.word w) '.' = some ([.word (String.ofList w)], .dot) := by
      rw [step, if_neg (by decide)]
      rfl
    have hword : step .dot d = some ([.symbol '.'], .word [d]) := by
      rw [step, if_neg (by rw [hdigit]; decide), start_letter hletter]
      rfl
    exact Runs.cons hdot (Runs.cons hword (runs_wordChars ds hrest [d]))

/-- The tokens of the parts of a name behind its first. -/
def dottedTokens (parts : List (List Char)) : List Token :=
  parts.flatMap fun p => [.symbol '.', .word (String.ofList p)]

/-- The text of the parts of a name behind its first. -/
def dottedText (parts : List (List Char)) : List Char := parts.flatMap ('.' :: ·)

/-- **A name with dots**, and the separator behind it. -/
theorem Lexes.dotted {w : List Char} {parts : List (List Char)} {c : Char} {ts : List Token}
    (hw : isIdentifier w = true) (hparts : ∀ p ∈ parts, isIdentifier p = true)
    (hc : Separates c ts) :
    Lexes (w ++ dottedText parts ++ [c])
      (.word (String.ofList w) :: dottedTokens parts ++ ts) := by
  have hrest : ∀ (parts : List (List Char)) (w : List Char),
      (∀ p ∈ parts, isIdentifier p = true) →
        Runs (.word w) (dottedText parts ++ [c])
          (.word (String.ofList w) :: dottedTokens parts ++ ts) .between := by
    intro parts
    induction parts with
    | nil =>
      intro w _
      exact runs_endOfWord hc w
    | cons p parts ih =>
      intro w hparts
      have hp := runs_dotWord (hparts p List.mem_cons_self) w
      have htail := ih p fun q hq => hparts q (List.mem_cons_of_mem p hq)
      have hall := hp.append htail
      rw [dottedText, List.flatMap_cons, List.append_assoc]
      exact hall
  have hall := (runs_word hw).append (hrest parts w hparts)
  rwa [← List.append_assoc] at hall

/-! ### Numbers -/

theorem continuesNumber_of_isDigit {c : Char} (h : c.isDigit = true) (w : List Char) :
    continuesNumber w c = true := by
  rw [continuesNumber, isWordChar, h]
  simp

/-- The number goes on. -/
theorem runs_digits (cs : List Char) (h : cs.all Char.isDigit = true) :
    ∀ w, Runs (.number w) cs [] (.number (w ++ cs)) := by
  induction cs with
  | nil =>
    intro w
    rw [List.append_nil]
    exact Runs.nil _
  | cons c cs ih =>
    intro w
    rw [List.all_cons, Bool.and_eq_true] at h
    have hstep : step (.number w) c = some ([], .number (w ++ [c])) := by
      rw [step, if_pos (continuesNumber_of_isDigit h.1 w)]
    have hrest := Runs.cons hstep (ih h.2 (w ++ [c]))
    rwa [List.append_assoc] at hrest

theorem start_digit {c : Char} (h : c.isDigit = true) : start c = some ([], .number [c]) := by
  have hblank : isBlank c = false := by
    rw [isBlank, decide_eq_false_iff_not]
    simp only [List.mem_cons, List.not_mem_nil, or_false]
    rintro (rfl | rfl | rfl | rfl | rfl | rfl) <;> exact absurd h (by decide)
  have hletter : isLetter c = false := by
    rw [Bool.eq_false_iff]
    intro hletter
    rw [not_isDigit_of_isLetter hletter] at h
    cases h
  rw [start, if_neg (by rw [hblank]; decide), if_neg (by rw [hletter]; decide), if_pos h]

/-- The end of a number. -/
theorem runs_endOfNumber {c : Char} {ts : List Token} (h : Separates c ts) {w : List Char}
    (hw : isNumeral w = true) :
    Runs (.number w) [c] (.number (String.ofList w) :: ts) .between := by
  have hends : continuesNumber w c = false := by
    rw [continuesNumber, h.plain, decide_eq_false h.noDot, decide_eq_false h.noSign.1,
      decide_eq_false h.noSign.2]
    rfl
  refine Runs.step ?_
  rw [step, if_neg (by rw [hends]; decide), if_pos hw, h.starts]
  rfl

/-- A text that is one number. -/
def isNumber (w : List Char) : Bool := run .between w = some ([], .number w) && isNumeral w

/-- A number as it stands, and the separator behind it. -/
theorem Lexes.numeral {w : List Char} {c : Char} {ts : List Token} (h : isNumber w = true)
    (hc : Separates c ts) : Lexes (w ++ [c]) (.number (String.ofList w) :: ts) := by
  rw [isNumber, Bool.and_eq_true, decide_eq_true_eq] at h
  exact (Runs.of_run h.1).append (runs_endOfNumber hc h.2)

theorem isDigit_toDigits (n : ℕ) : (Nat.toDigits 10 n).all Char.isDigit = true :=
  List.all_eq_true.mpr fun _ hc => Nat.isDigit_of_mem_toDigits (by decide) (by decide) hc

/-- Digits have no leading zero, but for zero itself. -/
theorem toDigits_head {n : ℕ} {cs : List Char} (h : Nat.toDigits 10 n = '0' :: cs) : n = 0 := by
  induction n using Nat.strong_induction_on generalizing cs with
  | _ n ih =>
    rw [Nat.toDigits_eq_if (by decide)] at h
    split_ifs at h with hlt
    · have hdigit := (List.cons.inj h).1
      have hkey : ∀ k : Fin 10, Nat.digitChar k.val = '0' → k.val = 0 := by decide
      exact hkey ⟨n, hlt⟩ hdigit
    · cases hdigits : Nat.toDigits 10 (n / 10) with
      | nil => exact absurd hdigits Nat.toDigits_ne_nil
      | cons d ds =>
        rw [hdigits] at h
        have hzero := ih (n / 10) (by omega) (hdigits.trans (by rw [(List.cons.inj h).1]))
        omega

/-- The value of a printed number. -/
theorem intValue_toDigits (n : ℕ) : intValue (Nat.toDigits 10 n) = some n := by
  have hall := isDigit_toDigits n
  have hvalue : Nat.ofDigitChars 10 (Nat.toDigits 10 n) 0 = n := Nat.ofDigitChars_ten_toDigits
  have hhead := @toDigits_head n
  cases hdigits : Nat.toDigits 10 n with
  | nil => exact absurd hdigits Nat.toDigits_ne_nil
  | cons d ds =>
    rw [hdigits] at hall hvalue
    by_cases hd : d = '0'
    · subst hd
      have hn := hhead hdigits
      subst hn
      cases hdigits
      rfl
    · rw [intValue, if_pos hall, hvalue]
      · exact fun hzero _ => hd hzero
      · exact fun _ _ hzero _ => hd hzero

theorem isNumeral_toDigits (n : ℕ) : isNumeral (Nat.toDigits 10 n) = true := by
  rw [isNumeral, intValue_toDigits]
  rfl

/-- **A printed number**, and the separator behind it. -/
theorem Lexes.number (n : ℕ) {c : Char} {ts : List Token} (hc : Separates c ts) :
    Lexes (Nat.toDigits 10 n ++ [c]) (.number (String.ofList (Nat.toDigits 10 n)) :: ts) := by
  have hend := runs_endOfNumber hc (isNumeral_toDigits n)
  have hall := isDigit_toDigits n
  cases hdigits : Nat.toDigits 10 n with
  | nil => exact absurd hdigits Nat.toDigits_ne_nil
  | cons d ds =>
    rw [hdigits] at hall hend
    rw [List.all_cons, Bool.and_eq_true] at hall
    have hstart : step .between d = some ([], .number [d]) := start_digit hall.1
    exact (Runs.cons hstart (runs_digits ds hall.2 [d])).append hend

/-! ### Literals -/

/-- The three octal digits of a character. -/
def octalDigits (n : ℕ) : List Char :=
  [Nat.digitChar (n / 64), Nat.digitChar (n / 8 % 8), Nat.digitChar (n % 8)]

theorem isOctal_digitChar {k : ℕ} (h : k < 8) :
    isOctal (Nat.digitChar k) = true ∧ digitValue (Nat.digitChar k) = k := by
  have hkey : ∀ k : Fin 8, isOctal (Nat.digitChar k.val) = true ∧
      digitValue (Nat.digitChar k.val) = k.val := by decide
  exact hkey ⟨k, h⟩

/-- A character by its octal number. -/
theorem runs_octal {q : Char} (hq : q ≠ '\\') (s : List Char) {n : ℕ} (h : n < 128) :
    Runs (.quoted q s) ('\\' :: octalDigits n) [] (.quoted q (s ++ [Char.ofNat n])) := by
  have hback : step (.quoted q s) '\\' = some ([], .escape q s) := by
    show literalChar q s '\\' = _
    rw [literalChar, if_neg fun heq => hq heq.symm, if_pos rfl]
  obtain ⟨hhigh, hhighValue⟩ := isOctal_digitChar (k := n / 64) (by omega)
  obtain ⟨hmid, hmidValue⟩ := isOctal_digitChar (k := n / 8 % 8) (by omega)
  obtain ⟨hlow, hlowValue⟩ := isOctal_digitChar (k := n % 8) (by omega)
  have hfirst : step (.escape q s) (Nat.digitChar (n / 64)) =
      some ([], .octal q s (n / 64) 1) := by
    have hnone : simpleEscape (Nat.digitChar (n / 64)) = none := by
      have hkey : ∀ k : Fin 8, simpleEscape (Nat.digitChar k.val) = none := by decide
      exact hkey ⟨n / 64, by omega⟩
    rw [step, hnone]
    show (if isOctal (Nat.digitChar (n / 64)) then _ else _) = _
    rw [if_pos hhigh, hhighValue]
  have hsecond : step (.octal q s (n / 64) 1) (Nat.digitChar (n / 8 % 8)) =
      some ([], .octal q s (8 * (n / 64) + n / 8 % 8) 2) := by
    rw [step, if_pos hmid, if_neg (by decide), hmidValue]
  have hthird : step (.octal q s (8 * (n / 64) + n / 8 % 8) 2) (Nat.digitChar (n % 8)) =
      some ([], .quoted q (s ++ [Char.ofNat n])) := by
    have hvalue : 8 * (8 * (n / 64) + n / 8 % 8) + n % 8 = n := by omega
    rw [step, if_pos hlow, if_pos rfl, hlowValue, hvalue, pushByte, if_pos h]
    rfl
  exact Runs.cons hback (Runs.cons hfirst (Runs.cons hsecond (Runs.step hthird)))

/-- A character of a literal that stands for itself. -/
theorem runs_plainChar {q c : Char} (s : List Char) (hq : c ≠ q) (hback : c ≠ '\\')
    (hline : c ≠ '\n') (hzero : c ≠ '\x00') :
    Runs (.quoted q s) [c] [] (.quoted q (s ++ [c])) := by
  refine Runs.step ?_
  show literalChar q s c = _
  rw [literalChar, if_neg hq, if_neg hback, if_neg (not_or.mpr ⟨hline, hzero⟩)]

/-- A character of a literal that is escaped by a letter. -/
theorem runs_simpleEscape {q c d : Char} (s : List Char) (hq : q ≠ '\\')
    (h : simpleEscape c = some d) : Runs (.quoted q s) ['\\', c] [] (.quoted q (s ++ [d])) := by
  have hback : step (.quoted q s) '\\' = some ([], .escape q s) := by
    show literalChar q s '\\' = _
    rw [literalChar, if_neg fun heq => hq heq.symm, if_pos rfl]
  refine Runs.cons hback (Runs.step ?_)
  rw [step, h]

/-- **A quoted text** that is escaped character by character. -/
theorem Lexes.quoted {escape : Char → List Char}
    (h : ∀ c s, Runs (.quoted '"' s) (escape c) [] (.quoted '"' (s ++ [c]))) (s : List Char) :
    Lexes ('"' :: (s.flatMap escape ++ ['"'])) [.str (String.ofList s)] := by
  have hinside : ∀ (s acc : List Char),
      Runs (.quoted '"' acc) (s.flatMap escape) [] (.quoted '"' (acc ++ s)) := by
    intro s
    induction s with
    | nil =>
      intro acc
      rw [List.append_nil]
      exact Runs.nil _
    | cons c s ih =>
      intro acc
      have hrest := (h c acc).append (ih (acc ++ [c]))
      rwa [List.append_assoc] at hrest
  have hopen : step .between '"' = some ([], .quoted '"' []) := by decide
  have hclose : step (.quoted '"' s) '"' = some ([.str (String.ofList s)], .between) := by
    show literalChar '"' s '"' = _
    rw [literalChar, if_pos rfl]
  exact Runs.cons hopen ((hinside s []).append (Runs.step hclose))

/-! ### Comments -/

/-- A comment up to the end of its line. -/
theorem Lexes.comment {l : List Char} (h : '\n' ∉ l) : Lexes ('/' :: '/' :: (l ++ ['\n'])) [] := by
  have hinside : ∀ l : List Char, '\n' ∉ l → Runs .lineComment l [] .lineComment := by
    intro l
    induction l with
    | nil =>
      intro _
      exact Runs.nil _
    | cons c l ih =>
      intro hl
      rw [List.mem_cons, not_or] at hl
      have hstep : step .lineComment c = some ([], .lineComment) := by
        rw [step, if_neg fun heq => hl.1 heq.symm]
      exact Runs.cons hstep (ih hl.2)
  have hfirst : step .between '/' = some ([], .slash) := by decide
  have hsecond : step .slash '/' = some ([], .lineComment) := rfl
  have hlast : step .lineComment '\n' = some ([], .between) := rfl
  exact Runs.cons hfirst (Runs.cons hsecond ((hinside l h).append (Runs.step hlast)))

end Whatspec.Library.Protobuf

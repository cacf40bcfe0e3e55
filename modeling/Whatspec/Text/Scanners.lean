import Mathlib.Data.List.Basic

/-!
# Byte scanners

The scanners that walk minified JavaScript by byte offsets: over a quoted string, over whitespace and
comments, and over a balanced expression up to a stop byte.  Each ends, as the length of what is left
bounds it, goes forward and stays within the text (`lt_skipString`, `le_skipWs`, `le_skipExpr`).
-/

namespace Whatspec.Text

/-- A module source. -/
abbrev Source := List UInt8

/-- The byte of an ASCII character. -/
def byte (c : Char) : UInt8 := c.toNat.toUInt8

/-- The bytes of an ASCII text. -/
def bytes (s : String) : List UInt8 := s.toList.map byte

/-- A range of bytes, empty where it is not one. -/
def slice (b : Source) (first last : ℕ) : List UInt8 := (b.drop first).take (last - first)

/-- A byte that opens a string. -/
def isQuote (c : UInt8) : Bool := c = byte '"' || c = byte '\'' || c = byte '\x60'

/-- `u8::is_ascii_whitespace`. -/
def isAsciiSpace (c : UInt8) : Bool :=
  c = 0x20 || c = 0x09 || c = 0x0a || c = 0x0c || c = 0x0d

/-! ### Strings -/

/-- The first `q` from an offset on that no backslash precedes; past the end when there is none. -/
def closing (b : Source) (q : UInt8) (i : ℕ) : ℕ :=
  if h : i < b.length then
    if b[i] = q then i
    else if b[i] = byte '\\' then closing b q (i + 2)
    else closing b q (i + 1)
  else i
termination_by b.length - i

def skipString (b : Source) (i : ℕ) : ℕ := min (closing b (b.getD i 0) (i + 1) + 1) b.length

theorem le_closing (b : Source) (q : UInt8) (i : ℕ) : i ≤ closing b q i := by
  fun_induction closing b q i with
  | case1 i h hq => exact Nat.le_refl i
  | case2 i h hq hslash ih => omega
  | case3 i h hq hslash ih => omega
  | case4 i h => exact Nat.le_refl i

theorem lt_skipString {b : Source} {i : ℕ} (h : i < b.length) :
    i < skipString b i ∧ skipString b i ≤ b.length := by
  have := le_closing b (b.getD i 0) (i + 1)
  unfold skipString
  omega

/-! ### Whitespace and comments -/

/-- Where the bytes of a kind end that start at an offset. -/
def spanEnd (kind : UInt8 → Bool) (b : Source) (i : ℕ) : ℕ :=
  if h : i < b.length then
    if kind b[i] then spanEnd kind b (i + 1) else i
  else i
termination_by b.length - i

/-- The end of the line an offset is on. -/
def lineEnd (b : Source) (i : ℕ) : ℕ := spanEnd (· ≠ byte '\n') b i

/-- Where the comment around an offset is closed. -/
def blockEnd (b : Source) (i : ℕ) : ℕ :=
  if h : i + 1 < b.length then
    if b[i] = byte '*' ∧ b[i + 1] = byte '/' then i else blockEnd b (i + 1)
  else i
termination_by b.length - i

theorem le_spanEnd (kind : UInt8 → Bool) (b : Source) (i : ℕ) : i ≤ spanEnd kind b i := by
  fun_induction spanEnd kind b i with
  | case1 i h hkind ih => omega
  | case2 i h hkind => exact Nat.le_refl i
  | case3 i h => exact Nat.le_refl i

theorem spanEnd_le (kind : UInt8 → Bool) {b : Source} {i : ℕ} (hi : i ≤ b.length) :
    spanEnd kind b i ≤ b.length := by
  fun_induction spanEnd kind b i with
  | case1 i h hkind ih => exact ih (by omega)
  | case2 i h hkind => exact hi
  | case3 i h => exact hi

theorem lt_spanEnd {kind : UInt8 → Bool} {b : Source} {i : ℕ} (h : i < b.length)
    (hc : kind b[i] = true) : i < spanEnd kind b i := by
  rw [spanEnd, dif_pos h, if_pos hc]
  exact le_spanEnd kind b (i + 1)

theorem spanEnd_eq_self {kind : UInt8 → Bool} {b : Source} {i : ℕ} (h : i < b.length)
    (hc : kind b[i] = false) : spanEnd kind b i = i := by
  rw [spanEnd, dif_pos h, if_neg (by simp [hc])]

theorem le_blockEnd (b : Source) (i : ℕ) : i ≤ blockEnd b i := by
  fun_induction blockEnd b i with
  | case1 i h hclose => exact Nat.le_refl i
  | case2 i h hclose ih => omega
  | case3 i h => exact Nat.le_refl i

theorem lt_lineEnd {b : Source} {i : ℕ} (h : i < b.length) (hc : b[i] = byte '/') :
    i < lineEnd b i :=
  lt_spanEnd h (by rw [hc]; decide)

def skipWs (b : Source) (i : ℕ) : ℕ :=
  if h : i < b.length then
    if isAsciiSpace b[i] then skipWs b (i + 1)
    else if hc : b[i] = byte '/' ∧ b[i + 1]? = some (byte '/') then
      have := lt_lineEnd h hc.1
      skipWs b (lineEnd b i)
    else if b[i] = byte '/' ∧ b[i + 1]? = some (byte '*') then
      have := le_blockEnd b (i + 2)
      skipWs b (blockEnd b (i + 2) + 2)
    else i
  else min i b.length
termination_by b.length - i

theorem skipWs_le (b : Source) (i : ℕ) : skipWs b i ≤ b.length := by
  fun_induction skipWs b i with
  | case1 i h hspace ih => exact ih
  | case2 i h hspace hc hlt ih => exact ih
  | case3 i h hspace hline hc hle ih => exact ih
  | case4 i h hspace hline hc => omega
  | case5 i h => omega

theorem le_skipWs (b : Source) (i : ℕ) (hi : i ≤ b.length) : i ≤ skipWs b i := by
  fun_induction skipWs b i with
  | case1 i h hspace ih => have := ih (by omega); omega
  | case2 i h hspace hc hlt ih =>
    by_cases hend : lineEnd b i ≤ b.length
    · have := ih hend
      omega
    · rw [skipWs, dif_neg (by omega)]
      omega
  | case3 i h hspace hline hc hle ih =>
    by_cases hend : blockEnd b (i + 2) + 2 ≤ b.length
    · have := ih hend
      omega
    · rw [skipWs, dif_neg (by omega)]
      omega
  | case4 i h hspace hline hc => exact Nat.le_refl i
  | case5 i h => omega

/-- The same for an offset beyond the end. -/
theorem min_le_skipWs (b : Source) (i : ℕ) : min i b.length ≤ skipWs b i := by
  by_cases hi : i ≤ b.length
  · rw [Nat.min_eq_left hi]
    exact le_skipWs b i hi
  · have hskip : skipWs b i = min i b.length := by rw [skipWs, dif_neg (by omega)]
    exact Nat.le_of_eq hskip.symm

theorem skipWs_skipWs (b : Source) (i : ℕ) : skipWs b (skipWs b i) = skipWs b i := by
  fun_induction skipWs b i with
  | case1 i h hspace ih => exact ih
  | case2 i h hspace hc hlt ih => exact ih
  | case3 i h hspace hline hc hle ih => exact ih
  | case4 i h hspace hline hc => rw [skipWs, dif_pos h, if_neg hspace, dif_neg hline, if_neg hc]
  | case5 i h =>
    rw [skipWs, dif_neg (by omega)]
    omega

/-- A byte that opens no comment and is no space is not skipped. -/
theorem skipWs_of_solid {b : Source} {i : ℕ} (h : i < b.length)
    (hspace : isAsciiSpace b[i] = false) (hslash : b[i] ≠ byte '/') : skipWs b i = i := by
  rw [skipWs, dif_pos h, if_neg (by simp [hspace]), dif_neg (fun hc => hslash hc.1),
    if_neg (fun hc => hslash hc.1)]

/-! ### Expressions -/

/-- The loop of `skipExpr`, with how deep in parentheses, braces and brackets it is. -/
def skipExprFrom (b stops : Source) (i : ℕ) (dp db dbr : BitVec 32) : ℕ :=
  if h : i < b.length then
    if isQuote b[i] then
      have := (lt_skipString h).1
      skipExprFrom b stops (skipString b i) dp db dbr
    else if b[i] = byte '(' then skipExprFrom b stops (i + 1) (dp + 1) db dbr
    else if b[i] = byte ')' then
      if dp = 0 ∧ b[i] ∈ stops then i else skipExprFrom b stops (i + 1) (dp - 1) db dbr
    else if b[i] = byte '\x7b' then skipExprFrom b stops (i + 1) dp (db + 1) dbr
    else if b[i] = byte '\x7d' then
      if db = 0 ∧ b[i] ∈ stops then i else skipExprFrom b stops (i + 1) dp (db - 1) dbr
    else if b[i] = byte '[' then skipExprFrom b stops (i + 1) dp db (dbr + 1)
    else if b[i] = byte ']' then
      if dbr = 0 ∧ b[i] ∈ stops then i else skipExprFrom b stops (i + 1) dp db (dbr - 1)
    else if dp = 0 ∧ db = 0 ∧ dbr = 0 ∧ b[i] ∈ stops then i
    else skipExprFrom b stops (i + 1) dp db dbr
  else i
termination_by b.length - i

def skipExpr (b : Source) (start : ℕ) (stops : Source) : ℕ := skipExprFrom b stops start 0 0 0

theorem skipExprFrom_bounds (b stops : Source) (i : ℕ) (dp db dbr : BitVec 32)
    (hi : i ≤ b.length) :
    i ≤ skipExprFrom b stops i dp db dbr ∧ skipExprFrom b stops i dp db dbr ≤ b.length := by
  have hnext : ∀ {x j : ℕ}, i < j → j ≤ x ∧ x ≤ b.length → i ≤ x ∧ x ≤ b.length := by omega
  fun_induction skipExprFrom b stops i dp db dbr with
  | case1 i dp db dbr h hq hlt ih => exact hnext hlt (ih (lt_skipString h).2 (by omega))
  | case2 | case4 | case5 | case7 | case8 | case10 | case12 =>
    rename_i ih
    exact hnext (Nat.lt_succ_self _) (ih (by omega) (by omega))
  | case3 | case6 | case9 | case11 | case13 => omega

theorem le_skipExpr {b : Source} {i : ℕ} (hi : i ≤ b.length) (stops : Source) :
    i ≤ skipExpr b i stops ∧ skipExpr b i stops ≤ b.length :=
  skipExprFrom_bounds b stops i 0 0 0 hi

theorem lt_skipExpr {b stops : Source} {i : ℕ} (h : i < b.length) (hstop : b[i] ∉ stops) :
    i < skipExpr b i stops := by
  have hnext : ∀ {j : ℕ} (dp db dbr : BitVec 32), i < j → j ≤ b.length →
      i < skipExprFrom b stops j dp db dbr := fun dp db dbr hij hj =>
    Nat.lt_of_lt_of_le hij (skipExprFrom_bounds b stops _ dp db dbr hj).1
  rw [skipExpr, skipExprFrom, dif_pos h]
  split_ifs with hq ho hc hstop' hob hcb hstop' hok hck hstop' hstop'
  · exact hnext _ _ _ (lt_skipString h).1 (lt_skipString h).2
  all_goals first
    | exact hnext _ _ _ (Nat.lt_succ_self i) h
    | exact absurd hstop'.2 hstop
    | exact absurd hstop'.2.2.2 hstop

/-- A stop byte that opens nothing ends an expression before it began. -/
theorem skipExpr_of_stop {b stops : Source} {i : ℕ} (h : i < b.length) (hstop : b[i] ∈ stops)
    (hquote : isQuote b[i] = false) (hopen : b[i] ∉ bytes "([\x7b") : skipExpr b i stops = i := by
  have ho : b[i] ≠ byte '(' := fun hc => hopen (by rw [hc]; decide)
  have hok : b[i] ≠ byte '[' := fun hc => hopen (by rw [hc]; decide)
  have hob : b[i] ≠ byte '\x7b' := fun hc => hopen (by rw [hc]; decide)
  rw [skipExpr, skipExprFrom, dif_pos h, if_neg (by simp [hquote]), if_neg ho]
  simp only [hok, hob, hstop, if_false, and_self, if_true]
  split_ifs <;> rfl

end Whatspec.Text

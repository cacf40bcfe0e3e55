import Mathlib.Algebra.Group.Nat.Defs
import Whatspec.Text.Scanners

/-!
# Expressions and their nesting

A text that is well nested outside its strings is a tree: bytes of their own, strings with escapes,
and groups between matching brackets.  `skipExpr` reads it with three counters of 32 bits, where a
stack of brackets would tell the depth.

* `Nested` are the well nested texts, `Nested.firstStop` the first stop byte that stands in no group
  and no string, and `Ending` is a string that is cut off at the end;
* `skipExprAt_nested` says what the counters make of a tree at any depth, by induction on the tree;
* **`skipExpr_exact`**: the scanners stay within the text, and `skipExpr` finds the first stop of the
  top level exactly where no counter has come back to zero at a stop byte before it;
* `skipExpr_deep` is the text of 2³² parentheses at which one has.
-/

namespace Whatspec.Text

/-! ### Well nested texts -/

inductive Bracket where
  | paren | brace | square
deriving DecidableEq

namespace Bracket

def opens : Bracket → UInt8
  | paren => byte '('
  | brace => byte '\x7b'
  | square => byte '['

def closes : Bracket → UInt8
  | paren => byte ')'
  | brace => byte '\x7d'
  | square => byte ']'

end Bracket

/-- A byte that is neither a bracket nor a quote. -/
def isPlain (c : UInt8) : Bool := !isQuote c && c ∉ bytes "()\x7b\x7d[]"

/-- What follows the opening quote of a string, up to the closing one. -/
inductive StringBody (q : UInt8) : Source → Prop
  | close : StringBody q [q]
  | char {c : UInt8} {cs : Source} : c ≠ q → c ≠ byte '\\' → StringBody q cs → StringBody q (c :: cs)
  | escape {c : UInt8} {cs : Source} : StringBody q cs → StringBody q (byte '\\' :: c :: cs)

/-- What follows the opening quote of a string that is not closed. -/
inductive CutBody (q : UInt8) : Source → Prop
  | nil : CutBody q []
  | slash : CutBody q [byte '\\']
  | char {c : UInt8} {cs : Source} : c ≠ q → c ≠ byte '\\' → CutBody q cs → CutBody q (c :: cs)
  | escape {c : UInt8} {cs : Source} : CutBody q cs → CutBody q (byte '\\' :: c :: cs)

/-- A text that is well nested outside its strings. -/
inductive Nested where
  | done
  | plain (c : UInt8) (isPlain : isPlain c = true) (rest : Nested)
  | string (q : UInt8) (body : Source) (isQuote : isQuote q = true) (closed : StringBody q body)
      (rest : Nested)
  | group (k : Bracket) (inner rest : Nested)

/-- The end of a text: nothing, or a string that is cut off. -/
inductive Ending where
  | nothing
  | cut (q : UInt8) (body : Source) (isQuote : isQuote q = true) (open_ : CutBody q body)

def Ending.text : Ending → Source
  | nothing => []
  | cut q body _ _ => q :: body

namespace Nested

def text : Nested → Source
  | done => []
  | plain c _ rest => c :: rest.text
  | string q body _ _ rest => q :: (body ++ rest.text)
  | group k inner rest => k.opens :: (inner.text ++ k.closes :: rest.text)

/-- The offset of the first stop byte that stands in no group and no string. -/
def firstStop (stops : Source) : Nested → Option ℕ
  | done => none
  | plain c _ rest => if c ∈ stops then some 0 else (rest.firstStop stops).map (1 + ·)
  | string _ body _ _ rest => (rest.firstStop stops).map (1 + body.length + ·)
  | group _ inner rest => (rest.firstStop stops).map (2 + inner.text.length + ·)

end Nested

/-! ### How deep a byte is -/

/-- How many brackets of each kind are open. -/
abbrev Depth := Bracket → ℕ

def Depth.deeper (d : Depth) (k : Bracket) : Depth := fun j => if j = k then d j + 1 else d j

/-- All the counters are zero. -/
def Depth.AtZero (d : Depth) : Prop := ∀ k, 2 ^ 32 ∣ d k

instance (d : Depth) : Decidable d.AtZero :=
  decidable_of_iff (2 ^ 32 ∣ d .paren ∧ 2 ^ 32 ∣ d .brace ∧ 2 ^ 32 ∣ d .square)
    ⟨fun ⟨hp, hb, hs⟩ k => by cases k <;> assumption, fun h => ⟨h _, h _, h _⟩⟩

namespace Nested

/-- No stop byte stands where all counters are zero, and none that closes a group does so where the
counter of its kind is zero. -/
def Clear (stops : Source) : Depth → Nested → Prop
  | _, done => True
  | d, plain c _ rest => ¬(d.AtZero ∧ c ∈ stops) ∧ rest.Clear stops d
  | d, string _ _ _ _ rest => rest.Clear stops d
  | d, group k inner rest =>
    inner.Clear stops (d.deeper k) ∧ ¬(2 ^ 32 ∣ d k + 1 ∧ k.closes ∈ stops) ∧ rest.Clear stops d

/-- The groups before the first stop of the top level are clear. -/
def ClearBefore (stops : Source) : Nested → Prop
  | done => True
  | plain c _ rest => c ∈ stops ∨ rest.ClearBefore stops
  | string _ _ _ _ rest => rest.ClearBefore stops
  | group k inner rest =>
    inner.Clear stops (Depth.deeper (fun _ => 0) k) ∧ rest.ClearBefore stops

/-- Where the counters stop in a text. -/
def stopAt (stops : Source) : Depth → Nested → Option ℕ
  | _, done => none
  | d, plain c _ rest =>
    if d.AtZero ∧ c ∈ stops then some 0 else (rest.stopAt stops d).map (1 + ·)
  | d, string _ body _ _ rest => (rest.stopAt stops d).map (1 + body.length + ·)
  | d, group k inner rest =>
    match inner.stopAt stops (d.deeper k) with
    | some o => some (1 + o)
    | none =>
      if 2 ^ 32 ∣ d k + 1 ∧ k.closes ∈ stops then some (1 + inner.text.length)
      else (rest.stopAt stops d).map (2 + inner.text.length + ·)

end Nested

/-! ### The counters at one byte -/

theorem getElem_of_drop {b post : Source} {i : ℕ} {c : UInt8} (h : b.drop i = c :: post) :
    ∃ hi : i < b.length, b[i] = c ∧ b.drop (i + 1) = post := by
  have hi : i < b.length := by
    by_contra hge
    rw [List.drop_eq_nil_of_le (by omega)] at h
    cases h
  rw [List.drop_eq_getElem_cons hi] at h
  cases h
  exact ⟨hi, rfl, rfl⟩

theorem getD_of_drop {b post : Source} {i : ℕ} {c : UInt8} (h : b.drop i = c :: post) :
    b.getD i 0 = c := by
  obtain ⟨hi, hc, -⟩ := getElem_of_drop h
  rw [List.getD_eq_getElem?_getD, List.getElem?_eq_getElem hi, hc]
  rfl

theorem quote_ne_slash {q : UInt8} (h : isQuote q = true) : byte '\\' ≠ q := by
  rintro rfl
  revert h
  decide

/-- A backslash and the byte after it are passed together. -/
theorem closing_escape {q c : UInt8} {b cs : Source} {i : ℕ} (hquote : isQuote q = true)
    (h : b.drop i = byte '\\' :: c :: cs) :
    closing b q i = closing b q (i + 2) ∧ b.drop (i + 2) = cs := by
  obtain ⟨hi, hc, hrest⟩ := getElem_of_drop h
  obtain ⟨-, -, hafter⟩ := getElem_of_drop hrest
  refine ⟨?_, hafter⟩
  rw [closing, dif_pos hi, if_neg (hc ▸ quote_ne_slash hquote), if_pos hc]

theorem closing_char {q c : UInt8} {b cs : Source} {i : ℕ} (hq : c ≠ q) (hslash : c ≠ byte '\\')
    (h : b.drop i = c :: cs) : closing b q i = closing b q (i + 1) ∧ b.drop (i + 1) = cs := by
  obtain ⟨hi, hc, hrest⟩ := getElem_of_drop h
  refine ⟨?_, hrest⟩
  rw [closing, dif_pos hi, if_neg (hc ▸ hq), if_neg (hc ▸ hslash)]

theorem closing_stringBody {q : UInt8} (hquote : isQuote q = true) {body : Source}
    (hbody : StringBody q body) : ∀ {b post : Source} {i : ℕ}, b.drop i = body ++ post →
      closing b q i + 1 = i + body.length := by
  induction hbody with
  | close =>
    intro b post i h
    obtain ⟨hi, hc, -⟩ := getElem_of_drop h
    rw [closing, dif_pos hi, if_pos hc]
    rfl
  | char hq hslash _ ih =>
    intro b post i h
    obtain ⟨hstep, hrest⟩ := closing_char hq hslash h
    rw [hstep, ih hrest, List.length_cons]
    omega
  | escape _ ih =>
    intro b post i h
    obtain ⟨hstep, hrest⟩ := closing_escape hquote h
    rw [hstep, ih hrest, List.length_cons, List.length_cons]
    omega

theorem closing_cutBody {q : UInt8} (hquote : isQuote q = true) {body : Source}
    (hbody : CutBody q body) : ∀ {b : Source} {i : ℕ}, b.drop i = body →
      b.length ≤ closing b q i := by
  induction hbody with
  | nil =>
    intro b i h
    exact Nat.le_trans (List.drop_eq_nil_iff.mp h) (le_closing b q i)
  | slash =>
    intro b i h
    obtain ⟨hi, hc, hrest⟩ := getElem_of_drop h
    rw [closing, dif_pos hi, if_neg (hc ▸ quote_ne_slash hquote), if_pos hc]
    have hend := List.drop_eq_nil_iff.mp hrest
    have hle := le_closing b q (i + 2)
    omega
  | char hq hslash _ ih =>
    intro b i h
    obtain ⟨hstep, hrest⟩ := closing_char hq hslash h
    rw [hstep]
    exact ih hrest
  | escape _ ih =>
    intro b i h
    obtain ⟨hstep, hrest⟩ := closing_escape hquote h
    rw [hstep]
    exact ih hrest

theorem skipString_closed {q : UInt8} {body b post : Source} {i : ℕ} (hquote : isQuote q = true)
    (hbody : StringBody q body) (h : b.drop i = q :: (body ++ post)) :
    skipString b i = i + 1 + body.length := by
  obtain ⟨-, -, hrest⟩ := getElem_of_drop h
  have hend : i + 1 + body.length ≤ b.length := by
    have hlength := congrArg List.length h
    rw [List.length_drop, List.length_cons, List.length_append] at hlength
    omega
  rw [skipString, getD_of_drop h, closing_stringBody hquote hbody hrest]
  exact Nat.min_eq_left hend

theorem skipString_cut {q : UInt8} {body b : Source} {i : ℕ} (hquote : isQuote q = true)
    (hbody : CutBody q body) (h : b.drop i = q :: body) : skipString b i = b.length := by
  have hend := closing_cutBody hquote hbody (getElem_of_drop h).2.2
  rw [skipString, getD_of_drop h]
  omega

/-- The loop of `skipExpr` at a depth. -/
def skipExprAt (b stops : Source) (i : ℕ) (d : Depth) : ℕ :=
  skipExprFrom b stops i (BitVec.ofNat 32 (d .paren)) (BitVec.ofNat 32 (d .brace))
    (BitVec.ofNat 32 (d .square))

theorem ofNat_eq_zero_iff (n : ℕ) : BitVec.ofNat 32 n = 0 ↔ 2 ^ 32 ∣ n := by
  rw [← BitVec.toNat_inj, BitVec.toNat_ofNat, Nat.dvd_iff_mod_eq_zero]
  rfl

theorem atZero_iff (d : Depth) : d.AtZero ↔ BitVec.ofNat 32 (d .paren) = 0 ∧
    BitVec.ofNat 32 (d .brace) = 0 ∧ BitVec.ofNat 32 (d .square) = 0 := by
  simp only [ofNat_eq_zero_iff]
  exact ⟨fun h => ⟨h _, h _, h _⟩, fun ⟨hp, hb, hs⟩ k => by cases k <;> assumption⟩

section
variable {b stops post : Source} {i : ℕ} (d : Depth)

theorem skipExprAt_quote {q : UInt8} (hquote : isQuote q = true) (h : b.drop i = q :: post) :
    skipExprAt b stops i d = skipExprAt b stops (skipString b i) d := by
  obtain ⟨hi, hc, -⟩ := getElem_of_drop h
  rw [skipExprAt, skipExprFrom, dif_pos hi, if_pos (hc ▸ hquote)]
  rfl

theorem skipExprAt_plain {c : UInt8} (hplain : isPlain c = true) (h : b.drop i = c :: post) :
    skipExprAt b stops i d =
      if d.AtZero ∧ c ∈ stops then i else skipExprAt b stops (i + 1) d := by
  obtain ⟨hi, hc, -⟩ := getElem_of_drop h
  obtain ⟨hquote, hbracket⟩ := Bool.and_eq_true_iff.mp hplain
  have hbracket : c ∉ bytes "()\x7b\x7d[]" := by simpa using hbracket
  have hne : ∀ x ∈ bytes "()\x7b\x7d[]", ¬c = x := fun x hx hcx => hbracket (hcx ▸ hx)
  rw [skipExprAt, skipExprFrom, dif_pos hi, hc, if_neg (by simpa using hquote),
    if_neg (hne _ (by decide)), if_neg (hne _ (by decide)), if_neg (hne _ (by decide)),
    if_neg (hne _ (by decide)), if_neg (hne _ (by decide)), if_neg (hne _ (by decide))]
  simp only [atZero_iff, and_assoc]
  rfl

theorem ofNat_succ (n : ℕ) : BitVec.ofNat 32 (n + 1) = BitVec.ofNat 32 n + 1 :=
  BitVec.ofNat_add n 1

theorem skipExprAt_opens (k : Bracket) (h : b.drop i = k.opens :: post) :
    skipExprAt b stops i d = skipExprAt b stops (i + 1) (d.deeper k) := by
  obtain ⟨hi, hc, -⟩ := getElem_of_drop h
  rw [skipExprAt, skipExprFrom, dif_pos hi, hc]
  cases k with
  | paren =>
    rw [if_neg (by decide), if_pos (by decide), ← ofNat_succ]
    rfl
  | brace =>
    rw [if_neg (by decide), if_neg (by decide), if_neg (by decide), if_pos (by decide),
      ← ofNat_succ]
    rfl
  | square =>
    rw [if_neg (by decide), if_neg (by decide), if_neg (by decide), if_neg (by decide),
      if_neg (by decide), if_pos (by decide), ← ofNat_succ]
    rfl

theorem skipExprAt_closes (k : Bracket) (h : b.drop i = k.closes :: post) :
    skipExprAt b stops i (d.deeper k) =
      if 2 ^ 32 ∣ d k + 1 ∧ k.closes ∈ stops then i else skipExprAt b stops (i + 1) d := by
  obtain ⟨hi, hc, -⟩ := getElem_of_drop h
  have hback : ∀ n, BitVec.ofNat 32 (n + 1) - 1 = BitVec.ofNat 32 n := fun n => by
    rw [ofNat_succ, BitVec.add_sub_cancel]
  rw [skipExprAt, skipExprFrom, dif_pos hi, hc]
  simp only [← ofNat_eq_zero_iff]
  cases k with
  | paren =>
    rw [if_neg (by decide), if_neg (by decide), if_pos (by decide)]
    show ite (BitVec.ofNat 32 (d .paren + 1) = 0 ∧ _) i
      (skipExprFrom b stops (i + 1) (BitVec.ofNat 32 (d .paren + 1) - 1) _ _) = _
    rw [hback]
    rfl
  | brace =>
    rw [if_neg (by decide), if_neg (by decide), if_neg (by decide), if_neg (by decide),
      if_pos (by decide)]
    show ite (BitVec.ofNat 32 (d .brace + 1) = 0 ∧ _) i
      (skipExprFrom b stops (i + 1) _ (BitVec.ofNat 32 (d .brace + 1) - 1) _) = _
    rw [hback]
    rfl
  | square =>
    rw [if_neg (by decide), if_neg (by decide), if_neg (by decide), if_neg (by decide),
      if_neg (by decide), if_neg (by decide), if_pos (by decide)]
    show ite (BitVec.ofNat 32 (d .square + 1) = 0 ∧ _) i
      (skipExprFrom b stops (i + 1) _ _ (BitVec.ofNat 32 (d .square + 1) - 1)) = _
    rw [hback]
    rfl

end

/-! ### A tree at any depth -/

/-- **What the counters make of a well nested text at any depth**, whatever stands after it. -/
theorem skipExprAt_nested {b stops : Source} (t : Nested) : ∀ {post : Source} {i : ℕ} (d : Depth),
    b.drop i = t.text ++ post → b.drop (i + t.text.length) = post ∧
      skipExprAt b stops i d =
        match t.stopAt stops d with
        | some o => i + o
        | none => skipExprAt b stops (i + t.text.length) d := by
  induction t with
  | done =>
    intro post i d h
    exact ⟨h, rfl⟩
  | plain c hplain rest ih =>
    intro post i d h
    obtain ⟨hpost, hrest⟩ := ih d (getElem_of_drop h).2.2
    have hlength : i + (Nested.plain c hplain rest).text.length = i + 1 + rest.text.length := by
      simp only [Nested.text, List.length_cons]
      omega
    rw [hlength]
    refine ⟨hpost, ?_⟩
    rw [skipExprAt_plain d hplain h, Nested.stopAt, hrest]
    split_ifs
    · rfl
    · cases rest.stopAt stops d with
      | none => rfl
      | some o => exact Nat.add_assoc i 1 o
  | string q body hquote hbody rest ih =>
    intro post i d h
    have h : b.drop i = q :: (body ++ (rest.text ++ post)) := by
      rw [h, Nested.text, List.cons_append, List.append_assoc]
    have hafter : b.drop (i + 1 + body.length) = rest.text ++ post := by
      rw [← List.drop_drop, (getElem_of_drop h).2.2, List.drop_left]
    obtain ⟨hpost, hrest⟩ := ih d hafter
    have hlength : i + (Nested.string q body hquote hbody rest).text.length =
        i + 1 + body.length + rest.text.length := by
      simp only [Nested.text, List.length_cons, List.length_append]
      omega
    rw [hlength, skipExprAt_quote d hquote h, skipString_closed hquote hbody h, Nested.stopAt, hrest]
    refine ⟨hpost, ?_⟩
    cases rest.stopAt stops d with
    | none => rfl
    | some o =>
      show i + 1 + body.length + o = i + (1 + body.length + o)
      omega
  | group k inner rest ihInner ihRest =>
    intro post i d h
    have h : b.drop i = k.opens :: (inner.text ++ (k.closes :: (rest.text ++ post))) := by
      rw [h, Nested.text, List.cons_append, List.append_assoc]
      rfl
    obtain ⟨hclose, hinner⟩ := ihInner (d.deeper k) (getElem_of_drop h).2.2
    obtain ⟨hpost, hrest⟩ := ihRest d (getElem_of_drop hclose).2.2
    have hlength : i + (Nested.group k inner rest).text.length =
        i + 1 + inner.text.length + 1 + rest.text.length := by
      simp only [Nested.text, List.length_cons, List.length_append]
      omega
    rw [hlength, skipExprAt_opens d k h, Nested.stopAt, hinner]
    refine ⟨hpost, ?_⟩
    cases inner.stopAt stops (d.deeper k) with
    | some o => exact Nat.add_assoc i 1 o
    | none =>
      show skipExprAt b stops (i + 1 + inner.text.length) (d.deeper k) = _
      rw [skipExprAt_closes d k hclose, hrest]
      show _ = match (if 2 ^ 32 ∣ d k + 1 ∧ k.closes ∈ stops then some (1 + inner.text.length)
        else (rest.stopAt stops d).map (2 + inner.text.length + ·)) with
        | some o => i + o
        | none => _
      split_ifs
      · exact Nat.add_assoc i 1 inner.text.length
      · cases rest.stopAt stops d with
        | none => rfl
        | some o =>
          show i + 1 + inner.text.length + 1 + o = i + (2 + inner.text.length + o)
          omega

/-! ### Where the counters are right -/

namespace Nested

variable {stops : Source}

theorem stopAt_eq_none_iff (t : Nested) : ∀ d : Depth, t.stopAt stops d = none ↔ t.Clear stops d := by
  induction t with
  | done => exact fun d => iff_of_true rfl trivial
  | plain c hplain rest ih =>
    intro d
    rw [stopAt, Clear, ← ih d]
    split_ifs with hstop
    · simp [hstop]
    · simp [hstop]
  | string q body hquote hbody rest ih =>
    intro d
    rw [stopAt, Clear, ← ih d, Option.map_eq_none_iff]
  | group k inner rest ihInner ihRest =>
    intro d
    rw [stopAt, Clear, ← ihInner, ← ihRest]
    cases inner.stopAt stops (d.deeper k) with
    | some o => simp
    | none =>
      show (if 2 ^ 32 ∣ d k + 1 ∧ k.closes ∈ stops then _ else _) = none ↔ _
      split_ifs with hclose
      · exact iff_of_false nofun fun h => h.2.1 hclose
      · exact Option.map_eq_none_iff.trans ⟨fun h => ⟨rfl, hclose, h⟩, fun h => h.2.2⟩

theorem stopAt_lt (t : Nested) : ∀ (d : Depth) {o : ℕ}, t.stopAt stops d = some o →
    o < t.text.length := by
  induction t with
  | done =>
    intro d o h
    cases h
  | plain c hplain rest ih =>
    intro d o h
    rw [stopAt] at h
    rw [text, List.length_cons]
    split_ifs at h
    · cases h
      omega
    · obtain ⟨o, ho, rfl⟩ := Option.map_eq_some_iff.mp h
      have := ih d ho
      omega
  | string q body hquote hbody rest ih =>
    intro d o h
    obtain ⟨o, ho, rfl⟩ := Option.map_eq_some_iff.mp h
    have := ih d ho
    rw [text, List.length_cons, List.length_append]
    omega
  | group k inner rest ihInner ihRest =>
    intro d o h
    rw [text, List.length_cons, List.length_append, List.length_cons]
    rw [stopAt] at h
    cases hinner : inner.stopAt stops (d.deeper k) with
    | some p =>
      rw [hinner] at h
      cases h
      have := ihInner _ hinner
      omega
    | none =>
      rw [hinner] at h
      dsimp only at h
      split_ifs at h
      · cases h
        omega
      · obtain ⟨o, ho, rfl⟩ := Option.map_eq_some_iff.mp h
        have := ihRest d ho
        omega

theorem firstStop_lt (t : Nested) : ∀ {o : ℕ}, t.firstStop stops = some o → o < t.text.length := by
  induction t with
  | done =>
    intro o h
    cases h
  | plain c hplain rest ih =>
    intro o h
    rw [firstStop] at h
    rw [text, List.length_cons]
    split_ifs at h
    · cases h
      omega
    · obtain ⟨o, ho, rfl⟩ := Option.map_eq_some_iff.mp h
      have := ih ho
      omega
  | string q body hquote hbody rest ih =>
    intro o h
    obtain ⟨o, ho, rfl⟩ := Option.map_eq_some_iff.mp h
    have := ih ho
    rw [text, List.length_cons, List.length_append]
    omega
  | group k inner rest ihInner ihRest =>
    intro o h
    obtain ⟨o, ho, rfl⟩ := Option.map_eq_some_iff.mp h
    have := ihRest ho
    rw [text, List.length_cons, List.length_append, List.length_cons]
    omega

/-- **The counters find the first stop of the top level exactly where the groups before it are
clear.** -/
theorem stopAt_eq_firstStop_iff (t : Nested) :
    t.stopAt stops (fun _ => 0) = t.firstStop stops ↔ t.ClearBefore stops := by
  have hzero : Depth.AtZero (fun _ => 0) := fun _ => Nat.dvd_zero _
  have hmap : ∀ (n : ℕ) (x y : Option ℕ), x.map (n + ·) = y.map (n + ·) ↔ x = y := fun n x y =>
    (Option.map_injective fun a b h => Nat.add_left_cancel h).eq_iff
  induction t with
  | done => exact iff_of_true rfl trivial
  | plain c hplain rest ih =>
    rw [stopAt, firstStop, ClearBefore]
    simp only [hzero, true_and]
    split_ifs with hstop
    · simp [hstop]
    · rw [hmap]
      exact ih.trans (or_iff_right hstop).symm
  | string q body hquote hbody rest ih =>
    rw [stopAt, firstStop, ClearBefore, hmap]
    exact ih
  | group k inner rest ihInner ihRest =>
    rw [stopAt, firstStop, ClearBefore, ← stopAt_eq_none_iff]
    cases hinner : inner.stopAt stops (Depth.deeper (fun _ => 0) k) with
    | some o =>
      have hlt := stopAt_lt inner _ hinner
      refine iff_of_false (fun h => ?_) fun h => absurd h.1 (by simp)
      obtain ⟨p, -, hp⟩ := Option.map_eq_some_iff.mp h.symm
      omega
    | none =>
      have hone : ¬(2 ^ 32 ∣ 0 + 1 ∧ k.closes ∈ stops) := fun h => absurd h.1 (by decide)
      show (if 2 ^ 32 ∣ 0 + 1 ∧ k.closes ∈ stops then _ else _) = _ ↔ _
      rw [if_neg hone, hmap]
      exact ihRest.trans (and_iff_right rfl).symm

end Nested

/-! ### The scanners -/

/-- At the end of a text there is nothing left to stop at. -/
theorem skipExprAt_ending {b stops : Source} {i : ℕ} (ending : Ending) (d : Depth)
    (h : b.drop i = ending.text) (hi : i ≤ b.length) : skipExprAt b stops i d = b.length := by
  have hstop : ∀ j, b.length ≤ j → skipExprAt b stops j d = j := fun j hj => by
    rw [skipExprAt, skipExprFrom, dif_neg (by omega)]
  cases ending with
  | nothing =>
    have hend : b.length ≤ i := List.drop_eq_nil_iff.mp h
    rw [hstop i hend]
    omega
  | cut q body hquote hbody =>
    rw [skipExprAt_quote d hquote h, skipString_cut hquote hbody h, hstop _ (Nat.le_refl _)]

/-- What `skipExpr` is to find: the first stop byte of the top level, or the end. -/
def expectedStop (before : Source) (t : Nested) (ending : Ending) (stops : Source) : ℕ :=
  match t.firstStop stops with
  | some o => before.length + o
  | none => (before ++ (t.text ++ ending.text)).length

theorem skipExpr_nested (before : Source) (t : Nested) (ending : Ending) (stops : Source) :
    skipExpr (before ++ (t.text ++ ending.text)) before.length stops =
      match t.stopAt stops fun _ => 0 with
      | some o => before.length + o
      | none => (before ++ (t.text ++ ending.text)).length := by
  have hdrop : (before ++ (t.text ++ ending.text)).drop before.length = t.text ++ ending.text :=
    List.drop_left
  obtain ⟨hpost, hrun⟩ := @skipExprAt_nested _ stops t _ _ (fun _ => 0) hdrop
  have hle : before.length + t.text.length ≤ (before ++ (t.text ++ ending.text)).length := by
    rw [List.length_append, List.length_append]
    omega
  rw [skipExprAt_ending ending _ hpost hle] at hrun
  exact hrun

/-- **The scanners stay within the text, and `skipExpr` finds the first stop byte of the top level
exactly where the groups before it are clear.** -/
theorem skipExpr_exact (before : Source) (t : Nested) (ending : Ending) (stops : Source) :
    (∀ (b : Source) (i : ℕ), i < b.length → i ≤ skipString b i ∧ skipString b i ≤ b.length) ∧
    (∀ (b : Source) (i : ℕ), i ≤ b.length → i ≤ skipWs b i ∧ skipWs b i ≤ b.length) ∧
    (∀ (b : Source) (i : ℕ) (stops : Source), i ≤ b.length →
      i ≤ skipExpr b i stops ∧ skipExpr b i stops ≤ b.length) ∧
    (skipExpr (before ++ (t.text ++ ending.text)) before.length stops =
      expectedStop before t ending stops ↔ t.ClearBefore stops) := by
  refine ⟨fun b i hi => ⟨Nat.le_of_lt (lt_skipString hi).1, (lt_skipString hi).2⟩,
    fun b i hi => ⟨le_skipWs b i hi, skipWs_le b i⟩, fun b i stops hi => le_skipExpr hi stops, ?_⟩
  rw [skipExpr_nested, ← Nested.stopAt_eq_firstStop_iff, expectedStop]
  have hlength : before.length + t.text.length ≤ (before ++ (t.text ++ ending.text)).length := by
    rw [List.length_append, List.length_append]
    omega
  cases hat : t.stopAt stops fun _ => 0 with
  | none =>
    cases hfirst : t.firstStop stops with
    | none => exact iff_of_true rfl rfl
    | some p =>
      have := t.firstStop_lt hfirst
      refine iff_of_false (fun h => ?_) nofun
      have h : (before ++ (t.text ++ ending.text)).length = before.length + p := h
      omega
  | some o =>
    have := t.stopAt_lt _ hat
    cases hfirst : t.firstStop stops with
    | none =>
      refine iff_of_false (fun h => ?_) nofun
      have h : before.length + o = (before ++ (t.text ++ ending.text)).length := h
      omega
    | some p => exact Nat.add_left_cancel_iff.trans Option.some_inj.symm

/-- A call whose argument is a string with a bracket and a stop byte in it. -/
def quotedCall : Nested :=
  .plain (byte 'a') (by decide)
    (.group .paren
      (.string (byte '"') (bytes "),\"") (by decide)
        (.char (by decide) (by decide) (.char (by decide) (by decide) .close))
        (.plain (byte ',') (by decide) .done))
      (.plain (byte ',') (by decide) .done))

theorem skipExpr_exact_call :
    (0 ≤ skipString (bytes "\"a\"") 0 ∧ skipString (bytes "\"a\"") 0 ≤ 3) ∧
    (0 ≤ skipWs (bytes " a") 0 ∧ skipWs (bytes " a") 0 ≤ 2) ∧
    (1 ≤ skipExpr (bytes "(a") 1 [] ∧ skipExpr (bytes "(a") 1 [] ≤ 2) ∧
    skipExpr (bytes "a(\"),\",),") 0 (bytes ",") = 8 := by
  have hclear : quotedCall.ClearBefore (bytes ",") :=
    Or.inr ⟨⟨by decide, trivial⟩, Or.inl (by decide)⟩
  have hcall := skipExpr_exact [] quotedCall .nothing (bytes ",")
  exact ⟨hcall.1 (bytes "\"a\"") 0 (by decide), hcall.2.1 (bytes " a") 0 (by decide),
    hcall.2.2.1 (bytes "(a") 1 [] (by decide), hcall.2.2.2.mpr hclear⟩

/-! ### A text that is too deep -/

/-- A comma between so many parentheses. -/
def deep : ℕ → Nested
  | 0 => .plain (byte ',') (by decide) .done
  | n + 1 => .group .paren (deep n) .done

theorem stopAt_deep (n : ℕ) : ∀ d : Depth, d .brace = 0 → d .square = 0 →
    (deep n).stopAt (bytes ",") d = if 2 ^ 32 ∣ d .paren + n then some n else none := by
  induction n with
  | zero =>
    intro d hbrace hsquare
    have hzero : d.AtZero ↔ 2 ^ 32 ∣ d .paren + 0 := by
      constructor
      · exact fun h => h .paren
      · intro h k
        cases k with
        | paren => exact h
        | brace => rw [hbrace]; exact Nat.dvd_zero _
        | square => rw [hsquare]; exact Nat.dvd_zero _
    have hmem : byte ',' ∈ bytes "," := by decide
    rw [deep, Nested.stopAt, Nested.stopAt]
    simp only [hzero, hmem, and_true, Option.map_none]
  | succ n ih =>
    intro d hbrace hsquare
    have hcloses : ¬(2 ^ 32 ∣ d .paren + 1 ∧ Bracket.closes .paren ∈ bytes ",") := fun h =>
      absurd h.2 (by decide)
    have hparen : d.deeper .paren .paren + n = d .paren + (n + 1) := by
      show d .paren + 1 + n = _
      omega
    rw [deep, Nested.stopAt, ih (d.deeper .paren) hbrace hsquare, hparen]
    by_cases hdvd : 2 ^ 32 ∣ d .paren + (n + 1)
    · rw [if_pos hdvd, if_pos hdvd]
      exact congrArg some (Nat.add_comm 1 n)
    · rw [if_neg hdvd, if_neg hdvd]
      show (if 2 ^ 32 ∣ d .paren + 1 ∧ Bracket.closes .paren ∈ bytes "," then _ else _) = _
      rw [if_neg hcloses]
      rfl

theorem firstStop_deep {n : ℕ} (h : 0 < n) : (deep n).firstStop (bytes ",") = none := by
  cases n with
  | zero => exact absurd h (Nat.lt_irrefl 0)
  | succ n => rfl

theorem length_deep (n : ℕ) : (deep n).text.length = 2 * n + 1 := by
  induction n with
  | zero => rfl
  | succ n ih =>
    rw [deep, Nested.text, List.length_cons, List.length_append, ih]
    show 2 * n + 1 + 1 + 1 = _
    omega

theorem skipExpr_deep_of_dvd {n : ℕ} (h : 2 ^ 32 ∣ n) :
    skipExpr (deep n).text 0 (bytes ",") = n := by
  have hat : (deep n).stopAt (bytes ",") (fun _ => 0) = some n := by
    rw [stopAt_deep _ _ rfl rfl, if_pos (by rwa [Nat.zero_add])]
  have hrun := skipExpr_nested [] (deep n) .nothing (bytes ",")
  rw [hat] at hrun
  rw [← List.append_nil (deep n).text]
  exact hrun.trans (Nat.zero_add n)

/-- Between 2³² parentheses a comma is taken for one of the top level. -/
theorem skipExpr_deep : skipExpr (deep (2 ^ 32)).text 0 (bytes ",") = 2 ^ 32 ∧
    (deep (2 ^ 32)).firstStop (bytes ",") = none ∧
    (deep (2 ^ 32)).text.length = 2 * 2 ^ 32 + 1 :=
  ⟨skipExpr_deep_of_dvd (Nat.dvd_refl _), firstStop_deep (Nat.two_pow_pos 32), length_deep _⟩

end Whatspec.Text

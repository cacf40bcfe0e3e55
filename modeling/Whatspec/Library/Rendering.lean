import Mathlib.Data.String.Basic

/-!
# Renderings that tell values apart

A rendering writes a value as characters.  It is `Delimited` when a text that begins with
a rendered value determines the value and where its rendering ends; such renderings are
injective, and they compose: a record is the concatenation of its fields between fixed
texts, a list is bracketed and separated by commas, a quoted string escapes its quotes.

Numbers are not delimited by themselves (`1` begins `12`), so a number is rendered together
with the character that follows it.
-/

namespace Whatspec.Library.Rendering

variable {α β : Type*}

/-- A fixed text.  Proofs about renderings read it as a whole, never character by character. -/
@[irreducible] def text (s : String) : List Char := s.toList

/-- A rendered value can be split off the front of any text. -/
def Delimited (f : α → List Char) : Prop :=
  ∀ (a b : α) (s t : List Char), f a ++ s = f b ++ t → a = b ∧ s = t

theorem Delimited.injective {f : α → List Char} (hf : Delimited f) : Function.Injective f := by
  intro a b h
  exact (hf a b [] [] (by rw [h])).1

/-- Two texts that differ in their first characters. -/
def apart : List Char → List Char → Bool
  | c :: _, d :: _ => c ≠ d
  | _, _ => false

theorem append_ne_of_apart {lit lit' : List Char} (h : apart lit lit' = true) (s t : List Char) :
    lit ++ s ≠ lit' ++ t := by
  intro heq
  cases lit with
  | nil => cases h
  | cons c cs =>
      cases lit' with
      | nil => cases h
      | cons d ds => exact absurd (List.cons.inj heq).1 (of_decide_eq_true h)

/-- Literals are told apart by their first characters. -/
theorem text_ne_text {l l' : String} (h : apart l.toList l'.toList = true) (s t : List Char) :
    text l ++ s ≠ text l' ++ t := by
  refine append_ne_of_apart ?_ s t
  rw [text, text]
  exact h

/-! ### Choices -/

/-- Yes-or-no, spelled out. -/
def bool : Bool → List Char
  | true => text "true"
  | false => text "false"

theorem bool_delimited : Delimited bool := by
  intro a b s t h
  cases a <;> cases b
  · exact ⟨rfl, List.append_cancel_left h⟩
  · exact absurd h (text_ne_text (by decide) s t)
  · exact absurd h (text_ne_text (by decide) s t)
  · exact ⟨rfl, List.append_cancel_left h⟩

/-- A value that may be missing. -/
def option (f : α → List Char) : Option α → List Char
  | none => text "None"
  | some a => text "Some(" ++ f a ++ text ")"

theorem option_delimited {f : α → List Char} (hf : Delimited f) : Delimited (option f) := by
  intro a b s t h
  cases a with
  | none =>
      cases b with
      | none => exact ⟨rfl, List.append_cancel_left h⟩
      | some b =>
          simp only [option, List.append_assoc] at h
          exact absurd h (text_ne_text (by decide) _ _)
  | some a =>
      cases b with
      | none =>
          simp only [option, List.append_assoc] at h
          exact absurd h (text_ne_text (by decide) _ _)
      | some b =>
          simp only [option, List.append_assoc] at h
          obtain ⟨hab, hrest⟩ := hf a b _ _ (List.append_cancel_left h)
          exact ⟨congrArg some hab, List.append_cancel_left hrest⟩

/-! ### Lists -/

/-- The elements after the first, each behind a separator, and the closing bracket. -/
def listTail (f : α → List Char) : List α → List Char
  | [] => text "]"
  | a :: as => text ", " ++ f a ++ listTail f as

/-- A bracketed list. -/
def list (f : α → List Char) : List α → List Char
  | [] => text "[" ++ text "]"
  | a :: as => text "[" ++ f a ++ listTail f as

/-- The rendering never starts like the end of a list. -/
def NotClosing (f : α → List Char) : Prop := ∀ a s t, f a ++ s ≠ text "]" ++ t

theorem listTail_delimited_of {f : α → List Char} {as : List α}
    (hf : ∀ a ∈ as, ∀ b s t, f a ++ s = f b ++ t → a = b ∧ s = t) :
    ∀ (bs : List α) (s t : List Char),
      listTail f as ++ s = listTail f bs ++ t → as = bs ∧ s = t := by
  induction as with
  | nil =>
      intro bs s t h
      cases bs with
      | nil => exact ⟨rfl, List.append_cancel_left h⟩
      | cons b bs =>
          simp only [listTail, List.append_assoc] at h
          exact absurd h (text_ne_text (by decide) _ _)
  | cons a as ih =>
      intro bs s t h
      cases bs with
      | nil =>
          simp only [listTail, List.append_assoc] at h
          exact absurd h (text_ne_text (by decide) _ _)
      | cons b bs =>
          simp only [listTail, List.append_assoc] at h
          obtain ⟨hab, hrest⟩ := hf a List.mem_cons_self b _ _ (List.append_cancel_left h)
          obtain ⟨hbs, hst⟩ := ih (fun x hx => hf x (List.mem_cons_of_mem a hx)) bs s t hrest
          exact ⟨by rw [hab, hbs], hst⟩

/-- A list of values that are told apart one by one. -/
theorem list_delimited_of {f : α → List Char} (hclose : NotClosing f) {as : List α}
    (hf : ∀ a ∈ as, ∀ b s t, f a ++ s = f b ++ t → a = b ∧ s = t) :
    ∀ (bs : List α) (s t : List Char), list f as ++ s = list f bs ++ t → as = bs ∧ s = t := by
  intro bs s t h
  cases as with
  | nil =>
      cases bs with
      | nil => exact ⟨rfl, List.append_cancel_left h⟩
      | cons b bs =>
          simp only [list, List.append_assoc] at h
          exact absurd (List.append_cancel_left h).symm (hclose b _ _)
  | cons a as =>
      cases bs with
      | nil =>
          simp only [list, List.append_assoc] at h
          exact absurd (List.append_cancel_left h) (hclose a _ _)
      | cons b bs =>
          simp only [list, List.append_assoc] at h
          obtain ⟨hab, hrest⟩ := hf a List.mem_cons_self b _ _ (List.append_cancel_left h)
          obtain ⟨hbs, hst⟩ := listTail_delimited_of
            (fun x hx => hf x (List.mem_cons_of_mem a hx)) bs s t hrest
          exact ⟨by rw [hab, hbs], hst⟩

theorem list_delimited {f : α → List Char} (hclose : NotClosing f) (hf : Delimited f) :
    Delimited (list f) := by
  intro as bs s t h
  exact list_delimited_of hclose (fun a _ b => hf a b) bs s t h

/-! ### Numbers -/

/-- Two runs of characters of one kind, each ended by a character of another kind or by the end
of the text. -/
theorem append_inj_of_ends (p : Char → Prop) {a b s t : List Char} (ha : ∀ x ∈ a, p x)
    (hb : ∀ x ∈ b, p x) (hs : ∀ c ∈ s.head?, ¬ p c) (ht : ∀ c ∈ t.head?, ¬ p c)
    (h : a ++ s = b ++ t) : a = b ∧ s = t := by
  induction a generalizing b with
  | nil =>
      cases b with
      | nil => exact ⟨rfl, h⟩
      | cons y b =>
          rw [List.nil_append] at h
          exact absurd (hb y List.mem_cons_self) (hs y (by rw [h]; rfl))
  | cons x a ih =>
      cases b with
      | nil =>
          rw [List.nil_append] at h
          exact absurd (ha x List.mem_cons_self) (ht x (by rw [← h]; rfl))
      | cons y b =>
          obtain ⟨hxy, hrest⟩ := List.cons.inj h
          obtain ⟨hab, hst⟩ := ih (fun z hz => ha z (List.mem_cons_of_mem x hz))
            (fun z hz => hb z (List.mem_cons_of_mem y hz)) hrest
          exact ⟨by rw [hxy, hab], hst⟩

/-- Two runs of characters of one kind, each ended by a character of another kind. -/
theorem append_inj_of_all (p : Char → Prop) {a b s t : List Char} {c d : Char}
    (ha : ∀ x ∈ a, p x) (hb : ∀ x ∈ b, p x) (hc : ¬ p c) (hd : ¬ p d)
    (h : a ++ c :: s = b ++ d :: t) : a = b ∧ c :: s = d :: t :=
  append_inj_of_ends p ha hb (fun x hx => Option.some.inj hx ▸ hc)
    (fun x hx => Option.some.inj hx ▸ hd) h

theorem digitChar_injective_of_lt_base {a b : ℕ} (ha : a < 16) (hb : b < 16)
    (h : Nat.digitChar a = Nat.digitChar b) : a = b := by
  have key : ∀ x y : Fin 16, Nat.digitChar x.val = Nat.digitChar y.val → x = y := by decide
  exact congrArg Fin.val (key ⟨a, ha⟩ ⟨b, hb⟩ h)

/-- **The digits of a number tell it**, in every base up to sixteen. -/
theorem toDigits_injective {base : ℕ} (hbase : 1 < base) (hle : base ≤ 16) :
    Function.Injective (Nat.toDigits base) := by
  intro m
  induction m using Nat.strong_induction_on with
  | _ m ih =>
    intro n h
    rw [Nat.toDigits_eq_if hbase, Nat.toDigits_eq_if (n := n) hbase] at h
    have hmod : ∀ k, k % base < 16 := fun k => by
      have hk : k % base < base := Nat.mod_lt k (by omega)
      omega
    by_cases hm : m < base <;> by_cases hn : n < base
    · rw [if_pos hm, if_pos hn] at h
      exact digitChar_injective_of_lt_base (by omega) (by omega) (List.cons.inj h).1
    · rw [if_pos hm, if_neg hn] at h
      have hlen := congrArg List.length h
      have hpos := Nat.length_toDigits_pos (b := base) (n := n / base)
      simp only [List.length_append, List.length_singleton] at hlen
      omega
    · rw [if_neg hm, if_pos hn] at h
      have hlen := congrArg List.length h
      have hpos := Nat.length_toDigits_pos (b := base) (n := m / base)
      simp only [List.length_append, List.length_singleton] at hlen
      omega
    · rw [if_neg hm, if_neg hn] at h
      obtain ⟨hhigh, hlow⟩ := List.append_inj' h rfl
      have hdiv : m / base = n / base := ih (m / base) (Nat.div_lt_self (by omega) hbase) hhigh
      have hrem : m % base = n % base :=
        digitChar_injective_of_lt_base (hmod m) (hmod n) (List.cons.inj hlow).1
      rw [← Nat.div_add_mod m base, hdiv, hrem, Nat.div_add_mod]

/-- A number and the character after it, when that is no digit. -/
theorem toDigits_append_inj {m n : ℕ} {s t : List Char} {c d : Char}
    (hc : c.isDigit = false) (hd : d.isDigit = false)
    (h : Nat.toDigits 10 m ++ c :: s = Nat.toDigits 10 n ++ d :: t) : m = n ∧ c :: s = d :: t := by
  have hall : ∀ k, ∀ x ∈ Nat.toDigits 10 k, x.isDigit = true := fun k x hx =>
    Nat.isDigit_of_mem_toDigits (by decide) (by decide) hx
  obtain ⟨hdigits, hrest⟩ := append_inj_of_all (fun x => x.isDigit = true) (hall m) (hall n)
    (by rw [hc]; decide) (by rw [hd]; decide) h
  exact ⟨toDigits_injective (by decide) (by decide) hdigits, hrest⟩

/-- A text that a number can be told apart from. -/
def endsNumber : List Char → Bool
  | c :: _ => !c.isDigit
  | [] => false

theorem endsNumber_text {l : String} (h : endsNumber l.toList = true) :
    endsNumber (text l) = true := by
  rw [text]
  exact h

/-- A signed decimal number. -/
def int (i : ℤ) : List Char :=
  if i < 0 then '-' :: Nat.toDigits 10 i.natAbs else Nat.toDigits 10 i.natAbs

theorem toDigits_ne_minus (k : ℕ) (r r' : List Char) : Nat.toDigits 10 k ++ r ≠ '-' :: r' := by
  intro heq
  cases hdigits : Nat.toDigits 10 k with
  | nil => exact Nat.toDigits_ne_nil hdigits
  | cons x xs =>
      rw [hdigits] at heq
      have hx : x.isDigit = true :=
        Nat.isDigit_of_mem_toDigits (by decide) (by decide) (hdigits ▸ List.mem_cons_self)
      rw [(List.cons.inj heq).1] at hx
      exact absurd hx (by decide)

/-- A number is told by its digits and the text behind it. -/
theorem int_append_inj {i j : ℤ} {sep s t : List Char} (hsep : endsNumber sep = true)
    (h : int i ++ (sep ++ s) = int j ++ (sep ++ t)) : i = j ∧ s = t := by
  cases sep with
  | nil => cases hsep
  | cons c cs =>
    have hc : c.isDigit = false := by
      rw [endsNumber, Bool.not_eq_true'] at hsep
      exact hsep
    have hcut : ∀ m n : ℕ,
        Nat.toDigits 10 m ++ (c :: cs ++ s) = Nat.toDigits 10 n ++ (c :: cs ++ t) →
          m = n ∧ s = t := by
      intro m n hmn
      obtain ⟨hdigits, hrest⟩ := toDigits_append_inj hc hc hmn
      exact ⟨hdigits, List.append_cancel_left (List.cons.inj hrest).2⟩
    unfold int at h
    by_cases hi : i < 0 <;> by_cases hj : j < 0
    · rw [if_pos hi, if_pos hj] at h
      obtain ⟨habs, hrest⟩ := hcut _ _ (List.cons.inj h).2
      exact ⟨by omega, hrest⟩
    · rw [if_pos hi, if_neg hj] at h
      exact absurd h.symm (toDigits_ne_minus _ _ _)
    · rw [if_neg hi, if_pos hj] at h
      exact absurd h (toDigits_ne_minus _ _ _)
    · rw [if_neg hi, if_neg hj] at h
      obtain ⟨habs, hrest⟩ := hcut _ _ h
      exact ⟨by omega, hrest⟩

/-! ### Quoted text -/

/-- The letter that stands for a character behind a backslash. -/
def shortEscape (c : Char) : Option Char :=
  if c = '"' then some '"'
  else if c = '\\' then some '\\'
  else if c = '\n' then some 'n'
  else if c = '\r' then some 'r'
  else if c = '\t' then some 't'
  else if c = '\x00' then some '0'
  else none

/-- One character inside a quoted text.  Quotes, backslashes and line breaks are escaped, and
so is every other character that is not `printable`. -/
def escape (printable : Char → Bool) (c : Char) : List Char :=
  match shortEscape c with
  | some x => ['\\', x]
  | none =>
      if printable c then [c]
      else '\\' :: 'u' :: '\x7b' :: (Nat.toDigits 16 c.toNat ++ ['\x7d'])

/-- A quoted text. -/
def quoted (printable : Char → Bool) (s : String) : List Char :=
  '"' :: (s.toList.flatMap (escape printable) ++ ['"'])

theorem quoted_notClosing (printable : Char → Bool) : NotClosing (quoted printable) := by
  intro v s t
  exact @append_ne_of_apart ['"'] _ (by decide +kernel) _ _

/-- What a letter behind a backslash stands for. -/
def unescape (x : Char) : Char :=
  if x = 'n' then '\n' else if x = 'r' then '\r' else if x = 't' then '\t'
  else if x = '0' then '\x00' else x

theorem unescape_of_shortEscape {c x : Char} (h : shortEscape c = some x) :
    unescape x = c ∧ x ≠ 'u' := by
  unfold shortEscape at h
  split_ifs at h with h1 h2 h3 h4 h5 h6 <;> cases h <;> subst_vars <;> decide

theorem shortEscape_eq_none {c : Char} (h : shortEscape c = none) : c ≠ '"' ∧ c ≠ '\\' := by
  constructor
  · rintro rfl
    cases h
  · rintro rfl
    cases h

theorem hex_ne_brace {n : ℕ} {x : Char} (h : x ∈ Nat.toDigits 16 n) : x ≠ '\x7d' := by
  induction n using Nat.strong_induction_on with
  | _ n ih =>
    rw [Nat.toDigits_eq_if (by decide)] at h
    have hdigit : ∀ d : Fin 16, Nat.digitChar d.val ≠ '\x7d' := by decide
    by_cases hn : n < 16
    · rw [if_pos hn, List.mem_singleton] at h
      rw [h]
      exact hdigit ⟨n, hn⟩
    · rw [if_neg hn, List.mem_append, List.mem_singleton] at h
      cases h with
      | inl hhigh => exact ih (n / 16) (by omega) hhigh
      | inr hlow =>
          rw [hlow]
          exact hdigit ⟨n % 16, Nat.mod_lt n (by decide)⟩

theorem char_toNat_injective {c d : Char} (h : c.toNat = d.toNat) : c = d :=
  Char.ext (UInt32.toNat_inj.mp h)

/-- The two long escapes are told apart. -/
theorem hex_append_inj {c d : Char} {s t : List Char}
    (h : Nat.toDigits 16 c.toNat ++ ['\x7d'] ++ s = Nat.toDigits 16 d.toNat ++ ['\x7d'] ++ t) :
    c = d ∧ s = t := by
  rw [List.append_assoc, List.append_assoc] at h
  obtain ⟨hdigits, hrest⟩ := append_inj_of_all (fun x => x ≠ '\x7d')
    (fun x hx => hex_ne_brace hx) (fun x hx => hex_ne_brace hx) (by decide) (by decide) h
  exact ⟨char_toNat_injective (toDigits_injective (by decide) (by decide) hdigits),
    (List.cons.inj hrest).2⟩

theorem escape_delimited (printable : Char → Bool) : Delimited (escape printable) := by
  intro c d s t h
  unfold escape at h
  cases hc : shortEscape c with
  | some x =>
      obtain ⟨hxc, hxu⟩ := unescape_of_shortEscape hc
      rw [hc] at h
      cases hd : shortEscape d with
      | some y =>
          rw [hd] at h
          obtain ⟨hxy, hst⟩ := List.cons.inj (List.cons.inj h).2
          exact ⟨by rw [← hxc, hxy, (unescape_of_shortEscape hd).1], hst⟩
      | none =>
          rw [hd] at h
          by_cases hp : printable d = true
          · simp only [if_pos hp] at h
            exact absurd (List.cons.inj h).1.symm (shortEscape_eq_none hd).2
          · simp only [if_neg hp] at h
            exact absurd (List.cons.inj (List.cons.inj h).2).1 hxu
  | none =>
      rw [hc] at h
      cases hd : shortEscape d with
      | some y =>
          rw [hd] at h
          by_cases hp : printable c = true
          · simp only [if_pos hp] at h
            exact absurd (List.cons.inj h).1 (shortEscape_eq_none hc).2
          · simp only [if_neg hp] at h
            exact absurd (List.cons.inj (List.cons.inj h).2).1.symm
              (unescape_of_shortEscape hd).2
      | none =>
          rw [hd] at h
          by_cases hpc : printable c = true <;> by_cases hpd : printable d = true
          · simp only [if_pos hpc, if_pos hpd] at h
            exact ⟨(List.cons.inj h).1, (List.cons.inj h).2⟩
          · simp only [if_pos hpc, if_neg hpd] at h
            exact absurd (List.cons.inj h).1 (shortEscape_eq_none hc).2
          · simp only [if_neg hpc, if_pos hpd] at h
            exact absurd (List.cons.inj h).1.symm (shortEscape_eq_none hd).2
          · simp only [if_neg hpc, if_neg hpd] at h
            exact hex_append_inj (List.cons.inj (List.cons.inj (List.cons.inj h).2).2).2

/-- An escaped character never reads as the closing quote. -/
theorem escape_ne_quote (printable : Char → Bool) (c : Char) (s t : List Char) :
    escape printable c ++ s ≠ '"' :: t := by
  intro h
  unfold escape at h
  cases hc : shortEscape c with
  | some x =>
      rw [hc] at h
      exact absurd (List.cons.inj h).1 (by decide)
  | none =>
      rw [hc] at h
      by_cases hp : printable c = true
      · simp only [if_pos hp] at h
        exact absurd (List.cons.inj h).1 (shortEscape_eq_none hc).1
      · simp only [if_neg hp] at h
        exact absurd (List.cons.inj h).1 (by decide)

/-- A text written character by character, none of them as nothing, is told by what is
written. -/
theorem flatMap_injective {esc : Char → List Char} (hesc : Delimited esc)
    (hne : ∀ c, esc c ≠ []) : Function.Injective (List.flatMap esc) := by
  intro cs
  induction cs with
  | nil =>
      intro ds h
      cases ds with
      | nil => rfl
      | cons d ds =>
          rw [List.flatMap_nil, List.flatMap_cons] at h
          exact absurd (List.append_eq_nil_iff.mp h.symm).1 (hne d)
  | cons c cs ih =>
      intro ds h
      cases ds with
      | nil =>
          rw [List.flatMap_nil, List.flatMap_cons] at h
          exact absurd (List.append_eq_nil_iff.mp h).1 (hne c)
      | cons d ds =>
          rw [List.flatMap_cons, List.flatMap_cons] at h
          obtain ⟨hcd, hrest⟩ := hesc c d _ _ h
          rw [hcd, ih hrest]

/-- **A text between quotes ends at its closing quote**, when its characters are told apart and
none reads as a quote. -/
theorem delimited_between_quotes {esc : Char → List Char} (hesc : Delimited esc)
    (hquote : ∀ c s t, esc c ++ s ≠ '"' :: t) :
    Delimited fun s : String => '"' :: (s.toList.flatMap esc ++ ['"']) := by
  have hchars : ∀ (cs ds s t : List Char),
      cs.flatMap esc ++ '"' :: s = ds.flatMap esc ++ '"' :: t → cs = ds ∧ s = t := by
    intro cs
    induction cs with
    | nil =>
        intro ds s t h
        cases ds with
        | nil => exact ⟨rfl, (List.cons.inj h).2⟩
        | cons d ds =>
            rw [List.flatMap_cons, List.append_assoc] at h
            exact absurd h.symm (hquote d _ _)
    | cons c cs ih =>
        intro ds s t h
        cases ds with
        | nil =>
            rw [List.flatMap_cons, List.append_assoc] at h
            exact absurd h (hquote c _ _)
        | cons d ds =>
            rw [List.flatMap_cons, List.flatMap_cons, List.append_assoc, List.append_assoc] at h
            obtain ⟨hcd, hrest⟩ := hesc c d _ _ h
            obtain ⟨hds, hst⟩ := ih ds s t hrest
            exact ⟨by rw [hcd, hds], hst⟩
  intro a b s t h
  simp only [List.cons_append, List.append_assoc] at h
  obtain ⟨hlist, hst⟩ := hchars a.toList b.toList s t (List.cons.inj h).2
  exact ⟨String.toList_inj.mp hlist, hst⟩

/-- **A quoted text ends at its own closing quote**, whichever characters are printable. -/
theorem quoted_delimited (printable : Char → Bool) : Delimited (quoted printable) :=
  delimited_between_quotes (escape_delimited printable) (escape_ne_quote printable)

end Whatspec.Library.Rendering

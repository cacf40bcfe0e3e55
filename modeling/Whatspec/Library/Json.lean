import Whatspec.Library.Rendering
import Whatspec.Library.SortedMap

/-!
# JSON values and their compact text

A JSON value is a tree; its objects are ordered maps, which `Json.WellFormed` asks of every
object in it.  Numbers are of any type that has a text (`JsonNumber`).

* `Json.text` is the compact text, and `text_injective` that it tells values apart, which is
  also how equality is decided;
* `WellFormed.ext`: two objects with the same lookups are the same.
-/

namespace Whatspec.Library

/-- A character of a number's text. -/
def isNumberChar (c : Char) : Bool :=
  c.isDigit || c = '-' || c = '+' || c = '.' || c = 'e' || c = 'E'

/-- Numbers, with a text that tells them apart. -/
class JsonNumber (ν : Type) where
  text : ν → List Char
  text_ne_nil : ∀ n, text n ≠ []
  text_chars : ∀ n, ∀ c ∈ text n, isNumberChar c = true
  text_injective : Function.Injective text

/-- Natural numbers have their decimal digits. -/
instance : JsonNumber ℕ where
  text := Nat.toDigits 10
  text_ne_nil _ := Nat.toDigits_ne_nil
  text_chars _ c hc := by
    have hdigit : c.isDigit = true := Nat.isDigit_of_mem_toDigits (by decide) (by decide) hc
    rw [isNumberChar, hdigit]
    rfl
  text_injective := Rendering.toDigits_injective (by decide) (by decide)

inductive Json (ν : Type) where
  | null
  | bool (b : Bool)
  | number (n : ν)
  | string (s : String)
  | array (items : List (Json ν))
  | object (fields : List (String × Json ν))

namespace Json

variable {ν : Type}

/-- Every object is an ordered map. -/
inductive WellFormed : Json ν → Prop
  | null : WellFormed .null
  | bool (b : Bool) : WellFormed (.bool b)
  | number (n : ν) : WellFormed (.number n)
  | string (s : String) : WellFormed (.string s)
  | array {items : List (Json ν)} (h : ∀ x ∈ items, WellFormed x) : WellFormed (.array items)
  | object {fields : List (String × Json ν)} (sorted : SortedMap.Sorted fields)
      (h : ∀ e ∈ fields, WellFormed e.2) : WellFormed (.object fields)

/-- Induction over a value: what holds of the values in it holds of it. -/
theorem induction {P : Json ν → Prop} (null : P .null) (bool : ∀ b, P (.bool b))
    (number : ∀ n, P (.number n)) (string : ∀ s, P (.string s))
    (array : ∀ items, (∀ x ∈ items, P x) → P (.array items))
    (object : ∀ fields, (∀ e ∈ fields, P e.2) → P (.object fields)) : ∀ v, P v
  | .null => null
  | .bool b => bool b
  | .number n => number n
  | .string s => string s
  | .array items =>
      array items fun x _ => induction null bool number string array object x
  | .object fields =>
      object fields fun e _ => induction null bool number string array object e.2
termination_by v => sizeOf v
decreasing_by
  · have := List.sizeOf_lt_of_mem ‹x ∈ items›
    simp only [Json.array.sizeOf_spec]
    omega
  · have := List.sizeOf_lt_of_mem ‹e ∈ fields›
    have hpair : sizeOf e = 1 + sizeOf e.1 + sizeOf e.2 := by cases e; rfl
    simp only [Json.object.sizeOf_spec]
    omega

/-! ### The text of a string -/

/-- The letter behind the backslash of a short escape. -/
def shortEscape (c : Char) : Option Char :=
  if c = '"' then some '"'
  else if c = '\\' then some '\\'
  else if c.toNat = 8 then some 'b'
  else if c.toNat = 9 then some 't'
  else if c.toNat = 10 then some 'n'
  else if c.toNat = 12 then some 'f'
  else if c.toNat = 13 then some 'r'
  else none

/-- One character of a string: a short escape, two hexadecimal digits of a control character,
or itself. -/
def escape (c : Char) : List Char :=
  match shortEscape c with
  | some x => ['\\', x]
  | none =>
      if c.toNat < 32 then
        ['\\', 'u', '0', '0', Nat.digitChar (c.toNat / 16), Nat.digitChar (c.toNat % 16)]
      else [c]

/-- A string between quotes. -/
def quoted (s : String) : List Char := '"' :: (s.toList.flatMap escape ++ ['"'])

/-- What the letter behind a backslash stands for. -/
def unescape (x : Char) : Char :=
  if x = 'b' then Char.ofNat 8 else if x = 't' then Char.ofNat 9
  else if x = 'n' then Char.ofNat 10 else if x = 'f' then Char.ofNat 12
  else if x = 'r' then Char.ofNat 13 else x

theorem unescape_of_shortEscape {c x : Char} (h : shortEscape c = some x) :
    unescape x = c ∧ x ≠ 'u' := by
  have hchar : ∀ n, c.toNat = n → c = Char.ofNat n := fun n hn => by
    rw [← hn, Char.ofNat_toNat]
  unfold shortEscape at h
  split_ifs at h with h1 h2 h3 h4 h5 h6 h7 <;> cases h
  · exact ⟨h1.symm, by decide⟩
  · exact ⟨h2.symm, by decide⟩
  · exact ⟨(hchar 8 h3).symm, by decide⟩
  · exact ⟨(hchar 9 h4).symm, by decide⟩
  · exact ⟨(hchar 10 h5).symm, by decide⟩
  · exact ⟨(hchar 12 h6).symm, by decide⟩
  · exact ⟨(hchar 13 h7).symm, by decide⟩

theorem shortEscape_eq_none {c : Char} (h : shortEscape c = none) : c ≠ '"' ∧ c ≠ '\\' := by
  constructor
  · rintro rfl
    cases h
  · rintro rfl
    cases h

theorem escape_delimited : Rendering.Delimited escape := by
  intro c d s t h
  unfold escape at h
  cases hc : shortEscape c with
  | some x =>
      obtain ⟨hxc, hxu⟩ := unescape_of_shortEscape hc
      rw [hc] at h
      cases hd : shortEscape d with
      | some y =>
          rw [hd] at h
          obtain ⟨hxy, hst⟩ := List.cons.inj (List.cons.inj h).2
          exact ⟨by rw [← hxc, hxy, (unescape_of_shortEscape hd).1], hst⟩
      | none =>
          rw [hd] at h
          by_cases hctl : d.toNat < 32
          · simp only [if_pos hctl] at h
            exact absurd (List.cons.inj (List.cons.inj h).2).1 hxu
          · simp only [if_neg hctl] at h
            exact absurd (List.cons.inj h).1.symm (shortEscape_eq_none hd).2
  | none =>
      rw [hc] at h
      cases hd : shortEscape d with
      | some y =>
          rw [hd] at h
          by_cases hctl : c.toNat < 32
          · simp only [if_pos hctl] at h
            exact absurd (List.cons.inj (List.cons.inj h).2).1.symm
              (unescape_of_shortEscape hd).2
          · simp only [if_neg hctl] at h
            exact absurd (List.cons.inj h).1 (shortEscape_eq_none hc).2
      | none =>
          rw [hd] at h
          by_cases hctlc : c.toNat < 32 <;> by_cases hctld : d.toNat < 32
          · simp only [if_pos hctlc, if_pos hctld, List.cons_append, List.nil_append,
              List.cons.injEq, true_and] at h
            obtain ⟨hhigh, hlow, hst⟩ := h
            have hdiv := Rendering.digitChar_injective_of_lt_base (by omega) (by omega) hhigh
            have hmod := Rendering.digitChar_injective_of_lt_base (by omega) (by omega) hlow
            exact ⟨Rendering.char_toNat_injective (by omega), hst⟩
          · simp only [if_pos hctlc, if_neg hctld] at h
            exact absurd (List.cons.inj h).1.symm (shortEscape_eq_none hd).2
          · simp only [if_neg hctlc, if_pos hctld] at h
            exact absurd (List.cons.inj h).1 (shortEscape_eq_none hc).2
          · simp only [if_neg hctlc, if_neg hctld] at h
            exact ⟨(List.cons.inj h).1, (List.cons.inj h).2⟩

theorem escape_ne_quote (c : Char) (s t : List Char) : escape c ++ s ≠ '"' :: t := by
  intro h
  unfold escape at h
  cases hc : shortEscape c with
  | some x =>
      rw [hc] at h
      exact absurd (List.cons.inj h).1 (by decide)
  | none =>
      rw [hc] at h
      by_cases hctl : c.toNat < 32
      · simp only [if_pos hctl] at h
        exact absurd (List.cons.inj h).1 (by decide)
      · simp only [if_neg hctl] at h
        exact absurd (List.cons.inj h).1 (shortEscape_eq_none hc).1

theorem quoted_delimited : Rendering.Delimited quoted :=
  Rendering.delimited_between_quotes escape_delimited escape_ne_quote

/-! ### The text of a value -/

section Text

variable [JsonNumber ν]

mutual

/-- The compact text of a value. -/
def text : Json ν → List Char
  | .null => "null".toList
  | .bool true => "true".toList
  | .bool false => "false".toList
  | .number n => JsonNumber.text n
  | .string s => quoted s
  | .array items => '[' :: itemsText true items
  | .object fields => '\x7b' :: fieldsText true fields

/-- The items left of an array, and its end. -/
def itemsText (isFirst : Bool) : List (Json ν) → List Char
  | [] => [']']
  | x :: rest => (if isFirst then [] else [',']) ++ (text x ++ itemsText false rest)

/-- The fields left of an object, and its end. -/
def fieldsText (isFirst : Bool) : List (String × Json ν) → List Char
  | [] => ['\x7d']
  | (k, v) :: rest =>
      (if isFirst then [] else [',']) ++ (quoted k ++ ':' :: (text v ++ fieldsText false rest))

end

/-- Which kind of value a text begins with. -/
def kindOf (c : Char) : ℕ :=
  if c = 'n' then 0 else if c = 't' then 1 else if c = 'f' then 2 else if c = '"' then 3
  else if c = '[' then 4 else if c = '\x7b' then 5 else if c = ',' then 7
  else if c = ']' then 8 else if c = '\x7d' then 9 else 6

/-- The kind of a value. -/
def kind : Json ν → ℕ
  | .null => 0
  | .bool true => 1
  | .bool false => 2
  | .string _ => 3
  | .array _ => 4
  | .object _ => 5
  | .number _ => 6

theorem kindOf_numberChar {c : Char} (h : isNumberChar c = true) : kindOf c = 6 := by
  unfold kindOf
  split_ifs with h1 h2 h3 h4 h5 h6 h7 h8 h9 <;> first | rfl | (subst_vars; revert h; decide)

/-- A text begins with a character of its kind. -/
theorem text_head (v : Json ν) : ∃ c cs, text v = c :: cs ∧ kindOf c = kind v := by
  cases v with
  | null => exact ⟨'n', _, rfl, rfl⟩
  | bool b => cases b <;> exact ⟨_, _, rfl, rfl⟩
  | number n =>
      obtain ⟨c, cs, hcs⟩ := List.exists_cons_of_ne_nil (JsonNumber.text_ne_nil n)
      refine ⟨c, cs, by rw [text, hcs], ?_⟩
      exact kindOf_numberChar (JsonNumber.text_chars n c (hcs ▸ List.mem_cons_self))
  | string s => exact ⟨'"', _, by rw [text, quoted], rfl⟩
  | array items => exact ⟨'[', _, by rw [text], rfl⟩
  | object fields => exact ⟨'\x7b', _, by rw [text], rfl⟩

/-- What may follow a value: nothing, or a character no number has. -/
def Ends (s : List Char) : Prop := ∀ c ∈ s.head?, isNumberChar c = false

theorem kind_eq_of_text {a b : Json ν} {s t : List Char} (h : text a ++ s = text b ++ t) :
    kind a = kind b := by
  obtain ⟨c, cs, hc, hkc⟩ := text_head a
  obtain ⟨d, ds, hd, hkd⟩ := text_head b
  rw [hc, hd] at h
  rw [← hkc, ← hkd, (List.cons.inj h).1]

/-- The text of a number and what may follow it. -/
theorem numberText_append_inj {m n : ν} {s t : List Char} (hs : Ends s) (ht : Ends t)
    (h : JsonNumber.text m ++ s = JsonNumber.text n ++ t) : m = n ∧ s = t := by
  have hends : ∀ {u : List Char}, Ends u → ∀ c ∈ u.head?, ¬ isNumberChar c = true := by
    intro u hu c hc
    rw [hu c hc]
    exact Bool.false_ne_true
  obtain ⟨htext, hst⟩ := Rendering.append_inj_of_ends (fun c => isNumberChar c = true)
    (JsonNumber.text_chars m) (JsonNumber.text_chars n) (hends hs) (hends ht) h
  exact ⟨JsonNumber.text_injective htext, hst⟩

/-- A value whose text, at the front of a longer one, tells it and where it ends. -/
def Told (a : Json ν) : Prop :=
  ∀ (b : Json ν) (s t : List Char), Ends s → Ends t → text a ++ s = text b ++ t → a = b ∧ s = t

theorem itemsText_false_head (xs : List (Json ν)) (s : List Char) :
    Ends (itemsText false xs ++ s) := by
  cases xs with
  | nil => exact fun c hc => by obtain rfl := Option.some.inj hc; rfl
  | cons x xs => exact fun c hc => by obtain rfl := Option.some.inj hc; rfl

theorem fieldsText_false_head (fs : List (String × Json ν)) (s : List Char) :
    Ends (fieldsText false fs ++ s) := by
  cases fs with
  | nil => exact fun c hc => by obtain rfl := Option.some.inj hc; rfl
  | cons f fs => exact fun c hc => by obtain rfl := Option.some.inj hc; rfl

/-- The text of an item and the end of an array do not begin alike. -/
theorem text_ne_close (v : Json ν) (s t : List Char) : text v ++ s ≠ ']' :: t := by
  intro h
  obtain ⟨c, cs, hc, hk⟩ := text_head v
  rw [hc] at h
  obtain rfl : c = ']' := (List.cons.inj h).1
  have hkind : kind v = 8 := hk.symm
  cases v with
  | bool b => cases b <;> cases hkind
  | _ => cases hkind

theorem itemsText_append_inj {xs : List (Json ν)} (h : ∀ x ∈ xs, Told x) (isFirst : Bool)
    (ys : List (Json ν)) (s t : List Char)
    (heq : itemsText isFirst xs ++ s = itemsText isFirst ys ++ t) : xs = ys ∧ s = t := by
  induction xs generalizing isFirst ys with
  | nil =>
      cases ys with
      | nil =>
          rw [itemsText] at heq
          exact ⟨rfl, (List.cons.inj heq).2⟩
      | cons y ys =>
          rw [itemsText, itemsText] at heq
          cases isFirst with
          | true =>
              simp only [if_true, List.nil_append, List.append_assoc] at heq
              exact absurd heq.symm (text_ne_close _ _ _)
          | false => exact absurd (List.cons.inj heq).1 (by decide)
  | cons x xs ih =>
      obtain ⟨hx, hxs⟩ := List.forall_mem_cons.mp h
      cases ys with
      | nil =>
          rw [itemsText, itemsText] at heq
          cases isFirst with
          | true =>
              simp only [if_true, List.nil_append, List.append_assoc] at heq
              exact absurd heq (text_ne_close _ _ _)
          | false => exact absurd (List.cons.inj heq).1 (by decide)
      | cons y ys =>
          rw [itemsText, itemsText] at heq
          simp only [List.append_assoc] at heq
          have hbody := List.append_cancel_left heq
          obtain ⟨rfl, hrest⟩ := hx y _ _ (itemsText_false_head _ _)
            (itemsText_false_head _ _) hbody
          obtain ⟨rfl, hst⟩ := ih hxs false ys hrest
          exact ⟨rfl, hst⟩

theorem fieldsText_append_inj {fs : List (String × Json ν)} (h : ∀ e ∈ fs, Told e.2)
    (isFirst : Bool) (gs : List (String × Json ν)) (s t : List Char)
    (heq : fieldsText isFirst fs ++ s = fieldsText isFirst gs ++ t) : fs = gs ∧ s = t := by
  induction fs generalizing isFirst gs with
  | nil =>
      cases gs with
      | nil =>
          rw [fieldsText] at heq
          exact ⟨rfl, (List.cons.inj heq).2⟩
      | cons g gs =>
          rw [fieldsText, fieldsText, quoted] at heq
          cases isFirst <;> exact absurd (List.cons.inj heq).1 (by decide)
  | cons f fs ih =>
      obtain ⟨hf, hfs⟩ := List.forall_mem_cons.mp h
      obtain ⟨k, v⟩ := f
      cases gs with
      | nil =>
          rw [fieldsText, fieldsText, quoted] at heq
          cases isFirst <;> exact absurd (List.cons.inj heq).1 (by decide)
      | cons g gs =>
          obtain ⟨k', v'⟩ := g
          rw [fieldsText, fieldsText] at heq
          simp only [List.append_assoc] at heq
          have hbody := List.append_cancel_left heq
          obtain ⟨rfl, hvalue⟩ := quoted_delimited _ _ _ _ hbody
          have hvalue' := (List.cons.inj hvalue).2
          simp only [List.append_eq, List.append_assoc] at hvalue'
          obtain ⟨rfl, hrest⟩ := hf v' _ _ (fieldsText_false_head _ _)
            (fieldsText_false_head _ _) hvalue'
          obtain ⟨rfl, hst⟩ := ih hfs false gs hrest
          exact ⟨rfl, hst⟩

/-- **Every value is told by its text.** -/
theorem told (a : Json ν) : Told a := by
  induction a using induction with
  | null =>
      intro b s t _ _ h
      have hkind := kind_eq_of_text h
      cases b with
      | null => exact ⟨rfl, List.append_cancel_left h⟩
      | bool b => cases b <;> cases hkind
      | _ => cases hkind
  | bool x =>
      intro b s t _ _ h
      have hkind := kind_eq_of_text h
      cases b with
      | bool y =>
          cases x <;> cases y
          · exact ⟨rfl, List.append_cancel_left h⟩
          · cases hkind
          · cases hkind
          · exact ⟨rfl, List.append_cancel_left h⟩
      | _ => cases x <;> cases hkind
  | number n =>
      intro b s t hs ht h
      have hkind := kind_eq_of_text h
      cases b with
      | number m =>
          rw [text, text] at h
          obtain ⟨rfl, hst⟩ := numberText_append_inj hs ht h
          exact ⟨rfl, hst⟩
      | bool b => cases b <;> cases hkind
      | _ => cases hkind
  | string x =>
      intro b s t _ _ h
      have hkind := kind_eq_of_text h
      cases b with
      | string y =>
          rw [text, text] at h
          obtain ⟨rfl, hst⟩ := quoted_delimited _ _ _ _ h
          exact ⟨rfl, hst⟩
      | bool b => cases b <;> cases hkind
      | _ => cases hkind
  | array items ih =>
      intro b s t _ _ h
      have hkind := kind_eq_of_text h
      cases b with
      | array items' =>
          rw [text, text] at h
          obtain ⟨rfl, hst⟩ := itemsText_append_inj ih true items' s t (List.cons.inj h).2
          exact ⟨rfl, hst⟩
      | bool b => cases b <;> cases hkind
      | _ => cases hkind
  | object fields ih =>
      intro b s t _ _ h
      have hkind := kind_eq_of_text h
      cases b with
      | object fields' =>
          rw [text, text] at h
          obtain ⟨rfl, hst⟩ := fieldsText_append_inj ih true fields' s t (List.cons.inj h).2
          exact ⟨rfl, hst⟩
      | bool b => cases b <;> cases hkind
      | _ => cases hkind

theorem text_injective : Function.Injective (text : Json ν → List Char) := by
  intro a b h
  have hnil : Ends [] := fun c hc => nomatch hc
  exact (told a b [] [] hnil hnil (by rw [h])).1

/-- Equality is decided on the texts. -/
instance : DecidableEq (Json ν) := fun a b =>
  decidable_of_iff (text a = text b) text_injective.eq_iff

end Text

end Json

end Whatspec.Library

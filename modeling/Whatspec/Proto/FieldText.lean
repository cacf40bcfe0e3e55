import Whatspec.Proto.Grammar
import Whatspec.Proto.Stringify

/-!
# The line of a field is read back

`Writable` is what the grammar asks of a tree: the names are identifiers, a field of a message has
one label unless it is a map, a type is a scalar or a name with dots, a field number is not negative
and a default that is not quoted is an identifier or a number.

Each piece of a line is read back with the separator behind it: types, the options between the
brackets, the name and the number.

* `TypeText.tokens`: a type, up to the name behind it;
* `constant_tokens`: a default, in quotes or bare;
* `number_tokens`: a field number and all the options of its field;
* **`field_statement`**, `oneof_field`: the line of a field is one statement of its block.
-/

namespace Whatspec.Proto

open Whatspec.Library Whatspec.Library.Protobuf Whatspec.Library.Reader Whatspec.Proto.Grammar

/-! ### Trees the grammar has a text for -/

/-- A type and the word it begins with. -/
inductive TypeText : String → String → Prop
  | scalar {w} : w ∈ scalarTypes → TypeText w w
  | named {first parts} : isIdentifier first = true → (∀ p ∈ parts, isIdentifier p = true) →
      String.ofList first ∉ scalarTypes → String.ofList first ≠ "group" →
      TypeText (String.ofList first) (String.ofList (first ++ dottedText parts))

/-- A default that is not quoted: an identifier or a number with its sign. -/
def isBareDefault (d : List Char) : Bool :=
  isIdentifier d || isNumber d || (d.head? = some '-' && isNumber d.tail)

/-- A field but for its type and label. -/
structure WritableField (f : ProtoField) : Prop where
  name : isIdentifier f.name.toList = true
  id : 0 ≤ f.id
  default : ∀ d, f.default = some d → f.isText = false → isBareDefault d.toList = true

inductive WritableMember : ProtoMember → Prop
  | labelled {f l w} : WritableField f → l ∈ labels → f.flags = [l] → TypeText w f.typeName →
      WritableMember (.field f)
  | map {f k v w} : WritableField f → f.flags = [] → k ∈ mapKeyTypes → TypeText w v →
      f.typeName = "map<" ++ k ++ ", " ++ v ++ ">" → WritableMember (.field f)
  | oneOf {o} : isIdentifier o.name.toList = true →
      (∀ f ∈ o.fields, WritableField f ∧ f.flags = [] ∧
        ∃ w, TypeText w f.typeName ∧ w ≠ "option" ∧ w ∉ labels) →
      WritableMember (.oneOf o)

/-- A declaration that the grammar has a text for. -/
inductive Writable : ProtoEntity → Prop
  | message {n members nested} : isIdentifier n.toList = true →
      (∀ m ∈ members, WritableMember m) → (∀ e ∈ nested, Writable e) →
      Writable (.message n members nested)
  | enum {e} : isIdentifier e.name.toList = true →
      (∀ v ∈ e.values, isIdentifier v.name.toList = true ∧ v.name ≠ "option" ∧
        v.name ≠ "reserved") → Writable (.enum e)

/-! ### Pieces of a line -/

theorem separates_mark {c : Char} (h : c ∈ [';', '=', ',', '[', ']', '<', '>', '\x7b', '\x7d']) :
    Separates c [.symbol c] := by
  simp only [List.mem_cons, List.not_mem_nil, or_false] at h
  rcases h with rfl | rfl | rfl | rfl | rfl | rfl | rfl | rfl | rfl <;>
    exact separates_symbol (by decide) (by decide)

theorem lexes_mark {c : Char} (h : c ∈ [';', '=', ',', '[', ']', '<', '>', '\x7b', '\x7d']) :
    Lexes [c] [.symbol c] := Runs.step (separates_mark h).starts

theorem lexes_space : Lexes [' '] [] := Lexes.blank (by decide)

/-- A word and a blank. -/
theorem lexes_word {w : String} (h : isIdentifier w.toList = true) :
    Lexes (w.toList ++ [' ']) [.word w] := by
  have hword := Lexes.word h separates_blank
  rwa [String.ofList_toList] at hword

/-- The equals sign between blanks. -/
theorem lexes_equals : Lexes ['=', ' '] [.symbol '='] :=
  (lexes_mark (c := '=') (by decide)).append lexes_space

theorem reads_expect (t : Token) : Reads (expect t) [t] () := by
  refine (reads_next t).bind_last ?_
  rw [if_pos rfl]
  exact reads_pure ()

theorem reads_symbol (c : Char) : Reads (symbol c) [.symbol c] () := reads_expect _

theorem reads_given {α : Type} {x : Option α} {v : α} (h : x = some v) :
    Reads (given x : Parser α) [] v := by
  subst h
  exact fun _ => rfl

theorem reads_word (w : String) : Reads word [.word w] w := by
  show Reads (next >>= fun t => given (Word.of t)) [.word w] w
  exact (reads_next (Token.word w)).bind_last (reads_given rfl)

/-! ### Types -/

theorem dottedRest_eq {parts : List (List Char)} {rest : List Token}
    (h : rest.head? ≠ some (.symbol '.')) :
    dottedRest (dottedTokens parts ++ rest) = (String.ofList (dottedText parts), rest) := by
  induction parts with
  | nil =>
    show dottedRest rest = ("", rest)
    unfold dottedRest
    split
    · next c w rest' =>
      rw [if_neg]
      rintro rfl
      exact h rfl
    · rfl
  | cons p parts ih =>
    show dottedRest (.symbol '.' :: .word (String.ofList p) :: (dottedTokens parts ++ rest)) = _
    have htext : dottedText (p :: parts) = ['.'] ++ p ++ dottedText parts := rfl
    rw [dottedRest, if_pos rfl, ih, htext, String.ofList_append, String.ofList_append]

/-- The tokens of a type behind its first word. -/
theorem TypeText.tokens {w t : String} (h : TypeText w t) : ∃ us,
    (∀ c ts, Separates c ts → Lexes (t.toList ++ [c]) (.word w :: us ++ ts)) ∧
      ∀ rest, rest.head? ≠ some (.symbol '.') →
        (typeFrom (.word w)).run (us ++ rest) = some (t, rest) := by
  cases h with
  | scalar hmem =>
    refine ⟨[], fun c ts hc => ?_, fun rest _ => ?_⟩
    · have hkey : ∀ w ∈ scalarTypes, isIdentifier w.toList = true := by decide
      have hword := Lexes.word (hkey w hmem) hc
      rwa [String.ofList_toList] at hword
    · show (if w ∈ scalarTypes then (pure w : Parser String) else _) rest = _
      rw [if_pos hmem]
      rfl
  | named hfirst hparts hscalar hgroup =>
    rename_i first parts
    refine ⟨dottedTokens parts, fun c ts hc => ?_, fun rest hrest => ?_⟩
    · rw [String.toList_ofList]
      exact Lexes.dotted hfirst hparts hc
    · show (if String.ofList first ∈ scalarTypes then (pure _ : Parser String) else _) _ = _
      rw [if_neg hscalar, if_neg hgroup]
      show some (String.ofList first ++ (dottedRest (dottedTokens parts ++ rest)).1,
        (dottedRest (dottedTokens parts ++ rest)).2) = _
      rw [dottedRest_eq hrest, String.ofList_append]

/-- A type in front of a name. -/
theorem reads_typeFrom_bind {β : Type} {w t n : String} {us vs : List Token} {y : β}
    {k : String → Parser β}
    (h : ∀ rest, rest.head? ≠ some (Token.symbol '.') →
      (typeFrom (.word w)).run (us ++ rest) = some (t, rest))
    (hk : Reads (k t) (.word n :: vs) y) :
    Reads (typeFrom (.word w) >>= k) (us ++ .word n :: vs) y := by
  intro rest
  rw [StateT.run_bind, List.append_assoc, h _ (by simp)]
  exact hk rest

/-! ### Options -/

theorem lexes_escapeDefault (c : Char) (s : List Char) :
    Runs (.quoted '"' s) (escapeDefault c) [] (.quoted '"' (s ++ [c])) := by
  rw [escapeDefault]
  split_ifs with hback hquote hline hreturn htab hcontrol
  · subst hback
    exact runs_simpleEscape s (by decide) (by decide)
  · subst hquote
    exact runs_simpleEscape s (by decide) (by decide)
  · subst hline
    exact runs_simpleEscape s (by decide) (by decide)
  · subst hreturn
    exact runs_simpleEscape s (by decide) (by decide)
  · subst htab
    exact runs_simpleEscape s (by decide) (by decide)
  · have hlt : c.toNat < 128 := by
      rw [isAsciiControl, Bool.or_eq_true, decide_eq_true_eq, decide_eq_true_eq] at hcontrol
      omega
    have hdigits : ∀ n : Fin 128, (Nat.toDigits 8 n.val).leftpad 3 '0' = octalDigits n.val := by
      decide
    have hoctal := runs_octal (q := '"') (by decide) s hlt
    rw [Char.ofNat_toNat] at hoctal
    rw [hdigits ⟨c.toNat, hlt⟩]
    exact hoctal
  · refine runs_plainChar s hquote hback hline ?_
    rintro rfl
    exact hcontrol (by decide)

/-- The value of a default by the grammar. -/
def constantOf (f : ProtoField) (d : String) : Constant :=
  if f.isText then .text d else .bare d

/-- The text of a default behind the equals sign. -/
def constantText (f : ProtoField) (d : String) : List Char :=
  if f.isText then '"' :: (d.toList.flatMap escapeDefault ++ ['"']) else d.toList

theorem defaultOption_eq (f : ProtoField) (d : String) :
    defaultOption f d = "default".toList ++ [' '] ++ ['=', ' '] ++ constantText f d := by
  rw [defaultOption, constantText]
  split_ifs
  · rfl
  · rfl

/-- A default and the separator behind it. -/
theorem constant_tokens {f : ProtoField} (hf : WritableField f) {d : String}
    (hd : f.default = some d) : ∃ us,
      (∀ c ts, Separates c ts → Lexes (constantText f d ++ [c]) (us ++ ts)) ∧
        Reads constant us (constantOf f d) := by
  rw [constantText, constantOf]
  by_cases htext : f.isText = true
  · rw [if_pos htext, if_pos htext]
    refine ⟨[.str d], fun c ts hc => ?_, (reads_next (Token.str d)).bind_last (reads_pure _)⟩
    have hquoted := Lexes.quoted lexes_escapeDefault d.toList
    rw [String.ofList_toList] at hquoted
    exact hquoted.append (Runs.step hc.starts)
  rw [if_neg htext, if_neg htext]
  have hbare := hf.default d hd (Bool.eq_false_iff.mpr htext)
  rw [isBareDefault, Bool.or_eq_true, Bool.or_eq_true] at hbare
  rcases hbare with (hword | hnumber) | hsigned
  · refine ⟨[.word d], fun c ts hc => ?_, (reads_next (Token.word d)).bind_last (reads_pure _)⟩
    have hlexes := Lexes.word hword hc
    rwa [String.ofList_toList] at hlexes
  · refine ⟨[.number d], fun c ts hc => ?_, (reads_next (Token.number d)).bind_last (reads_pure _)⟩
    have hlexes := Lexes.numeral hnumber hc
    rwa [String.ofList_toList] at hlexes
  · rw [Bool.and_eq_true, decide_eq_true_eq] at hsigned
    obtain ⟨hminus, hnumber⟩ := hsigned
    obtain ⟨w, hw⟩ : ∃ w, d.toList = '-' :: w := by
      cases hchars : d.toList with
      | nil =>
        rw [hchars] at hminus
        cases hminus
      | cons c w =>
        rw [hchars] at hminus
        cases hminus
        exact ⟨w, rfl⟩
    rw [hw, List.tail_cons] at hnumber
    have hname : d = "-" ++ String.ofList w := by
      rw [← String.ofList_toList (s := d), hw]
      exact @String.ofList_append ['-'] w
    refine ⟨[.symbol '-', .number (String.ofList w)], fun c ts hc => ?_, ?_⟩
    · have hsign : Lexes ['-'] [.symbol '-'] := Lexes.symbol (by decide)
      rw [hw]
      exact hsign.append (Lexes.numeral hnumber hc)
    · refine (reads_next (Token.symbol '-')).bind ?_
      refine (reads_next (Token.number (String.ofList w))).bind_last ?_
      rw [hname]
      exact reads_pure _

/-- An option between the brackets, with the separator behind it. -/
def OptionText (o : Line) (p : String × Constant) : Prop := ∃ us,
  (∀ c ts, Separates c ts → Lexes (o ++ [c]) (us ++ ts)) ∧ Reads fieldOption us p

theorem reads_fieldOption {n : String} {us : List Token} {c : Constant}
    (h : Reads constant us c) : Reads fieldOption (.word n :: .symbol '=' :: us) (n, c) :=
  (reads_word n).bind ((reads_symbol '=').bind (h.bind_last (reads_pure (n, c))))

theorem optionText_packed : OptionText "packed = true".toList ("packed", .bare "true") := by
  refine ⟨[.word "packed", .symbol '=', .word "true"], fun c ts hc => ?_, ?_⟩
  · have hname := lexes_word (w := "packed") (by decide)
    have hvalue := Lexes.word (w := "true".toList) (by decide) hc
    rw [String.ofList_toList] at hvalue
    exact hname.append (lexes_equals.append hvalue)
  · exact reads_fieldOption ((reads_next (Token.word "true")).bind_last (reads_pure _))

theorem optionText_default {f : ProtoField} (hf : WritableField f) {d : String}
    (hd : f.default = some d) : OptionText (defaultOption f d) ("default", constantOf f d) := by
  obtain ⟨us, hlexes, hreads⟩ := constant_tokens hf hd
  refine ⟨.word "default" :: .symbol '=' :: us, fun c ts hc => ?_, reads_fieldOption hreads⟩
  have hname := lexes_word (w := "default") (by decide)
  have hwhole := hname.append (lexes_equals.append (hlexes c ts hc))
  rw [defaultOption_eq]
  simpa only [List.append_assoc, List.cons_append, List.nil_append] using hwhole

/-- The options of a field by the grammar. -/
def optionPairs (f : ProtoField) : List (String × Constant) :=
  (if f.packed then [("packed", .bare "true")] else []) ++
    match f.default with
    | some d => [("default", constantOf f d)]
    | none => []

theorem optionTexts {f : ProtoField} (hf : WritableField f) :
    List.Forall₂ OptionText (fieldOptions f) (optionPairs f) := by
  rw [fieldOptions, optionPairs]
  refine List.rel_append ?_ ?_
  · split_ifs
    · exact .cons optionText_packed .nil
    · exact .nil
  · cases hd : f.default with
    | none => exact .nil
    | some d => exact .cons (optionText_default hf hd) .nil

theorem fieldFrom_optionPairs (f : ProtoField) :
    fieldFrom f.flags f.typeName f.name f.id (optionPairs f) = some f := by
  obtain ⟨name, id, typeName, flags, packed, default⟩ := f
  cases htext : (decide (typeName = "string") || decide (typeName = "bytes")) <;>
    cases packed <;> cases default <;>
    simp [fieldFrom, optionPairs, constantOf, ProtoField.isText, packedOf, defaultOf, htext,
      List.lookup]

theorem intercalate_cons_flatMap (sep o : Line) (os : List Line) :
    sep.intercalate (o :: os) = o ++ os.flatMap (sep ++ ·) := by
  induction os generalizing o with
  | nil => simp [List.intercalate]
  | cons o' os ih =>
    rw [List.intercalate_cons_cons, ih, List.flatMap_cons]
    simp only [List.append_assoc]

/-- The options behind the first. -/
theorem moreOptions_tokens {opts : List Line} {pairs : List (String × Constant)}
    (h : List.Forall₂ OptionText opts pairs) : ∀ {o : Line} {p : String × Constant},
      OptionText o p → ∃ us cs,
        Lexes (o ++ (opts.flatMap ([',', ' '] ++ ·) ++ [']'])) (us ++ cs) ∧
          Reads fieldOption us p ∧ opts.length < cs.length ∧
          ∀ n rest, opts.length < n → (moreOptions n).run (cs ++ rest) = some (pairs, rest) := by
  induction h with
  | nil =>
    intro o p ho
    obtain ⟨us, hlexes, hreads⟩ := ho
    refine ⟨us, [.symbol ']'], hlexes ']' _ (separates_mark (by decide)), hreads, ?_, ?_⟩
    · simp
    intro n rest hn
    obtain ⟨n, rfl⟩ : ∃ k, n = k + 1 := ⟨n - 1, by omega⟩
    rfl
  | @cons o' p' opts pairs ho' _ ih =>
    intro o p ho
    obtain ⟨us, hlexes, hreads⟩ := ho
    obtain ⟨us', cs', hlexes', hreads', hlength, hmore⟩ := ih ho'
    refine ⟨us, .symbol ',' :: (us' ++ cs'), ?_, hreads, ?_, ?_⟩
    · have hcomma := hlexes ',' _ (separates_mark (by decide))
      have hwhole := hcomma.append (lexes_space.append hlexes')
      rw [List.flatMap_cons]
      simpa only [List.append_assoc, List.cons_append, List.nil_append] using hwhole
    · simp only [List.length_cons, List.length_append]
      omega
    · intro n rest hn
      obtain ⟨n, rfl⟩ : ∃ k, n = k + 1 := ⟨n - 1, by omega⟩
      rw [List.length_cons] at hn
      have hrest := hmore n rest (by omega)
      have hfirst := hreads' (cs' ++ rest)
      show ((fieldOption >>= fun o => moreOptions n >>= fun os => pure (o :: os)) :
        Parser (List (String × Constant))).run ((us' ++ cs') ++ rest) = _
      rw [List.append_assoc, StateT.run_bind, hfirst]
      show ((moreOptions n >>= fun os => pure (p' :: os)) :
        Parser (List (String × Constant))).run (cs' ++ rest) = _
      rw [StateT.run_bind, hrest]
      rfl

/-- What stands behind the number of a field. -/
def optionsText (f : ProtoField) : Line :=
  if (fieldOptions f).isEmpty then []
  else " [".toList ++ [',', ' '].intercalate (fieldOptions f) ++ [']']

theorem number_tokens {f : ProtoField} (hf : WritableField f) (n : ℕ) : ∃ us,
    Lexes (Nat.toDigits 10 n ++ optionsText f ++ [';'])
      (.number (String.ofList (Nat.toDigits 10 n)) :: us) ∧
        Reads optionsAndEnd us (optionPairs f) := by
  have hopts := optionTexts hf
  have hend : Lexes [';'] [.symbol ';'] := lexes_mark (by decide)
  rw [optionsText]
  cases hlist : fieldOptions f with
  | nil =>
    rw [hlist] at hopts
    have hpairs : optionPairs f = [] := List.forall₂_nil_left_iff.mp hopts
    refine ⟨[.symbol ';'], ?_, ?_⟩
    · rw [if_pos List.isEmpty_nil, List.append_nil]
      exact Lexes.number n (separates_mark (by decide))
    · rw [hpairs]
      exact (reads_next (Token.symbol ';')).bind_last (reads_pure _)
  | cons o opts =>
    rw [hlist] at hopts
    cases hpairs : optionPairs f with
    | nil =>
      rw [hpairs] at hopts
      cases hopts
    | cons p pairs =>
      rw [hpairs] at hopts
      cases hopts with
      | cons ho hrest =>
        obtain ⟨us, cs, hlexes, hreads, hlength, hmore⟩ := moreOptions_tokens hrest ho
        refine ⟨.symbol '[' :: (us ++ (cs ++ [.symbol ';'])), ?_, ?_⟩
        · have hopen : Lexes ['['] [.symbol '['] := lexes_mark (by decide)
          have hwhole := (Lexes.number n separates_blank).append
            (hopen.append (hlexes.append hend))
          have hbracket : " [".toList = [' ', '['] := rfl
          rw [if_neg (by simp), intercalate_cons_flatMap, hbracket]
          simpa only [List.append_assoc, List.cons_append, List.nil_append] using hwhole
        · refine (reads_next (Token.symbol '[')).bind ?_
          rw [if_neg (by simp), if_pos rfl]
          refine hreads.bind ?_
          intro rest
          rw [List.append_assoc, List.singleton_append]
          have hfuel := hmore (cs ++ .symbol ';' :: rest).length (.symbol ';' :: rest)
            (by simp only [List.length_append]; omega)
          show ((moreOptions (cs ++ Token.symbol ';' :: rest).length >>= fun os =>
            symbol ';' >>= fun _ => pure (p :: os)) :
              Parser (List (String × Constant))).run (cs ++ Token.symbol ';' :: rest) = _
          have hsemicolon : Reads (symbol ';' >>= fun _ => (pure (p :: pairs) : Parser _))
              [.symbol ';'] (p :: pairs) := (reads_symbol ';').bind_last (reads_pure _)
          rw [StateT.run_bind, hfuel]
          exact hsemicolon rest

/-! ### Fields -/

/-- What stands behind the type of a field. -/
def fieldTail (f : ProtoField) : Line :=
  f.name.toList ++ [' '] ++ ['=', ' '] ++
    (Nat.toDigits 10 f.id.natAbs ++ optionsText f ++ [';'])

theorem fieldTail_tokens {f : ProtoField} (hf : WritableField f) : ∃ us,
    Lexes (fieldTail f) (.word f.name :: us) ∧
      Reads (field f.flags f.typeName) (.word f.name :: us) f := by
  obtain ⟨us, hlexes, hreads⟩ := number_tokens hf f.id.natAbs
  refine ⟨.symbol '=' :: .number (String.ofList (Nat.toDigits 10 f.id.natAbs)) :: us, ?_, ?_⟩
  · have hwhole := (lexes_word hf.name).append (lexes_equals.append hlexes)
    rw [fieldTail]
    simpa only [List.append_assoc, List.cons_append, List.nil_append] using hwhole
  · have hnumber : numberOf (.number (String.ofList (Nat.toDigits 10 f.id.natAbs))) =
        some f.id.natAbs := by
      rw [numberOf, String.toList_ofList, intValue_toDigits]
    have hid : ((f.id.natAbs : ℕ) : ℤ) = f.id := Int.natAbs_of_nonneg hf.id
    have hfield : fieldFrom f.flags f.typeName f.name (f.id.natAbs : ℕ) (optionPairs f) = some f := by
      rw [hid]
      exact fieldFrom_optionPairs f
    refine (reads_word f.name).bind ((reads_symbol '=').bind ((reads_next _).bind ?_))
    exact Reads.bind_given hnumber (hreads.bind_last (reads_given hfield))

theorem fieldLine_eq (f : ProtoField) (h : 0 ≤ f.id) :
    fieldLine f = [' '].intercalate (f.flags.map String.toList) ++
      (if f.flags.isEmpty then [] else [' ']) ++ f.typeName.toList ++ [' '] ++ fieldTail f := by
  have hid : Rendering.int f.id = Nat.toDigits 10 f.id.natAbs := if_neg (not_lt.mpr h)
  have hequals : " = ".toList = [' ', '=', ' '] := rfl
  simp only [fieldLine, fieldTail, optionsText, hid, hequals, List.append_assoc, List.cons_append,
    List.nil_append]

/-- A field with a type that has its own tokens. -/
theorem typed_tokens {f : ProtoField} (hf : WritableField f) {w : String}
    (ht : TypeText w f.typeName) : ∃ us,
      Lexes (f.typeName.toList ++ [' '] ++ fieldTail f) (.word w :: us) ∧
        Reads (typeFrom (.word w) >>= fun t => field f.flags t) us f := by
  obtain ⟨us, hlexes, htype⟩ := ht.tokens
  obtain ⟨vs, htail, hfield⟩ := fieldTail_tokens hf
  refine ⟨us ++ .word f.name :: vs, ?_, reads_typeFrom_bind htype hfield⟩
  have hwhole := (hlexes ' ' [] separates_blank).append htail
  simpa only [List.append_assoc, List.cons_append, List.append_nil] using hwhole

theorem reads_typed {β : Type} {f : ProtoField} {w : String} {us : List Token}
    (h : Reads (typeFrom (.word w) >>= fun t => field f.flags t) us f) (k : ProtoField → β) :
    Reads (typeFrom (.word w) >>= fun t => field f.flags t >>= fun g => pure (k g)) us (k f) := by
  have hmap := h.bind_last (f := fun g => (pure (k g) : Parser β)) (reads_pure (k f))
  rwa [bind_assoc] at hmap

/-- A type for its first word. -/
theorem reads_typeName {β : Type} {w : String} {us : List Token} {k : String → Parser β} {y : β}
    (h : Reads (typeFrom (.word w) >>= k) us y) :
    Reads (typeName >>= k) (.word w :: us) y := by
  have hnext : Reads (next >>= fun t => typeFrom t >>= k) ([.word w] ++ us) y :=
    (reads_next (Token.word w)).bind h
  show Reads ((next >>= fun t => typeFrom t) >>= k) ([.word w] ++ us) y
  rwa [bind_assoc]

/-- The type of a map, behind its keyword. -/
theorem mapType_tokens {k v w : String} (hkey : k ∈ mapKeyTypes) (hv : TypeText w v) : ∃ us,
    Lexes (("map<" ++ k ++ ", " ++ v ++ ">").toList ++ [' ']) (.word "map" :: us) ∧
      Reads mapType us ("map<" ++ k ++ ", " ++ v ++ ">") := by
  obtain ⟨us, hlexes, htype⟩ := hv.tokens
  have hidentifier : ∀ k ∈ mapKeyTypes, isIdentifier k.toList = true := by decide
  refine ⟨.symbol '<' :: .word k :: .symbol ',' :: .word w :: (us ++ [.symbol '>']), ?_, ?_⟩
  · have hmap := Lexes.word (w := "map".toList) (by decide) (separates_mark (c := '<') (by decide))
    have hcomma := Lexes.word (hidentifier k hkey) (separates_mark (c := ',') (by decide))
    have hvalue := hlexes '>' _ (separates_mark (by decide))
    have hwhole := hmap.append (hcomma.append (lexes_space.append (hvalue.append lexes_space)))
    have htext : ("map<" ++ k ++ ", " ++ v ++ ">").toList =
        "map".toList ++ ['<'] ++ k.toList ++ [',', ' '] ++ v.toList ++ ['>'] := by
      simp only [String.toList_append]
      rfl
    rw [String.ofList_toList, String.ofList_toList] at hwhole
    rw [htext]
    simpa only [List.append_assoc, List.cons_append, List.nil_append, List.append_nil] using hwhole
  · refine (reads_symbol '<').bind ((reads_word k).bind ?_)
    rw [if_pos hkey]
    refine (reads_symbol ',').bind (reads_typeName (w := w) ?_)
    have hclose : Reads (symbol '>' >>= fun _ =>
        (pure ("map<" ++ k ++ ", " ++ v ++ ">") : Parser String)) [.symbol '>']
          ("map<" ++ k ++ ", " ++ v ++ ">") := (reads_symbol '>').bind_last (reads_pure _)
    intro rest
    rw [StateT.run_bind, List.append_assoc, htype _ (by simp)]
    exact hclose rest

/-- A member of a message is one statement. -/
theorem field_statement {f : ProtoField} (h : WritableMember (.field f)) : ∃ us,
    Lexes (fieldLine f) us ∧
      ∀ inner, Reads (statement inner) us [.inl (.field f)] := by
  cases h with
  | @labelled _ l w hf hlabel hflags htype =>
    obtain ⟨us, hlexes, hreads⟩ := typed_tokens hf htype
    refine ⟨.word l :: .word w :: us, ?_, fun inner => ?_⟩
    · have hidentifier : ∀ l ∈ labels, isIdentifier l.toList = true := by decide
      have hwhole := (lexes_word (hidentifier l hlabel)).append hlexes
      rw [fieldLine_eq f hf.id, hflags]
      simpa [List.intercalate] using hwhole
    · have hother : ∀ l ∈ labels, l ≠ "oneof" ∧ l ≠ "map" ∧ l ≠ "message" ∧ l ≠ "enum" := by
        decide
      obtain ⟨honeof, hmap, hmessage, henum⟩ := hother l hlabel
      refine (reads_next (Token.word l)).bind ?_
      rw [if_neg (by simp), if_neg (by simpa using honeof), if_neg (by simpa using hmap),
        if_neg (by simpa using ⟨hmessage, henum⟩)]
      refine Reads.bind_given rfl ?_
      rw [if_pos hlabel, ← hflags]
      exact reads_typeName (reads_typed hreads fun g => [Sum.inl (ProtoMember.field g)])
  | @map _ k v w hf hflags hkey htype heq =>
    obtain ⟨us, hlexes, hreads⟩ := mapType_tokens hkey htype
    obtain ⟨vs, htail, hfield⟩ := fieldTail_tokens hf
    rw [← heq] at hlexes hreads
    refine ⟨.word "map" :: (us ++ .word f.name :: vs), ?_, fun inner => ?_⟩
    · have hwhole := hlexes.append htail
      rw [fieldLine_eq f hf.id, hflags]
      simpa [List.intercalate] using hwhole
    · refine (reads_next (Token.word "map")).bind ?_
      rw [if_neg (by simp), if_neg (by simp), if_pos rfl]
      rw [hflags] at hfield
      exact hreads.bind (hfield.bind_last (reads_pure _))

/-- A field of a group is one statement. -/
theorem oneof_field {f : ProtoField} (hf : WritableField f) (hflags : f.flags = []) {w : String}
    (ht : TypeText w f.typeName) (hoption : w ≠ "option") (hlabel : w ∉ labels) : ∃ us,
      Lexes (fieldLine f) us ∧ Reads oneofStatement us [f] := by
  obtain ⟨us, hlexes, hreads⟩ := typed_tokens hf ht
  refine ⟨.word w :: us, ?_, ?_⟩
  · rw [fieldLine_eq f hf.id, hflags]
    simpa [List.intercalate] using hlexes
  · refine (reads_next (Token.word w)).bind ?_
    rw [if_neg (by simp)]
    refine Reads.bind_given rfl ?_
    rw [if_neg (not_or.mpr ⟨hoption, hlabel⟩), ← hflags]
    exact reads_typed hreads fun g => [g]

end Whatspec.Proto

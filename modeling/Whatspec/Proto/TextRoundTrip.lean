import Whatspec.Proto.FieldText

/-!
# The printed text is read back

Every line of the printed text is a piece of the grammar by itself, whatever its indentation, and
a blank line is none; so the text of a declaration is the tokens of its lines, one after another.

* `reads_closed`: a block is its statements and the brace behind them;
* `LinesLex.indent`, `LinesLex.rdropWhile`, `LinesLex.join`: what the layout does to the lines does
  nothing to their tokens;
* `declaration_tokens`: the lines of a declaration are its keyword and one reading of the rest, for
  every depth of nesting that is left;
* **`parse_stringify`**: the text of a file reads back as its entities, sorted by name.
-/

namespace Whatspec.Proto

open Whatspec.Library Whatspec.Library.Protobuf Whatspec.Library.Reader Whatspec.Proto.Grammar

/-! ### Blocks -/

section Blocks

variable {α : Type} {one : Parser (List α)} {units : List (List Token × List α)}

/-- A unit begins with a token, and not with a closing brace. -/
theorem exists_first (hclose : ∀ rest, one.run (.symbol '\x7d' :: rest) = none)
    (hnil : one.run [] = none) {us : List Token} {x : List α} (h : Reads one us x) :
    ∃ t ts, us = t :: ts ∧ t ≠ .symbol '\x7d' := by
  have hwhole := h []
  rw [List.append_nil] at hwhole
  cases us with
  | nil =>
    rw [hnil] at hwhole
    cases hwhole
  | cons t ts =>
    refine ⟨t, ts, rfl, ?_⟩
    rintro rfl
    rw [hclose] at hwhole
    cases hwhole

/-- **A block** is its statements and the brace that closes it. -/
theorem reads_untilClose (hclose : ∀ rest, one.run (.symbol '\x7d' :: rest) = none)
    (hnil : one.run [] = none) (h : ∀ u ∈ units, Reads one u.1 u.2) :
    ∀ {n : ℕ}, units.length < n → Reads (untilClose one n)
      (units.flatMap Prod.fst ++ [.symbol '\x7d']) (units.flatMap Prod.snd) := by
  induction units with
  | nil =>
    intro n hn
    obtain ⟨n, rfl⟩ : ∃ k, n = k + 1 := ⟨n - 1, by rw [List.length_nil] at hn; omega⟩
    exact fun _ => rfl
  | cons u units ih =>
    intro n hn
    obtain ⟨us, x⟩ := u
    rw [List.length_cons] at hn
    obtain ⟨n, rfl⟩ : ∃ k, n = k + 1 := ⟨n - 1, by omega⟩
    obtain ⟨hfirst, hrest⟩ := List.forall_mem_cons.mp h
    obtain ⟨t, ts, rfl, ht⟩ := exists_first hclose hnil hfirst
    have htail := ih hrest (n := n) (by omega)
    have hboth : Reads (one >>= fun x => untilClose one n >>= fun xs => pure (x ++ xs))
        ((t :: ts) ++ (units.flatMap Prod.fst ++ [.symbol '\x7d']))
        (x ++ units.flatMap Prod.snd) := hfirst.bind (htail.bind_last (reads_pure _))
    intro rest
    rw [List.flatMap_cons, List.flatMap_cons, List.append_assoc (t :: ts)]
    show ((if t = .symbol '\x7d' then (next >>= fun _ => pure []) else
      one >>= fun x => untilClose one n >>= fun xs => pure (x ++ xs)) : Parser (List α)).run _ = _
    rw [if_neg ht]
    exact hboth rest

theorem length_units_le (hclose : ∀ rest, one.run (.symbol '\x7d' :: rest) = none)
    (hnil : one.run [] = none) (h : ∀ u ∈ units, Reads one u.1 u.2) :
    units.length ≤ (units.flatMap Prod.fst).length := by
  induction units with
  | nil => exact Nat.zero_le _
  | cons u units ih =>
    obtain ⟨hfirst, hrest⟩ := List.forall_mem_cons.mp h
    obtain ⟨t, ts, hu, -⟩ := exists_first hclose hnil hfirst
    have htail := ih hrest
    rw [List.flatMap_cons, List.length_append, List.length_cons, hu, List.length_cons]
    omega

theorem reads_closed (hclose : ∀ rest, one.run (.symbol '\x7d' :: rest) = none)
    (hnil : one.run [] = none) (h : ∀ u ∈ units, Reads one u.1 u.2) :
    Reads (closed one) (units.flatMap Prod.fst ++ [.symbol '\x7d'])
      (units.flatMap Prod.snd) := by
  intro rest
  have hlength := length_units_le hclose hnil h
  refine reads_untilClose hclose hnil h ?_ rest
  simp only [List.length_append]
  omega

end Blocks

/-! ### Lines -/

/-- Lines that are read one by one. -/
inductive LinesLex : List Line → List Token → Prop
  | nil : LinesLex [] []
  | cons {l ls ts us} : Lexes l ts → LinesLex ls us → LinesLex (l :: ls) (ts ++ us)

theorem LinesLex.single {l : Line} {ts : List Token} (h : Lexes l ts) : LinesLex [l] ts := by
  have hone := LinesLex.cons h .nil
  rwa [List.append_nil] at hone

theorem LinesLex.append {ls ls' : List Line} {ts ts' : List Token} (h : LinesLex ls ts)
    (h' : LinesLex ls' ts') : LinesLex (ls ++ ls') (ts ++ ts') := by
  induction h with
  | nil => exact h'
  | cons hl _ ih =>
    rw [List.append_assoc]
    exact .cons hl ih

/-- A blank line gives no token. -/
theorem eq_nil_of_lexes_nil {ts : List Token} (h : Lexes [] ts) : ts = [] := by
  have hwhole := h.lex_eq
  exact (Option.some.inj hwhole).symm

theorem LinesLex.split {ls ls' : List Line} : ∀ {ts : List Token}, LinesLex (ls ++ ls') ts →
    ∃ us us', LinesLex ls us ∧ LinesLex ls' us' ∧ ts = us ++ us' := by
  induction ls with
  | nil => exact fun h => ⟨[], _, .nil, h, rfl⟩
  | cons l ls ih =>
    intro ts h
    cases h with
    | cons hl hrest =>
      obtain ⟨us, us', h, h', rfl⟩ := ih hrest
      exact ⟨_, us', .cons hl h, h', (List.append_assoc _ _ _).symm⟩

theorem LinesLex.eq_nil {ls : List Line} {ts : List Token} (h : LinesLex ls ts)
    (hls : ∀ l ∈ ls, l = []) : ts = [] := by
  induction h with
  | nil => rfl
  | cons hl _ ih =>
    rw [ih fun l hl => hls l (List.mem_cons_of_mem _ hl), List.append_nil]
    exact eq_nil_of_lexes_nil (hls _ List.mem_cons_self ▸ hl)

/-- The blank lines at the end can go. -/
theorem LinesLex.rdropWhile {ls : List Line} {ts : List Token} (h : LinesLex ls ts) :
    LinesLex (ls.rdropWhile List.isEmpty) ts := by
  have hsplit := List.rdropWhile_append_rtakeWhile (p := (List.isEmpty : Line → Bool)) (l := ls)
  rw [← hsplit] at h
  obtain ⟨us, us', hkept, hblank, rfl⟩ := h.split
  have hnone : us' = [] := hblank.eq_nil fun l hl =>
    List.isEmpty_iff.mp (List.mem_rtakeWhile_imp hl)
  rw [hnone, List.append_nil]
  exact hkept

/-- Lines mean the same one level further in. -/
theorem LinesLex.indent {ls : List Line} {ts : List Token} (h : LinesLex ls ts) :
    LinesLex (indent ls) ts := by
  induction h with
  | nil => exact .nil
  | @cons l ls ts us hl _ ih =>
    refine .cons ?_ ih
    show Lexes (if l.isEmpty then l else indentUnit ++ l) ts
    split_ifs
    · exact hl
    · exact (lexes_space.append lexes_space).append hl

/-- The lines as one text. -/
theorem LinesLex.join {ls : List Line} {ts : List Token} (h : LinesLex ls ts) :
    Lexes (['\n'].intercalate ls) ts := by
  have hbreak : Lexes ['\n'] [] := Lexes.blank (by decide)
  induction h with
  | nil => exact Lexes.nil
  | @cons l ls ts us hl hls ih =>
    cases ls with
    | nil =>
      cases hls
      rw [List.append_nil]
      simpa [List.intercalate] using hl
    | cons l' ls =>
      rw [List.intercalate_cons_cons, List.append_assoc]
      exact hl.append (hbreak.append ih)

/-- The lines of a list of things, each with its unit. -/
theorem exists_units {β γ : Type} {P : List Token → List γ → Prop} {f : β → List Line}
    {x : β → List γ} {l : List β} (h : ∀ b ∈ l, ∃ us, LinesLex (f b) us ∧ P us (x b)) :
    ∃ units : List (List Token × List γ), LinesLex (l.flatMap f) (units.flatMap Prod.fst) ∧
      units.flatMap Prod.snd = l.flatMap x ∧ ∀ u ∈ units, P u.1 u.2 := by
  induction l with
  | nil => exact ⟨[], .nil, rfl, fun u hu => absurd hu List.not_mem_nil⟩
  | cons b l ih =>
    obtain ⟨us, hlines, hus⟩ := h b List.mem_cons_self
    obtain ⟨units, hrest, hvalues, hunits⟩ := ih fun c hc => h c (List.mem_cons_of_mem b hc)
    refine ⟨(us, x b) :: units, hlines.append hrest, ?_, ?_⟩
    · rw [List.flatMap_cons, List.flatMap_cons, hvalues]
    · exact List.forall_mem_cons.mpr ⟨hus, hunits⟩

/-! ### Declarations -/

theorem opening_lexes {k n : String} (hk : isIdentifier k.toList = true)
    (hn : isIdentifier n.toList = true) :
    Lexes (opening k n) [.word k, .word n, .symbol '\x7b'] := by
  have hbrace : Lexes ['\x7b'] [.symbol '\x7b'] := lexes_mark (by decide)
  have hwhole := (lexes_word hk).append ((lexes_word hn).append hbrace)
  rw [opening]
  simpa only [List.append_assoc, List.cons_append, List.nil_append] using hwhole

theorem closing_lexes : Lexes closing [.symbol '\x7d'] := lexes_mark (by decide)

theorem lexes_indentUnit {s : Line} {ts : List Token} (h : Lexes s ts) :
    Lexes (indentUnit ++ s) ts := (lexes_space.append lexes_space).append h

/-- A member is one statement of its message. -/
theorem member_statement {m : ProtoMember} (h : WritableMember m) : ∃ us,
    LinesLex (memberLines m) us ∧ ∀ inner, Reads (statement inner) us [.inl m] := by
  cases m with
  | field f =>
    obtain ⟨us, hlexes, hreads⟩ := field_statement h
    exact ⟨us, .single hlexes, hreads⟩
  | oneOf o =>
    cases h with
    | oneOf hname hfields =>
      obtain ⟨units, hlines, hvalues, hunits⟩ := exists_units (l := o.fields)
        (f := fun f => [indentUnit ++ fieldLine f]) (x := fun f => [f])
        (P := fun us x => Reads oneofStatement us x) fun f hf => by
          obtain ⟨hwritable, hflags, w, htype, hoption, hlabel⟩ := hfields f hf
          obtain ⟨us, hlexes, hreads⟩ := oneof_field hwritable hflags htype hoption hlabel
          exact ⟨us, .single (lexes_indentUnit hlexes), hreads⟩
      have hclosed := reads_closed (fun _ => rfl) rfl hunits
      refine ⟨.word "oneof" :: .word o.name :: .symbol '\x7b' ::
        (units.flatMap Prod.fst ++ [.symbol '\x7d']), ?_, fun inner => ?_⟩
      · have hopen := LinesLex.single (opening_lexes (k := "oneof") (by decide) hname)
        have hwhole := hopen.append (hlines.append (.single closing_lexes))
        have hfields : o.fields.flatMap (fun f => [indentUnit ++ fieldLine f]) =
            o.fields.map fun f => indentUnit ++ fieldLine f := List.map_eq_flatMap.symm
        rw [hfields] at hwhole
        exact hwhole
      · refine (reads_next (Token.word "oneof")).bind ?_
        rw [if_neg (by simp), if_pos rfl]
        have hfields : units.flatMap Prod.snd = o.fields := by
          rw [hvalues]
          exact List.flatMap_singleton' o.fields
        rw [hfields] at hclosed
        have honeof : Reads Grammar.oneof (.word o.name :: .symbol '\x7b' ::
            (units.flatMap Prod.fst ++ [.symbol '\x7d'])) (.oneOf o) :=
          (reads_word o.name).bind ((reads_symbol _).bind (hclosed.bind_last (reads_pure _)))
        exact honeof.bind_last (reads_pure _)

/-- The number of an enum value, with its sign. -/
theorem enumNumber_tokens (i : ℤ) : ∃ us,
    Lexes (Rendering.int i ++ [';']) (us ++ [.symbol ';']) ∧ Reads enumNumber us i := by
  have hdigits := Lexes.number i.natAbs (separates_mark (c := ';') (by decide))
  have hvalue : numberOf (.number (String.ofList (Nat.toDigits 10 i.natAbs))) = some i.natAbs := by
    rw [numberOf, String.toList_ofList, intValue_toDigits]
  by_cases hneg : i < 0
  · refine ⟨[.symbol '-', .number (String.ofList (Nat.toDigits 10 i.natAbs))], ?_, ?_⟩
    · have hsign : Lexes ['-'] [.symbol '-'] := Lexes.symbol (by decide)
      have htext : Rendering.int i = '-' :: Nat.toDigits 10 i.natAbs := if_pos hneg
      rw [htext]
      exact hsign.append hdigits
    · have hi : -((i.natAbs : ℕ) : ℤ) = i := by omega
      refine (reads_next (Token.symbol '-')).bind ?_
      rw [if_pos rfl]
      refine (reads_next (Token.number _)).bind_last (Reads.bind_given hvalue ?_)
      rw [hi]
      exact reads_pure i
  · refine ⟨[.number (String.ofList (Nat.toDigits 10 i.natAbs))], ?_, ?_⟩
    · have htext : Rendering.int i = Nat.toDigits 10 i.natAbs := if_neg hneg
      rw [htext]
      exact hdigits
    · have hi : ((i.natAbs : ℕ) : ℤ) = i := by omega
      refine (reads_next (Token.number _)).bind_last ?_
      rw [if_neg (by simp)]
      refine Reads.bind_given hvalue ?_
      rw [hi]
      exact reads_pure i

/-- A value is one statement of its enum. -/
theorem enum_statement {v : ProtoEnumValue} (hname : isIdentifier v.name.toList = true)
    (hoption : v.name ≠ "option") (hreserved : v.name ≠ "reserved") : ∃ us,
      Lexes (enumValueLine v) us ∧ Reads enumStatement us [v] := by
  obtain ⟨us, hlexes, hreads⟩ := enumNumber_tokens v.id
  refine ⟨.word v.name :: .symbol '=' :: (us ++ [.symbol ';']), ?_, ?_⟩
  · have hwhole := lexes_indentUnit ((lexes_word hname).append (lexes_equals.append hlexes))
    have hequals : " = ".toList = [' ', '=', ' '] := rfl
    rw [enumValueLine, hequals]
    simpa only [List.append_assoc, List.cons_append, List.nil_append] using hwhole
  · refine (reads_next (Token.word v.name)).bind ?_
    rw [if_neg (by simp)]
    refine Reads.bind_given rfl ?_
    rw [if_neg (not_or.mpr ⟨hoption, hreserved⟩)]
    exact (reads_symbol '=').bind (hreads.bind ((reads_symbol ';').bind_last (reads_pure [v])))

theorem enum_tokens {e : ProtoEnum} (hname : isIdentifier e.name.toList = true)
    (hvalues : ∀ v ∈ e.values, isIdentifier v.name.toList = true ∧ v.name ≠ "option" ∧
      v.name ≠ "reserved") : ∃ us, LinesLex (enumLines e) (.word "enum" :: us) ∧
        Reads Grammar.enum us (.enum e) := by
  obtain ⟨units, hlines, hread, hunits⟩ := exists_units (l := e.values)
    (f := fun v => [enumValueLine v]) (x := fun v => [v])
    (P := fun us x => Reads enumStatement us x) fun v hv => by
      obtain ⟨hid, hoption, hreserved⟩ := hvalues v hv
      obtain ⟨us, hlexes, hreads⟩ := enum_statement hid hoption hreserved
      exact ⟨us, .single hlexes, hreads⟩
  have hclosed := reads_closed (fun _ => rfl) rfl hunits
  rw [hread, List.flatMap_singleton' e.values] at hclosed
  refine ⟨.word e.name :: .symbol '\x7b' :: (units.flatMap Prod.fst ++ [.symbol '\x7d']), ?_, ?_⟩
  · have hopen := LinesLex.single (opening_lexes (k := "enum") (by decide) hname)
    have hwhole := hopen.append (hlines.append (.single closing_lexes))
    have hmap : e.values.flatMap (fun v => [enumValueLine v]) = e.values.map enumValueLine :=
      List.map_eq_flatMap.symm
    rw [hmap] at hwhole
    exact hwhole
  · exact (reads_word e.name).bind ((reads_symbol _).bind (hclosed.bind_last (reads_pure _)))

/-- A reading that a depth of nesting is enough for. -/
def DeepReads {α : Type} (r : Parser (List Item) → Parser α) (us : List Token) (x : α) : Prop :=
  ∀ d, us.length ≤ d → Reads (r (block d)) us x

theorem nestedLines_eq (es : List ProtoEntity) :
    nestedLines es = es.flatMap fun e => indent (entityLines e) := by
  induction es with
  | nil => rfl
  | cons e es ih => rw [nestedLines, ih, List.flatMap_cons]

theorem membersOf_append (ms : List ProtoMember) (es : List ProtoEntity) :
    membersOf (ms.map Sum.inl ++ es.map Sum.inr) = ms := by
  rw [membersOf, List.filterMap_append, List.filterMap_map, List.filterMap_map]
  show ms.filterMap some ++ es.filterMap (fun _ => none) = ms
  rw [List.filterMap_some, List.filterMap_none, List.append_nil]

theorem nestedOf_append (ms : List ProtoMember) (es : List ProtoEntity) :
    nestedOf (ms.map Sum.inl ++ es.map Sum.inr) = es := by
  rw [nestedOf, List.filterMap_append, List.filterMap_map, List.filterMap_map]
  show ms.filterMap (fun _ => none) ++ es.filterMap some = es
  rw [List.filterMap_some, List.filterMap_none, List.nil_append]

/-- The block of a message from the units of its statements. -/
theorem reads_block {units : List (List Token × List Item)}
    (h : ∀ u ∈ units, DeepReads statement u.1 u.2) {d : ℕ}
    (hd : (units.flatMap Prod.fst).length < d) :
    Reads (block d) (units.flatMap Prod.fst ++ [.symbol '\x7d']) (units.flatMap Prod.snd) := by
  obtain ⟨d, rfl⟩ : ∃ k, d = k + 1 := ⟨d - 1, by omega⟩
  show Reads (closed (statement (block d))) _ _
  refine reads_closed (fun _ => rfl) rfl fun u hu => h u hu d ?_
  have hle := (List.sublist_flatten_of_mem (List.mem_map_of_mem (f := Prod.fst) hu)).length_le
  rw [← List.flatMap_def] at hle
  omega

/-- The lines between the braces of a message, read as statements. -/
theorem inner_units {members : List ProtoMember} {nested : List ProtoEntity}
    (hmembers : ∀ m ∈ members, WritableMember m)
    (hnested : ∀ e ∈ nested, ∃ us, LinesLex (entityLines e) us ∧
      DeepReads statement us [.inr e]) :
    ∃ units : List (List Token × List Item),
      LinesLex ((members.flatMap fun m => indent (memberLines m)) ++ nestedLines nested)
        (units.flatMap Prod.fst) ∧
      units.flatMap Prod.snd = members.map Sum.inl ++ nested.map Sum.inr ∧
      ∀ u ∈ units, DeepReads statement u.1 u.2 := by
  obtain ⟨units, hlines, hvalues, hunits⟩ := exists_units (l := members)
    (f := fun m => indent (memberLines m)) (x := fun m => [Sum.inl m])
    (P := DeepReads statement) fun m hm => by
      obtain ⟨us, hlines, hreads⟩ := member_statement (hmembers m hm)
      exact ⟨us, hlines.indent, fun d _ => hreads (block d)⟩
  obtain ⟨units', hlines', hvalues', hunits'⟩ := exists_units (l := nested)
    (f := fun e => indent (entityLines e)) (x := fun e => [Sum.inr e])
    (P := DeepReads statement) fun e he => by
      obtain ⟨us, hlines, hreads⟩ := hnested e he
      exact ⟨us, hlines.indent, hreads⟩
  rw [← nestedLines_eq] at hlines'
  refine ⟨units ++ units', ?_, ?_, ?_⟩
  · rw [List.flatMap_append]
    exact hlines.append hlines'
  · rw [List.flatMap_append, hvalues, hvalues', List.map_eq_flatMap, List.map_eq_flatMap]
  · exact List.forall_mem_append.mpr ⟨hunits, hunits'⟩

/-- What a message puts between its braces. -/
theorem message_tokens {n : String} {members : List ProtoMember} {nested : List ProtoEntity}
    (hname : isIdentifier n.toList = true) {units : List (List Token × List Item)}
    (hlines : LinesLex ((members.flatMap fun m => indent (memberLines m)) ++ nestedLines nested)
      (units.flatMap Prod.fst))
    (hvalues : units.flatMap Prod.snd = members.map Sum.inl ++ nested.map Sum.inr)
    (hunits : ∀ u ∈ units, DeepReads statement u.1 u.2) : ∃ us,
      LinesLex (messageLines n members nested (nestedLines nested)) (.word "message" :: us) ∧
        DeepReads Grammar.message us (.message n members nested) := by
  refine ⟨.word n :: .symbol '\x7b' :: (units.flatMap Prod.fst ++ [.symbol '\x7d']), ?_, ?_⟩
  · have hopen := opening_lexes (k := "message") (by decide) hname
    have hempty : LinesLex [[]] [] := .single Lexes.nil
    rw [messageLines]
    split_ifs with hnone
    · rw [Bool.and_eq_true, List.isEmpty_iff, List.isEmpty_iff] at hnone
      obtain ⟨rfl, rfl⟩ := hnone
      have htokens : units.flatMap Prod.fst = [] := hlines.eq_nil fun l hl => by cases hl
      rw [htokens]
      exact .cons (hopen.append closing_lexes) hempty
    · have hinner := ((LinesLex.single hopen).append hlines).rdropWhile
      have hwhole := hinner.append (.cons closing_lexes hempty)
      simpa only [List.append_assoc, List.cons_append, List.nil_append] using hwhole
  · intro d hd
    have hblock := reads_block hunits (d := d) (by
      simp only [List.length_cons, List.length_append, List.length_nil] at hd
      omega)
    rw [hvalues] at hblock
    refine (reads_word n).bind ((reads_symbol _).bind (hblock.bind_last ?_))
    rw [membersOf_append, nestedOf_append]
    exact reads_pure _

/-- **The lines of a declaration** are its keyword and one reading of the rest. -/
theorem declaration_tokens {e : ProtoEntity} (h : Writable e) : ∃ k us,
    LinesLex (entityLines e) (.word k :: us) ∧ (k = "message" ∨ k = "enum") ∧
      DeepReads (declarationFrom · (.word k)) us e := by
  induction e with
  | message n members nested ih =>
    cases h with
    | message hname hmembers hnested =>
      have hstatements : ∀ e ∈ nested, ∃ us, LinesLex (entityLines e) us ∧
          DeepReads statement us [.inr e] := by
        intro e he
        obtain ⟨k, us, hlines, hkeyword, hreads⟩ := ih e he (hnested e he)
        refine ⟨.word k :: us, hlines, fun d hd => ?_⟩
        have hdeep := hreads d (by rw [List.length_cons] at hd; omega)
        refine (reads_next (Token.word k)).bind ?_
        have hkey : Token.word k = .word "message" ∨ Token.word k = .word "enum" := by
          simpa using hkeyword
        have honeof : Token.word k ≠ .word "oneof" := by
          rcases hkeyword with rfl | rfl <;> decide
        have hmap : Token.word k ≠ .word "map" := by
          rcases hkeyword with rfl | rfl <;> decide
        rw [if_neg (by simp), if_neg honeof, if_neg hmap, if_pos hkey]
        exact hdeep.bind_last (reads_pure _)
      obtain ⟨units, hlines, hvalues, hunits⟩ := inner_units hmembers hstatements
      obtain ⟨us, htokens, hreads⟩ := message_tokens hname hlines hvalues hunits
      refine ⟨"message", us, ?_, .inl rfl, hreads⟩
      rw [entityLines]
      exact htokens
  | enum e =>
    cases h with
    | enum hname hvalues =>
      obtain ⟨us, hlines, hreads⟩ := enum_tokens hname hvalues
      refine ⟨"enum", us, ?_, .inr rfl, fun d _ => hreads⟩
      rw [entityLines]
      exact hlines

/-! ### Files -/

/-- The tokens in front of the declarations. -/
def headTokens : List Token :=
  [.word "syntax", .symbol '=', .str "proto2", .symbol ';', .word "package", .word "whatsapp",
    .symbol ';']

theorem reads_fileHead : Reads fileHead headTokens "whatsapp" :=
  (reads_expect (.word "syntax")).bind <| (reads_symbol '=').bind <|
    (reads_expect (.str "proto2")).bind <| (reads_symbol ';').bind <|
    (reads_expect (.word "package")).bind <| (reads_word "whatsapp").bind <|
    (reads_symbol ';').bind_last (reads_pure "whatsapp")

/-- The head of a file; the version is in a comment. -/
theorem header_lexes {v : List Char} (h : '\n' ∉ v) :
    Lexes (fileHeader ++ v ++ ['\n', '\n']) headTokens := by
  have hstatements : Lexes "syntax = \"proto2\";\npackage whatsapp;\n\n".toList headTokens :=
    Runs.of_run (by decide)
  have hline : '\n' ∉ "/ WhatsApp Version: ".toList ++ v := by
    rw [List.mem_append, not_or]
    exact ⟨by decide, h⟩
  have hbreak : Lexes ['\n'] [] := Lexes.blank (by decide)
  have hwhole := hstatements.append ((Lexes.comment hline).append hbreak)
  have hheader : fileHeader = "syntax = \"proto2\";\npackage whatsapp;\n\n".toList ++
      ('/' :: '/' :: "/ WhatsApp Version: ".toList) := rfl
  rw [hheader]
  simpa only [List.append_assoc, List.cons_append, List.nil_append, List.append_nil] using hwhole

/-- The declarations of a file, each read at the top. -/
theorem topLevel_units {entities : List ProtoEntity} (h : ∀ e ∈ entities, Writable e) :
    ∃ units : List (List Token × List ProtoEntity),
      LinesLex (entities.map fun e => ['\n'].intercalate (entityLines e))
        (units.flatMap Prod.fst) ∧
      units.flatMap Prod.snd = entities ∧
      ∀ u ∈ units, DeepReads topLevel u.1 u.2 ∧ u.1 ≠ [] := by
  obtain ⟨units, hlines, hvalues, hunits⟩ := exists_units (l := entities)
    (f := fun e => [['\n'].intercalate (entityLines e)]) (x := fun e => [e])
    (P := fun us x => DeepReads topLevel us x ∧ us ≠ []) fun e he => by
      obtain ⟨k, us, hlines, -, hreads⟩ := declaration_tokens (h e he)
      refine ⟨.word k :: us, .single hlines.join, fun d hd => ?_, List.cons_ne_nil _ _⟩
      have hdeep := hreads d (by rw [List.length_cons] at hd; omega)
      refine (reads_next (Token.word k)).bind ?_
      rw [if_neg (by simp)]
      exact hdeep.bind_last (reads_pure _)
  rw [← List.map_eq_flatMap] at hlines
  rw [List.flatMap_singleton' entities] at hvalues
  exact ⟨units, hlines, hvalues, hunits⟩

/-- **The text of a file reads back** as its entities, sorted by name. -/
theorem parse_stringify (file : ProtoFile) (hversion : '\n' ∉ file.waVersion.toList)
    (h : ∀ e ∈ file.entities, Writable e) :
    Grammar.parse (stringify file) =
      some ("whatsapp", StableSort.sortBy ProtoEntity.name file.entities) := by
  have hsorted : ∀ e ∈ StableSort.sortBy ProtoEntity.name file.entities, Writable e :=
    fun e he => h e ((StableSort.sortBy_perm _ _).mem_iff.mp he)
  obtain ⟨units, hlines, hvalues, hunits⟩ := topLevel_units hsorted
  have hlex : lex (stringify file) = some (headTokens ++ units.flatMap Prod.fst) :=
    Lexes.lex_eq ((header_lexes hversion).append hlines.join)
  have hhead := reads_fileHead (units.flatMap Prod.fst)
  have hall := reads_all (r := topLevel (block (units.flatMap Prod.fst).length))
    (fun u hu => ⟨(hunits u hu).1 _ (by
      have hle := (List.sublist_flatten_of_mem (List.mem_map_of_mem (f := Prod.fst) hu)).length_le
      rwa [← List.flatMap_def] at hle), (hunits u hu).2⟩) le_rfl
  rw [Grammar.parse, hlex]
  show Grammar.file (headTokens ++ units.flatMap Prod.fst) = _
  rw [Grammar.file, hhead]
  show (all _ _ _).map _ = _
  rw [hall, Option.map_some, ← List.flatMap_def, hvalues]

/-- A message with each kind of member, what it declares and an enum, read back. -/
theorem parse_stringify_declared :
    let file : ProtoFile := ⟨"2.3000.1", [.message "Node" [
        .field ⟨"key", 1, "string", ["optional"], false, some "a\"\n"⟩,
        .field ⟨"rows", 2, "Node.Row", ["repeated"], true, none⟩,
        .field ⟨"sizes", 3, "map<string, uint32>", [], false, none⟩,
        .oneOf ⟨"kind", [⟨"flag", 4, "bool", [], false, some "true"⟩]⟩]
        [.message "Row" [] [], .enum ⟨"Kind", [⟨"FIRST", 0⟩, ⟨"LAST", -1⟩]⟩],
      .enum ⟨"Aim", []⟩]⟩
    Grammar.parse (stringify file) = some ("whatsapp",
      StableSort.sortBy ProtoEntity.name file.entities) := by
  have hscalar : ∀ w ∈ scalarTypes, TypeText w w := fun w hw => .scalar hw
  have hrow : TypeText "Node" "Node.Row" :=
    @TypeText.named "Node".toList ["Row".toList] (by decide) (by decide) (by decide) (by decide)
  refine parse_stringify _ (by decide) (List.forall_mem_cons.mpr ⟨?_, ?_⟩)
  · refine .message (by decide) ?_ ?_
    · refine List.forall_mem_cons.mpr ⟨?_, List.forall_mem_cons.mpr ⟨?_, List.forall_mem_cons.mpr
        ⟨?_, List.forall_mem_singleton.mpr ?_⟩⟩⟩
      · refine .labelled ⟨by decide, by decide, ?_⟩ (by decide) rfl (hscalar _ (by decide))
        exact fun d _ htext => absurd htext (by decide)
      · refine .labelled ⟨by decide, by decide, fun d hd => ?_⟩ (by decide) rfl hrow
        cases hd
      · refine .map (k := "string") (v := "uint32") ⟨by decide, by decide, fun d hd => ?_⟩ rfl
          (by decide) (hscalar "uint32" (by decide)) (by decide)
        cases hd
      · refine .oneOf (by decide) (List.forall_mem_singleton.mpr ?_)
        refine ⟨⟨by decide, by decide, fun d hd _ => ?_⟩, rfl, "bool", hscalar _ (by decide),
          by decide, by decide⟩
        cases hd
        decide
    · refine List.forall_mem_cons.mpr ⟨?_, List.forall_mem_singleton.mpr ?_⟩
      · exact .message (by decide) (fun m hm => by cases hm) fun e he => by cases he
      · exact .enum (by decide) (by decide)
  · exact List.forall_mem_singleton.mpr (.enum (by decide) (by decide))

end Whatspec.Proto

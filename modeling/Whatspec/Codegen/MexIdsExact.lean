import Mathlib.Data.List.Infix
import Whatspec.Codegen.MexIds

/-!
# When the registry of document ids is refreshed

A refresh is to write the ids of the bundle into the entries and nothing else, and to find the same
entries when it is run again.

* `rebuildDoc_eq`: one id is replaced, unless the id itself has an `id:` in it, which the search for
  the last one takes for that of the entry;
* `settled_withIds`: ids that can stand between quotes leave the entries where they are, since no
  entry begins before one and ends inside its id;
* **`refreshMexIds_exact`**: the refresh does what it is to do exactly where every id that changes
  is of that kind.
-/

namespace Whatspec.Codegen.MexIds

open Whatspec.Library

/-! ### One entry -/

/-- An entry with another id. -/
def MexDoc.withId (d : MexDoc) (id : List Char) : MexDoc := { d with id := id }

@[simp] theorem MexDoc.withId_head (d : MexDoc) (id : List Char) :
    (d.withId id).head = d.head := rfl

theorem MexDoc.withId_text (d : MexDoc) (id : List Char) :
    (d.withId id).text = d.head ++ quoted id := rfl

theorem MexDoc.withId_self (d : MexDoc) : d.withId d.id = d := rfl

theorem MexDoc.WellFormed.withId {d : MexDoc} (h : d.WellFormed) {id : List Char}
    (hid : Quotable id) : (d.withId id).WellFormed :=
  ⟨h.afterName, h.name, h.beforeComma, h.afterComma, h.afterId, hid⟩

theorem not_mem_of_blank {cs : List Char} (h : ∀ c ∈ cs, isSpace c = true) {c : Char}
    (hc : isSpace c = false) : c ∉ cs := fun hmem => by
  rw [h c hmem] at hc
  cases hc

/-- Where a text occurs last. -/
theorem splitLast_spec {pat : List Char} (hpat : pat ≠ []) : ∀ cs : List Char,
    match splitLast pat cs with
    | some (head, tail) => cs = head ++ tail ∧ pat <+: tail ∧ ¬pat <:+: tail.tail
    | none => ¬pat <:+: cs := by
  intro cs
  induction cs with
  | nil =>
    rw [splitLast]
    exact fun h => hpat (List.infix_nil.mp h)
  | cons c cs ih =>
    rw [splitLast]
    cases hsplit : splitLast pat cs with
    | some split =>
      rw [hsplit] at ih
      obtain ⟨head, tail⟩ := split
      obtain ⟨heq, hpre, hnot⟩ := ih
      exact ⟨congrArg (c :: ·) heq, hpre, hnot⟩
    | none =>
      rw [hsplit] at ih
      dsimp only at ih ⊢
      by_cases hpre : pat.isPrefixOf (c :: cs) = true
      · rw [if_pos hpre]
        exact ⟨rfl, List.isPrefixOf_iff_prefix.mp hpre, ih⟩
      · rw [if_neg hpre]
        intro hoccurs
        rcases List.infix_cons_iff.mp hoccurs with h | h
        · exact hpre (List.isPrefixOf_iff_prefix.mpr h)
        · exact ih h

theorem splitLast_of_last {pat tail : List Char} (hpre : pat <+: tail) (hne : pat ≠ [])
    (hlast : ¬pat <:+: tail.tail) : ∀ head : List Char,
      splitLast pat (head ++ tail) = some (head, tail)
  | [] => by
    cases tail with
    | nil => exact absurd (List.prefix_nil.mp hpre) hne
    | cons c cs =>
      have hspec := splitLast_spec hne cs
      rw [List.nil_append, splitLast]
      cases hsplit : splitLast pat cs with
      | none => exact if_pos (List.isPrefixOf_iff_prefix.mpr hpre)
      | some split =>
        rw [hsplit] at hspec
        obtain ⟨heq, hprefix, -⟩ := hspec
        refine absurd ?_ hlast
        rw [List.tail_cons, heq]
        exact hprefix.isInfix.trans (List.suffix_append _ _).isInfix
  | c :: head => by
    rw [List.cons_append, splitLast, splitLast_of_last hpre hne hlast head]

theorem replaceFirst_self (pat : List Char) : ∀ cs : List Char, replaceFirst pat pat cs = cs
  | [] => rfl
  | c :: cs => by
    rw [replaceFirst, replaceFirst_self pat cs]
    split_ifs with h
    · obtain ⟨t, ht⟩ := List.isPrefixOf_iff_prefix.mp h
      rw [← ht, List.drop_left]
    · rfl

theorem replaceFirst_of_not_occurs {pat written : List Char} : ∀ {cs : List Char},
    ¬pat <:+: cs → replaceFirst pat written cs = cs
  | [], _ => rfl
  | c :: cs, h => by
    rw [List.infix_cons_iff, not_or] at h
    rw [replaceFirst, replaceFirst_of_not_occurs h.2, if_neg]
    exact fun hpre => h.1 (List.isPrefixOf_iff_prefix.mp hpre)

/-- A quoted text is replaced where it stands first, behind a text without quotes. -/
theorem replaceFirst_quoted {body written rest : List Char} : ∀ {before : List Char},
    '"' ∉ before → replaceFirst (quoted body) written (before ++ (quoted body ++ rest)) =
      before ++ (written ++ rest)
  | [], _ => by
    have hpre : (quoted body).isPrefixOf ('"' :: (body ++ ['"'] ++ rest)) = true :=
      List.isPrefixOf_iff_prefix.mpr (List.prefix_append (quoted body) rest)
    show replaceFirst (quoted body) written ('"' :: (body ++ ['"'] ++ rest)) = _
    rw [replaceFirst, if_pos hpre]
    show written ++ (quoted body ++ rest).drop (quoted body).length = _
    rw [List.drop_left]
    rfl
  | c :: before, h => by
    rw [List.mem_cons, not_or] at h
    have hnot : ¬(quoted body).isPrefixOf (c :: (before ++ (quoted body ++ rest))) = true := by
      intro hpre
      obtain ⟨t, ht⟩ := List.isPrefixOf_iff_prefix.mp hpre
      exact h.1 (List.cons.inj ht).1
    rw [List.cons_append, replaceFirst, if_neg hnot, replaceFirst_quoted h.2]
    rfl

/-! ### The last `id:` of an entry -/

/-- The text that is searched for. -/
abbrev idKey : List Char := "id:".toList

theorem infix_of_append {before cs : List Char} (hi : 'i' ∉ before) (h : idKey <:+: before ++ cs) :
    idKey <:+: cs := by
  induction before with
  | nil => exact h
  | cons c before ih =>
    rw [List.mem_cons, not_or] at hi
    rcases List.infix_cons_iff.mp h with hpre | hoccurs
    · obtain ⟨t, ht⟩ := hpre
      exact absurd (List.cons.inj ht).1 hi.1
    · exact ih hi.2 hoccurs

theorem infix_of_concat_quote {cs : List Char} (h : idKey <:+: cs ++ ['"']) : idKey <:+: cs := by
  induction cs with
  | nil =>
    have hle := h.length_le
    exact absurd hle (by decide)
  | cons c cs ih =>
    rcases List.infix_cons_iff.mp h with hpre | hoccurs
    · have hpre : idKey <+: (c :: cs) ++ ['"'] := hpre
      rcases List.prefix_concat_iff.mp hpre with heq | hpre
      · have hlast := congrArg List.getLast? heq
        rw [List.getLast?_concat] at hlast
        exact absurd hlast (by decide)
      · exact hpre.isInfix
    · exact List.infix_cons (ih hoccurs)

/-- Behind the key of an entry there is another one only in the id. -/
theorem key_infix_iff {d : MexDoc} (hd : d.WellFormed) :
    idKey <:+: (idKey ++ (d.afterId ++ quoted d.id)).tail ↔ idKey <:+: d.id := by
  have hblank : 'i' ∉ d.afterId := not_mem_of_blank hd.afterId (by decide)
  constructor
  · intro h
    have hsplit : (idKey ++ (d.afterId ++ quoted d.id)).tail =
        ("d:".toList ++ d.afterId ++ ['"']) ++ (d.id ++ ['"']) := by
      rw [List.append_assoc, List.append_assoc]
      rfl
    rw [hsplit] at h
    refine infix_of_concat_quote (infix_of_append ?_ h)
    simp [hblank]
  · intro h
    have hid : d.id <:+: quoted d.id := ⟨['"'], ['"'], rfl⟩
    have htail : quoted d.id <:+ (idKey ++ (d.afterId ++ quoted d.id)).tail :=
      ⟨"d:".toList ++ d.afterId, List.append_assoc _ _ _⟩
    exact (h.trans hid).trans htail.isInfix

theorem head_eq (d : MexDoc) : ∃ before, d.head = before ++ (idKey ++ d.afterId) :=
  ⟨"name:".toList ++ (d.afterName ++ (quoted d.name ++ (d.beforeComma ++ (',' :: d.afterComma)))),
    by simp only [MexDoc.head, List.append_assoc, List.cons_append]⟩

theorem rebuildDoc_of_not_occurs {d : MexDoc} (hd : d.WellFormed) (hkey : ¬idKey <:+: d.id)
    (newId : List Char) : rebuildDoc d.text d.id newId = (d.withId newId).text := by
  obtain ⟨before, hbefore⟩ := head_eq d
  have htext : d.text = before ++ (idKey ++ (d.afterId ++ quoted d.id)) := by
    rw [MexDoc.text, hbefore, List.append_assoc, List.append_assoc]
  have hsplit := splitLast_of_last (List.prefix_append idKey (d.afterId ++ quoted d.id))
    (by decide) (fun h => hkey ((key_infix_iff hd).mp h)) before
  have hquote : '"' ∉ idKey ++ d.afterId := by
    rw [List.mem_append, not_or]
    exact ⟨by decide, not_mem_of_blank hd.afterId (by decide)⟩
  have hreplace : replaceFirst (quoted d.id) (quoted newId) (idKey ++ (d.afterId ++ quoted d.id)) =
      idKey ++ (d.afterId ++ quoted newId) := by
    have hfirst := @replaceFirst_quoted d.id (quoted newId) [] (idKey ++ d.afterId) hquote
    rwa [List.append_nil, List.append_nil, List.append_assoc, List.append_assoc] at hfirst
  rw [rebuildDoc, htext, hsplit]
  show before ++ replaceFirst (quoted d.id) (quoted newId) _ = _
  rw [hreplace, MexDoc.withId_text, hbefore]
  simp only [List.append_assoc]

/-- Where the id has the key in it, only what is behind that is searched, and nothing is found. -/
theorem rebuildDoc_of_occurs {d : MexDoc} (hd : d.WellFormed) (hkey : idKey <:+: d.id)
    (newId : List Char) : rebuildDoc d.text d.id newId = d.text := by
  obtain ⟨before, after, hid⟩ := hkey
  have hspec := @splitLast_spec idKey (by decide) d.text
  rw [rebuildDoc]
  cases hsplit : splitLast idKey d.text with
  | none => rfl
  | some split =>
    rw [hsplit] at hspec
    obtain ⟨head, tail⟩ := split
    obtain ⟨htext, -, hlast⟩ := hspec
    have hsuffix : idKey ++ (after ++ ['"']) <:+ d.text := by
      refine ⟨d.head ++ '"' :: before, ?_⟩
      rw [MexDoc.text, quoted, ← hid]
      simp
    have hshort : tail <:+ idKey ++ (after ++ ['"']) := by
      refine List.suffix_of_suffix_length_le (htext ▸ List.suffix_append head tail) hsuffix ?_
      by_contra hlong
      have hle : (idKey ++ (after ++ ['"'])).length ≤ tail.tail.length := by
        rw [List.length_tail]
        omega
      have htail : tail.tail <:+ d.text :=
        (List.tail_suffix tail).trans (htext ▸ List.suffix_append head tail)
      have hsub := List.suffix_of_suffix_length_le hsuffix htail hle
      exact hlast ((List.prefix_append idKey _).isInfix.trans hsub.isInfix)
    have hfree : '"' ∉ after := fun hmem => hd.id.2 (by
      rw [← hid]
      exact List.mem_append_right _ hmem)
    have hcount : tail.count '"' ≤ 1 := by
      refine (hshort.sublist.count_le '"').trans ?_
      rw [List.count_append, List.count_append, List.count_eq_zero.mpr hfree]
      decide
    have hnot : ¬quoted d.id <:+: tail := by
      intro hoccurs
      have hle := (hoccurs.sublist.count_le '"').trans hcount
      rw [quoted, List.count_cons_self, List.count_append] at hle
      have hone : ['"'].count '"' = 1 := by decide
      omega
    show head ++ replaceFirst (quoted d.id) (quoted newId) tail = d.text
    rw [replaceFirst_of_not_occurs hnot, htext]

theorem rebuildDoc_self (matched id : List Char) : rebuildDoc matched id id = matched := by
  have hspec := @splitLast_spec idKey (by decide) matched
  rw [rebuildDoc]
  cases hsplit : splitLast idKey matched with
  | none => rfl
  | some split =>
    rw [hsplit] at hspec
    show split.1 ++ replaceFirst (quoted id) (quoted id) split.2 = matched
    rw [replaceFirst_self]
    exact hspec.1.symm

/-! ### The entries stay where they are -/

/-- The pieces of a registry with other ids. -/
def withIds (ids : MexDoc → List Char) (ps : List (Piece Char MexDoc)) :
    List (Piece Char MexDoc) :=
  ps.map fun
    | .plain c => .plain c
    | .found d => .found (d.withId (ids d))

theorem mem_foundIn {ps : List (Piece Char MexDoc)} {d : MexDoc} :
    d ∈ Pattern.foundIn ps ↔ Piece.found d ∈ ps := by
  rw [Pattern.foundIn, List.mem_filterMap]
  constructor
  · rintro ⟨piece, hmem, h⟩
    cases piece with
    | plain c => cases h
    | found e =>
      cases h
      exact hmem
  · exact fun h => ⟨_, h, rfl⟩

theorem wellFormed_of_settled {ps : List (Piece Char MexDoc)} (h : mexDocs.Settled ps) :
    ∀ d ∈ Pattern.foundIn ps, d.WellFormed := by
  induction h with
  | nil => exact nofun
  | plain _ _ ih => exact ih
  | found hfind _ ih =>
    intro d hd
    rcases List.mem_cons.mp hd with rfl | hd
    · exact (mexDoc_eq_some_iff.mp hfind).1
    · exact ih d hd

/-- Two registries that differ in ids are the same up to the first of them. -/
theorem exists_front (ids : MexDoc → List Char) (ps : List (Piece Char MexDoc)) :
    mexDocs.render (withIds ids ps) = mexDocs.render ps ∨
      ∃ front d after after', Piece.found d ∈ ps ∧
        mexDocs.render ps = front ++ (d.head ++ '"' :: after) ∧
        mexDocs.render (withIds ids ps) = front ++ (d.head ++ '"' :: after') := by
  induction ps with
  | nil => exact Or.inl rfl
  | cons piece ps ih =>
    cases piece with
    | plain c =>
      rcases ih with heq | ⟨front, d, after, after', hmem, hps, hps'⟩
      · exact Or.inl (congrArg (c :: ·) heq)
      · exact Or.inr ⟨c :: front, d, after, after', List.mem_cons_of_mem _ hmem,
          congrArg (c :: ·) hps, congrArg (c :: ·) hps'⟩
    | found d =>
      refine Or.inr ⟨[], d, d.id ++ ['"'] ++ mexDocs.render ps,
        ids d ++ ['"'] ++ mexDocs.render (withIds ids ps), List.mem_cons_self, ?_, ?_⟩
      · exact List.append_assoc d.head _ _
      · exact List.append_assoc d.head _ _

theorem count_head {d : MexDoc} (hd : d.WellFormed) : d.head.count '"' = 2 := by
  have hblank : ∀ cs : List Char, (∀ c ∈ cs, isSpace c = true) → cs.count '"' = 0 := fun cs h =>
    List.count_eq_zero.mpr (not_mem_of_blank h (by decide))
  have hname : (quoted d.name).count '"' = 2 := by
    rw [quoted, List.count_cons_self, List.count_append, List.count_eq_zero.mpr hd.name.2]
    rfl
  rw [MexDoc.head, List.count_append, List.count_append, List.count_append, List.count_append,
    List.count_cons_of_ne (by decide), List.count_append, List.count_append, hname,
    hblank _ hd.afterName, hblank _ hd.beforeComma, hblank _ hd.afterComma, hblank _ hd.afterId]
  rfl

/-- What stands before the first quote of an entry. -/
theorem takeWhile_head {d : MexDoc} (hd : d.WellFormed) {front : List Char} (after : List Char)
    (hfront : '"' ∉ front) : (front ++ (d.head ++ after)).takeWhile (· ≠ '"') =
      front ++ ("name:".toList ++ d.afterName) := by
  have hsplit : ∃ z, front ++ (d.head ++ after) =
      (front ++ ("name:".toList ++ d.afterName)) ++ '"' :: z :=
    ⟨d.name ++ '"' :: (d.beforeComma ++ (',' :: (d.afterComma ++ ("id:".toList ++
      (d.afterId ++ after))))), by
        simp only [MexDoc.head, quoted, List.append_assoc, List.cons_append, List.nil_append]⟩
  have hall : ∀ c ∈ front ++ ("name:".toList ++ d.afterName), decide (c ≠ '"') = true := by
    intro c hc
    refine decide_eq_true ?_
    rintro rfl
    rw [List.mem_append, List.mem_append] at hc
    rcases hc with hc | hc | hc
    · exact hfront hc
    · exact absurd hc (by decide)
    · exact not_mem_of_blank hd.afterName (by decide) hc
  obtain ⟨z, hz⟩ := hsplit
  rw [hz, List.takeWhile_append_of_pos hall, List.takeWhile_cons_of_neg (by decide),
    List.append_nil]

/-- **No entry begins before another and ends inside its id.**  Up to that id there are three quotes
of the other entry, and so none before it; but between the name's key and the name stand blanks
only. -/
theorem not_overlapping {c : Char} {front : List Char} {d e : MexDoc} (hd : d.WellFormed)
    (he : e.WellFormed) (h : c :: front ++ (d.head ++ ['"']) <+: e.text) :
    c :: front ++ (d.head ++ ['"']) = e.text := by
  by_contra hne
  have htext : e.text = (e.head ++ '"' :: e.id) ++ ['"'] := by
    rw [MexDoc.text, quoted, List.append_assoc]
    rfl
  have hshort : c :: front ++ (d.head ++ ['"']) <+: e.head ++ '"' :: e.id := by
    rw [htext] at h hne
    exact (List.prefix_concat_iff.mp h).resolve_left hne
  have hcount := hshort.sublist.count_le '"'
  have hone : ['"'].count '"' = 1 := by decide
  have hid : ('"' :: e.id).count '"' = 1 := by
    rw [List.count_cons_self, List.count_eq_zero.mpr he.id.2]
  rw [List.count_append, List.count_append, count_head hd, List.count_append, count_head he, hone,
    hid] at hcount
  have hfront : '"' ∉ c :: front := List.count_eq_zero.mp (by omega)
  obtain ⟨z, hz⟩ := h
  have hbefore := takeWhile_head hd ('"' :: z) hfront
  have heBefore := @takeWhile_head e he [] (quoted e.id) List.not_mem_nil
  have hwhole : c :: front ++ (d.head ++ '"' :: z) = [] ++ (e.head ++ quoted e.id) := by
    rw [List.nil_append, ← MexDoc.text, ← hz, List.append_assoc, List.append_assoc]
    rfl
  rw [hwhole, heBefore] at hbefore
  have htail : "ame:".toList ++ e.afterName = front ++ ("name:".toList ++ d.afterName) :=
    (List.cons.inj hbefore).2
  have hn : 'n' ∈ "ame:".toList ++ e.afterName := by
    rw [htail]
    exact List.mem_append_right _ (List.mem_append_left _ (by decide))
  rcases List.mem_append.mp hn with hn | hn
  · exact absurd hn (by decide)
  · exact not_mem_of_blank he.afterName (by decide) hn

/-- **Ids that can be quoted leave the entries where they are.** -/
theorem settled_withIds {ids : MexDoc → List Char} {ps : List (Piece Char MexDoc)}
    (h : mexDocs.Settled ps) (hids : ∀ d ∈ Pattern.foundIn ps, Quotable (ids d)) :
    mexDocs.Settled (withIds ids ps) := by
  induction h with
  | nil => exact .nil
  | @plain c ps hfind hps ih =>
    refine .plain ?_ (ih hids)
    show mexDocs.find (c :: mexDocs.render (withIds ids ps)) = none
    rcases exists_front ids ps with heq | ⟨front, d, after, after', hmem, hbefore, hafter⟩
    · rw [heq]
      exact hfind
    · have hd := wellFormed_of_settled hps d (mem_foundIn.mpr hmem)
      rw [hbefore] at hfind
      rw [hafter]
      by_contra hsome
      obtain ⟨⟨e, rest⟩, he⟩ := Option.ne_none_iff_exists'.mp hsome
      obtain ⟨hwf, htext⟩ := mexDoc_eq_some_iff.mp he
      have hcommon : ∀ z : List Char, c :: (front ++ (d.head ++ '"' :: z)) =
          (c :: front ++ (d.head ++ ['"'])) ++ z := fun z => by simp
      rw [hcommon] at htext
      have hfront : e.text <+: c :: front ++ (d.head ++ ['"']) := by
        rcases List.prefix_or_prefix_of_prefix (htext ▸ List.prefix_append e.text rest)
          (List.prefix_append (c :: front ++ (d.head ++ ['"'])) after') with hpre | hpre
        · exact hpre
        · rw [not_overlapping hd hwf hpre]
      obtain ⟨z, hz⟩ := hfront
      have hfound : mexDoc (c :: (front ++ (d.head ++ '"' :: after))) = some (e, z ++ after) := by
        rw [mexDoc_eq_some_iff, hcommon, ← hz, List.append_assoc]
        exact ⟨hwf, rfl⟩
      have hnone : mexDoc (c :: (front ++ (d.head ++ '"' :: after))) = none := hfind
      rw [hnone] at hfound
      cases hfound
  | @found d ps hfind hps ih =>
    have hwf := (mexDoc_eq_some_iff.mp hfind).1
    have hid := hids d List.mem_cons_self
    refine .found ?_ (ih fun e he => hids e (List.mem_cons_of_mem d he))
    exact mexDoc_eq_some_iff.mpr ⟨hwf.withId hid, rfl⟩

theorem foundIn_withIds (ids : MexDoc → List Char) (ps : List (Piece Char MexDoc)) :
    Pattern.foundIn (withIds ids ps) = (Pattern.foundIn ps).map fun d => d.withId (ids d) := by
  induction ps with
  | nil => rfl
  | cons piece ps ih =>
    cases piece with
    | plain c => exact ih
    | found d => exact congrArg (d.withId (ids d) :: ·) ih

/-! ### The whole registry -/

/-- The id that an entry is to have. -/
def refreshedId (ir : MexIr) (d : MexDoc) : List Char := (byName ir d.name).getD d.id

/-- A refresh that writes the ids of the bundle and nothing else, and has nothing to do when it is
run again. -/
structure Refreshed (existing : List Char) (ir : MexIr) : Prop where
  updated : (refreshMexIds existing ir).updatedSource =
    mexDocs.render (withIds (refreshedId ir) (mexDocs.scan existing))
  docs : docsOf (refreshMexIds existing ir).updatedSource =
    (docsOf existing).map fun d => d.withId (refreshedId ir d)
  again : (refreshMexIds (refreshMexIds existing ir).updatedSource ir).updatedSource =
    (refreshMexIds existing ir).updatedSource
  changed : (refreshMexIds (refreshMexIds existing ir).updatedSource ir).changed = []
  unchanged : (refreshMexIds (refreshMexIds existing ir).updatedSource ir).unchanged =
    ((docsOf existing).map MexDoc.name).filter fun name => (byName ir name).isSome
  stale : (refreshMexIds (refreshMexIds existing ir).updatedSource ir).stale =
    (refreshMexIds existing ir).stale

theorem wellFormed_of_mem_docsOf {existing : List Char} {d : MexDoc} (h : d ∈ docsOf existing) :
    d.WellFormed :=
  wellFormed_of_settled (Pattern.settled_scan existing) d h

theorem refreshedText_of_occurs {ir : MexIr} {d : MexDoc} (hd : d.WellFormed)
    (hkey : idKey <:+: d.id) : refreshedText ir d = d.text := by
  rw [refreshedText]
  split
  · exact rebuildDoc_of_occurs hd hkey _
  · rfl

theorem refreshedText_of_not_occurs {ir : MexIr} {d : MexDoc} (hd : d.WellFormed)
    (hkey : ¬idKey <:+: d.id) : refreshedText ir d = (d.withId (refreshedId ir d)).text := by
  rw [refreshedText, refreshedId]
  cases byName ir d.name with
  | none => rfl
  | some newId => exact rebuildDoc_of_not_occurs hd hkey newId

theorem refreshedText_of_current {ir : MexIr} {d : MexDoc} (h : refreshedId ir d = d.id) :
    refreshedText ir d = d.text := by
  rw [refreshedId] at h
  rw [refreshedText]
  cases hname : byName ir d.name with
  | none => rfl
  | some newId =>
    rw [hname] at h
    cases h
    exact rebuildDoc_self d.text d.id

/-- Two quoted texts at the beginning of one text are the same. -/
theorem quoted_append_inj {a b cs ds : List Char} (ha : '"' ∉ a) (hb : '"' ∉ b)
    (h : quoted a ++ cs = quoted b ++ ds) : a = b ∧ cs = ds := by
  have htail : a ++ ('"' :: cs) = b ++ ('"' :: ds) := by
    simpa [quoted] using h
  have htake : ∀ {body rest : List Char}, '"' ∉ body →
      (body ++ '"' :: rest).takeWhile (· ≠ '"') = body := by
    intro body rest hbody
    have hall : ∀ c ∈ body, decide (c ≠ '"') = true := fun c hc =>
      decide_eq_true fun hquote => hbody (hquote ▸ hc)
    rw [List.takeWhile_append_of_pos hall, List.takeWhile_cons_of_neg (by decide), List.append_nil]
  have hab : a = b := calc
    a = (a ++ '"' :: cs).takeWhile (· ≠ '"') := (htake ha).symm
    _ = (b ++ '"' :: ds).takeWhile (· ≠ '"') := by rw [htail]
    _ = b := htake hb
  subst hab
  exact ⟨rfl, (List.cons.inj (List.append_cancel_left htail)).2⟩

/-- Where the ids are written, no id that was to change has the key in it. -/
theorem current_of_written {ir : MexIr} : ∀ {ps : List (Piece Char MexDoc)},
    (∀ d ∈ Pattern.foundIn ps, d.WellFormed ∧ Quotable (refreshedId ir d)) →
    ps.flatMap (Pattern.write (refreshedText ir)) = mexDocs.render (withIds (refreshedId ir) ps) →
    ∀ d ∈ Pattern.foundIn ps, idKey <:+: d.id → refreshedId ir d = d.id
  | [], _, _ => nofun
  | .plain c :: ps, hps, h => by
    have h : c :: ps.flatMap (Pattern.write (refreshedText ir)) =
        c :: mexDocs.render (withIds (refreshedId ir) ps) := h
    have hps : ∀ d ∈ Pattern.foundIn ps, d.WellFormed ∧ Quotable (refreshedId ir d) := hps
    exact @current_of_written ir ps hps (List.cons.inj h).2
  | .found d :: ps, hps, h => by
    obtain ⟨hd, hnew⟩ := hps d List.mem_cons_self
    have hrest := fun e he => hps e (List.mem_cons_of_mem d he)
    have h : refreshedText ir d ++ ps.flatMap (Pattern.write (refreshedText ir)) =
        (d.withId (refreshedId ir d)).text ++ mexDocs.render (withIds (refreshedId ir) ps) := h
    by_cases hkey : idKey <:+: d.id
    · rw [refreshedText_of_occurs hd hkey, MexDoc.withId_text, MexDoc.text, List.append_assoc,
        List.append_assoc, List.append_cancel_left_eq] at h
      obtain ⟨hid, htail⟩ := quoted_append_inj hd.id.2 hnew.2 h
      intro e he
      rcases List.mem_cons.mp he with rfl | he
      · exact fun _ => hid.symm
      · exact current_of_written hrest htail e he
    · rw [refreshedText_of_not_occurs hd hkey, List.append_cancel_left_eq] at h
      intro e he
      rcases List.mem_cons.mp he with rfl | he
      · exact fun hoccurs => absurd hoccurs hkey
      · exact current_of_written hrest h e he

section Written

variable {existing : List Char} {ir : MexIr}

/-- A refresh of a registry with the entries of another and the ids of the bundle. -/
theorem refreshMexIds_of_docs {updated : List Char}
    (hdocs : docsOf updated = (docsOf existing).map fun d => d.withId (refreshedId ir d)) :
    (refreshMexIds updated ir).updatedSource = updated ∧ (refreshMexIds updated ir).changed = [] ∧
      (refreshMexIds updated ir).unchanged =
        ((docsOf existing).map MexDoc.name).filter (fun name => (byName ir name).isSome) ∧
      (refreshMexIds updated ir).stale = (refreshMexIds existing ir).stale := by
  have hcurrent : ∀ d ∈ docsOf updated, refreshedId ir d = d.id := by
    intro d hd
    rw [hdocs] at hd
    obtain ⟨e, -, rfl⟩ := List.mem_map.mp hd
    show (byName ir e.name).getD (refreshedId ir e) = refreshedId ir e
    rw [refreshedId]
    cases byName ir e.name <;> rfl
  refine ⟨?_, ?_, ?_, ?_⟩
  · calc mexDocs.replaceAll (refreshedText ir) updated
        = mexDocs.render (mexDocs.scan updated) :=
          Pattern.flatMap_write_congr fun d hd => refreshedText_of_current (hcurrent d hd)
      _ = updated := Pattern.render_scan updated
  · refine List.filterMap_eq_nil_iff.mpr fun d hd => ?_
    have hid := hcurrent d hd
    rw [refreshedId] at hid
    cases hname : byName ir d.name with
    | none => rfl
    | some newId =>
      rw [hname] at hid
      exact if_pos hid
  · show (docsOf updated).filterMap _ = _
    rw [hdocs, List.filterMap_map, List.filter_map, ← List.filterMap_eq_map,
      List.filterMap_filter]
    refine List.filterMap_congr fun d _ => ?_
    simp only [Function.comp_apply, refreshedId]
    cases hname : byName ir d.name with
    | none => simp [MexDoc.withId, hname]
    | some newId => simp [MexDoc.withId, hname]
  · show (docsOf updated).filterMap _ = (docsOf existing).filterMap _
    rw [hdocs, List.filterMap_map]
    rfl

theorem updated_of_written (h : ∀ d ∈ docsOf existing, ∀ newId, byName ir d.name = some newId →
    newId = d.id ∨ (¬idKey <:+: d.id ∧ Quotable newId)) :
    (refreshMexIds existing ir).updatedSource =
      mexDocs.render (withIds (refreshedId ir) (mexDocs.scan existing)) := by
  have htext : ∀ d ∈ docsOf existing,
      refreshedText ir d = (d.withId (refreshedId ir d)).text := by
    intro d hd
    have hwf := wellFormed_of_mem_docsOf hd
    by_cases hkey : idKey <:+: d.id
    · have hcurrent : refreshedId ir d = d.id := by
        rw [refreshedId]
        cases hname : byName ir d.name with
        | none => rfl
        | some newId => exact (h d hd newId hname).resolve_right fun hnew => hnew.1 hkey
      rw [refreshedText_of_current hcurrent, hcurrent, MexDoc.withId_self]
    · exact refreshedText_of_not_occurs hwf hkey
  rw [withIds, Pattern.render, List.flatMap_map]
  refine (Pattern.flatMap_write_congr htext).trans ?_
  congr 1
  funext piece
  cases piece <;> rfl

/-- **The refresh writes the ids, and is idempotent, exactly where every id that it changes has no
`id:` in it and every id that it writes can stand between quotes.** -/
theorem refreshMexIds_exact : Refreshed existing ir ↔
    ∀ d ∈ docsOf existing, ∀ newId, byName ir d.name = some newId →
      newId = d.id ∨ (¬"id:".toList <:+: d.id ∧ Quotable newId) := by
  constructor
  · intro h d hd newId hname
    have hnew : ∀ e ∈ docsOf existing, Quotable (refreshedId ir e) := by
      intro e he
      have hmem : e.withId (refreshedId ir e) ∈
          docsOf (refreshMexIds existing ir).updatedSource := by
        rw [h.docs]
        exact List.mem_map_of_mem he
      exact (wellFormed_of_mem_docsOf hmem).id
    have hid : refreshedId ir d = newId := by rw [refreshedId, hname, Option.getD_some]
    by_cases hkey : idKey <:+: d.id
    · left
      have hcurrent := current_of_written (fun e he => ⟨wellFormed_of_mem_docsOf he, hnew e he⟩)
        h.updated d hd hkey
      exact hid.symm.trans hcurrent
    · exact Or.inr ⟨hkey, hid ▸ hnew d hd⟩
  · intro h
    have hupdated := updated_of_written h
    have hids : ∀ d ∈ Pattern.foundIn (mexDocs.scan existing), Quotable (refreshedId ir d) := by
      intro d hd
      have hwf := wellFormed_of_mem_docsOf hd
      rw [refreshedId]
      cases hname : byName ir d.name with
      | none => exact hwf.id
      | some newId =>
        rcases h d hd newId hname with rfl | ⟨-, hnew⟩
        · exact hwf.id
        · exact hnew
    have hdocs : docsOf (refreshMexIds existing ir).updatedSource =
        (docsOf existing).map fun d => d.withId (refreshedId ir d) := by
      rw [docsOf, hupdated,
        Pattern.scan_render (settled_withIds (Pattern.settled_scan existing) hids),
        foundIn_withIds]
      rfl
    obtain ⟨hagain, hchanged, hunchanged, hstale⟩ := refreshMexIds_of_docs hdocs
    exact ⟨hupdated, hdocs, hagain, hchanged, hunchanged, hstale⟩

end Written

/-- An id with an `id:` in it is reported as changed, and is not: the pair of texts behind it is
searched for the quoted id, which begins before. -/
theorem refreshMexIds_key_in_id :
    let existing := "name: \"a\", id: \"xid:1\"".toList
    let ir : MexIr := [("a".toList, "2".toList)]
    (refreshMexIds existing ir).updatedSource = existing ∧
      (refreshMexIds existing ir).changed = [("a".toList, "xid:1".toList, "2".toList)] ∧
      ¬Refreshed existing ir := by
  intro existing ir
  have hscan : mexDocs.scan existing =
      [.found ⟨[' '], "a".toList, [], [' '], [' '], "xid:1".toList⟩] := by
    have hfind : mexDocs.find existing =
        some (⟨[' '], "a".toList, [], [' '], [' '], "xid:1".toList⟩, []) := by rfl
    rw [Pattern.scan_of_find hfind (by decide), Pattern.scan]
  have hsource : (refreshMexIds existing ir).updatedSource = existing := by
    show (mexDocs.scan existing).flatMap _ = existing
    rw [hscan]
    decide
  refine ⟨hsource, ?_, ?_⟩
  · show (Pattern.foundIn (mexDocs.scan existing)).filterMap _ = _
    rw [hscan]
    decide
  · intro h
    have hupdated := h.updated
    rw [hsource, hscan] at hupdated
    exact absurd hupdated (by decide)

end Whatspec.Codegen.MexIds

import Mathlib
import Whatspec.Proto.Relocate

/-!
# The names inside a printed type

A printed type names one type, or the two of a `map<K, V>`.  `typeRefs_rewriteType`: rewriting a
printed type rewrites each name in it, when the names that are replaced and their
replacements are made of identifiers.
-/

namespace Whatspec.Proto

open Whatspec.Library Whatspec.Text

/-- A letter or an underscore, then letters, digits and underscores. -/
def isIdent (s : String) : Bool :=
  match s.toList with
  | [] => false
  | c :: cs => (c.isAlpha || c = '_') && cs.all fun d => d.isAlphanum || d = '_'

/-- The names in a printed type. -/
def typeRefs (t : String) : List String :=
  match mapInner t with
  | some inner => (inner.splitOn ',').map fun p => String.ofList (trim p)
  | none => [t]

/-- The segments of a dotted path. -/
def components (r : String) : List String := (r.toList.splitOn '.').map String.ofList

/-- The characters of an identifier. -/
def identChar (c : Char) : Bool := c.isAlphanum || c = '_'

theorem identChar_of_isIdent {s : String} (h : isIdent s = true) : ∀ c ∈ s.toList, identChar c := by
  unfold isIdent at h
  intro c hc
  cases hs : s.toList with
  | nil =>
      rw [hs] at hc
      exact absurd hc List.not_mem_nil
  | cons d ds =>
      rw [hs] at h hc
      simp only [Bool.and_eq_true, List.all_eq_true] at h
      cases List.mem_cons.mp hc with
      | inl heq =>
          subst heq
          have hd := h.1
          unfold identChar Char.isAlphanum
          cases hc : c.isAlpha <;> simp_all
      | inr hrest => exact h.2 c hrest

theorem not_mem_of_isIdent {s : String} (h : isIdent s = true) {c : Char}
    (hc : identChar c = false) : c ∉ s.toList := by
  intro hmem
  rw [identChar_of_isIdent h c hmem] at hc
  cases hc

/-! ### Trimming -/

theorem trim_eq_self {s : List Char} (h : ∀ c ∈ s, isWhitespace c = false) : trim s = s := by
  have hdrop : ∀ l : List Char, (∀ c ∈ l, isWhitespace c = false) →
      l.dropWhile isWhitespace = l := by
    intro l hl
    cases l with
    | nil => rfl
    | cons c cs => rw [List.dropWhile_cons, hl c List.mem_cons_self]; rfl
  rw [trim, hdrop s h, hdrop s.reverse fun c hc => h c (List.mem_reverse.mp hc), List.reverse_reverse]

theorem trim_trim (s : List Char) : trim (trim s) = trim s := by
  have htrim : ∀ l, trim l = (l.dropWhile isWhitespace).rdropWhile isWhitespace := fun _ => rfl
  have hhead : (trim s).dropWhile isWhitespace = trim s := by
    rw [List.dropWhile_eq_self_iff]
    intro hpos
    have hne : s.dropWhile isWhitespace ≠ [] := by
      intro hnil
      rw [htrim, hnil, List.rdropWhile_nil] at hpos
      exact absurd hpos (Nat.lt_irrefl 0)
    have hprefix : trim s <+: s.dropWhile isWhitespace := by
      rw [htrim]
      exact List.rdropWhile_prefix isWhitespace _
    have hlong : 0 < (s.dropWhile isWhitespace).length := List.length_pos_iff.mpr hne
    have hsame : (trim s)[0] = (s.dropWhile isWhitespace)[0] := List.IsPrefix.getElem hprefix hpos
    rw [hsame]
    have hidem := List.dropWhile_idempotent (p := isWhitespace) (l := s)
    exact (List.dropWhile_eq_self_iff.mp hidem) (List.length_pos_iff.mpr hne)
  rw [htrim (trim s), hhead, htrim s, List.rdropWhile_idempotent]

theorem trim_cons_space (s : List Char) : trim (' ' :: s) = trim s := by
  rw [trim, trim, List.dropWhile_cons, if_pos (by decide)]

/-! ### Splitting what was joined -/

theorem splitOn_space_cons (s : List Char) :
    ((' ' :: s).splitOn ',').map trim = (s.splitOn ',').map trim := by
  rw [List.splitOn_cons_eq_if_modifyHead, if_neg (by decide)]
  cases hs : s.splitOn ',' with
  | nil => rfl
  | cons w ws =>
      rw [List.modifyHead_cons, List.map_cons, List.map_cons, trim_cons_space]

/-- Splitting a joined list gives its parts back, up to the blanks of the separator. -/
theorem splitOn_intercalate {parts : List (List Char)} (hne : parts ≠ [])
    (hcomma : ∀ p ∈ parts, ',' ∉ p) :
    ((List.intercalate [',', ' '] parts).splitOn ',').map trim = parts.map trim := by
  induction parts with
  | nil => exact absurd rfl hne
  | cons p ps ih =>
      have hp := hcomma p List.mem_cons_self
      cases ps with
      | nil =>
          rw [List.intercalate_singleton, List.splitOn_eq_singleton hp]
      | cons q qs =>
          have hrest := ih (List.cons_ne_nil q qs) fun r hr => hcomma r (List.mem_cons_of_mem p hr)
          have hjoin : List.intercalate [',', ' '] (p :: q :: qs) =
              p ++ ',' :: (' ' :: List.intercalate [',', ' '] (q :: qs)) := by
            rw [List.intercalate_cons_cons]
            simp
          rw [hjoin, List.splitOn_append_cons_self, List.map_append, splitOn_space_cons, hrest,
            List.splitOn_eq_singleton hp]
          rfl

/-! ### Maps -/

theorem stripPrefix_eq_some_iff {pre s r : List Char} :
    stripPrefix pre s = some r ↔ s = pre ++ r := by
  unfold stripPrefix
  constructor
  · intro h
    by_cases hpre : pre.isPrefixOf s
    · rw [if_pos hpre] at h
      obtain ⟨t, rfl⟩ := List.isPrefixOf_iff_prefix.mp hpre
      rw [List.drop_left] at h
      rw [Option.some.inj h]
    · rw [if_neg hpre] at h
      cases h
  · intro h
    subst h
    rw [if_pos (List.isPrefixOf_iff_prefix.mpr (List.prefix_append pre r)), List.drop_left]

theorem stripSuffix_eq_some_iff {suf s r : List Char} :
    stripSuffix suf s = some r ↔ s = r ++ suf := by
  unfold stripSuffix
  constructor
  · intro h
    by_cases hsuf : suf.isSuffixOf s
    · rw [if_pos hsuf] at h
      obtain ⟨t, rfl⟩ := List.isSuffixOf_iff_suffix.mp hsuf
      rw [List.length_append, Nat.add_sub_cancel, List.take_left] at h
      rw [Option.some.inj h]
    · rw [if_neg hsuf] at h
      cases h
  · intro h
    subst h
    rw [if_pos (List.isSuffixOf_iff_suffix.mpr (List.suffix_append r suf)), List.length_append,
      Nat.add_sub_cancel, List.take_left]

/-- A printed map, character by character. -/
theorem mapInner_eq_some_iff {t : String} {inner : List Char} :
    mapInner t = some inner ↔ t.toList = "map<".toList ++ (inner ++ ['>']) := by
  rw [mapInner, Option.bind_eq_some_iff]
  constructor
  · intro h
    obtain ⟨r, hr, hinner⟩ := h
    rw [stripPrefix_eq_some_iff.mp hr, stripSuffix_eq_some_iff.mp hinner]
  · intro h
    exact ⟨inner ++ ['>'], stripPrefix_eq_some_iff.mpr h, stripSuffix_eq_some_iff.mpr rfl⟩

theorem mapInner_eq_none {t : String} (h : '>' ∉ t.toList) : mapInner t = none := by
  cases hinner : mapInner t with
  | none => rfl
  | some inner =>
      refine absurd ?_ h
      rw [mapInner_eq_some_iff.mp hinner]
      exact List.mem_append_right _ (List.mem_append_right _ List.mem_cons_self)

/-! ### Paths of identifiers -/

/-- A text that is a path of identifiers is neither a map nor cut by commas or blanks. -/
structure PlainText (s : String) : Prop where
  bracket : '>' ∉ s.toList
  comma : ',' ∉ s.toList
  trimmed : trim s.toList = s.toList

theorem isWhitespace_of_identChar {c : Char} (h : identChar c = true) :
    isWhitespace c = false := by
  simp only [identChar, Char.isAlphanum, Char.isAlpha, Char.isUpper, Char.isLower, Char.isDigit,
    Bool.or_eq_true, Bool.and_eq_true, decide_eq_true_eq, ge_iff_le, UInt32.le_iff_toNat_le] at h
  have hval : c.val.toNat = c.toNat := rfl
  have hunder : c = '_' → c.toNat = 95 := fun heq => by rw [heq]; rfl
  simp only [hval] at h
  simp only [isWhitespace, Bool.or_eq_false_iff, Bool.and_eq_false_iff, decide_eq_false_iff_not]
  have hrange : (65 ≤ c.toNat ∧ c.toNat ≤ 90) ∨ (97 ≤ c.toNat ∧ c.toNat ≤ 122) ∨
      (48 ≤ c.toNat ∧ c.toNat ≤ 57) ∨ c.toNat = 95 := by
    rcases h with ((hu | hl) | hd) | hus
    · exact Or.inl hu
    · exact Or.inr (Or.inl hl)
    · exact Or.inr (Or.inr (Or.inl hd))
    · exact Or.inr (Or.inr (Or.inr (hunder hus)))
  omega

theorem plainText_of_chars {s : String} (h : ∀ c ∈ s.toList, identChar c = true ∨ c = '.') :
    PlainText s := by
  have hnot : ∀ d : Char, identChar d = false → d ≠ '.' → d ∉ s.toList := by
    intro d hd hdot hmem
    cases h d hmem with
    | inl hident => rw [hident] at hd; cases hd
    | inr heq => exact hdot heq
  refine ⟨hnot '>' (by decide) (by decide), hnot ',' (by decide) (by decide),
    trim_eq_self fun c hc => ?_⟩
  cases h c hc with
  | inl hident => exact isWhitespace_of_identChar hident
  | inr heq => rw [heq]; decide

theorem plainText_of_isIdent {s : String} (h : isIdent s = true) : PlainText s :=
  plainText_of_chars fun c hc => Or.inl (identChar_of_isIdent h c hc)

theorem plainText_qualified {h a : String} (hh : isIdent h = true) (ha : isIdent a = true) :
    PlainText (h ++ "." ++ a) := by
  refine plainText_of_chars fun c hc => ?_
  rw [String.toList_append, String.toList_append, List.mem_append, List.mem_append] at hc
  rcases hc with (hc | hc) | hc
  · exact Or.inl (identChar_of_isIdent hh c hc)
  · exact Or.inr (List.mem_singleton.mp hc)
  · exact Or.inl (identChar_of_isIdent ha c hc)

theorem components_of_isIdent {s : String} (h : isIdent s = true) : components s = [s] := by
  rw [components, List.splitOn_eq_singleton (not_mem_of_isIdent h (by decide))]
  rw [List.map_singleton, String.ofList_toList]

/-- The segments of a qualified name. -/
theorem components_qualified {h a : String} (hh : isIdent h = true) (ha : isIdent a = true) :
    components (h ++ "." ++ a) = [h, a] := by
  have hchars : (h ++ "." ++ a).toList = h.toList ++ '.' :: a.toList := by
    rw [String.toList_append, String.toList_append, List.append_assoc]
    rfl
  rw [components, hchars, List.splitOn_append_cons_self,
    List.splitOn_eq_singleton (not_mem_of_isIdent hh (by decide)),
    List.splitOn_eq_singleton (not_mem_of_isIdent ha (by decide))]
  show [String.ofList h.toList, String.ofList a.toList] = _
  rw [String.ofList_toList, String.ofList_toList]

/-! ### Rewriting -/

/-- What a name becomes. -/
def renamed (qualified : List (String × String)) (r : String) : String :=
  (SortedMap.get qualified r).getD r

/-- The rewritten names of a map, as characters. -/
def rewrittenParts (qualified : List (String × String)) (inner : List Char) : List (List Char) :=
  (inner.splitOn ',').map fun p => (renamed qualified (String.ofList (trim p))).toList

/-- A rewritten map is a map of the rewritten names. -/
theorem mapInner_rewritten (qualified : List (String × String)) (inner : List Char) :
    mapInner ("map<" ++ String.intercalate ", " ((inner.splitOn ',').map fun p =>
      (SortedMap.get qualified (String.ofList (trim p))).getD (String.ofList (trim p))) ++ ">") =
        some (List.intercalate [',', ' '] (rewrittenParts qualified inner)) := by
  rw [mapInner_eq_some_iff, String.toList_append, String.toList_append, String.toList_intercalate,
    List.map_map, List.append_assoc]
  rfl

theorem mem_of_mem_trim {s : List Char} {c : Char} (h : c ∈ trim s) : c ∈ s := by
  rw [trim, List.mem_reverse] at h
  have hdrop := (List.dropWhile_sublist isWhitespace).subset h
  rw [List.mem_reverse] at hdrop
  exact (List.dropWhile_sublist isWhitespace).subset hdrop

/-- **Rewriting a printed type rewrites each name in it.** -/
theorem typeRefs_rewriteType {qualified : List (String × String)}
    (hplain : ∀ k v, SortedMap.get qualified k = some v → PlainText k ∧ PlainText v) (t : String) :
    typeRefs (rewriteType qualified t) = (typeRefs t).map (renamed qualified) := by
  have hrefs : ∀ s, PlainText s → typeRefs s = [s] := fun s hs => by
    rw [typeRefs, mapInner_eq_none hs.bracket]
  rw [rewriteType]
  cases hget : SortedMap.get qualified t with
  | some repl =>
      obtain ⟨ht, hrepl⟩ := hplain t repl hget
      show typeRefs repl = _
      rw [hrefs t ht, hrefs repl hrepl, List.map_singleton, renamed, hget]
      rfl
  | none =>
      cases hinner : mapInner t with
      | none =>
          show typeRefs t = _
          rw [typeRefs, hinner]
          show [t] = [renamed qualified t]
          rw [renamed, hget]
          rfl
      | some inner =>
          rw [typeRefs, mapInner_rewritten qualified inner, typeRefs, hinner]
          show List.map (fun p => String.ofList (trim p)) _ = List.map _ (List.map _ _)
          have hparts : ∀ p ∈ rewrittenParts qualified inner, ',' ∉ p ∧ trim p = p := by
            intro p hp
            obtain ⟨w, hw, rfl⟩ := List.mem_map.mp hp
            have hcomma : ',' ∉ trim w := fun h => not_mem_of_mem_splitOn hw (mem_of_mem_trim h)
            rw [renamed]
            cases hr : SortedMap.get qualified (String.ofList (trim w)) with
            | none =>
                rw [Option.getD_none, String.toList_ofList]
                exact ⟨hcomma, trim_trim w⟩
            | some v => exact ⟨(hplain _ v hr).2.comma, (hplain _ v hr).2.trimmed⟩
          have hne : rewrittenParts qualified inner ≠ [] := fun h =>
            List.splitOn_ne_nil ',' inner (List.map_eq_nil_iff.mp h)
          have hsplit := splitOn_intercalate hne fun p hp => (hparts p hp).1
          have htrim : (rewrittenParts qualified inner).map trim = rewrittenParts qualified inner := by
            rw [List.map_congr_left fun p hp => (hparts p hp).2, List.map_id']
          rw [htrim] at hsplit
          have hstrings := congrArg (List.map String.ofList) hsplit
          rw [List.map_map] at hstrings
          refine hstrings.trans ?_
          rw [rewrittenParts, List.map_map, List.map_map]
          refine List.map_congr_left fun w _ => ?_
          exact String.ofList_toList

end Whatspec.Proto

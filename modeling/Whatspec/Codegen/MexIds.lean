import Mathlib.Data.List.Dedup
import Whatspec.Library.Replacing

/-!
# The registry of document ids

A registry of the consumer names the documents of the bundle, each with an id that changes with
every release.  The ids are rewritten in place: an entry `name: "…", id: "…"` is found by a pattern, and
the quoted id behind the last `id:` in it is replaced.

* `MexDoc` is an entry with the blanks in it, `mexDocs` the pattern;
* `rebuildDoc` replaces one id, `refreshMexIds` all of them;
* `MexDoc.WellFormed` and **`mexDoc_eq_some_iff`** say what the pattern finds.
-/

namespace Whatspec.Codegen.MexIds

open Whatspec.Library

/-! ### Entries -/

/-- White space of Unicode, `\s`. -/
def isSpace (c : Char) : Bool :=
  (0x9 ≤ c.toNat && c.toNat ≤ 0xd) || c.toNat = 0x20 || c.toNat = 0x85 || c.toNat = 0xa0 ||
    c.toNat = 0x1680 || (0x2000 ≤ c.toNat && c.toNat ≤ 0x200a) || c.toNat = 0x2028 ||
    c.toNat = 0x2029 || c.toNat = 0x202f || c.toNat = 0x205f || c.toNat = 0x3000

/-- An entry: the name, the id, and the blanks between the parts. -/
structure MexDoc where
  afterName : List Char
  name : List Char
  beforeComma : List Char
  afterComma : List Char
  afterId : List Char
  id : List Char

/-- A quoted text. -/
def quoted (cs : List Char) : List Char := '"' :: (cs ++ ['"'])

/-- An entry up to its quoted id. -/
def MexDoc.head (d : MexDoc) : List Char :=
  "name:".toList ++ (d.afterName ++ (quoted d.name ++ (d.beforeComma ++ (',' ::
    (d.afterComma ++ ("id:".toList ++ d.afterId))))))

def MexDoc.text (d : MexDoc) : List Char := d.head ++ quoted d.id

def stripPrefix (pre cs : List Char) : Option (List Char) :=
  if pre.isPrefixOf cs then some (cs.drop pre.length) else none

/-- The text between two quotes, at least one character. -/
def readQuoted : List Char → Option (List Char × List Char)
  | [] => none
  | c :: cs =>
    if c = '"' then
      match cs.takeWhile (· ≠ '"'), cs.dropWhile (· ≠ '"') with
      | first :: body, _ :: rest => some (first :: body, rest)
      | _, _ => none
    else none

/-- `MEX_DOC`, at the beginning of a text. -/
def mexDoc (cs : List Char) : Option (MexDoc × List Char) := do
  let cs ← stripPrefix "name:".toList cs
  let afterName := cs.takeWhile isSpace
  let (name, cs) ← readQuoted (cs.dropWhile isSpace)
  let beforeComma := cs.takeWhile isSpace
  let cs ← stripPrefix [','] (cs.dropWhile isSpace)
  let afterComma := cs.takeWhile isSpace
  let cs ← stripPrefix "id:".toList (cs.dropWhile isSpace)
  let afterId := cs.takeWhile isSpace
  let (id, rest) ← readQuoted (cs.dropWhile isSpace)
  some (⟨afterName, name, beforeComma, afterComma, afterId, id⟩, rest)

/-- A text that stands between quotes. -/
def Quotable (cs : List Char) : Prop := cs ≠ [] ∧ '"' ∉ cs

structure MexDoc.WellFormed (d : MexDoc) : Prop where
  afterName : ∀ c ∈ d.afterName, isSpace c = true
  name : Quotable d.name
  beforeComma : ∀ c ∈ d.beforeComma, isSpace c = true
  afterComma : ∀ c ∈ d.afterComma, isSpace c = true
  afterId : ∀ c ∈ d.afterId, isSpace c = true
  id : Quotable d.id

/-! ### What the pattern finds -/

theorem stripPrefix_eq_some_iff {pre cs rest : List Char} :
    stripPrefix pre cs = some rest ↔ cs = pre ++ rest := by
  rw [stripPrefix]
  constructor
  · intro h
    split_ifs at h with hpre
    obtain ⟨t, rfl⟩ := List.isPrefixOf_iff_prefix.mp hpre
    cases h
    rw [List.drop_left]
  · rintro rfl
    rw [if_pos (List.isPrefixOf_iff_prefix.mpr (List.prefix_append pre rest)), List.drop_left]

theorem readQuoted_eq_some_iff {cs body rest : List Char} :
    readQuoted cs = some (body, rest) ↔ Quotable body ∧ cs = quoted body ++ rest := by
  constructor
  · intro h
    cases cs with
    | nil => cases h
    | cons c cs =>
      rw [readQuoted] at h
      split_ifs at h with hc
      split at h
      · next first body' quote rest' hbody hrest =>
        cases h
        have hquote : quote = '"' := by
          have hhead := List.head?_dropWhile_not (· ≠ '"') cs
          rw [hrest] at hhead
          simpa using hhead
        have hfree : '"' ∉ first :: body' := by
          intro hmem
          have hall := List.all_eq_true.mp (List.all_takeWhile (p := (· ≠ '"')) (l := cs)) '"'
            (hbody ▸ hmem)
          exact absurd hall (by decide)
        have hsplit := List.takeWhile_append_dropWhile (p := (· ≠ '"')) (l := cs)
        rw [hbody, hrest, hquote] at hsplit
        refine ⟨⟨List.cons_ne_nil first body', hfree⟩, ?_⟩
        rw [hc, ← hsplit]
        simp [quoted]
      · cases h
  · rintro ⟨⟨hne, hfree⟩, rfl⟩
    have hall : ∀ c ∈ body, decide (c ≠ '"') = true := fun c hc =>
      decide_eq_true fun hquote => hfree (hquote ▸ hc)
    obtain ⟨first, body, rfl⟩ := List.exists_cons_of_ne_nil hne
    have htake : (first :: body ++ '"' :: rest).takeWhile (· ≠ '"') = first :: body := by
      rw [List.takeWhile_append_of_pos hall, List.takeWhile_cons_of_neg (by decide),
        List.append_nil]
    have hdrop : (first :: body ++ '"' :: rest).dropWhile (· ≠ '"') = '"' :: rest := by
      rw [List.dropWhile_append_of_pos hall, List.dropWhile_cons_of_neg (by decide)]
    have hcs : quoted (first :: body) ++ rest = '"' :: (first :: body ++ '"' :: rest) := by
      rw [quoted, List.cons_append, List.append_assoc]
      rfl
    rw [hcs, readQuoted, if_pos rfl, htake, hdrop]

/-- Blanks end where something else begins. -/
theorem span_blank {blank cs : List Char} (hblank : ∀ c ∈ blank, isSpace c = true)
    (hcs : cs.head?.all (fun c => !isSpace c) = true) :
    (blank ++ cs).takeWhile isSpace = blank ∧ (blank ++ cs).dropWhile isSpace = cs := by
  rw [List.takeWhile_append_of_pos hblank, List.dropWhile_append_of_pos hblank]
  cases cs with
  | nil => exact ⟨List.append_nil blank, rfl⟩
  | cons c cs =>
    have hc : ¬isSpace c = true := by simpa using hcs
    rw [List.takeWhile_cons_of_neg hc, List.dropWhile_cons_of_neg hc]
    exact ⟨List.append_nil blank, rfl⟩

theorem takeWhile_blank (cs : List Char) : ∀ c ∈ cs.takeWhile isSpace, isSpace c = true :=
  fun c hc => List.all_eq_true.mp List.all_takeWhile c hc

/-- **The pattern finds the well-formed entries.** -/
theorem mexDoc_eq_some_iff {cs rest : List Char} {d : MexDoc} :
    mexDoc cs = some (d, rest) ↔ d.WellFormed ∧ cs = d.text ++ rest := by
  constructor
  · intro h
    simp only [mexDoc, Option.bind_eq_bind, Option.bind_eq_some_iff, Option.some_inj,
      Prod.exists, Prod.mk.injEq] at h
    obtain ⟨cs₁, h₁, name, cs₂, h₂, cs₃, h₃, cs₄, h₄, id, cs₅, h₅, hd, hrest⟩ := h
    rw [stripPrefix_eq_some_iff] at h₁ h₃ h₄
    rw [readQuoted_eq_some_iff] at h₂ h₅
    subst hd hrest
    refine ⟨⟨takeWhile_blank _, h₂.1, takeWhile_blank _, takeWhile_blank _, takeWhile_blank _,
      h₅.1⟩, ?_⟩
    have hsplit : ∀ ds : List Char, ds = ds.takeWhile isSpace ++ ds.dropWhile isSpace := fun ds =>
      (List.takeWhile_append_dropWhile).symm
    have hid : cs₄ = cs₄.takeWhile isSpace ++ (quoted id ++ cs₅) := by
      rw [← h₅.2]
      exact hsplit cs₄
    have hcomma : cs₃ = cs₃.takeWhile isSpace ++ ("id:".toList ++ cs₄) := by
      rw [← h₄]
      exact hsplit cs₃
    have hname : cs₂ = cs₂.takeWhile isSpace ++ ([','] ++ cs₃) := by
      rw [← h₃]
      exact hsplit cs₂
    have hstart : cs₁ = cs₁.takeWhile isSpace ++ (quoted name ++ cs₂) := by
      rw [← h₂.2]
      exact hsplit cs₁
    calc cs = "name:".toList ++ (cs₁.takeWhile isSpace ++ (quoted name ++
          (cs₂.takeWhile isSpace ++ ([','] ++ (cs₃.takeWhile isSpace ++ ("id:".toList ++
            (cs₄.takeWhile isSpace ++ (quoted id ++ cs₅)))))))) := by
          rw [← hid, ← hcomma, ← hname, ← hstart, h₁]
      _ = _ := by simp only [MexDoc.text, MexDoc.head, List.append_assoc, List.cons_append,
          List.nil_append]
  · rintro ⟨hwf, rfl⟩
    obtain ⟨afterName, name, beforeComma, afterComma, afterId, id⟩ := d
    obtain ⟨hafterName, hname, hbeforeComma, hafterComma, hafterId, hid⟩ := hwf
    dsimp only at hafterName hname hbeforeComma hafterComma hafterId hid
    have hquoted : ∀ body cs : List Char,
        (quoted body ++ cs).head?.all (fun c => !isSpace c) = true := fun body cs => by
      show (!isSpace '"') = true
      decide
    have hcomma : ∀ cs : List Char, ([','] ++ cs).head?.all (fun c => !isSpace c) = true :=
      fun cs => by
        show (!isSpace ',') = true
        decide
    have hkey : ∀ cs : List Char, ("id:".toList ++ cs).head?.all (fun c => !isSpace c) = true :=
      fun cs => by
        show (!isSpace 'i') = true
        decide
    obtain ⟨htake₁, hdrop₁⟩ := span_blank hafterName (hquoted name (beforeComma ++ ([','] ++
      (afterComma ++ ("id:".toList ++ (afterId ++ (quoted id ++ rest)))))))
    obtain ⟨htake₂, hdrop₂⟩ := span_blank hbeforeComma (hcomma (afterComma ++ ("id:".toList ++
      (afterId ++ (quoted id ++ rest)))))
    obtain ⟨htake₃, hdrop₃⟩ := span_blank hafterComma (hkey (afterId ++ (quoted id ++ rest)))
    obtain ⟨htake₄, hdrop₄⟩ := span_blank hafterId (hquoted id rest)
    have htext : (MexDoc.text ⟨afterName, name, beforeComma, afterComma, afterId, id⟩) ++ rest =
        "name:".toList ++ (afterName ++ (quoted name ++ (beforeComma ++ ([','] ++ (afterComma ++
          ("id:".toList ++ (afterId ++ (quoted id ++ rest)))))))) := by
      simp only [MexDoc.text, MexDoc.head, List.append_assoc, List.cons_append, List.nil_append]
    simp only [mexDoc, htext, stripPrefix_eq_some_iff.mpr rfl, Option.bind_eq_bind,
      Option.bind_some, htake₁, hdrop₁, readQuoted_eq_some_iff.mpr ⟨hname, rfl⟩, htake₂, hdrop₂,
      htake₃, hdrop₃, htake₄, hdrop₄, readQuoted_eq_some_iff.mpr ⟨hid, rfl⟩]

theorem MexDoc.text_ne_nil (d : MexDoc) : d.text ≠ [] := by
  rw [MexDoc.text, MexDoc.head]
  exact nofun

/-- The entries as a pattern. -/
def mexDocs : Pattern Char MexDoc where
  find := mexDoc
  text := MexDoc.text
  find_eq h := (mexDoc_eq_some_iff.mp h).2
  text_ne_nil {_ _ d} _ := d.text_ne_nil

/-! ### The refresh -/

/-- A text split where another one occurs last: `rfind` and `split_at`. -/
def splitLast (pat : List Char) : List Char → Option (List Char × List Char)
  | [] => none
  | c :: cs =>
    match splitLast pat cs with
    | some (head, tail) => some (c :: head, tail)
    | none => if pat.isPrefixOf (c :: cs) then some ([], c :: cs) else none

/-- The first occurrence of a text replaced: `replacen` with one replacement. -/
def replaceFirst (pat written : List Char) : List Char → List Char
  | [] => []
  | c :: cs =>
    if pat.isPrefixOf (c :: cs) then written ++ (c :: cs).drop pat.length
    else c :: replaceFirst pat written cs

/-- The id behind the last `id:` of an entry replaced.  Every entry has one. -/
def rebuildDoc (matched oldId newId : List Char) : List Char :=
  match splitLast "id:".toList matched with
  | some (head, tail) => head ++ replaceFirst (quoted oldId) (quoted newId) tail
  | none => matched

/-- The names and the ids of the bundle, in the order of the operations. -/
abbrev MexIr := List (List Char × List Char)

/-- The id of a name: that of the last operation that has it. -/
def byName (ir : MexIr) (name : List Char) : Option (List Char) :=
  (ir.reverse.find? (·.1 = name)).map Prod.snd

structure MexIdRefresh where
  updatedSource : List Char
  changed : List (List Char × List Char × List Char)
  unchanged : List (List Char)
  stale : List (List Char)
  availableUnused : ℕ

/-- The entries of a registry. -/
def docsOf (existing : List Char) : List MexDoc := Pattern.foundIn (mexDocs.scan existing)

/-- What is written for an entry. -/
def refreshedText (ir : MexIr) (d : MexDoc) : List Char :=
  match byName ir d.name with
  | some newId => rebuildDoc d.text d.id newId
  | none => d.text

def refreshMexIds (existing : List Char) (ir : MexIr) : MexIdRefresh where
  updatedSource := mexDocs.replaceAll (refreshedText ir) existing
  changed := (docsOf existing).filterMap fun d =>
    match byName ir d.name with
    | some newId => if newId = d.id then none else some (d.name, d.id, newId)
    | none => none
  unchanged := (docsOf existing).filterMap fun d =>
    match byName ir d.name with
    | some newId => if newId = d.id then some d.name else none
    | none => none
  stale := (docsOf existing).filterMap fun d =>
    match byName ir d.name with
    | some _ => none
    | none => some d.name
  availableUnused :=
    ((ir.map Prod.fst).dedup.filter (· ∉ (docsOf existing).map MexDoc.name)).length

end Whatspec.Codegen.MexIds

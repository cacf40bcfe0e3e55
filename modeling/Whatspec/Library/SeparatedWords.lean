import Mathlib.Data.List.DropRight

/-!
# Words between separators

A text is divided into words by a separator, and the words that are not empty are joined by one
separator each.  That can be read in two ways:

* `joinedWords` splits the text, drops the empty pieces and joins the others;
* `foldRuns` keeps the first separator of each run, and `trimmed` takes it off both ends.

**`trimmed_foldRuns`**: the two agree.  Between them stands `squeeze`, which reads the text once
and knows only whether a word has begun and whether a separator is due.
-/

namespace Whatspec.Library

variable {α : Type} [DecidableEq α]

/-- What has been read: nothing but separators, a word up to its last element, a word and then
separators. -/
inductive Pending where
  | nothing | inside | due

/-- The words of a text with one separator between them, in one pass. -/
def squeeze (sep : α) : Pending → List α → List α
  | _, [] => []
  | .nothing, c :: cs =>
    if c = sep then squeeze sep .nothing cs else c :: squeeze sep .inside cs
  | .inside, c :: cs =>
    if c = sep then squeeze sep .due cs else c :: squeeze sep .inside cs
  | .due, c :: cs =>
    if c = sep then squeeze sep .due cs else sep :: c :: squeeze sep .inside cs

/-- The pieces of a text that are not empty. -/
def wordsOf (sep : α) (cs : List α) : List (List α) := (cs.splitOn sep).filter (· ≠ [])

/-- The pieces that are not empty, joined. -/
def joinedWords (sep : α) (cs : List α) : List α := [sep].intercalate (wordsOf sep cs)

/-- A separator is kept where the text before it does not end with one. -/
def foldRunsStep (sep : α) (folded : List α) (c : α) : List α :=
  if c = sep ∧ folded.getLast? = some sep then folded else folded ++ [c]

def foldRuns (sep : α) (cs : List α) : List α := cs.foldl (foldRunsStep sep) []

/-- A text without the separators at its ends. -/
def trimmed (sep : α) (cs : List α) : List α := (cs.rdropWhile (· = sep)).dropWhile (· = sep)

/-! ### Splitting and joining -/

variable (sep : α)

omit [DecidableEq α] in
theorem intercalate_cons_eq (w : List α) :
    ∀ ws : List (List α), [sep].intercalate (w :: ws) = w ++ ws.flatMap (sep :: ·)
  | [] => by simp [List.intercalate]
  | v :: ws => by
    have h := intercalate_cons_eq v ws
    simp only [List.intercalate, List.intersperse, List.flatten_cons, List.flatMap_cons] at h ⊢
    rw [h]
    simp

/-- The pass over a text, by the pieces of the text. -/
theorem squeeze_pieces (cs : List α) : ∃ h t, cs.splitOn sep = h :: t ∧
    squeeze sep .inside cs = h ++ (t.filter (· ≠ [])).flatMap (sep :: ·) ∧
    squeeze sep .due cs = ((h :: t).filter (· ≠ [])).flatMap (sep :: ·) ∧
    squeeze sep .nothing cs = [sep].intercalate ((h :: t).filter (· ≠ [])) := by
  induction cs with
  | nil => exact ⟨[], [], by simp [squeeze]⟩
  | cons c cs ih =>
    obtain ⟨h, t, hsplit, hinside, hdue, hnothing⟩ := ih
    by_cases hc : c = sep
    · refine ⟨[], h :: t, ?_, ?_, ?_, ?_⟩
      · rw [List.splitOn_cons_eq_if_modifyHead, hsplit, if_pos (beq_iff_eq.mpr hc)]
      · rw [squeeze, if_pos hc, hdue]
        rfl
      · rw [squeeze, if_pos hc, hdue]
        rfl
      · rw [squeeze, if_pos hc, hnothing]
        rfl
    · have hword : ((c :: h) :: t).filter (· ≠ []) = (c :: h) :: t.filter (· ≠ []) := by
        rw [List.filter_cons_of_pos (by simp)]
      refine ⟨c :: h, t, ?_, ?_, ?_, ?_⟩
      · rw [List.splitOn_cons_eq_if_modifyHead, hsplit, if_neg (by simpa using hc)]
        rfl
      · rw [squeeze, if_neg hc, hinside]
        rfl
      · rw [squeeze, if_neg hc, hinside, hword]
        rfl
      · rw [squeeze, if_neg hc, hinside, hword, intercalate_cons_eq]
        rfl

theorem squeeze_eq_joinedWords (cs : List α) : squeeze sep .nothing cs = joinedWords sep cs := by
  obtain ⟨h, t, hsplit, -, -, hnothing⟩ := squeeze_pieces sep cs
  rw [hnothing, joinedWords, wordsOf, hsplit]

/-- A word consists of elements of the text that are no separators. -/
theorem mem_of_mem_splitOn (cs : List α) :
    ∀ w ∈ cs.splitOn sep, ∀ c ∈ w, c ∈ cs ∧ c ≠ sep := by
  induction cs with
  | nil =>
    intro w hw c hc
    rw [List.splitOn_nil, List.mem_singleton] at hw
    rw [hw] at hc
    cases hc
  | cons d cs ih =>
    have hrest : ∀ w ∈ cs.splitOn sep, ∀ c ∈ w, c ∈ d :: cs ∧ c ≠ sep := fun w hw c hc =>
      ⟨List.mem_cons_of_mem d (ih w hw c hc).1, (ih w hw c hc).2⟩
    intro w hw c hc
    rw [List.splitOn_cons_eq_if_modifyHead] at hw
    split_ifs at hw with hd
    · rcases List.mem_cons.mp hw with rfl | hw
      · cases hc
      · exact hrest w hw c hc
    · obtain ⟨h, t, hsplit, -⟩ := squeeze_pieces sep cs
      rw [hsplit] at hw hrest
      rcases List.mem_cons.mp hw with rfl | hw
      · rcases List.mem_cons.mp hc with rfl | hc
        · exact ⟨List.mem_cons_self, by simpa using hd⟩
        · exact hrest h List.mem_cons_self c hc
      · exact hrest w (List.mem_cons_of_mem h hw) c hc

theorem mem_wordsOf {cs w : List α} (h : w ∈ wordsOf sep cs) :
    w ≠ [] ∧ ∀ c ∈ w, c ∈ cs ∧ c ≠ sep := by
  have hw := List.mem_filter.mp h
  exact ⟨by simpa using hw.2, mem_of_mem_splitOn sep cs w hw.1⟩

theorem joinedWords_eq_nil_iff (cs : List α) : joinedWords sep cs = [] ↔ ∀ c ∈ cs, c = sep := by
  rw [← squeeze_eq_joinedWords]
  induction cs with
  | nil => simp [squeeze]
  | cons c cs ih =>
    rw [squeeze, List.forall_mem_cons]
    split_ifs with hc
    · rw [ih]
      simp [hc]
    · simp [hc]

theorem wordsOf_eq_nil_iff (cs : List α) : wordsOf sep cs = [] ↔ ∀ c ∈ cs, c = sep := by
  rw [← joinedWords_eq_nil_iff, joinedWords]
  cases hwords : wordsOf sep cs with
  | nil => simp [List.intercalate]
  | cons w ws =>
    have hw : w ≠ [] := (mem_wordsOf sep (hwords ▸ List.mem_cons_self)).1
    rw [intercalate_cons_eq]
    simp [hw]

/-! ### Folding and trimming -/

theorem trimmed_eq_self {cs : List α} (hhead : cs.head? ≠ some sep)
    (hlast : cs.getLast? ≠ some sep) : trimmed sep cs = cs := by
  cases cs with
  | nil => rfl
  | cons c cs =>
    have hright : (c :: cs).rdropWhile (· = sep) = c :: cs := by
      rw [List.rdropWhile_eq_self_iff]
      intro hne hsep
      exact hlast (by rw [List.getLast?_eq_some_getLast hne]; simpa using hsep)
    rw [trimmed, hright, List.dropWhile_cons_of_neg]
    simpa using hhead

theorem trimmed_concat (cs : List α) : trimmed sep (cs ++ [sep]) = trimmed sep cs := by
  rw [trimmed, List.rdropWhile_concat_pos _ _ _ (by simp), trimmed]

theorem trimmed_cons {cs : List α} (hhead : cs.head? ≠ some sep)
    (hlast : cs.getLast? ≠ some sep) : trimmed sep (sep :: cs) = cs := by
  cases cs with
  | nil => simp [trimmed, List.rdropWhile]
  | cons c cs =>
    have hright : (sep :: c :: cs).rdropWhile (· = sep) = sep :: c :: cs := by
      rw [List.rdropWhile_eq_self_iff]
      intro hne hsep
      apply hlast
      rw [← List.getLast?_cons_cons (a := sep), List.getLast?_eq_some_getLast hne]
      simpa using hsep
    rw [trimmed, hright, List.dropWhile_cons_of_pos (by simp), List.dropWhile_cons_of_neg]
    simpa using hhead

theorem trimmed_of_word {a : List α} {c : α} (hc : c ≠ sep) :
    (a ++ [c]).rdropWhile (· = sep) = a ++ [c] :=
  List.rdropWhile_concat_neg _ _ _ (by simpa using hc)

/-- After a word, the fold and the pass do the same to what is left of the text. -/
theorem foldRuns_after_word (cs : List α) : ∀ (a : List α) {c : α}, c ≠ sep →
    (cs.foldl (foldRunsStep sep) (a ++ [c])).rdropWhile (· = sep) =
        a ++ [c] ++ squeeze sep .inside cs ∧
      (cs.foldl (foldRunsStep sep) (a ++ [c] ++ [sep])).rdropWhile (· = sep) =
        a ++ [c] ++ squeeze sep .due cs := by
  induction cs with
  | nil =>
    intro a c hc
    refine ⟨?_, ?_⟩
    · show (a ++ [c]).rdropWhile _ = _
      rw [trimmed_of_word sep hc]
      simp [squeeze]
    · show (a ++ [c] ++ [sep]).rdropWhile _ = _
      rw [List.rdropWhile_concat_pos _ _ _ (by simp), trimmed_of_word sep hc]
      simp [squeeze]
  | cons d cs ih =>
    intro a c hc
    rw [List.foldl_cons, List.foldl_cons]
    by_cases hd : d = sep
    · subst hd
      have hkept : foldRunsStep d (a ++ [c]) d = a ++ [c] ++ [d] := by
        rw [foldRunsStep, if_neg (by simpa using hc)]
      have hdropped : foldRunsStep d (a ++ [c] ++ [d]) d = a ++ [c] ++ [d] := by
        rw [foldRunsStep, if_pos ⟨rfl, by simp⟩]
      rw [hkept, hdropped, squeeze, squeeze, if_pos rfl, if_pos rfl]
      exact ⟨(ih a hc).2, (ih a hc).2⟩
    · have hkept : ∀ b, foldRunsStep sep b d = b ++ [d] := fun b =>
        if_neg fun h => hd h.1
      rw [hkept, hkept, squeeze, squeeze, if_neg hd, if_neg hd, (ih _ hd).1, (ih _ hd).1]
      simp

theorem trimmed_after_word (cs : List α) {c : α} (hc : c ≠ sep) :
    trimmed sep (cs.foldl (foldRunsStep sep) [c]) = c :: squeeze sep .inside cs ∧
      trimmed sep (cs.foldl (foldRunsStep sep) [sep, c]) = c :: squeeze sep .inside cs := by
  have hnone := (foldRuns_after_word sep cs [] hc).1
  have hone := (foldRuns_after_word sep cs [sep] hc).1
  refine ⟨?_, ?_⟩
  · rw [trimmed, show ([c] : List α) = [] ++ [c] from rfl, hnone]
    simp [hc]
  · rw [trimmed, show ([sep, c] : List α) = [sep] ++ [c] from rfl, hone]
    simp [hc]

theorem trimmed_from_separators (cs : List α) :
    trimmed sep (cs.foldl (foldRunsStep sep) []) = squeeze sep .nothing cs ∧
      trimmed sep (cs.foldl (foldRunsStep sep) [sep]) = squeeze sep .nothing cs := by
  induction cs with
  | nil => simp [trimmed, squeeze, List.rdropWhile]
  | cons d cs ih =>
    rw [List.foldl_cons, List.foldl_cons, squeeze]
    by_cases hd : d = sep
    · subst hd
      have hkept : foldRunsStep d [] d = [d] := if_neg (by simp)
      have hdropped : foldRunsStep d [d] d = [d] := if_pos (by simp)
      rw [hkept, hdropped, if_pos rfl]
      exact ⟨ih.2, ih.2⟩
    · have hkept : ∀ b, foldRunsStep sep b d = b ++ [d] := fun b =>
        if_neg fun h => hd h.1
      rw [hkept, hkept, if_neg hd]
      exact trimmed_after_word sep cs hd

/-- **Folding the runs of separators and trimming joins the words that are not empty.** -/
theorem trimmed_foldRuns (cs : List α) : trimmed sep (foldRuns sep cs) = joinedWords sep cs :=
  (trimmed_from_separators sep cs).1.trans (squeeze_eq_joinedWords sep cs)

theorem mem_squeeze {c : α} (cs : List α) : ∀ p, c ∈ squeeze sep p cs → c = sep ∨ c ∈ cs := by
  induction cs with
  | nil =>
    intro p h
    simp [squeeze] at h
  | cons d cs ih =>
    have hskip : ∀ p, c ∈ squeeze sep p cs → c = sep ∨ c ∈ d :: cs := fun p h =>
      (ih p h).imp_right (List.mem_cons_of_mem d)
    have hkeep : ∀ p, c ∈ d :: squeeze sep p cs → c = sep ∨ c ∈ d :: cs := fun p h =>
      (List.mem_cons.mp h).elim (fun h => Or.inr (h ▸ List.mem_cons_self)) (hskip p)
    intro p h
    cases p with
    | nothing =>
      rw [squeeze] at h
      split_ifs at h
      · exact hskip _ h
      · exact hkeep _ h
    | inside =>
      rw [squeeze] at h
      split_ifs at h
      · exact hskip _ h
      · exact hkeep _ h
    | due =>
      rw [squeeze] at h
      split_ifs at h
      · exact hskip _ h
      · exact (List.mem_cons.mp h).elim Or.inl (hkeep _)

theorem mem_joinedWords {c : α} {cs : List α} (h : c ∈ joinedWords sep cs) : c = sep ∨ c ∈ cs :=
  mem_squeeze sep cs _ (squeeze_eq_joinedWords sep cs ▸ h)

/-- Joined words have no separator at an end. -/
theorem head?_joinedWords (cs : List α) : (joinedWords sep cs).head? ≠ some sep := by
  rw [← squeeze_eq_joinedWords]
  induction cs with
  | nil => simp [squeeze]
  | cons c cs ih =>
    rw [squeeze]
    split_ifs with hc
    · exact ih
    · simpa using hc

theorem getLast?_joinedWords (cs : List α) : (joinedWords sep cs).getLast? ≠ some sep := by
  rw [← trimmed_foldRuns, trimmed]
  intro h
  have hmem : ∀ t : List α, (t.dropWhile (· = sep)).getLast? = some sep →
      t.getLast? = some sep := by
    intro t ht
    have happend : t.getLast? = (t.takeWhile (· = sep) ++ t.dropWhile (· = sep)).getLast? := by
      rw [List.takeWhile_append_dropWhile]
    rw [happend, List.getLast?_append, ht]
    rfl
  have hlast := hmem _ h
  have hne : (foldRuns sep cs).rdropWhile (· = sep) ≠ [] := by
    rintro hnil
    rw [hnil] at hlast
    cases hlast
  rw [List.getLast?_eq_getLast_of_ne_nil hne] at hlast
  have hkeep := List.rdropWhile_last_not _ _ hne
  exact hkeep (by simpa using hlast)

end Whatspec.Library

import Whatspec.Scan.RepeatedReads

/-!
# What repeated reads merge to

The law of a merged field: it is required when one of its reads is, it has their children, and each
constraint is the common value of the reads that state it, or none, reported, where two of them
differ.  Requiredness, children and reports keep the law in every order of the reads.  A constraint
that two reads differ on is emptied by the second and filled again by a third.

* `headAt_readAll` and `get_foldl_joinHeads` run one constraint through the reads of a field;
* `LawfulAt` is the law at one field of the merged tree and `Lawful` at all of them, in every order;
* **`lawful_iff`**: the law holds exactly when the values stated for a constraint agree, or are
  pairwise different and of even number.
-/

namespace Whatspec.Scan.Reads

open Whatspec.Library
open Whatspec.Library.Cancelling (Agree)

/-! ### The reads of a field -/

/-- What the reads say at a place, in their order. -/
def contributions (k : Identity) (path : List Identity) (reads : List ParsedField) :
    List FieldHead :=
  reads.filterMap fun f => headAt k path [f]

/-- The values stated for a constraint. -/
def stated (c : Constraint) (heads : List FieldHead) : List c.Value := heads.filterMap c.get

/-- The value of a constraint among what stands somewhere. -/
def valueOf (c : Constraint) (here : Option FieldHead) : Option c.Value := here.bind c.get

theorem mergeAll_append : ∀ (front back into : List ParsedField) (lost : List String),
    mergeAll into (front ++ back) lost =
      mergeAll (mergeAll into front lost).1 back (mergeAll into front lost).2
  | [], _, _, _ => rfl
  | _ :: front, back, _, _ => mergeAll_append front back _ _

/-- What stands at a place after reads that each say at most one thing there. -/
theorem headAt_reads {k : Identity} {path : List Identity} :
    ∀ (reads into : List ParsedField) (lost : List String), (∀ f ∈ reads, Plain k path [f]) →
      headAt k path (mergeAll into reads lost).1 =
        (contributions k path reads).foldl (fun here h => joinHeads here (some h))
          (headAt k path into)
  | [], _, _, _ => rfl
  | f :: rest, into, lost, h => by
    have hrest : ∀ g ∈ rest, Plain k path [g] := fun g hg => h g (List.mem_cons_of_mem f hg)
    rw [mergeAll, headAt_reads rest _ _ hrest,
      headAt_mergeOrPush into f lost (h f List.mem_cons_self)]
    cases hf : headAt k path [f] with
    | none =>
      have hskip : contributions k path (f :: rest) = contributions k path rest :=
        List.filterMap_cons_none hf
      rw [joinHeads_none, hskip]
    | some head =>
      have hfirst : contributions k path (f :: rest) = head :: contributions k path rest :=
        List.filterMap_cons_some hf
      rw [hfirst]
      rfl

theorem headAt_readAll {k : Identity} {path : List Identity} {reads : List ParsedField}
    (h : ∀ f ∈ reads, Plain k path [f]) :
    headAt k path (readAll reads).1 =
      (contributions k path reads).foldl (fun here h => joinHeads here (some h)) none := by
  rw [readAll, headAt_reads reads [] [] h, headAt_nil]

theorem get_mergeHeads (c : Constraint) (here new : FieldHead) :
    c.get (mergeHeads here new) =
      (c.get new).elim (c.get here) (Cancelling.settle (c.get here)) := by
  rw [mergeHeads, get_takeConstraints]
  cases c <;> rfl

/-- One constraint, while the reads come in. -/
theorem valueOf_join (c : Constraint) (here : Option FieldHead) (h : FieldHead) :
    valueOf c (joinHeads here (some h)) =
      (c.get h).elim (valueOf c here) (Cancelling.settle (valueOf c here)) := by
  cases here with
  | none =>
    show c.get h = _
    cases c.get h <;> rfl
  | some g => exact get_mergeHeads c g h

theorem valueOf_foldl_join (c : Constraint) :
    ∀ (heads : List FieldHead) (here : Option FieldHead),
      valueOf c (heads.foldl (fun here h => joinHeads here (some h)) here) =
        Cancelling.run (valueOf c here) (stated c heads)
  | [], _ => rfl
  | h :: rest, here => by
    rw [List.foldl_cons, valueOf_foldl_join c rest, valueOf_join]
    cases hc : c.get h with
    | none =>
      have hskip : stated c (h :: rest) = stated c rest := List.filterMap_cons_none hc
      rw [hskip, Option.elim_none]
    | some v =>
      have hfirst : stated c (h :: rest) = v :: stated c rest := List.filterMap_cons_some hc
      rw [hfirst, Option.elim_some, Cancelling.run_cons]

theorem required_foldl_join : ∀ (heads : List FieldHead) (here : FieldHead),
    ∃ head : FieldHead,
      heads.foldl (fun here h => joinHeads here (some h)) (some here) = some head ∧
        head.parserRequired = (here.parserRequired || heads.any FieldHead.parserRequired) ∧
        head.identity = here.identity
  | [], here => ⟨here, rfl, (Bool.or_false _).symm, rfl⟩
  | h :: rest, here => by
    obtain ⟨head, hfold, hrequired, hidentity⟩ := required_foldl_join rest (mergeHeads here h)
    refine ⟨head, hfold, ?_, hidentity⟩
    rw [hrequired, List.any_cons, ← Bool.or_assoc]
    rfl

/-! ### The law -/

/-- The law at one field: what its reads say, what was merged of them, and what was reported. -/
structure LawfulAt (heads : List FieldHead) (merged : FieldHead) (lost : List String) : Prop where
  required : merged.parserRequired = heads.any FieldHead.parserRequired
  unstated : ∀ c : Constraint, stated c heads = [] → c.get merged = none
  agreed : ∀ c : Constraint, Agree (stated c heads) → ∀ v ∈ stated c heads, c.get merged = some v
  dropped : ∀ c : Constraint, ¬ Agree (stated c heads) → c.get merged = none
  reported : ∀ c : Constraint, ¬ Agree (stated c heads) → mergeConflict c.label merged.name ∈ lost

/-- The law of a list of reads, in every order: no field comes twice, the tree has the children of
the reads, and every field whose reads each list it at most once keeps the law. -/
structure Lawful (reads : List ParsedField) : Prop where
  distinct : ∀ order : List ParsedField, order.Perm reads →
    ((readAll order).1.map ParsedField.identity).Nodup
  children : ∀ order : List ParsedField, order.Perm reads → ∀ k path,
    HasPath k path (readAll order).1 ↔ HasPath k path reads
  fields : ∀ order : List ParsedField, order.Perm reads → ∀ k path,
    (∀ f ∈ reads, Plain k path [f]) → contributions k path reads ≠ [] →
      ∃ merged, headAt k path (readAll order).1 = some merged ∧
        LawfulAt (contributions k path reads) merged (readAll order).2

/-- The values stated for a constraint of a field agree, or cancel in every order. -/
def Settles (reads : List ParsedField) : Prop :=
  ∀ k path, (∀ f ∈ reads, Plain k path [f]) → ∀ c : Constraint,
    Agree (stated c (contributions k path reads)) ∨
      (stated c (contributions k path reads)).Nodup ∧
        Even (stated c (contributions k path reads)).length

/-! ### Orders of the reads -/

theorem stated_contributions (c : Constraint) (k : Identity) (path : List Identity)
    (reads : List ParsedField) :
    stated c (contributions k path reads) =
      reads.filterMap fun f => valueOf c (headAt k path [f]) :=
  List.filterMap_filterMap

theorem contributions_perm {order reads : List ParsedField} (h : order.Perm reads) (k : Identity)
    (path : List Identity) :
    (contributions k path order).Perm (contributions k path reads) := h.filterMap _

theorem hasPath_perm {order reads : List ParsedField} (h : order.Perm reads) {k : Identity}
    {path : List Identity} : HasPath k path order ↔ HasPath k path reads := by
  simp only [hasPath_iff, h.mem_iff]

theorem agree_perm {α : Type} {values values' : List α} (h : values.Perm values') :
    Agree values ↔ Agree values' := by
  simp only [Agree, h.mem_iff]

theorem exists_ne_of_not_agree {α : Type} {values : List α} (h : ¬ Agree values) :
    ∃ v ∈ values, ∃ w ∈ values, v ≠ w := by
  simpa [Agree] using h

theorem identity_headAt {k : Identity} :
    ∀ {path : List Identity} {fields : List ParsedField} {head : FieldHead},
      headAt k path fields = some head → head.identity = path.getLastD k
  | [], fields, head, h => by
    obtain ⟨g, hg, rfl⟩ := Option.map_eq_some_iff.mp h
    have hk := List.find?_some (show fields.find? (fun g => g.identity = k) = some g from hg)
    exact of_decide_eq_true hk
  | k' :: path, fields, head, h => by
    obtain ⟨g, -, hg⟩ := Option.bind_eq_some_iff.mp h
    rw [List.getLastD_cons]
    exact identity_headAt hg

theorem valueOf_readAll (c : Constraint) {k : Identity} {path : List Identity}
    {reads : List ParsedField} (h : ∀ f ∈ reads, Plain k path [f]) :
    valueOf c (headAt k path (readAll reads).1) =
      Cancelling.run none (stated c (contributions k path reads)) := by
  rw [headAt_readAll h, valueOf_foldl_join]
  rfl

/-- A disagreement is reported in every order: the reads before the first differing one left its
predecessors' value in the slot. -/
theorem reported_readAll {c : Constraint} {k : Identity} {path : List Identity}
    {order : List ParsedField} (h : ∀ f ∈ order, Plain k path [f])
    (hdis : ¬ Agree (stated c (contributions k path order))) :
    mergeConflict c.label (path.getLastD k).name ∈ (readAll order).2 := by
  obtain ⟨v, hv, w, hw, hvw⟩ := exists_ne_of_not_agree hdis
  obtain ⟨front, x, back, a, hsplit, hfront, hax⟩ := Cancelling.exists_clash hv hw hvw
  rw [stated_contributions] at hsplit
  obtain ⟨early, late, rfl, hearly, hlate⟩ := List.filterMap_eq_append_iff.mp hsplit
  obtain ⟨skipped, f, rest, rfl, hskipped, hf, -⟩ := List.filterMap_eq_cons_iff.mp hlate
  have hvalues : stated c (contributions k path (early ++ skipped)) = front := by
    rw [stated_contributions, List.filterMap_append, hearly,
      List.filterMap_eq_nil_iff.mpr hskipped, List.append_nil]
  have hplain : ∀ g ∈ early ++ skipped, Plain k path [g] := by
    intro g hg
    rcases List.mem_append.mp hg with hg | hg
    · exact h g (List.mem_append_left _ hg)
    · exact h g (List.mem_append_right _ (List.mem_append_left _ hg))
  have hslot : valueOf c (headAt k path (readAll (early ++ skipped)).1) = some a := by
    rw [valueOf_readAll c hplain, hvalues, hfront]
  obtain ⟨g, hg, hga⟩ := Option.bind_eq_some_iff.mp hslot
  obtain ⟨head, hhead, hx⟩ := Option.bind_eq_some_iff.mp hf
  have hfplain : Plain k path [f] :=
    h f (List.mem_append_right _ (List.mem_append_right _ List.mem_cons_self))
  have hreport := reported_mergeOrPush c (readAll (early ++ skipped)).1 f
    (readAll (early ++ skipped)).2 hfplain g head hg hhead a x hga hx hax
  have hname : g.name = (path.getLastD k).name :=
    congrArg Identity.name (identity_headAt hg)
  rw [readAll, ← List.append_assoc, mergeAll_append, mergeAll, ← hname]
  exact lost_mergeAll _ rest _ hreport

/-! ### Exactly when the law holds -/

/-- The law at a field, given that disagreeing values leave its constraint empty. -/
theorem lawfulAt_readAll {k : Identity} {path : List Identity} {order reads : List ParsedField}
    (horder : order.Perm reads) (hplain : ∀ f ∈ reads, Plain k path [f])
    (hsome : contributions k path reads ≠ [])
    (hsettles : ∀ c : Constraint, ¬ Agree (stated c (contributions k path reads)) →
      Cancelling.run none (stated c (contributions k path order)) = none) :
    ∃ merged, headAt k path (readAll order).1 = some merged ∧
      LawfulAt (contributions k path reads) merged (readAll order).2 := by
  have hplain' : ∀ f ∈ order, Plain k path [f] := fun f hf => hplain f (horder.mem_iff.mp hf)
  have hperm := contributions_perm horder k path
  have hvalue := fun c : Constraint => valueOf_readAll c hplain'
  have hstated : ∀ c : Constraint, (stated c (contributions k path order)).Perm
      (stated c (contributions k path reads)) := fun c => hperm.filterMap _
  cases hheads : contributions k path order with
  | nil => exact absurd (hheads ▸ hperm).nil_eq.symm hsome
  | cons first rest =>
    obtain ⟨merged, hfold, hrequired, -⟩ := required_foldl_join rest first
    have hmerged : headAt k path (readAll order).1 = some merged := by
      rw [headAt_readAll hplain', hheads]
      exact hfold
    have hget : ∀ c : Constraint, c.get merged =
        Cancelling.run none (stated c (contributions k path order)) := by
      intro c
      rw [← hvalue c, hmerged]
      rfl
    refine ⟨merged, hmerged, ?required, ?unstated, ?agreed, ?dropped, ?reported⟩
    case required =>
      rw [hrequired, ← List.any_cons, ← hheads]
      exact List.Perm.any_eq hperm
    case unstated =>
      intro c hc
      have hnone := hstated c
      rw [hc] at hnone
      rw [hget c, hnone.eq_nil]
      rfl
    case agreed =>
      intro c hc v hv
      rw [hget c]
      exact Cancelling.run_of_agree ((agree_perm (hstated c)).mpr hc) ((hstated c).mem_iff.mpr hv)
    case dropped => exact fun c hc => (hget c).trans (hsettles c hc)
    case reported =>
      intro c hc
      have hname : merged.name = (path.getLastD k).name :=
        congrArg Identity.name (identity_headAt hmerged)
      rw [hname]
      exact reported_readAll hplain' fun h => hc ((agree_perm (hstated c)).mp h)

/-- **What repeated reads merge to.**  In every order of the reads the merged field is required
when one of them is, has their children, and carries for each constraint the common value, or none
and a report where two values differ, exactly when the values stated for a constraint agree, or no
value is stated twice and their number is even. -/
theorem lawful_iff (reads : List ParsedField) : Lawful reads ↔ Settles reads := by
  constructor
  · intro h k path hplain c
    by_contra hnot
    rw [not_or] at hnot
    obtain ⟨hdis, hcancel⟩ := hnot
    rw [← Cancelling.run_perm_eq_none_iff hdis] at hcancel
    push Not at hcancel
    obtain ⟨values, hvalues, hrun⟩ := hcancel
    rw [stated_contributions] at hvalues
    obtain ⟨order, horder, rfl⟩ := Cancelling.exists_perm_filterMap _ hvalues
    have hsome : contributions k path reads ≠ [] := by
      intro hnil
      rw [hnil] at hdis
      exact hdis fun v hv => absurd hv List.not_mem_nil
    obtain ⟨merged, hmerged, hlaw⟩ := h.fields order horder k path hplain hsome
    have hvalue := valueOf_readAll c fun f hf => hplain f (horder.mem_iff.mp hf)
    rw [hmerged, stated_contributions] at hvalue
    exact hrun (hvalue.symm.trans (hlaw.dropped c hdis))
  · intro h
    refine ⟨fun order _ => nodup_mergeAll order [] List.nodup_nil, fun order horder k path => ?_,
      fun order horder k path hplain hsome => ?_⟩
    · rw [readAll, hasPath_mergeAll, or_iff_right not_hasPath_nil, hasPath_perm horder]
    · refine lawfulAt_readAll horder hplain hsome fun c hdis => ?_
      have hcancel := (h k path hplain c).resolve_left hdis
      exact (Cancelling.run_perm_eq_none_iff hdis).mpr hcancel _
        ((contributions_perm horder k path).filterMap _)

/-- A read of one attribute with nothing stated about it. -/
def plainRead : FieldHead where
  method := "attrIntRange"
  name := "count"
  wireName := none
  tag := none
  parserRequired := true
  byteLength := none
  byteMin := none
  byteMax := none
  intMin := none
  intMax := none
  enumKeys := none
  enumRef := none
  pendingEnumRef := none
  literalValue := none
  contentType := none
  referencePath := none
  sourcePath := none
  repeats := none

/-- Three bands of one count, as three branches of a parser enforce them. -/
def threeBands : List ParsedField :=
  [⟨{ plainRead with intMin := some 1, intMax := some 10 }, none⟩,
   ⟨{ plainRead with intMin := some 20, intMax := some 30 }, none⟩,
   ⟨{ plainRead with intMin := some 40, intMax := some 50 }, none⟩]

/-- Three reads that enforce three bands merge to the band of the last. -/
theorem not_lawful_threeBands : ¬ Lawful threeBands := by
  intro h
  obtain ⟨merged, hmerged, hlaw⟩ := h.fields threeBands (List.Perm.refl _) plainRead.identity []
    (fun f _ => List.pairwise_singleton ..) (List.cons_ne_nil _ _)
  have hmin : merged.intMin = some 40 := by
    have : (headAt plainRead.identity [] (readAll threeBands).1).bind FieldHead.intMin =
        some 40 := by rfl
    rwa [hmerged] at this
  have hdis : ¬ Agree (stated .intMin (contributions plainRead.identity [] threeBands)) := by
    intro hagree
    have hagree : ∀ v ∈ ([1, 20, 40] : List ℤ), ∀ w ∈ ([1, 20, 40] : List ℤ), v = w := hagree
    exact absurd (hagree 1 (by decide) 20 (by decide)) (by decide)
  exact Option.some_ne_none _ (hmin.symm.trans (hlaw.dropped .intMin hdis))

end Whatspec.Scan.Reads

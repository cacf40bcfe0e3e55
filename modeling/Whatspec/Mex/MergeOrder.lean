import Whatspec.Mex.PresenceMerge

/-!
# Whether the order of the call sites shows in the merged tree

The sites of an operation are folded in the order they are met.  The merge is commutative
and idempotent.  It is not associative: a site whose list describes its element absorbs
the absence of a description at an earlier site, and the keys of a later site are then
merged with it where they would have been withdrawn.

`foldSites_perm_iff` gives the lists of sites for which every order leaves the same tree.
-/

namespace Whatspec.Mex

open Whatspec.Library VariablePresenceNode

/-- One call site's answer for the whole variables object: an ordered map at every level. -/
structure SiteTree where
  fields : List (String × VariablePresenceNode)
  canonical : Canonical (.mk .always fields none)

namespace SiteTree

/-- The variables object itself, which every site has. -/
def root (t : SiteTree) : VariablePresenceNode := .mk .always t.fields none

theorem ext {a b : SiteTree} (h : a.fields = b.fields) : a = b := by
  obtain ⟨fs, hfs⟩ := a
  obtain ⟨gs, hgs⟩ := b
  cases h
  rfl

end SiteTree

theorem mergeKey_eq (l r : Option VariablePresenceNode) (key : String) :
    mergeKey l r = mergeAt (.field key) l r := by
  cases l <;> cases r <;> rfl

theorem get_mergeSites (a b : List (String × VariablePresenceNode)) (key : String) :
    SortedMap.get (mergeSites a b) key =
      mergeAt (.field key) (SortedMap.get a key) (SortedMap.get b key) := by
  rw [mergeSites, SortedMap.get_tabulate, mergeKey_eq _ _ key]
  by_cases hkey : key ∈ a.map Prod.fst ++ b.map Prod.fst
  · rw [if_pos hkey]
  · rw [if_neg hkey]
    rw [List.mem_append, not_or] at hkey
    cases ha : SortedMap.get a key with
    | some n => exact absurd (SortedMap.mem_keys_of_get ha) hkey.1
    | none =>
        cases hb : SortedMap.get b key with
        | some n => exact absurd (SortedMap.mem_keys_of_get hb) hkey.2
        | none => rfl

/-- Merging two sites is merging their variables objects. -/
theorem mergeNodes_root (a b : SiteTree) :
    mergeNodes a.root b.root = .mk .always (mergeSites a.fields b.fields) none := by
  have hmerged := canonical_mergeNodes a.canonical b.canonical
  have hfields : (mergeNodes a.root b.root).fields = mergeSites a.fields b.fields := by
    apply SortedMap.ext_of_sorted (canonical_sorted hmerged) (SortedMap.sorted_tabulate _ _)
    intro key
    exact (mergeNodes_child a.root (canonical_sorted b.canonical) (.field key)).trans
      (get_mergeSites a.fields b.fields key).symm
  rw [← hfields]
  rfl

/-- Merge two sites. -/
def SiteTree.merge (a b : SiteTree) : SiteTree where
  fields := mergeSites a.fields b.fields
  canonical := by
    rw [← mergeNodes_root]
    exact canonical_mergeNodes a.canonical b.canonical

theorem SiteTree.merge_root (a b : SiteTree) : (a.merge b).root = mergeNodes a.root b.root :=
  (mergeNodes_root a b).symm

/-- The merged tree of an operation: its sites folded in the order they were met. -/
def foldSites : List SiteTree → Option SiteTree := foldFirst SiteTree.merge

/-! ### Sites as reports -/

theorem report_merge (a b : SiteTree) (path : List Step) :
    report (a.merge b).root path =
      Report.combine (gapOf path) (report a.root path) (report b.root path) := by
  rw [SiteTree.merge_root]
  exact report_mergeNodes b.canonical path

theorem SiteTree.ext_reports {a b : SiteTree}
    (h : ∀ path, report a.root path = report b.root path) : a = b := by
  have hroot := a.canonical.ext b.canonical h
  injection hroot with _ hfields _
  exact SiteTree.ext hfields

/-- **The merge is commutative.** -/
theorem SiteTree.merge_comm (a b : SiteTree) : a.merge b = b.merge a := by
  apply SiteTree.ext_reports
  intro path
  rw [report_merge, report_merge, Report.combine_comm]

/-- **The merge is idempotent.** -/
theorem SiteTree.merge_self (a : SiteTree) : a.merge a = a := by
  apply SiteTree.ext_reports
  intro path
  rw [report_merge, Report.combine_self]

theorem report_foldSites (ts : List SiteTree) (path : List Step) :
    (foldSites ts).map (fun t => report t.root path) =
      foldFirst (Report.combine (gapOf path)) (ts.map fun t => report t.root path) := by
  have hfold : ∀ (ts : List SiteTree) (t : SiteTree),
      report (ts.foldl SiteTree.merge t).root path =
        (ts.map fun t => report t.root path).foldl (Report.combine (gapOf path))
          (report t.root path) := by
    intro ts
    induction ts with
    | nil => intro t; rfl
    | cons u ts ih =>
        intro t
        rw [List.foldl_cons, ih, report_merge]
        rfl
  cases ts with
  | nil => rfl
  | cons t ts => exact congrArg some (hfold ts t)

theorem foldSites_eq_iff (ts us : List SiteTree) :
    foldSites ts = foldSites us ↔
      ∀ path, foldFirst (Report.combine (gapOf path)) (ts.map fun t => report t.root path) =
        foldFirst (Report.combine (gapOf path)) (us.map fun t => report t.root path) := by
  constructor
  · intro h path
    rw [← report_foldSites, ← report_foldSites, h]
  · intro h
    have hreports : ∀ path, (foldSites ts).map (fun t => report t.root path) =
        (foldSites us).map fun t => report t.root path := by
      intro path
      rw [report_foldSites, report_foldSites, h path]
    cases hts : foldSites ts with
    | none =>
        cases hus : foldSites us with
        | none => rfl
        | some u =>
            have hroot := hreports []
            rw [hts, hus] at hroot
            cases hroot
    | some t =>
        cases hus : foldSites us with
        | none =>
            have hroot := hreports []
            rw [hts, hus] at hroot
            cases hroot
        | some u =>
            refine congrArg some (SiteTree.ext_reports fun path => ?_)
            have hpath := hreports path
            rw [hts, hus] at hpath
            exact Option.some.inj hpath

/-! ### The lists of sites whose order does not show -/

/-- **Order-free sites.**  For every path that some site has: a site that stops short of it
says no worse about its end than some site that has it, or than the sites that stop short
furthest along it.  Only a stop at a list whose element is not described says worse. -/
def OrderFree (ts : List SiteTree) : Prop :=
  ∀ path, Report.Settled (gapOf path) (ts.map fun t => report t.root path)

/-- **When every order of the sites leaves the same tree.** -/
theorem foldSites_perm_iff (ts : List SiteTree) :
    (∀ us, us.Perm ts → foldSites us = foldSites ts) ↔ OrderFree ts := by
  constructor
  · intro hperm path
    apply (Report.fold_perm_iff (gapOf path) _).mp
    intro l hl
    -- a rearrangement of the reports comes from one of the sites
    have hlift := congrFun (congrFun (List.eq_map_comp_perm fun t : SiteTree =>
      report t.root path) l) ts
    obtain ⟨us, rfl, hus⟩ := hlift.mpr hl
    exact (foldSites_eq_iff us ts).mp (hperm us hus) path
  · intro hfree us hus
    apply (foldSites_eq_iff us ts).mpr
    intro path
    exact (Report.fold_perm_iff (gapOf path) _).mpr (hfree path) _ (hus.map _)

/-- **The laws of the merge.**  It is commutative and idempotent, and folding a list of
sites leaves the same tree in every order exactly when the sites are `OrderFree`. -/
theorem mergeSites_laws (a b : SiteTree) (ts : List SiteTree) :
    a.merge b = b.merge a ∧ a.merge a = a ∧
      ((∀ us, us.Perm ts → foldSites us = foldSites ts) ↔ OrderFree ts) :=
  ⟨SiteTree.merge_comm a b, SiteTree.merge_self a, foldSites_perm_iff ts⟩

/-! ### Three sites whose order shows -/

theorem canonical_single {p : VariablePresence} {key : String} {n : VariablePresenceNode}
    {is : Option VariablePresenceNode} (hn : Canonical n)
    (his : ∀ m, is = some m → Canonical m) : Canonical (.mk p [(key, n)] is) := by
  refine ⟨List.pairwise_singleton _ _, fun e he => ?_, his⟩
  rw [List.mem_singleton.mp he]
  exact hn

theorem canonical_leaf (p : VariablePresence) : Canonical (leaf p) :=
  ⟨List.Pairwise.nil, fun _ he => absurd he List.not_mem_nil, fun _ h => by cases h⟩

/-- A site that writes `{l: [{key: !0}]}`. -/
def listOf (key : String) : SiteTree where
  fields := [("l", .mk .always [] (some (.mk .always [(key, leaf .always)] none)))]
  canonical := by
    have helement : Canonical (.mk .always [(key, leaf .always)] none) :=
      canonical_single (canonical_leaf _) fun _ h => by cases h
    refine canonical_single ⟨List.Pairwise.nil, fun _ he => absurd he List.not_mem_nil, ?_⟩
      fun _ h => by cases h
    intro m hm
    cases hm
    exact helement

/-- A site that writes `{l: !0}`. -/
def scalarList : SiteTree where
  fields := [("l", leaf .always)]
  canonical := canonical_single (canonical_leaf _) fun _ h => by cases h

/-- **The order of three sites shows.**  Between them the sites write `{l: [{a: !0}]}`,
`{l: !0}` and `{l: [{b: !0}]}`; met in that order they leave `b` conditional, and with the
last two swapped they leave it undetermined. -/
theorem foldSites_order_shows :
    ¬ ∀ us, us.Perm [listOf "a", scalarList, listOf "b"] →
      foldSites us = foldSites [listOf "a", scalarList, listOf "b"] := by
  intro hperm
  have hswapped := hperm [listOf "a", listOf "b", scalarList]
    ((List.Perm.swap _ _ []).cons (listOf "a"))
  have hreports := (foldSites_eq_iff _ _).mp hswapped [.field "l", .item, .field "b"]
  exact absurd hreports (by decide)

end Whatspec.Mex

import Whatspec.Mex.Publish

/-!
# When an opaque site keeps its siblings from answering

A site that is opaque at an object says nothing about the keys it does not write there, and
then nothing should be published about them.  Below a declared key this always holds: the
records are applied to the merged tree.  The variables object itself has no such step, and
an operation that declares nothing has none at all; there the verdict is undetermined only
when the merge made it so.

`opacityDominates_iff` is the exact condition.
-/

namespace Whatspec.Mex

open Whatspec.Library VariablePresenceNode

/-- A site does not itself write a key after the object became opaque: the key is not among
the ones it wrote, or what it wrote was withdrawn. -/
def SilentOn (site : CallSite) (record : Opaque) (key : String) : Prop :=
  key ∉ record.written ∨
    report site.tree.root (record.path ++ [.field key]) = .hold .undetermined

/-- The verdict published at a path. -/
def Publishes (out : List (String × VariablePresenceNode)) (path : List Step)
    (v : VariablePresence) : Prop :=
  report (.mk .always out none) path = .hold v

/-- **Opacity dominates.**  What is published for a key that an opaque site is silent on is
undetermined. -/
def OpacityDominates (sites : List CallSite) (unreadableSites : ℕ)
    (argDefNames : List String) : Prop :=
  ∀ site ∈ sites, ∀ record ∈ site.opaquePaths, ∀ key, SilentOn site record key →
    ∀ v, Publishes (variablesPresence sites unreadableSites argDefNames)
      (record.path ++ [.field key]) v → v = .undetermined

/-- The answers of the sites at a path, in the order they were met. -/
def reportsAt (sites : List CallSite) (path : List Step) : List (Report VariablePresence) :=
  sites.map fun site => report site.tree.root path

/-- Some site has the path. -/
def Held (sites : List CallSite) (path : List Step) : Prop :=
  ∃ v, .hold v ∈ reportsAt sites path

/-- The sites leave a path undetermined without any withdrawal: one of them has it so, or
one of them stops short of it at a list whose element it does not describe. -/
def UndeterminedAmong (sites : List CallSite) (path : List Step) : Prop :=
  .hold .undetermined ∈ reportsAt sites path ∨
    Report.Charged (gapOf path) (reportsAt sites path) .undetermined

/-- The answer for a declared key comes from the sites: some site has it, and no earlier
declaration of the same name has taken it. -/
def Supplied (sites : List CallSite) (argDefNames : List String) (key : String) : Prop :=
  argDefNames.count key = 1 ∧ Held sites [.field key]

/-- **The condition.**  Some site could not be read at all; or for every key that an opaque
site is silent on: where nothing is declared, the sites that have it leave it undetermined;
and where the opaque object is the variables object, the same for a declared key some site
has, and a declared key that no site has (or that is declared twice) is written by no site
opaque there. -/
def OpacityAnswered (sites : List CallSite) (unreadableSites : ℕ)
    (argDefNames : List String) : Prop :=
  0 < unreadableSites ∨
    ∀ site ∈ sites, ∀ record ∈ site.opaquePaths, ∀ key, SilentOn site record key →
      (argDefNames = [] → Held sites (record.path ++ [.field key]) →
        UndeterminedAmong sites (record.path ++ [.field key])) ∧
      (record.path = [] → key ∈ argDefNames →
        (Supplied sites argDefNames key → UndeterminedAmong sites [.field key]) ∧
        (¬ Supplied sites argDefNames key → ∀ site' ∈ sites, ∀ record' ∈ site'.opaquePaths,
          record'.path = [] → key ∉ record'.written))

/-! ### The merged tree -/

theorem foldSites_isSome {sites : List CallSite} {site : CallSite} (h : site ∈ sites) :
    ∃ merged, foldSites (sites.map (·.tree)) = some merged := by
  cases sites with
  | nil => cases h
  | cons s ss => exact ⟨_, rfl⟩

theorem report_merged {sites : List CallSite} {merged : SiteTree}
    (h : foldSites (sites.map (·.tree)) = some merged) (path : List Step) :
    foldFirst (Report.combine (gapOf path)) (reportsAt sites path) =
      some (report merged.root path) := by
  have hfold := report_foldSites (sites.map (·.tree)) path
  rw [h, List.map_map] at hfold
  exact hfold.symm

theorem held_iff {sites : List CallSite} {merged : SiteTree}
    (h : foldSites (sites.map (·.tree)) = some merged) (path : List Step) :
    Held sites path ↔ ∃ v, report merged.root path = .hold v := by
  have haccounts := Report.accounts_foldFirst (gapOf path) (report_merged h path)
  cases hr : report merged.root path with
  | hold w =>
      rw [hr] at haccounts
      exact ⟨fun _ => ⟨w, rfl⟩, fun _ => haccounts.1⟩
  | miss n =>
      rw [hr] at haccounts
      constructor
      · intro hheld
        obtain ⟨v, hv⟩ := hheld
        obtain ⟨k, _, hk⟩ := haccounts.2 _ hv
        cases hk
      · intro hex
        obtain ⟨v, hv⟩ := hex
        cases hv

/-- **What the merge leaves undetermined.** -/
theorem undetermined_iff {sites : List CallSite} {merged : SiteTree}
    (h : foldSites (sites.map (·.tree)) = some merged) {path : List Step}
    {v : VariablePresence} (hv : report merged.root path = .hold v) :
    v = .undetermined ↔ UndeterminedAmong sites path := by
  have hfold := report_merged h path
  rw [hv] at hfold
  have hle := Report.le_fold_iff (gapOf path) hfold .undetermined
  have htop : v = .undetermined ↔ VariablePresence.undetermined ≤ v :=
    ⟨fun heq => heq ▸ le_rfl, fun hge => le_antisymm le_top hge⟩
  rw [htop, hle, UndeterminedAmong]
  constructor
  · intro hcases
    rcases hcases with ⟨u, hu, hge⟩ | hc
    · have hueq : u = .undetermined := le_antisymm le_top hge
      rw [hueq] at hu
      exact Or.inl hu
    · exact Or.inr hc
  · intro hcases
    rcases hcases with hmem | hc
    · exact Or.inl ⟨_, hmem, le_rfl⟩
    · exact Or.inr hc

/-! ### The records -/

/-- The root of a list of fields. -/
def rootOf (fs : List (String × VariablePresenceNode)) : VariablePresenceNode :=
  .mk .always fs none

theorem rootOf_withdrawRecord (fs : List (String × VariablePresenceNode)) (record : Opaque)
    {key : String} {path : List Step} (h : record.path = .field key :: path) :
    rootOf (withdrawRecord fs record) = withdrawAlong record.written record.path (rootOf fs) := by
  rw [withdrawRecord, h]
  rfl

theorem weakerThan_withdrawRecord (fs : List (String × VariablePresenceNode))
    (record : Opaque) : WeakerThan (rootOf fs) (rootOf (withdrawRecord fs record)) := by
  cases hpath : record.path with
  | nil =>
      rw [withdrawRecord, hpath]
      exact WeakerThan.refl _
  | cons s path =>
      cases s with
      | field key =>
          rw [rootOf_withdrawRecord fs record hpath]
          exact weakerThan_withdrawAlong _ _ _
      | item =>
          rw [withdrawRecord, hpath]
          exact WeakerThan.refl _

/-- The records leave the verdicts of the variables object's own keys alone. -/
theorem withdrawRecord_presence (fs : List (String × VariablePresenceNode))
    (record : Opaque) (key : String) :
    (SortedMap.get (withdrawRecord fs record) key).map presence =
      (SortedMap.get fs key).map presence := by
  rw [withdrawRecord]
  split
  · rename_i key' path hpath
    rw [SortedMap.get_modify]
    by_cases hkey : key = key'
    · rw [if_pos hkey]
      cases SortedMap.get fs key with
      | none => rfl
      | some n => exact congrArg some (withdrawAlong_presence _ _ n)
    · rw [if_neg hkey]
  · rfl

theorem foldl_withdrawRecord_presence (records : List Opaque)
    (fs : List (String × VariablePresenceNode)) (key : String) :
    (SortedMap.get (records.foldl withdrawRecord fs) key).map presence =
      (SortedMap.get fs key).map presence := by
  induction records generalizing fs with
  | nil => rfl
  | cons record records ih =>
      rw [List.foldl_cons, ih, withdrawRecord_presence]

theorem weakerThan_foldl (records : List Opaque) (fs : List (String × VariablePresenceNode)) :
    WeakerThan (rootOf fs) (rootOf (records.foldl withdrawRecord fs)) := by
  induction records generalizing fs with
  | nil => exact WeakerThan.refl _
  | cons record records ih =>
      exact (weakerThan_withdrawRecord fs record).trans (ih (withdrawRecord fs record))

theorem ReportLE.undetermined {r : Report VariablePresence} {v : VariablePresence}
    (h : ReportLE r (.hold v)) :
    ∃ u, r = .hold u ∧ (u = .undetermined → v = .undetermined) := by
  cases r with
  | miss n => exact False.elim h
  | hold u =>
      refine ⟨u, rfl, fun hu => ?_⟩
      subst hu
      exact le_antisymm le_top h

/-- **Below a declared key the records decide.**  After all of them, a key that some record
does not list is undetermined. -/
theorem report_foldl_withdrawRecord {records : List Opaque} {record : Opaque}
    (hmem : record ∈ records) {fs : List (String × VariablePresenceNode)} {key : String}
    (hkey : key ∉ record.written) {first : String} {path : List Step}
    (hpath : record.path = .field first :: path) {v : VariablePresence}
    (h : report (rootOf (records.foldl withdrawRecord fs)) (record.path ++ [.field key]) =
      .hold v) : v = .undetermined := by
  obtain ⟨before, after, rfl⟩ := List.append_of_mem hmem
  rw [List.foldl_append, List.foldl_cons] at h
  have hlater := weakerThan_foldl after
    (withdrawRecord (before.foldl withdrawRecord fs) record) (record.path ++ [.field key])
  rw [h] at hlater
  obtain ⟨u, hu, hund⟩ := hlater.undetermined
  rw [rootOf_withdrawRecord _ record hpath] at hu
  exact hund (report_withdrawAlong hkey hu)

/-! ### The answers for the declared names -/

/-- The answer for one name, from what the merged tree has for it. -/
def answer (unreadableSites : ℕ) (absent : String → VariablePresence) (name : String)
    (n : Option VariablePresenceNode) : VariablePresenceNode :=
  if 0 < unreadableSites then withdraw (n.getD (leaf (absent name)))
  else n.getD (leaf (absent name))

/-- **What is answered for a name.**  A name declared twice finds nothing the second time. -/
theorem get_answerNames (unreadableSites : ℕ) (absent : String → VariablePresence)
    (names : List String) (merged out : List (String × VariablePresenceNode)) (key : String) :
    SortedMap.get (answerNames unreadableSites absent names merged out) key =
      if names.count key = 0 then SortedMap.get out key
      else some (answer unreadableSites absent key
        (if names.count key = 1 then SortedMap.get merged key else none)) := by
  induction names generalizing merged out with
  | nil => rfl
  | cons name names ih =>
      rw [answerNames, ih, SortedMap.get_insert, SortedMap.get_remove]
      by_cases hname : key = name
      · subst hname
        rw [List.count_cons_self, if_pos rfl, if_pos rfl, ite_self]
        rw [if_neg (Nat.succ_ne_zero _)]
        by_cases hcount : names.count key = 0
        · rw [if_pos hcount, hcount, if_pos rfl]
          rfl
        · rw [if_neg hcount, if_neg fun h => hcount (Nat.succ.inj h)]
      · have hcount : (name :: names).count key = names.count key :=
          List.count_cons_of_ne (Ne.symm hname)
        rw [hcount, if_neg hname, if_neg hname]

/-! ### What is published -/

theorem publishes_key {fs : List (String × VariablePresenceNode)} {key : String}
    {v : VariablePresence} :
    Publishes fs [.field key] v ↔ (SortedMap.get fs key).map presence = some v := by
  have hchild : (VariablePresenceNode.mk .always fs none).child (.field key) =
      SortedMap.get fs key := rfl
  rw [Publishes, report, hchild]
  cases SortedMap.get fs key with
  | none =>
      constructor
      · intro h; cases h
      · intro h; cases h
  | some n =>
      show Report.hold n.presence = .hold v ↔ some n.presence = some v
      exact ⟨fun h => congrArg some (Report.hold.inj h), fun h =>
        congrArg Report.hold (Option.some.inj h)⟩

/-- Nothing declared, and a merged tree. -/
theorem variablesPresence_undeclared {sites : List CallSite} {merged : SiteTree}
    (h : foldSites (sites.map (·.tree)) = some merged) (unreadableSites : ℕ) :
    variablesPresence sites unreadableSites [] =
      if 0 < unreadableSites then withdrawFields merged.fields else merged.fields := by
  simp only [variablesPresence, h]

/-- The verdict of a declared key that nothing supplies. -/
def absentVerdict (sites : List CallSite) (key : String) : VariablePresence :=
  let opaqueTop := (sites.flatMap (·.opaquePaths)).filter fun record => record.path = []
  if !opaqueTop.isEmpty && !opaqueTop.any (fun record => record.written.contains key)
  then .undetermined else .conditional

theorem variablesPresence_declared {sites : List CallSite} {merged : SiteTree}
    (h : foldSites (sites.map (·.tree)) = some merged) (unreadableSites : ℕ)
    {argDefNames : List String} (hargs : argDefNames ≠ []) :
    variablesPresence sites unreadableSites argDefNames =
      answerNames unreadableSites (absentVerdict sites) argDefNames
        ((sites.flatMap (·.opaquePaths)).foldl withdrawRecord merged.fields) [] := by
  cases argDefNames with
  | nil => exact absurd rfl hargs
  | cons name names =>
      simp only [variablesPresence, h]
      rfl

theorem get_variablesPresence {sites : List CallSite} {merged : SiteTree}
    (h : foldSites (sites.map (·.tree)) = some merged) (unreadableSites : ℕ)
    {argDefNames : List String} (hargs : argDefNames ≠ []) (key : String) :
    SortedMap.get (variablesPresence sites unreadableSites argDefNames) key =
      if argDefNames.count key = 0 then none
      else some (answer unreadableSites (absentVerdict sites) key
        (if argDefNames.count key = 1 then SortedMap.get
          ((sites.flatMap (·.opaquePaths)).foldl withdrawRecord merged.fields) key
        else none)) := by
  rw [variablesPresence_declared h unreadableSites hargs, get_answerNames]
  rfl

/-- Withdrawing leaves every key undetermined. -/
theorem withdraw_undetermined {n : VariablePresenceNode} {path : List Step}
    {v : VariablePresence} (hends : path = [] ∨ endsInField path = true)
    (h : report (withdraw n) path = .hold v) : v = .undetermined := by
  by_cases hpath : path = []
  · subst hpath
    have hv : (withdraw n).presence = v := by injection h
    rw [← hv, withdraw_presence]
  · have hfield := hends.resolve_left hpath
    rw [report_withdraw_of_ne_nil n hpath, report_withdrawChildren] at h
    cases hr : report n path with
    | miss m => rw [hr] at h; cases h
    | hold u =>
        rw [hr, withdrawn, hfield] at h
        have hv : max u .undetermined = v := by injection h
        rw [← hv]
        exact max_eq_right le_top

theorem endsInField_snoc (path : List Step) (key : String) :
    endsInField (path ++ [.field key]) = true := by
  rw [endsInField, List.getLast?_concat]

/-- The tail of a path that ends in a key is empty or ends in it too. -/
theorem endsInField_tail {s : Step} {path : List Step}
    (h : endsInField (s :: path) = true) : path = [] ∨ endsInField path = true := by
  by_cases hpath : path = []
  · exact Or.inl hpath
  · rw [endsInField_cons hpath] at h
    exact Or.inr h

/-- **An unreadable site leaves everything undetermined.** -/
theorem undetermined_of_unreadable {sites : List CallSite} {merged : SiteTree}
    (h : foldSites (sites.map (·.tree)) = some merged) {unreadableSites : ℕ}
    (hunreadable : 0 < unreadableSites) (argDefNames : List String) {path : List Step}
    (hends : endsInField path = true) {v : VariablePresence}
    (hv : Publishes (variablesPresence sites unreadableSites argDefNames) path v) :
    v = .undetermined := by
  by_cases hargs : argDefNames = []
  · subst hargs
    rw [variablesPresence_undeclared h, if_pos hunreadable] at hv
    have hroot : rootOf (withdrawFields merged.fields) = withdrawChildren merged.root := rfl
    have hv' : report (withdrawChildren merged.root) path = .hold v := hroot ▸ hv
    have hne : path ≠ [] := fun hnil => by subst hnil; cases hends
    rw [← report_withdraw_of_ne_nil _ hne] at hv'
    exact withdraw_undetermined (Or.inr hends) hv'
  · cases path with
    | nil => cases hends
    | cons s path =>
        cases s with
        | item => cases hv
        | field key =>
            have hget := get_variablesPresence h unreadableSites hargs key
            rw [answer, if_pos hunreadable] at hget
            cases hc : SortedMap.get (variablesPresence sites unreadableSites argDefNames) key with
            | none =>
                have hnone := report_no_child (n := rootOf _) (s := .field key) hc path
                have hmiss := hv.symm.trans hnone
                cases hmiss
            | some c =>
                have hv := (report_child (n := rootOf _) (s := .field key) hc path).symm.trans hv
                rw [hc] at hget
                by_cases hcount : argDefNames.count key = 0
                · rw [if_pos hcount] at hget
                  cases hget
                · rw [if_neg hcount] at hget
                  rw [Option.some.inj hget] at hv
                  exact withdraw_undetermined (endsInField_tail hends) (deeper_injective hv)

theorem report_rootOf {fs : List (String × VariablePresenceNode)} {key : String}
    {c : VariablePresenceNode} (h : SortedMap.get fs key = some c) (path : List Step) :
    report (rootOf fs) (.field key :: path) = deeper (report c path) :=
  report_child (n := rootOf fs) (s := .field key) h path

/-- A declared key that the sites supply is published with the merged verdict. -/
theorem publishes_supplied {sites : List CallSite} {merged : SiteTree}
    (h : foldSites (sites.map (·.tree)) = some merged) {argDefNames : List String}
    {key : String} (hkey : key ∈ argDefNames) (hcount : argDefNames.count key = 1)
    {v : VariablePresence} (hv : report merged.root [.field key] = .hold v) :
    Publishes (variablesPresence sites 0 argDefNames) [.field key] v := by
  rw [publishes_key, get_variablesPresence h 0 (List.ne_nil_of_mem hkey), hcount,
    if_neg one_ne_zero, if_pos rfl]
  have hmerged := publishes_key.mp hv
  have hwithdrawn := foldl_withdrawRecord_presence (sites.flatMap (·.opaquePaths))
    merged.fields key
  rw [hmerged] at hwithdrawn
  obtain ⟨n, hn, hpresence⟩ := Option.map_eq_some_iff.mp hwithdrawn
  rw [hn]
  exact congrArg some hpresence

/-- A declared key that nothing supplies is published as absent. -/
theorem publishes_absent {sites : List CallSite} {merged : SiteTree}
    (h : foldSites (sites.map (·.tree)) = some merged) {argDefNames : List String}
    {key : String} (hkey : key ∈ argDefNames) (hno : ¬ Supplied sites argDefNames key) :
    Publishes (variablesPresence sites 0 argDefNames) [.field key]
      (absentVerdict sites key) := by
  have hcount : argDefNames.count key ≠ 0 := fun h0 => List.count_eq_zero.mp h0 hkey
  have hnone : (if argDefNames.count key = 1 then SortedMap.get
      ((sites.flatMap (·.opaquePaths)).foldl withdrawRecord merged.fields) key else none) =
      none := by
    by_cases hone : argDefNames.count key = 1
    · rw [if_pos hone]
      have hwithdrawn := foldl_withdrawRecord_presence (sites.flatMap (·.opaquePaths))
        merged.fields key
      cases hget : SortedMap.get merged.fields key with
      | none =>
          rw [hget] at hwithdrawn
          exact Option.map_eq_none_iff.mp hwithdrawn
      | some n =>
          have hheld : Held sites [.field key] := (held_iff h _).mpr
            ⟨n.presence, publishes_key.mpr (by rw [hget]; rfl)⟩
          exact absurd ⟨hone, hheld⟩ hno
    · rw [if_neg hone]
  rw [publishes_key, get_variablesPresence h 0 (List.ne_nil_of_mem hkey), if_neg hcount, hnone]
  rfl

theorem absentVerdict_undetermined_iff {sites : List CallSite} {site : CallSite}
    (hsite : site ∈ sites) {record : Opaque} (hrecord : record ∈ site.opaquePaths)
    (hpath : record.path = []) (key : String) :
    absentVerdict sites key = .undetermined ↔
      ∀ site' ∈ sites, ∀ record' ∈ site'.opaquePaths, record'.path = [] →
        key ∉ record'.written := by
  have hmem : ∀ record', record' ∈ (sites.flatMap (·.opaquePaths)).filter
      (fun r => r.path = []) ↔ (∃ site' ∈ sites, record' ∈ site'.opaquePaths) ∧
        record'.path = [] := by
    intro record'
    rw [List.mem_filter, List.mem_flatMap, decide_eq_true_eq]
  have hsome : ((sites.flatMap (·.opaquePaths)).filter fun r => r.path = []).isEmpty = false := by
    rw [List.isEmpty_eq_false_iff]
    exact List.ne_nil_of_mem ((hmem record).mpr ⟨⟨site, hsite, hrecord⟩, hpath⟩)
  rw [absentVerdict]
  simp only [hsome, Bool.not_false, Bool.true_and]
  cases hany : ((sites.flatMap (·.opaquePaths)).filter fun r => r.path = []).any
      (fun r => r.written.contains key) with
  | true =>
      simp only [Bool.not_true, Bool.false_eq_true, if_false, reduceCtorEq, false_iff]
      intro hall
      obtain ⟨record', hin, hwritten⟩ := List.any_eq_true.mp hany
      obtain ⟨⟨site', hsite', hrecord'⟩, hpath'⟩ := (hmem record').mp hin
      exact hall site' hsite' record' hrecord' hpath' (List.contains_iff_mem.mp hwritten)
  | false =>
      simp only [Bool.not_false, if_true, true_iff]
      intro site' hsite' record' hrecord' hpath' hwritten
      have hin := (hmem record').mpr ⟨⟨site', hsite', hrecord'⟩, hpath'⟩
      rw [List.any_eq_false] at hany
      exact hany record' hin (List.contains_iff_mem.mpr hwritten)

/-- **Below a declared key opacity dominates.** -/
theorem undetermined_below {sites : List CallSite} {merged : SiteTree}
    (h : foldSites (sites.map (·.tree)) = some merged) {argDefNames : List String}
    (hargs : argDefNames ≠ []) {site : CallSite} (hsite : site ∈ sites) {record : Opaque}
    (hrecord : record ∈ site.opaquePaths) {s : Step} {path : List Step}
    (hpath : record.path = s :: path) {key : String} (hsilent : SilentOn site record key)
    {v : VariablePresence} (hv : Publishes (variablesPresence sites 0 argDefNames)
      (record.path ++ [.field key]) v) : v = .undetermined := by
  rw [Publishes, hpath, List.cons_append] at hv
  cases s with
  | item => cases hv
  | field first =>
      have hget := get_variablesPresence h 0 hargs first
      cases hout : SortedMap.get (variablesPresence sites 0 argDefNames) first with
      | none =>
          have hnone := report_no_child (n := rootOf _) (s := .field first) hout
          have hmiss := hv.symm.trans (hnone _)
          cases hmiss
      | some c =>
          have hv := (report_rootOf hout _).symm.trans hv
          rw [hout] at hget
          by_cases hcount : argDefNames.count first = 0
          · rw [if_pos hcount] at hget
            cases hget
          · rw [if_neg hcount] at hget
            have hc := Option.some.inj hget
            rw [answer, if_neg (lt_irrefl 0)] at hc
            have hleaf : ∀ p, c ≠ leaf p := by
              intro p hp
              rw [hp] at hv
              cases path with
              | nil => cases hv
              | cons t path => cases t <;> cases hv
            -- the answer comes from the merged tree, where the records have been applied
            cases hwithdrawn : (if argDefNames.count first = 1 then SortedMap.get
                ((sites.flatMap (·.opaquePaths)).foldl withdrawRecord merged.fields) first
              else none) with
            | none =>
                rw [hwithdrawn] at hc
                exact absurd hc (hleaf _)
            | some n =>
                rw [hwithdrawn] at hc
                have hcn : c = n := hc
                subst hcn
                have hone : argDefNames.count first = 1 := by
                  by_contra hne
                  rw [if_neg hne] at hwithdrawn
                  cases hwithdrawn
                rw [if_pos hone] at hwithdrawn
                have hreport : report (rootOf ((sites.flatMap (·.opaquePaths)).foldl
                    withdrawRecord merged.fields)) (record.path ++ [.field key]) = .hold v := by
                  rw [hpath, List.cons_append, report_rootOf hwithdrawn]
                  exact hv
                rcases hsilent with hunwritten | hundetermined
                · exact report_foldl_withdrawRecord
                    (List.mem_flatMap.mpr ⟨site, hsite, hrecord⟩) hunwritten hpath hreport
                · have hamong : UndeterminedAmong sites (record.path ++ [.field key]) :=
                    Or.inl (List.mem_map.mpr ⟨site, hsite, hundetermined⟩)
                  obtain ⟨u, hu⟩ := (held_iff h _).mp
                    ⟨_, List.mem_map.mpr ⟨site, hsite, hundetermined⟩⟩
                  have hweaker := weakerThan_foldl (sites.flatMap (·.opaquePaths)) merged.fields
                    (record.path ++ [.field key])
                  rw [hreport] at hweaker
                  obtain ⟨w, hw, hwv⟩ := hweaker.undetermined
                  have huw : Report.hold u = .hold w := hu.symm.trans hw
                  have hund : w = .undetermined :=
                    Report.hold.inj huw ▸ (undetermined_iff h hu).mpr hamong
                  exact hwv hund

/-- **When opacity dominates.** -/
theorem opacityDominates_iff (sites : List CallSite) (unreadableSites : ℕ)
    (argDefNames : List String) :
    OpacityDominates sites unreadableSites argDefNames ↔
      OpacityAnswered sites unreadableSites argDefNames := by
  constructor
  · intro hdom
    rcases Nat.eq_zero_or_pos unreadableSites with hzero | hpos
    · subst hzero
      refine Or.inr fun site hsite record hrecord key hsilent => ?_
      obtain ⟨merged, h⟩ := foldSites_isSome hsite
      have hall := hdom site hsite record hrecord key hsilent
      refine ⟨fun hargs hheld => ?_, fun hpath hkey => ⟨fun hsupplied => ?_, fun hno => ?_⟩⟩
      · subst hargs
        obtain ⟨v, hv⟩ := (held_iff h _).mp hheld
        rw [variablesPresence_undeclared h, if_neg (lt_irrefl 0)] at hall
        exact (undetermined_iff h hv).mp (hall v hv)
      · rw [hpath, List.nil_append] at hall
        obtain ⟨v, hv⟩ := (held_iff h _).mp hsupplied.2
        have hpublished := publishes_supplied h hkey hsupplied.1 hv
        exact (undetermined_iff h hv).mp (hall v hpublished)
      · rw [hpath, List.nil_append] at hall
        have hpublished := publishes_absent h hkey hno
        exact (absentVerdict_undetermined_iff hsite hrecord hpath key).mp
          (hall _ hpublished)
    · exact Or.inl hpos
  · intro hanswered site hsite record hrecord key hsilent v hv
    obtain ⟨merged, h⟩ := foldSites_isSome hsite
    rcases Nat.eq_zero_or_pos unreadableSites with hzero | hpos
    · subst hzero
      obtain ⟨hundeclared, htop⟩ := hanswered.resolve_left (lt_irrefl 0) site hsite record
        hrecord key hsilent
      by_cases hargs : argDefNames = []
      · subst hargs
        rw [variablesPresence_undeclared h, if_neg (lt_irrefl 0)] at hv
        exact (undetermined_iff h hv).mpr (hundeclared rfl ((held_iff h _).mpr ⟨v, hv⟩))
      · cases hpath : record.path with
        | cons s path => exact undetermined_below h hargs hsite hrecord hpath hsilent hv
        | nil =>
            rw [hpath, List.nil_append] at hv
            have hkey : key ∈ argDefNames := by
              by_contra hnot
              rw [publishes_key, get_variablesPresence h 0 hargs,
                if_pos (List.count_eq_zero.mpr hnot)] at hv
              cases hv
            obtain ⟨hsupplied, habsent⟩ := htop hpath hkey
            by_cases hsup : Supplied sites argDefNames key
            · obtain ⟨u, hu⟩ := (held_iff h _).mp hsup.2
              have hpublished := publishes_supplied h hkey hsup.1 hu
              have huv : Report.hold v = .hold u := hv.symm.trans hpublished
              rw [Report.hold.inj huv]
              exact (undetermined_iff h hu).mpr (hsupplied hsup)
            · have hpublished := publishes_absent h hkey hsup
              have hva : Report.hold v = .hold (absentVerdict sites key) :=
                hv.symm.trans hpublished
              rw [Report.hold.inj hva]
              exact (absentVerdict_undetermined_iff hsite hrecord hpath key).mpr (habsent hsup)
    · exact undetermined_of_unreadable h hpos argDefNames (endsInField_snoc _ _) hv

/-! ### A sibling that answers for an opaque site -/

/-- A call site that passes `{...opts}`. -/
def spreadSite : CallSite := ⟨⟨[], canonical_leaf .always⟩, [⟨[], []⟩]⟩

/-- A call site that passes `{a: !0}`. -/
def writerSite : CallSite := ⟨⟨[("a", leaf .always)], canonical_single (canonical_leaf _)
  fun _ h => by cases h⟩, []⟩

/-- **The variables object of an opaque site is answered for.**  One site passes `{...opts}`
and another `{a: !0}`: nothing says whether `opts` carries `a`, and `a` is published as
conditional. -/
theorem opacity_overridden_at_top :
    ¬ OpacityDominates [spreadSite, writerSite] 0 ["a"] := by
  intro hdom
  have hpublished : Publishes (variablesPresence [spreadSite, writerSite] 0 ["a"])
      [.field "a"] .conditional := by
    show report _ _ = _
    decide
  have hsilent : SilentOn spreadSite ⟨[], []⟩ "a" := Or.inl List.not_mem_nil
  have hverdict := hdom spreadSite List.mem_cons_self ⟨[], []⟩ List.mem_cons_self "a" hsilent
    .conditional hpublished
  cases hverdict

end Whatspec.Mex

import Mathlib.Algebra.BigOperators.Fin
import Mathlib.Algebra.Order.BigOperators.Group.List
import Whatspec.Library.FirstCopies
import Whatspec.Library.Pieces
import Whatspec.Wam.CallSites

/-!
# Call sites, published once and accounted for

* `Took` says what the loop over some constructions did, and `took_constructions` what the loop
  over the modules did;
* `lengths_publishAll` and `callSites_publishAll` read the sites of the events;
* `sitesOf_classes`: the sites of an event that one module wrote do not depend on the order of the
  modules;
* **`accounted_iff`**: every event lists its sites once, every construction is accounted for and
  the order of the modules does not matter, exactly when no module constructs an event with equal
  sites and, between them, with a site that differs from them in its writes or values only.
-/

namespace Whatspec.Wam

open Whatspec.Library

section
variable (catalog : List WamEventSchema)
  (exportTable : List ((String × String) × Fin catalog.length))
  (visit : String → List RawSite × List RawWrite)

/-! ### The loop -/

/-- What tells two constructions apart. -/
def rawKey (x : String × RawSite) : String × String × ℕ := (x.1, x.2.eventModule, x.2.start)

/-- The site of a construction, with its event. -/
def siteOf (x : String × RawSite) : Option (Fin catalog.length × WamCallSite) :=
  (outcome catalog exportTable x.1 x.2).site

def chargeOf (d : WamDiagnostics) (x : String × RawSite) : WamDiagnostics :=
  d.charge (outcome catalog exportTable x.1 x.2)

/-- What the loop over some constructions did. -/
structure Took (c c' : Collected catalog) (l : List (String × RawSite)) : Prop where
  diag : c'.diag = (firstCopies rawKey c.seen l).foldl (chargeOf catalog exportTable) c.diag
  sites : c'.sites = ((firstCopies rawKey c.seen l).filterMap (siteOf catalog exportTable)).foldl
    (Upsert.upsert Upsert.keepAll) c.sites
  seen : ∀ k, k ∈ c'.seen ↔ k ∈ l.map rawKey ++ c.seen

theorem Took.refl (c : Collected catalog) : Took catalog exportTable c c [] :=
  ⟨rfl, rfl, fun _ => Iff.rfl⟩

variable {catalog exportTable} in
theorem Took.trans {c c' c'' : Collected catalog} {l l' : List (String × RawSite)}
    (h : Took catalog exportTable c c' l) (h' : Took catalog exportTable c' c'' l') :
    Took catalog exportTable c c'' (l ++ l') where
  diag := by
    rw [h'.diag, h.diag, firstCopies_append, List.foldl_append, firstCopies_congr h.seen]
  sites := by
    rw [h'.sites, h.sites, firstCopies_append, List.filterMap_append, List.foldl_append,
      firstCopies_congr h.seen]
  seen := fun k => by
    rw [h'.seen k, List.mem_append, h.seen k, List.map_append, List.mem_append, List.mem_append,
      List.mem_append]
    tauto

/-- One construction. -/
theorem took_construction (m : ModuleDefinition) (c : Collected catalog) (raw : RawSite) :
    Took catalog exportTable c (construction catalog exportTable m c raw) [(m.name, raw)] := by
  by_cases hseen : (m.name, raw.eventModule, raw.start) ∈ c.seen
  · have hkept : firstCopies rawKey c.seen [(m.name, raw)] = [] :=
      firstCopies_of_seen fun x hx => List.mem_singleton.mp hx ▸ hseen
    rw [construction, if_pos hseen]
    refine ⟨by rw [hkept]; rfl, by rw [hkept]; rfl, fun k => ?_⟩
    exact ⟨List.mem_cons_of_mem _, fun h => (List.mem_cons.mp h).elim (fun hk => hk ▸ hseen) id⟩
  · have hkept : firstCopies rawKey c.seen [(m.name, raw)] = [(m.name, raw)] := if_neg hseen
    rw [construction, if_neg hseen]
    refine ⟨by rw [hkept]; rfl, ?_, fun k => Iff.rfl⟩
    rw [hkept]
    have hsites : (outcome catalog exportTable m.name raw).site =
        siteOf catalog exportTable (m.name, raw) := rfl
    simp only [hsites]
    cases hsite : siteOf catalog exportTable (m.name, raw) with
    | none => rw [List.filterMap_cons_none hsite]; rfl
    | some site => rw [List.filterMap_cons_some hsite]; rfl

theorem took_module (m : ModuleDefinition) : ∀ (raws : List RawSite) (c : Collected catalog),
    Took catalog exportTable c (raws.foldl (construction catalog exportTable m) c)
      (raws.map fun raw => (m.name, raw))
  | [], c => Took.refl catalog exportTable c
  | raw :: rest, c =>
    (took_construction catalog exportTable m c raw).trans (took_module m rest _)

/-- The constructions of one module. -/
def rawSites (m : ModuleDefinition) : List (String × RawSite) :=
  if m.reachesEvents then (scanModule (visit m.text)).map fun raw => (m.name, raw) else []

theorem took_constructions : ∀ (modules : List ModuleDefinition) (c : Collected catalog),
    Took catalog exportTable c (constructions catalog exportTable visit c modules)
      (modules.flatMap (rawSites visit))
  | [], c => Took.refl catalog exportTable c
  | m :: rest, c => by
    have hrest := took_constructions rest
    rw [constructions, List.foldl_cons, List.flatMap_cons, rawSites]
    by_cases hm : m.reachesEvents = true
    · rw [if_pos hm, if_pos hm]
      exact (took_module catalog exportTable m _ c).trans (hrest _)
    · rw [if_neg hm, if_neg hm]
      exact hrest c

/-- The constructions that are not copies of others. -/
def distinctConstructions (modules : List ModuleDefinition) : List (String × RawSite) :=
  firstCopies rawKey [] (modules.flatMap (rawSites visit))

/-- The sites of an event, in the order they were found. -/
def sitesOf (modules : List ModuleDefinition) (index : Fin catalog.length) : List WamCallSite :=
  Upsert.ofKey index
    ((distinctConstructions visit modules).filterMap (siteOf catalog exportTable))

/-! ### Publishing -/

/-- What the loop over the modules leaves of the sites. -/
def entries (modules : List ModuleDefinition) : List (Fin catalog.length × List WamCallSite) :=
  Upsert.foldEntries Upsert.keepAll
    ((distinctConstructions visit modules).filterMap (siteOf catalog exportTable))

theorem sorted_entries (modules : List ModuleDefinition) :
    SortedMap.Sorted (entries catalog exportTable visit modules) :=
  Upsert.sorted_foldEntries _ _

/-- The entry of an event that has sites is the list of them. -/
theorem get_entries (modules : List ModuleDefinition) (index : Fin catalog.length) :
    SortedMap.get (entries catalog exportTable visit modules) index =
      if sitesOf catalog exportTable visit modules index = [] then none
      else some (sitesOf catalog exportTable visit modules index) := by
  rw [entries, Upsert.get_foldEntries, ← sitesOf]
  cases sitesOf catalog exportTable visit modules index with
  | nil => rfl
  | cons first rest =>
    rw [if_neg (List.cons_ne_nil _ _)]
    exact Upsert.foldEntry_keepAll_some rest [first]

variable {catalog} in
/-- The events after their sites were set. -/
def eventsAfter (list : List (Fin catalog.length × List WamCallSite)) (events : List WamEvent) :
    List WamEvent :=
  list.foldl (fun events e => setCallSites events e.1 (publish e.2)) events

variable {catalog} in
def diagAfter (list : List (Fin catalog.length × List WamCallSite)) (diag : WamDiagnostics) :
    WamDiagnostics :=
  list.foldl (fun diag e => diag.count e.2.length (publish e.2)) diag

theorem publishAll_eq : ∀ (list : List (Fin catalog.length × List WamCallSite))
    (events : List WamEvent) (diag : WamDiagnostics),
    publishAll catalog list (events, diag) = (eventsAfter list events, diagAfter list diag)
  | [], _, _ => rfl
  | (index, sites) :: rest, events, diag => by
    rw [publishAll, publishAll_eq rest]
    rfl

theorem collectCallSites_eq (diag : WamDiagnostics) (gaps : Option (List WamGapSite))
    (modules : List ModuleDefinition) :
    (collectCallSites catalog exportTable visit diag gaps modules).1 =
      (eventsAfter (entries catalog exportTable visit modules)
          (catalog.map fun schema => ⟨schema, []⟩),
        diagAfter (entries catalog exportTable visit modules)
          ((distinctConstructions visit modules).foldl (chargeOf catalog exportTable) diag)) := by
  have htook := took_constructions catalog exportTable visit modules ⟨diag, [], [], gaps⟩
  rw [collectCallSites, publishAll_eq]
  simp only [htook.sites, htook.diag]
  rfl

/-! ### The sites of an event -/

theorem getElem?_setCallSites (events : List WamEvent) (i j : ℕ) (list : List WamCallSite) :
    (setCallSites events i list)[j]? =
      if i = j then events[j]?.map fun ev => { ev with callSites := list } else events[j]? := by
  rw [setCallSites, List.getElem?_modify]
  split <;> rename_i h
  · cases events[j]? <;> simp
  · cases events[j]? <;> simp

variable {catalog} in
/-- An event carries the published sites of its entry, if it has one. -/
theorem getElem?_eventsAfter (index : Fin catalog.length) :
    ∀ {list : List (Fin catalog.length × List WamCallSite)}, SortedMap.Sorted list →
      ∀ events : List WamEvent, (eventsAfter list events)[index.val]? =
        match SortedMap.get list index with
        | some sites => events[index.val]?.map fun ev => { ev with callSites := publish sites }
        | none => events[index.val]?
  | [], _, _ => rfl
  | (i, sites) :: rest, h, events => by
    have hrest := getElem?_eventsAfter index (List.pairwise_cons.mp h).2
    show (eventsAfter rest (setCallSites events i (publish sites)))[index.val]? = _
    rw [hrest, getElem?_setCallSites, SortedMap.get_cons]
    by_cases hi : index = i
    · subst hi
      have hnone : SortedMap.get rest index = none := by
        by_contra hsome
        obtain ⟨v, hv⟩ := Option.ne_none_iff_exists'.mp hsome
        exact absurd ((List.pairwise_cons.mp h).1 _ (SortedMap.mem_of_get hv)) (lt_irrefl _)
      rw [hnone, if_pos rfl, if_pos rfl]
    · have hval : i.val ≠ index.val := fun h => hi (Fin.ext h.symm)
      rw [if_neg hval, if_neg hi]

variable {catalog} in
theorem length_eventsAfter : ∀ (list : List (Fin catalog.length × List WamCallSite))
    (events : List WamEvent), (eventsAfter list events).length = events.length
  | [], _ => rfl
  | e :: rest, events =>
    (length_eventsAfter rest (setCallSites events e.1 (publish e.2))).trans
      (List.length_modify _ _ _)

theorem publish_nil : publish [] = [] := by
  rw [publish, List.eq_nil_iff_forall_not_mem]
  intro s hs
  exact List.not_mem_nil ((StableSort.sortBy_perm _ _).mem_iff.mp
    (DecisionTable.mem_dropRepeats.mp hs))

/-- **The events** carry the published sites that were found for them. -/
theorem events_eq (modules : List ModuleDefinition) :
    eventsAfter (entries catalog exportTable visit modules)
        (catalog.map fun schema => ⟨schema, []⟩) =
      (List.finRange catalog.length).map fun index =>
        ⟨catalog.get index, publish (sitesOf catalog exportTable visit modules index)⟩ := by
  refine List.ext_getElem? fun j => ?_
  by_cases hj : j < catalog.length
  · have hschema : (catalog.map fun schema => WamEvent.mk schema [])[j]? =
        some ⟨catalog.get ⟨j, hj⟩, []⟩ := by
      rw [List.getElem?_map, List.getElem?_eq_getElem hj]
      rfl
    rw [getElem?_eventsAfter ⟨j, hj⟩ (sorted_entries catalog exportTable visit modules),
      get_entries, hschema, List.getElem?_map, List.getElem?_eq_getElem (by simpa using hj)]
    by_cases hnone : sitesOf catalog exportTable visit modules ⟨j, hj⟩ = []
    · rw [if_pos hnone]
      simp [hnone, publish_nil]
    · rw [if_neg hnone]
      simp
  · rw [List.getElem?_eq_none, List.getElem?_eq_none]
    · simpa using hj
    · simpa [length_eventsAfter] using hj

/-- The entries are the lists of the events that have sites, event by event. -/
theorem entries_eq (modules : List ModuleDefinition) :
    entries catalog exportTable visit modules =
      (List.finRange catalog.length).filterMap fun index =>
        if sitesOf catalog exportTable visit modules index = [] then none
        else some (index, sitesOf catalog exportTable visit modules index) := by
  have hentries := SortedMap.eq_filterMap_of_sorted
    (sorted_entries catalog exportTable visit modules) (List.pairwise_lt_finRange catalog.length)
    fun index _ => List.mem_finRange index
  rw [hentries]
  refine List.filterMap_congr fun index _ => ?_
  rw [get_entries]
  split <;> rfl

theorem count_nothing (diag : WamDiagnostics) : diag.count 0 [] = diag := rfl

theorem diag_eq (modules : List ModuleDefinition) (diag : WamDiagnostics) :
    diagAfter (entries catalog exportTable visit modules) diag =
      (List.finRange catalog.length).foldl (fun diag index =>
        diag.count (sitesOf catalog exportTable visit modules index).length
          (publish (sitesOf catalog exportTable visit modules index))) diag := by
  rw [entries_eq, diagAfter, List.foldl_filterMap]
  congr 1
  funext diag index
  by_cases hnone : sitesOf catalog exportTable visit modules index = []
  · rw [if_pos hnone, hnone, publish_nil]
    exact (count_nothing diag).symm
  · rw [if_neg hnone]

/-! ### Counting -/

theorem length_publish_le (list : List WamCallSite) : (publish list).length ≤ list.length :=
  ((DecisionTable.dropRepeats_sublist _).length_le).trans
    (StableSort.sortBy_perm siteKey list).length_eq.le

/-- Publishing counts what is published and what was left out. -/
theorem count_foldl {ι : Type} (lists : ι → List WamCallSite) :
    ∀ (indices : List ι) (diag : WamDiagnostics) (d : WamDiagnostics),
      d = indices.foldl (fun diag i => diag.count (lists i).length (publish (lists i))) diag →
        d.constructions = diag.constructions ∧
        d.dropsByReason = diag.dropsByReason ∧
        d.callSites = diag.callSites + (indices.map fun i => (publish (lists i)).length).sum ∧
        d.callSites + d.duplicateCallSites = diag.callSites + diag.duplicateCallSites +
          (indices.map fun i => (lists i).length).sum
  | [], diag, _, h => by
    subst h
    exact ⟨rfl, rfl, rfl, rfl⟩
  | i :: rest, diag, d, h => by
    obtain ⟨hconstructions, hdrops, hsites, hall⟩ := count_foldl lists rest _ d h
    refine ⟨hconstructions, hdrops, ?_, ?_⟩
    · rw [hsites, List.map_cons, List.sum_cons, ← Nat.add_assoc]
      rfl
    · have hle := length_publish_le (lists i)
      rw [hall, List.map_cons, List.sum_cons]
      show diag.callSites + (publish (lists i)).length +
        (diag.duplicateCallSites + ((lists i).length - (publish (lists i)).length)) + _ = _
      omega

/-- The reasons of a construction name the missing entry of the catalog when it has no site, and
only then. -/
theorem count_constructionNoCatalogEntry (x : String × RawSite) :
    (outcome catalog exportTable x.1 x.2).reasons.count constructionNoCatalogEntry =
      if (siteOf catalog exportTable x).isSome then 0 else 1 := by
  have hunread : (unreadReasons x.2).count constructionNoCatalogEntry = 0 := by
    rw [List.count_eq_zero]
    intro h
    obtain ⟨form, -, hform⟩ := List.mem_map.mp h
    have hhead := congrArg (fun s : String => s.toList.head?) hform
    rw [String.toList_append, String.toList_append] at hhead
    have hletters : some 'u' = some 'c' := hhead
    exact absurd hletters (by decide)
  unfold siteOf outcome
  cases eventOf catalog exportTable x.2 with
  | none =>
    show (unreadReasons x.2 ++ [constructionNoCatalogEntry]).count _ = 1
    rw [List.count_append, hunread, List.count_singleton_self]
  | some index =>
    show (unreadReasons x.2 ++ _).count _ = 0
    rw [List.count_append, hunread, List.count_eq_zero.mpr]
    intro h
    obtain ⟨name, -, hname⟩ := List.mem_map.mp h
    exact absurd hname (by decide)

/-- The loop counts the constructions, and those without an entry. -/
theorem charge_foldl : ∀ (l : List (String × RawSite)) (diag : WamDiagnostics),
    (l.foldl (chargeOf catalog exportTable) diag).constructions = diag.constructions + l.length ∧
    (l.foldl (chargeOf catalog exportTable) diag).callSites = diag.callSites ∧
    (l.foldl (chargeOf catalog exportTable) diag).duplicateCallSites = diag.duplicateCallSites ∧
    (l.foldl (chargeOf catalog exportTable) diag).dropsByReason constructionNoCatalogEntry +
        (l.filterMap (siteOf catalog exportTable)).length =
      diag.dropsByReason constructionNoCatalogEntry + l.length
  | [], _ => ⟨rfl, rfl, rfl, rfl⟩
  | x :: rest, diag => by
    obtain ⟨hconstructions, hsites, hduplicates, hdrops⟩ :=
      charge_foldl rest (chargeOf catalog exportTable diag x)
    refine ⟨?_, hsites, hduplicates, ?_⟩
    · rw [List.foldl_cons, hconstructions, List.length_cons]
      show diag.constructions + 1 + rest.length = _
      omega
    · have hcount : (chargeOf catalog exportTable diag x).dropsByReason
          constructionNoCatalogEntry = diag.dropsByReason constructionNoCatalogEntry +
            if (siteOf catalog exportTable x).isSome then 0 else 1 := by
        rw [← count_constructionNoCatalogEntry]
        rfl
      rw [hcount] at hdrops
      rw [List.foldl_cons, List.length_cons]
      cases hx : siteOf catalog exportTable x with
      | none =>
        rw [List.filterMap_cons_none hx]
        simp only [hx, Option.isSome_none, Bool.false_eq_true, if_false] at hdrops
        omega
      | some site =>
        rw [List.filterMap_cons_some hx, List.length_cons]
        simp only [hx, Option.isSome_some, if_true] at hdrops
        omega

/-- Every observation is under one key. -/
theorem sum_length_ofKey {n : ℕ} {β : Type} : ∀ observations : List (Fin n × β),
    ((List.finRange n).map fun i => (Upsert.ofKey i observations).length).sum =
      observations.length
  | [] => by simp [Upsert.ofKey]
  | o :: rest => by
    have hcons : ∀ i, (Upsert.ofKey i (o :: rest)).length =
        (if o.1 = i then 1 else 0) + (Upsert.ofKey i rest).length := by
      intro i
      by_cases hi : o.1 = i
      · have hfirst : Upsert.ofKey i (o :: rest) = o.2 :: Upsert.ofKey i rest :=
          List.filterMap_cons_some (if_pos hi)
        rw [hfirst, if_pos hi, List.length_cons, Nat.add_comm]
      · have hskip : Upsert.ofKey i (o :: rest) = Upsert.ofKey i rest :=
          List.filterMap_cons_none (if_neg hi)
        rw [hskip, if_neg hi, Nat.zero_add]
    simp only [hcons]
    rw [List.sum_map_add, sum_length_ofKey rest, List.length_cons, Nat.add_comm]
    congr 1
    rw [← Fin.sum_univ_def, Finset.sum_ite_eq]
    exact if_pos (Finset.mem_univ _)

/-! ### The order of the modules -/

/-- Modules of one name have the same text, and so the same dependencies. -/
def SameText (modules : List ModuleDefinition) : Prop :=
  ∀ m ∈ modules, ∀ m' ∈ modules, m.name = m'.name → m.text = m'.text ∧ m.deps = m'.deps

theorem fst_of_mem_rawSites (m : ModuleDefinition) : ∀ x ∈ rawSites visit m, x.1 = m.name := by
  intro x hx
  rw [rawSites] at hx
  split at hx
  · obtain ⟨raw, -, rfl⟩ := List.mem_map.mp hx
    rfl
  · exact absurd hx List.not_mem_nil

variable {visit}

/-- What is kept of the modules of one name does not depend on the order. -/
theorem distinctConstructions_named {order modules : List ModuleDefinition}
    (horder : order.Perm modules) (hsame : SameText modules) (name : String) :
    (distinctConstructions visit order).filter (fun x => x.1 = name) =
      (distinctConstructions visit modules).filter fun x => x.1 = name := by
  have hkey : ∀ x y : String × RawSite, rawKey x = rawKey y → x.1 = y.1 :=
    fun _ _ h => (Prod.mk.inj h).1
  refine filter_firstCopies_flatMap (fst_of_mem_rawSites visit) hkey horder
    (fun m hm m' hm' hname => ?_) name
  obtain ⟨htext, hdeps⟩ := hsame m hm m' hm' hname
  rw [rawSites, rawSites, ModuleDefinition.reachesEvents, ModuleDefinition.reachesEvents, htext,
    hdeps, hname]

theorem distinctConstructions_perm {order modules : List ModuleDefinition}
    (horder : order.Perm modules) (hsame : SameText modules) :
    (distinctConstructions visit order).Perm (distinctConstructions visit modules) :=
  perm_of_filter_eq Prod.fst (distinctConstructions_named horder hsame)

variable {catalog exportTable}

theorem module_of_siteOf {x : String × RawSite} {index : Fin catalog.length} {s : WamCallSite}
    (h : siteOf catalog exportTable x = some (index, s)) : s.module = x.1 := by
  unfold siteOf outcome at h
  cases hevent : eventOf catalog exportTable x.2 with
  | none => rw [hevent] at h; cases h
  | some index => rw [hevent] at h; cases h; rfl

/-- The sites of one module are those of the constructions kept of it. -/
theorem classOf_sitesOf (modules : List ModuleDefinition) (index : Fin catalog.length)
    (k : String ×ₗ (List String ×ₗ Bool)) :
    StableSort.classOf siteKey k (sitesOf catalog exportTable visit modules index) =
      StableSort.classOf siteKey k (Upsert.ofKey index
        (((distinctConstructions visit modules).filter fun x => x.1 = (ofLex k).1).filterMap
          (siteOf catalog exportTable))) := by
  rw [sitesOf]
  generalize distinctConstructions visit modules = l
  induction l with
  | nil => rfl
  | cons x rest ih =>
    rw [List.filter_cons]
    cases hx : siteOf catalog exportTable x with
    | none =>
      rw [List.filterMap_cons_none hx, ih]
      split
      · rw [List.filterMap_cons_none hx]
      · rfl
    | some site =>
      obtain ⟨i, s⟩ := site
      have hmodule := module_of_siteOf hx
      have hcons : ∀ l : List (Fin catalog.length × WamCallSite),
          StableSort.classOf siteKey k (Upsert.ofKey index ((i, s) :: l)) =
            if i = index ∧ siteKey s = k then s :: StableSort.classOf siteKey k
              (Upsert.ofKey index l) else StableSort.classOf siteKey k (Upsert.ofKey index l) := by
        intro l
        by_cases hi : i = index
        · have hfirst : Upsert.ofKey index ((i, s) :: l) = s :: Upsert.ofKey index l :=
            List.filterMap_cons_some (if_pos hi)
          rw [hfirst, StableSort.classOf_cons]
          by_cases hk : siteKey s = k <;> simp [hi, hk]
        · have hskip : Upsert.ofKey index ((i, s) :: l) = Upsert.ofKey index l :=
            List.filterMap_cons_none (if_neg hi)
          rw [hskip, if_neg fun h => hi h.1]
      rw [List.filterMap_cons_some hx, hcons, ih]
      by_cases hname : x.1 = (ofLex k).1
      · rw [if_pos (decide_eq_true hname), List.filterMap_cons_some hx, hcons]
      · have hno : ¬ (i = index ∧ siteKey s = k) := fun h =>
          hname (hmodule.symm.trans (congrArg (fun k => (ofLex k).1) h.2))
        rw [if_neg hno, if_neg (by simpa using hname)]

theorem sitesOf_classes {order modules : List ModuleDefinition} (horder : order.Perm modules)
    (hsame : SameText modules) (index : Fin catalog.length)
    (k : String ×ₗ (List String ×ₗ Bool)) :
    StableSort.classOf siteKey k (sitesOf catalog exportTable visit order index) =
      StableSort.classOf siteKey k (sitesOf catalog exportTable visit modules index) := by
  rw [classOf_sitesOf, classOf_sitesOf, distinctConstructions_named horder hsame]

theorem publish_sitesOf {order modules : List ModuleDefinition} (horder : order.Perm modules)
    (hsame : SameText modules) (index : Fin catalog.length) :
    publish (sitesOf catalog exportTable visit order index) =
      publish (sitesOf catalog exportTable visit modules index) :=
  congrArg DecisionTable.dropRepeats
    (StableSort.sortBy_congr siteKey (sitesOf_classes horder hsame index))

theorem length_sitesOf {order modules : List ModuleDefinition} (horder : order.Perm modules)
    (hsame : SameText modules) (index : Fin catalog.length) :
    (sitesOf catalog exportTable visit order index).length =
      (sitesOf catalog exportTable visit modules index).length :=
  (((distinctConstructions_perm horder hsame).filterMap _).filterMap _).length_eq

/-- Two constructions may be counted in either order. -/
theorem chargeOf_comm (diag : WamDiagnostics) (x y : String × RawSite) :
    chargeOf catalog exportTable (chargeOf catalog exportTable diag x) y =
      chargeOf catalog exportTable (chargeOf catalog exportTable diag y) x := by
  simp only [chargeOf, WamDiagnostics.charge, Nat.add_right_comm]

/-- **The order of the modules** changes neither the sites nor the counters. -/
theorem collectCallSites_perm {order modules : List ModuleDefinition}
    (horder : order.Perm modules) (hsame : SameText modules) (diag : WamDiagnostics)
    (gaps : Option (List WamGapSite)) :
    (collectCallSites catalog exportTable visit diag gaps order).1 =
      (collectCallSites catalog exportTable visit diag gaps modules).1 := by
  have hcharge : (distinctConstructions visit order).foldl (chargeOf catalog exportTable) diag =
      (distinctConstructions visit modules).foldl (chargeOf catalog exportTable) diag :=
    (distinctConstructions_perm horder hsame).foldl_eq'
      (fun x _ y _ d => chargeOf_comm d x y) diag
  rw [collectCallSites_eq, collectCallSites_eq, events_eq, events_eq, diag_eq, diag_eq, hcharge]
  simp only [publish_sitesOf horder hsame, length_sitesOf horder hsame]

/-! ### The law -/

variable (catalog exportTable visit)

def published (events : List WamEvent) : ℕ := (events.map fun ev => ev.callSites.length).sum

/-- What the collected call sites have to be. -/
structure Accounted (diag : WamDiagnostics) (gaps : Option (List WamGapSite))
    (modules : List ModuleDefinition) : Prop where
  once : ∀ ev ∈ (collectCallSites catalog exportTable visit diag gaps modules).1.1,
    ev.callSites.Nodup
  counted : ∃ duplicates uncatalogued : ℕ, ∃ events d,
    (collectCallSites catalog exportTable visit diag gaps modules).1 = (events, d) ∧
      d.callSites = diag.callSites + published events ∧
      d.duplicateCallSites = diag.duplicateCallSites + duplicates ∧
      d.dropsByReason constructionNoCatalogEntry =
        diag.dropsByReason constructionNoCatalogEntry + uncatalogued ∧
      d.constructions = diag.constructions + (distinctConstructions visit modules).length ∧
      (distinctConstructions visit modules).length = published events + duplicates + uncatalogued
  unordered : SameText modules → ∀ order : List ModuleDefinition, order.Perm modules →
    (collectCallSites catalog exportTable visit diag gaps order).1 =
      (collectCallSites catalog exportTable visit diag gaps modules).1

/-- Between two equal sites of an event no other one was found that has their module, the names of
their fields and their partiality. -/
def NothingBetween (modules : List ModuleDefinition) : Prop :=
  ∀ index a b, siteKey a = siteKey b →
    [a, b, a].Sublist (sitesOf catalog exportTable visit modules index) → a = b

theorem once_iff (diag : WamDiagnostics) (gaps : Option (List WamGapSite))
    (modules : List ModuleDefinition) :
    (∀ ev ∈ (collectCallSites catalog exportTable visit diag gaps modules).1.1,
      ev.callSites.Nodup) ↔ NothingBetween catalog exportTable visit modules := by
  rw [collectCallSites_eq, events_eq]
  simp only [List.mem_map, List.mem_finRange, true_and, forall_exists_index,
    forall_apply_eq_imp_iff]
  exact forall_congr' fun index => StableSort.nodup_dropRepeats_sortBy_iff siteKey _

theorem counted (diag : WamDiagnostics) (gaps : Option (List WamGapSite))
    (modules : List ModuleDefinition) :
    ∃ duplicates uncatalogued : ℕ, ∃ events d,
      (collectCallSites catalog exportTable visit diag gaps modules).1 = (events, d) ∧
        d.callSites = diag.callSites + published events ∧
        d.duplicateCallSites = diag.duplicateCallSites + duplicates ∧
        d.dropsByReason constructionNoCatalogEntry =
          diag.dropsByReason constructionNoCatalogEntry + uncatalogued ∧
        d.constructions = diag.constructions + (distinctConstructions visit modules).length ∧
        (distinctConstructions visit modules).length =
          published events + duplicates + uncatalogued := by
  obtain ⟨hconstructions, hsites, hduplicates, hdrops⟩ :=
    charge_foldl catalog exportTable (distinctConstructions visit modules) diag
  rw [collectCallSites_eq, events_eq, diag_eq]
  obtain ⟨hkept, hreasons, hpublished, hall⟩ :=
    count_foldl (sitesOf catalog exportTable visit modules) (List.finRange catalog.length) _ _ rfl
  have hlengths := sum_length_ofKey
    ((distinctConstructions visit modules).filterMap (siteOf catalog exportTable))
  have hsum : published ((List.finRange catalog.length).map fun index =>
      ⟨catalog.get index, publish (sitesOf catalog exportTable visit modules index)⟩) =
      ((List.finRange catalog.length).map fun index =>
        (publish (sitesOf catalog exportTable visit modules index)).length).sum := by
    rw [published, List.map_map]
    rfl
  have hle : ((List.finRange catalog.length).map fun index =>
      (publish (sitesOf catalog exportTable visit modules index)).length).sum ≤
      ((List.finRange catalog.length).map fun index =>
        (sitesOf catalog exportTable visit modules index).length).sum :=
    List.sum_le_sum fun index _ => length_publish_le _
  have hfilter := List.length_filterMap_le (siteOf catalog exportTable)
    (distinctConstructions visit modules)
  refine ⟨((List.finRange catalog.length).map fun index =>
      (sitesOf catalog exportTable visit modules index).length).sum -
      ((List.finRange catalog.length).map fun index =>
        (publish (sitesOf catalog exportTable visit modules index)).length).sum,
    (distinctConstructions visit modules).length -
      ((distinctConstructions visit modules).filterMap (siteOf catalog exportTable)).length,
    _, _, rfl, ?_, ?_, ?_, ?_, ?_⟩
  · rw [hpublished, hsites, hsum]
  · omega
  · rw [hreasons]
    omega
  · rw [hkept, hconstructions]
  · rw [hsum]
    simp only [sitesOf] at hle ⊢
    omega

/-- **Published once and accounted for.**  Every event lists its sites once, every construction is
published, a duplicate or without an entry, and the order of the modules changes neither lists nor
counters, exactly when nothing is between two equal sites. -/
theorem accounted_iff (diag : WamDiagnostics) (gaps : Option (List WamGapSite))
    (modules : List ModuleDefinition) :
    Accounted catalog exportTable visit diag gaps modules ↔
      NothingBetween catalog exportTable visit modules := by
  constructor
  · intro h
    exact (once_iff catalog exportTable visit diag gaps modules).mp h.once
  · intro h
    exact ⟨(once_iff catalog exportTable visit diag gaps modules).mpr h,
      counted catalog exportTable visit diag gaps modules,
      fun hsame order horder => collectCallSites_perm horder hsame diag gaps⟩

end

/-! ### Three sites that differ in a value -/

def pingCatalog : List WamEventSchema := [⟨"WAWebPingWamEvent", [⟨"count"⟩]⟩]

def pingIndex : Fin pingCatalog.length := ⟨0, Nat.zero_lt_one⟩

def pingExports : List ((String × String) × Fin pingCatalog.length) :=
  [(("WAWebPingWamEvent", "PingWamEvent"), pingIndex)]

/-- `new (o("WAWebPingWamEvent").PingWamEvent)({count: n})`. -/
def pingOf (start : ℕ) (n : ℤ) : RawSite where
  eventModule := "WAWebPingWamEvent"
  exportName := "PingWamEvent"
  fields := [⟨"count", .constructor, some (.int n)⟩]
  isPartial := false
  unreadArgument := none
  start := start
  stop := start + 58
  binding := none

/-- A module that counts one, two and one again. -/
def threePings (_ : String) : List RawSite × List RawWrite :=
  ([pingOf 40 1, pingOf 100 2, pingOf 160 1], [])

def pingModules : List ModuleDefinition := [⟨"WAWebPing", ["WAWebPingWamEvent"], 0, ""⟩]

def pingSite (n : ℤ) : WamCallSite :=
  ⟨"WAWebPing", [⟨"count", .constructor, some (.int n)⟩], false⟩

theorem siteOf_pingOf (start : ℕ) (n : ℤ) :
    siteOf pingCatalog pingExports ("WAWebPing", pingOf start n) =
      some (pingIndex, pingSite n) := by
  have hevent : eventOf pingCatalog pingExports (pingOf start n) =
      some pingIndex := by rfl
  rw [siteOf, outcome]
  dsimp only
  rw [hevent]
  dsimp only
  have hread : readFields (pingCatalog.get pingIndex) (pingOf start n).isPartial
      (pingOf start n).fields = ⟨(pingSite n).fields, false, [], 0⟩ := by rfl
  have hsort : StableSort.sortBy WamCallSiteField.name (pingSite n).fields =
      (pingSite n).fields := StableSort.sortBy_of_pairwise (List.pairwise_singleton ..)
  rw [hread]
  dsimp only
  rw [hsort]
  rfl

theorem sitesOf_threePings :
    sitesOf pingCatalog pingExports threePings pingModules pingIndex =
      [pingSite 1, pingSite 2, pingSite 1] := by
  have hscan : scanModule (threePings "") = [pingOf 40 1, pingOf 100 2, pingOf 160 1] :=
    StableSort.sortBy_of_pairwise (by simp [threePings, pingOf])
  have hraw : pingModules.flatMap (rawSites threePings) =
      [("WAWebPing", pingOf 40 1), ("WAWebPing", pingOf 100 2), ("WAWebPing", pingOf 160 1)] := by
    have hreaches : (ModuleDefinition.mk "WAWebPing" ["WAWebPingWamEvent"] 0 "").reachesEvents =
        true := by decide +kernel
    rw [pingModules, List.flatMap_singleton, rawSites, if_pos hreaches, hscan]
    rfl
  have hkept : distinctConstructions threePings pingModules =
      [("WAWebPing", pingOf 40 1), ("WAWebPing", pingOf 100 2), ("WAWebPing", pingOf 160 1)] := by
    rw [distinctConstructions, hraw]
    rfl
  rw [sitesOf, hkept, List.filterMap_cons_some (siteOf_pingOf 40 1),
    List.filterMap_cons_some (siteOf_pingOf 100 2), List.filterMap_cons_some (siteOf_pingOf 160 1)]
  rfl

def noDiagnostics : WamDiagnostics := ⟨0, 0, 0, 0, 0, 0, 0, fun _ => 0⟩

/-- Two equal sites with a different one between them are both published. -/
theorem not_accounted_threePings :
    ¬ Accounted pingCatalog pingExports threePings noDiagnostics none pingModules := by
  intro h
  have hbetween := (once_iff pingCatalog pingExports threePings noDiagnostics none pingModules).mp
    h.once
  have hequal := hbetween pingIndex (pingSite 1) (pingSite 2) rfl (by rw [sitesOf_threePings])
  exact absurd hequal (by decide)

end Whatspec.Wam

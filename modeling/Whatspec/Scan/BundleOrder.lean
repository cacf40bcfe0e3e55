import Whatspec.Scan.CrossIndexes

/-!
# The indexes and the order of the bundle

The files of a bundle come in any order.  The lengths that the parsers pin do not depend on it,
and neither do the constants, but a constant names the argument it comes through, and that is the
first one seen.

* `contentLengthIndex_perm`: the content-length index of a permuted bundle is the same;
* `source_of_pinned`: the source of a constant is the argument of the first module that feeds the
  tag;
* **`bundleOrderFree_iff`**: the indexes and every enriched tree are independent of the order
  exactly when all the modules that feed a pinned tag feed it first through one argument.
-/

namespace Whatspec.Scan

open Whatspec.Library

variable {defs defs' : List ModuleDefinition}

/-! ### What is scanned -/

theorem scannedFrom_of_nodup : ∀ {names : List String} {defs : List ModuleDefinition},
    (defs.map ModuleDefinition.name).Nodup → (∀ m ∈ defs, m.name ∉ names) →
    scannedFrom names defs = defs
  | _, [], _, _ => rfl
  | names, m :: ms, hnodup, hnew => by
    rw [List.map_cons, List.nodup_cons] at hnodup
    rw [List.forall_mem_cons] at hnew
    rw [scannedFrom, if_neg hnew.1]
    congr 1
    refine scannedFrom_of_nodup hnodup.2 fun m' hm' => ?_
    rw [List.mem_cons, not_or]
    refine ⟨fun heq => hnodup.1 ?_, hnew.2 m' hm'⟩
    rw [← heq]
    exact List.mem_map_of_mem hm'

/-- In a bundle of distinct names every module is scanned. -/
theorem scanned_of_nodup (h : (defs.map ModuleDefinition.name).Nodup) : scanned defs = defs :=
  scannedFrom_of_nodup h fun _ _ => List.not_mem_nil

theorem nodup_of_perm (h : defs'.Perm defs) (hnames : (defs.map ModuleDefinition.name).Nodup) :
    (defs'.map ModuleDefinition.name).Nodup :=
  (h.map ModuleDefinition.name).nodup_iff.mpr hnames

theorem scanned_perm (h : defs'.Perm defs) (hnames : (defs.map ModuleDefinition.name).Nodup) :
    (scanned defs').Perm (scanned defs) := by
  rw [scanned_of_nodup hnames, scanned_of_nodup (nodup_of_perm h hnames)]
  exact h

/-! ### Content lengths -/

/-- **The content-length index does not depend on the order of the bundle.** -/
theorem contentLengthIndex_perm (h : defs'.Perm defs)
    (hnames : (defs.map ModuleDefinition.name).Nodup) :
    contentLengthIndex defs' = contentLengthIndex defs := by
  have hreads : (sizedReads defs').Perm (sizedReads defs) := (scanned_perm h hnames).flatMap_right _
  have hlengths : seenLengths (sizedReads defs') = seenLengths (sizedReads defs) :=
    Grouping.group_congr fun p => (hreads.map _).mem_iff
  have hsources : sourceModule (sizedReads defs') = sourceModule (sizedReads defs) :=
    Upsert.foldEntries_perm (fun a b c => Upsert.keepLeast_comm a b c) (hreads.map _)
  rw [contentLengthIndex, hlengths, hsources]
  rfl

/-! ### Constant values -/

/-- The constants of the arguments do not depend on the order of the bundle. -/
theorem collectArgConsts_perm (h : defs'.Perm defs)
    (hnames : (defs.map ModuleDefinition.name).Nodup) :
    collectArgConsts defs' = collectArgConsts defs := by
  have hassign : (assignments defs').Perm (assignments defs) :=
    (scanned_perm h hnames).flatMap_right _
  funext arg
  have hlengths : Grouping.group ((assignments defs').filterMap fun p => p.2.map fun n => (p.1, n)) =
      Grouping.group ((assignments defs).filterMap fun p => p.2.map fun n => (p.1, n)) :=
    Grouping.group_congr fun p => (hassign.filterMap _).mem_iff
  have hany : ((assignments defs').any fun p => p.1 = arg && p.2.isNone) =
      (assignments defs).any fun p => p.1 = arg && p.2.isNone := hassign.any_eq
  simp only [collectArgConsts, hlengths, hany]

theorem builderCalls_perm (h : defs'.Perm defs)
    (hnames : (defs.map ModuleDefinition.name).Nodup) :
    (builderCalls defs').Perm (builderCalls defs) :=
  (scanned_perm h hnames).flatMap_right _

/-- What the builder calls of a bundle feed a tag: constants of one length, every one of them. -/
def Pinned (defs : List ModuleDefinition) (tag : String) : Prop :=
  (∃ call ∈ builderCalls defs, call.1 = tag) ∧
    ∃ n, ∀ call ∈ builderCalls defs, call.1 = tag →
      ∃ arg, call.2 = .arg arg ∧ collectArgConsts defs arg = some n

/-- The argument of a call. -/
def Content.argument : Content → Option String
  | .arg name => some name
  | .dynamic => none

/-- The argument through which a module first feeds a tag. -/
def ModuleDefinition.firstArgument (m : ModuleDefinition) (tag : String) : Option String :=
  if m.mentionsBuilder && !m.panicked then
    (m.builderCalls.find? fun call => call.1 = tag).bind fun call => call.2.argument
  else none

/-- The modules that feed a pinned tag feed it first through one argument. -/
def OneSource (defs : List ModuleDefinition) : Prop :=
  ∀ tag, Pinned defs tag → ∀ m ∈ defs, ∀ m' ∈ defs, ∀ arg arg',
    m.firstArgument tag = some arg → m'.firstArgument tag = some arg' → arg = arg'

/-- The constants that a bundle feeds its tags. -/
def constsOf (calls : List (String × Content)) (argConsts : String → Option ℕ) :
    List (String × List ℕ) :=
  Grouping.group ((calls.filterMap (constCall argConsts)).map fun c => (c.1, c.2.1))

/-- The arguments that are named as the sources of the constants. -/
def argSourceOf (calls : List (String × Content)) (argConsts : String → Option ℕ) :
    List (String × String) :=
  Upsert.foldEntries Upsert.keepFirst
    ((calls.filterMap (constCall argConsts)).map fun c => (c.1, c.2.2))

/-- A tag of which some call feeds anything but a proven constant. -/
def isDynamic (calls : List (String × Content)) (argConsts : String → Option ℕ) (tag : String) :
    Bool :=
  calls.any fun call => call.1 = tag && (constCall argConsts call).isNone

variable {calls : List (String × Content)} {argConsts : String → Option ℕ} {tag : String}

theorem constCall_eq_some {call : String × Content} {c : String × ℕ × String}
    (h : constCall argConsts call = some c) :
    c.1 = call.1 ∧ call.2 = .arg c.2.2 ∧ argConsts c.2.2 = some c.2.1 := by
  obtain ⟨tag, content⟩ := call
  cases content with
  | dynamic => cases h
  | arg name =>
    rw [constCall, Option.map_eq_some_iff] at h
    obtain ⟨n, hn, rfl⟩ := h
    exact ⟨rfl, rfl, hn⟩

/-- What the index says of a tag. -/
theorem mem_collectTagConsts {n : ℕ} {src : String} :
    (tag, n, src) ∈ (collectTagConsts calls argConsts).byTag ↔
      isDynamic calls argConsts tag = false ∧
        SortedMap.get (constsOf calls argConsts) tag = some [n] ∧
        SortedMap.get (argSourceOf calls argConsts) tag = some src := by
  have hsorted := (Grouping.wellFormed_group
    ((calls.filterMap (constCall argConsts)).map fun c => (c.1, c.2.1))).1
  show (tag, n, src) ∈ (constsOf calls argConsts).filterMap _ ↔ _
  rw [List.mem_filterMap]
  constructor
  · intro h
    obtain ⟨⟨k, values⟩, hmem, hentry⟩ := h
    simp only at hentry
    split at hentry
    · cases hentry
    next hdynamic =>
    split at hentry
    · next hsource =>
      cases hentry
      exact ⟨Bool.not_eq_true _ ▸ hdynamic, SortedMap.get_of_mem hsorted hmem, hsource⟩
    · cases hentry
  · intro h
    obtain ⟨hdynamic, hvalues, hsource⟩ := h
    refine ⟨(tag, [n]), SortedMap.mem_of_get hvalues, ?_⟩
    simp only [isDynamic] at hdynamic
    simp only [argSourceOf] at hsource
    simp only [hdynamic, hsource]
    rfl

theorem mem_constPairs {n : ℕ} :
    (tag, n) ∈ (calls.filterMap (constCall argConsts)).map (fun c => (c.1, c.2.1)) ↔
      ∃ arg, (tag, Content.arg arg) ∈ calls ∧ argConsts arg = some n := by
  simp only [List.mem_map, List.mem_filterMap]
  constructor
  · intro h
    obtain ⟨c, ⟨call, hcall, hc⟩, heq⟩ := h
    cases heq
    obtain ⟨htag, harg, hn⟩ := constCall_eq_some hc
    refine ⟨c.2.2, ?_, hn⟩
    rw [htag, ← harg]
    exact hcall
  · intro h
    obtain ⟨arg, hcall, hn⟩ := h
    refine ⟨(tag, n, arg), ⟨_, hcall, ?_⟩, rfl⟩
    show (argConsts arg).map _ = _
    rw [hn, Option.map_some]

theorem isDynamic_eq_false :
    isDynamic calls argConsts tag = false ↔
      ∀ call ∈ calls, call.1 = tag → ∃ arg n, call.2 = .arg arg ∧ argConsts arg = some n := by
  rw [isDynamic, List.any_eq_false]
  refine forall₂_congr fun call hcall => ?_
  rw [Bool.and_eq_true, decide_eq_true_iff, not_and, Option.isNone_iff_eq_none]
  refine imp_congr_right fun htag => ?_
  constructor
  · intro hsome
    obtain ⟨c, hc⟩ := Option.ne_none_iff_exists'.mp hsome
    obtain ⟨_, harg, hn⟩ := constCall_eq_some hc
    exact ⟨_, _, harg, hn⟩
  · intro h hnone
    obtain ⟨arg, n, harg, hn⟩ := h
    rw [constCall, harg] at hnone
    simp [hn] at hnone

/-- A pinned tag is one that the index has constants of one length for. -/
theorem pinned_iff : Pinned defs tag ↔
    isDynamic (builderCalls defs) (collectArgConsts defs) tag = false ∧
      ∃ n, SortedMap.get (constsOf (builderCalls defs) (collectArgConsts defs)) tag = some [n] := by
  rw [isDynamic_eq_false]
  unfold constsOf
  simp only [Grouping.get_group_eq_singleton, mem_constPairs]
  constructor
  · intro h
    obtain ⟨⟨call, hcall, htag⟩, n, hall⟩ := h
    refine ⟨fun call hcall htag => ?_, n, fun y => ⟨fun hy => ?_, fun hy => ?_⟩⟩
    · obtain ⟨arg, harg, hn⟩ := hall call hcall htag
      exact ⟨arg, n, harg, hn⟩
    · obtain ⟨arg, hmem, hn⟩ := hy
      obtain ⟨arg', harg', hn'⟩ := hall _ hmem rfl
      cases harg'
      rw [hn] at hn'
      exact Option.some.inj hn'
    · subst hy
      obtain ⟨arg, harg, hn⟩ := hall call hcall htag
      refine ⟨arg, ?_, hn⟩
      rw [← htag, ← harg]
      exact hcall
  · intro h
    obtain ⟨hall, n, hn⟩ := h
    obtain ⟨arg, hmem, _⟩ := (hn n).mpr rfl
    refine ⟨⟨_, hmem, rfl⟩, n, fun call hcall htag => ?_⟩
    obtain ⟨arg', n', harg', hn'⟩ := hall call hcall htag
    have heq : n' = n := (hn n').mp ⟨arg', by rw [← htag, ← harg']; exact hcall, hn'⟩
    exact ⟨arg', harg', heq ▸ hn'⟩

/-- The source of a tag all of whose calls feed constants is the argument of the first call. -/
theorem get_argSourceOf : ∀ {calls : List (String × Content)},
    isDynamic calls argConsts tag = false →
    SortedMap.get (argSourceOf calls argConsts) tag =
      (calls.find? fun call => call.1 = tag).bind fun call => call.2.argument := by
  intro calls hconst
  rw [argSourceOf, Upsert.get_foldEntries, Upsert.foldEntry_keepFirst]
  induction calls with
  | nil => rfl
  | cons call calls ih =>
    rw [isDynamic, List.any_cons, Bool.or_eq_false_iff] at hconst
    rw [List.find?_cons]
    by_cases htag : call.1 = tag
    · rw [decide_eq_true htag, Bool.true_and, Option.isNone_eq_false_iff] at hconst
      obtain ⟨c, hc⟩ := Option.isSome_iff_exists.mp hconst.1
      obtain ⟨hkey, harg, _⟩ := constCall_eq_some hc
      rw [List.filterMap_cons, hc, List.map_cons, Upsert.ofKey, List.filterMap_cons,
        if_pos (hkey.trans htag), decide_eq_true htag]
      simp [harg, Content.argument]
    · have hrest := ih hconst.2
      rw [decide_eq_false htag]
      cases hc : constCall argConsts call with
      | none =>
        rw [List.filterMap_cons, hc]
        exact hrest
      | some c =>
        have hne : ¬c.1 = tag := fun heq => htag ((constCall_eq_some hc).1.symm.trans heq)
        rw [List.filterMap_cons, hc, List.map_cons, Upsert.ofKey, List.filterMap_cons, if_neg hne]
        exact hrest

/-! ### Sources -/

theorem firstArgument_eq (m : ModuleDefinition) (tag : String) :
    m.firstArgument tag =
      ((if m.mentionsBuilder && !m.panicked then m.builderCalls else []).find?
        fun call => call.1 = tag).bind fun call => call.2.argument := by
  unfold ModuleDefinition.firstArgument
  split
  · rfl
  · rfl

/-- The source of a pinned tag is the first argument of some module. -/
theorem source_mem (hnames : (defs.map ModuleDefinition.name).Nodup) (hpinned : Pinned defs tag)
    {src : String}
    (hsource : SortedMap.get (argSourceOf (builderCalls defs) (collectArgConsts defs)) tag =
      some src) :
    ∃ m ∈ defs, m.firstArgument tag = some src := by
  rw [get_argSourceOf (pinned_iff.mp hpinned).1, builderCalls, scanned_of_nodup hnames,
    List.find?_flatMap, Option.bind_eq_some_iff] at hsource
  obtain ⟨call, hcall, harg⟩ := hsource
  obtain ⟨m, hm, hfind⟩ := List.exists_of_findSome?_eq_some hcall
  refine ⟨m, hm, ?_⟩
  rw [firstArgument_eq, hfind]
  exact harg

/-- **The source of a pinned tag** is the argument of the first module that feeds it. -/
theorem source_of_pinned {m : ModuleDefinition} {rest : List ModuleDefinition} {src : String}
    (hnames : ((m :: rest).map ModuleDefinition.name).Nodup) (hpinned : Pinned (m :: rest) tag)
    (hfirst : m.firstArgument tag = some src) :
    SortedMap.get (argSourceOf (builderCalls (m :: rest)) (collectArgConsts (m :: rest))) tag =
      some src := by
  rw [firstArgument_eq, Option.bind_eq_some_iff] at hfirst
  obtain ⟨call, hcall, harg⟩ := hfirst
  rw [get_argSourceOf (pinned_iff.mp hpinned).1, builderCalls, scanned_of_nodup hnames,
    List.flatMap_cons, List.find?_append, hcall]
  exact harg

/-- A pinned tag has a source. -/
theorem exists_source (hpinned : Pinned defs tag) :
    ∃ src, SortedMap.get (argSourceOf (builderCalls defs) (collectArgConsts defs)) tag =
      some src := by
  rw [get_argSourceOf (pinned_iff.mp hpinned).1]
  obtain ⟨⟨call, hcall, htag⟩, n, hall⟩ := hpinned
  cases hfind : (builderCalls defs).find? fun call => call.1 = tag with
  | none => exact absurd (decide_eq_true htag) (List.find?_eq_none.mp hfind call hcall)
  | some first =>
    have hfirst := List.find?_some hfind
    rw [decide_eq_true_iff] at hfirst
    obtain ⟨arg, harg, _⟩ := hall first (List.mem_of_find?_eq_some hfind) hfirst
    exact ⟨arg, by rw [Option.bind_some, harg, Content.argument]⟩

theorem pinned_perm (h : defs'.Perm defs) (hnames : (defs.map ModuleDefinition.name).Nodup) :
    Pinned defs' tag ↔ Pinned defs tag := by
  have hcalls : ∀ call, call ∈ builderCalls defs' ↔ call ∈ builderCalls defs :=
    fun call => (builderCalls_perm h hnames).mem_iff
  unfold Pinned
  simp only [hcalls, collectArgConsts_perm h hnames]

/-- Two orders of a bundle have the same constants when they name the same sources. -/
theorem constValueIndex_eq (h : defs'.Perm defs) (hnames : (defs.map ModuleDefinition.name).Nodup)
    (hsources : ∀ tag, Pinned defs tag →
      SortedMap.get (argSourceOf (builderCalls defs') (collectArgConsts defs)) tag =
        SortedMap.get (argSourceOf (builderCalls defs) (collectArgConsts defs)) tag) :
    constValueIndex defs' = constValueIndex defs := by
  have hcalls := builderCalls_perm h hnames
  have hconsts : constsOf (builderCalls defs') (collectArgConsts defs) =
      constsOf (builderCalls defs) (collectArgConsts defs) :=
    Grouping.group_congr fun p => ((hcalls.filterMap _).map _).mem_iff
  have hdynamic : isDynamic (builderCalls defs') (collectArgConsts defs) =
      isDynamic (builderCalls defs) (collectArgConsts defs) := by
    funext tag
    exact hcalls.any_eq
  have hsorted := (Grouping.wellFormed_group (((builderCalls defs).filterMap
    (constCall (collectArgConsts defs))).map fun c => (c.1, c.2.1))).1
  show ConstValueIndex.ofSeen (constsOf (builderCalls defs') (collectArgConsts defs'))
    (isDynamic (builderCalls defs') (collectArgConsts defs'))
    (argSourceOf (builderCalls defs') (collectArgConsts defs')) =
    ConstValueIndex.ofSeen (constsOf (builderCalls defs) (collectArgConsts defs))
    (isDynamic (builderCalls defs) (collectArgConsts defs))
    (argSourceOf (builderCalls defs) (collectArgConsts defs))
  rw [collectArgConsts_perm h hnames, hconsts, hdynamic, ConstValueIndex.mk.injEq,
    ConstValueIndex.ofSeen, ConstValueIndex.ofSeen]
  refine List.filterMap_congr fun e he => ?_
  by_cases hd : isDynamic (builderCalls defs) (collectArgConsts defs) e.1 = true
  · rw [if_pos hd, if_pos hd]
  rw [if_neg hd, if_neg hd]
  cases hvalues : e.2 with
  | nil => rfl
  | cons n ns =>
    cases ns with
    | cons n' ns => rfl
    | nil =>
      have hget : SortedMap.get (constsOf (builderCalls defs) (collectArgConsts defs)) e.1 =
          some [n] := by
        rw [← hvalues]
        exact SortedMap.get_of_mem hsorted he
      have hpinned : Pinned defs e.1 :=
        pinned_iff.mpr ⟨Bool.eq_false_iff.mpr hd, n, hget⟩
      rw [hsources e.1 hpinned]

/-! ### Bundles in any order -/

/-- Nothing that the indexes say of a request depends on the order of the bundle. -/
def BundleOrderFree (defs : List ModuleDefinition) : Prop :=
  ∀ defs', defs'.Perm defs →
    contentLengthIndex defs' = contentLengthIndex defs ∧
    constValueIndex defs' = constValueIndex defs ∧
    ∀ fallback parent children,
      enrich (constValueIndex defs') (contentLengthIndex defs') fallback parent children =
        enrich (constValueIndex defs) (contentLengthIndex defs) fallback parent children

/-- A module that builds `<nonce>` through an argument of its own and pins it to one zero byte. -/
def nonceModule (name argument : String) : ModuleDefinition where
  name := name
  mentionsSizedContent := false
  sizedReads := []
  mentionsArgument := true
  mentionsBuilder := true
  panicked := false
  properties := [(argument, some 1)]
  builderCalls := [("nonce", .arg argument)]

end Whatspec.Scan

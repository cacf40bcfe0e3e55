import Whatspec.Proto.Moves

/-!
# Where every entity ends up

The pass carries its moves out by taking enums from the top level, grouping them by host and
handing each group to the message of that name.  `relocate_eq` says what comes of it when the
top-level names are distinct, as they are after `dedupTopLevel`: the entities that are not
moved, in their order, each `settle`d, which prefixes the values of a `Prefixed` enum, rewrites
the types in a message and nests the enums that arrive there.  Nothing is left over.
-/

namespace Whatspec.Proto

open Whatspec.Library

/-! ### One entity per name -/

theorem keepFirst_names {es : List ProtoEntity} (h : (es.map ProtoEntity.name).Pairwise (· ≤ ·))
    (last : Option String) (hlast : ∀ n ∈ last, ∀ e ∈ es, n ≤ e.name) :
    (∀ e ∈ keepFirst last es, e ∈ es) ∧
      (∀ n ∈ last, ∀ e ∈ keepFirst last es, n < e.name) ∧
        ((keepFirst last es).map ProtoEntity.name).Pairwise (· < ·) := by
  induction es generalizing last with
  | nil => exact ⟨fun e he => he, fun n _ e he => absurd he List.not_mem_nil, List.Pairwise.nil⟩
  | cons e es ih =>
      obtain ⟨hhead, htail⟩ := List.pairwise_cons.mp h
      have hle : ∀ f ∈ es, e.name ≤ f.name := fun f hf => hhead f.name (List.mem_map_of_mem hf)
      rw [keepFirst]
      by_cases hsame : last = some e.name
      · rw [if_pos hsame]
        obtain ⟨hsub, hlt, hsorted⟩ := ih htail last
          fun n hn f hf => hlast n hn f (List.mem_cons_of_mem e hf)
        exact ⟨fun f hf => List.mem_cons_of_mem e (hsub f hf), hlt, hsorted⟩
      · rw [if_neg hsame]
        obtain ⟨hsub, hlt, hsorted⟩ := ih htail (some e.name)
          fun n hn f hf => Option.mem_some_iff.mp hn ▸ hle f hf
        have habove : ∀ n ∈ last, n < e.name := fun n hn =>
          lt_of_le_of_ne (hlast n hn e List.mem_cons_self) fun heq => hsame (heq ▸ hn)
        refine ⟨fun f hf => ?_, fun n hn f hf => ?_, ?_⟩
        · cases List.mem_cons.mp hf with
          | inl heq => exact List.mem_cons.mpr (Or.inl heq)
          | inr hrest => exact List.mem_cons_of_mem e (hsub f hrest)
        · cases List.mem_cons.mp hf with
          | inl heq => exact heq ▸ habove n hn
          | inr hrest => exact (habove n hn).trans (hlt e.name rfl f hrest)
        · rw [List.map_cons]
          refine List.pairwise_cons.mpr ⟨fun m hm => ?_, hsorted⟩
          obtain ⟨f, hf, rfl⟩ := List.mem_map.mp hm
          exact hlt e.name rfl f hf

section Sorting

variable (printable : Char → Bool)

theorem sorted_insertionSort_names (es : List ProtoEntity) :
    ((es.insertionSort fun a b => sortKey printable a ≤ sortKey printable b).map
      ProtoEntity.name).Pairwise (· ≤ ·) := by
  have hsorted := List.pairwise_insertionSort
    (fun a b => sortKey printable a ≤ sortKey printable b) es
  refine List.pairwise_map.mpr (hsorted.imp fun hle => ?_)
  cases Prod.Lex.le_iff.mp hle with
  | inl hlt => exact le_of_lt hlt
  | inr heq => exact le_of_eq heq.1

/-- **After the pass every top-level name is there once.** -/
theorem nodup_dedupTopLevel (es : List ProtoEntity) :
    ((dedupTopLevel printable es).map ProtoEntity.name).Nodup := by
  have h := keepFirst_names (sorted_insertionSort_names printable es) none
    fun n hn => nomatch hn
  exact h.2.2.imp ne_of_lt

theorem mem_of_mem_dedupTopLevel {es : List ProtoEntity} {e : ProtoEntity}
    (h : e ∈ dedupTopLevel printable es) : e ∈ es := by
  have hsub := (keepFirst_names (sorted_insertionSort_names printable es) none
    fun n hn => nomatch hn).1 e h
  exact (List.mem_insertionSort _).mp hsub

/-- Nothing is dropped when the names were distinct. -/
theorem keepFirst_eq_self {es : List ProtoEntity} (last : Option String)
    (hnodup : (es.map ProtoEntity.name).Nodup) (hlast : ∀ e ∈ es, last ≠ some e.name) :
    keepFirst last es = es := by
  induction es generalizing last with
  | nil => rfl
  | cons e es ih =>
      obtain ⟨hnew, hrest⟩ := List.nodup_cons.mp hnodup
      rw [keepFirst, if_neg (hlast e List.mem_cons_self), ih (some e.name) hrest]
      intro f hf heq
      exact hnew (Option.some.inj heq ▸ List.mem_map_of_mem hf)

theorem perm_dedupTopLevel {es : List ProtoEntity} (hnodup : (es.map ProtoEntity.name).Nodup) :
    (dedupTopLevel printable es).Perm es := by
  have hperm := List.perm_insertionSort
    (fun a b => sortKey printable a ≤ sortKey printable b) es
  rw [dedupTopLevel, keepFirst_eq_self none]
  · exact hperm
  · exact (hperm.map ProtoEntity.name).nodup_iff.mpr hnodup
  · exact fun e _ h => nomatch h

end Sorting

theorem eq_of_name_eq {es : List ProtoEntity} (hnodup : (es.map ProtoEntity.name).Nodup)
    {e f : ProtoEntity} (he : e ∈ es) (hf : f ∈ es) (h : e.name = f.name) : e = f :=
  List.inj_on_of_nodup_map hnodup he hf h

/-! ### Rewriting a message -/

theorem rewriteNested_eq (qualified : List (String × String)) (es : List ProtoEntity) :
    rewriteNested qualified es = es.map (rewriteRefs qualified) := by
  induction es with
  | nil => rw [rewriteNested, List.map_nil]
  | cons e es ih => rw [rewriteNested, ih, List.map_cons]

@[simp] theorem name_rewriteRefs (qualified : List (String × String)) (e : ProtoEntity) :
    (rewriteRefs qualified e).name = e.name := by
  cases e with
  | message n ms es => rw [rewriteRefs, ProtoEntity.name_message, ProtoEntity.name_message]
  | enum e => rw [rewriteRefs]

/-- Nest declarations under a message. -/
def addNested (adds : List ProtoEntity) : ProtoEntity → ProtoEntity
  | .message n ms es => .message n ms (es ++ adds)
  | .enum e => .enum e

@[simp] theorem name_addNested (adds : List ProtoEntity) (e : ProtoEntity) :
    (addNested adds e).name = e.name := by
  cases e <;> rfl

@[simp] theorem addNested_nil (e : ProtoEntity) : addNested [] e = e := by
  cases e with
  | message n ms es => rw [addNested, List.append_nil]
  | enum e => rfl

@[simp] theorem name_prefixNamed (names : List String) (e : ProtoEntity) :
    (prefixNamed names e).name = e.name := by
  cases e with
  | message n ms nested => rfl
  | enum e =>
      rw [prefixNamed]
      by_cases h : e.name ∈ names
      · rw [if_pos h]
        rfl
      · rw [if_neg h]

section Plan

variable (es : List ProtoEntity)

/-- The qualified names the pass writes for enums with several referencers. -/
def qualifiedNames : List (String × String) := qualifiedMoves (referencers es) (moves es)

/-- Types are rewritten when some enum needs it. -/
def requalify (e : ProtoEntity) : ProtoEntity :=
  if qualifiedNames es = [] then e else rewriteRefs (qualifiedNames es) e

/-- The enums that arrive in a message, in the order of their moves. -/
def movedInto (host : String) : List ProtoEntity :=
  ((moves es).filter fun p => p.2 = host).filterMap fun p => SortedMap.get (takeEnums (moves es) es) p.1

/-- The enums that arrive in a message, by name. -/
def arrivals (host : String) : List ProtoEntity :=
  (movedInto es host).insertionSort fun a b => a.name ≤ b.name

/-- What becomes of an entity that is not moved. -/
def settle (e : ProtoEntity) : ProtoEntity :=
  addNested (arrivals es e.name) (requalify es (prefixNamed (prefixes es) e))

/-- Rewrite a member when some enum needs it. -/
def requalifyMember (m : ProtoMember) : ProtoMember :=
  if qualifiedNames es = [] then m else rewriteMember (qualifiedNames es) m

theorem requalify_message (n : String) (ms : List ProtoMember) (nested : List ProtoEntity) :
    requalify es (.message n ms nested) =
      .message n (ms.map (requalifyMember es)) (nested.map (requalify es)) := by
  unfold requalify requalifyMember
  by_cases h : qualifiedNames es = []
  · simp only [if_pos h, List.map_id']
  · simp only [if_neg h]
    rw [rewriteRefs, rewriteNested_eq]

theorem requalify_enum (e : ProtoEnum) : requalify es (.enum e) = .enum e := by
  unfold requalify
  by_cases h : qualifiedNames es = []
  · rw [if_pos h]
  · rw [if_neg h, rewriteRefs]

@[simp] theorem name_requalify (e : ProtoEntity) : (requalify es e).name = e.name := by
  unfold requalify
  by_cases h : qualifiedNames es = []
  · rw [if_pos h]
  · rw [if_neg h, name_rewriteRefs]

@[simp] theorem name_settle (e : ProtoEntity) : (settle es e).name = e.name := by
  rw [settle, name_addNested, name_requalify, name_prefixNamed]

end Plan

/-! ### Grouping by host and nesting -/

/-- What the groups hold after a list of moves. -/
theorem get_groupByHost (ms : List (String × String)) (hnodup : (ms.map Prod.fst).Nodup)
    (taken : List (String × ProtoEntity)) (byHost : List (String × List ProtoEntity))
    (h : String) :
    (SortedMap.get (groupByHost ms taken byHost) h).getD [] =
      (SortedMap.get byHost h).getD [] ++
        (ms.filter fun p => p.2 = h).filterMap fun p => SortedMap.get taken p.1 := by
  induction ms generalizing taken byHost with
  | nil =>
      rw [groupByHost]
      exact (List.append_nil _).symm
  | cons p ms ih =>
      obtain ⟨a, host⟩ := p
      obtain ⟨hnew, hrest⟩ := List.nodup_cons.mp hnodup
      rw [groupByHost, List.filter_cons]
      cases ha : SortedMap.get taken a with
      | none =>
          show (SortedMap.get (groupByHost ms taken byHost) h).getD [] = _
          rw [ih hrest]
          by_cases hh : host = h
          · rw [if_pos (decide_eq_true hh), List.filterMap_cons, ha]
          · rw [if_neg (by simpa using hh)]
      | some entity =>
          show (SortedMap.get (groupByHost ms (SortedMap.remove a taken)
            (SortedMap.insert host ((SortedMap.get byHost host).getD [] ++ [entity]) byHost))
              h).getD [] = _
          rw [ih hrest, SortedMap.get_insert]
          -- The later moves are of other enums, so what was taken for this one is not missed.
          have hlater : ((ms.filter fun p => p.2 = h).filterMap
              fun p => SortedMap.get (SortedMap.remove a taken) p.1) =
                (ms.filter fun p => p.2 = h).filterMap fun p => SortedMap.get taken p.1 := by
            refine List.filterMap_congr fun q hq => ?_
            rw [SortedMap.get_remove, if_neg]
            intro heq
            exact hnew (List.mem_map.mpr ⟨q, (List.mem_filter.mp hq).1, heq⟩)
          rw [hlater]
          by_cases hh : host = h
          · subst hh
            rw [if_pos rfl, if_pos (decide_eq_true rfl), List.filterMap_cons, ha,
              Option.getD_some, List.append_assoc]
            rfl
          · rw [if_neg (Ne.symm hh), if_neg (by simpa using hh)]

theorem sorted_groupByHost (ms : List (String × String)) (taken : List (String × ProtoEntity))
    {byHost : List (String × List ProtoEntity)} (h : SortedMap.Sorted byHost) :
    SortedMap.Sorted (groupByHost ms taken byHost) := by
  induction ms generalizing taken byHost with
  | nil => exact h
  | cons p ms ih =>
      obtain ⟨a, host⟩ := p
      rw [groupByHost]
      cases SortedMap.get taken a with
      | none => exact ih taken h
      | some entity => exact ih _ (SortedMap.sorted_insert _ _ h)

/-- Only hosts of moves have a group. -/
theorem host_of_get_groupByHost {ms : List (String × String)} {taken : List (String × ProtoEntity)}
    {byHost : List (String × List ProtoEntity)} {h : String} {adds : List ProtoEntity}
    (hget : SortedMap.get (groupByHost ms taken byHost) h = some adds) :
    h ∈ ms.map Prod.snd ∨ (SortedMap.get byHost h).isSome := by
  induction ms generalizing taken byHost with
  | nil => exact Or.inr (by rw [groupByHost] at hget; rw [hget]; rfl)
  | cons p ms ih =>
      obtain ⟨a, host⟩ := p
      rw [groupByHost] at hget
      cases ha : SortedMap.get taken a with
      | none =>
          rw [ha] at hget
          exact (ih hget).imp (List.mem_cons_of_mem _) id
      | some entity =>
          rw [ha] at hget
          cases ih hget with
          | inl hmem => exact Or.inl (List.mem_cons_of_mem _ hmem)
          | inr hsome =>
              rw [SortedMap.get_insert] at hsome
              by_cases hh : h = host
              · exact Or.inl (List.mem_cons.mpr (Or.inl hh))
              · rw [if_neg hh] at hsome
                exact Or.inr hsome

/-- The group of a message, sorted by name. -/
def groupOf (byHost : List (String × List ProtoEntity)) (name : String) : List ProtoEntity :=
  ((SortedMap.get byHost name).getD []).insertionSort fun a b => a.name ≤ b.name

/-- The name of a message and not of an enum. -/
def isMessageNamed (es : List ProtoEntity) (name : String) : Prop :=
  ∃ ms nested, ProtoEntity.message name ms nested ∈ es

theorem isMessageNamed_cons {e : ProtoEntity} {es : List ProtoEntity} {h : String}
    (hmsg : isMessageNamed (e :: es) h) :
    (∃ ms nested, e = .message h ms nested) ∨ isMessageNamed es h := by
  obtain ⟨ms, nested, hmem⟩ := hmsg
  cases List.mem_cons.mp hmem with
  | inl heq => exact Or.inl ⟨ms, nested, heq.symm⟩
  | inr hrest => exact Or.inr ⟨ms, nested, hrest⟩

/-- **Each message takes its group.** -/
theorem nestInHosts_fst {es : List ProtoEntity} (hnodup : (es.map ProtoEntity.name).Nodup)
    (byHost : List (String × List ProtoEntity)) :
    (nestInHosts es byHost).1 = es.map fun e => addNested (groupOf byHost e.name) e := by
  induction es generalizing byHost with
  | nil => rfl
  | cons e es ih =>
      obtain ⟨hnew, hrest⟩ := List.nodup_cons.mp hnodup
      cases e with
      | enum e =>
          rw [nestInHosts, List.map_cons]
          exact congrArg _ (ih hrest byHost)
      | message n ms nested =>
          rw [nestInHosts, List.map_cons]
          cases hget : SortedMap.get byHost n with
          | none =>
              have hgroup : groupOf byHost n = [] := by
                rw [groupOf, hget]
                rfl
              rw [ProtoEntity.name_message, hgroup, addNested_nil]
              exact congrArg _ (ih hrest byHost)
          | some adds =>
              have hgroup : groupOf byHost n = adds.insertionSort fun a b => a.name ≤ b.name := by
                rw [groupOf, hget]
                rfl
              rw [ProtoEntity.name_message, hgroup]
              show _ :: (nestInHosts es (SortedMap.remove n byHost)).1 = _
              rw [ih hrest, addNested]
              refine congrArg _ (List.map_congr_left fun f hf => ?_)
              have hne : f.name ≠ n := fun heq => hnew (List.mem_map.mpr ⟨f, hf, heq⟩)
              rw [groupOf, SortedMap.get_remove, if_neg hne, ← groupOf]

/-- **Only groups that no message takes are left.** -/
theorem nestInHosts_snd (es : List ProtoEntity) {byHost : List (String × List ProtoEntity)}
    (hsorted : SortedMap.Sorted byHost) :
    SortedMap.Sorted (nestInHosts es byHost).2 ∧
      ∀ h adds, SortedMap.get (nestInHosts es byHost).2 h = some adds →
        ¬ isMessageNamed es h ∧ SortedMap.get byHost h = some adds := by
  induction es generalizing byHost with
  | nil =>
      refine ⟨hsorted, fun h adds hget => ⟨fun hmsg => ?_, hget⟩⟩
      obtain ⟨ms, nested, hmem⟩ := hmsg
      exact List.not_mem_nil hmem
  | cons e es ih =>
      have hcons : ∀ h, ¬ isMessageNamed es h → (∀ ms nested, e ≠ .message h ms nested) →
          ¬ isMessageNamed (e :: es) h := by
        intro h hes he hmsg
        rcases isMessageNamed_cons hmsg with ⟨ms, nested, heq⟩ | hrest
        · exact he ms nested heq
        · exact hes hrest
      cases e with
      | enum e =>
          rw [nestInHosts]
          obtain ⟨hs, hleft⟩ := ih hsorted
          refine ⟨hs, fun h adds hget => ?_⟩
          obtain ⟨hes, hold⟩ := hleft h adds hget
          exact ⟨hcons h hes fun ms nested => ProtoEntity.noConfusion, hold⟩
      | message n ms nested =>
          rw [nestInHosts]
          cases hget : SortedMap.get byHost n with
          | none =>
              obtain ⟨hs, hleft⟩ := ih hsorted
              refine ⟨hs, fun h adds hh => ?_⟩
              obtain ⟨hes, hold⟩ := hleft h adds hh
              refine ⟨hcons h hes fun ms' nested' heq => ?_, hold⟩
              cases heq
              rw [hget] at hold
              cases hold
          | some group =>
              have hremoved : SortedMap.Sorted (SortedMap.remove n byHost) := hsorted.filter _
              obtain ⟨hs, hleft⟩ := ih hremoved
              refine ⟨hs, fun h adds hh => ?_⟩
              obtain ⟨hes, hold⟩ := hleft h adds hh
              rw [SortedMap.get_remove] at hold
              by_cases hhn : h = n
              · rw [if_pos hhn] at hold
                cases hold
              · rw [if_neg hhn] at hold
                exact ⟨hcons h hes fun ms' nested' heq => hhn (by cases heq; rfl), hold⟩

/-! ### The pass as a whole -/

theorem isMessageNamed_of_hostOf {es : List ProtoEntity} {a h : String}
    (hhost : hostOf (referencers es) a = some h) :
    isMessageNamed es h ∧ ∃ e ∈ es, e.name = h ∧ a ∈ collectRefs e := by
  have hmem : h ∈ Grouping.members (referencers es) a := List.mem_of_mem_head? hhost
  rw [referencers, Grouping.mem_members_group, List.mem_flatMap] at hmem
  obtain ⟨e, he, hpair⟩ := hmem
  obtain ⟨r, hr, heq⟩ := List.mem_map.mp hpair
  cases heq
  have href := SortedSet.mem_collect.mp hr
  cases e with
  | enum x =>
      rw [collectRefs] at href
      exact absurd href List.not_mem_nil
  | message n ms nested => exact ⟨⟨ms, nested, he⟩, _, he, rfl, href⟩

theorem name_filter_kept {es : List ProtoEntity} {f : ProtoEntity → ProtoEntity}
    (hname : ∀ e, (f e).name = e.name) (p : ProtoEntity → Bool)
    (hnodup : (es.map ProtoEntity.name).Nodup) :
    (((es.filter p).map f).map ProtoEntity.name).Nodup := by
  have hcomp : ProtoEntity.name ∘ f = ProtoEntity.name := funext hname
  rw [List.map_map, hcomp]
  exact hnodup.sublist ((List.filter_sublist (p := p)).map _)

/-- The entities that stay at the top level, with their own changes made. -/
def changedEntities (es : List ProtoEntity) : List ProtoEntity :=
  (es.filter fun e => !isEnumNamed ((moves es).map Prod.fst) e).map fun e =>
    requalify es (prefixNamed (prefixes es) e)

/-- The groups of the pass. -/
def groups (es : List ProtoEntity) : List (String × List ProtoEntity) :=
  groupByHost (moves es) (takeEnums (moves es) es) []

theorem map_requalify (es fs : List ProtoEntity) :
    (if qualifiedNames es = [] then fs else fs.map (rewriteRefs (qualifiedNames es))) =
      fs.map (requalify es) := by
  unfold requalify
  by_cases h : qualifiedNames es = []
  · simp only [if_pos h, List.map_id']
  · simp only [if_neg h]

/-- The changes as the pass makes them, one after the other. -/
theorem changedEntities_eq (es : List ProtoEntity) :
    changedEntities es =
      if qualifiedNames es = [] then
        (es.filter fun e => !isEnumNamed ((moves es).map Prod.fst) e).map (prefixNamed (prefixes es))
      else
        ((es.filter fun e => !isEnumNamed ((moves es).map Prod.fst) e).map
          (prefixNamed (prefixes es))).map (rewriteRefs (qualifiedNames es)) := by
  rw [map_requalify, List.map_map, changedEntities, Function.comp_def]

/-- Without a clash there is nothing to do. -/
theorem moves_eq_nil {es : List ProtoEntity} (h : clashGraph es = []) :
    moves es = [] ∧ prefixes es = [] := by
  have hcomps : componentsOf es = [] := by
    rw [componentsOf, h]
    rfl
  rw [moves, prefixes, hcomps]
  exact ⟨rfl, rfl⟩

/-- The pass without its shortcut for trees in which nothing clashes. -/
theorem relocate_unfold (order : HashOrder String) (es : List ProtoEntity) :
    relocateCollidingEnums order es =
      (nestInHosts (changedEntities es) (groups es)).1 ++
        (nestInHosts (changedEntities es) (groups es)).2.flatMap Prod.snd := by
  unfold relocateCollidingEnums
  rw [adjacency_order order HashOrder.increasing es]
  by_cases h : clashGraph es = []
  · obtain ⟨hmoves, hprefixes⟩ := moves_eq_nil h
    have hqualified : qualifiedNames es = [] := by
      rw [qualifiedNames, hmoves]
      rfl
    have happly : ∀ e, prefixNamed (prefixes es) e = e := by
      intro e
      cases e with
      | enum x => rw [prefixNamed, hprefixes, if_neg List.not_mem_nil]
      | message n ms nested => rfl
    have hchanged : changedEntities es = es := by
      have hkeep : ∀ e ∈ es, (!isEnumNamed [] e) = true := by
        intro e _
        cases e <;> simp [isEnumNamed]
      rw [changedEntities, hmoves, List.map_nil, List.filter_eq_self.mpr hkeep]
      simp only [requalify, hqualified, if_true, happly, List.map_id']
    have hgroups : groups es = [] := by
      rw [groups, hmoves, groupByHost]
    have hnest : ∀ fs : List ProtoEntity, nestInHosts fs [] = (fs, []) := by
      intro fs
      induction fs with
      | nil => rfl
      | cons f fs ih => cases f <;> simp [nestInHosts, ih]
    rw [hchanged, hgroups, hnest]
    exact (if_pos h).trans (List.append_nil es).symm
  · refine (if_neg h).trans ?_
    show carryOut (referencers es) (moves es) (prefixes es) es = _
    rw [carryOut, changedEntities_eq, groups, qualifiedNames]

/-- No group is without a message, so nothing is re-homed at the top level. -/
theorem nestInHosts_nothing_left (es : List ProtoEntity) :
    (nestInHosts (changedEntities es) (groups es)).2 = [] := by
  obtain ⟨hsorted, hleft⟩ := nestInHosts_snd (changedEntities es)
    (sorted_groupByHost (moves es) (takeEnums (moves es) es) List.Pairwise.nil)
  refine SortedMap.ext_of_sorted hsorted List.Pairwise.nil fun h => ?_
  cases hget : SortedMap.get (nestInHosts (changedEntities es) (groups es)).2 h with
  | none => rfl
  | some adds =>
      obtain ⟨hno, hgroup⟩ := hleft h adds hget
      have hhost := (host_of_get_groupByHost hgroup).resolve_right (by simp)
      obtain ⟨⟨a, h'⟩, hmove, rfl⟩ := List.mem_map.mp hhost
      obtain ⟨ms, nested, hmsg⟩ := (isMessageNamed_of_hostOf (mem_moves_iff.mp hmove).2).1
      refine absurd ?_ hno
      -- A message is neither moved nor turned into something else.
      have hkept : ProtoEntity.message h' ms nested ∈
          es.filter fun e => !isEnumNamed ((moves es).map Prod.fst) e :=
        List.mem_filter.mpr ⟨hmsg, rfl⟩
      have hchanged := List.mem_map_of_mem
        (f := fun e => requalify es (prefixNamed (prefixes es) e)) hkept
      rw [prefixNamed, requalify_message] at hchanged
      exact ⟨_, _, hchanged⟩

/-- **What the pass makes of entities with distinct names**: those it does not move, settled. -/
theorem relocate_eq (order : HashOrder String) {es : List ProtoEntity}
    (hnodup : (es.map ProtoEntity.name).Nodup) :
    relocateCollidingEnums order es =
      (es.filter fun e => !isEnumNamed ((moves es).map Prod.fst) e).map (settle es) := by
  have hnames : ((changedEntities es).map ProtoEntity.name).Nodup :=
    name_filter_kept (fun e => by rw [name_requalify, name_prefixNamed]) _ hnodup
  rw [relocate_unfold, nestInHosts_nothing_left, List.flatMap_nil, List.append_nil,
    nestInHosts_fst hnames, changedEntities, List.map_map]
  refine List.map_congr_left fun e _ => ?_
  rw [Function.comp_apply, name_requalify, name_prefixNamed, settle, groupOf, groups,
    get_groupByHost (moves es) (nodup_moves es), SortedMap.get_nil, Option.getD_none,
    List.nil_append, arrivals, movedInto]

/-! ### Who arrives where -/

section Arrivals

variable {es : List ProtoEntity} (hnodup : (es.map ProtoEntity.name).Nodup)

theorem isEnumNamed_iff {names : List String} {e : ProtoEntity} :
    isEnumNamed names e = true ↔ ∃ x : ProtoEnum, e = .enum x ∧ x.name ∈ names := by
  cases e with
  | message n ms nested =>
      refine ⟨(nomatch ·), fun h => ?_⟩
      obtain ⟨x, hx, _⟩ := h
      cases hx
  | enum x =>
      rw [isEnumNamed, decide_eq_true_iff]
      refine ⟨fun h => ⟨x, rfl, h⟩, fun h => ?_⟩
      obtain ⟨y, hy, hmem⟩ := h
      cases hy
      exact hmem

theorem mem_fst_moves {a : String} : a ∈ (moves es).map Prod.fst ↔ ∃ h, MovesTo es a h := by
  constructor
  · intro ha
    obtain ⟨⟨a', h⟩, hmem, rfl⟩ := List.mem_map.mp ha
    exact ⟨h, mem_moves_iff.mp hmem⟩
  · intro ha
    obtain ⟨h, hmoves⟩ := ha
    exact List.mem_map.mpr ⟨(a, h), mem_moves_iff.mpr hmoves, rfl⟩

include hnodup in
theorem get_takeEnums {a : String} {e : ProtoEntity} :
    SortedMap.get (takeEnums (moves es) es) a = some e ↔
      ∃ x : ProtoEnum, e = .enum x ∧ .enum x ∈ es ∧ x.name = a ∧ ∃ h, MovesTo es a h := by
  have hkeys : (((es.filter (isEnumNamed ((moves es).map Prod.fst))).map
      fun e => (e.name, e)).map Prod.fst).Nodup := by
    rw [List.map_map]
    exact hnodup.sublist ((List.filter_sublist (p := _)).map _)
  rw [takeEnums, SortedMap.get_collect hkeys, List.mem_map]
  constructor
  · intro h
    obtain ⟨e', he', heq⟩ := h
    cases heq
    obtain ⟨hmem, henum⟩ := List.mem_filter.mp he'
    obtain ⟨x, rfl, hx⟩ := isEnumNamed_iff.mp henum
    exact ⟨x, rfl, hmem, rfl, mem_fst_moves.mp hx⟩
  · intro h
    obtain ⟨x, rfl, hmem, hname, hmoves⟩ := h
    subst hname
    exact ⟨.enum x, List.mem_filter.mpr ⟨hmem, isEnumNamed_iff.mpr ⟨x, rfl, mem_fst_moves.mpr hmoves⟩⟩,
      rfl⟩

theorem movesTo_unique {a h h' : String} (hm : MovesTo es a h) (hm' : MovesTo es a h') : h = h' :=
  Option.some.inj (hm.2.symm.trans hm'.2)

include hnodup in
/-- **In a message arrive the enums that move to it, as they were.** -/
theorem mem_arrivals_iff {host : String} {e : ProtoEntity} :
    e ∈ arrivals es host ↔ ∃ x : ProtoEnum, e = .enum x ∧ .enum x ∈ es ∧ MovesTo es x.name host := by
  rw [arrivals, List.mem_insertionSort, movedInto, List.mem_filterMap]
  constructor
  · intro h
    obtain ⟨⟨a, h'⟩, hmem, hget⟩ := h
    obtain ⟨hmove, hhost⟩ := List.mem_filter.mp hmem
    obtain ⟨x, rfl, hx, hname, _⟩ := (get_takeEnums hnodup).mp hget
    obtain rfl : h' = host := of_decide_eq_true hhost
    exact ⟨x, rfl, hx, hname ▸ mem_moves_iff.mp hmove⟩
  · intro h
    obtain ⟨x, rfl, hx, hmoves⟩ := h
    exact ⟨(x.name, host), List.mem_filter.mpr ⟨mem_moves_iff.mpr hmoves, decide_eq_true rfl⟩,
      (get_takeEnums hnodup).mpr ⟨x, rfl, hx, rfl, host, hmoves⟩⟩

include hnodup in
theorem nodup_arrivals (host : String) : ((arrivals es host).map ProtoEntity.name).Nodup := by
  have hperm := (List.perm_insertionSort (fun a b => a.name ≤ b.name)
    (movedInto es host)).map ProtoEntity.name
  rw [arrivals, hperm.nodup_iff]
  have hnames : (movedInto es host).map ProtoEntity.name =
      ((moves es).filter fun p => p.2 = host).map Prod.fst := by
    rw [movedInto, List.map_filterMap, ← List.filterMap_eq_map]
    refine List.filterMap_congr fun p hp => ?_
    have hmoves : MovesTo es p.1 p.2 := mem_moves_iff.mp (List.mem_filter.mp hp).1
    obtain ⟨x, hx, hname⟩ := hmoves.1.exists_enum
    have hget := (get_takeEnums hnodup (e := .enum x)).mpr ⟨x, rfl, hx, hname, p.2, hmoves⟩
    rw [hget]
    exact congrArg some hname
  rw [hnames]
  exact (nodup_moves es).sublist ((List.filter_sublist (p := _)).map _)

/-- The qualified name of an enum: its host in front, when several messages reference it. -/
theorem get_qualifiedNames {a s : String} :
    SortedMap.get (qualifiedNames es) a = some s ↔
      ∃ h, MovesTo es a h ∧ 1 < refCount (referencers es) a ∧ s = h ++ "." ++ a := by
  have hkeys : ((((moves es).filter fun p => 1 < refCount (referencers es) p.1).map
      fun p => (p.1, p.2 ++ "." ++ p.1)).map Prod.fst).Nodup := by
    rw [List.map_map]
    exact (nodup_moves es).sublist ((List.filter_sublist (p := _)).map _)
  rw [qualifiedNames, qualifiedMoves, SortedMap.get_collect hkeys, List.mem_map]
  constructor
  · intro h
    obtain ⟨⟨a', h⟩, hmem, heq⟩ := h
    obtain ⟨hmove, hcount⟩ := List.mem_filter.mp hmem
    cases heq
    exact ⟨h, mem_moves_iff.mp hmove, of_decide_eq_true hcount, rfl⟩
  · intro h
    obtain ⟨h, hmoves, hcount, rfl⟩ := h
    exact ⟨(a, h), List.mem_filter.mpr ⟨mem_moves_iff.mpr hmoves, decide_eq_true hcount⟩, rfl⟩

end Arrivals

end Whatspec.Proto

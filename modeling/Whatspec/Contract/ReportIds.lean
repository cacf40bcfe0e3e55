import Whatspec.Contract.ChangeReport
import Whatspec.Contract.DiffPointers

/-!
# A review is of one change

The name of a change is the digest of its text, so that changes of one name are the same when the
digest has no collisions.  Within a report no two changes have the same name:

* `Change.mark` is where a change is: its paths, and its indices when it is of a group; the changes
  of one artifact have different marks (`nodup_marks_deltas`);
* `mark_eq_of_bound` reads the mark and the artifact back from the text;
* `Reviewing` is what holds while the reviews are applied one by one;
* **`report_reviews`**: every change of a report has a name of its own, and a recorded review is of
  the change it names and of no other.
-/

namespace Whatspec.Contract

open Whatspec.Library Whatspec.Text

variable {ν : Type}

/-! ### Where a change is -/

abbrev Mark := Option Path × Option Path × Option (List ℕ × List ℕ)

def Change.mark (c : Change ν) : Mark := (c.oldPath, c.newPath, c.indices)

theorem position_eq_of_mark {c d : Change ν} (h : c.mark = d.mark) : c.position = d.position := by
  obtain ⟨hold, hrest⟩ := Prod.ext_iff.mp h
  obtain ⟨hnew, -⟩ := Prod.ext_iff.mp hrest
  have hold : c.oldPath = d.oldPath := hold
  have hnew : c.newPath = d.newPath := hnew
  rw [Change.position, Change.position, hold, hnew]

theorem Belongs.congr {key : String} {c d : Change ν} (h : Belongs key c)
    (heq : c.position = d.position) : Belongs key d := by
  obtain ⟨s, hs, hc⟩ := h
  exact ⟨s, hs, heq ▸ hc⟩

theorem mark_under_inj (p q : Path) {c d : Change ν} (h : (c.under p q).mark = (d.under p q).mark) :
    c.mark = d.mark := by
  have hinj : ∀ r : Path, Function.Injective (Option.map (r ++ ·)) := fun r =>
    Option.map_injective fun _ _ => List.append_cancel_left
  simp only [Change.mark, Change.under, Prod.mk.injEq] at h ⊢
  exact ⟨hinj p h.1, hinj q h.2.1, h.2.2⟩

section Marks

variable [JsonNumber ν]

/-- **The changes between two values are at different places.** -/
theorem nodup_positions_walk (old new : Option (Json ν)) :
    ((walk old new [] []).map Change.position).Nodup := by
  induction old using WellFounded.induction (measure (fun v : Option (Json ν) => sizeOf v)).wf
    generalizing new with
  | _ old ih =>
    cases walkCase old new with
    | same h =>
      rw [h, walk_self]
      exact List.nodup_nil
    | leaf hne h =>
      rw [h]
      exact List.nodup_singleton _
    | objects a b hold hnew hne h =>
      subst hold hnew
      rw [walk_objects hne]
      refine nodup_map_flatMap (keysOf_nodup a b) (fun key _ => ?_) ?_
      · rw [List.map_map]
        refine nodup_map_of_nodup_map (ih _ (sizeOf_get_lt a key) _) fun c _ d _ heq => ?_
        rw [Function.comp_apply, Function.comp_apply, Change.position_under,
          Change.position_under] at heq
        exact Option.map_injective (fun _ _ => List.append_cancel_left) heq
      · intro key _ key' _ c hc d hd heq
        have hbelongs := (belongs_of_walk _ _ key c hc key).mpr rfl
        exact (belongs_of_walk _ _ key' d hd key).mp (hbelongs.congr heq)

theorem nodup_marks_walk (old new : Option (Json ν)) (p q : Path) :
    ((walk old new p q).map Change.mark).Nodup := by
  rw [walk_eq, List.map_map]
  refine nodup_map_of_nodup_map (nodup_positions_walk old new) fun c _ d _ heq => ?_
  exact position_eq_of_mark (mark_under_inj p q heq)

/-- Where a change of a group is: in the item of the old array, or else of the new one, or in all
the items of the identity. -/
inductive GroupMark (path : Path) (o n : List (ℕ × Json ν)) (c : Change ν) : Prop
  | old {i : ℕ} {v : Json ν} {s : Path} (hmem : (i, v) ∈ o) (hs : Sub s)
      (hold : c.oldPath = some (path ++ '/' :: Nat.toDigits 10 i ++ s)) (hindices : c.indices = none)
  | new {i : ℕ} {v : Json ν} {s : Path} (hmem : (i, v) ∈ n) (hs : Sub s) (hold : c.oldPath = none)
      (hnew : c.newPath = some (path ++ '/' :: Nat.toDigits 10 i ++ s)) (hindices : c.indices = none)
  | items (hne : o ≠ [] ∨ n ≠ [])
      (hindices : c.indices = some (o.map Prod.fst, n.map Prod.fst))

theorem noIndices_walk (old new : Option (Json ν)) :
    ∀ c ∈ walk old new [] [], c.indices = none := by
  induction old using WellFounded.induction (measure (fun v : Option (Json ν) => sizeOf v)).wf
    generalizing new with
  | _ old ih =>
    cases walkCase old new with
    | same h =>
      rw [h, walk_self]
      exact fun _ hc => nomatch hc
    | leaf hne h =>
      rw [h]
      refine List.forall_mem_singleton.mpr ?_
      unfold leafChange
      split <;> rfl
    | objects a b hold hnew hne h =>
      subst hold hnew
      rw [walk_objects hne]
      intro c hc
      obtain ⟨key, -, hc⟩ := List.mem_flatMap.mp hc
      obtain ⟨d, hd, rfl⟩ := List.mem_map.mp hc
      exact ih _ (sizeOf_get_lt a key) _ d hd

theorem groupMark (path : Path) (o n : List (ℕ × Json ν)) :
    ∀ c ∈ groupChanges path o n, GroupMark path o n c := by
  intro c hc
  rw [groupChanges] at hc
  split_ifs at hc with hsingle hsame
  · rw [walk_eq] at hc
    obtain ⟨d, hd, rfl⟩ := List.mem_map.mp hc
    have hplain := walk_plain _ _ d hd
    have hindices := noIndices_walk _ _ d hd
    cases hold : d.oldPath with
    | some s =>
      have hsub := hplain.sub_oldPath hold
      cases o with
      | nil =>
        rw [walk_none_oldPath _ d hd] at hold
        cases hold
      | cons p rest =>
        refine .old List.mem_cons_self hsub ?_ hindices
        rw [Change.under, hold]
        rfl
    | none =>
      obtain ⟨s, hs, hsub⟩ := hplain.position
      rw [Change.position, hold, Option.none_or] at hs
      cases n with
      | nil =>
        rw [walk_none_newPath _ d hd] at hs
        cases hs
      | cons p rest =>
        refine .new List.mem_cons_self hsub ?_ ?_ hindices
        · rw [Change.under, hold]
          rfl
        · rw [Change.under, hs]
          rfl
  · exact absurd hc List.not_mem_nil
  · obtain rfl := List.mem_singleton.mp hc
    refine .items ?_ rfl
    by_contra hempty
    rw [not_or, not_not, not_not] at hempty
    rw [hempty.1, hempty.2] at hsame
    exact hsame rfl

/-- An index is in the group of one identity. -/
theorem identity_of_index {keys : List String} {xs : List (Json ν)} {m : KeyedItems ν}
    (h : keyedFrom keys xs 0 [] = some m) {identity identity' : String} {i : ℕ} {v v' : Json ν}
    (hmem : (i, v) ∈ group m identity) (hmem' : (i, v') ∈ group m identity') :
    identity = identity' := by
  obtain ⟨hv, hidentity⟩ := (mem_group h identity (i, v)).mp hmem
  obtain ⟨hv', hidentity'⟩ := (mem_group h identity' (i, v')).mp hmem'
  rw [Option.some.inj (hv.symm.trans hv')] at hidentity
  exact Option.some.inj (hidentity.symm.trans hidentity')

/-- The index in a path. -/
theorem index_of_path {path s t : Path} {i j : ℕ} (hs : Sub s) (ht : Sub t)
    (h : path ++ '/' :: Nat.toDigits 10 i ++ s = path ++ '/' :: Nat.toDigits 10 j ++ t) : i = j := by
  rw [List.append_assoc, List.append_assoc] at h
  have hrest := (List.cons.inj (List.append_cancel_left h)).2
  exact Rendering.toDigits_injective (by decide) (by decide)
    (part_append_inj (digits_ne_slash i) (digits_ne_slash j) hs ht hrest).1

/-- The indices of a group that are those of another. -/
theorem identity_of_indices {keys : List String} {xs : List (Json ν)} {m : KeyedItems ν}
    (h : keyedFrom keys xs 0 [] = some m) {identity identity' : String}
    (hne : group m identity ≠ [])
    (heq : (group m identity).map Prod.fst = (group m identity').map Prod.fst) :
    identity = identity' := by
  obtain ⟨⟨i, v⟩, rest, hgroup⟩ := List.exists_cons_of_ne_nil hne
  have hmem : (i, v) ∈ group m identity := hgroup ▸ List.mem_cons_self
  obtain ⟨⟨j, w⟩, hmem', rfl⟩ := List.mem_map.mp (heq ▸ List.mem_map_of_mem (f := Prod.fst) hmem)
  exact identity_of_index h hmem hmem'

/-- **A mark tells the identity of its group.** -/
theorem identity_of_mark {keys : List String} {xs ys : List (Json ν)} {o n : KeyedItems ν}
    (ho : keyedFrom keys xs 0 [] = some o) (hn : keyedFrom keys ys 0 [] = some n) {path : Path}
    {identity identity' : String} {c d : Change ν}
    (hc : GroupMark path (group o identity) (group n identity) c)
    (hd : GroupMark path (group o identity') (group n identity') d) (h : c.mark = d.mark) :
    identity = identity' := by
  simp only [Change.mark, Prod.mk.injEq] at h
  obtain ⟨hold, hnew, hindices⟩ := h
  cases hc with
  | old hmem hs hcold hcindices =>
    cases hd with
    | old hmem' hs' hdold _ =>
      rw [hcold, hdold] at hold
      obtain rfl := index_of_path hs hs' (Option.some.inj hold)
      exact identity_of_index ho hmem hmem'
    | new _ _ hdold _ _ =>
      rw [hcold, hdold] at hold
      cases hold
    | items _ hdindices =>
      rw [hcindices, hdindices] at hindices
      cases hindices
  | new hmem hs hcold hcnew hcindices =>
    cases hd with
    | old _ _ hdold _ =>
      rw [hcold, hdold] at hold
      cases hold
    | new hmem' hs' _ hdnew _ =>
      rw [hcnew, hdnew] at hnew
      obtain rfl := index_of_path hs hs' (Option.some.inj hnew)
      exact identity_of_index hn hmem hmem'
    | items _ hdindices =>
      rw [hcindices, hdindices] at hindices
      cases hindices
  | items hne hcindices =>
    cases hd with
    | old _ _ _ hdindices =>
      rw [hcindices, hdindices] at hindices
      cases hindices
    | new _ _ _ _ hdindices =>
      rw [hcindices, hdindices] at hindices
      cases hindices
    | items _ hdindices =>
      rw [hcindices, hdindices] at hindices
      obtain ⟨holds, hnews⟩ := Prod.ext_iff.mp (Option.some.inj hindices)
      obtain hne | hne := hne
      · exact identity_of_indices ho hne holds
      · exact identity_of_indices hn hne hnews

theorem nodup_marks_groupDiff (path : Path) (identity : String) (o n : List (ℕ × Json ν)) :
    ((groupDiff path identity o n).map Change.mark).Nodup := by
  have hsame : (groupDiff path identity o n).map Change.mark =
      (groupChanges path o n).map Change.mark := by
    rw [groupDiff, List.map_map]
    rfl
  rw [hsame, groupChanges]
  split_ifs
  · exact nodup_marks_walk _ _ _ _
  · exact List.nodup_nil
  · exact List.nodup_singleton _

theorem nodup_marks_collectionDiff (domain collection : String) (old new : Option (Json ν)) :
    ((collectionDiff domain collection old new).map Change.mark).Nodup := by
  rw [collectionDiff]
  cases hpair : keyedPair domain collection old new with
  | none =>
    have hnote : Change.mark ∘ note domain collection = Change.mark (ν := ν) := by
      funext c
      rw [Function.comp_apply, note]
      split_ifs <;> rfl
    dsimp only
    rw [List.map_map, hnote]
    exact nodup_marks_walk _ _ _ _
  | some p =>
    obtain ⟨o, n⟩ := p
    obtain ⟨keys, xs, ys, -, -, -, ho, hn⟩ := keyedPair_eq_some hpair
    refine nodup_map_flatMap (keysOf_nodup o n) (fun identity _ => nodup_marks_groupDiff _ _ _ _) ?_
    intro identity _ identity' _ c hc d hd h
    obtain ⟨c', hc', rfl⟩ := List.mem_map.mp hc
    obtain ⟨d', hd', rfl⟩ := List.mem_map.mp hd
    exact identity_of_mark ho hn (groupMark _ _ _ c' hc') (groupMark _ _ _ d' hd') h

theorem nodup_marks_documentDiff (domain : String) (old new : Json ν) :
    ((documentDiff domain old new).map Change.mark).Nodup := by
  cases documentCase domain old new with
  | values _ hdiff _ =>
    rw [hdiff]
    exact nodup_marks_walk _ _ _ _
  | objects a b hold hnew =>
    subst hold hnew
    show (((keysOf a b).flatMap (comparedDiff domain a b)).map Change.mark).Nodup
    refine nodup_map_flatMap (keysOf_nodup a b) (fun collection _ => ?_) ?_
    · rw [comparedDiff]
      split_ifs
      · exact List.nodup_nil
      · exact nodup_marks_collectionDiff _ _ _ _
    · intro collection _ collection' _ c hc d hd h
      have hbelongs := (belongs_of_comparedDiff domain a b collection c hc collection).mpr rfl
      exact (belongs_of_comparedDiff domain a b collection' d hd collection).mp
        (hbelongs.congr (position_eq_of_mark h))

end Marks

variable [JsonNaturals ν]

/-- **The changes of one artifact are at different places.** -/
theorem nodup_marks_deltas (isSchema : Bool) (domain : String) (a b : Option (Artifact ν)) :
    ((deltas isSchema domain a b).map Change.mark).Nodup := by
  rw [deltas.eq_def]
  split
  · exact nodup_marks_documentDiff _ _ _
  · exact nodup_marks_walk _ _ _ _

/-! ### The text of a change -/

omit [JsonNaturals ν] in
theorem mem_fieldIfAny {key k : String} {v : Option (Json ν)} {w : Json ν} :
    (k, w) ∈ fieldIfAny key v ↔ k = key ∧ v = some w := by
  cases v with
  | none => simp [fieldIfAny]
  | some v => simp [fieldIfAny, eq_comm]

theorem mem_indexFields {k : String} {indices : Option (List ℕ × List ℕ)} {w : Json ν} :
    (k, w) ∈ indexFields indices ↔ ∃ old new, indices = some (old, new) ∧
      (k = "oldIndices" ∧ w = .array (old.map natural) ∨
        k = "newIndices" ∧ w = .array (new.map natural)) := by
  cases indices with
  | none => simp [indexFields]
  | some indices =>
    obtain ⟨old, new⟩ := indices
    simp [indexFields]

/-- The keys a bound change may have. -/
def boundKeys : List String :=
  ["oldPath", "newPath", "kind", "before", "after", "oldIndices", "newIndices",
    "identityDiagnostic", "identity", "domain", "oldSource", "newSource", "oldArtifactSha256",
    "newArtifactSha256", "oldDeclaredSetHash", "newDeclaredSetHash", "inputBinding",
    "artifactKind"]

omit [JsonNaturals ν] in
theorem fieldIfAny_sublist (key : String) (v : Option (Json ν)) :
    ((fieldIfAny key v).map Prod.fst).Sublist [key] := by
  cases v with
  | none => exact List.nil_sublist _
  | some v => exact List.Sublist.refl _

theorem indexFields_sublist (indices : Option (List ℕ × List ℕ)) :
    ((indexFields indices : List (String × Json ν)).map Prod.fst).Sublist
      ["oldIndices", "newIndices"] := by
  cases indices with
  | none => exact List.nil_sublist _
  | some indices => exact List.Sublist.refl _

/-- No key comes twice. -/
theorem nodup_bound_keys (parse : String → Json ν) (o : Origin ν) (c : Change ν) :
    ((c.fields parse ++ o.fields c).map Prod.fst).Nodup := by
  have hkeys : boundKeys.Nodup := by decide
  refine hkeys.sublist ?_
  simp only [Change.fields, Origin.fields, List.map_append]
  have hchange := ((List.Sublist.refl ["oldPath", "newPath", "kind", "before", "after"]).append
    (indexFields_sublist (ν := ν) c.indices)).append
    (fieldIfAny_sublist "identityDiagnostic" (c.identityDiagnostic.map (Json.string (ν := ν))))
  have horigin := (List.Sublist.refl ["domain", "oldSource", "newSource", "oldArtifactSha256",
    "newArtifactSha256", "oldDeclaredSetHash", "newDeclaredSetHash", "inputBinding"]).append
    (fieldIfAny_sublist "artifactKind"
      (if o.isSchema then some (Json.string (ν := ν) "schema") else none))
  exact (hchange.append (fieldIfAny_sublist "identity" (c.identity.map parse))).append horigin

/-- The fields of a bound change are read back from it. -/
theorem mem_fields_of_bound {parse : String → Json ν} {o o' : Origin ν} {c c' : Change ν}
    (h : bound parse o c = bound parse o' c') (e : String × Json ν) :
    e ∈ c.fields parse ++ o.fields c ↔ e ∈ c'.fields parse ++ o'.fields c' := by
  have hcollect : SortedMap.collect (c.fields parse ++ o.fields c) =
      SortedMap.collect (c'.fields parse ++ o'.fields c') := Json.object.inj h
  rw [← SortedMap.get_collect (nodup_bound_keys parse o c) e.1 e.2, hcollect,
    SortedMap.get_collect (nodup_bound_keys parse o' c') e.1 e.2]

theorem mem_fields_oldPath {parse : String → Json ν} {o : Origin ν} {c : Change ν} {v : Json ν} :
    ("oldPath", v) ∈ c.fields parse ++ o.fields c ↔ v = pathValue c.oldPath := by
  simp [Change.fields, Origin.fields, mem_fieldIfAny, mem_indexFields]

theorem mem_fields_newPath {parse : String → Json ν} {o : Origin ν} {c : Change ν} {v : Json ν} :
    ("newPath", v) ∈ c.fields parse ++ o.fields c ↔ v = pathValue c.newPath := by
  simp [Change.fields, Origin.fields, mem_fieldIfAny, mem_indexFields]

theorem mem_fields_domain {parse : String → Json ν} {o : Origin ν} {c : Change ν} {v : Json ν} :
    ("domain", v) ∈ c.fields parse ++ o.fields c ↔ v = .string o.domain := by
  simp [Change.fields, Origin.fields, mem_fieldIfAny, mem_indexFields]

theorem mem_fields_artifactKind {parse : String → Json ν} {o : Origin ν} {c : Change ν} :
    ("artifactKind", .string "schema") ∈ c.fields parse ++ o.fields c ↔ o.isSchema = true := by
  simp [Change.fields, Origin.fields, mem_fieldIfAny, mem_indexFields]

theorem mem_fields_oldIndices {parse : String → Json ν} {o : Origin ν} {c : Change ν}
    {v : Json ν} : ("oldIndices", v) ∈ c.fields parse ++ o.fields c ↔
      ∃ old new, c.indices = some (old, new) ∧ v = .array (old.map natural) := by
  simp [Change.fields, Origin.fields, mem_fieldIfAny, mem_indexFields]

theorem mem_fields_newIndices {parse : String → Json ν} {o : Origin ν} {c : Change ν}
    {v : Json ν} : ("newIndices", v) ∈ c.fields parse ++ o.fields c ↔
      ∃ old new, c.indices = some (old, new) ∧ v = .array (new.map natural) := by
  simp [Change.fields, Origin.fields, mem_fieldIfAny, mem_indexFields]

omit [JsonNaturals ν] in
theorem pathValue_injective : Function.Injective (pathValue : Option Path → Json ν) := by
  intro p q h
  cases p with
  | none =>
    cases q with
    | none => rfl
    | some q => cases h
  | some p =>
    cases q with
    | none => cases h
    | some q => rw [String.ofList_injective (Json.string.inj h)]

theorem naturals_injective {xs ys : List ℕ}
    (h : (Json.array (xs.map natural) : Json ν) = .array (ys.map natural)) : xs = ys := by
  have hnatural : Function.Injective (natural : ℕ → Json ν) := by
    intro m n hmn
    have htext := congrArg JsonNumber.text (Json.number.inj hmn)
    rw [JsonNaturals.text_natural, JsonNaturals.text_natural] at htext
    exact Rendering.toDigits_injective (by decide) (by decide) htext
  exact List.map_injective_iff.mpr hnatural (Json.array.inj h)

/-- **The text of a bound change tells where it is**, and in which artifact. -/
theorem mark_eq_of_bound {parse : String → Json ν} {o o' : Origin ν} {c c' : Change ν}
    (h : bound parse o c = bound parse o' c') :
    o.isSchema = o'.isSchema ∧ o.domain = o'.domain ∧ c.mark = c'.mark := by
  have hmem := mem_fields_of_bound h
  have hold := mem_fields_oldPath.mp ((hmem _).mp (mem_fields_oldPath.mpr rfl))
  have hnew := mem_fields_newPath.mp ((hmem _).mp (mem_fields_newPath.mpr rfl))
  have hdomain := mem_fields_domain.mp ((hmem _).mp (mem_fields_domain.mpr rfl))
  have hschema : o.isSchema = true ↔ o'.isSchema = true := by
    rw [← mem_fields_artifactKind, hmem, mem_fields_artifactKind]
  have hindices : c.indices = c'.indices := by
    cases hc : c.indices with
    | none =>
      cases hc' : c'.indices with
      | none => rfl
      | some indices =>
        obtain ⟨old, new⟩ := indices
        obtain ⟨_, _, hsome, -⟩ := mem_fields_oldIndices.mp
          ((hmem _).mpr (mem_fields_oldIndices.mpr ⟨old, new, hc', rfl⟩))
        rw [hc] at hsome
        cases hsome
    | some indices =>
      obtain ⟨old, new⟩ := indices
      obtain ⟨old', new', hc', holds⟩ := mem_fields_oldIndices.mp
        ((hmem _).mp (mem_fields_oldIndices.mpr ⟨old, new, hc, rfl⟩))
      obtain ⟨old'', new'', hc'', hnews⟩ := mem_fields_newIndices.mp
        ((hmem _).mp (mem_fields_newIndices.mpr ⟨old, new, hc, rfl⟩))
      rw [hc'] at hc''
      cases hc''
      rw [hc', naturals_injective holds, naturals_injective hnews]
  refine ⟨Bool.eq_iff_iff.mpr hschema, Json.string.inj hdomain, ?_⟩
  rw [Change.mark, Change.mark, pathValue_injective hold, pathValue_injective hnew, hindices]

/-! ### Names -/

theorem changeId_injective {digest : List UInt8 → List UInt8}
    (hdigest : Function.Injective digest) : Function.Injective (changeId (ν := ν) digest) :=
  fun _ _ h => Json.text_injective
    (String.ofList_injective (utf8_injective (sha256Hex_injective hdigest h)))

section Names

variable {digest : List UInt8 → List UInt8} (hdigest : Function.Injective digest)
  (parse : String → Json ν) (old new : Snapshot ν)

/-- The name of a change is that of what it is bound to. -/
theorem id_of_mem_reportedChanges (digest : List UInt8 → List UInt8) :
    ∀ c ∈ reportedChanges digest parse old new, c.id = changeId digest c.bound := by
  have hchanges : ∀ isSchema, ∀ c ∈ changesOf digest parse old new isSchema,
      c.id = changeId digest c.bound := by
    intro isSchema c hc
    obtain ⟨domain, -, hc⟩ := List.mem_flatMap.mp hc
    obtain ⟨d, -, rfl⟩ := List.mem_map.mp hc
    rfl
  intro c hc
  obtain hc | hc := List.mem_append.mp hc
  · exact hchanges false c hc
  · exact hchanges true c hc

theorem unreviewed_of_mem_reportedChanges (digest : List UInt8 → List UInt8) :
    ∀ c ∈ reportedChanges digest parse old new, c.assessment = .unreviewed := by
  intro c hc
  obtain hc | hc := List.mem_append.mp hc <;>
    obtain ⟨domain, -, hc⟩ := List.mem_flatMap.mp hc <;>
    obtain ⟨d, -, rfl⟩ := List.mem_map.mp hc <;> rfl

include hdigest

theorem nodup_ids_changesOf (isSchema : Bool) :
    ((changesOf digest parse old new isSchema).map ReportedChange.id).Nodup := by
  have hkeys : (if isSchema then keysOf old.schemas new.schemas
      else keysOf old.files new.files).Nodup := by
    split_ifs <;> exact keysOf_nodup _ _
  refine nodup_map_flatMap hkeys (fun domain _ => ?_) ?_
  · rw [List.map_map]
    refine nodup_map_of_nodup_map (nodup_marks_deltas _ _ _ _) fun c _ d _ heq => ?_
    have hbound := changeId_injective (ν := ν) hdigest heq
    exact (mark_eq_of_bound hbound).2.2
  · intro domain _ domain' _ c hc d hd heq
    obtain ⟨c', -, rfl⟩ := List.mem_map.mp hc
    obtain ⟨d', -, rfl⟩ := List.mem_map.mp hd
    exact (mark_eq_of_bound (changeId_injective hdigest heq)).2.1

/-- **No two changes of a report have the same name.** -/
theorem nodup_ids_reportedChanges :
    ((reportedChanges digest parse old new).map ReportedChange.id).Nodup := by
  rw [reportedChanges, List.map_append, List.nodup_append]
  refine ⟨nodup_ids_changesOf hdigest parse old new false,
    nodup_ids_changesOf hdigest parse old new true, ?_⟩
  rintro _ hid _ hid' rfl
  obtain ⟨c, hc, rfl⟩ := List.mem_map.mp hid
  obtain ⟨d, hd, heq⟩ := List.mem_map.mp hid'
  obtain ⟨domain, -, hc⟩ := List.mem_flatMap.mp hc
  obtain ⟨domain', -, hd⟩ := List.mem_flatMap.mp hd
  obtain ⟨c', -, rfl⟩ := List.mem_map.mp hc
  obtain ⟨d', -, rfl⟩ := List.mem_map.mp hd
  have hschema := (mark_eq_of_bound (changeId_injective hdigest heq)).1
  cases hschema

end Names

/-! ### Reviews -/

/-- An entry is a review of the change it names. -/
def Reviews (entry : Json ν) (c : ReportedChange ν) : Prop :=
  asString (index entry "id") = some c.id

/-- What a review leaves as it is. -/
def ReportedChange.named (c : ReportedChange ν) : Json ν × String := (c.bound, c.id)

omit [JsonNaturals ν] in
theorem map_named_assess (id : String) (assessment : Assessment) :
    ∀ changes : List (ReportedChange ν),
      (assess id assessment changes).map ReportedChange.named = changes.map ReportedChange.named
  | [] => rfl
  | c :: rest => by
    rw [assess]
    split_ifs
    · rfl
    · rw [List.map_cons, List.map_cons, map_named_assess id assessment rest]

omit [JsonNaturals ν] in
theorem map_id_of_named {changes changes' : List (ReportedChange ν)}
    (h : changes.map ReportedChange.named = changes'.map ReportedChange.named) :
    changes.map ReportedChange.id = changes'.map ReportedChange.id := by
  have hid := congrArg (List.map Prod.snd) h
  rw [List.map_map, List.map_map] at hid
  exact hid

omit [JsonNaturals ν] in
/-- **An assessment is put in the change of its name**, and in no other. -/
theorem mem_assess {id : String} {assessment : Assessment} {c : ReportedChange ν} :
    ∀ {changes : List (ReportedChange ν)}, (changes.map ReportedChange.id).Nodup →
      (c ∈ assess id assessment changes ↔ c ∈ changes ∧ c.id ≠ id ∨
        ∃ d ∈ changes, d.id = id ∧ c = { d with assessment })
  | [], _ => by simp [assess]
  | d :: rest, hnodup => by
    obtain ⟨hnew, hrest⟩ := List.nodup_cons.mp hnodup
    rw [assess]
    split_ifs with hid
    · have hother : ∀ e ∈ rest, e.id ≠ id := fun e he heq =>
        hnew (List.mem_map.mpr ⟨e, he, heq.trans hid.symm⟩)
      rw [List.mem_cons]
      constructor
      · rintro (rfl | hc)
        · exact Or.inr ⟨d, List.mem_cons_self, hid, rfl⟩
        · exact Or.inl ⟨List.mem_cons_of_mem _ hc, hother c hc⟩
      · rintro (⟨hc, hne⟩ | ⟨e, he, heid, rfl⟩)
        · obtain rfl | hc := List.mem_cons.mp hc
          · exact absurd hid hne
          · exact Or.inr hc
        · obtain rfl | he := List.mem_cons.mp he
          · exact Or.inl rfl
          · exact absurd heid (hother e he)
    · rw [List.mem_cons, mem_assess hrest]
      constructor
      · rintro (rfl | ⟨hc, hne⟩ | ⟨e, he, heid, rfl⟩)
        · exact Or.inl ⟨List.mem_cons_self, hid⟩
        · exact Or.inl ⟨List.mem_cons_of_mem _ hc, hne⟩
        · exact Or.inr ⟨e, List.mem_cons_of_mem _ he, heid, rfl⟩
      · rintro (⟨hc, hne⟩ | ⟨e, he, heid, rfl⟩)
        · obtain rfl | hc := List.mem_cons.mp hc
          · exact Or.inl rfl
          · exact Or.inr (Or.inl ⟨hc, hne⟩)
        · obtain rfl | he := List.mem_cons.mp he
          · exact absurd heid hid
          · exact Or.inr (Or.inr ⟨e, he, heid, rfl⟩)

omit [JsonNaturals ν] in
/-- What one review does, when it is accepted. -/
theorem applyReview_eq_ok {changes changes' : List (ReportedChange ν)} {seen seen' : List String}
    {entry : Json ν} (h : applyReview changes seen entry = .ok (changes', seen')) :
    ∃ id assessment, asString (index entry "id") = some id ∧ id ∉ seen ∧
      (∃ c ∈ changes, c.id = id) ∧ assessmentOf entry = .ok assessment ∧
      changes' = assess id assessment changes ∧ seen' = SortedSet.insert id seen := by
  rw [applyReview] at h
  cases hid : asString (index entry "id") with
  | none =>
    rw [hid] at h
    cases h
  | some id =>
    simp only [hid] at h
    split_ifs at h with hseen hfound
    cases hassessment : assessmentOf entry with
    | error e =>
      rw [hassessment] at h
      cases h
    | ok assessment =>
      rw [hassessment] at h
      cases h
      obtain ⟨c, hc, hcid⟩ := List.any_eq_true.mp hfound
      exact ⟨id, assessment, rfl, hseen, ⟨c, hc, of_decide_eq_true hcid⟩, rfl, rfl, rfl⟩

/-- What holds when some entries have been applied to the changes that were listed. -/
structure Reviewing (listed : List (ReportedChange ν)) (done : List (Json ν))
    (changes : List (ReportedChange ν)) (seen : List String) : Prop where
  named : changes.map ReportedChange.named = listed.map ReportedChange.named
  seen : ∀ id, id ∈ seen ↔ ∃ entry ∈ done, asString (index entry "id") = some id
  found : ∀ entry ∈ done, ∃ c ∈ changes, Reviews entry c
  assessed : ∀ entry ∈ done, ∀ c ∈ changes, Reviews entry c →
    assessmentOf entry = .ok c.assessment
  unreviewed : ∀ c ∈ changes, (∀ entry ∈ done, ¬ Reviews entry c) → c.assessment = .unreviewed

omit [JsonNaturals ν] in
theorem Reviewing.step {listed changes changes' : List (ReportedChange ν)} {done : List (Json ν)}
    {seen seen' : List String} (h : Reviewing listed done changes seen)
    (hnodup : (listed.map ReportedChange.id).Nodup) {entry : Json ν}
    (happly : applyReview changes seen entry = .ok (changes', seen')) :
    Reviewing listed (done ++ [entry]) changes' seen' := by
  obtain ⟨id, assessment, hid, hseen, ⟨d, hd, hdid⟩, hassessment, rfl, rfl⟩ :=
    applyReview_eq_ok happly
  have hmem : ∀ c, c ∈ assess id assessment changes ↔ c ∈ changes ∧ c.id ≠ id ∨
      ∃ d ∈ changes, d.id = id ∧ c = { d with assessment } := fun c =>
    mem_assess (map_id_of_named h.named ▸ hnodup)
  -- The change of this entry has no review yet.
  have hfirst : ∀ entry' ∈ done, ∀ c : ReportedChange ν, Reviews entry' c → c.id ≠ id :=
    fun entry' hentry' c hreviews heq => hseen ((h.seen id).mpr ⟨entry', hentry', heq ▸ hreviews⟩)
  have hthis : ∀ c : ReportedChange ν, Reviews entry c → c.id = id := fun c hreviews =>
    (Option.some.inj (hid.symm.trans hreviews)).symm
  refine ⟨(map_named_assess _ _ _).trans h.named, fun id' => ?_, fun entry' hentry' => ?_,
    fun entry' hentry' c hc hreviews => ?_, fun c hc hnone => ?_⟩
  · simp only [SortedSet.mem_insert, h.seen, List.mem_append, List.mem_singleton, or_and_right,
      exists_or, exists_eq_left, hid, Option.some.injEq]
    rw [or_comm, eq_comm]
  · obtain hentry' | hentry' := List.mem_append.mp hentry'
    · obtain ⟨c, hc, hreviews⟩ := h.found entry' hentry'
      exact ⟨c, (hmem c).mpr (Or.inl ⟨hc, hfirst entry' hentry' c hreviews⟩), hreviews⟩
    · obtain rfl := List.mem_singleton.mp hentry'
      refine ⟨{ d with assessment }, (hmem _).mpr (Or.inr ⟨d, hd, hdid, rfl⟩), ?_⟩
      exact hid.trans (congrArg some hdid.symm)
  · obtain hentry' | hentry' := List.mem_append.mp hentry'
    · obtain ⟨hc, -⟩ | ⟨e, -, heid, rfl⟩ := (hmem c).mp hc
      · exact h.assessed entry' hentry' c hc hreviews
      · exact absurd heid (hfirst entry' hentry' _ hreviews)
    · obtain rfl := List.mem_singleton.mp hentry'
      obtain ⟨-, hne⟩ | ⟨e, -, -, rfl⟩ := (hmem c).mp hc
      · exact absurd (hthis c hreviews) hne
      · exact hassessment
  · obtain ⟨hc, -⟩ | ⟨e, -, heid, rfl⟩ := (hmem c).mp hc
    · exact h.unreviewed c hc fun entry' hentry' =>
        hnone entry' (List.mem_append_left _ hentry')
    · refine absurd ?_ (hnone entry (List.mem_append_right _ (List.mem_singleton_self _)))
      exact hid.trans (congrArg some heid.symm)

omit [JsonNaturals ν] in
theorem Reviewing.run {listed : List (ReportedChange ν)}
    (hnodup : (listed.map ReportedChange.id).Nodup) : ∀ {rest done : List (Json ν)}
      {changes changes' : List (ReportedChange ν)} {seen : List String},
      Reviewing listed done changes seen → applyEntries changes seen rest = .ok changes' →
      ∃ seen', Reviewing listed (done ++ rest) changes' seen'
  | [], done, changes, changes', seen, h, hrun => by
    cases hrun
    rw [List.append_nil]
    exact ⟨seen, h⟩
  | entry :: rest, done, changes, changes', seen, h, hrun => by
    rw [applyEntries] at hrun
    cases happly : applyReview changes seen entry with
    | error e =>
      rw [happly] at hrun
      cases hrun
    | ok next =>
      obtain ⟨changes'', seen''⟩ := next
      rw [happly] at hrun
      obtain ⟨seen', hdone⟩ := (h.step hnodup happly).run hnodup hrun
      rw [List.append_assoc] at hdone
      exact ⟨seen', hdone⟩

/-- **The reviews of a report**, applied one after the other. -/
theorem applyReviews_reviewing {listed changes : List (ReportedChange ν)} {reviews : Json ν}
    (hnodup : (listed.map ReportedChange.id).Nodup)
    (hunreviewed : ∀ c ∈ listed, c.assessment = .unreviewed)
    (h : applyReviews listed reviews = .ok changes) :
    ∃ entries seen, asArray (index reviews "reviews") = some entries ∧
      Reviewing listed entries changes seen := by
  rw [applyReviews] at h
  split_ifs at h
  cases hentries : asArray (index reviews "reviews") with
  | none =>
    rw [hentries] at h
    cases h
  | some entries =>
    rw [hentries] at h
    have hstart : Reviewing listed [] listed [] :=
      ⟨rfl, fun _ => by simp, nofun, nofun, fun c hc _ => hunreviewed c hc⟩
    obtain ⟨seen, hdone⟩ := hstart.run hnodup h
    exact ⟨entries, seen, rfl, hdone⟩

/-! ### Reports -/

/-- The changes of a report are those that were listed, under the names they were given. -/
theorem report_changes {digest : List UInt8 → List UInt8} {parse : String → Json ν}
    {old new : Snapshot ν} {evidence : Option (Json ν)} {r : Report ν}
    (h : report digest parse old new evidence = .ok r) :
    match evidence with
    | some reviews => applyReviews (reportedChanges digest parse old new) reviews = .ok r.changes
    | none => r.changes = reportedChanges digest parse old new := by
  cases evidence with
  | none =>
    cases h
    rfl
  | some reviews =>
    rw [report] at h
    cases happly : applyReviews (reportedChanges digest parse old new) reviews with
    | error e =>
      simp only [happly] at h
      cases h
    | ok changes =>
      simp only [happly] at h
      cases h
      exact happly

section Reports

variable {digest : List UInt8 → List UInt8} (hdigest : Function.Injective digest)
  {parse : String → Json ν} {old new : Snapshot ν} {evidence : Option (Json ν)} {r : Report ν}
  (h : report digest parse old new evidence = .ok r)

include hdigest h

theorem report_named : r.changes.map ReportedChange.named =
    (reportedChanges digest parse old new).map ReportedChange.named := by
  have hchanges := report_changes h
  cases evidence with
  | none => rw [hchanges]
  | some reviews =>
    obtain ⟨_, _, -, hdone⟩ := applyReviews_reviewing
      (nodup_ids_reportedChanges hdigest parse old new)
      (unreviewed_of_mem_reportedChanges parse old new digest) hchanges
    exact hdone.named

theorem report_nodup_ids : (r.changes.map ReportedChange.id).Nodup :=
  map_id_of_named (report_named hdigest h) ▸ nodup_ids_reportedChanges hdigest parse old new

/-- A change of a report is named by what it is bound to. -/
theorem report_id : ∀ c ∈ r.changes, c.id = changeId digest c.bound := by
  intro c hc
  have hmem : c.named ∈ (reportedChanges digest parse old new).map ReportedChange.named :=
    report_named hdigest h ▸ List.mem_map_of_mem hc
  obtain ⟨d, hd, heq⟩ := List.mem_map.mp hmem
  have hid := id_of_mem_reportedChanges parse old new digest d hd
  have hbound : d.bound = c.bound := congrArg Prod.fst heq
  have hname : d.id = c.id := congrArg Prod.snd heq
  rwa [hbound, hname] at hid

end Reports

/-- A snapshot of one document with a number. -/
def docIdSnapshot (docId : ℕ) : Snapshot ℕ where
  manifest := .object [("waVersion", .string "2.3000.0")]
  lock := ⟨"2.3000.0", "abc", 0, []⟩
  files := [("mex", ⟨"mex/index.json", "def",
    .object [("operations", .object [("A", .object [("docId", .number docId)])])]⟩)]
  schemas := []

/-- The one review of the change of the number. -/
def docIdReviews : Json ℕ :=
  .object [("reportVersion", .number 2), ("reviews", .array
    ((reportedChanges id (fun _ => .null) (docIdSnapshot 7) (docIdSnapshot 9)).map fun c => .object
      [("basis", .string "new document"), ("classification", .string "upstream-change"),
        ("id", .string c.id), ("references", .array [.string "WAWebMex"])]))]

theorem assessmentOf_docIdReview (name : String) : assessmentOf (ν := ℕ) (.object
    [("basis", .string "new document"), ("classification", .string "upstream-change"),
      ("id", .string name), ("references", .array [.string "WAWebMex"])]) =
    .ok (.reviewed .upstreamChange "new document" ["WAWebMex"]) := by
  with_unfolding_all rfl

theorem applyReviews_docId {c : ReportedChange ℕ}
    (h : reportedChanges id (fun _ => .null) (docIdSnapshot 7) (docIdSnapshot 9) = [c]) :
    applyReviews [c] docIdReviews =
      .ok [{ c with assessment := .reviewed .upstreamChange "new document" ["WAWebMex"] }] := by
  have hentry : ∀ name, asString (index (ν := ℕ) (.object
      [("basis", .string "new document"), ("classification", .string "upstream-change"),
        ("id", .string name), ("references", .array [.string "WAWebMex"])]) "id") = some name :=
    fun _ => rfl
  rw [docIdReviews, h, applyReviews, if_pos (by rfl)]
  change applyEntries [c] [] _ = _
  simp only [applyEntries, applyReview, List.map, hentry, assessmentOf_docIdReview]
  simp [assess]

end Whatspec.Contract

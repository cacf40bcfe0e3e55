import Whatspec.Contract.DocumentDiff
import Whatspec.Library.Pieces

/-!
# The changes between documents are complete and exact

There is no change exactly when the documents are the same, and the old document and the changes
determine the new one.  Both are up to the order of the items of a keyed collection, as long as
the items of one identity keep theirs.

* `walk_eq` separates the changes between two values from the paths they are found at;
* `walk_injective`, `groupDiff_injective`, `collectionDiff_injective` and `documentDiff_injective`
  read the new side back, layer by layer: the changes of one field, one identity or one
  collection are those whose path or identity says so.
-/

namespace Whatspec.Contract

open Whatspec.Library

variable {ν : Type} [JsonNumber ν]

/-! ### Paths -/

/-- One character of a key in a pointer. -/
def pointerEscape (c : Char) : List Char :=
  if c = '~' then ['~', '0'] else if c = '/' then ['~', '1'] else [c]

theorem pointer_eq (key : String) : pointer key = key.toList.flatMap pointerEscape := by
  rw [pointer, List.flatMap_assoc]
  refine List.flatMap_congr fun c _ => ?_
  rw [pointerEscape]
  by_cases htilde : c = '~'
  · rw [if_pos htilde, if_pos htilde]
    decide
  · rw [if_neg htilde, if_neg htilde]
    exact List.append_nil _

theorem pointerEscape_delimited : Rendering.Delimited pointerEscape := by
  intro c d s t h
  unfold pointerEscape at h
  split_ifs at h with h1 h2 h3 h4 h5 h6 <;>
    simp only [List.cons_append, List.nil_append, List.cons.injEq] at h
  · exact ⟨h1.trans h2.symm, h.2.2⟩
  · exact absurd h.2.1 (by decide)
  · exact absurd h.1.symm h2
  · exact absurd h.2.1 (by decide)
  · exact ⟨h4.trans h6.symm, h.2.2⟩
  · exact absurd h.1.symm h5
  · exact absurd h.1 h1
  · exact absurd h.1 h1
  · exact h

theorem pointer_injective : Function.Injective pointer := by
  intro k k' h
  rw [pointer_eq, pointer_eq] at h
  have hne : ∀ c, pointerEscape c ≠ [] := by
    intro c
    unfold pointerEscape
    split_ifs <;> exact List.cons_ne_nil _ _
  exact String.toList_inj.mp (Rendering.flatMap_injective pointerEscape_delimited hne h)

theorem slash_not_mem_pointer (key : String) : ∀ c ∈ pointer key, c ≠ '/' := by
  intro c hc
  rw [pointer_eq] at hc
  obtain ⟨d, -, hd⟩ := List.mem_flatMap.mp hc
  unfold pointerEscape at hd
  split_ifs at hd with h1 h2 <;> simp only [List.mem_cons, List.not_mem_nil, or_false] at hd
  · rcases hd with rfl | rfl <;> decide
  · rcases hd with rfl | rfl <;> decide
  · exact hd ▸ h2

/-- What may follow a whole path. -/
def Sub (s : Path) : Prop := ∀ c ∈ s.head?, c = '/'

theorem sub_nil : Sub [] := fun _ h => nomatch h

theorem sub_cons (s : Path) : Sub ('/' :: s) := fun _ h => (Option.some.inj h).symm

/-- Two parts of paths without slashes. -/
theorem part_append_inj {p q s t : Path} (hp : ∀ c ∈ p, c ≠ '/') (hq : ∀ c ∈ q, c ≠ '/')
    (hs : Sub s) (ht : Sub t) (h : p ++ s = q ++ t) : p = q ∧ s = t :=
  Rendering.append_inj_of_ends (fun c => c ≠ '/') hp hq
    (fun c hc => not_not_intro (hs c hc)) (fun c hc => not_not_intro (ht c hc)) h

/-! ### Changes and where they are -/

namespace Change

/-- A change below two paths. -/
def under (oldPath newPath : Path) (c : Change ν) : Change ν :=
  { c with
    oldPath := c.oldPath.map (oldPath ++ ·)
    newPath := c.newPath.map (newPath ++ ·) }

/-- Where a change is: in the old document, or else in the new one. -/
def position (c : Change ν) : Option Path := c.oldPath.or c.newPath

omit [JsonNumber ν] in
theorem under_under (p q p' q' : Path) (c : Change ν) :
    (c.under p q).under p' q' = c.under (p' ++ p) (q' ++ q) := by
  simp only [under, Option.map_map, Function.comp_def, List.append_assoc]

omit [JsonNumber ν] in
theorem under_injective (p q : Path) : Function.Injective (under (ν := ν) p q) := by
  intro c d h
  obtain ⟨o, n, _, _, _, _, _, _⟩ := c
  obtain ⟨o', n', _, _, _, _, _, _⟩ := d
  simp only [under, Change.mk.injEq] at h ⊢
  obtain ⟨ho, hn, hrest⟩ := h
  have hinj : ∀ r : Path, Function.Injective (Option.map (r ++ ·)) := fun r =>
    Option.map_injective fun _ _ => List.append_cancel_left
  exact ⟨hinj p ho, hinj q hn, hrest⟩

omit [JsonNumber ν] in
theorem position_under (p : Path) (c : Change ν) :
    (c.under p p).position = c.position.map (p ++ ·) := by
  cases ho : c.oldPath <;> simp [position, under, ho]

end Change

/-- What a change between two values looks like, before it is put below their paths. -/
structure Plain (c : Change ν) : Prop where
  position : ∃ s, c.position = some s ∧ Sub s
  same : ∀ p q, c.oldPath = some p → c.newPath = some q → p = q
  noIdentity : c.identity = none
  noDiagnostic : c.identityDiagnostic = none
  notGroup : c.kind ≠ .ambiguousIdentityGroupChanged

/-- A change belongs to a key when its path goes through the key. -/
def Belongs (key : String) (c : Change ν) : Prop :=
  ∃ s, Sub s ∧ c.position = some ('/' :: pointer key ++ s)

omit [JsonNumber ν] in
theorem belongs_unique {c : Change ν} {key key' : String} (h : Belongs key c)
    (h' : Belongs key' c) : key' = key := by
  obtain ⟨s, hs, hc⟩ := h
  obtain ⟨t, ht, hc'⟩ := h'
  rw [hc] at hc'
  have heq := (List.cons.inj (Option.some.inj hc')).2
  exact (pointer_injective (part_append_inj (slash_not_mem_pointer _)
    (slash_not_mem_pointer _) hs ht heq).1).symm

/-! ### The changes between two values -/

omit [JsonNumber ν] in
theorem leafChange_under (old new : Option (Json ν)) (p q : Path) :
    leafChange old new p q = (leafChange old new [] []).under p q := by
  unfold leafChange
  split <;> simp [Change.under, Function.comp_def]

omit [JsonNumber ν] in
theorem leafChange_plain {old new : Option (Json ν)} (h : old ≠ new) :
    Plain (leafChange old new [] []) ∧ (leafChange old new [] []).position = some [] := by
  unfold leafChange
  split
  · exact ⟨⟨⟨[], rfl, sub_nil⟩, by simp, rfl, rfl, by simp⟩, rfl⟩
  · have hpos : (old.map fun _ => ([] : Path)).or (new.map fun _ => []) = some [] := by
      cases old with
      | some _ => rfl
      | none =>
          cases new with
          | some _ => rfl
          | none => exact absurd rfl h
    refine ⟨⟨⟨[], hpos, sub_nil⟩, ?_, rfl, rfl, ?_⟩, hpos⟩
    · intro p q hp hq
      obtain ⟨-, -, rfl⟩ := Option.map_eq_some_iff.mp hp
      obtain ⟨-, -, rfl⟩ := Option.map_eq_some_iff.mp hq
      rfl
    · dsimp only
      split_ifs <;> exact fun h => nomatch h

omit [JsonNumber ν] in
theorem leafChange_new (old new : Option (Json ν)) (p q : Path) :
    (leafChange old new p q).newPath = new.map (fun _ => q) ∧
      (leafChange old new p q).after = new.getD .null := by
  unfold leafChange
  split <;> exact ⟨rfl, rfl⟩

omit [JsonNumber ν] in
/-- A leaf tells the new side. -/
theorem leafChange_injective {old new new' : Option (Json ν)}
    (h : leafChange old new [] [] = leafChange old new' [] []) : new = new' := by
  obtain ⟨hpath, hafter⟩ := leafChange_new old new [] []
  obtain ⟨hpath', hafter'⟩ := leafChange_new old new' [] []
  rw [h, hpath'] at hpath
  rw [h, hafter'] at hafter
  cases new with
  | none =>
      cases new' with
      | none => rfl
      | some v' => cases hpath
  | some v =>
      cases new' with
      | none => cases hpath
      | some v' => exact congrArg some hafter.symm

/-- How a walk goes on. -/
inductive WalkCase (old new : Option (Json ν)) : Prop
  | same (h : old = new)
  | objects (a b : List (String × Json ν)) (hold : old = some (.object a))
      (hnew : new = some (.object b)) (hne : a ≠ b)
      (h : ∀ p q, walk old new p q = (keysOf a b).flatMap fun key =>
        walk (SortedMap.get a key) (SortedMap.get b key) (p ++ '/' :: pointer key)
          (q ++ '/' :: pointer key))
  | leaf (hne : old ≠ new) (h : ∀ p q, walk old new p q = [leafChange old new p q])

theorem walk_self (v : Option (Json ν)) (p q : Path) : walk v v p q = [] := by
  rw [walk.eq_def, if_pos rfl]

theorem walk_of_objects {a b : List (String × Json ν)} (hne : a ≠ b) (p q : Path) :
    walk (some (.object a)) (some (.object b)) p q =
      (keysOf a b).flatMap fun key =>
        walk (SortedMap.get a key) (SortedMap.get b key) (p ++ '/' :: pointer key)
          (q ++ '/' :: pointer key) := by
  rw [walk.eq_def, if_neg fun h => hne (Json.object.inj (Option.some.inj h))]

theorem walkCase (old new : Option (Json ν)) : WalkCase old new := by
  by_cases hsame : old = new
  · exact .same hsame
  by_cases hobj : ∃ a b, old = some (.object a) ∧ new = some (.object b)
  · obtain ⟨a, b, rfl, rfl⟩ := hobj
    have hne : a ≠ b := fun h => hsame (by rw [h])
    exact .objects a b rfl rfl hne (walk_of_objects hne)
  · refine .leaf hsame fun p q => ?_
    rw [walk.eq_def, if_neg hsame]
    split
    · exact absurd ⟨_, _, rfl, rfl⟩ hobj
    · rfl

/-- **The changes between two values do not depend on their paths**, but for being below
them. -/
theorem walk_eq (old new : Option (Json ν)) (p q : Path) :
    walk old new p q = (walk old new [] []).map (Change.under p q) := by
  induction old using WellFounded.induction (measure (fun v : Option (Json ν) => sizeOf v)).wf
    generalizing new p q with
  | _ old ih =>
    cases walkCase old new with
    | same h =>
        subst h
        rw [walk_self, walk_self, List.map_nil]
    | leaf hne h => rw [h, h, leafChange_under old new p q, List.map_singleton]
    | objects a b hold hnew hne h =>
        rw [h, h, List.map_flatMap]
        refine List.flatMap_congr fun key _ => ?_
        have hlt : sizeOf (SortedMap.get a key) < sizeOf old := hold ▸ sizeOf_get_lt a key
        rw [ih _ hlt _ (p ++ '/' :: pointer key), ih _ hlt _ ([] ++ '/' :: pointer key),
          List.map_map]
        refine List.map_congr_left fun c _ => ?_
        rw [Function.comp_apply, Change.under_under]
        rfl

/-- The changes below one key of two objects. -/
theorem walk_objects {a b : List (String × Json ν)} (hne : a ≠ b) :
    walk (some (.object a)) (some (.object b)) [] [] =
      (keysOf a b).flatMap fun key =>
        (walk (SortedMap.get a key) (SortedMap.get b key) [] []).map
          (Change.under ('/' :: pointer key) ('/' :: pointer key)) := by
  rw [walk_of_objects hne]
  refine List.flatMap_congr fun key _ => ?_
  rw [walk_eq]
  rfl

theorem keysOf_nodup {α : Type} (a b : List (String × α)) : (keysOf a b).Nodup :=
  SortedSet.Sorted.nodup (SortedSet.sorted_collect _)

theorem get_eq_none_of_not_mem_keysOf {α : Type} {a b : List (String × α)} {key : String}
    (h : key ∉ keysOf a b) : SortedMap.get a key = none ∧ SortedMap.get b key = none := by
  rw [keysOf, SortedSet.mem_collect, List.mem_append, not_or] at h
  exact ⟨(SortedMap.get_eq_none_iff a key).mpr h.1, (SortedMap.get_eq_none_iff b key).mpr h.2⟩

/-- A change below a key belongs to it, and is plain as it was. -/
theorem Plain.under_key {c : Change ν} (h : Plain c) (key : String) :
    Plain (c.under ('/' :: pointer key) ('/' :: pointer key)) ∧
      Belongs key (c.under ('/' :: pointer key) ('/' :: pointer key)) := by
  obtain ⟨s, hs, hsub⟩ := h.position
  have hpos : (c.under ('/' :: pointer key) ('/' :: pointer key)).position =
      some ('/' :: pointer key ++ s) := by
    rw [Change.position_under, hs]
    rfl
  refine ⟨⟨⟨_, hpos, sub_cons _⟩, fun p q hp hq => ?_, h.noIdentity, h.noDiagnostic,
    h.notGroup⟩, s, hsub, hpos⟩
  obtain ⟨p', hp', rfl⟩ := Option.map_eq_some_iff.mp hp
  obtain ⟨q', hq', rfl⟩ := Option.map_eq_some_iff.mp hq
  rw [h.same p' q' hp' hq']

/-- Every change between two values is plain. -/
theorem walk_plain (old new : Option (Json ν)) : ∀ c ∈ walk old new [] [], Plain c := by
  induction old using WellFounded.induction (measure (fun v : Option (Json ν) => sizeOf v)).wf
    generalizing new with
  | _ old ih =>
    cases walkCase old new with
    | same h =>
        subst h
        rw [walk_self]
        exact fun _ hc => nomatch hc
    | leaf hne h =>
        rw [h]
        exact List.forall_mem_singleton.mpr (leafChange_plain hne).1
    | objects a b hold hnew hne h =>
        subst hold hnew
        rw [walk_objects hne]
        intro c hc
        obtain ⟨key, -, hc⟩ := List.mem_flatMap.mp hc
        obtain ⟨d, hd, rfl⟩ := List.mem_map.mp hc
        exact ((ih _ (sizeOf_get_lt a key) _ d hd).under_key key).1

/-- The changes below one key. -/
theorem belongs_of_walk (old new : Option (Json ν)) (key : String) :
    ∀ c ∈ (walk old new [] []).map (Change.under ('/' :: pointer key) ('/' :: pointer key)),
      ∀ key', Belongs key' c ↔ key' = key := by
  intro c hc key'
  obtain ⟨d, hd, rfl⟩ := List.mem_map.mp hc
  have hbelongs := ((walk_plain old new d hd).under_key key).2
  exact ⟨fun h => belongs_unique hbelongs h, fun h => h ▸ hbelongs⟩

/-- Every object in an optional value is an ordered map. -/
def AllWellFormed (v : Option (Json ν)) : Prop := ∀ j ∈ v, j.WellFormed

omit [JsonNumber ν] in
theorem allWellFormed_get {a : List (String × Json ν)} (h : (Json.object a).WellFormed)
    (key : String) : AllWellFormed (SortedMap.get a key) := by
  intro v hv
  cases h with
  | object _ hfields => exact hfields _ (SortedMap.mem_of_get hv)

omit [JsonNumber ν] in
/-- Objects with the same fields are the same. -/
theorem object_ext {a b : List (String × Json ν)} (ha : (Json.object a).WellFormed)
    (hb : (Json.object b).WellFormed)
    (h : ∀ key, SortedMap.get a key = SortedMap.get b key) : a = b := by
  cases ha with
  | object hsorted _ =>
      cases hb with
      | object hsorted' _ => exact SortedMap.ext_of_sorted hsorted hsorted' h

/-- **There is no change exactly between equal values.** -/
theorem walk_eq_nil {old new : Option (Json ν)} (hold : AllWellFormed old)
    (hnew : AllWellFormed new) : walk old new [] [] = [] ↔ old = new := by
  refine ⟨fun h => ?_, fun h => h ▸ walk_self old [] []⟩
  induction old using WellFounded.induction (measure (fun v : Option (Json ν) => sizeOf v)).wf
    generalizing new with
  | _ old ih =>
    cases walkCase old new with
    | same hsame => exact hsame
    | leaf hne hleaf =>
        rw [hleaf] at h
        cases h
    | objects a b hold' hnew' hne _ =>
        subst hold' hnew'
        rw [walk_objects hne, List.flatMap_eq_nil_iff] at h
        have ha := hold _ rfl
        have hb := hnew _ rfl
        refine absurd (object_ext ha hb fun key => ?_) hne
        by_cases hkey : key ∈ keysOf a b
        · exact ih _ (sizeOf_get_lt a key) (allWellFormed_get ha key) (allWellFormed_get hb key)
            (List.map_eq_nil_iff.mp (h key hkey))
        · obtain ⟨hna, hnb⟩ := get_eq_none_of_not_mem_keysOf hkey
          rw [hna, hnb]

/-- The changes of two objects are found below a key. -/
theorem position_of_walk_objects {a b : List (String × Json ν)} {c : Change ν}
    (h : c ∈ walk (some (.object a)) (some (.object b)) [] []) : c.position ≠ some [] := by
  by_cases hne : a = b
  · subst hne
    rw [walk_self] at h
    cases h
  · rw [walk_objects hne] at h
    obtain ⟨key, -, hc⟩ := List.mem_flatMap.mp h
    obtain ⟨s, -, hpos⟩ := (belongs_of_walk _ _ key c hc key).mpr rfl
    rw [hpos]
    exact fun h => nomatch h

/-- The changes of a leaf are not those of two objects. -/
theorem leaf_ne_objects {old new : Option (Json ν)} (hne : old ≠ new)
    {a b : List (String × Json ν)}
    (h : [leafChange old new [] []] = walk (some (.object a)) (some (.object b)) [] []) :
    False :=
  position_of_walk_objects (h ▸ List.mem_singleton_self _) (leafChange_plain hne).2

/-- Below a key that neither object has, there is no change. -/
theorem walk_of_not_mem_keysOf {a b : List (String × Json ν)} {key : String}
    (h : key ∉ keysOf a b) (p q : Path) :
    walk (SortedMap.get a key) (SortedMap.get b key) p q = [] := by
  obtain ⟨ha, hb⟩ := get_eq_none_of_not_mem_keysOf h
  rw [ha, hb, walk_self]

/-- **The changes from a value determine the value they lead to.** -/
theorem walk_injective {old new new' : Option (Json ν)} (hold : AllWellFormed old)
    (hnew : AllWellFormed new) (hnew' : AllWellFormed new')
    (h : walk old new [] [] = walk old new' [] []) : new = new' := by
  induction old using WellFounded.induction (measure (fun v : Option (Json ν) => sizeOf v)).wf
    generalizing new new' with
  | _ old ih =>
    cases walkCase old new with
    | same hsame =>
        rw [← hsame, walk_self] at h
        rw [← hsame]
        exact (walk_eq_nil hold hnew').mp h.symm
    | leaf hne hleaf =>
        cases walkCase old new' with
        | same hsame =>
            rw [← hsame, walk_self] at h
            exact absurd ((walk_eq_nil hold hnew).mp h) hne
        | leaf hne' hleaf' =>
            rw [hleaf, hleaf'] at h
            exact leafChange_injective (List.singleton_injective h)
        | objects a b hleft hright _ _ =>
            rw [hleaf] at h
            subst hleft hright
            exact (leaf_ne_objects hne h).elim
    | objects a b hleft hright hne _ =>
        subst hleft hright
        cases walkCase (some (.object a)) new' with
        | same hsame =>
            rw [← hsame, walk_self] at h
            exact absurd ((walk_eq_nil hold hnew).mp h) fun heq =>
              hne (Json.object.inj (Option.some.inj heq))
        | leaf hne' hleaf' =>
            rw [hleaf'] at h
            exact (leaf_ne_objects hne' h.symm).elim
        | objects a' b' hleft' hright' hne' _ =>
            cases hleft'
            subst hright'
            have ha := hold _ rfl
            have hb := hnew _ rfl
            have hb' := hnew' _ rfl
            rw [walk_objects hne, walk_objects hne'] at h
            have hpieces := flatMap_pieces Belongs (keysOf_nodup a b) (keysOf_nodup a b')
              (fun key => belongs_of_walk _ _ key) (fun key => belongs_of_walk _ _ key)
              (fun key hkey => by rw [walk_of_not_mem_keysOf hkey, List.map_nil])
              (fun key hkey => by rw [walk_of_not_mem_keysOf hkey, List.map_nil]) h
            have hfields := object_ext hb hb' fun key =>
              ih _ (sizeOf_get_lt a key) (allWellFormed_get ha key) (allWellFormed_get hb key)
                (allWellFormed_get hb' key)
                (List.map_injective_iff.mpr (Change.under_injective _ _) (hpieces key))
            rw [hfields]

/-! ### Items by identity -/

/-- Every item has an identity. -/
def Keyed (keys : List String) (items : List (Json ν)) : Prop :=
  ∀ x ∈ items, (identityOf keys x).isSome = true

/-- The items of one identity, in order. -/
def itemsOf (keys : List String) (identity : String) (items : List (Json ν)) : List (Json ν) :=
  items.filter fun x => identityOf keys x = some identity

/-- Grouping goes through exactly when every item has an identity, and each group holds the
items of its identity in order. -/
theorem keyedFrom_spec (keys : List String) (items : List (Json ν)) (index : ℕ)
    (m : KeyedItems ν) :
    (Keyed keys items → ∃ m', keyedFrom keys items index m = some m') ∧
    ∀ m', keyedFrom keys items index m = some m' → Keyed keys items ∧
      ∀ identity, (group m' identity).map Prod.snd =
        (group m identity).map Prod.snd ++ itemsOf keys identity items := by
  induction items generalizing index m with
  | nil =>
      refine ⟨fun _ => ⟨m, rfl⟩, fun m' h => ?_⟩
      cases h
      exact ⟨fun _ hx => (nomatch hx), fun _ => (List.append_nil _).symm⟩
  | cons item rest ih =>
      rw [keyedFrom]
      cases hid : identityOf keys item with
      | none =>
          refine ⟨fun hkeyed => ?_, fun m' h => nomatch h⟩
          have hsome := hkeyed item List.mem_cons_self
          rw [hid] at hsome
          cases hsome
      | some identity =>
          obtain ⟨htotal, hspec⟩ := ih (index + 1)
            (SortedMap.insert identity (group m identity ++ [(index, item)]) m)
          refine ⟨fun hkeyed => htotal fun x hx => hkeyed x (List.mem_cons_of_mem _ hx),
            fun m' h => ?_⟩
          obtain ⟨hkeyed, hgroups⟩ := hspec m' h
          refine ⟨List.forall_mem_cons.mpr ⟨by rw [hid]; rfl, hkeyed⟩, fun identity' => ?_⟩
          rw [hgroups, group, SortedMap.get_insert]
          by_cases heq : identity' = identity
          · subst heq
            rw [if_pos rfl, Option.getD_some, List.map_append, itemsOf, itemsOf,
              List.filter_cons_of_pos (by simp [hid]), List.append_assoc]
            rfl
          · rw [if_neg heq, itemsOf, itemsOf,
              List.filter_cons_of_neg (by simp [hid, Ne.symm heq])]
            rfl

/-! ### The changes of one identity -/

theorem groupDiff_identity (path : Path) (identity : String) (o n : List (ℕ × Json ν)) :
    ∀ c ∈ groupDiff path identity o n, c.identity = some identity := by
  intro c hc
  obtain ⟨d, -, rfl⟩ := List.mem_map.mp hc
  rfl

/-- The new path of a plain change may be followed. -/
theorem Plain.sub_newPath {c : Change ν} (h : Plain c) {s : Path} (hs : c.newPath = some s) :
    Sub s := by
  obtain ⟨t, ht, hsub⟩ := h.position
  rw [Change.position] at ht
  cases ho : c.oldPath with
  | none =>
      rw [ho, hs] at ht
      cases ht
      exact hsub
  | some p =>
      rw [ho] at ht
      cases ht
      exact h.same _ s ho hs ▸ hsub

/-- Changes are told by where they are, when the new paths they are below are told apart by
what is below them, or when there is no new path. -/
theorem under_cancel {changes changes' : List (Change ν)} (hplain : ∀ c ∈ changes, Plain c)
    (hplain' : ∀ c ∈ changes', Plain c) {p q q' : Path}
    (hsep : (∀ c ∈ changes, c.newPath = none) ∨
      ∀ s s', Sub s → Sub s' → q ++ s = q' ++ s' → q = q')
    (h : changes.map (Change.under p q) = changes'.map (Change.under p q')) :
    changes = changes' := by
  by_cases hnone : ∀ c ∈ changes, c.newPath = none
  · have hsame : changes.map (Change.under p q) = changes.map (Change.under p q') := by
      refine List.map_congr_left fun c hc => ?_
      rw [Change.under, Change.under, hnone c hc]
      rfl
    rw [hsame] at h
    exact List.map_injective_iff.mpr (Change.under_injective p q') h
  · push Not at hnone
    obtain ⟨c, hc, hpath⟩ := hnone
    obtain ⟨s, hs⟩ := Option.ne_none_iff_exists'.mp hpath
    obtain ⟨c', hc', heq⟩ := List.mem_map.mp (h ▸ List.mem_map_of_mem hc)
    have hnew : (c'.under p q').newPath = some (q ++ s) := by
      rw [heq, Change.under, hs]
      rfl
    obtain ⟨s', hs', hq⟩ := Option.map_eq_some_iff.mp hnew
    rcases hsep with hall | hsep
    · exact absurd (hall c hc) hpath
    · obtain rfl := hsep s s' ((hplain c hc).sub_newPath hs) ((hplain' c' hc').sub_newPath hs')
        hq.symm
      exact List.map_injective_iff.mpr (Change.under_injective p q) h

theorem walk_none_newPath (old : Option (Json ν)) :
    ∀ c ∈ walk old none [] [], c.newPath = none := by
  cases walkCase old none with
  | same h =>
      rw [h, walk_self]
      exact fun _ hc => nomatch hc
  | leaf hne h =>
      rw [h]
      exact List.forall_mem_singleton.mpr (leafChange_new old none [] []).1
  | objects a b _ hright _ _ => cases hright

omit [JsonNumber ν] in
/-- Different indices have different paths. -/
theorem itemPath_sep (path : Path) (n n' : List (ℕ × Json ν)) (hn : n ≠ []) (hn' : n' ≠ [])
    (s s' : Path) (hs : Sub s) (hs' : Sub s')
    (h : itemPath path n ++ s = itemPath path n' ++ s') : itemPath path n = itemPath path n' := by
  obtain ⟨⟨i, v⟩, rest, rfl⟩ := List.exists_cons_of_ne_nil hn
  obtain ⟨⟨j, v'⟩, rest', rfl⟩ := List.exists_cons_of_ne_nil hn'
  have hdigits : ∀ k, ∀ c ∈ Nat.toDigits 10 k, c ≠ '/' := by
    rintro k c hc rfl
    exact absurd (Nat.isDigit_of_mem_toDigits (by decide) (by decide) hc) (by decide)
  rw [itemPath, itemPath, List.append_assoc, List.append_assoc] at h
  have htail := (List.cons.inj (List.append_cancel_left h)).2
  rw [itemPath, itemPath, (part_append_inj (hdigits i) (hdigits j) hs hs' htail).1]

theorem eq_of_head?_eq {α : Type} {xs ys : List α} (hx : xs.length ≤ 1) (hy : ys.length ≤ 1)
    (h : xs.head? = ys.head?) : xs = ys := by
  match xs, ys, hx, hy, h with
  | [], [], _, _, _ => rfl
  | [x], [y], _, _, h => rw [Option.some.inj h]

/-- The values of a group are ordered maps throughout. -/
def GroupWellFormed (g : List (ℕ × Json ν)) : Prop := ∀ e ∈ g, e.2.WellFormed

omit [JsonNumber ν] in
theorem GroupWellFormed.head {g : List (ℕ × Json ν)} (h : GroupWellFormed g) :
    AllWellFormed (g.head?.map Prod.snd) := by
  intro v hv
  obtain ⟨e, he, rfl⟩ := Option.map_eq_some_iff.mp hv
  exact h e (List.mem_of_head? he)

omit [JsonNumber ν] in
/-- Single items are the same when their values are. -/
theorem map_snd_eq_of_head {o n : List (ℕ × Json ν)} (ho : o.length ≤ 1) (hn : n.length ≤ 1)
    (h : o.head?.map Prod.snd = n.head?.map Prod.snd) : o.map Prod.snd = n.map Prod.snd := by
  rw [← List.head?_map, ← List.head?_map] at h
  exact eq_of_head?_eq (by rw [List.length_map]; exact ho) (by rw [List.length_map]; exact hn) h

/-- **A group has no change exactly when its items are the same, in order.** -/
theorem groupDiff_eq_nil (path : Path) (identity : String) {o n : List (ℕ × Json ν)}
    (ho : GroupWellFormed o) (hn : GroupWellFormed n) :
    groupDiff path identity o n = [] ↔ o.map Prod.snd = n.map Prod.snd := by
  rw [groupDiff, List.map_eq_nil_iff, groupChanges]
  by_cases hsingle : o.length ≤ 1 ∧ n.length ≤ 1
  · rw [if_pos hsingle, walk_eq, List.map_eq_nil_iff, walk_eq_nil ho.head hn.head]
    constructor
    · exact map_snd_eq_of_head hsingle.1 hsingle.2
    · intro h
      rw [← List.head?_map, ← List.head?_map, h]
  · rw [if_neg hsingle]
    by_cases hsame : o.map Prod.snd = n.map Prod.snd
    · rw [if_pos hsame]
      exact iff_of_true rfl hsame
    · rw [if_neg hsame]
      exact iff_of_false (List.cons_ne_nil _ _) hsame

/-- A single item's changes are not those of a group that is ambiguous. -/
theorem walk_ne_group {old new : Option (Json ν)} {p q : Path} {c : Change ν}
    (hkind : c.kind = .ambiguousIdentityGroupChanged) : walk old new p q ≠ [c] := by
  intro h
  rw [walk_eq] at h
  obtain ⟨d, hd, rfl⟩ := List.mem_map.mp (h ▸ List.mem_singleton_self c)
  exact (walk_plain old new d hd).notGroup hkind

theorem groupChanges_identity (path : Path) (o n : List (ℕ × Json ν)) :
    ∀ c ∈ groupChanges path o n, c.identity = none := by
  rw [groupChanges]
  split_ifs
  · rw [walk_eq]
    intro c hc
    obtain ⟨d, hd, rfl⟩ := List.mem_map.mp hc
    exact (walk_plain _ _ d hd).noIdentity
  · exact fun _ hc => nomatch hc
  · exact List.forall_mem_singleton.mpr rfl

/-- **The changes of a group determine its items.** -/
theorem groupChanges_injective (path : Path) {o n n' : List (ℕ × Json ν)}
    (ho : GroupWellFormed o) (hn : GroupWellFormed n) (hn' : GroupWellFormed n')
    (h : groupChanges path o n = groupChanges path o n') :
    n.map Prod.snd = n'.map Prod.snd := by
  rw [groupChanges, groupChanges] at h
  by_cases hsingle : o.length ≤ 1 ∧ n.length ≤ 1 <;>
    by_cases hsingle' : o.length ≤ 1 ∧ n'.length ≤ 1
  · rw [if_pos hsingle, if_pos hsingle', walk_eq,
      walk_eq _ (n'.head?.map Prod.snd)] at h
    have hplain := walk_plain (o.head?.map Prod.snd) (n.head?.map Prod.snd)
    have hplain' := walk_plain (o.head?.map Prod.snd) (n'.head?.map Prod.snd)
    have hwalks : walk (o.head?.map Prod.snd) (n.head?.map Prod.snd) [] [] =
        walk (o.head?.map Prod.snd) (n'.head?.map Prod.snd) [] [] := by
      by_cases hnil : n = []
      · subst hnil
        exact under_cancel hplain hplain' (Or.inl (walk_none_newPath _)) h
      by_cases hnil' : n' = []
      · subst hnil'
        exact (under_cancel hplain' hplain (Or.inl (walk_none_newPath _)) h.symm).symm
      · exact under_cancel hplain hplain' (Or.inr (itemPath_sep path n n' hnil hnil')) h
    exact map_snd_eq_of_head hsingle.2 hsingle'.2
      (walk_injective ho.head hn.head hn'.head hwalks)
  · have hlong : o.map Prod.snd ≠ n'.map Prod.snd := by
      intro heq
      have hlen := congrArg List.length heq
      rw [List.length_map, List.length_map] at hlen
      omega
    rw [if_pos hsingle, if_neg hsingle', if_neg hlong] at h
    exact absurd h (walk_ne_group rfl)
  · have hlong : o.map Prod.snd ≠ n.map Prod.snd := by
      intro heq
      have hlen := congrArg List.length heq
      rw [List.length_map, List.length_map] at hlen
      omega
    rw [if_neg hsingle, if_pos hsingle', if_neg hlong] at h
    exact absurd h.symm (walk_ne_group rfl)
  · rw [if_neg hsingle, if_neg hsingle'] at h
    by_cases hsame : o.map Prod.snd = n.map Prod.snd <;>
      by_cases hsame' : o.map Prod.snd = n'.map Prod.snd
    · exact hsame.symm.trans hsame'
    · rw [if_pos hsame, if_neg hsame'] at h
      cases h
    · rw [if_neg hsame, if_pos hsame'] at h
      cases h
    · rw [if_neg hsame, if_neg hsame'] at h
      have hafter := congrArg Change.after (List.singleton_injective h)
      exact Json.array.inj hafter

/-- **The changes of an identity determine its items.** -/
theorem groupDiff_injective (path : Path) (identity : String) {o n n' : List (ℕ × Json ν)}
    (ho : GroupWellFormed o) (hn : GroupWellFormed n) (hn' : GroupWellFormed n')
    (h : groupDiff path identity o n = groupDiff path identity o n') :
    n.map Prod.snd = n'.map Prod.snd := by
  have hrestore : ∀ m : List (ℕ × Json ν), ∀ c ∈ groupChanges path o m,
      { ({ c with identity := some identity } : Change ν) with identity := none } = c := by
    intro m c hc
    have hnone := groupChanges_identity path o m c hc
    obtain ⟨_, _, _, _, _, _, _, _⟩ := c
    cases hnone
    rfl
  exact groupChanges_injective path ho hn hn'
    (@eq_of_map_eq _ _ _ (fun c => { c with identity := none }) _ _ (hrestore n) (hrestore n') h)

/-! ### The changes of a collection -/

/-- The items of an array are put in another order. -/
def Reordered (_keys : List String) (xs ys : List (Json ν)) : Prop := xs.Perm ys

/-- The items of an array are put in another order, and the items of one identity keep
theirs. -/
def StablyReordered (keys : List String) (xs ys : List (Json ν)) : Prop :=
  xs.Perm ys ∧ ∀ identity, itemsOf keys identity xs = itemsOf keys identity ys

/-- A collection is the same, up to what is allowed of an array whose items have an identity. -/
def SameCollection (allowed : List String → List (Json ν) → List (Json ν) → Prop)
    (domain collection : String) (old new : Option (Json ν)) : Prop :=
  old = new ∨ ∃ keys xs ys, identityKeys domain collection = some keys ∧
    old = some (.array xs) ∧ new = some (.array ys) ∧ Keyed keys xs ∧ Keyed keys ys ∧
    allowed keys xs ys

/-- Documents are the same without their version fields, collection by collection. -/
def SameDocument (allowed : List String → List (Json ν) → List (Json ν) → Prop)
    (domain : String) (old new : Json ν) : Prop :=
  match old, new with
  | .object a, .object b =>
      ∀ collection, isVersion collection = false →
        SameCollection allowed domain collection (SortedMap.get a collection)
          (SortedMap.get b collection)
  | old, new => old = new

/-- Arrays with the same items under every identity are stably reordered. -/
theorem stablyReordered_of_itemsOf {keys : List String} {xs ys : List (Json ν)}
    (hx : Keyed keys xs) (hy : Keyed keys ys)
    (h : ∀ identity, itemsOf keys identity xs = itemsOf keys identity ys) :
    StablyReordered keys xs ys := by
  refine ⟨perm_of_filter_eq (identityOf keys) fun identity => ?_, h⟩
  cases identity with
  | some identity => exact h identity
  | none =>
      have hnone : ∀ {zs : List (Json ν)}, Keyed keys zs →
          (zs.filter fun x => identityOf keys x = none) = [] := by
        intro zs hzs
        apply List.filter_eq_nil_iff.mpr
        intro x hx hnone
        have hsome := hzs x hx
        rw [of_decide_eq_true hnone] at hsome
        cases hsome
      rw [hnone hx, hnone hy]

/-- What pairs the sides of a collection by identity. -/
theorem keyedPair_eq_some {domain collection : String} {old new : Option (Json ν)}
    {o n : KeyedItems ν} (h : keyedPair domain collection old new = some (o, n)) :
    ∃ keys xs ys, identityKeys domain collection = some keys ∧ old = some (.array xs) ∧
      new = some (.array ys) ∧ keyedFrom keys xs 0 [] = some o ∧
      keyedFrom keys ys 0 [] = some n := by
  simp only [keyedPair, Option.bind_eq_bind, Option.bind_eq_some_iff, Option.pure_def] at h
  obtain ⟨keys, hkeys, v, hv, o', ho, w, hw, n', hn, heq⟩ := h
  cases heq
  have harray : ∀ {v : Json ν} {m : KeyedItems ν}, keyed v keys = some m →
      ∃ zs, v = .array zs ∧ keyedFrom keys zs 0 [] = some m := by
    intro v m hm
    cases v with
    | array zs => exact ⟨zs, rfl, hm⟩
    | _ => cases hm
  obtain ⟨xs, rfl, hxs⟩ := harray ho
  obtain ⟨ys, rfl, hys⟩ := harray hn
  exact ⟨keys, xs, ys, hkeys, hv, hw, hxs, hys⟩

theorem keyedPair_of_keyed {domain collection : String} {keys : List String}
    (hkeys : identityKeys domain collection = some keys) {xs ys : List (Json ν)}
    (hx : Keyed keys xs) (hy : Keyed keys ys) :
    ∃ o n, keyedPair domain collection (some (.array xs)) (some (.array ys)) = some (o, n) := by
  obtain ⟨o, ho⟩ := (keyedFrom_spec keys xs 0 []).1 hx
  obtain ⟨n, hn⟩ := (keyedFrom_spec keys ys 0 []).1 hy
  refine ⟨o, n, ?_⟩
  simp [keyedPair, hkeys, keyed, ho, hn]

/-- The groups of an array of ordered maps hold ordered maps. -/
theorem groupWellFormed {keys : List String} {xs : List (Json ν)} {m : KeyedItems ν}
    (h : keyedFrom keys xs 0 [] = some m) (hxs : (Json.array xs).WellFormed)
    (identity : String) : GroupWellFormed (group m identity) := by
  intro e he
  have hitems := ((keyedFrom_spec keys xs 0 []).2 m h).2 identity
  have hmem : e.2 ∈ itemsOf keys identity xs := by
    have hmap := List.mem_map_of_mem (f := Prod.snd) he
    rw [hitems] at hmap
    exact hmap
  cases hxs with
  | array hall => exact hall e.2 (List.mem_filter.mp hmem).1

/-- The items of a group, in the terms of the array. -/
theorem group_items {keys : List String} {xs : List (Json ν)} {m : KeyedItems ν}
    (h : keyedFrom keys xs 0 [] = some m) (identity : String) :
    (group m identity).map Prod.snd = itemsOf keys identity xs :=
  ((keyedFrom_spec keys xs 0 []).2 m h).2 identity

omit [JsonNumber ν] in
theorem group_of_not_mem_keysOf {o n : KeyedItems ν} {identity : String}
    (h : identity ∉ keysOf o n) : group o identity = [] ∧ group n identity = [] := by
  obtain ⟨ho, hn⟩ := get_eq_none_of_not_mem_keysOf h
  rw [group, group, ho, hn]
  exact ⟨rfl, rfl⟩

theorem groupDiff_of_not_mem_keysOf (path : Path) {o n : KeyedItems ν} {identity : String}
    (h : identity ∉ keysOf o n) :
    groupDiff path identity (group o identity) (group n identity) = [] := by
  obtain ⟨ho, hn⟩ := group_of_not_mem_keysOf h
  rw [ho, hn]
  have hnil : GroupWellFormed ([] : List (ℕ × Json ν)) := fun _ h => absurd h List.not_mem_nil
  exact (groupDiff_eq_nil path identity hnil hnil).mpr rfl

/-- The changes of a keyed collection carry their identity. -/
theorem belongs_of_groupDiff (path : Path) (o n : KeyedItems ν) (identity : String) :
    ∀ c ∈ groupDiff path identity (group o identity) (group n identity),
      ∀ identity', c.identity = some identity' ↔ identity' = identity := by
  intro c hc identity'
  rw [groupDiff_identity path identity _ _ c hc]
  exact ⟨fun h => (Option.some.inj h).symm, fun h => by rw [h]⟩

/-- **A collection has no change exactly when it is the same**, up to stable reordering. -/
theorem collectionDiff_eq_nil {domain collection : String} {old new : Option (Json ν)}
    (hold : AllWellFormed old) (hnew : AllWellFormed new) :
    collectionDiff domain collection old new = [] ↔
      SameCollection StablyReordered domain collection old new := by
  rw [collectionDiff]
  cases hpair : keyedPair domain collection old new with
  | none =>
      simp only
      rw [List.map_eq_nil_iff, walk_eq, List.map_eq_nil_iff, walk_eq_nil hold hnew]
      refine ⟨Or.inl, fun h => ?_⟩
      rcases h with heq | ⟨keys, xs, ys, hkeys, rfl, rfl, hx, hy, -⟩
      · exact heq
      · obtain ⟨o, n, hsome⟩ := keyedPair_of_keyed hkeys hx hy
        rw [hpair] at hsome
        cases hsome
  | some p =>
      obtain ⟨o, n⟩ := p
      obtain ⟨keys, xs, ys, hkeys, rfl, rfl, ho, hn⟩ := keyedPair_eq_some hpair
      have hgo := groupWellFormed ho (hold _ rfl)
      have hgn := groupWellFormed hn (hnew _ rfl)
      have hx := ((keyedFrom_spec keys xs 0 []).2 o ho).1
      have hy := ((keyedFrom_spec keys ys 0 []).2 n hn).1
      simp only
      rw [List.flatMap_eq_nil_iff]
      constructor
      · intro h
        refine Or.inr ⟨keys, xs, ys, hkeys, rfl, rfl, hx, hy,
          stablyReordered_of_itemsOf hx hy fun identity => ?_⟩
        rw [← group_items ho, ← group_items hn]
        by_cases hmem : identity ∈ keysOf o n
        · exact (groupDiff_eq_nil _ identity (hgo identity) (hgn identity)).mp
            (h identity hmem)
        · obtain ⟨hno, hnn⟩ := group_of_not_mem_keysOf hmem
          rw [hno, hnn]
      · intro h identity _
        rw [groupDiff_eq_nil _ identity (hgo identity) (hgn identity), group_items ho,
          group_items hn]
        rcases h with heq | ⟨keys', xs', ys', hkeys', hx', hy', -, -, -, hitems⟩
        · rw [Json.array.inj (Option.some.inj heq)]
        · rw [hkeys] at hkeys'
          cases hkeys'
          cases hx'
          cases hy'
          exact hitems identity

/-- A change between two values has no identity, and is restored from its note. -/
theorem walk_note (domain collection : String) (old new : Option (Json ν)) (path : Path) :
    ∀ c ∈ walk old new path path, (note domain collection c).identity = none ∧
      { note domain collection c with identityDiagnostic := none } = c := by
  rw [walk_eq]
  intro c hc
  obtain ⟨d, hd, rfl⟩ := List.mem_map.mp hc
  have hplain := walk_plain old new d hd
  have hidentity := hplain.noIdentity
  have hdiagnostic := hplain.noDiagnostic
  obtain ⟨_, _, _, _, _, _, _, _⟩ := d
  cases hidentity
  cases hdiagnostic
  rw [note]
  split_ifs <;> exact ⟨rfl, rfl⟩

/-- A keyed collection and one that is not have the same changes only when they have none. -/
theorem keyed_ne_unkeyed {domain collection : String} {old new new' : Option (Json ν)}
    (hold : AllWellFormed old) (hnew : AllWellFormed new) (hnew' : AllWellFormed new')
    {p : KeyedItems ν × KeyedItems ν} (hpair : keyedPair domain collection old new = some p)
    (hpair' : keyedPair domain collection old new' = none)
    (h : collectionDiff domain collection old new = collectionDiff domain collection old new') :
    False := by
  have hnil : collectionDiff domain collection old new = [] := by
    rw [List.eq_nil_iff_forall_not_mem]
    intro c hc
    have hc' := h ▸ hc
    simp only [collectionDiff, hpair] at hc
    simp only [collectionDiff, hpair'] at hc'
    obtain ⟨identity, -, hmem⟩ := List.mem_flatMap.mp hc
    have hsome := groupDiff_identity _ identity _ _ c hmem
    obtain ⟨d, hd, rfl⟩ := List.mem_map.mp hc'
    rw [(walk_note domain collection old new' _ d hd).1] at hsome
    cases hsome
  have hsame := (collectionDiff_eq_nil hold hnew').mp (h ▸ hnil)
  obtain ⟨o, n⟩ := p
  obtain ⟨keys, xs, ys, hkeys, rfl, rfl, ho, hn⟩ := keyedPair_eq_some hpair
  have hx := ((keyedFrom_spec keys xs 0 []).2 o ho).1
  rcases hsame with rfl | ⟨keys', xs', ys', hkeys', hx', rfl, hkx, hky, -⟩
  · obtain ⟨o', n', hsome⟩ := keyedPair_of_keyed hkeys hx hx
    rw [hpair'] at hsome
    cases hsome
  · cases hx'
    obtain ⟨o', n', hsome⟩ := keyedPair_of_keyed hkeys' hkx hky
    rw [hpair'] at hsome
    cases hsome

/-- **The changes of a collection determine it**, up to stable reordering. -/
theorem collectionDiff_injective {domain collection : String} {old new new' : Option (Json ν)}
    (hold : AllWellFormed old) (hnew : AllWellFormed new) (hnew' : AllWellFormed new')
    (h : collectionDiff domain collection old new = collectionDiff domain collection old new') :
    SameCollection StablyReordered domain collection new new' := by
  cases hpair : keyedPair domain collection old new with
  | none =>
      cases hpair' : keyedPair domain collection old new' with
      | none =>
          simp only [collectionDiff, hpair, hpair'] at h
          have hwalks := @eq_of_map_eq _ _ (note domain collection)
            (fun c => { c with identityDiagnostic := none }) _ _
            (fun c hc => (walk_note domain collection old new _ c hc).2)
            (fun c hc => (walk_note domain collection old new' _ c hc).2) h
          rw [walk_eq, walk_eq old new'] at hwalks
          exact Or.inl (walk_injective hold hnew hnew'
            (List.map_injective_iff.mpr (Change.under_injective _ _) hwalks))
      | some p' => exact (keyed_ne_unkeyed hold hnew' hnew hpair' hpair h.symm).elim
  | some p =>
      cases hpair' : keyedPair domain collection old new' with
      | none => exact (keyed_ne_unkeyed hold hnew hnew' hpair hpair' h).elim
      | some p' =>
          obtain ⟨o, n⟩ := p
          obtain ⟨o', n'⟩ := p'
          obtain ⟨keys, xs, ys, hkeys, rfl, rfl, ho, hn⟩ := keyedPair_eq_some hpair
          obtain ⟨keys', xs', ys', hkeys', hxs, rfl, ho', hn'⟩ := keyedPair_eq_some hpair'
          rw [hkeys] at hkeys'
          cases hkeys'
          cases hxs
          rw [ho] at ho'
          cases ho'
          simp only [collectionDiff, hpair, hpair'] at h
          have hpieces := flatMap_pieces
            (fun identity (c : Change ν) => c.identity = some identity) (keysOf_nodup o n)
            (keysOf_nodup o n') (fun identity => belongs_of_groupDiff _ o n identity)
            (fun identity => belongs_of_groupDiff _ o n' identity)
            (fun _ hmem => groupDiff_of_not_mem_keysOf _ hmem)
            (fun _ hmem => groupDiff_of_not_mem_keysOf _ hmem) h
          have hy := ((keyedFrom_spec keys ys 0 []).2 n hn).1
          have hy' := ((keyedFrom_spec keys ys' 0 []).2 n' hn').1
          refine Or.inr ⟨keys, ys, ys', hkeys, rfl, rfl, hy, hy',
            stablyReordered_of_itemsOf hy hy' fun identity => ?_⟩
          rw [← group_items hn, ← group_items hn']
          exact groupDiff_injective _ identity (groupWellFormed ho (hold _ rfl) identity)
            (groupWellFormed hn (hnew _ rfl) identity)
            (groupWellFormed hn' (hnew' _ rfl) identity) (hpieces identity)

/-! ### The changes of a document -/

omit [JsonNumber ν] in
theorem leafChange_old (old new : Option (Json ν)) (p q : Path) :
    (leafChange old new p q).oldPath = old.map fun _ => p := by
  unfold leafChange
  split <;> rfl

theorem walk_none_oldPath (new : Option (Json ν)) :
    ∀ c ∈ walk none new [] [], c.oldPath = none := by
  cases walkCase none new with
  | same h =>
      rw [← h, walk_self]
      exact fun _ hc => nomatch hc
  | leaf hne h =>
      rw [h]
      exact List.forall_mem_singleton.mpr (leafChange_old none new [] [])
  | objects a b hleft _ _ _ => cases hleft

/-- A change of a group is found below the path of its collection. -/
theorem position_of_groupChanges (path : Path) (o n : List (ℕ × Json ν)) :
    ∀ c ∈ groupChanges path o n, ∃ s, Sub s ∧ c.position = some (path ++ s) := by
  rw [groupChanges]
  split_ifs
  · rw [walk_eq]
    intro c hc
    obtain ⟨d, hd, rfl⟩ := List.mem_map.mp hc
    obtain ⟨s, hs, -⟩ := (walk_plain _ _ d hd).position
    have hitem : ∀ g : List (ℕ × Json ν), g ≠ [] →
        ∃ t, Sub t ∧ itemPath path g ++ s = path ++ t := by
      intro g hg
      obtain ⟨⟨i, v⟩, rest, rfl⟩ := List.exists_cons_of_ne_nil hg
      exact ⟨'/' :: Nat.toDigits 10 i ++ s, sub_cons _, List.append_assoc _ _ _⟩
    rw [Change.position] at hs
    rw [Change.position, Change.under]
    cases hold : d.oldPath with
    | some p =>
        rw [hold] at hs
        cases hs
        have ho : o ≠ [] := by
          rintro rfl
          rw [walk_none_oldPath _ d hd] at hold
          cases hold
        obtain ⟨t, ht, heq⟩ := hitem o ho
        exact ⟨t, ht, congrArg some heq⟩
    | none =>
        rw [hold, Option.none_or] at hs
        have hn : n ≠ [] := by
          rintro rfl
          rw [walk_none_newPath _ d hd] at hs
          cases hs
        obtain ⟨t, ht, heq⟩ := hitem n hn
        rw [hs]
        exact ⟨t, ht, congrArg some heq⟩
  · exact fun _ hc => nomatch hc
  · exact List.forall_mem_singleton.mpr ⟨[], sub_nil, congrArg some (List.append_nil _).symm⟩

/-- A change of a collection belongs to it. -/
theorem belongs_of_collectionDiff (domain collection : String) (old new : Option (Json ν)) :
    ∀ c ∈ collectionDiff domain collection old new, Belongs collection c := by
  rw [collectionDiff]
  cases keyedPair domain collection old new with
  | some p =>
      intro c hc
      obtain ⟨identity, -, hc⟩ := List.mem_flatMap.mp hc
      obtain ⟨d, hd, rfl⟩ := List.mem_map.mp hc
      obtain ⟨s, hs, hpos⟩ := position_of_groupChanges _ _ _ d hd
      exact ⟨s, hs, hpos⟩
  | none =>
      intro c hc
      obtain ⟨d, hd, rfl⟩ := List.mem_map.mp hc
      rw [walk_eq] at hd
      obtain ⟨e, he, rfl⟩ := List.mem_map.mp hd
      obtain ⟨s, hs, hpos⟩ := ((walk_plain old new e he).under_key collection).2
      refine ⟨s, hs, Eq.trans ?_ hpos⟩
      rw [note]
      split_ifs <;> rfl

/-- The changes of one collection of two objects. -/
def comparedDiff (domain : String) (a b : List (String × Json ν)) (collection : String) :
    List (Change ν) :=
  if isVersion collection then []
  else collectionDiff domain collection (SortedMap.get a collection) (SortedMap.get b collection)

theorem belongs_of_comparedDiff (domain : String) (a b : List (String × Json ν))
    (collection : String) :
    ∀ c ∈ comparedDiff domain a b collection,
      ∀ collection', Belongs collection' c ↔ collection' = collection := by
  intro c hc collection'
  rw [comparedDiff] at hc
  split_ifs at hc
  · exact absurd hc List.not_mem_nil
  · have hbelongs := belongs_of_collectionDiff domain collection _ _ c hc
    exact ⟨fun h => belongs_unique hbelongs h, fun h => h ▸ hbelongs⟩

theorem comparedDiff_of_not_mem_keysOf (domain : String) {a b : List (String × Json ν)}
    {collection : String} (h : collection ∉ keysOf a b) :
    comparedDiff domain a b collection = [] := by
  obtain ⟨ha, hb⟩ := get_eq_none_of_not_mem_keysOf h
  have hnone : AllWellFormed (none : Option (Json ν)) := fun _ h => nomatch h
  rw [comparedDiff, ha, hb, (collectionDiff_eq_nil hnone hnone).mpr (Or.inl rfl), ite_self]

theorem sameDocument_refl (allowed : List String → List (Json ν) → List (Json ν) → Prop)
    (domain : String) (v : Json ν) : SameDocument allowed domain v v := by
  cases v with
  | object a => exact fun _ _ => Or.inl rfl
  | _ => rfl

/-- A JSON document: every object in it is an ordered map. -/
abbrev Document (ν : Type) := {v : Json ν // v.WellFormed}

omit [JsonNumber ν] in
theorem Document.allWellFormed (d : Document ν) : AllWellFormed (some d.1) := by
  intro v hv
  obtain rfl := Option.some.inj hv
  exact d.2

/-- Two documents, compared as objects or as whole values. -/
inductive DocumentCase (domain : String) (old new : Json ν) : Prop
  | objects (a b : List (String × Json ν)) (hold : old = .object a) (hnew : new = .object b)
  | values (hobj : ¬ ∃ a b, old = .object a ∧ new = .object b)
      (hdiff : documentDiff domain old new = walk (some old) (some new) [] [])
      (hsame : ∀ allowed, SameDocument allowed domain old new ↔ old = new)

theorem documentCase (domain : String) (old new : Json ν) : DocumentCase domain old new := by
  by_cases hobj : ∃ a b, old = .object a ∧ new = .object b
  · obtain ⟨a, b, hold, hnew⟩ := hobj
    exact .objects a b hold hnew
  · refine .values hobj ?_ fun allowed => ?_
    · rw [documentDiff.eq_def]
      split
      · exact absurd ⟨_, _, rfl, rfl⟩ hobj
      · rfl
    · rw [SameDocument.eq_def]
      split
      · exact absurd ⟨_, _, rfl, rfl⟩ hobj
      · exact Iff.rfl

/-- **There is no change exactly between the same documents.** -/
theorem documentDiff_eq_nil (domain : String) (old new : Document ν) :
    documentDiff domain old.1 new.1 = [] ↔
      SameDocument StablyReordered domain old.1 new.1 := by
  cases documentCase domain old.1 new.1 with
  | values _ hdiff hsame =>
      rw [hdiff, hsame, walk_eq_nil old.allWellFormed new.allWellFormed]
      exact ⟨Option.some.inj, congrArg some⟩
  | objects a b hold hnew =>
      have ha : (Json.object a).WellFormed := hold ▸ old.2
      have hb : (Json.object b).WellFormed := hnew ▸ new.2
      rw [hold, hnew]
      show (keysOf a b).flatMap (comparedDiff domain a b) = [] ↔ _
      rw [List.flatMap_eq_nil_iff]
      constructor
      · intro h collection hversion
        have hnil : comparedDiff domain a b collection = [] := by
          by_cases hmem : collection ∈ keysOf a b
          · exact h collection hmem
          · exact comparedDiff_of_not_mem_keysOf domain hmem
        rw [comparedDiff, hversion, if_neg Bool.false_ne_true] at hnil
        exact (collectionDiff_eq_nil (allWellFormed_get ha collection)
          (allWellFormed_get hb collection)).mp hnil
      · intro h collection _
        rw [comparedDiff]
        cases hversion : isVersion collection with
        | true => rfl
        | false =>
            exact (collectionDiff_eq_nil (allWellFormed_get ha collection)
              (allWellFormed_get hb collection)).mpr (h collection hversion)

/-- The changes from an object to another and to a value that is none are not the same. -/
theorem objects_ne_values {domain : String} {a b : List (String × Json ν)} {new : Json ν}
    (hobj : ∀ b', new ≠ .object b')
    (h : (keysOf a b).flatMap (comparedDiff domain a b) =
      walk (some (.object a)) (some new) [] []) : False := by
  cases walkCase (some (.object a)) (some new) with
  | same hsame => exact hobj a (Option.some.inj hsame).symm
  | objects _ b' _ hright _ _ => exact hobj b' (Option.some.inj hright)
  | leaf hne hleaf =>
      rw [hleaf] at h
      obtain ⟨collection, -, hmem⟩ :=
        List.mem_flatMap.mp (h.symm ▸ List.mem_singleton_self _)
      obtain ⟨s, -, hpos⟩ := (belongs_of_comparedDiff domain a b collection _ hmem collection).mpr rfl
      rw [(leafChange_plain hne).2] at hpos
      cases hpos

/-- **The changes from a document determine the document they lead to.** -/
theorem documentDiff_injective (domain : String) (old new new' : Document ν)
    (h : documentDiff domain old.1 new.1 = documentDiff domain old.1 new'.1) :
    SameDocument StablyReordered domain new.1 new'.1 := by
  cases documentCase domain old.1 new.1 with
  | values hobj hdiff _ =>
      cases documentCase domain old.1 new'.1 with
      | values _ hdiff' _ =>
          rw [hdiff, hdiff'] at h
          have heq := walk_injective old.allWellFormed new.allWellFormed new'.allWellFormed h
          rw [Option.some.inj heq]
          exact sameDocument_refl _ _ _
      | objects a b' hold hnew' =>
          rw [hdiff, hold, hnew'] at h
          exact (objects_ne_values (fun b hb => hobj ⟨a, b, hold, hb⟩) h.symm).elim
  | objects a b hold hnew =>
      cases documentCase domain old.1 new'.1 with
      | values hobj' hdiff' _ =>
          rw [hdiff', hold, hnew] at h
          exact (objects_ne_values (fun b' hb' => hobj' ⟨a, b', hold, hb'⟩) h).elim
      | objects a' b' hold' hnew' =>
          obtain rfl : a = a' := Json.object.inj (hold.symm.trans hold')
          have ha : (Json.object a).WellFormed := hold ▸ old.2
          have hb : (Json.object b).WellFormed := hnew ▸ new.2
          have hb' : (Json.object b').WellFormed := hnew' ▸ new'.2
          rw [hold, hnew, hnew'] at h
          have hpieces := flatMap_pieces Belongs (keysOf_nodup a b) (keysOf_nodup a b')
            (belongs_of_comparedDiff domain a b) (belongs_of_comparedDiff domain a b')
            (fun _ hmem => comparedDiff_of_not_mem_keysOf domain hmem)
            (fun _ hmem => comparedDiff_of_not_mem_keysOf domain hmem) h
          rw [hnew, hnew']
          intro collection hversion
          have hpiece := hpieces collection
          rw [comparedDiff, comparedDiff, hversion, if_neg Bool.false_ne_true,
            if_neg Bool.false_ne_true] at hpiece
          exact collectionDiff_injective (allWellFormed_get ha collection)
            (allWellFormed_get hb collection) (allWellFormed_get hb' collection) hpiece

/-- **The changes between documents are complete and exact**, up to the order of the items of a
keyed collection, when the items of one identity keep theirs. -/
theorem documentDiff_exact (domain : String) :
    (∀ old new : Document ν, documentDiff domain old.1 new.1 = [] ↔
      SameDocument StablyReordered domain old.1 new.1) ∧
    ∀ old new new' : Document ν,
      documentDiff domain old.1 new.1 = documentDiff domain old.1 new'.1 →
        SameDocument StablyReordered domain new.1 new'.1 :=
  ⟨documentDiff_eq_nil domain, documentDiff_injective domain⟩

/-- An enum of module `A`, and one of the same name with a variant. -/
def enumTwice : List (Json ℕ) :=
  [.object [("module", .string "A"), ("name", .string "X"), ("variants", .array [])],
    .object [("module", .string "A"), ("name", .string "X"), ("variants", .array [.number 1])]]

/-- Items of one identity that change places are a change. -/
theorem documentDiff_counts_places :
    ¬ (documentDiff "enums" (.object [("enums", .array enumTwice)])
        (.object [("enums", .array enumTwice.reverse)]) = [] ↔
      SameDocument Reordered "enums" (.object [("enums", .array enumTwice)])
        (.object [("enums", .array enumTwice.reverse)])) := by
  have hdiff : documentDiff "enums" (.object [("enums", .array enumTwice)])
      (.object [("enums", .array enumTwice.reverse)]) ≠ [] := by decide +kernel
  have hsame : SameDocument Reordered "enums" (.object [("enums", .array enumTwice)])
      (.object [("enums", .array enumTwice.reverse)]) := by
    intro collection _
    by_cases hname : collection = "enums"
    · subst hname
      exact Or.inr ⟨["module", "name"], enumTwice, enumTwice.reverse, rfl, rfl, rfl,
        by unfold Keyed; decide +kernel, by unfold Keyed; decide +kernel,
        (List.reverse_perm _).symm⟩
    · rw [SortedMap.get_cons, SortedMap.get_cons, if_neg hname, if_neg hname]
      exact Or.inl rfl
  exact fun h => hdiff (h.mpr hsame)

end Whatspec.Contract

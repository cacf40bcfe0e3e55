import Whatspec.Contract.DiffExact
import Whatspec.Library.JsonPointer

/-!
# The paths of changes lead to what has changed

The paths of a change are JSON pointers into the two documents.  Below a keyed collection the two
pointers go through the same identity, which is at one index in the old array and at another in the
new one.

* `Counterpart` says which pointers of the two documents belong together;
* `Located` is what the paths of a change between two values lead to, and `walk_located` that they
  do;
* **`documentDiff_pointers`**: a path leads to the value reported, and is missing exactly when there
  is no value on that side.
-/

namespace Whatspec.Contract

open Whatspec.Library Whatspec.Library.JsonPointer

variable {ν : Type} [JsonNumber ν]

/-! ### Pointers -/

/-- A key with its tildes escaped. -/
def tildeEscape (c : Char) : List Char := if c = '~' then ['~', '0'] else [c]

theorem replaceEscape_slash : ∀ key : List Char,
    replaceEscape '1' '/' (key.flatMap pointerEscape) = key.flatMap tildeEscape
  | [] => rfl
  | c :: key => by
    rw [List.flatMap_cons, List.flatMap_cons, ← replaceEscape_slash key, pointerEscape, tildeEscape]
    by_cases htilde : c = '~'
    · rw [if_pos htilde, if_pos htilde, List.cons_append, List.singleton_append, replaceEscape,
        if_neg (by decide), replaceEscape_cons (by decide)]
      rfl
    · rw [if_neg htilde, if_neg htilde]
      by_cases hslash : c = '/'
      · rw [if_pos hslash, List.cons_append, List.singleton_append, replaceEscape,
          if_pos ⟨rfl, rfl⟩, hslash]
        rfl
      · rw [if_neg hslash, List.singleton_append, List.singleton_append,
          replaceEscape_cons htilde]

theorem replaceEscape_tilde : ∀ key : List Char,
    replaceEscape '0' '~' (key.flatMap tildeEscape) = key
  | [] => rfl
  | c :: key => by
    rw [List.flatMap_cons, tildeEscape]
    by_cases htilde : c = '~'
    · rw [if_pos htilde, List.cons_append, List.singleton_append, replaceEscape,
        if_pos ⟨rfl, rfl⟩, replaceEscape_tilde key, htilde]
    · rw [if_neg htilde, List.singleton_append, replaceEscape_cons htilde, replaceEscape_tilde key]

/-- **A key is recovered from its token**, whatever characters it has. -/
theorem unescape_pointer (key : String) : unescape (pointer key) = key.toList := by
  rw [pointer_eq, unescape, replaceEscape_slash, replaceEscape_tilde]

omit [JsonNumber ν] in
theorem resolve_field (fields : List (String × Json ν)) (key : String) :
    resolve (.object fields) ('/' :: pointer key) = SortedMap.get fields key := by
  have hslash : '/' ∉ pointer key := fun h => slash_not_mem_pointer key '/' h rfl
  rw [resolve_token _ hslash, step, unescape_pointer, String.ofList_toList]

/-! ### The changes between two values -/

/-- What the paths of a change between two values lead to.  Where there is nothing on one side, the
path of the other side leads to nothing there. -/
structure Located (old new : Option (Json ν)) (c : Change ν) : Prop where
  before : ∀ p, c.oldPath = some p → (old.bind fun v => resolve v p) = some c.before
  after : ∀ q, c.newPath = some q → (new.bind fun v => resolve v q) = some c.after
  oldAbsent : c.oldPath = none → ∃ q, c.newPath = some q ∧ (old.bind fun v => resolve v q) = none
  newAbsent : c.newPath = none → ∃ p, c.oldPath = some p ∧ (new.bind fun v => resolve v p) = none

omit [JsonNumber ν] in
theorem leafChange_located {old new : Option (Json ν)} (h : old ≠ new) :
    Located old new (leafChange old new [] []) := by
  have hwhole : ∀ {v w : Json ν} {p : Path}, some ([] : Path) = some p → some v = some w →
      ((some v).bind fun v => resolve v p) = some w := by
    rintro v w p ⟨⟩ heq
    exact heq
  unfold leafChange
  split
  · exact ⟨fun p hp => hwhole hp rfl, fun q hq => hwhole hq rfl, nofun, nofun⟩
  · cases old with
    | none =>
      cases new with
      | none => exact absurd rfl h
      | some w => exact ⟨nofun, fun q hq => hwhole hq rfl, fun _ => ⟨[], rfl, rfl⟩, nofun⟩
    | some v =>
      cases new with
      | none => exact ⟨fun p hp => hwhole hp rfl, nofun, nofun, fun _ => ⟨[], rfl, rfl⟩⟩
      | some w => exact ⟨fun p hp => hwhole hp rfl, fun q hq => hwhole hq rfl, nofun, nofun⟩

omit [JsonNumber ν] in
/-- The paths of a plain change may be followed. -/
theorem Plain.sub_oldPath {c : Change ν} (h : Plain c) {s : Path} (hs : c.oldPath = some s) :
    Sub s := by
  obtain ⟨t, ht, hsub⟩ := h.position
  rw [Change.position, hs] at ht
  exact Option.some.inj ht ▸ hsub

omit [JsonNumber ν] in
/-- Below one key, as in the values of the key. -/
theorem Located.under_key {a b : List (String × Json ν)} {key : String} {c : Change ν}
    (h : Located (SortedMap.get a key) (SortedMap.get b key) c)
    (hold : ∀ p, c.oldPath = some p → Sub p) (hnew : ∀ q, c.newPath = some q → Sub q) :
    Located (some (.object a)) (some (.object b))
      (c.under ('/' :: pointer key) ('/' :: pointer key)) := by
  have hdown : ∀ (fields : List (String × Json ν)) (s : Path), Sub s →
      resolve (.object fields) ('/' :: pointer key ++ s) =
        (SortedMap.get fields key).bind fun v => resolve v s := by
    intro fields s hs
    rw [resolve_append _ _ _ hs, resolve_field]
  refine ⟨fun p hp => ?_, fun q hq => ?_, fun hnone => ?_, fun hnone => ?_⟩
  · obtain ⟨s, hs, rfl⟩ := Option.map_eq_some_iff.mp hp
    rw [Option.bind_some, hdown a s (hold s hs)]
    exact h.before s hs
  · obtain ⟨s, hs, rfl⟩ := Option.map_eq_some_iff.mp hq
    rw [Option.bind_some, hdown b s (hnew s hs)]
    exact h.after s hs
  · obtain ⟨s, hs, habsent⟩ := h.oldAbsent (Option.map_eq_none_iff.mp hnone)
    refine ⟨'/' :: pointer key ++ s, Option.map_eq_some_iff.mpr ⟨s, hs, rfl⟩, ?_⟩
    rw [Option.bind_some, hdown a s (hnew s hs)]
    exact habsent
  · obtain ⟨s, hs, habsent⟩ := h.newAbsent (Option.map_eq_none_iff.mp hnone)
    refine ⟨'/' :: pointer key ++ s, Option.map_eq_some_iff.mpr ⟨s, hs, rfl⟩, ?_⟩
    rw [Option.bind_some, hdown b s (hold s hs)]
    exact habsent

/-- **The paths of the changes between two values lead to what has changed.** -/
theorem walk_located (old new : Option (Json ν)) : ∀ c ∈ walk old new [] [], Located old new c := by
  induction old using WellFounded.induction (measure (fun v : Option (Json ν) => sizeOf v)).wf
    generalizing new with
  | _ old ih =>
    cases walkCase old new with
    | same h =>
      subst h
      rw [walk_self]
      exact fun _ hc => nomatch hc
    | leaf hne h =>
      rw [h]
      exact List.forall_mem_singleton.mpr (leafChange_located hne)
    | objects a b hold hnew hne h =>
      subst hold hnew
      rw [walk_objects hne]
      intro c hc
      obtain ⟨key, -, hc⟩ := List.mem_flatMap.mp hc
      obtain ⟨d, hd, rfl⟩ := List.mem_map.mp hc
      have hplain := walk_plain _ _ d hd
      exact (ih _ (sizeOf_get_lt a key) _ d hd).under_key (fun p => hplain.sub_oldPath)
        fun q => hplain.sub_newPath

/-! ### Places that belong together -/

/-- The collection is an array on both sides, and every item has the identity of the collection. -/
structure ComparedByIdentity (domain : String) (old new : Json ν) (collection : String)
    (keys : List String) (xs ys : List (Json ν)) : Prop where
  identified : identityKeys domain collection = some keys
  old : field old collection = some (.array xs)
  new : field new collection = some (.array ys)
  oldKeyed : Keyed keys xs
  newKeyed : Keyed keys ys

/-- Where an item of a collection is. -/
def placeOf (collection : String) (index : ℕ) : Path :=
  '/' :: pointer collection ++ '/' :: Nat.toDigits 10 index

/-- A pointer that leads into no collection that is compared by identity. -/
def Apart (domain : String) (old new : Json ν) (p : Path) : Prop :=
  ∀ collection keys xs ys, ComparedByIdentity domain old new collection keys xs ys →
    ∀ s, Sub s → p ≠ '/' :: pointer collection ++ s

/-- The pointers of two documents that belong together: the same pointer, or, in a collection that
is compared by identity, pointers through two items of one identity. -/
inductive Counterpart (domain : String) (old new : Json ν) : Path → Path → Prop
  | place {p : Path} (h : Apart domain old new p) : Counterpart domain old new p p
  | item {collection : String} {keys : List String} {xs ys : List (Json ν)} {i j : ℕ}
      {v w : Json ν} {s : Path} (h : ComparedByIdentity domain old new collection keys xs ys)
      (hold : xs[i]? = some v) (hnew : ys[j]? = some w)
      (hidentity : identityOf keys v = identityOf keys w) (hs : Sub s) :
      Counterpart domain old new (placeOf collection i ++ s) (placeOf collection j ++ s)

theorem digits_ne_slash (n : ℕ) : ∀ c ∈ Nat.toDigits 10 n, c ≠ '/' := by
  intro c hc heq
  have hdigit := isDigit_toDigits n c hc
  rw [heq] at hdigit
  cases hdigit

/-- A pointer below an item tells the collection, the index and the rest. -/
theorem placeOf_append_inj {collection collection' : String} {i j : ℕ} {s t : Path} (hs : Sub s)
    (ht : Sub t) (h : placeOf collection i ++ s = placeOf collection' j ++ t) :
    collection = collection' ∧ i = j ∧ s = t := by
  simp only [placeOf, List.cons_append, List.append_assoc, List.cons.injEq, true_and] at h
  obtain ⟨hkey, hrest⟩ := part_append_inj (slash_not_mem_pointer _) (slash_not_mem_pointer _)
    (sub_cons _) (sub_cons _) h
  obtain ⟨hdigits, hrest⟩ := part_append_inj (digits_ne_slash i) (digits_ne_slash j) hs ht
    (List.cons.inj hrest).2
  exact ⟨pointer_injective hkey, Rendering.toDigits_injective (by decide) (by decide) hdigits,
    hrest⟩

omit [JsonNumber ν] in
theorem resolve_placeOf {document : Json ν} {collection : String} {xs : List (Json ν)}
    (h : field document collection = some (.array xs)) (i : ℕ) {s : Path} (hs : Sub s) :
    resolve document (placeOf collection i ++ s) = xs[i]?.bind fun v => resolve v s := by
  cases document with
  | object fields =>
    have hget : SortedMap.get fields collection = some (.array xs) := h
    have hcollection : resolve (.object fields) ('/' :: pointer collection) = some (.array xs) :=
      (resolve_field fields collection).trans hget
    rw [resolve_append _ _ _ hs, placeOf, resolve_append _ _ _ (sub_cons _), hcollection,
      Option.bind_some, resolve_item]
  | _ => cases h

/-- **The group of an identity** holds the items of that identity with their indices. -/
theorem mem_group_iff {keys : List String} : ∀ {items : List (Json ν)} {index : ℕ}
    {m m' : KeyedItems ν}, keyedFrom keys items index m = some m' → ∀ identity e,
      e ∈ group m' identity ↔ e ∈ group m identity ∨
        ∃ i, e.1 = index + i ∧ items[i]? = some e.2 ∧ identityOf keys e.2 = some identity
  | [], index, m, m', h, identity, e => by
    cases h
    simp
  | item :: rest, index, m, m', h, identity, e => by
    rw [keyedFrom] at h
    cases hid : identityOf keys item with
    | none =>
      rw [hid] at h
      cases h
    | some identity' =>
      simp only [hid] at h
      have hgroup : e ∈ group (SortedMap.insert identity' (group m identity' ++ [(index, item)]) m)
          identity ↔ e ∈ group m identity ∨ identity = identity' ∧ e = (index, item) := by
        rw [group, SortedMap.get_insert]
        by_cases heq : identity = identity'
        · subst heq
          rw [if_pos rfl, Option.getD_some, List.mem_append, List.mem_singleton]
          simp
        · rw [if_neg heq]
          simp [group, heq]
      rw [mem_group_iff h identity e, hgroup, or_assoc]
      refine or_congr_right ⟨?_, ?_⟩
      · rintro (⟨rfl, rfl⟩ | ⟨i, hi, hitem, hidentity⟩)
        · exact ⟨0, rfl, rfl, hid⟩
        · exact ⟨i + 1, by omega, hitem, hidentity⟩
      · rintro ⟨i, hi, hitem, hidentity⟩
        cases i with
        | zero =>
          obtain rfl : item = e.2 := Option.some.inj hitem
          rw [hid] at hidentity
          exact Or.inl ⟨(Option.some.inj hidentity).symm, Prod.ext hi rfl⟩
        | succ i => exact Or.inr ⟨i, by omega, hitem, hidentity⟩

/-! ### The changes of a document -/

/-- What the paths of a change between two documents lead to. -/
structure Pointed (domain : String) (old new : Json ν) (c : Change ν) : Prop where
  before : ∀ p, c.oldPath = some p → resolve old p = some c.before
  after : ∀ q, c.newPath = some q → resolve new q = some c.after
  counterpart : ∀ p q, c.oldPath = some p → c.newPath = some q → Counterpart domain old new p q
  oldAbsent : c.oldPath = none → ∃ q, c.newPath = some q ∧
    ∀ p, Counterpart domain old new p q → resolve old p = none
  newAbsent : c.newPath = none → ∃ p, c.oldPath = some p ∧
    ∀ q, Counterpart domain old new p q → resolve new q = none

/-- A group is the items of one identity, of which there is one at most. -/
structure SingleGroup (keys : List String) (identity : String) (xs : List (Json ν))
    (g : List (ℕ × Json ν)) : Prop where
  mem : ∀ e, e ∈ g ↔ xs[e.1]? = some e.2 ∧ identityOf keys e.2 = some identity
  single : g.length ≤ 1

theorem SingleGroup.eq_singleton {keys : List String} {identity : String} {xs : List (Json ν)}
    {g : List (ℕ × Json ν)} (h : SingleGroup keys identity xs g) {e : ℕ × Json ν} (he : e ∈ g) :
    g = [e] := by
  match g, h.single, he with
  | [], _, he => cases he
  | [d], _, he => rw [List.mem_singleton.mp he]
  | _ :: _ :: _, hlen, _ => exact absurd hlen (by simp)

/-- Below the item of an identity, as in the item. -/
theorem SingleGroup.resolve {keys : List String} {identity : String} {xs : List (Json ν)}
    {g : List (ℕ × Json ν)} (h : SingleGroup keys identity xs g) {document : Json ν}
    {collection : String} (hfield : field document collection = some (.array xs)) {i : ℕ}
    {v : Json ν} (hv : xs[i]? = some v) (hidentity : identityOf keys v = some identity) {s : Path}
    (hs : Sub s) :
    resolve document (placeOf collection i ++ s) =
      (g.head?.map Prod.snd).bind fun v => resolve v s := by
  rw [h.eq_singleton ((h.mem (i, v)).mpr ⟨hv, hidentity⟩), resolve_placeOf hfield i hs, hv]
  rfl

/-- The item of a group that is not empty. -/
theorem SingleGroup.item {keys : List String} {identity : String} {xs : List (Json ν)}
    {g : List (ℕ × Json ν)} (h : SingleGroup keys identity xs g) (collection : String) {s : Path}
    {w : Json ν} (hw : ((g.head?.map Prod.snd).bind fun v => JsonPointer.resolve v s) = some w) :
    ∃ i v, xs[i]? = some v ∧ identityOf keys v = some identity ∧
      itemPath ('/' :: pointer collection) g = placeOf collection i := by
  match g, hw with
  | (i, v) :: _, _ =>
    obtain ⟨hv, hidentity⟩ := (h.mem (i, v)).mp List.mem_cons_self
    exact ⟨i, v, hv, hidentity, rfl⟩

theorem ComparedByIdentity.unique {domain : String} {old new : Json ν} {collection : String}
    {keys keys' : List String} {xs xs' ys ys' : List (Json ν)}
    (h : ComparedByIdentity domain old new collection keys xs ys)
    (h' : ComparedByIdentity domain old new collection keys' xs' ys') :
    keys = keys' ∧ xs = xs' ∧ ys = ys' :=
  ⟨Option.some.inj (h.identified.symm.trans h'.identified),
    Json.array.inj (Option.some.inj (h.old.symm.trans h'.old)),
    Json.array.inj (Option.some.inj (h.new.symm.trans h'.new))⟩

/-- Two pointers that belong together, of which one goes through an item. -/
theorem Counterpart.through_item {domain : String} {old new : Json ν} {collection : String}
    {keys : List String} {xs ys : List (Json ν)}
    (h : ComparedByIdentity domain old new collection keys xs ys) {p q : Path}
    (hpq : Counterpart domain old new p q) {k : ℕ} {s : Path} (hs : Sub s)
    (hthrough : p = placeOf collection k ++ s ∨ q = placeOf collection k ++ s) :
    ∃ i j v w, xs[i]? = some v ∧ ys[j]? = some w ∧ identityOf keys v = identityOf keys w ∧
      p = placeOf collection i ++ s ∧ q = placeOf collection j ++ s := by
  cases hpq with
  | place hapart =>
    have hp : p ≠ placeOf collection k ++ s := by
      rw [placeOf, List.append_assoc]
      exact hapart _ _ _ _ h _ (sub_cons _)
    exact (hthrough.elim hp hp).elim
  | @item collection' keys' xs' ys' i j v w t h' hold hnew hidentity ht =>
    have hsame : collection' = collection ∧ t = s := by
      obtain heq | heq := hthrough
      · obtain ⟨hcollection, -, hrest⟩ := placeOf_append_inj ht hs heq
        exact ⟨hcollection, hrest⟩
      · obtain ⟨hcollection, -, hrest⟩ := placeOf_append_inj ht hs heq
        exact ⟨hcollection, hrest⟩
    obtain ⟨rfl, rfl⟩ := hsame
    obtain ⟨rfl, rfl, rfl⟩ := h.unique h'
    exact ⟨i, j, v, w, hold, hnew, hidentity, rfl, rfl⟩

/-- **The changes of one item.** -/
theorem pointed_item {domain : String} {old new : Json ν} {collection : String}
    {keys : List String} {xs ys : List (Json ν)}
    (h : ComparedByIdentity domain old new collection keys xs ys) {identity : String}
    {o n : List (ℕ × Json ν)} (ho : SingleGroup keys identity xs o)
    (hn : SingleGroup keys identity ys n) {c : Change ν}
    (hc : c ∈ walk (o.head?.map Prod.snd) (n.head?.map Prod.snd) [] []) :
    Pointed domain old new
      (c.under (itemPath ('/' :: pointer collection) o) (itemPath ('/' :: pointer collection) n)) := by
  have hplain := walk_plain _ _ c hc
  have hlocated := walk_located _ _ c hc
  -- The item of a side is there when a path of that side is.
  have hbefore := fun s hs => ho.item collection (hlocated.before s hs)
  have hafter := fun s hs => hn.item collection (hlocated.after s hs)
  refine ⟨fun p hp => ?_, fun q hq => ?_, fun p q hp hq => ?_, fun hnone => ?_, fun hnone => ?_⟩
  · obtain ⟨s, hs, rfl⟩ := Option.map_eq_some_iff.mp hp
    obtain ⟨i, v, hv, hidentity, hpath⟩ := hbefore s hs
    rw [hpath, ho.resolve h.old hv hidentity (hplain.sub_oldPath hs)]
    exact hlocated.before s hs
  · obtain ⟨s, hs, rfl⟩ := Option.map_eq_some_iff.mp hq
    obtain ⟨j, w, hw, hidentity, hpath⟩ := hafter s hs
    rw [hpath, hn.resolve h.new hw hidentity (hplain.sub_newPath hs)]
    exact hlocated.after s hs
  · obtain ⟨s, hs, rfl⟩ := Option.map_eq_some_iff.mp hp
    obtain ⟨t, ht, rfl⟩ := Option.map_eq_some_iff.mp hq
    obtain ⟨i, v, hv, hidentity, hpath⟩ := hbefore s hs
    obtain ⟨j, w, hw, hidentity', hpath'⟩ := hafter t ht
    rw [hpath, hpath', hplain.same s t hs ht]
    exact .item h hv hw (hidentity.trans hidentity'.symm) (hplain.sub_newPath ht)
  · obtain ⟨t, ht, habsent⟩ := hlocated.oldAbsent (Option.map_eq_none_iff.mp hnone)
    obtain ⟨j, w, hw, hidentity, hpath⟩ := hafter t ht
    have hsub := hplain.sub_newPath ht
    refine ⟨_, Option.map_eq_some_iff.mpr ⟨t, ht, rfl⟩, fun p hcounterpart => ?_⟩
    rw [hpath] at hcounterpart
    obtain ⟨i, k, v, w', hv, hw', hsame, rfl, hq⟩ :=
      hcounterpart.through_item h hsub (Or.inr rfl)
    obtain ⟨-, rfl, -⟩ := placeOf_append_inj hsub hsub hq
    obtain rfl := Option.some.inj (hw.symm.trans hw')
    rw [ho.resolve h.old hv (hsame.trans hidentity) hsub]
    exact habsent
  · obtain ⟨s, hs, habsent⟩ := hlocated.newAbsent (Option.map_eq_none_iff.mp hnone)
    obtain ⟨i, v, hv, hidentity, hpath⟩ := hbefore s hs
    have hsub := hplain.sub_oldPath hs
    refine ⟨_, Option.map_eq_some_iff.mpr ⟨s, hs, rfl⟩, fun q hcounterpart => ?_⟩
    rw [hpath] at hcounterpart
    obtain ⟨k, j, v', w, hv', hw, hsame, hp, rfl⟩ :=
      hcounterpart.through_item h hsub (Or.inl rfl)
    obtain ⟨-, rfl, -⟩ := placeOf_append_inj hsub hsub hp
    obtain rfl := Option.some.inj (hv.symm.trans hv')
    rw [hn.resolve h.new hw (hsame.symm.trans hidentity) hsub]
    exact habsent

/-- A pointer that is apart belongs with itself alone. -/
theorem Apart.eq_of_counterpart {domain : String} {old new : Json ν} {p q : Path}
    (h : Apart domain old new p)
    (hpq : Counterpart domain old new p q ∨ Counterpart domain old new q p) : q = p := by
  have hitem : ∀ {collection keys xs ys i} {s : Path},
      ComparedByIdentity domain old new collection keys xs ys →
      Sub s → placeOf collection i ++ s ≠ p := by
    intro collection keys xs ys i s hcompared hs heq
    refine h _ _ _ _ hcompared ('/' :: Nat.toDigits 10 i ++ s) (sub_cons _) ?_
    rw [← heq, placeOf, List.append_assoc]
  obtain hpq | hpq := hpq
  · cases hpq with
    | place => rfl
    | item hcompared _ _ _ hs => exact absurd rfl (hitem hcompared hs)
  · cases hpq with
    | place => rfl
    | item hcompared _ _ _ hs => exact absurd rfl (hitem hcompared hs)

/-- The changes between values at one pointer, apart from the collections that are compared by
identity. -/
theorem pointed_place {domain : String} {old new : Json ν} {p : Path}
    (hapart : ∀ s, Sub s → Apart domain old new (p ++ s))
    {a b : Option (Json ν)} (ha : resolve old p = a) (hb : resolve new p = b) {c : Change ν}
    (hc : c ∈ walk a b [] []) : Pointed domain old new (c.under p p) := by
  have hplain := walk_plain _ _ c hc
  have hlocated := walk_located _ _ c hc
  have hold : ∀ s, Sub s → resolve old (p ++ s) = a.bind fun v => resolve v s := fun s hs => by
    rw [resolve_append _ _ _ hs, ha]
  have hnew : ∀ s, Sub s → resolve new (p ++ s) = b.bind fun v => resolve v s := fun s hs => by
    rw [resolve_append _ _ _ hs, hb]
  refine ⟨fun r hr => ?_, fun r hr => ?_, fun r r' hr hr' => ?_, fun hnone => ?_, fun hnone => ?_⟩
  · obtain ⟨s, hs, rfl⟩ := Option.map_eq_some_iff.mp hr
    rw [hold s (hplain.sub_oldPath hs)]
    exact hlocated.before s hs
  · obtain ⟨s, hs, rfl⟩ := Option.map_eq_some_iff.mp hr
    rw [hnew s (hplain.sub_newPath hs)]
    exact hlocated.after s hs
  · obtain ⟨s, hs, rfl⟩ := Option.map_eq_some_iff.mp hr
    obtain ⟨t, ht, rfl⟩ := Option.map_eq_some_iff.mp hr'
    rw [hplain.same s t hs ht]
    exact .place (hapart t (hplain.sub_newPath ht))
  · obtain ⟨t, ht, habsent⟩ := hlocated.oldAbsent (Option.map_eq_none_iff.mp hnone)
    have hsub := hplain.sub_newPath ht
    refine ⟨_, Option.map_eq_some_iff.mpr ⟨t, ht, rfl⟩, fun r hr => ?_⟩
    rw [(hapart t hsub).eq_of_counterpart (Or.inr hr), hold t hsub]
    exact habsent
  · obtain ⟨s, hs, habsent⟩ := hlocated.newAbsent (Option.map_eq_none_iff.mp hnone)
    have hsub := hplain.sub_oldPath hs
    refine ⟨_, Option.map_eq_some_iff.mpr ⟨s, hs, rfl⟩, fun r hr => ?_⟩
    rw [(hapart s hsub).eq_of_counterpart (Or.inl hr), hnew s hsub]
    exact habsent

/-- The group of an identity, looked up in the whole array. -/
theorem mem_group {keys : List String} {xs : List (Json ν)} {m : KeyedItems ν}
    (h : keyedFrom keys xs 0 [] = some m) (identity : String) (e : ℕ × Json ν) :
    e ∈ group m identity ↔ xs[e.1]? = some e.2 ∧ identityOf keys e.2 = some identity := by
  have hempty : group ([] : KeyedItems ν) identity = [] := rfl
  rw [mem_group_iff h, hempty]
  constructor
  · rintro (hnil | ⟨i, hi, hitem, hidentity⟩)
    · exact absurd hnil List.not_mem_nil
    · rw [hi, Nat.zero_add]
      exact ⟨hitem, hidentity⟩
  · rintro ⟨hitem, hidentity⟩
    exact Or.inr ⟨e.1, (Nat.zero_add _).symm, hitem, hidentity⟩

/-- What is recorded beside the paths and the values does not matter. -/
theorem Pointed.congr {domain : String} {old new : Json ν} {c d : Change ν}
    (h : Pointed domain old new c) (hold : d.oldPath = c.oldPath) (hnew : d.newPath = c.newPath)
    (hbefore : d.before = c.before) (hafter : d.after = c.after) : Pointed domain old new d := by
  refine ⟨?_, ?_, ?_, ?_, ?_⟩
  · rw [hold, hbefore]
    exact h.before
  · rw [hnew, hafter]
    exact h.after
  · rw [hold, hnew]
    exact h.counterpart
  · rw [hold, hnew]
    exact h.oldAbsent
  · rw [hold, hnew]
    exact h.newAbsent

/-- The changes of one collection. -/
theorem collectionDiff_pointers (domain : String) (a b : List (String × Json ν))
    (collection : String) :
    ∀ c ∈ collectionDiff domain collection (SortedMap.get a collection)
        (SortedMap.get b collection),
      c.kind ≠ .ambiguousIdentityGroupChanged → Pointed domain (.object a) (.object b) c := by
  intro c hc hkind
  rw [collectionDiff] at hc
  cases hpair : keyedPair domain collection (SortedMap.get a collection)
      (SortedMap.get b collection) with
  | none =>
    simp only [hpair] at hc
    obtain ⟨d, hd, rfl⟩ := List.mem_map.mp hc
    rw [walk_eq] at hd
    obtain ⟨e, he, rfl⟩ := List.mem_map.mp hd
    -- A collection that is compared as a whole is not compared by identity.
    have hapart : ∀ s, Sub s → Apart domain (.object a) (.object b)
        ('/' :: pointer collection ++ s) := by
      intro s hs collection' keys xs ys hcompared t ht heq
      obtain ⟨hname, -⟩ := part_append_inj (slash_not_mem_pointer _) (slash_not_mem_pointer _) hs ht
        (List.cons.inj heq).2
      obtain rfl := pointer_injective hname
      obtain ⟨o, n, hsome⟩ := keyedPair_of_keyed hcompared.identified hcompared.oldKeyed
        hcompared.newKeyed
      have hold : SortedMap.get a collection = some (.array xs) := hcompared.old
      have hnew : SortedMap.get b collection = some (.array ys) := hcompared.new
      rw [hold, hnew, hsome] at hpair
      cases hpair
    have hpointed := pointed_place hapart (resolve_field a collection) (resolve_field b collection)
      he
    refine hpointed.congr ?_ ?_ ?_ ?_ <;> rw [note] <;> split_ifs <;> rfl
  | some p =>
    obtain ⟨o, n⟩ := p
    obtain ⟨keys, xs, ys, hkeys, hx, hy, ho, hn⟩ := keyedPair_eq_some hpair
    simp only [hpair] at hc
    obtain ⟨identity, -, hc⟩ := List.mem_flatMap.mp hc
    obtain ⟨d, hd, rfl⟩ := List.mem_map.mp hc
    rw [groupChanges] at hd
    split_ifs at hd with hsingle hsame
    · rw [walk_eq] at hd
      obtain ⟨e, he, rfl⟩ := List.mem_map.mp hd
      have hcompared : ComparedByIdentity domain (.object a) (.object b) collection keys xs ys :=
        ⟨hkeys, hx, hy, ((keyedFrom_spec keys xs 0 []).2 o ho).1,
          ((keyedFrom_spec keys ys 0 []).2 n hn).1⟩
      have hpointed := pointed_item hcompared ⟨mem_group ho identity, hsingle.1⟩
        ⟨mem_group hn identity, hsingle.2⟩ he
      exact hpointed.congr rfl rfl rfl rfl
    · exact absurd hd List.not_mem_nil
    · obtain rfl := List.mem_singleton.mp hd
      exact absurd rfl hkind

/-- **The paths of a change lead to what has changed**, but for the groups whose identity is
ambiguous: a path leads to the value that is reported, and is missing exactly when there is no value
on its side. -/
theorem documentDiff_pointers (domain : String) (old new : Json ν) :
    ∀ c ∈ documentDiff domain old new, c.kind ≠ .ambiguousIdentityGroupChanged →
      Pointed domain old new c := by
  intro c hc hkind
  cases documentCase domain old new with
  | values hobj hdiff _ =>
    rw [hdiff, walk_eq] at hc
    obtain ⟨e, he, rfl⟩ := List.mem_map.mp hc
    have hapart : ∀ s, Sub s → Apart domain old new ([] ++ s) := by
      intro s _ collection keys xs ys hcompared
      have hobject : ∀ {v w : Json ν}, field v collection = some w → ∃ fields, v = .object fields := by
        intro v w hfield
        cases v with
        | object fields => exact ⟨fields, rfl⟩
        | _ => cases hfield
      obtain ⟨a, ha⟩ := hobject hcompared.old
      obtain ⟨b, hb⟩ := hobject hcompared.new
      exact absurd ⟨a, b, ha, hb⟩ hobj
    exact pointed_place hapart rfl rfl he
  | objects a b hold hnew =>
    subst hold hnew
    obtain ⟨collection, -, hc⟩ := List.mem_flatMap.mp hc
    split_ifs at hc
    · exact absurd hc List.not_mem_nil
    · exact collectionDiff_pointers domain a b collection c hc hkind

instance : DecidableEq (Change ν) := fun c d =>
  decidable_of_iff (c.oldPath = d.oldPath ∧ c.newPath = d.newPath ∧ c.kind = d.kind ∧
    c.before = d.before ∧ c.after = d.after ∧ c.indices = d.indices ∧ c.identity = d.identity ∧
    c.identityDiagnostic = d.identityDiagnostic) <| by
  cases c
  cases d
  simp only [Change.mk.injEq]

/-- A variant `a/b~` of the second enum changes its number, and the enums change places. -/
def enumMoved : Change ℕ where
  oldPath := some "/enums/1/a~1b~0".toList
  newPath := some "/enums/0/a~1b~0".toList
  kind := .changed
  before := .number 1
  after := .number 2
  indices := none
  identity := some "[\"A\",\"Y\"]"
  identityDiagnostic := none

theorem documentDiff_pointers_moved :
    let first : Json ℕ := .object [("module", .string "A"), ("name", .string "X")]
    let second := fun n : ℕ =>
      Json.object [("a/b~", .number n), ("module", .string "A"), ("name", .string "Y")]
    Pointed "enums" (.object [("enums", .array [first, second 1])])
      (.object [("enums", .array [second 2, first])]) enumMoved := by
  intro first second
  have hdiff : documentDiff "enums" (.object [("enums", .array [first, second 1])])
      (.object [("enums", .array [second 2, first])]) = [enumMoved] := by decide +kernel
  exact documentDiff_pointers _ _ _ enumMoved (hdiff ▸ List.mem_singleton_self _) (by decide)

end Whatspec.Contract

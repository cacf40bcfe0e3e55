import Whatspec.Codegen.WamModule

/-!
# The type names of the generated WAM module

* the name of an enum is one of `enumNames`, and different from the others (`nodup_enumNames`);
* an event's name ends in `Event`, or in a number, so that no type of the prelude has it
  (`eventNames_disjoint`).

**`consistent_iff`**: the names of a module are consistent exactly when no two enums are defined by
one module and no enum is spelled like a type of the prelude.
-/

namespace Whatspec.Codegen

open Whatspec.Library

/-! ### Names and numbers -/

/-- The last character of a numbered name is that of the name, or else a digit. -/
theorem getLast?_numbered (base : String) (n : ℕ) :
    numbered base n = base ∨ ∃ c, (numbered base n).toList.getLast? = some c ∧ isAsciiDigit c := by
  unfold numbered
  split_ifs with h
  · exact Or.inl rfl
  · refine Or.inr ?_
    rw [toList_numbered]
    have hne : Nat.toDigits 10 n ≠ [] := List.ne_nil_of_length_pos Nat.length_toDigits_pos
    refine ⟨(Nat.toDigits 10 n).getLast hne, ?_, ?_⟩
    · rw [List.getLast?_append, List.getLast?_eq_some_getLast hne]
      rfl
    · exact Nat.isDigit_of_mem_toDigits (by decide) (by decide) (List.getLast_mem hne)

/-- No type of the prelude ends in a digit, or like an event. -/
theorem getLast?_preludeTypes {p : String} (h : p ∈ preludeTypes) {c : Char}
    (hc : p.toList.getLast? = some c) : isAsciiDigit c = false ∧ c ≠ 't' := by
  have hall : ∀ p ∈ preludeTypes,
      (p.toList.getLast?.all fun c => !isAsciiDigit c && c ≠ 't') = true := by decide
  have hp := hall p h
  rw [hc] at hp
  simpa using hp

/-- A numbered name that is a type of the prelude has no number. -/
theorem numbered_mem_preludeTypes {base : String} {n : ℕ} (h : numbered base n ∈ preludeTypes) :
    base ∈ preludeTypes := by
  obtain heq | ⟨c, hc, hdigit⟩ := getLast?_numbered base n
  · rwa [heq] at h
  · rw [(getLast?_preludeTypes h hc).1] at hdigit
    cases hdigit

theorem eventBase_not_mem (ev : WamIr.Event) : eventBase ev ∉ preludeTypes := by
  intro h
  have hlast : (eventBase ev).toList.getLast? = some 't' := by
    rw [eventBase, String.toList_append, List.getLast?_append]
    rfl
  exact (getLast?_preludeTypes h hlast).2 rfl

/-! ### The names that are given -/

theorem injective_of_mem_numbered {α : Type} {base : α → String} {xs : List α} :
    ∀ name ∈ xs.map fun x => numbered (base x), Function.Injective name := by
  intro name hname
  obtain ⟨x, _, rfl⟩ := List.mem_map.mp hname
  exact numbered_injective _

theorem nodup_enumNames (ir : WamIr) : (enumNames ir).Nodup :=
  nodup_allot injective_of_mem_numbered

theorem nodup_eventNames (ir : WamIr) : (eventNames ir).Nodup :=
  nodup_allot injective_of_mem_numbered

theorem length_enumNames (ir : WamIr) : (enumNames ir).length = ir.enums.length := by
  rw [enumNames, length_allot, List.length_map]

theorem length_eventNames (ir : WamIr) : (eventNames ir).length = ir.events.length := by
  rw [eventNames, length_allot, List.length_map]

/-- A type of the prelude is given to an enum exactly when one is spelled like it. -/
theorem mem_enumNames_iff (ir : WamIr) {p : String} (hp : p ∈ preludeTypes) :
    p ∈ enumNames ir ↔ ∃ e ∈ ir.enums, wamPascal e.name = p := by
  have hbase : ∀ e : WamIr.Enum, enumBase e = wamPascal e.name := by
    intro e
    exact if_neg (ensureIdent_ne_empty _)
  constructor
  · intro h
    obtain ⟨name, hname, n, -, rfl⟩ := exists_of_mem_allot h
    obtain ⟨e, he, rfl⟩ := List.mem_map.mp hname
    refine ⟨e, he, ?_⟩
    obtain heq | ⟨c, hc, hdigit⟩ := getLast?_numbered (enumBase e) n
    · rw [heq, hbase]
    · rw [(getLast?_preludeTypes hp hc).1] at hdigit
      cases hdigit
  · rintro ⟨e, he, rfl⟩
    have hmem : numbered (enumBase e) ∈ ir.enums.map fun e => numbered (enumBase e) :=
      List.mem_map_of_mem he
    obtain h | h := first_mem_allot [] _ _ hmem
    · cases h
    · rwa [show numbered (enumBase e) 1 = wamPascal e.name from hbase e] at h

/-- An event has no name of the prelude and no name of an enum. -/
theorem eventNames_disjoint (ir : WamIr) :
    ∀ x ∈ eventNames ir, x ∉ preludeTypes ∧ x ∉ enumNames ir := by
  intro x hx
  refine ⟨fun hp => ?_, not_mem_of_mem_allot injective_of_mem_numbered x hx⟩
  obtain ⟨name, hname, n, -, rfl⟩ := exists_of_mem_allot hx
  obtain ⟨ev, _, rfl⟩ := List.mem_map.mp hname
  exact eventBase_not_mem ev (numbered_mem_preludeTypes hp)

/-! ### The names that are emitted -/

/-- The name that the enums of a module are emitted under. -/
def enumNameOf (ir : WamIr) (module : String) : String :=
  (SortedMap.get (enumNameMap ir) module).getD ""

theorem map_name_enums (ir : WamIr) :
    (generateWam ir).enums.map EnumItem.name =
      (ir.enums.map WamIr.Enum.module).map (enumNameOf ir) := by
  rw [generateWam, List.map_map, List.map_map]
  rfl

theorem map_name_events (ir : WamIr) :
    (generateWam ir).events.map EventItem.name = eventNames ir := by
  have hzip : ∀ (evs : List WamIr.Event) (names : List String), names.length = evs.length →
      (List.zipWith (emitEvent (enumNameMap ir)) evs names).map EventItem.name = names := by
    intro evs
    induction evs with
    | nil => intro names h; rw [List.length_eq_zero_iff.mp h]; rfl
    | cons ev evs ih =>
      intro names h
      match names, h with
      | name :: names, h => exact congrArg (name :: ·) (ih names (Nat.succ.inj h))
  exact hzip _ _ (length_eventNames ir)

theorem map_fst_zip_enumNames (ir : WamIr) :
    ((ir.enums.map WamIr.Enum.module).zip (enumNames ir)).map Prod.fst =
      ir.enums.map WamIr.Enum.module := by
  rw [List.map_fst_zip]
  rw [length_enumNames, List.length_map]

/-- Where every module defines one enum, each enum is emitted under the name it was given. -/
theorem map_enumNameOf (ir : WamIr) (hnodup : (ir.enums.map WamIr.Enum.module).Nodup) :
    (ir.enums.map WamIr.Enum.module).map (enumNameOf ir) = enumNames ir := by
  have hget : ∀ k v, SortedMap.get (enumNameMap ir) k = some v ↔
      (k, v) ∈ (ir.enums.map WamIr.Enum.module).zip (enumNames ir) := fun k v =>
    SortedMap.get_collect ((map_fst_zip_enumNames ir).symm ▸ hnodup) k v
  refine List.ext_getElem ?_ fun i hi hi' => ?_
  · rw [List.length_map, List.length_map, length_enumNames]
  · rw [List.getElem_map, enumNameOf]
    have hlen : i < (ir.enums.map WamIr.Enum.module).length := by simpa using hi
    have hmem : ((ir.enums.map WamIr.Enum.module)[i], (enumNames ir)[i]) ∈
        (ir.enums.map WamIr.Enum.module).zip (enumNames ir) := by
      have hzip : i < ((ir.enums.map WamIr.Enum.module).zip (enumNames ir)).length := by
        rw [List.length_zip, length_enumNames, List.length_map, Nat.min_self]
        simpa using hlen
      rw [← List.getElem_zip (h := hzip)]
      exact List.getElem_mem hzip
    rw [(hget _ _).mpr hmem, Option.getD_some]

/-- An enum of the catalog is in the table under its module. -/
theorem isSome_enumNameMap (ir : WamIr) {e : WamIr.Enum} (he : e ∈ ir.enums) :
    SortedMap.get (enumNameMap ir) e.module = some (enumNameOf ir e.module) := by
  obtain ⟨name, hname⟩ := SortedMap.isSome_get_collect (k := e.module)
    ((map_fst_zip_enumNames ir).symm ▸ List.mem_map_of_mem he)
  rw [enumNameOf, enumNameMap, hname, Option.getD_some]

/-! ### Consistency -/

/-- The type names of a module are apart, every enum of the catalog has one name, and a field whose
type is the enum has that name for its type. -/
structure WamModule.Consistent (ir : WamIr) (m : WamModule) : Prop where
  distinct : m.typeNames.Nodup
  named : ∀ e ∈ ir.enums,
    ∃! name, ∃ item ∈ m.enums, item.exported = e.name ∧ item.module = e.module ∧ item.name = name
  referred : ∀ e ∈ ir.enums, ∀ item ∈ m.enums, item.module = e.module →
    List.Forall₂ (fun (ev : WamIr.Event) (evItem : EventItem) =>
      List.Forall₂ (fun (f : WamIr.Field) (fItem : EventFieldItem) =>
        f.fieldType = .enum e.module → fItem.rustType = item.name) ev.fields evItem.fields)
      ir.events m.events

/-- A field of the catalog's enum has the name of the enum for its type. -/
theorem rustType_emitField (ir : WamIr) {e : WamIr.Enum} (he : e ∈ ir.enums) {f : WamIr.Field}
    (hf : f.fieldType = .enum e.module) (ident : String) :
    (emitField (enumNameMap ir) f ident).rustType = enumNameOf ir e.module := by
  rw [emitField, hf, fieldRustType, isSome_enumNameMap ir he, Option.getD_some]

theorem forall₂_emitField (ir : WamIr) {e : WamIr.Enum} (he : e ∈ ir.enums) :
    ∀ (fs : List WamIr.Field) (idents : List String), idents.length = fs.length →
      List.Forall₂ (fun (f : WamIr.Field) (item : EventFieldItem) =>
        f.fieldType = .enum e.module → item.rustType = enumNameOf ir e.module)
        fs (List.zipWith (emitField (enumNameMap ir)) fs idents)
  | [], [], _ => .nil
  | _ :: fs, ident :: idents, h =>
    .cons (fun hf => rustType_emitField ir he hf ident)
      (forall₂_emitField ir he fs idents (Nat.succ.inj h))

theorem forall₂_emitEvent (ir : WamIr) {e : WamIr.Enum} (he : e ∈ ir.enums) :
    ∀ (evs : List WamIr.Event) (names : List String), names.length = evs.length →
      List.Forall₂ (fun (ev : WamIr.Event) (item : EventItem) =>
        List.Forall₂ (fun (f : WamIr.Field) (fItem : EventFieldItem) =>
          f.fieldType = .enum e.module → fItem.rustType = enumNameOf ir e.module)
          ev.fields item.fields)
        evs (List.zipWith (emitEvent (enumNameMap ir)) evs names)
  | [], [], _ => .nil
  | ev :: evs, name :: names, h => by
    refine .cons ?_ (forall₂_emitEvent ir he evs names (Nat.succ.inj h))
    refine forall₂_emitField ir he ev.fields _ ?_
    rw [length_allot, List.length_map]

theorem mem_enums_iff (ir : WamIr) (item : EnumItem) : item ∈ (generateWam ir).enums ↔
    ∃ e ∈ ir.enums, emitEnum e (enumNameOf ir e.module) = item := List.mem_map

theorem named_generateWam (ir : WamIr) : ∀ e ∈ ir.enums, ∃! name,
    ∃ item ∈ (generateWam ir).enums,
      item.exported = e.name ∧ item.module = e.module ∧ item.name = name := by
  intro e he
  refine ⟨enumNameOf ir e.module, ⟨_, (mem_enums_iff ir _).mpr ⟨e, he, rfl⟩, rfl, rfl, rfl⟩, ?_⟩
  rintro name ⟨item, hitem, -, hmodule, rfl⟩
  obtain ⟨d, -, rfl⟩ := (mem_enums_iff ir item).mp hitem
  exact congrArg (enumNameOf ir) hmodule

theorem referred_generateWam (ir : WamIr) : ∀ e ∈ ir.enums, ∀ item ∈ (generateWam ir).enums,
    item.module = e.module →
    List.Forall₂ (fun (ev : WamIr.Event) (evItem : EventItem) =>
      List.Forall₂ (fun (f : WamIr.Field) (fItem : EventFieldItem) =>
        f.fieldType = .enum e.module → fItem.rustType = item.name) ev.fields evItem.fields)
      ir.events (generateWam ir).events := by
  intro e he item hitem hmodule
  obtain ⟨d, -, rfl⟩ := (mem_enums_iff ir item).mp hitem
  have hname : (emitEnum d (enumNameOf ir d.module)).name = enumNameOf ir e.module :=
    congrArg (enumNameOf ir) hmodule
  rw [hname]
  exact forall₂_emitEvent ir he ir.events _ (length_eventNames ir)

theorem typeNames_generateWam (ir : WamIr) : (generateWam ir).typeNames =
    preludeTypes ++ (ir.enums.map WamIr.Enum.module).map (enumNameOf ir) ++ eventNames ir := by
  rw [WamModule.typeNames, map_name_enums, map_name_events]
  rfl

theorem nodup_typeNames (ir : WamIr) (hnodup : (ir.enums.map WamIr.Enum.module).Nodup)
    (hprelude : ∀ e ∈ ir.enums, wamPascal e.name ∉ preludeTypes) :
    (generateWam ir).typeNames.Nodup := by
  rw [typeNames_generateWam, map_enumNameOf ir hnodup]
  have henums : (preludeTypes ++ enumNames ir).Nodup := by
    refine List.nodup_append.mpr ⟨by decide, nodup_enumNames ir, ?_⟩
    rintro p hp _ hmem rfl
    obtain ⟨e, he, rfl⟩ := (mem_enumNames_iff ir hp).mp hmem
    exact hprelude e he hp
  refine List.nodup_append.mpr ⟨henums, nodup_eventNames ir, ?_⟩
  rintro x hx _ hevent rfl
  obtain ⟨hnotPrelude, hnotEnum⟩ := eventNames_disjoint ir x hevent
  exact (List.mem_append.mp hx).elim hnotPrelude hnotEnum

/-- **The names of the module are consistent exactly when every module of the catalog defines one
enum and no enum is spelled like a type of the prelude.** -/
theorem consistent_iff (ir : WamIr) : (generateWam ir).Consistent ir ↔
    (ir.enums.map WamIr.Enum.module).Nodup ∧ ∀ e ∈ ir.enums, wamPascal e.name ∉ preludeTypes := by
  constructor
  · rintro ⟨hdistinct, -, -⟩
    rw [typeNames_generateWam] at hdistinct
    obtain ⟨hdistinct, -, -⟩ := List.nodup_append.mp hdistinct
    obtain ⟨-, hnames, hdisjoint⟩ := List.nodup_append.mp hdistinct
    have hnodup := List.Nodup.of_map _ hnames
    refine ⟨hnodup, fun e he hp => ?_⟩
    have hmem := (mem_enumNames_iff ir hp).mpr ⟨e, he, rfl⟩
    rw [← map_enumNameOf ir hnodup] at hmem
    exact hdisjoint _ hp _ hmem rfl
  · rintro ⟨hnodup, hprelude⟩
    exact ⟨nodup_typeNames ir hnodup hprelude, named_generateWam ir, referred_generateWam ir⟩

/-- An enum that is exported as `WAM_CHANNEL`. -/
def channelEnumIr : WamIr where
  waVersion := "2.3000.0"
  events := []
  enums := [⟨"WAM_CHANNEL", "WAWebWamEnumWamChannel", [⟨"REGULAR", 0⟩]⟩]

/-- It is emitted under the name of the prelude's `WamChannel`. -/
theorem channelEnum_inconsistent : ¬ (generateWam channelEnumIr).Consistent channelEnumIr := by
  rintro ⟨hdistinct, -, -⟩
  revert hdistinct
  decide

end Whatspec.Codegen

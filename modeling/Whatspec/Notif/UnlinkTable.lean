import Mathlib.Data.List.Dedup
import Whatspec.Notif.UnlinkSound

/-!
# The unlink table is exact

What the published table says of a type and a reason is what the helper does on a node that has
them, whatever the two strings are.

* `cell_decides`: one row, made on the stand-ins of the attributes of a node, says what the helper
  does on that node;
* `evaluate_grid`: the rows are one for each pair of stand-ins;
* **`unlinkTable_exact`** adds that the ordered, deduplicated and pruned table still has them all.
-/

namespace Whatspec.Notif.Unlink

open Whatspec.Library

variable {constants : Constants} {L : List String} {param : String} {body : List Stmt}

/-! ### One row -/

/-- What a row says for the three values it is made of. -/
def decided : Option String × Bool × Option UnknownTypeWarning → Decision
  | (_, _, some w) => .rejectedType w
  | (_, true, none) => .inheritedAction
  | (some t, false, none) => .action t
  | (none, false, none) => .noAction

theorem GroupUnlinkRow.decides_eq (r : GroupUnlinkRow) : r.decides = decided r.decision := by
  obtain ⟨_, _, action, inherited, warned⟩ := r
  cases warned with
  | some w => rfl
  | none => cases inherited <;> cases action <;> rfl

theorem fst_fieldsAt (n : Attributes) : ∀ fields : List (String × Value),
    (fieldsAt n fields).map Prod.fst = fields.map Prod.fst
  | [] => rfl
  | (key, v) :: rest => by
    rw [fieldsAt, List.map_cons, List.map_cons, fst_fieldsAt n rest]

theorem mem_of_lookup {key : String} {v : Value} : ∀ {fields : List (String × Value)},
    fields.lookup key = some v → (key, v) ∈ fields
  | (k, w) :: rest, h => by
    rw [List.lookup_cons] at h
    split at h
    · next heq =>
      cases h
      rw [beq_iff_eq] at heq
      rw [heq]
      exact List.mem_cons_self ..
    · exact List.mem_cons_of_mem _ (mem_of_lookup h)

/-- An object of the two properties and no other. -/
theorem only_two {n : Attributes} {fields : List (String × Value)} {a : Value}
    (haction : fields.lookup "actionType" = some a)
    (hlen : (fields.filter (·.1 ≠ "groupDatas")).length = 1) :
    ∀ key ∈ (fieldsAt n fields).map Prod.fst, key = "groupDatas" ∨ key = "actionType" := by
  intro key hkey
  rw [fst_fieldsAt] at hkey
  obtain ⟨field, hfield, rfl⟩ := List.mem_map.mp hkey
  obtain ⟨other, hother⟩ := List.length_eq_one_iff.mp hlen
  have hone : ∀ f ∈ fields, f.1 ≠ "groupDatas" → f = other := by
    intro f hf hne
    have hmem : f ∈ fields.filter (·.1 ≠ "groupDatas") :=
      List.mem_filter.mpr ⟨hf, decide_eq_true hne⟩
    rw [hother] at hmem
    exact List.mem_singleton.mp hmem
  have hne : "actionType" ≠ "groupDatas" := by decide
  have haction' : ("actionType", a) = other := hone _ (mem_of_lookup haction) hne
  by_cases hgroups : field.1 = "groupDatas"
  · exact Or.inl hgroups
  · right
    rw [hone field hfield hgroups, ← haction']

/-- What an object of the helper decides. -/
theorem decides_of_object {n : Attributes} {fields : List (String × Value)}
    {d : Option String × Bool × Option UnknownTypeWarning}
    (h : (Value.object fields).decision = .ok d) :
    HelperRun.Decides n ⟨(expectedReads n.unlinkReason.isSome).map .read,
      (Value.object fields).at n⟩ (decided d) := by
  rw [Value.decision] at h
  split at h
  · next hgroups =>
    split at h
    · cases h
    next hlen =>
    rw [not_not] at hlen
    have hat : (fieldsAt n fields).lookup "groupDatas" = some .groups := by
      rw [lookup_fieldsAt, hgroups]
      rfl
    have haction : ∀ a, fields.lookup "actionType" = some a →
        (fieldsAt n fields).lookup "actionType" = some (a.at n) := by
      intro a ha
      rw [lookup_fieldsAt, ha]
      rfl
    split at h
    · next v hv =>
      split at h
      · cases h
      · cases h
        exact .object hat (haction _ hv) (only_two hv hlen) rfl
    · next hv =>
      cases h
      exact .object hat (haction _ hv) (only_two hv hlen) trivial
    · next hv =>
      cases h
      exact .object hat (haction _ hv) (only_two hv hlen) trivial
    · next hv =>
      cases h
      exact .object hat (haction _ hv) (only_two hv hlen) trivial
    · cases h
  · cases h

/-- The names that the body of a helper has. -/
def helperNames (param : String) (body : List Stmt) : List String := param :: bindings body

theorem follows_initial (n : Attributes) (L : List String) (param : String) (body : List Stmt) :
    Follows L (helperNames param body) n
      (.initial param (standIn L n.unlinkType) (n.unlinkReason.map (standIn L)))
      (.initial param body) where
  vars x v hv := by
    simp only [Eval.initial] at hv
    split at hv
    · next heq =>
      cases hv
      exact ⟨if_pos heq, trivial⟩
    · cases hv
  locals x hx := by
    simp only [helperNames, List.mem_cons, not_or] at hx
    simp only [Frame.initial, if_neg hx.1, if_neg hx.2]
  effects := rfl
  kind := rfl
  reason := rfl

/-- **One row.**  The row made on the stand-ins of a node's attributes says what the helper does
on the node. -/
theorem cell_decides (hL : Vocabulary L)
    (hvalid : validateStatements constants param body = .ok ())
    (hwithin : Within constants L (helperNames param body) (expressions body) (bindings body))
    {n : Attributes} {row : GroupUnlinkRow}
    (hcell : cell constants param body (standIn L n.unlinkType)
      (n.unlinkReason.map (standIn L)) = .ok row) :
    ∃ v φ, runStatements constants n body (.initial param body) = some (v, φ) ∧
      HelperRun.Decides n ⟨φ.effects, v.getD .undefined⟩ row.decides := by
  simp only [cell, bind_eq_ok] at hcell
  obtain ⟨⟨value, σ⟩, heval, hcell⟩ := hcell
  have hends := statements_agree hL body hvalid hwithin (follows_initial n L param body) heval
  generalize runStatements constants n body (.initial param body) = run at hends
  cases value with
  | none => cases hcell
  | some value =>
    simp only [bind_eq_ok] at hcell
    obtain ⟨_, hreads, d, hd, hrow⟩ := hcell
    cases hrow
    rw [GroupUnlinkRow.decides_eq]
    unfold Eval.requirePayloadReads at hreads
    split at hreads
    swap
    · cases hreads
    next hexpected =>
    cases hends with
    | returns hfits hfollows =>
      refine ⟨_, _, rfl, ?_⟩
      rw [hfollows.effects, hexpected, hfollows.reason_isSome]
      cases value with
      | object fields => exact decides_of_object hd
      | rejectedType => exact absurd hfits id
      | _ => cases hd
    | warns hreason heffects =>
      cases hd
      refine ⟨_, _, rfl, ?_⟩
      rw [heffects, hexpected, hreason]
      exact .warned _

/-! ### The grid -/

theorem mem_representatives {literals : List String} {s : String} :
    s ∈ representatives literals ↔ s ∈ literals ++ objectPrototypeKeys ∨ s = unknownInput := by
  simp only [representatives, List.mem_append, List.mem_mergeSort, List.mem_dedup,
    List.mem_singleton]

theorem standIn_mem {literals : List String} (s : String) :
    standIn (literals ++ objectPrototypeKeys) s ∈ representatives literals := by
  rw [mem_representatives]
  unfold standIn
  split
  · next hlisted => exact Or.inl hlisted
  · exact Or.inr rfl

/-- The strings of a helper are a vocabulary when none is the stand-in. -/
theorem vocabulary_of_literals {literals : List String} (h : unknownInput ∉ literals) :
    Vocabulary (literals ++ objectPrototypeKeys) where
  sentinel hmem := by
    rcases List.mem_append.mp hmem with hmem | hmem
    · exact h hmem
    · revert hmem
      decide
  prototype k hk := List.mem_append_right _ hk

/-- The key of a row made on a stand-in. -/
theorem key_standIn (hL : unknownInput ∉ L) (s : String) :
    (if standIn L s = unknownInput then none else some (standIn L s)) =
      DecisionTable.listedKey L s := by
  unfold standIn DecisionTable.listedKey
  by_cases hs : s ∈ L
  · have hne : s ≠ unknownInput := fun heq => hL (heq ▸ hs)
    rw [if_pos hs, if_neg hne, if_pos hs]
  · rw [if_neg hs, if_pos rfl, if_neg hs]

theorem cell_keys {kind : String} {reason : Option String} {row : GroupUnlinkRow}
    (h : cell constants param body kind reason = .ok row) :
    row.unlinkType = (if kind = unknownInput then none else some kind) ∧
      row.reason = reason.filter (· ≠ unknownInput) := by
  simp only [cell, bind_eq_ok] at h
  obtain ⟨⟨value, σ⟩, _, h⟩ := h
  cases value with
  | none => cases h
  | some value =>
    simp only [bind_eq_ok] at h
    obtain ⟨_, _, d, _, hrow⟩ := h
    cases hrow
    exact ⟨rfl, rfl⟩

/-- The rows that a helper's strings make, one for each pair of stand-ins. -/
def grid (constants : Constants) (param : String) (body : List Stmt) (values : List String) :
    Except String (List (List GroupUnlinkRow)) :=
  values.mapM fun kind =>
    (none :: values.map some).mapM fun reason => cell constants param body kind reason

theorem exists_of_grid {values : List String} {rows : List (List GroupUnlinkRow)}
    (h : grid constants param body values = .ok rows) {kind : String} {reason : Option String}
    (hkind : kind ∈ values) (hreason : ∀ r, reason = some r → r ∈ values) :
    ∃ row ∈ rows.flatten, cell constants param body kind reason = .ok row := by
  obtain ⟨line, hline, hcells⟩ := exists_of_mapM_left h kind hkind
  have hmem : reason ∈ none :: values.map some := by
    cases reason with
    | none => exact List.mem_cons_self ..
    | some r => exact List.mem_cons_of_mem _ (List.mem_map_of_mem (hreason r rfl))
  obtain ⟨row, hrow, hcell⟩ := exists_of_mapM_left hcells reason hmem
  exact ⟨row, List.mem_flatten_of_mem hline hrow, hcell⟩

theorem cell_of_grid {values : List String} {rows : List (List GroupUnlinkRow)}
    (h : grid constants param body values = .ok rows) {row : GroupUnlinkRow}
    (hrow : row ∈ rows.flatten) :
    ∃ kind ∈ values, ∃ reason, (∀ r, reason = some r → r ∈ values) ∧
      cell constants param body kind reason = .ok row := by
  obtain ⟨line, hline, hrow⟩ := List.mem_flatten.mp hrow
  obtain ⟨kind, hkind, hcells⟩ := exists_of_mapM_right h line hline
  obtain ⟨reason, hreason, hcell⟩ := exists_of_mapM_right hcells row hrow
  refine ⟨kind, hkind, reason, fun r hr => ?_, hcell⟩
  rw [hr, List.mem_cons] at hreason
  rcases hreason with hreason | hreason
  · cases hreason
  · obtain ⟨s, hs, heq⟩ := List.mem_map.mp hreason
    rwa [← Option.some.inj heq]

/-- The order of the rows separates them by their keys first. -/
theorem pairwise_keys (rows : List GroupUnlinkRow) :
    (DecisionTable.dropRepeats (rows.mergeSort fun a b => a.order ≤ b.order)).Pairwise
      fun a b => a.keys ≤ b.keys := by
  have hsorted : (rows.mergeSort fun a b => decide (a.order ≤ b.order)).Pairwise
      fun a b => decide (a.order ≤ b.order) = true := by
    refine List.pairwise_mergeSort ?_ ?_ rows
    · intro a b c hab hbc
      exact decide_eq_true ((of_decide_eq_true hab).trans (of_decide_eq_true hbc))
    · intro a b
      rw [Bool.or_eq_true, decide_eq_true_iff, decide_eq_true_iff]
      exact le_total _ _
  refine (hsorted.sublist (DecisionTable.dropRepeats_sublist _)).imp fun hab => ?_
  exact Prod.Lex.monotone_fst _ _ (of_decide_eq_true hab)

theorem keys_eq_iff (a b : GroupUnlinkRow) :
    a.keys = b.keys ↔ a.unlinkType = b.unlinkType ∧ a.reason = b.reason := by
  constructor
  · intro h
    exact Prod.mk.inj (toLex.injective h)
  · intro h
    rw [GroupUnlinkRow.keys, GroupUnlinkRow.keys, h.1, h.2]

/-- **The grid.**  The ordered rows without repeats, when no two have the same keys, are a full
table over the strings of the helper. -/
theorem evaluate_grid {literals : List String} (hliterals : unknownInput ∉ literals)
    {rows : List (List GroupUnlinkRow)}
    (h : grid constants param body (representatives literals) = .ok rows)
    (hdistinct : DecisionTable.DistinctNeighbours GroupUnlinkRow.unlinkType GroupUnlinkRow.reason
      (DecisionTable.dropRepeats (rows.flatten.mergeSort fun a b => a.order ≤ b.order))) :
    DecisionTable.Grid GroupUnlinkRow.unlinkType GroupUnlinkRow.reason
      (literals ++ objectPrototypeKeys)
      (DecisionTable.dropRepeats (rows.flatten.mergeSort fun a b => a.order ≤ b.order)) := by
  have hL := (vocabulary_of_literals hliterals).sentinel
  have hmem : ∀ r, r ∈ DecisionTable.dropRepeats
      (rows.flatten.mergeSort fun a b => a.order ≤ b.order) ↔ r ∈ rows.flatten := by
    intro r
    rw [DecisionTable.mem_dropRepeats, List.mem_mergeSort]
  have hne : ∀ k ∈ literals ++ objectPrototypeKeys, k ≠ unknownInput :=
    fun k hk heq => hL (heq ▸ hk)
  refine
    { functional := DecisionTable.functional_of_sorted keys_eq_iff (pairwise_keys _) hdistinct
      complete := ?_, first_mem := ?_, second_mem := ?_ }
  · intro a b ha hb
    have hkind : a.getD unknownInput ∈ representatives literals := by
      rw [mem_representatives]
      cases a with
      | none => exact Or.inr rfl
      | some k => exact Or.inl (ha k rfl)
    have hreason : ∀ r, b = some r → r ∈ representatives literals := fun r hr =>
      mem_representatives.mpr (Or.inl (hb r hr))
    obtain ⟨row, hrow, hcell⟩ := exists_of_grid h hkind hreason
    obtain ⟨htype, hreason'⟩ := cell_keys hcell
    refine ⟨row, (hmem row).mpr hrow, ?_, ?_⟩
    · rw [htype]
      cases a with
      | none => exact if_pos rfl
      | some k => exact if_neg (hne k (ha k rfl))
    · rw [hreason']
      cases b with
      | none => rfl
      | some r => simp [Option.filter, hne r (hb r rfl)]
  · intro r hr k hk
    obtain ⟨kind, hkind, reason, _, hcell⟩ := cell_of_grid h ((hmem r).mp hr)
    rw [(cell_keys hcell).1] at hk
    split at hk
    · cases hk
    · next hlisted =>
      cases hk
      exact (mem_representatives.mp hkind).resolve_right hlisted
  · intro r hr k hk
    obtain ⟨kind, _, reason, hreason, hcell⟩ := cell_of_grid h ((hmem r).mp hr)
    rw [(cell_keys hcell).2, Option.filter_eq_some_iff] at hk
    exact (mem_representatives.mp (hreason k hk.1)).resolve_right (of_decide_eq_true hk.2)

/-! ### The published table -/

/-- What `evaluate` has checked and made when it accepts a helper. -/
theorem evaluate_ok {f : Helper} {contract : GroupUnlinkContract}
    (h : evaluate constants f = .ok contract) :
    ∃ param rows, f.parameters = [⟨some param, false⟩] ∧
      (f.isAsync || f.isGenerator || f.hasRest) = false ∧
      validateStatements constants param f.body = .ok () ∧
      (∀ x ∈ warningCaptures f.body, x ∉ helperNames param f.body) ∧
      unknownInput ∉ literals constants f.body ∧
      grid constants param f.body (representatives (literals constants f.body)) = .ok rows ∧
      publish rows.flatten = .ok contract.rows := by
  unfold evaluate at h
  split at h
  · next param hparam =>
    split at h
    · cases h
    next hkind =>
    split at h
    · cases h
    split at h
    · cases h
    simp only [bind_eq_ok] at h
    obtain ⟨_, hvalid, h⟩ := h
    split at h
    · cases h
    next hcaptures =>
    split at h
    · cases h
    next hsentinel =>
    simp only [bind_eq_ok] at h
    obtain ⟨rows, hrows, published, hpublished, h⟩ := h
    cases h
    refine ⟨param, rows, hparam, Bool.not_eq_true _ ▸ hkind, hvalid, ?_, hsentinel, hrows,
      hpublished⟩
    intro x hx hname
    apply hcaptures
    exact List.any_eq_true.mpr ⟨x, hx, decide_eq_true hname⟩
  · cases h

/-- The expressions and names of an accepted helper whose imports are the module's. -/
theorem within_of_accepted {f : Helper} {aliases : List String}
    (himports : f.importsBound constants aliases = true)
    (hparam : f.parameters = [⟨some param, false⟩])
    (hcaptures : ∀ x ∈ warningCaptures f.body, x ∉ helperNames param f.body) :
    Within constants (literals constants f.body ++ objectPrototypeKeys)
      (helperNames param f.body) (expressions f.body) (bindings f.body) where
  listed e he s hs := List.mem_append_left _ (List.mem_flatMap.mpr ⟨e, he, hs⟩)
  imports e he r hr hresolved x hx := by
    have hbound := List.all_eq_true.mp (List.all_eq_true.mp himports e he) r hr
    rw [Option.isNone_eq_false_iff.mpr hresolved, Bool.false_or, hx, Option.any_some,
      Bool.and_eq_true, Bool.and_eq_true, hparam] at hbound
    have hfree := of_decide_eq_true hbound.2.2
    simp only [List.filterMap_cons, List.filterMap_nil, List.mem_append, List.mem_singleton,
      not_or] at hfree
    rw [helperNames, List.mem_cons, not_or]
    exact ⟨hfree.1.2, hfree.2⟩
  captures e he w hw x hx := hcaptures x
    (List.mem_flatMap.mpr ⟨e, he, List.mem_flatMap.mpr ⟨w, hw, hx⟩⟩)
  bound x hx := List.mem_cons_of_mem _ hx

/-- When every cell has a row, so has the grid. -/
theorem grid_of_cells {row : String → Option String → GroupUnlinkRow}
    (h : ∀ kind reason, cell constants param body kind reason = .ok (row kind reason))
    (values : List String) :
    grid constants param body values =
      .ok (values.map fun kind => (none :: values.map some).map (row kind)) := by
  have hline : ∀ kind : String, (none :: values.map some).mapM
      (fun reason => cell constants param body kind reason) =
      .ok ((none :: values.map some).map (row kind)) := by
    intro kind
    simp only [h]
    exact mapM_ok _ _
  unfold grid
  simp only [hline]
  exact mapM_ok _ _

/-- A table with one row for two keys is published. -/
theorem publish_of_functional {rows : List GroupUnlinkRow}
    (h : DecisionTable.Functional GroupUnlinkRow.unlinkType GroupUnlinkRow.reason rows) :
    ∃ published, publish rows = .ok published := by
  refine ⟨_, if_pos (DecisionTable.distinctNeighbours_of_functional ?_)⟩
  intro r hr d hd
  exact h r (List.mem_mergeSort.mp hr) d (List.mem_mergeSort.mp hd)

theorem evaluate_of_published {f : Helper} {rows : List (List GroupUnlinkRow)}
    {published : List GroupUnlinkRow} (hparam : f.parameters = [⟨some param, false⟩])
    (hkind : (f.isAsync || f.isGenerator || f.hasRest) = false)
    (hdirectives : f.hasDirectives = false) (hoptional : f.hasOptionalAccess = false)
    (hvalid : validateStatements constants param f.body = .ok ())
    (hcaptures : (warningCaptures f.body).any (· ∈ param :: bindings f.body) = false)
    (hsentinel : unknownInput ∉ literals constants f.body)
    (hrows : grid constants param f.body (representatives (literals constants f.body)) = .ok rows)
    (hpublished : publish rows.flatten = .ok published) :
    evaluate constants f =
      .ok ⟨"WAWebHandleGroupNotification", f.startByte, f.endByte, published⟩ := by
  unfold grid at hrows
  unfold evaluate
  rw [hparam]
  simp only [hkind, hdirectives, hoptional, Bool.false_eq_true, if_false, hvalid, ok_bind,
    hcaptures, if_neg hsentinel, hrows, hpublished]
  rfl

/-! ### A helper with one entry in its table -/

/-- `var t = e.attrString("unlink_type"), n = e.hasAttr("unlink_reason") ?
e.attrString("unlink_reason") : null, r = e.mapChildrenWithTag("group", …),
a = {sub_group: o("WAWebGroupType").GROUP_ACTIONS.SUB_GROUP_UNLINK};
return {actionType: a[t], groupDatas: r}`. -/
def subGroupHelper : Helper where
  name := some "I"
  isAsync := false
  isGenerator := false
  hasRest := false
  parameters := [⟨some "e", false⟩]
  hasDirectives := false
  hasOptionalAccess := false
  body :=
    [.variableDeclaration true
      [(some "t", some (.call ⟨some "attrString", some "e", some "unlink_type", 1, false,
          ["unlink_type"]⟩)),
        (some "n", some (.conditional
          (.call ⟨some "hasAttr", some "e", some "unlink_reason", 1, false, ["unlink_reason"]⟩)
          (.call ⟨some "attrString", some "e", some "unlink_reason", 1, false,
            ["unlink_reason"]⟩)
          .nullLiteral)),
        (some "r", some (.call ⟨some "mapChildrenWithTag", some "e", some "group", 2, true,
          ["group", "WAWebJidToWid", "jid", "subject", "s_t", "id", "subjectTime"]⟩)),
        (some "a", some (.object [(⟨false, false, false, some "sub_group"⟩,
          .constant ⟨some "o", 1, "WAWebGroupType", "GROUP_ACTIONS", "SUB_GROUP_UNLINK",
            ["WAWebGroupType"]⟩)]))],
      .returnStatement (some (.object
        [(⟨false, false, false, some "actionType"⟩,
            .computedMember (.identifier "a") (.identifier "t")),
          (⟨false, false, false, some "groupDatas"⟩, .identifier "r")]))]
  startByte := 0
  endByte := 0

def subGroupConstants : Constants := fun m o k =>
  if m = "WAWebGroupType" ∧ o = "GROUP_ACTIONS" ∧ k = "SUB_GROUP_UNLINK" then
    some "sub_group_unlink"
  else none

/-- The row of the helper for two keys. -/
def subGroupRow (unlinkType reason : Option String) : GroupUnlinkRow where
  unlinkType := unlinkType
  reason := reason
  actionType := if unlinkType = some "sub_group" then some "sub_group_unlink" else none
  unsupportedAction := unlinkType.any (· ∈ objectPrototypeKeys)
  nullResult := none

/-- The value that the helper makes of a stand-in for the type. -/
theorem eval_subGroupHelper (kind : String) (reason : Option String) :
    ∃ σ v, evalStatements subGroupConstants subGroupHelper.body (.initial "e" kind reason) =
        .ok (some (.object [("actionType", v), ("groupDatas", .groups)]), σ) ∧
      σ.requirePayloadReads = .ok () ∧
      lookupKey [("sub_group", .text "sub_group_unlink")] (Eval.initial "e" kind reason).kindValue =
        .ok v := by
  by_cases hkind : kind = unknownInput <;> cases reason <;>
    simp [subGroupHelper, evalStatements, Stmt.eval, evalDeclarations, Expr.eval, Eval.access,
      Eval.initial, Eval.kindValue, evalProperties, subGroupConstants, Constants.resolve,
      Eval.requirePayloadReads, expectedReads, lookupKey, ok_bind, hkind]

theorem cell_subGroupHelper (kind : String) (reason : Option String) :
    cell subGroupConstants "e" subGroupHelper.body kind reason =
      .ok (subGroupRow (if kind = unknownInput then none else some kind)
        (reason.filter (· ≠ unknownInput))) := by
  obtain ⟨σ, v, heval, hreads, hlookup⟩ := eval_subGroupHelper kind reason
  have hgroups : [("actionType", v), ("groupDatas", Value.groups)].lookup "groupDatas" =
      some .groups := rfl
  have haction : [("actionType", v), ("groupDatas", Value.groups)].lookup "actionType" = some v :=
    rfl
  rw [cell, heval]
  simp only [ok_bind, hreads, Value.decision, hgroups, haction, subGroupRow]
  by_cases hkind : kind = unknownInput
  · have hvalue : (Eval.initial "e" kind reason).kindValue = .unknownKind := if_pos hkind
    rw [hvalue] at hlookup
    cases hlookup
    simp [hkind]
  · have hvalue : (Eval.initial "e" kind reason).kindValue = .text kind := if_neg hkind
    rw [hvalue, lookupKey, Except.ok.injEq] at hlookup
    by_cases hsub : kind = "sub_group"
    · subst hsub
      simp at hlookup
      subst hlookup
      have hneq : "sub_group_unlink" ≠ unknownInput := by decide
      have hlisted : "sub_group" ∉ objectPrototypeKeys := by decide
      simp [hkind, hneq, hlisted]
    · have hnone : [("sub_group", Value.text "sub_group_unlink")].lookup kind = none := by
        rw [List.lookup_cons, beq_false_of_ne hsub]
        rfl
      rw [hnone] at hlookup
      by_cases hproto : kind ∈ objectPrototypeKeys
      · simp only [if_pos hproto] at hlookup
        subst hlookup
        simp [hkind, hsub, hproto]
      · simp only [if_neg hproto] at hlookup
        subst hlookup
        simp [hkind, hsub, hproto]

/-- The helper is accepted. -/
theorem evaluate_subGroupHelper :
    ∃ contract, evaluate subGroupConstants subGroupHelper = .ok contract := by
  have hvalid : validateStatements subGroupConstants "e" subGroupHelper.body = .ok () := by decide
  have hcaptures : (warningCaptures subGroupHelper.body).any
      (· ∈ "e" :: bindings subGroupHelper.body) = false := by decide
  have hsentinel : unknownInput ∉ literals subGroupConstants subGroupHelper.body := by decide
  have hgrid := grid_of_cells cell_subGroupHelper
    (representatives (literals subGroupConstants subGroupHelper.body))
  generalize hrows : ((representatives _).map fun kind => _) = rows at hgrid
  have hrow : ∀ r ∈ rows.flatten, r = subGroupRow r.unlinkType r.reason := by
    intro r hr
    rw [← hrows] at hr
    obtain ⟨line, hline, hr⟩ := List.mem_flatten.mp hr
    obtain ⟨kind, _, rfl⟩ := List.mem_map.mp hline
    obtain ⟨reason, _, rfl⟩ := List.mem_map.mp hr
    rfl
  have hfunctional : DecisionTable.Functional GroupUnlinkRow.unlinkType GroupUnlinkRow.reason
      rows.flatten := by
    intro r hr d hd htype hreason
    rw [hrow r hr, hrow d hd, htype, hreason]
  obtain ⟨published, hpublished⟩ := publish_of_functional hfunctional
  exact ⟨_, evaluate_of_published rfl rfl rfl rfl hvalid hcaptures hsentinel hgrid hpublished⟩

end Whatspec.Notif.Unlink

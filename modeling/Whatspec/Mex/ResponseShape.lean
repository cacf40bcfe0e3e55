import Mathlib.Data.Set.Insert
import Whatspec.Mex.Selections

/-!
# What the response tree holds

Each chain of selections asks for a form at a path.  A tree is read as the form it has at each path,
and merging two trees takes the stronger form at every path.

* `formAt_mergeShapeNode`: the merge, path by path;
* `shows_shape`: at every path the tree has the strongest form that is asked for there;
* **`response_shape`**: its paths are those of the chains, a link is never left a scalar, and the
  order of the selections does not show.
-/

namespace Whatspec.Mex

open Whatspec.Library

namespace TypeNode

def form : TypeNode → Form
  | leaf _ => .leaf
  | object _ => .object
  | array _ => .array

/-- The form at the end of a path. -/
def formAt (n : TypeNode) (path : List Step) : WithBot Form :=
  match n.at? path with
  | some c => c.form
  | none => ⊥

/-- The trees that come from selections: one element in each list, no type at the leaves. -/
inductive Plain : TypeNode → Prop
  | leaf : Plain (.leaf unknown)
  | array {n : TypeNode} (element : Plain n) : Plain (.array [n])
  | object {fields : List (String × TypeNode)} (sorted : SortedMap.Sorted fields)
      (nodes : ∀ e ∈ fields, Plain e.2) : Plain (.object fields)

theorem formAt_nil (n : TypeNode) : n.formAt [] = n.form := rfl

theorem formAt_of_child {n c : TypeNode} {s : Step} (h : n.child s = some c) (path : List Step) :
    n.formAt (s :: path) = c.formAt path := by
  rw [formAt, at?, h]
  rfl

theorem formAt_of_no_child {n : TypeNode} {s : Step} (h : n.child s = none) (path : List Step) :
    n.formAt (s :: path) = ⊥ := by
  rw [formAt, at?, h]
  rfl

theorem Plain.child {n c : TypeNode} {s : Step} (h : Plain n) (hc : n.child s = some c) :
    Plain c := by
  cases h with
  | leaf => cases s <;> cases hc
  | array element =>
    cases s with
    | field key => cases hc
    | item =>
      cases hc
      exact element
  | object sorted nodes =>
    cases s with
    | field key => exact nodes (key, c) (SortedMap.mem_of_get hc)
    | item => cases hc

/-- Trees that show the same forms have the same nodes one step down. -/
theorem child_of_forms {a b : TypeNode} (h : ∀ path, a.formAt path = b.formAt path) (s : Step) :
    (a.child s = none ∧ b.child s = none) ∨ ∃ c d, a.child s = some c ∧ b.child s = some d ∧
      ∀ path, c.formAt path = d.formAt path := by
  cases hc : a.child s with
  | none =>
    cases hd : b.child s with
    | none => exact .inl ⟨rfl, rfl⟩
    | some d =>
      have hs := h [s]
      rw [formAt_of_no_child hc, formAt_of_child hd] at hs
      cases hs
  | some c =>
    cases hd : b.child s with
    | none =>
      have hs := h [s]
      rw [formAt_of_child hc, formAt_of_no_child hd] at hs
      cases hs
    | some d =>
      refine .inr ⟨c, d, rfl, rfl, fun path => ?_⟩
      rw [← formAt_of_child hc, ← formAt_of_child hd]
      exact h (s :: path)

/-- A plain tree is the forms it shows. -/
theorem Plain.ext {a b : TypeNode} (ha : Plain a) (hb : Plain b)
    (h : ∀ path, a.formAt path = b.formAt path) : a = b := by
  have hform : a.form = b.form := WithBot.coe_injective (h [])
  induction ha generalizing b with
  | leaf =>
    cases hb with
    | leaf => rfl
    | array => nomatch hform
    | object => nomatch hform
  | array element ih =>
    cases hb with
    | leaf => nomatch hform
    | array element' =>
      have helement := fun path => h (.item :: path)
      rw [ih element' helement (WithBot.coe_injective (helement []))]
    | object => nomatch hform
  | @object fields sorted nodes ih =>
    cases hb with
    | leaf => nomatch hform
    | array => nomatch hform
    | @object fields' sorted' nodes' =>
      refine congrArg TypeNode.object (SortedMap.ext_of_sorted sorted sorted' fun key => ?_)
      obtain ⟨hc, hd⟩ | ⟨c, d, hc, hd, hforms⟩ := child_of_forms h (.field key)
      · exact Eq.trans hc hd.symm
      · have heq := ih (key, c) (SortedMap.mem_of_get hc)
          (nodes' (key, d) (SortedMap.mem_of_get hd)) hforms (WithBot.coe_injective (hforms []))
        exact Eq.trans hc ((congrArg some heq).trans hd.symm)

end TypeNode

/-! ### Merging, path by path -/

/-- Merge two nodes either of which may be missing. -/
def mergeThere : Option TypeNode → Option TypeNode → Option TypeNode
  | none, b => b
  | some a, none => some a
  | some a, some b => some (mergeShapeNode a b)

theorem get_putMerged (key key' : String) (node : TypeNode) (fields : List (String × TypeNode)) :
    SortedMap.get (putMerged key node fields) key' =
      if key' = key then mergeThere (SortedMap.get fields key) (some node)
      else SortedMap.get fields key' := by
  rw [putMerged, SortedMap.get_insert, SortedMap.get_remove]
  by_cases hkey : key' = key
  · rw [if_pos hkey, if_pos hkey]
    cases SortedMap.get fields key <;> rfl
  · rw [if_neg hkey, if_neg hkey, if_neg hkey]

theorem sorted_putMerged (key : String) (node : TypeNode) {fields : List (String × TypeNode)}
    (h : SortedMap.Sorted fields) : SortedMap.Sorted (putMerged key node fields) :=
  SortedMap.sorted_insert _ _ (List.Pairwise.filter _ h)

theorem get_mergeFields (as : List (String × TypeNode)) {bs : List (String × TypeNode)}
    (h : SortedMap.Sorted bs) (key : String) : SortedMap.get (mergeFields as bs) key =
      mergeThere (SortedMap.get as key) (SortedMap.get bs key) := by
  induction bs generalizing as with
  | nil =>
    rw [mergeFields, SortedMap.get_nil]
    cases SortedMap.get as key <;> rfl
  | cons e rest ih =>
    obtain ⟨k, node⟩ := e
    obtain ⟨hhead, hrest⟩ := List.pairwise_cons.mp h
    rw [mergeFields_cons, ih _ hrest, get_putMerged, SortedMap.get_cons]
    by_cases hk : key = k
    · subst hk
      rw [if_pos rfl, if_pos rfl, SortedMap.get_eq_none_of_lt hhead]
      cases SortedMap.get as key <;> rfl
    · rw [if_neg hk, if_neg hk]

theorem sorted_mergeFields {as : List (String × TypeNode)} (h : SortedMap.Sorted as)
    (bs : List (String × TypeNode)) : SortedMap.Sorted (mergeFields as bs) := by
  induction bs generalizing as with
  | nil =>
    rw [mergeFields]
    exact h
  | cons e rest ih =>
    obtain ⟨k, node⟩ := e
    rw [mergeFields_cons]
    exact ih (sorted_putMerged k node h)

theorem form_mergeShapeNode (a b : TypeNode) :
    (mergeShapeNode a b).form = max a.form b.form := by
  cases a <;> cases b <;> rw [mergeShapeNode.eq_def] <;> rfl

/-- Two trees never show an object and a list at one path. -/
def Compatible (a b : TypeNode) : Prop :=
  ∀ path, ¬ (a.formAt path = Form.object ∧ b.formAt path = Form.array) ∧
    ¬ (a.formAt path = Form.array ∧ b.formAt path = Form.object)

theorem mergeShapeNode_child {a b : TypeNode} (ha : a.Plain) (hb : b.Plain)
    (h : Compatible a b) (s : Step) :
    (mergeShapeNode a b).child s = mergeThere (a.child s) (b.child s) := by
  cases hb with
  | leaf =>
    have hleaf : mergeShapeNode a (.leaf TypeNode.unknown) = a := by
      cases ha <;> rw [mergeShapeNode.eq_def]
    have hnone : (TypeNode.leaf TypeNode.unknown).child s = none := by cases s <;> rfl
    rw [hleaf, hnone]
    cases a.child s <;> rfl
  | array element =>
    rw [mergeShapeNode.eq_def]
    cases ha with
    | leaf => cases s <;> rfl
    | array element' => cases s <;> rfl
    | object => exact absurd ⟨rfl, rfl⟩ (h []).1
  | object sorted nodes =>
    rw [mergeShapeNode.eq_def]
    cases ha with
    | leaf => cases s <;> rfl
    | array => exact absurd ⟨rfl, rfl⟩ (h []).2
    | object sorted' nodes' =>
      cases s with
      | field key => exact get_mergeFields _ sorted key
      | item => rfl

theorem Compatible.child {a b c d : TypeNode} {s : Step} (h : Compatible a b)
    (hc : a.child s = some c) (hd : b.child s = some d) : Compatible c d := by
  intro path
  have hpath := h (s :: path)
  rwa [TypeNode.formAt_of_child hc, TypeNode.formAt_of_child hd] at hpath

/-- **A merge shows the stronger form at every path.** -/
theorem formAt_mergeShapeNode {a b : TypeNode} (ha : a.Plain) (hb : b.Plain)
    (h : Compatible a b) (path : List Step) :
    (mergeShapeNode a b).formAt path = max (a.formAt path) (b.formAt path) := by
  induction path generalizing a b with
  | nil =>
    rw [TypeNode.formAt_nil, form_mergeShapeNode]
    rfl
  | cons s path ih =>
    have hchild := mergeShapeNode_child ha hb h s
    cases hc : a.child s with
    | none =>
      rw [TypeNode.formAt_of_no_child hc, bot_sup_eq]
      rw [hc] at hchild
      rw [TypeNode.formAt, TypeNode.formAt, TypeNode.at?, TypeNode.at?, hchild]
      rfl
    | some c =>
      rw [hc] at hchild
      cases hd : b.child s with
      | none =>
        rw [hd] at hchild
        rw [TypeNode.formAt_of_no_child hd, max_bot_right, TypeNode.formAt_of_child hc,
          TypeNode.formAt_of_child hchild]
      | some d =>
        rw [hd] at hchild
        rw [TypeNode.formAt_of_child hc, TypeNode.formAt_of_child hd,
          TypeNode.formAt_of_child hchild, ih (ha.child hc) (hb.child hd) (h.child hc hd)]

theorem plain_mergeShapeNode {a b : TypeNode} (ha : a.Plain) (hb : b.Plain) :
    (mergeShapeNode a b).Plain := by
  induction hb generalizing a with
  | leaf =>
    rw [mergeShapeNode.eq_def]
    cases ha with
    | leaf => exact .leaf
    | array element => exact .array element
    | object sorted nodes => exact .object sorted nodes
  | array element ih =>
    rw [mergeShapeNode.eq_def]
    cases ha with
    | leaf => exact .array element
    | array element' => exact .array (ih element')
    | object sorted nodes => exact .array element
  | object sorted nodes ih =>
    rw [mergeShapeNode.eq_def]
    cases ha with
    | leaf => exact .object sorted nodes
    | array element => exact .array element
    | @object fields sorted' nodes' =>
      refine .object (sorted_mergeFields sorted' _) fun e he => ?_
      have hget := SortedMap.get_of_mem (sorted_mergeFields sorted' _) he
      rw [get_mergeFields _ sorted] at hget
      cases hc : SortedMap.get fields e.1 with
      | none =>
        rw [hc] at hget
        exact nodes e (SortedMap.mem_of_get hget)
      | some c =>
        have hplain := nodes' (e.1, c) (SortedMap.mem_of_get hc)
        rw [hc] at hget
        cases hd : SortedMap.get _ e.1 with
        | none =>
          rw [hd] at hget
          rw [← Option.some.inj hget]
          exact hplain
        | some d =>
          rw [hd] at hget
          rw [← Option.some.inj hget]
          exact ih (e.1, d) (SortedMap.mem_of_get hd) hplain

/-! ### One selection -/

open TypeNode (Plain)

theorem plain_empty : (TypeNode.object []).Plain := .object List.Pairwise.nil nofun

theorem plain_single (key : String) {node : TypeNode} (h : node.Plain) :
    (TypeNode.object [(key, node)]).Plain := by
  refine .object (List.pairwise_singleton _ _) fun e he => ?_
  rw [List.mem_singleton.mp he]
  exact h

theorem Plain.sorted {fields : List (String × TypeNode)} (h : (TypeNode.object fields).Plain) :
    SortedMap.Sorted fields := by
  cases h
  assumption

/-- What a selection gives, merged into what is there. -/
theorem plain_mergeFields {as bs : List (String × TypeNode)} (ha : (TypeNode.object as).Plain)
    (hb : (TypeNode.object bs).Plain) : (TypeNode.object (mergeFields as bs)).Plain := by
  have hmerge := plain_mergeShapeNode ha hb
  rwa [mergeShapeNode.eq_def] at hmerge

theorem mergeFields_single (key : String) (node : TypeNode) (fields : List (String × TypeNode)) :
    mergeFields fields [(key, node)] = putMerged key node fields := by
  rw [mergeFields_cons, mergeFields]

/-- A scalar is merged like the leaf it is. -/
theorem mergeFields_scalar {fields : List (String × TypeNode)} (h : (TypeNode.object fields).Plain)
    (key : String) : mergeFields fields [(key, .leaf TypeNode.unknown)] =
      if (SortedMap.get fields key).isSome then fields
      else SortedMap.insert key (.leaf TypeNode.unknown) fields := by
  have hsorted := Plain.sorted h
  rw [mergeFields_single]
  have hright : SortedMap.Sorted (if (SortedMap.get fields key).isSome then fields
      else SortedMap.insert key (.leaf TypeNode.unknown) fields) := by
    split
    · exact hsorted
    · exact SortedMap.sorted_insert _ _ hsorted
  refine SortedMap.ext_of_sorted (sorted_putMerged _ _ hsorted) hright fun key' => ?_
  rw [get_putMerged]
  cases hget : SortedMap.get fields key with
  | none =>
    simp only [Option.isSome_none, Bool.false_eq_true, if_false, SortedMap.get_insert]
    rfl
  | some node =>
    simp only [Option.isSome_some, if_true]
    by_cases hkey : key' = key
    · rw [if_pos hkey, hkey, hget]
      have hnode : node.Plain := TypeNode.Plain.child (s := .field key) h hget
      cases hnode <;> rw [mergeThere, mergeShapeNode.eq_def]
    · rw [if_neg hkey]

theorem kind_of_get {sel : Val} (h : ∀ key, sel.get key = none) : sel.kind = "" := by
  rw [Val.kind, h]
  rfl

/-- The shape of what a selection selects. -/
def below (sel : Val) : List (String × TypeNode) :=
  ((sel.get "selections").map shapeFromSelections).getD []

/-- What a selection gives on its own. -/
def givenBy (sel : Val) : List (String × TypeNode) :=
  if sel.kind = "ScalarField" ∨ sel.kind = "TypeDiscriminator" then
    [(sel.scalarKey, .leaf TypeNode.unknown)]
  else if sel.kind = "LinkedField" then
    match sel.responseKey with
    | some key => [(key, linkedNode sel.plural (below sel))]
    | none => []
  else if sel.kind = "InlineFragment" ∨ sel.kind = "Condition" then below sel
  else []

/-- Walking a selection merges in what it gives on its own. -/
theorem addSelection_eq (sel : Val) {fields : List (String × TypeNode)}
    (h : (TypeNode.object fields).Plain) :
    addSelection sel fields = mergeFields fields (givenBy sel) := by
  have hnone : mergeFields fields [] = fields := by rw [mergeFields]
  have hother : (∀ key, sel.get key = none) → mergeFields fields (givenBy sel) = fields := by
    intro hget
    rw [givenBy, kind_of_get hget]
    simpa using hnone
  cases sel with
  | obj props =>
    rw [addSelection, givenBy, innerShape_eq]
    simp only [← mergeFields_single, ← mergeFields_scalar h]
    split
    · rfl
    · split
      · cases (Val.obj props).responseKey with
        | none => exact hnone.symm
        | some key => rfl
      · split
        · rfl
        · exact hnone.symm
  | _ =>
    rw [addSelection]
    · exact (hother fun _ => rfl).symm
    · simp

theorem plain_linkedNode (plural : Bool) {inner : List (String × TypeNode)}
    (h : (TypeNode.object inner).Plain) : (linkedNode plural inner).Plain := by
  cases plural with
  | false => exact h
  | true => exact .array h

theorem plain_givenBy {sel : Val} (h : (TypeNode.object (below sel)).Plain) :
    (TypeNode.object (givenBy sel)).Plain := by
  rw [givenBy]
  split
  · exact plain_single _ .leaf
  · split
    · cases sel.responseKey with
      | none => exact plain_empty
      | some key => exact plain_single key (plain_linkedNode _ h)
    · split
      · exact h
      · exact plain_empty

/-! ### The selections below a selection -/

theorem Val.sizeOf_get {v inner : Val} {key : String} (h : v.get key = some inner) :
    sizeOf inner < sizeOf v := by
  cases v with
  | obj props =>
    obtain ⟨above, below, hprops, -⟩ := List.lookup_eq_some_iff.mp h
    have hmem : (key, inner) ∈ props := hprops ▸ List.mem_append_right above List.mem_cons_self
    have hlt := List.sizeOf_lt_of_mem hmem
    rw [Prod.mk.sizeOf_spec] at hlt
    rw [Val.obj.sizeOf_spec]
    omega
  | _ => cases h

/-- Induction over selections: an array after the selections of its items. -/
@[elab_as_elim]
theorem Val.selectionsInduct {motive : Val → Prop}
    (arr : ∀ items, (∀ sel ∈ items, ∀ inner, sel.get "selections" = some inner → motive inner) →
      motive (.arr items))
    (other : ∀ v, (∀ items, v ≠ .arr items) → motive v) : ∀ v, motive v
  | .arr items => arr items fun sel hsel inner hinner =>
      have : sizeOf inner < 1 + sizeOf items :=
        (Val.sizeOf_get hinner).trans ((List.sizeOf_lt_of_mem hsel).trans (by omega))
      selectionsInduct arr other inner
  | .str s => other (.str s) nofun
  | .bool b => other (.bool b) nofun
  | .null => other .null nofun
  | .undefined => other .undefined nofun
  | .num => other .num nofun
  | .obj props => other (.obj props) nofun
  | .ref name => other (.ref name) nofun

theorem shapeFromSelections_other {v : Val} (h : ∀ items, v ≠ .arr items) :
    shapeFromSelections v = [] := by
  cases v with
  | arr items => exact absurd rfl (h items)
  | _ => rw [shapeFromSelections]; nofun

theorem plain_addSelections {items : List Val}
    (hitems : ∀ sel ∈ items, (TypeNode.object (givenBy sel)).Plain)
    {fields : List (String × TypeNode)} (h : (TypeNode.object fields).Plain) :
    (TypeNode.object (addSelections items fields)).Plain := by
  induction items generalizing fields with
  | nil =>
    rw [addSelections]
    exact h
  | cons sel rest ih =>
    rw [List.forall_mem_cons] at hitems
    rw [addSelections, addSelection_eq sel h]
    exact ih hitems.2 (plain_mergeFields h hitems.1)

theorem plain_below {sel : Val} (h : ∀ inner, sel.get "selections" = some inner →
    (TypeNode.object (shapeFromSelections inner)).Plain) :
    (TypeNode.object (below sel)).Plain := by
  rw [below]
  cases hget : sel.get "selections" with
  | none => exact plain_empty
  | some inner => exact h inner hget

theorem plain_shapeFromSelections (selections : Val) :
    (TypeNode.object (shapeFromSelections selections)).Plain := by
  induction selections using Val.selectionsInduct with
  | arr items ih =>
    rw [shapeFromSelections]
    exact plain_addSelections (fun sel hsel => plain_givenBy (plain_below (ih sel hsel))) plain_empty
  | other v h =>
    rw [shapeFromSelections_other h]
    exact plain_empty

/-! ### The strongest form that is asked for -/

/-- A tree shows the strongest of the forms that are asked for. -/
def Shows (shown : WithBot Form) (asked : Set Form) : Prop :=
  (∀ f ∈ asked, (f : WithBot Form) ≤ shown) ∧ ∀ f : Form, shown = f → f ∈ asked

theorem Shows.max {x y : WithBot Form} {S T : Set Form} (hx : Shows x S) (hy : Shows y T) :
    Shows (max x y) (S ∪ T) := by
  refine ⟨fun f hf => ?_, fun f hf => ?_⟩
  · obtain hf | hf := hf
    · exact (hx.1 f hf).trans (le_max_left x y)
    · exact (hy.1 f hf).trans (le_max_right x y)
  · obtain h | h := max_choice x y
    · exact .inl (hx.2 f (h.symm.trans hf))
    · exact .inr (hy.2 f (h.symm.trans hf))

theorem Shows.unique {x y : WithBot Form} {S : Set Form} (hx : Shows x S) (hy : Shows y S) :
    x = y := by
  have hle : ∀ {x y : WithBot Form}, Shows x S → Shows y S → x ≤ y := by
    intro x y hx hy
    cases x with
    | bot => exact bot_le
    | coe f => exact hy.1 f (hx.2 f rfl)
  exact le_antisymm (hle hx hy) (hle hy hx)

theorem shows_bot_iff {S : Set Form} : Shows ⊥ S ↔ S = ∅ := by
  refine ⟨fun h => Set.eq_empty_of_forall_notMem fun f hf => ?_, fun h => ?_⟩
  · exact absurd (h.1 f hf) (WithBot.not_coe_le_bot f)
  · subst h
    exact ⟨nofun, nofun⟩

theorem shows_coe (f : Form) : Shows f {f} := by
  refine ⟨fun g hg => ?_, fun g hg => ?_⟩
  · rw [Set.mem_singleton_iff.mp hg]
  · exact (WithBot.coe_injective hg).symm

/-- The forms that chains of selections ask for at a path. -/
def asked (selections : Val) (path : List Step) : Set Form := {f | Produces selections path f}

/-- The chains of several selections are those of each. -/
theorem produces_iff_exists {items : List Val} {path : List Step} {form : Form} :
    Produces (.arr items) path form ↔ ∃ sel ∈ items, Produces (.arr [sel]) path form := by
  constructor
  · intro h
    have hone := fun sel : Val => List.mem_singleton_self sel
    cases h with
    | scalar mem kind => exact ⟨_, mem, .scalar (hone _) kind⟩
    | list mem kind name plural => exact ⟨_, mem, .list (hone _) kind name plural⟩
    | link mem kind name => exact ⟨_, mem, .link (hone _) kind name⟩
    | within mem kind name selections chain =>
      exact ⟨_, mem, .within (hone _) kind name selections chain⟩
    | inside mem kind selections chain => exact ⟨_, mem, .inside (hone _) kind selections chain⟩
  · rintro ⟨sel, hsel, h⟩
    have hmem : ∀ {sel'}, sel' ∈ [sel] → sel' ∈ items := fun h => List.mem_singleton.mp h ▸ hsel
    cases h with
    | scalar mem kind => exact .scalar (hmem mem) kind
    | list mem kind name plural => exact .list (hmem mem) kind name plural
    | link mem kind name => exact .link (hmem mem) kind name
    | within mem kind name selections chain =>
      exact .within (hmem mem) kind name selections chain
    | inside mem kind selections chain => exact .inside (hmem mem) kind selections chain

theorem Produces.ne_nil {v : Val} {path : List Step} {form : Form} (h : Produces v path form) :
    path ≠ [] := by
  have hsteps : ∀ key plural, linkSteps key plural ≠ [] := by
    intro key plural
    cases plural <;> nofun
  induction h with
  | scalar => nofun
  | list => nofun
  | link => exact hsteps _ _
  | within => exact fun h => hsteps _ _ (List.append_eq_nil_iff.mp h).1
  | inside _ _ _ _ ih => exact ih

/-- The forms asked for by what a selection selects. -/
def askedBelow (sel : Val) (path : List Step) : Set Form :=
  {f | ∃ inner, sel.get "selections" = some inner ∧ Produces inner path f}

theorem not_asked_nil (sel : Val) : askedBelow sel [] = ∅ :=
  Set.eq_empty_of_forall_notMem fun _ ⟨_, _, h⟩ => h.ne_nil rfl

theorem shows_below {sel : Val} (h : ∀ inner, sel.get "selections" = some inner →
      ∀ path ≠ [], Shows ((TypeNode.object (shapeFromSelections inner)).formAt path)
        (asked inner path)) {path : List Step} (hpath : path ≠ []) :
    Shows ((TypeNode.object (below sel)).formAt path) (askedBelow sel path) := by
  rw [below, askedBelow]
  cases hget : sel.get "selections" with
  | none =>
    have hbot : (TypeNode.object []).formAt path = ⊥ := by
      cases path with
      | nil => exact absurd rfl hpath
      | cons s path => cases s <;> exact TypeNode.formAt_of_no_child rfl path
    refine hbot ▸ shows_bot_iff.mpr (Set.eq_empty_of_forall_notMem ?_)
    rintro f ⟨inner, hinner, -⟩
    cases hinner
  | some inner =>
    have hset : {f | ∃ v, some inner = some v ∧ Produces v path f} = asked inner path := by
      ext f
      simp [asked]
    rw [hset]
    exact h inner hget path hpath

/-- What a link asks for at its key and below. -/
def askedLink (sel : Val) : Bool → List Step → Set Form
  | false, [] => {.object}
  | false, s :: path => askedBelow sel (s :: path)
  | true, [] => {.array}
  | true, [.item] => {.object}
  | true, .item :: s :: path => askedBelow sel (s :: path)
  | true, .field _ :: _ => ∅

theorem shows_linkedNode {sel : Val} (h : ∀ path ≠ [],
      Shows ((TypeNode.object (below sel)).formAt path) (askedBelow sel path)) (plural : Bool)
    (path : List Step) :
    Shows ((linkedNode plural (below sel)).formAt path) (askedLink sel plural path) := by
  cases plural with
  | false =>
    cases path with
    | nil => exact shows_coe .object
    | cons s path => exact h (s :: path) nofun
  | true =>
    cases path with
    | nil => exact shows_coe .array
    | cons s path =>
      cases s with
      | field key => exact shows_bot_iff.mpr rfl
      | item =>
        rw [TypeNode.formAt_of_child (c := .object (below sel)) rfl]
        cases path with
        | nil => exact shows_coe .object
        | cons s path => exact h (s :: path) nofun

/-- The chains through one selection, by its kind. -/
theorem produces_one {sel : Val} {path : List Step} {form : Form} :
    Produces (.arr [sel]) path form ↔
      ((sel.kind = "ScalarField" ∨ sel.kind = "TypeDiscriminator") ∧
        path = [.field sel.scalarKey] ∧ form = .leaf) ∨
      (sel.kind = "LinkedField" ∧ ∃ key, sel.responseKey = some key ∧
        ((sel.plural = true ∧ path = [.field key] ∧ form = .array) ∨
          (path = linkSteps key sel.plural ∧ form = .object) ∨
          ∃ rest, path = linkSteps key sel.plural ++ rest ∧ form ∈ askedBelow sel rest)) ∨
      ((sel.kind = "InlineFragment" ∨ sel.kind = "Condition") ∧ form ∈ askedBelow sel path) := by
  have hone := List.mem_singleton_self sel
  constructor
  · intro h
    cases h with
    | scalar mem kind =>
      obtain rfl := List.mem_singleton.mp mem
      exact .inl ⟨kind, rfl, rfl⟩
    | list mem kind name plural =>
      obtain rfl := List.mem_singleton.mp mem
      exact .inr (.inl ⟨kind, _, name, .inl ⟨plural, rfl, rfl⟩⟩)
    | link mem kind name =>
      obtain rfl := List.mem_singleton.mp mem
      exact .inr (.inl ⟨kind, _, name, .inr (.inl ⟨rfl, rfl⟩)⟩)
    | within mem kind name selections chain =>
      obtain rfl := List.mem_singleton.mp mem
      exact .inr (.inl ⟨kind, _, name, .inr (.inr ⟨_, rfl, _, selections, chain⟩)⟩)
    | inside mem kind selections chain =>
      obtain rfl := List.mem_singleton.mp mem
      exact .inr (.inr ⟨kind, _, selections, chain⟩)
  · rintro (⟨kind, rfl, rfl⟩ | ⟨kind, key, name, h⟩ | ⟨kind, inner, hinner, chain⟩)
    · exact .scalar hone kind
    · obtain ⟨plural, rfl, rfl⟩ | ⟨rfl, rfl⟩ | ⟨rest, rfl, inner, hinner, chain⟩ := h
      · exact .list hone kind name plural
      · exact .link hone kind name
      · exact .within hone kind name hinner chain
    · exact .inside hone kind hinner chain

theorem asked_scalar {sel : Val} (hkind : sel.kind = "ScalarField" ∨ sel.kind = "TypeDiscriminator")
    (s : Step) (path : List Step) : asked (.arr [sel]) (s :: path) =
      if s = .field sel.scalarKey then (if path = [] then {.leaf} else ∅) else ∅ := by
  ext form
  rw [asked, Set.mem_ofPred_eq, produces_one]
  by_cases hs : s = .field sel.scalarKey
  · by_cases hpath : path = []
    · rcases hkind with hkind | hkind <;> simp [hkind, hs, hpath]
    · rcases hkind with hkind | hkind <;> simp [hkind, hs, hpath]
  · rcases hkind with hkind | hkind <;> simp [hkind, hs]

theorem asked_inline {sel : Val} (hkind : sel.kind = "InlineFragment" ∨ sel.kind = "Condition")
    (path : List Step) : asked (.arr [sel]) path = askedBelow sel path := by
  ext form
  rw [asked, Set.mem_ofPred_eq, produces_one]
  rcases hkind with hkind | hkind <;> simp [hkind]

theorem asked_unread {sel : Val}
    (hscalar : ¬ (sel.kind = "ScalarField" ∨ sel.kind = "TypeDiscriminator"))
    (hlinked : ¬ (sel.kind = "LinkedField" ∧ ∃ key, sel.responseKey = some key))
    (hinline : ¬ (sel.kind = "InlineFragment" ∨ sel.kind = "Condition")) (path : List Step) :
    asked (.arr [sel]) path = ∅ := by
  refine Set.eq_empty_of_forall_notMem fun form h => ?_
  obtain ⟨kind, -⟩ | ⟨kind, key, name, -⟩ | ⟨kind, -⟩ := produces_one.mp h
  · exact hscalar kind
  · exact hlinked ⟨kind, key, name⟩
  · exact hinline kind

theorem asked_link {sel : Val} {key : String} (hkind : sel.kind = "LinkedField")
    (hkey : sel.responseKey = some key) (s : Step) (path : List Step) :
    asked (.arr [sel]) (s :: path) =
      if s = .field key then askedLink sel sel.plural path else ∅ := by
  ext form
  have hlink := @produces_one sel (s :: path) form
  simp only [hkind, hkey, Option.some.injEq, exists_eq_left'] at hlink
  rw [asked, Set.mem_ofPred_eq, hlink]
  have hnil := not_asked_nil sel
  cases hplural : sel.plural with
  | false =>
    by_cases hs : s = .field key
    · rw [if_pos hs, hs]
      cases path with
      | nil => simp [linkSteps, askedLink, hnil]
      | cons t path => simp [linkSteps, askedLink]
    · simp [linkSteps, hs]
  | true =>
    by_cases hs : s = .field key
    · rw [if_pos hs, hs]
      cases path with
      | nil => simp [linkSteps, askedLink]
      | cons t path =>
        cases t with
        | field k => simp [linkSteps, askedLink]
        | item =>
          cases path with
          | nil => simp [linkSteps, askedLink, hnil]
          | cons t path => simp [linkSteps, askedLink]
    · simp [linkSteps, hs]

theorem formAt_single (key : String) (node : TypeNode) (s : Step) (path : List Step) :
    (TypeNode.object [(key, node)]).formAt (s :: path) =
      if s = .field key then node.formAt path else ⊥ := by
  by_cases hs : s = .field key
  · rw [if_pos hs, hs]
    have hchild : (TypeNode.object [(key, node)]).child (.field key) = some node := if_pos rfl
    exact TypeNode.formAt_of_child hchild path
  · rw [if_neg hs]
    refine TypeNode.formAt_of_no_child ?_ path
    cases s with
    | item => rfl
    | field k => exact if_neg fun h => hs (congrArg Step.field h)

/-! ### The whole walk -/

theorem Consistent.inner {items : List Val} {sel inner : Val} (h : Consistent (.arr items))
    (hsel : sel ∈ items) (hinner : sel.get "selections" = some inner)
    (hkind : (sel.kind = "LinkedField" ∧ ∃ key, sel.responseKey = some key) ∨
      sel.kind = "InlineFragment" ∨ sel.kind = "Condition") : Consistent inner := by
  intro path hobject harray
  obtain ⟨hlinked, key, hkey⟩ | hinline := hkind
  · exact h _ (.within hsel hlinked hkey hinner hobject) (.within hsel hlinked hkey hinner harray)
  · exact h _ (.inside hsel hinline hinner hobject) (.inside hsel hinline hinner harray)

/-- A selection on its own gives what its chains ask for. -/
theorem shows_givenBy {sel : Val} (hc : Consistent (.arr [sel]))
    (h : ∀ inner, sel.get "selections" = some inner → Consistent inner →
      ∀ path ≠ [], Shows ((TypeNode.object (shapeFromSelections inner)).formAt path)
        (asked inner path)) {path : List Step} (hpath : path ≠ []) :
    Shows ((TypeNode.object (givenBy sel)).formAt path) (asked (.arr [sel]) path) := by
  obtain ⟨s, path, rfl⟩ := List.exists_cons_of_ne_nil hpath
  have hone := List.mem_singleton_self sel
  have hnothing : ∀ s path, (TypeNode.object []).formAt (s :: path) = ⊥ := fun s path => by
    cases s <;> exact TypeNode.formAt_of_no_child rfl path
  rw [givenBy]
  split
  · next hkind =>
    rw [formAt_single, asked_scalar hkind]
    split
    · cases path with
      | nil => exact shows_coe .leaf
      | cons t path => cases t <;> exact shows_bot_iff.mpr rfl
    · exact shows_bot_iff.mpr rfl
  · next hscalar =>
    split
    · next hkind =>
      cases hkey : sel.responseKey with
      | none =>
        rw [hnothing, asked_unread hscalar (by simp [hkey]) (by simp [hkind])]
        exact shows_bot_iff.mpr rfl
      | some key =>
        rw [formAt_single, asked_link hkind hkey]
        split
        · exact shows_linkedNode (fun path hpath => shows_below (fun inner hinner =>
            h inner hinner (hc.inner hone hinner (.inl ⟨hkind, key, hkey⟩))) hpath) sel.plural path
        · exact shows_bot_iff.mpr rfl
    · next hlinked =>
      split
      · next hkind =>
        rw [asked_inline hkind]
        exact shows_below (fun inner hinner =>
          h inner hinner (hc.inner hone hinner (.inr hkind))) hpath
      · next hinline =>
        rw [hnothing, asked_unread hscalar (fun h => hlinked h.1) hinline]
        exact shows_bot_iff.mpr rfl

/-- Walking more selections shows what they ask for besides. -/
theorem shows_addSelections {items : List Val}
    (hplain : ∀ sel ∈ items, (TypeNode.object (givenBy sel)).Plain)
    (hshows : ∀ sel ∈ items, ∀ path ≠ [],
      Shows ((TypeNode.object (givenBy sel)).formAt path) (asked (.arr [sel]) path))
    {fields : List (String × TypeNode)} (hfields : (TypeNode.object fields).Plain)
    {before : List Step → Set Form}
    (hbefore : ∀ path ≠ [], Shows ((TypeNode.object fields).formAt path) (before path))
    (hc : ∀ path, Form.object ∈ before path ∪ asked (.arr items) path →
      Form.array ∉ before path ∪ asked (.arr items) path) {path : List Step} (hpath : path ≠ []) :
    Shows ((TypeNode.object (addSelections items fields)).formAt path)
      (before path ∪ asked (.arr items) path) := by
  induction items generalizing fields before with
  | nil =>
    have hnone : asked (.arr []) path = ∅ := Set.eq_empty_of_forall_notMem fun f hf => by
      obtain ⟨sel, hsel, -⟩ := produces_iff_exists.mp hf
      cases hsel
    rw [addSelections, hnone, Set.union_empty]
    exact hbefore path hpath
  | cons sel rest ih =>
    have hsplit : ∀ path, asked (.arr (sel :: rest)) path =
        asked (.arr [sel]) path ∪ asked (.arr rest) path := fun path => by
      ext f
      rw [asked, Set.mem_ofPred_eq, produces_iff_exists, List.exists_mem_cons_iff, Set.mem_union,
        asked, asked, Set.mem_ofPred_eq, Set.mem_ofPred_eq, ← produces_iff_exists]
    rw [List.forall_mem_cons] at hplain hshows
    simp only [hsplit, ← Set.union_assoc] at hc ⊢
    rw [addSelections, addSelection_eq sel hfields]
    refine ih hplain.2 hshows.2 (plain_mergeFields hfields hplain.1) (fun path hpath => ?_) hc
    have hcompatible : Compatible (.object fields) (.object (givenBy sel)) := by
      intro path
      cases path with
      | nil =>
        have hforms : ((Form.object : Form) : WithBot Form) ≠ Form.array := by decide
        exact ⟨fun h => hforms h.2, fun h => hforms h.1⟩
      | cons s path =>
        have hleft := hbefore (s :: path) nofun
        have hright := hshows.1 (s :: path) nofun
        refine ⟨fun ⟨hobject, harray⟩ => ?_, fun ⟨harray, hobject⟩ => ?_⟩
        · exact hc _ (.inl (.inl (hleft.2 _ hobject))) (.inl (.inr (hright.2 _ harray)))
        · exact hc _ (.inl (.inr (hright.2 _ hobject))) (.inl (.inl (hleft.2 _ harray)))
    have hmerge := formAt_mergeShapeNode hfields hplain.1 hcompatible path
    rw [mergeShapeNode.eq_def] at hmerge
    rw [hmerge]
    exact (hbefore path hpath).max (hshows.1 path hpath)

/-- **The tree shows the strongest form that is asked for at each path.** -/
theorem shows_shape {selections : Val} (h : Consistent selections) {path : List Step}
    (hpath : path ≠ []) :
    Shows ((TypeNode.object (shapeFromSelections selections)).formAt path)
      (asked selections path) := by
  induction selections using Val.selectionsInduct generalizing path with
  | arr items ih =>
    have hplain : ∀ sel ∈ items, (TypeNode.object (givenBy sel)).Plain := fun sel _ =>
      plain_givenBy (plain_below fun inner _ => plain_shapeFromSelections inner)
    have hempty : ∀ path ≠ [], Shows ((TypeNode.object []).formAt path) ∅ := fun path hpath => by
      obtain ⟨s, path, rfl⟩ := List.exists_cons_of_ne_nil hpath
      cases s <;> exact shows_bot_iff.mpr rfl
    have hwalk := shows_addSelections hplain (fun sel hsel path hpath => shows_givenBy ?_
      (fun inner hinner hinnerc path hpath => ih sel hsel inner hinner hinnerc hpath) hpath)
      plain_empty hempty (fun path => by rw [Set.empty_union]; exact h path) hpath
    · rw [shapeFromSelections]
      simpa using hwalk
    · intro path hobject harray
      exact h path (produces_iff_exists.mpr ⟨sel, hsel, hobject⟩)
        (produces_iff_exists.mpr ⟨sel, hsel, harray⟩)
  | other v hv =>
    have hnone : asked v path = ∅ := Set.eq_empty_of_forall_notMem fun f hf => by
      cases hf <;> exact hv _ rfl
    rw [shapeFromSelections_other hv, hnone]
    obtain ⟨s, path, rfl⟩ := List.exists_cons_of_ne_nil hpath
    cases s <;> exact shows_bot_iff.mpr rfl

/-! ### The order of the selections -/

/-- Selections that are read alike have the same chains through them. -/
theorem produces_of_alike {sel sel' : Val} (hkind : sel'.kind = sel.kind)
    (hkey : sel'.responseKey = sel.responseKey) (hplural : sel'.plural = sel.plural)
    (hbelow : ∀ path, askedBelow sel' path = askedBelow sel path) (path : List Step)
    (form : Form) : Produces (.arr [sel']) path form ↔ Produces (.arr [sel]) path form := by
  rw [produces_one, produces_one, hkind, Val.scalarKey, Val.scalarKey, hkey, hplural]
  simp only [hbelow]

theorem get_around (before after : List (String × Val)) (v : Val) (key : String) :
    (Val.obj (before ++ ("selections", v) :: after)).get key =
      (before.lookup key).or (if key = "selections" then some v else after.lookup key) := by
  rw [Val.get, List.lookup_append, List.lookup_cons]
  by_cases hkey : key = "selections"
  · rw [if_pos hkey, hkey]
    rfl
  · rw [if_neg hkey, beq_false_of_ne hkey]

theorem asked_reordered {v v' : Val} (h : Reordered v v') (path : List Step) :
    asked v' path = asked v path := by
  induction h generalizing path with
  | perm hperm =>
    ext form
    rw [asked, asked, Set.mem_ofPred_eq, Set.mem_ofPred_eq, produces_iff_exists,
      produces_iff_exists]
    simp only [hperm.mem_iff]
  | @inside above below before after w w' _ ih =>
    have hget : ∀ key, key ≠ "selections" →
        (Val.obj (before ++ ("selections", w') :: after)).get key =
          (Val.obj (before ++ ("selections", w) :: after)).get key := fun key hkey => by
      rw [get_around, get_around, if_neg hkey, if_neg hkey]
    have hbelow : ∀ path, askedBelow (.obj (before ++ ("selections", w') :: after)) path =
        askedBelow (.obj (before ++ ("selections", w) :: after)) path := fun path => by
      ext form
      have hform := Set.ext_iff.mp (ih path) form
      rw [askedBelow, askedBelow, Set.mem_ofPred_eq, Set.mem_ofPred_eq, get_around, get_around]
      cases before.lookup "selections" with
      | some u => rfl
      | none => simpa [asked] using hform
    have hone := produces_of_alike (by rw [Val.kind, Val.kind, hget _ (by decide)])
      (by rw [Val.responseKey, Val.responseKey, hget _ (by decide), hget _ (by decide)])
      (by rw [Val.plural, Val.plural, hget _ (by decide)]) hbelow path
    ext form
    rw [asked, asked, Set.mem_ofPred_eq, Set.mem_ofPred_eq, produces_iff_exists,
      produces_iff_exists]
    simp only [List.mem_append, List.mem_cons, or_and_right, exists_or, exists_eq_left, hone]
  | trans _ _ ih ih' => rw [ih', ih]

/-- **The response tree is the union of the selections.**  When no key is linked with two
pluralities, its paths are those of the chains, a link is never left a scalar, and the selections
may stand in any order. -/
theorem response_shape (selections : Val) (h : Consistent selections) :
    (∀ path ≠ [], ((TypeNode.object (shapeFromSelections selections)).at? path).isSome ↔
      ∃ form, Produces selections path form) ∧
    (∀ path form n, Produces selections path form → form ≠ .leaf →
      (TypeNode.object (shapeFromSelections selections)).at? path = some n →
      n.isLeaf = false) ∧
    (∀ selections', Reordered selections selections' →
      shapeFromSelections selections' = shapeFromSelections selections) := by
  refine ⟨fun path hpath => ?_, fun path form n hform hne hn => ?_, fun selections' hr => ?_⟩
  · have hshows := shows_shape h hpath
    rw [TypeNode.formAt] at hshows
    cases hn : (TypeNode.object (shapeFromSelections selections)).at? path with
    | none =>
      rw [hn] at hshows
      refine iff_of_false nofun fun ⟨form, hform⟩ => ?_
      exact (shows_bot_iff.mp hshows ▸ Set.notMem_empty form) hform
    | some n =>
      rw [hn] at hshows
      exact iff_of_true rfl ⟨n.form, hshows.2 n.form rfl⟩
  · have hle := (shows_shape h hform.ne_nil).1 form hform
    rw [TypeNode.formAt, hn] at hle
    cases n with
    | leaf tag =>
      refine absurd (WithBot.coe_le_coe.mp hle) ?_
      change ¬ form ≤ Form.leaf
      cases form with
      | leaf => exact absurd rfl hne
      | object => decide
      | array => decide
    | object fields => rfl
    | array items => rfl
  · have hconsistent : Consistent selections' := fun path hobject harray => by
      have hasked := asked_reordered hr path
      exact h path (hasked ▸ hobject : Form.object ∈ asked selections path)
        (hasked ▸ harray : Form.array ∈ asked selections path)
    have hforms : ∀ path, (TypeNode.object (shapeFromSelections selections')).formAt path =
        (TypeNode.object (shapeFromSelections selections)).formAt path := by
      intro path
      cases path with
      | nil => rfl
      | cons s path =>
        have hshows := shows_shape hconsistent (List.cons_ne_nil s path)
        rw [asked_reordered hr] at hshows
        exact hshows.unique (shows_shape h (List.cons_ne_nil s path))
    exact TypeNode.object.inj ((plain_shapeFromSelections selections').ext
      (plain_shapeFromSelections selections) hforms)

/-- A list under the key `a`. -/
def listA : Val :=
  .obj [("kind", .str "LinkedField"), ("name", .str "a"), ("plural", .bool true)]

/-- A scalar under the key `a`. -/
def scalarA : Val := .obj [("kind", .str "ScalarField"), ("name", .str "a")]

/-- The list `a` and, in a fragment, the scalar `a`. -/
def listAndScalar : Val :=
  .arr [listA, .obj [("kind", .str "InlineFragment"), ("selections", .arr [scalarA])]]

theorem produces_listAndScalar {path : List Step} {form : Form}
    (h : Produces listAndScalar path form) :
    (path = [.field "a"] ∧ form ≠ .object) ∨ (path = [.field "a", .item] ∧ form ≠ .array) := by
  obtain ⟨sel, hsel, hone⟩ := produces_iff_exists.mp h
  obtain rfl | hsel := List.mem_cons.mp hsel
  · obtain ⟨hkind, -⟩ | ⟨-, key, hkey, hlink⟩ | ⟨hkind, -⟩ := produces_one.mp hone
    · exact absurd hkind (by decide)
    · obtain rfl : "a" = key := Option.some.inj hkey
      obtain ⟨-, rfl, rfl⟩ | ⟨rfl, rfl⟩ | ⟨rest, -, inner, hinner, -⟩ := hlink
      · exact .inl ⟨rfl, nofun⟩
      · exact .inr ⟨rfl, nofun⟩
      · cases hinner
    · exact absurd hkind (by decide)
  · obtain rfl := List.mem_singleton.mp hsel
    obtain ⟨hkind, -⟩ | ⟨hkind, -⟩ | ⟨-, inner, hinner, hchain⟩ := produces_one.mp hone
    · exact absurd hkind (by decide)
    · exact absurd hkind (by decide)
    · obtain rfl : Val.arr [scalarA] = inner := Option.some.inj hinner
      obtain ⟨-, rfl, rfl⟩ | ⟨hkind, -⟩ | ⟨hkind, -⟩ := produces_one.mp hchain
      · exact .inl ⟨rfl, nofun⟩
      · exact absurd hkind (by decide)
      · exact absurd hkind (by decide)

theorem consistent_listAndScalar : Consistent listAndScalar := by
  intro path hobject harray
  obtain ⟨-, hne⟩ | ⟨hitem, -⟩ := produces_listAndScalar hobject
  · exact hne rfl
  · obtain ⟨hfield, -⟩ | ⟨-, hne⟩ := produces_listAndScalar harray
    · rw [hitem] at hfield
      cases hfield
    · exact hne rfl

/-- The list stays, and its element is an object. -/
theorem element_listAndScalar :
    ((TypeNode.object (shapeFromSelections listAndScalar)).at? [.field "a", .item]).isSome :=
  ((response_shape listAndScalar consistent_listAndScalar).1 [.field "a", .item] nofun).mpr
    ⟨.object, @Produces.link _ listA "a" List.mem_cons_self rfl rfl⟩

end Whatspec.Mex

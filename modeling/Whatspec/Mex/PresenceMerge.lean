import Whatspec.Library.Reports
import Whatspec.Mex.PresenceTree

/-!
# What a merge answers along a path

`report` asks a tree for the verdict at a path: the verdict, or how far along the path the
tree goes.  Merging two trees combines their reports (`report_mergeNodes`), where a tree
that stops short of a key adds the `gapOf` the step it stopped at: an absent key is
`conditional`, a key under a list whose element it does not describe is `undetermined`.
-/

namespace Whatspec.Mex

open Whatspec.Library VariablePresenceNode

/-- The fields of every object are an ordered map. -/
inductive Canonical : VariablePresenceNode → Prop
  | mk {p : VariablePresence} {fs : List (String × VariablePresenceNode)}
      {is : Option VariablePresenceNode} (sorted : SortedMap.Sorted fs)
      (fields : ∀ e ∈ fs, Canonical e.2) (items : ∀ n, is = some n → Canonical n) :
      Canonical (.mk p fs is)

/-- Whether a path names a key, rather than an element or the tree itself. -/
def endsInField (path : List Step) : Bool :=
  match path.getLast? with
  | some (.field _) => true
  | _ => false

/-- A report seen from one step further up. -/
def deeper : Report VariablePresence → Report VariablePresence
  | .hold v => .hold v
  | .miss n => .miss (n + 1)

/-- The verdict of a tree at a path, or how far along it the tree goes. -/
def report (n : VariablePresenceNode) : List Step → Report VariablePresence
  | [] => .hold n.presence
  | s :: path =>
      match n.child s with
      | none => .miss 0
      | some c => deeper (report c path)

/-- What a tree that stops after some steps of a path says about its end. -/
def gapOf : List Step → ℕ → VariablePresence
  | [], _ => .always
  | .field _ :: path, 0 => if path = [] then .conditional else .always
  | .item :: path, 0 => if endsInField path then .undetermined else .always
  | _ :: path, n + 1 => gapOf path n

/-! ### Withdrawal -/

theorem withdrawFields_eq (fs : List (String × VariablePresenceNode)) :
    withdrawFields fs = fs.map fun e => (e.1, withdraw e.2) := by
  induction fs with
  | nil => rfl
  | cons e rest ih =>
      obtain ⟨k, n⟩ := e
      rw [withdrawFields, ih]
      rfl

theorem withdrawItems_eq (is : Option VariablePresenceNode) :
    withdrawItems is = is.map withdrawChildren := by
  cases is with
  | none => rfl
  | some n => rfl

theorem withdrawChildren_presence (n : VariablePresenceNode) :
    (withdrawChildren n).presence = n.presence := by
  cases n
  rfl

theorem withdraw_presence (n : VariablePresenceNode) :
    (withdraw n).presence = .undetermined := by
  cases n with
  | mk p fs is =>
      show max p .undetermined = .undetermined
      exact max_eq_right le_top

theorem withdrawChildren_child_field (n : VariablePresenceNode) (key : String) :
    (withdrawChildren n).child (.field key) = (n.child (.field key)).map withdraw := by
  cases n with
  | mk p fs is =>
      show SortedMap.get (withdrawFields fs) key = (SortedMap.get fs key).map withdraw
      rw [withdrawFields_eq]
      exact SortedMap.get_map (fun _ m => withdraw m) fs key

theorem withdrawChildren_child_item (n : VariablePresenceNode) :
    (withdrawChildren n).child .item = (n.child .item).map withdrawChildren := by
  cases n with
  | mk p fs is => exact withdrawItems_eq is

theorem withdraw_child (n : VariablePresenceNode) (s : Step) :
    (withdraw n).child s = (withdrawChildren n).child s := by
  cases n with
  | mk p fs is => cases s <;> rfl

theorem endsInField_cons {s : Step} {path : List Step} (h : path ≠ []) :
    endsInField (s :: path) = endsInField path := by
  rw [endsInField, endsInField, List.getLast?_cons]
  cases hlast : path.getLast? with
  | none => exact absurd (List.getLast?_eq_none_iff.mp hlast) h
  | some t => rfl

/-- A value under a withdrawal: a key is undetermined, an element keeps its verdict. -/
def withdrawn (path : List Step) : Report VariablePresence → Report VariablePresence
  | .hold v => .hold (max v (if endsInField path then .undetermined else .always))
  | .miss n => .miss n

theorem deeper_withdrawn {s : Step} {path : List Step} (h : path ≠ [])
    (r : Report VariablePresence) :
    deeper (withdrawn path r) = withdrawn (s :: path) (deeper r) := by
  cases r with
  | hold v => rw [deeper, withdrawn, withdrawn, deeper, endsInField_cons h]
  | miss n => rfl

theorem report_withdraw_of_ne_nil (n : VariablePresenceNode) {path : List Step}
    (h : path ≠ []) : report (withdraw n) path = report (withdrawChildren n) path := by
  cases path with
  | nil => exact absurd rfl h
  | cons s path => rw [report, report, withdraw_child]

/-- **A withdrawal**, seen along a path. -/
theorem report_withdrawChildren (n : VariablePresenceNode) (path : List Step) :
    report (withdrawChildren n) path = withdrawn path (report n path) := by
  induction path generalizing n with
  | nil =>
      rw [report, report, withdrawChildren_presence]
      exact congrArg Report.hold (max_eq_left bot_le).symm
  | cons s path ih =>
      rw [report, report]
      cases s with
      | item =>
          rw [withdrawChildren_child_item]
          cases hc : n.child .item with
          | none => rfl
          | some c =>
              show deeper (report (withdrawChildren c) path) = _
              rw [ih c]
              by_cases hp : path = []
              · subst hp; rfl
              · exact deeper_withdrawn hp (report c path)
      | field key =>
          rw [withdrawChildren_child_field]
          cases hc : n.child (.field key) with
          | none => rfl
          | some c =>
              show deeper (report (withdraw c) path) = _
              by_cases hp : path = []
              · subst hp
                show Report.hold (withdraw c).presence = _
                rw [withdraw_presence]
                exact congrArg Report.hold (max_eq_right le_top).symm
              · rw [report_withdraw_of_ne_nil c hp, ih c]
                exact deeper_withdrawn hp (report c path)

/-! ### Merging -/

theorem get_weakenMissing (fs other : List (String × VariablePresenceNode)) (k : String) :
    SortedMap.get (weakenMissing fs other) k = (SortedMap.get fs k).map fun n =>
      if (SortedMap.get other k).isSome then n else n.weakenTo .conditional :=
  SortedMap.get_map (fun key (n : VariablePresenceNode) =>
    if (SortedMap.get other key).isSome then n else n.weakenTo .conditional) fs k

/-- What two sides of a merge leave at one step: both are merged, and the node only one
side has keeps its keys, weakened or withdrawn as the step says. -/
def mergeAt (s : Step) (a b : Option VariablePresenceNode) : Option VariablePresenceNode :=
  match a, b with
  | some x, some y => some (mergeNodes x y)
  | some x, none | none, some x =>
      match s with
      | .field _ => some (x.weakenTo .conditional)
      | .item => some (withdrawChildren x)
  | none, none => none

theorem get_mergeInto {fs gs : List (String × VariablePresenceNode)}
    (hgs : SortedMap.Sorted gs) (k : String) :
    SortedMap.get (mergeInto fs gs) k =
      match SortedMap.get fs k, SortedMap.get gs k with
      | some x, some y => some (mergeNodes x y)
      | none, some y => some y
      | x, none => x := by
  induction gs generalizing fs with
  | nil =>
      rw [mergeInto, SortedMap.get_nil]
      cases SortedMap.get fs k <;> rfl
  | cons e gs ih =>
      obtain ⟨j, y⟩ := e
      obtain ⟨hhead, htail⟩ := List.pairwise_cons.mp hgs
      rw [mergeInto, SortedMap.get_cons]
      cases hj : SortedMap.get fs j with
      | some x =>
          simp only
          rw [ih htail, SortedMap.get_insert]
          by_cases hk : k = j
          · subst hk
            rw [if_pos rfl, if_pos rfl, SortedMap.get_eq_none_of_lt hhead, hj]
          · rw [if_neg hk, if_neg hk]
      | none =>
          simp only
          rw [ih htail, SortedMap.get_insert]
          by_cases hk : k = j
          · subst hk
            rw [if_pos rfl, if_pos rfl, SortedMap.get_eq_none_of_lt hhead, hj]
          · rw [if_neg hk, if_neg hk]

theorem mergeNodes_presence (a b : VariablePresenceNode) :
    (mergeNodes a b).presence = max a.presence b.presence := by
  cases b
  rfl

/-- **One step into a merge.** -/
theorem mergeNodes_child (a : VariablePresenceNode) {b : VariablePresenceNode}
    (hb : SortedMap.Sorted b.fields) (s : Step) :
    (mergeNodes a b).child s = mergeAt s (a.child s) (b.child s) := by
  obtain ⟨q, gs, js⟩ := b
  cases s with
  | item =>
      show mergeItems a.items js = mergeAt .item a.items js
      cases a.items <;> cases js <;> rfl
  | field key =>
      have hgs : SortedMap.Sorted gs := hb
      show SortedMap.get (weakenMissing (weakenMissing (mergeInto a.fields gs) gs) a.fields) key =
        mergeAt (.field key) (SortedMap.get a.fields key) (SortedMap.get gs key)
      rw [get_weakenMissing, get_weakenMissing, get_mergeInto hgs]
      cases SortedMap.get a.fields key <;> cases SortedMap.get gs key <;> rfl

/-- The one side of a merge that has a node, seen along a path through it. -/
theorem report_one_side (s : Step) (x : VariablePresenceNode) (path : List Step) :
    (match s with
      | .field _ => deeper (report (x.weakenTo .conditional) path)
      | .item => deeper (report (withdrawChildren x) path)) =
      Report.combine (gapOf (s :: path)) (deeper (report x path)) (.miss 0) := by
  cases s with
  | item =>
      show deeper (report (withdrawChildren x) path) = _
      rw [report_withdrawChildren]
      cases report x path with
      | hold v => rfl
      | miss n => rfl
  | field key =>
      cases path with
      | nil =>
          obtain ⟨p, fs, is⟩ := x
          rfl
      | cons t path =>
          have hchild : (x.weakenTo .conditional).child t = x.child t := by
            obtain ⟨p, fs, is⟩ := x
            cases t <;> rfl
          show deeper (report (x.weakenTo .conditional) (t :: path)) = _
          rw [report, hchild]
          show deeper (report x (t :: path)) = _
          cases report x (t :: path) with
          | hold v => exact congrArg Report.hold (max_eq_left bot_le).symm
          | miss n => rfl

theorem deeper_combine (s : Step) (path : List Step) (r₁ r₂ : Report VariablePresence) :
    deeper (Report.combine (gapOf path) r₁ r₂) =
      Report.combine (gapOf (s :: path)) (deeper r₁) (deeper r₂) := by
  have hgap : ∀ n, gapOf (s :: path) (n + 1) = gapOf path n := by
    intro n
    cases s <;> rfl
  cases r₁ with
  | hold v =>
      cases r₂ with
      | hold w => rfl
      | miss n => exact congrArg (fun g => Report.hold (max v g)) (hgap n).symm
  | miss m =>
      cases r₂ with
      | hold w => exact congrArg (fun g => Report.hold (max w g)) (hgap m).symm
      | miss n =>
          show Report.miss (max m n + 1) = Report.miss (max (m + 1) (n + 1))
          rw [Nat.succ_max_succ]

theorem canonical_child {n c : VariablePresenceNode} {s : Step} (h : Canonical n)
    (hc : n.child s = some c) : Canonical c := by
  obtain ⟨_, hfields, hitems⟩ := h
  cases s with
  | field key => exact hfields _ (SortedMap.mem_of_get hc)
  | item => exact hitems c hc

theorem canonical_sorted {n : VariablePresenceNode} (h : Canonical n) :
    SortedMap.Sorted n.fields := by
  obtain ⟨hsorted, _, _⟩ := h
  exact hsorted

/-- **A merge combines reports.** -/
theorem report_mergeNodes {a b : VariablePresenceNode} (hb : Canonical b) (path : List Step) :
    report (mergeNodes a b) path =
      Report.combine (gapOf path) (report a path) (report b path) := by
  induction path generalizing a b with
  | nil => exact congrArg Report.hold (mergeNodes_presence a b)
  | cons s path ih =>
      rw [report, report, report, mergeNodes_child a (canonical_sorted hb)]
      cases ha' : a.child s with
      | some x =>
          cases hb' : b.child s with
          | some y =>
              show deeper (report (mergeNodes x y) path) = _
              rw [ih (canonical_child hb hb')]
              exact deeper_combine s path _ _
          | none =>
              rw [← report_one_side s x path]
              cases s <;> rfl
      | none =>
          cases hb' : b.child s with
          | some y =>
              rw [Report.combine_comm, ← report_one_side s y path]
              cases s <;> rfl
          | none => rfl

/-! ### Canonical trees -/

theorem deeper_injective : Function.Injective deeper := by
  intro r s h
  cases r <;> cases s <;> cases h <;> rfl

theorem report_child {n c : VariablePresenceNode} {s : Step} (h : n.child s = some c)
    (path : List Step) : report n (s :: path) = deeper (report c path) := by
  rw [report, h]

theorem report_no_child {n : VariablePresenceNode} {s : Step} (h : n.child s = none)
    (path : List Step) : report n (s :: path) = .miss 0 := by
  rw [report, h]

/-- Trees with the same reports have the same children, up to their reports. -/
theorem child_of_reports {a b : VariablePresenceNode}
    (h : ∀ path, report a path = report b path) (s : Step) :
    (a.child s = none ∧ b.child s = none) ∨
      ∃ x y, a.child s = some x ∧ b.child s = some y ∧
        ∀ path, report x path = report y path := by
  have hroot := h [s]
  cases ha : a.child s with
  | none =>
      cases hb : b.child s with
      | none => exact Or.inl ⟨rfl, rfl⟩
      | some y =>
          rw [report_no_child ha, report_child hb] at hroot
          cases hroot
  | some x =>
      cases hb : b.child s with
      | none =>
          rw [report_child ha, report_no_child hb] at hroot
          cases hroot
      | some y =>
          refine Or.inr ⟨x, y, rfl, rfl, fun path => ?_⟩
          have hpath := h (s :: path)
          rw [report_child ha, report_child hb] at hpath
          exact deeper_injective hpath

/-- **A canonical tree is its reports.** -/
theorem Canonical.ext {a b : VariablePresenceNode} (ha : Canonical a) (hb : Canonical b)
    (h : ∀ path, report a path = report b path) : a = b := by
  induction ha generalizing b with
  | @mk p fs is hsorted hfields hitems ihfields ihitems =>
      obtain ⟨hsorted', hfields', hitems'⟩ := hb
      rename_i q gs js
      have hpresence : p = q := by injection h []
      have hget : ∀ k, SortedMap.get fs k = SortedMap.get gs k := by
        intro k
        rcases child_of_reports h (.field k) with ⟨hnone, hnone'⟩ | ⟨x, y, hx, hy, hxy⟩
        · exact hnone.trans hnone'.symm
        · have hmem := SortedMap.mem_of_get (m := fs) hx
          have hmem' := SortedMap.mem_of_get (m := gs) hy
          have heq : x = y := ihfields _ hmem (hfields' _ hmem') hxy
          exact hx.trans (heq ▸ hy.symm)
      have hitem : is = js := by
        rcases child_of_reports h .item with ⟨hnone, hnone'⟩ | ⟨x, y, hx, hy, hxy⟩
        · exact Eq.trans hnone hnone'.symm
        · have heq : x = y := ihitems x hx (hitems' y hy) hxy
          exact Eq.trans hx (heq ▸ hy.symm)
      rw [hpresence, SortedMap.ext_of_sorted hsorted hsorted' hget, hitem]

theorem canonical_weakenTo {n : VariablePresenceNode} (h : Canonical n)
    (p : VariablePresence) : Canonical (n.weakenTo p) := by
  obtain ⟨hsorted, hfields, hitems⟩ := h
  exact ⟨hsorted, hfields, hitems⟩

/-- Withdrawal keeps a tree canonical. -/
theorem canonical_withdraw {n : VariablePresenceNode} (h : Canonical n) :
    Canonical (withdraw n) ∧ Canonical (withdrawChildren n) := by
  induction h with
  | @mk p fs is hsorted _ _ ihfields ihitems =>
      have hsorted' : SortedMap.Sorted (withdrawFields fs) := by
        rw [withdrawFields_eq]
        exact SortedMap.sorted_map (fun _ n => withdraw n) hsorted
      have hfields : ∀ e ∈ withdrawFields fs, Canonical e.2 := by
        intro e he
        rw [withdrawFields_eq] at he
        obtain ⟨f, hf, rfl⟩ := List.mem_map.mp he
        exact (ihfields f hf).1
      have hitems : ∀ n, withdrawItems is = some n → Canonical n := by
        intro n hn
        rw [withdrawItems_eq] at hn
        obtain ⟨m, hm, rfl⟩ := Option.map_eq_some_iff.mp hn
        exact (ihitems m hm).2
      exact ⟨⟨hsorted', hfields, hitems⟩, ⟨hsorted', hfields, hitems⟩⟩

theorem sorted_mergeInto {fs gs : List (String × VariablePresenceNode)}
    (hfs : SortedMap.Sorted fs) : SortedMap.Sorted (mergeInto fs gs) := by
  induction gs generalizing fs with
  | nil => exact hfs
  | cons e gs ih =>
      obtain ⟨j, y⟩ := e
      rw [mergeInto]
      split
      · exact ih (SortedMap.sorted_insert j _ hfs)
      · exact ih (SortedMap.sorted_insert j _ hfs)

theorem sorted_weakenMissing {fs other : List (String × VariablePresenceNode)}
    (hfs : SortedMap.Sorted fs) : SortedMap.Sorted (weakenMissing fs other) :=
  SortedMap.sorted_map (fun key (n : VariablePresenceNode) =>
    if (SortedMap.get other key).isSome then n else n.weakenTo .conditional) hfs

/-- **A merge keeps trees canonical.** -/
theorem canonical_mergeNodes {a b : VariablePresenceNode} (ha : Canonical a)
    (hb : Canonical b) : Canonical (mergeNodes a b) := by
  induction hb generalizing a with
  | @mk q gs js hsorted hfields hitems ihfields ihitems =>
      have hb : Canonical (.mk q gs js) := ⟨hsorted, hfields, hitems⟩
      have hchild : ∀ (s : Step) (c : VariablePresenceNode),
          (mergeNodes a (.mk q gs js)).child s = some c → Canonical c := by
        intro s c hc
        rw [mergeNodes_child a (canonical_sorted hb)] at hc
        cases hx : a.child s with
        | some x =>
            have hxc : Canonical x := canonical_child ha hx
            cases hy : (VariablePresenceNode.mk q gs js).child s with
            | some y =>
                rw [hx, hy] at hc
                cases hc
                cases s with
                | field key => exact ihfields _ (SortedMap.mem_of_get hy) hxc
                | item => exact ihitems y hy hxc
            | none =>
                rw [hx, hy] at hc
                cases s with
                | field key => cases hc; exact canonical_weakenTo hxc _
                | item => cases hc; exact (canonical_withdraw hxc).2
        | none =>
            cases hy : (VariablePresenceNode.mk q gs js).child s with
            | some y =>
                have hyc : Canonical y := canonical_child hb hy
                rw [hx, hy] at hc
                cases s with
                | field key => cases hc; exact canonical_weakenTo hyc _
                | item => cases hc; exact (canonical_withdraw hyc).2
            | none =>
                rw [hx, hy] at hc
                cases hc
      have hsorted' : SortedMap.Sorted (mergeNodes a (.mk q gs js)).fields :=
        sorted_weakenMissing (sorted_weakenMissing (sorted_mergeInto (canonical_sorted ha)))
      refine ⟨hsorted', fun e he => ?_, fun n hn => hchild .item n hn⟩
      exact hchild (.field e.1) e.2 (SortedMap.get_of_mem hsorted' he)

end Whatspec.Mex

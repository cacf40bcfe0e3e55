import Whatspec.Mex.MergeOrder

/-!
# From the call sites of an operation to its published verdicts

Each recovered call site gives a tree, and records of the objects in it whose keys are not
fully known.  `variablesPresence` folds the trees, withdraws what the records cover, and
answers for the declared names.  An operation with no readable declaration publishes the
keys its sites wrote.
-/

namespace Whatspec.Mex

open Whatspec.Library VariablePresenceNode

/-- An object whose keys are not fully known, by the path that reaches it, with the keys
the site did write there. -/
structure Opaque where
  path : List Step
  written : List String
  deriving DecidableEq

/-- What one recovered call site contributes. -/
structure CallSite where
  tree : SiteTree
  opaquePaths : List Opaque

/-- Withdraw the keys of an object that a site did not write, and what is under its list
element. -/
def withdrawUnwritten (written : List String) : VariablePresenceNode → VariablePresenceNode
  | mk p fs is =>
      mk p (fs.map fun e => (e.1, if written.contains e.1 then e.2 else withdraw e.2))
        (is.map withdrawChildren)

/-- The same for the object at the end of a path, when the path leads somewhere. -/
def withdrawAlong (written : List String) :
    List Step → VariablePresenceNode → VariablePresenceNode
  | [], n => withdrawUnwritten written n
  | .field key :: path, mk p fs is =>
      mk p (SortedMap.modify (withdrawAlong written path) key fs) is
  | .item :: path, mk p fs is => mk p fs (is.map (withdrawAlong written path))

/-- One record, applied to the merged tree.  The empty path is the variables object itself,
whose unwritten keys are answered for when they are published. -/
def withdrawRecord (merged : List (String × VariablePresenceNode)) (record : Opaque) :
    List (String × VariablePresenceNode) :=
  match record.path with
  | .field key :: path => SortedMap.modify (withdrawAlong record.written path) key merged
  | _ => merged

/-- The answers for the declared names, taken out of the merged tree one by one. -/
def answerNames (unreadableSites : ℕ) (absent : String → VariablePresence) :
    List String → List (String × VariablePresenceNode) → List (String × VariablePresenceNode) →
      List (String × VariablePresenceNode)
  | [], _, out => out
  | name :: names, merged, out =>
      let node := (SortedMap.get merged name).getD (leaf (absent name))
      let node := if 0 < unreadableSites then withdraw node else node
      answerNames unreadableSites absent names (SortedMap.remove name merged)
        (SortedMap.insert name node out)

/-- Presence for every declared variable of one operation. -/
def variablesPresence (sites : List CallSite) (unreadableSites : ℕ)
    (argDefNames : List String) : List (String × VariablePresenceNode) :=
  let opaquePaths := sites.flatMap (·.opaquePaths)
  match argDefNames, foldSites (sites.map (·.tree)) with
  | [], none => []
  | [], some merged =>
      if 0 < unreadableSites then withdrawFields merged.fields else merged.fields
  | names, none => SortedMap.collect (names.map fun n => (n, leaf .undetermined))
  | names, some merged =>
      let withdrawn := opaquePaths.foldl withdrawRecord merged.fields
      let opaqueTop := opaquePaths.filter fun record => record.path = []
      let absent := fun name =>
        if !opaqueTop.isEmpty && !opaqueTop.any (fun record => record.written.contains name)
        then .undetermined else .conditional
      answerNames unreadableSites absent names withdrawn []

/-! ### Withdrawing weakens -/

/-- One report is another at a weaker verdict. -/
def ReportLE : Report VariablePresence → Report VariablePresence → Prop
  | .hold v, .hold w => v ≤ w
  | .miss m, .miss n => m = n
  | _, _ => False

/-- One tree is another with some verdicts weakened: the same shape, no verdict stronger. -/
def WeakerThan (n n' : VariablePresenceNode) : Prop :=
  ∀ path, ReportLE (report n path) (report n' path)

theorem ReportLE.refl (r : Report VariablePresence) : ReportLE r r := by
  cases r with
  | hold v => exact le_rfl
  | miss n => rfl

theorem ReportLE.trans {r s t : Report VariablePresence} (h : ReportLE r s)
    (h' : ReportLE s t) : ReportLE r t := by
  cases r with
  | hold v =>
      cases s with
      | miss n => exact False.elim h
      | hold w =>
          cases t with
          | miss n => exact False.elim h'
          | hold x => exact le_trans h h'
  | miss m =>
      cases s with
      | hold w => exact False.elim h
      | miss n =>
          cases t with
          | hold x => exact False.elim h'
          | miss k => exact Eq.trans h h'

theorem WeakerThan.refl (n : VariablePresenceNode) : WeakerThan n n :=
  fun _ => ReportLE.refl _

theorem WeakerThan.trans {a b c : VariablePresenceNode} (h : WeakerThan a b)
    (h' : WeakerThan b c) : WeakerThan a c :=
  fun path => (h path).trans (h' path)

/-- Weakening is checked at the node and one step down. -/
theorem weakerThan_of_children {n n' : VariablePresenceNode}
    (hpresence : n.presence ≤ n'.presence)
    (hchildren : ∀ s, (n.child s = none ∧ n'.child s = none) ∨
      ∃ c c', n.child s = some c ∧ n'.child s = some c' ∧ WeakerThan c c') :
    WeakerThan n n' := by
  intro path
  cases path with
  | nil => exact hpresence
  | cons s path =>
      rcases hchildren s with ⟨hc, hc'⟩ | ⟨c, c', hc, hc', hle⟩
      · rw [report_no_child hc, report_no_child hc']
        rfl
      · rw [report_child hc, report_child hc']
        have hpath := hle path
        cases hr : report c path with
        | hold v =>
            cases hr' : report c' path with
            | hold w => rw [hr, hr'] at hpath; exact hpath
            | miss m => rw [hr, hr'] at hpath; exact False.elim hpath
        | miss m =>
            cases hr' : report c' path with
            | hold w => rw [hr, hr'] at hpath; exact False.elim hpath
            | miss k => rw [hr, hr'] at hpath; exact congrArg (· + 1) hpath

theorem weakerThan_withdrawChildren (n : VariablePresenceNode) :
    WeakerThan n (withdrawChildren n) := by
  intro path
  rw [report_withdrawChildren]
  cases report n path with
  | hold v => exact le_max_left v _
  | miss m => rfl

theorem weakerThan_withdraw (n : VariablePresenceNode) : WeakerThan n (withdraw n) := by
  intro path
  cases path with
  | nil =>
      show n.presence ≤ (withdraw n).presence
      rw [withdraw_presence]
      exact le_top
  | cons s path =>
      rw [report_withdraw_of_ne_nil n (List.cons_ne_nil s path)]
      exact weakerThan_withdrawChildren n _

/-- A child changed by something that weakens it. -/
theorem map_weakerThan {c : Option VariablePresenceNode}
    {f : VariablePresenceNode → VariablePresenceNode} (hf : ∀ n, WeakerThan n (f n)) :
    (c = none ∧ c.map f = none) ∨ ∃ m m', c = some m ∧ c.map f = some m' ∧ WeakerThan m m' := by
  cases c with
  | none => exact Or.inl ⟨rfl, rfl⟩
  | some m => exact Or.inr ⟨m, f m, rfl, rfl, hf m⟩

theorem withdrawUnwritten_child_field (written : List String) (n : VariablePresenceNode)
    (key : String) :
    (withdrawUnwritten written n).child (.field key) =
      (n.child (.field key)).map fun c => if written.contains key then c else withdraw c := by
  obtain ⟨p, fs, is⟩ := n
  exact SortedMap.get_map (fun k (c : VariablePresenceNode) =>
    if written.contains k then c else withdraw c) fs key

theorem weakerThan_withdrawUnwritten (written : List String) (n : VariablePresenceNode) :
    WeakerThan n (withdrawUnwritten written n) := by
  have hpresence : n.presence = (withdrawUnwritten written n).presence := by
    cases n
    rfl
  refine weakerThan_of_children hpresence.le fun s => ?_
  cases s with
  | field key =>
      rw [withdrawUnwritten_child_field]
      refine map_weakerThan fun c => ?_
      by_cases hkey : written.contains key
      · rw [if_pos hkey]; exact WeakerThan.refl c
      · rw [if_neg hkey]; exact weakerThan_withdraw c
  | item =>
      have hitem : (withdrawUnwritten written n).child .item =
          (n.child .item).map withdrawChildren := by
        cases n
        rfl
      rw [hitem]
      exact map_weakerThan weakerThan_withdrawChildren

theorem withdrawAlong_presence (written : List String) (path : List Step)
    (n : VariablePresenceNode) : (withdrawAlong written path n).presence = n.presence := by
  obtain ⟨p, fs, is⟩ := n
  cases path with
  | nil => rfl
  | cons s path => cases s <;> rfl

/-- The child that a record's path goes through is withdrawn along the rest of it. -/
theorem withdrawAlong_child (written : List String) (s : Step) (path : List Step)
    (n : VariablePresenceNode) (s' : Step) :
    (withdrawAlong written (s :: path) n).child s' =
      if s' = s then (n.child s').map (withdrawAlong written path) else n.child s' := by
  obtain ⟨p, fs, is⟩ := n
  cases s with
  | field key =>
      cases s' with
      | field key' =>
          refine (SortedMap.get_modify (withdrawAlong written path) key key' fs).trans ?_
          by_cases hkey : key' = key
          · rw [if_pos hkey, if_pos (congrArg Step.field hkey)]
            rfl
          · rw [if_neg hkey, if_neg fun h => hkey (Step.field.inj h)]
            rfl
      | item => rfl
  | item =>
      cases s' with
      | field key' => rfl
      | item => rfl

/-- **A record only weakens.** -/
theorem weakerThan_withdrawAlong (written : List String) (path : List Step)
    (n : VariablePresenceNode) : WeakerThan n (withdrawAlong written path n) := by
  induction path generalizing n with
  | nil =>
      cases n
      exact weakerThan_withdrawUnwritten written _
  | cons s path ih =>
      refine weakerThan_of_children (withdrawAlong_presence written _ n).symm.le fun s' => ?_
      rw [withdrawAlong_child]
      by_cases hs : s' = s
      · rw [if_pos hs]
        exact map_weakerThan ih
      · rw [if_neg hs]
        cases hc : n.child s' with
        | none => exact Or.inl ⟨rfl, rfl⟩
        | some c => exact Or.inr ⟨c, c, rfl, rfl, WeakerThan.refl c⟩

/-- **A record withdraws the keys its site did not write.** -/
theorem report_withdrawAlong {written : List String} {path : List Step}
    {n : VariablePresenceNode} {key : String} (hkey : key ∉ written) {v : VariablePresence}
    (h : report (withdrawAlong written path n) (path ++ [.field key]) = .hold v) :
    v = .undetermined := by
  induction path generalizing n with
  | nil =>
      obtain ⟨p, fs, is⟩ := n
      rw [List.nil_append, report, withdrawAlong, withdrawUnwritten_child_field] at h
      cases hc : (VariablePresenceNode.mk p fs is).child (.field key) with
      | none => rw [hc] at h; cases h
      | some c =>
          have hnot : ¬ written.contains key = true := by simpa using hkey
          rw [hc, Option.map_some, if_neg hnot] at h
          have hpresence : (withdraw c).presence = v := by injection h
          rw [← hpresence, withdraw_presence]
  | cons s path ih =>
      rw [List.cons_append, report, withdrawAlong_child, if_pos rfl] at h
      cases hc : n.child s with
      | none => rw [hc] at h; cases h
      | some c =>
          rw [hc, Option.map_some] at h
          exact ih (deeper_injective h)

end Whatspec.Mex

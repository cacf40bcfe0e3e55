import Whatspec.Scan.MixinFolds

/-!
# What the union of mixins reports

* `Tally` is what a value stated by several fragments says of all of them, and
  `resolving_tallies` that the union has gone through every fragment reached;
* `Agreed` and `Addressed` are the values the fragments reached agree on, and `resolving_reports`
  that these are what is reported;
* the main result puts them together with the frames, and with the order of the callees.
-/

namespace Whatspec.Scan

open Whatspec.Library Whatspec.Library.LabelFlow

/-! ### Tallies -/

/-- A value stated, and its conflict, are those of everything stated so far. -/
structure Tally {α : Type} (s : Stated α) (stated : α → Prop) (unspeakable : Prop) : Prop where
  value : ∀ x, s.value = some x → stated x
  kept : ∀ x, stated x → s.value ≠ none
  conflict : s.conflict = true ↔ unspeakable ∨ ∃ x y, stated x ∧ stated y ∧ x ≠ y

section Tallies

variable {α : Type} [DecidableEq α] {s : Stated α} {stated stated' : α → Prop}
  {unspeakable unspeakable' : Prop}

omit [DecidableEq α] in
theorem Tally.congr (h : Tally s stated unspeakable) (hstated : ∀ x, stated x ↔ stated' x)
    (hun : unspeakable ↔ unspeakable') : Tally s stated' unspeakable' := by
  obtain rfl : stated = stated' := funext fun x => propext (hstated x)
  obtain rfl : unspeakable = unspeakable' := propext hun
  exact h

theorem Tally.note (h : Tally s stated unspeakable) (o : Option α) :
    Tally (s.note o) (fun x => stated x ∨ o = some x) unspeakable := by
  cases o with
  | none => exact h.congr (fun x => (or_iff_left nofun).symm) Iff.rfl
  | some x =>
    cases hvalue : s.value with
    | none =>
      have hnothing : ∀ y, ¬stated y := fun y hy => h.kept y hy hvalue
      rw [Stated.note, hvalue]
      refine ⟨fun y hy => .inr hy, fun _ _ => nofun, h.conflict.trans (or_congr_right ?_)⟩
      constructor
      · rintro ⟨y, _, hy, _⟩
        exact absurd hy (hnothing y)
      · rintro ⟨y, z, hy | hy, hz | hz, hne⟩
        · exact absurd hy (hnothing y)
        · exact absurd hy (hnothing y)
        · exact absurd hz (hnothing z)
        · exact absurd (Option.some.inj (hy.symm.trans hz)) hne
    | some prev =>
      have hprev := h.value prev hvalue
      rw [Stated.note, hvalue]
      refine ⟨fun y hy => .inl (Option.some.inj hy ▸ hprev), fun _ _ => nofun, ?_⟩
      rw [Bool.or_eq_true, h.conflict, decide_eq_true_eq, or_assoc]
      refine or_congr_right ⟨?_, ?_⟩
      · rintro (⟨y, z, hy, hz, hne⟩ | hne)
        · exact ⟨y, z, .inl hy, .inl hz, hne⟩
        · exact ⟨prev, x, .inl hprev, .inr rfl, hne⟩
      · rintro ⟨y, z, hy, hz, hne⟩
        by_cases hx : prev = x
        · subst hx
          refine .inl ⟨y, z, hy.elim id fun hy => ?_, hz.elim id fun hz => ?_, hne⟩
          · exact Option.some.inj hy ▸ hprev
          · exact Option.some.inj hz ▸ hprev
        · exact .inr hx

theorem Tally.notePath {s : Stated WapArgPath} {stated : WapArgPath → Prop}
    (h : Tally s stated unspeakable) (acc : MergeArg) (o : Option WapArgPath) :
    Tally (notePath s acc o) (fun p => stated p ∨ o.bind acc.rebase = some p)
      (unspeakable ∨ ∃ p, o = some p ∧ acc.rebase p = none) := by
  cases o with
  | none =>
    exact h.congr (fun p => (or_iff_left nofun).symm)
      (or_iff_left fun ⟨_, hp, _⟩ => nomatch hp).symm
  | some path =>
    cases hrebase : acc.rebase path with
    | none =>
      rw [Scan.notePath, hrebase]
      refine ⟨fun p hp => .inl (h.value p hp), fun p hp => ?_, ?_⟩
      · exact hp.elim (h.kept p) fun hp => by
          rw [Option.bind_some, hrebase] at hp
          cases hp
      · exact ⟨fun _ => .inl (.inr ⟨path, rfl, hrebase⟩), fun _ => rfl⟩
    | some now =>
      rw [Scan.notePath, hrebase]
      refine (h.note (some now)).congr (fun p => ?_) ⟨.inl, fun hun => ?_⟩
      · rw [Option.bind_some, hrebase]
      · obtain hun | ⟨p, hp, hnone⟩ := hun
        · exact hun
        · rw [Option.some.inj hp, hnone] at hrebase
          cases hrebase

end Tallies

/-! ### What the fragments state -/

section Reports

variable (index : MixinIndex) {α : Type}

/-- A fragment among those gone through states a value. -/
def StatedIn (log : List (String × MergeArg)) (field : MixinIqFragment → Option α) (x : α) :
    Prop :=
  ∃ e ∈ log, ∃ frag, index.get e.1 = some frag ∧ field frag = some x

/-- A fragment among those gone through says where the addressee is read. -/
def PathIn (log : List (String × MergeArg)) (p : Option WapArgPath) : Prop :=
  ∃ e ∈ log, ∃ frag, index.get e.1 = some frag ∧
    ∃ path, frag.targetArgPath = some path ∧ e.2.rebase path = p

/-- The state of the union is that of the modules gone through. -/
structure Tallies (s : Resolving) (log : List (String × MergeArg)) : Prop where
  xmlns : Tally s.xmlns (StatedIn index log MixinIqFragment.xmlns) False
  iqType : Tally s.iqType (StatedIn index log MixinIqFragment.iqType) False
  target : Tally s.target (StatedIn index log MixinIqFragment.target) False
  targetPath : Tally s.targetPath (fun p => PathIn index log (some p)) (PathIn index log none)
  frames : ∀ e ∈ log, Knows composition (frameOf s.reached) e.1 e.2
  visited : ∀ m v, frameOf s.reached m = some v → (m, v) ∈ log

variable {index}

theorem statedIn_append {log : List (String × MergeArg)} {name : String} {acc : MergeArg}
    {field : MixinIqFragment → Option α} {x : α} :
    StatedIn index (log ++ [(name, acc)]) field x ↔
      StatedIn index log field x ∨ (index.get name).bind field = some x := by
  constructor
  · rintro ⟨e, he, frag, hget, hfield⟩
    rcases List.mem_append.mp he with he | he
    · exact .inl ⟨e, he, frag, hget, hfield⟩
    · obtain rfl := List.mem_singleton.mp he
      exact .inr (by rw [hget]; exact hfield)
  · rintro (⟨e, he, frag, hget, hfield⟩ | hname)
    · exact ⟨e, List.mem_append_left _ he, frag, hget, hfield⟩
    · obtain ⟨frag, hget, hfield⟩ := Option.bind_eq_some_iff.mp hname
      exact ⟨_, List.mem_append_right _ (List.mem_singleton_self _), frag, hget, hfield⟩

theorem pathIn_append {log : List (String × MergeArg)} {name : String} {acc : MergeArg}
    {p : Option WapArgPath} :
    PathIn index (log ++ [(name, acc)]) p ↔ PathIn index log p ∨
      ∃ path, (index.get name).bind MixinIqFragment.targetArgPath = some path ∧
        acc.rebase path = p := by
  constructor
  · rintro ⟨e, he, frag, hget, path, hpath, hp⟩
    rcases List.mem_append.mp he with he | he
    · exact .inl ⟨e, he, frag, hget, path, hpath, hp⟩
    · obtain rfl := List.mem_singleton.mp he
      exact .inr ⟨path, by rw [hget]; exact hpath, hp⟩
  · rintro (⟨e, he, frag, hget, path, hpath, hp⟩ | ⟨path, hname, hp⟩)
    · exact ⟨e, List.mem_append_left _ he, frag, hget, path, hpath, hp⟩
    · obtain ⟨frag, hget, hpath⟩ := Option.bind_eq_some_iff.mp hname
      exact ⟨_, List.mem_append_right _ (List.mem_singleton_self _), frag, hget, path, hpath, hp⟩

/-- **Visiting a module** takes in what it states. -/
theorem Tallies.visit {s : Resolving} {log : List (String × MergeArg)} (h : Tallies index s log)
    (name : String) (acc : MergeArg)
    (hframes : ∀ m a, Knows composition (frameOf s.reached) m a →
      Knows composition (frameOf (s.visit index name acc).1.reached) m a) :
    Tallies index (s.visit index name acc).1 (log ++ [(name, acc)]) := by
  have hreached := @visit_reached index name acc s
  have hknows : ∀ e ∈ log ++ [(name, acc)],
      Knows composition (frameOf (s.visit index name acc).1.reached) e.1 e.2 := by
    intro e he
    rcases List.mem_append.mp he with he | he
    · exact hframes e.1 e.2 (h.frames e he)
    · obtain rfl := List.mem_singleton.mp he
      exact .inl (by rw [hreached]; exact Function.update_self ..)
  have hvisited : ∀ m v, frameOf (s.visit index name acc).1.reached m = some v →
      (m, v) ∈ log ++ [(name, acc)] := by
    intro m v hm
    rw [hreached] at hm
    rcases eq_or_ne m name with rfl | hne
    · rw [Function.update_self] at hm
      exact List.mem_append_right _ (List.mem_singleton.mpr (by rw [Option.some.inj hm]))
    · rw [Function.update_of_ne hne] at hm
      exact List.mem_append_left _ (h.visited m v hm)
  have hstated : ∀ {β : Type} [DecidableEq β] {t : Stated β} {field : MixinIqFragment → Option β},
      Tally t (StatedIn index log field) False →
      Tally (t.note ((index.get name).bind field))
        (StatedIn index (log ++ [(name, acc)]) field) False := by
    intro β _ t field ht
    exact (ht.note _).congr (fun x => statedIn_append.symm) Iff.rfl
  have hpath : Tally (notePath s.targetPath acc
      ((index.get name).bind MixinIqFragment.targetArgPath))
      (fun p => PathIn index (log ++ [(name, acc)]) (some p))
      (PathIn index (log ++ [(name, acc)]) none) := by
    refine (h.targetPath.notePath acc _).congr (fun p => ?_) pathIn_append.symm
    rw [pathIn_append, Option.bind_eq_some_iff]
  have hstate : (s.visit index name acc).1 =
      { reached := (s.visit index name acc).1.reached
        targetPath := notePath s.targetPath acc
          ((index.get name).bind MixinIqFragment.targetArgPath)
        xmlns := s.xmlns.note ((index.get name).bind MixinIqFragment.xmlns)
        iqType := s.iqType.note ((index.get name).bind MixinIqFragment.iqType)
        target := s.target.note ((index.get name).bind MixinIqFragment.target) } := by
    rw [Resolving.visit]
    cases index.get name <;> rfl
  rw [hstate]
  exact ⟨hstated h.xmlns, hstated h.iqType, hstated h.target, hpath, hknows, hvisited⟩

/-- **The union has gone through every module in its frame.** -/
theorem resolving_tallies {mixinModules : List MergeCallee} {fuel : ℕ} {s : Resolving}
    (h : resolving index mixinModules fuel = some s) : ∃ log, Tallies index s log := by
  refine drain_invariant (I := fun _ (s : Resolving) => ∃ log, Tallies index s log) ?_ ?_ h
  · rintro ⟨name, acc⟩ _ s ⟨log, htallies⟩
    have hknows := fun m a (hm : Knows composition (frameOf s.reached) m a) =>
      (@resolving_delivery index name acc s).knows hm
    rw [Resolving.round] at hknows ⊢
    cases hlookup : frameOf s.reached name with
    | none =>
      simp only [hlookup] at hknows
      exact ⟨_, htallies.visit name acc hknows⟩
    | some prev =>
      simp only [hlookup] at hknows ⊢
      split_ifs at hknows ⊢ with hsame htop
      · exact ⟨log, htallies⟩
      · exact ⟨log, htallies⟩
      · exact ⟨_, htallies.visit name .unnameable hknows⟩
  · have hempty : ∀ {β : Type} {field : MixinIqFragment → Option β},
        Tally (Stated.mk none false) (StatedIn index [] field) False := by
      intro β field
      refine ⟨by simp, fun x hx => ?_, ⟨by simp, ?_⟩⟩
      · obtain ⟨e, he, -⟩ := hx
        cases he
      · rintro (hfalse | ⟨x, y, ⟨e, he, -⟩, -⟩)
        · exact hfalse.elim
        · cases he
    refine ⟨[], hempty, hempty, hempty, ⟨fun x h => (by cases h), fun p hp => ?_,
      ⟨fun h => (by cases h), ?_⟩⟩, fun m h => absurd h List.not_mem_nil,
      fun m v h => (by cases h)⟩
    · obtain ⟨e, he, -⟩ := hp
      cases he
    · rintro (⟨e, he, -⟩ | ⟨p, q, ⟨e, he, -⟩, -⟩)
      · cases he
      · cases he

end Reports

/-! ### What is reported -/

section Agreement

variable (index : MixinIndex) (mixinModules : List MergeCallee) {α : Type}

/-- A fragment that is reached states the value. -/
def StatedBy (field : MixinIqFragment → Option α) (x : α) : Prop :=
  ∃ m frag, Reached index mixinModules m ∧ index.get m = some frag ∧ field frag = some x

/-- Every fragment reached that states a value states this one, and there is one. -/
def Agreed (field : MixinIqFragment → Option α) (x : α) : Prop :=
  StatedBy index mixinModules field x ∧ ∀ y, StatedBy index mixinModules field y → y = x

/-- Two fragments reached state different values. -/
def Disputed (field : MixinIqFragment → Option α) : Prop :=
  ∃ x y, StatedBy index mixinModules field x ∧ StatedBy index mixinModules field y ∧ x ≠ y

/-- A fragment that is reached says where the addressee is read, which in its frame is `p`, or
cannot be named. -/
def AddressedAt (p : Option WapArgPath) : Prop :=
  ∃ m frame frag path, Frame index mixinModules m frame ∧ index.get m = some frag ∧
    frag.targetArgPath = some path ∧ frame.rebase path = p

/-- Every fragment reached that says where the addressee is read says it is here, in a frame that
can be named, and there is one. -/
def Addressed (p : WapArgPath) : Prop :=
  AddressedAt index mixinModules (some p) ∧
    ∀ q, AddressedAt index mixinModules q → q = some p

end Agreement

section Results

variable {index : MixinIndex} {mixinModules : List MergeCallee} {α : Type}

/-- What a tally reports is what has been stated, if only one thing has. -/
theorem Tally.reported {s : Stated α} {stated : α → Prop} {unspeakable : Prop}
    (h : Tally s stated unspeakable) (x : α) :
    (s.conflict = false ∧ s.value = some x) ↔
      ¬unspeakable ∧ stated x ∧ ∀ y, stated y → y = x := by
  constructor
  · rintro ⟨hconflict, hvalue⟩
    have hnot := fun hor => Bool.false_ne_true (hconflict.symm.trans (h.conflict.mpr hor))
    have hx := h.value x hvalue
    refine ⟨fun hun => hnot (.inl hun), hx, fun y hy => ?_⟩
    by_contra hne
    exact hnot (.inr ⟨y, x, hy, hx, hne⟩)
  · rintro ⟨hun, hx, hall⟩
    constructor
    · rw [Bool.eq_false_iff]
      intro hconflict
      obtain hun' | ⟨y, z, hy, hz, hne⟩ := h.conflict.mp hconflict
      · exact hun hun'
      · exact hne ((hall y hy).trans (hall z hz).symm)
    · cases hvalue : s.value with
      | none => exact absurd hvalue (h.kept x hx)
      | some y => rw [hall y (h.value y hvalue)]

theorem Tallies.reached_iff_mem {s : Resolving} {log : List (String × MergeArg)}
    (h : Tallies index s log)
    (hframes : ∀ m v, frameOf s.reached m = some v ↔ Frame index mixinModules m v) (m : String) :
    (∃ a, (m, a) ∈ log) ↔ Reached index mixinModules m := by
  constructor
  · rintro ⟨a, ha⟩
    rcases h.frames _ ha with hm | hm
    · exact ((hframes m a).mp hm).reachable
    · exact ((hframes m _).mp hm).reachable
  · intro hm
    obtain ⟨v, hv⟩ := Reachable.assigned hm
    exact ⟨v, h.visited m v ((hframes m v).mpr hv)⟩

theorem Tallies.statedIn_iff {s : Resolving} {log : List (String × MergeArg)}
    (h : Tallies index s log)
    (hframes : ∀ m v, frameOf s.reached m = some v ↔ Frame index mixinModules m v)
    (field : MixinIqFragment → Option α) (x : α) :
    StatedIn index log field x ↔ StatedBy index mixinModules field x := by
  constructor
  · rintro ⟨e, he, frag, hget, hfield⟩
    exact ⟨e.1, frag, (h.reached_iff_mem hframes e.1).mp ⟨e.2, he⟩, hget, hfield⟩
  · rintro ⟨m, frag, hm, hget, hfield⟩
    obtain ⟨a, ha⟩ := (h.reached_iff_mem hframes m).mpr hm
    exact ⟨(m, a), ha, frag, hget, hfield⟩

theorem Tallies.value_iff {s : Resolving} {log : List (String × MergeArg)}
    (h : Tallies index s log)
    (hframes : ∀ m v, frameOf s.reached m = some v ↔ Frame index mixinModules m v)
    {field : MixinIqFragment → Option α} {t : Stated α}
    (ht : Tally t (StatedIn index log field) False) (x : α) :
    (t.conflict = false ∧ t.value = some x) ↔ Agreed index mixinModules field x := by
  rw [ht.reported, Agreed]
  simp only [not_false_eq_true, true_and, h.statedIn_iff hframes]

theorem Tallies.conflict_iff {s : Resolving} {log : List (String × MergeArg)}
    (h : Tallies index s log)
    (hframes : ∀ m v, frameOf s.reached m = some v ↔ Frame index mixinModules m v)
    {field : MixinIqFragment → Option α} {t : Stated α}
    (ht : Tally t (StatedIn index log field) False) :
    t.conflict = true ↔ Disputed index mixinModules field := by
  rw [ht.conflict, Disputed]
  simp only [false_or, h.statedIn_iff hframes]

/-- A module visited in a frame it has not kept is in the end one that cannot be named, so that
all paths agree in the frames visited when they agree in the frames kept. -/
theorem Tallies.addressed_iff {s : Resolving} {log : List (String × MergeArg)}
    (h : Tallies index s log)
    (hframes : ∀ m v, frameOf s.reached m = some v ↔ Frame index mixinModules m v)
    (p : WapArgPath) :
    (s.targetPath.conflict = false ∧ s.targetPath.value = some p) ↔
      Addressed index mixinModules p := by
  have hkept : ∀ q, AddressedAt index mixinModules q → PathIn index log q := by
    rintro q ⟨m, frame, frag, path, hframe, hget, hpath, hq⟩
    exact ⟨(m, frame), h.visited m frame ((hframes m frame).mpr hframe), frag, hget, path, hpath,
      hq⟩
  have hvisited : ∀ q, PathIn index log q →
      AddressedAt index mixinModules q ∨ AddressedAt index mixinModules none := by
    rintro q ⟨e, he, frag, hget, path, hpath, hq⟩
    rcases h.frames e he with hm | hm
    · exact .inl ⟨e.1, e.2, frag, path, (hframes _ _).mp hm, hget, hpath, hq⟩
    · exact .inr ⟨e.1, .unnameable, frag, path, (hframes _ _).mp hm, hget, hpath,
        MergeArg.rebase_eq .unnameable path⟩
  rw [h.targetPath.reported, Addressed]
  constructor
  · rintro ⟨hnone, hp, hall⟩
    have hspeakable : ¬AddressedAt index mixinModules none := fun hn => hnone (hkept none hn)
    refine ⟨(hvisited _ hp).resolve_right hspeakable, fun q hq => ?_⟩
    cases q with
    | none => exact absurd hq hspeakable
    | some q => rw [hall q (hkept _ hq)]
  · rintro ⟨hp, hall⟩
    have hspeakable : ¬AddressedAt index mixinModules none := fun hn => nomatch hall none hn
    refine ⟨fun hn => hspeakable ((hvisited _ hn).elim id id), hkept _ hp, fun q hq => ?_⟩
    exact Option.some.inj (hall _ ((hvisited _ hq).resolve_right hspeakable))

/-- What the union reports. -/
structure Reports (index : MixinIndex) (mixinModules : List MergeCallee) (r : Resolved) :
    Prop where
  xmlns : ∀ x, r.xmlns = some x ↔ Agreed index mixinModules MixinIqFragment.xmlns x
  iqType : ∀ x, r.iqType = some x ↔ Agreed index mixinModules MixinIqFragment.iqType x
  target : ∀ x, r.target = some x ↔ Agreed index mixinModules MixinIqFragment.target x ∨
    x = .unknown ∧ Disputed index mixinModules MixinIqFragment.target
  targetArgPath : ∀ p, r.targetArgPath = some p ↔ Addressed index mixinModules p ∧
    ¬Disputed index mixinModules MixinIqFragment.target

theorem ite_none_eq_some {c : Bool} {o : Option α} {x : α} :
    (if c then none else o) = some x ↔ c = false ∧ o = some x := by
  cases c
  · exact ⟨fun h => ⟨rfl, h⟩, fun h => h.2⟩
  · exact ⟨nofun, fun h => nomatch h.1⟩

/-- **The union reports what the fragments reached agree on.** -/
theorem resolving_reports {fuel : ℕ} {s : Resolving}
    (h : resolving index mixinModules fuel = some s)
    (hframes : ∀ m v, frameOf s.reached m = some v ↔ Frame index mixinModules m v) :
    Reports index mixinModules s.result := by
  obtain ⟨log, hlog⟩ := resolving_tallies h
  have hdispute := hlog.conflict_iff hframes hlog.target
  refine ⟨fun x => ?_, fun x => ?_, fun x => ?_, fun p => ?_⟩
  · exact ite_none_eq_some.trans (hlog.value_iff hframes hlog.xmlns x)
  · exact ite_none_eq_some.trans (hlog.value_iff hframes hlog.iqType x)
  · have hvalue := hlog.value_iff hframes hlog.target x
    rw [← hvalue, ← hdispute]
    show (if s.target.conflict then some .unknown else s.target.value) = some x ↔ _
    cases s.target.conflict
    · simp
    · simp [eq_comm]
  · refine ite_none_eq_some.trans ?_
    rw [Bool.or_eq_false_iff, and_right_comm, hlog.addressed_iff hframes, ← hdispute,
      Bool.not_eq_true]

/-- What is reported is told by what it must be. -/
theorem Reports.unique {r r' : Resolved} (h : Reports index mixinModules r)
    (h' : Reports index mixinModules r') : r = r' := by
  obtain ⟨xmlns, iqType, target, targetArgPath⟩ := r
  obtain ⟨xmlns', iqType', target', targetArgPath'⟩ := r'
  obtain rfl : xmlns = xmlns' :=
    Option.ext fun x => (h.xmlns x).trans (h'.xmlns x).symm
  obtain rfl : iqType = iqType' := Option.ext fun x => (h.iqType x).trans (h'.iqType x).symm
  obtain rfl : target = target' := Option.ext fun x => (h.target x).trans (h'.target x).symm
  obtain rfl : targetArgPath = targetArgPath' :=
    Option.ext fun p => (h.targetArgPath p).trans (h'.targetArgPath p).symm
  rfl

end Results

/-! ### The order of the callees -/

/-- The fragments differ at most in how their callees are listed. -/
structure MixinIqFragment.Reordered (frag frag' : MixinIqFragment) : Prop where
  xmlns : frag'.xmlns = frag.xmlns
  iqType : frag'.iqType = frag.iqType
  target : frag'.target = frag.target
  targetArgPath : frag'.targetArgPath = frag.targetArgPath
  callees : ∀ c, c ∈ frag'.mergedCallees ↔ c ∈ frag.mergedCallees

/-- The requests differ at most in how callees are listed, in the index and of their own. -/
structure SameCallees (index index' : MixinIndex) (mixinModules mixinModules' : List MergeCallee) :
    Prop where
  index : ∀ m, Option.Rel MixinIqFragment.Reordered (index.get m) (index'.get m)
  callees : ∀ c, c ∈ mixinModules' ↔ c ∈ mixinModules

section Order

variable {index index' : MixinIndex} {mixinModules mixinModules' : List MergeCallee}

theorem mem_callees_congr {cs cs' : List MergeCallee} (h : ∀ c, c ∈ cs' ↔ c ∈ cs)
    (e : String × MergeArg) : e ∈ callees cs' ↔ e ∈ callees cs := by
  simp only [callees, List.mem_map, h]

theorem SameCallees.walk_iff (h : SameCallees index index' mixinModules mixinModules')
    (m : String) (a : MergeArg) :
    Walk composition (Scan.callees mixinModules') (merges index') m a ↔
      Walk composition (Scan.callees mixinModules) (merges index) m a := by
  have hedges : ∀ n e, e ∈ merges index' n ↔ e ∈ merges index n := by
    intro n e
    have hrel := h.index n
    rw [merges, merges]
    generalize index.get n = o at hrel
    generalize index'.get n = o' at hrel
    cases hrel with
    | none => rfl
    | some hsame => exact mem_callees_congr hsame.callees e
  have hroots := mem_callees_congr h.callees
  exact ⟨Walk.mono (fun e he => (hroots e).mp he) fun n e he => (hedges n e).mp he,
    Walk.mono (fun e he => (hroots e).mpr he) fun n e he => (hedges n e).mpr he⟩

theorem SameCallees.reached_iff_same (h : SameCallees index index' mixinModules mixinModules')
    (m : String) : Reached index' mixinModules' m ↔ Reached index mixinModules m :=
  exists_congr fun a => h.walk_iff m a

theorem SameCallees.frame_iff (h : SameCallees index index' mixinModules mixinModules')
    (m : String) (v : MergeArg) :
    Frame index' mixinModules' m v ↔ Frame index mixinModules m v := by
  simp only [Frame, Assigned, Disagree, h.walk_iff]

/-- A fragment found in one index is found in the other. -/
theorem SameCallees.get (h : SameCallees index index' mixinModules mixinModules') {m : String}
    {frag' : MixinIqFragment} (hget : index'.get m = some frag') :
    ∃ frag, index.get m = some frag ∧ frag.Reordered frag' := by
  have hrel := h.index m
  rw [hget] at hrel
  generalize index.get m = o at hrel
  cases hrel with
  | some hsame => exact ⟨_, rfl, hsame⟩

theorem SameCallees.symm (h : SameCallees index index' mixinModules mixinModules') :
    SameCallees index' index mixinModules' mixinModules where
  index := by
    intro m
    have hrel := h.index m
    generalize index.get m = o at hrel
    generalize index'.get m = o' at hrel
    cases hrel with
    | none => exact .none
    | some hsame =>
      exact .some ⟨hsame.xmlns.symm, hsame.iqType.symm, hsame.target.symm,
        hsame.targetArgPath.symm, fun c => (hsame.callees c).symm⟩
  callees := fun c => (h.callees c).symm

theorem SameCallees.statedBy {α : Type} {field : MixinIqFragment → Option α}
    (hfield : ∀ {frag frag' : MixinIqFragment}, frag.Reordered frag' → field frag' = field frag)
    (h : SameCallees index index' mixinModules mixinModules') {x : α}
    (hx : StatedBy index' mixinModules' field x) : StatedBy index mixinModules field x := by
  obtain ⟨m, frag', hm, hget, hstated⟩ := hx
  obtain ⟨frag, hfrag, hsame⟩ := h.get hget
  exact ⟨m, frag, (h.reached_iff_same m).mp hm, hfrag, (hfield hsame).symm.trans hstated⟩

theorem SameCallees.statedBy_eq {α : Type} {field : MixinIqFragment → Option α}
    (hfield : ∀ {frag frag' : MixinIqFragment}, frag.Reordered frag' → field frag' = field frag)
    (h : SameCallees index index' mixinModules mixinModules') :
    StatedBy index' mixinModules' field = StatedBy index mixinModules field :=
  funext fun _ => propext ⟨h.statedBy hfield, h.symm.statedBy hfield⟩

theorem SameCallees.addressedAt (h : SameCallees index index' mixinModules mixinModules')
    {p : Option WapArgPath} (hp : AddressedAt index' mixinModules' p) :
    AddressedAt index mixinModules p := by
  obtain ⟨m, frame, frag', path, hframe, hget, hpath, hrebase⟩ := hp
  obtain ⟨frag, hfrag, hsame⟩ := h.get hget
  exact ⟨m, frame, frag, path, (h.frame_iff m frame).mp hframe, hfrag,
    hsame.targetArgPath.symm.trans hpath, hrebase⟩

/-- **No order matters**: listed otherwise, the same callees are reported alike. -/
theorem SameCallees.reports (h : SameCallees index index' mixinModules mixinModules')
    {r : Resolved} (hr : Reports index' mixinModules' r) : Reports index mixinModules r := by
  have hxmlns := h.statedBy_eq fun hsame => hsame.xmlns
  have hiqType := h.statedBy_eq fun hsame => hsame.iqType
  have htarget := h.statedBy_eq fun hsame => hsame.target
  have haddressed : AddressedAt index' mixinModules' = AddressedAt index mixinModules :=
    funext fun _ => propext ⟨h.addressedAt, h.symm.addressedAt⟩
  obtain ⟨hrx, hri, hrt, hrp⟩ := hr
  simp only [Agreed, Disputed, Addressed, hxmlns, hiqType, htarget, haddressed] at hrx hri hrt hrp
  exact ⟨hrx, hri, hrt, hrp⟩

end Order

/-! ### Both folds -/

/-- What the two loops do with the callees of a request: they visit the modules reached and no
others, in the frames assigned, and the union reports what the fragments agree on. -/
structure Folds (index : MixinIndex) (mixinModules : List MergeCallee) (s : Resolving)
    (t : Reaching) : Prop where
  visited : ∀ m, (frameOf s.reached m).isSome ↔ Reached index mixinModules m
  collected : t.order.Nodup ∧ ∀ m, m ∈ t.order ↔ Reached index mixinModules m
  frames : ∀ m v, frameOf s.reached m = some v ↔ Frame index mixinModules m v
  collectedFrames : ∀ m v, frameOf t.reach m = some v ↔ Frame index mixinModules m v
  reports : Reports index mixinModules s.result

/-- **The folds compose addresses exactly.**  With enough fuel both loops end.  They visit the
modules reached, agree on the frame of each, and what they report is what the fragments reached
agree on, whatever the order of the callees. -/
theorem folds_compose_addresses (index : MixinIndex) (mixinModules : List MergeCallee) :
    ∃ enough s t,
      (∀ fuel ≥ enough, resolving index mixinModules fuel = some s ∧
        reaching index mixinModules fuel = some t ∧
        resolve index mixinModules fuel = some s.result ∧
        resolveFragmentChildren index mixinModules fuel = some (t.children index)) ∧
      Folds index mixinModules s t ∧
      (∀ m, frameOf s.reached m = frameOf t.reach m) ∧
      ∀ index' mixinModules', SameCallees index index' mixinModules mixinModules' →
        ∀ fuel r, resolve index' mixinModules' fuel = some r → r = s.result := by
  obtain ⟨k, s, hs, hframes⟩ := resolving_frames index mixinModules
  obtain ⟨l, t, ht, hcollected⟩ := reaching_frames index mixinModules
  have hreached : ∀ {o : Option MergeArg} {m}, (∀ v, o = some v ↔ Frame index mixinModules m v) →
      (o.isSome ↔ Reached index mixinModules m) := by
    intro o m ho
    rw [Option.isSome_iff_exists]
    exact ⟨fun ⟨v, hv⟩ => ((ho v).mp hv).reachable,
      fun hm => (Reachable.assigned hm).imp fun v hv => (ho v).mpr hv⟩
  have hreports := resolving_reports hs hframes
  obtain ⟨hnodup, horder⟩ := reaching_order ht
  refine ⟨max k l, s, t, fun fuel hfuel => ?_, ?_, fun m => ?_, ?_⟩
  · have hs' : resolving index mixinModules fuel = some s :=
      drain_mono hs (le_trans (le_max_left k l) hfuel)
    have ht' : reaching index mixinModules fuel = some t :=
      drain_mono ht (le_trans (le_max_right k l) hfuel)
    exact ⟨hs', ht', congrArg (Option.map Resolving.result) hs',
      congrArg (Option.map (Reaching.children index)) ht'⟩
  · exact ⟨fun m => hreached (hframes m),
      ⟨hnodup, fun m => (horder m).trans (hreached (hcollected m))⟩, hframes, hcollected, hreports⟩
  · exact Option.ext fun v => (hframes m v).trans (hcollected m v).symm
  · intro index' mixinModules' hsame fuel r hr
    obtain ⟨s', hs', rfl⟩ := Option.map_eq_some_iff.mp hr
    obtain ⟨k', s'', hs'', hframes'⟩ := resolving_frames index' mixinModules'
    obtain rfl : s' = s'' := drain_unique hs' hs''
    exact (hsame.reports (resolving_reports hs' hframes')).unique hreports

/-- A mixin that only names an addressee. -/
def addressing (target : IqTarget) : MixinIqFragment :=
  ⟨none, none, some target, none, [], []⟩

/-- Two mixins that name different addressees. -/
def routerIndex : MixinIndex :=
  ⟨[("WASmaxOutGroupsBaseGetGroupMixin", addressing .groupJid),
    ("WASmaxOutGroupsBaseGetServerMixin", addressing .groupServer)], by
    simp only [SortedMap.Sorted, List.pairwise_cons, List.mem_singleton, forall_eq,
      List.not_mem_nil, false_implies, implies_true, List.Pairwise.nil, and_true]
    decide⟩

def routerCallees : List MergeCallee :=
  [⟨"WASmaxOutGroupsBaseGetGroupMixin", .whole⟩, ⟨"WASmaxOutGroupsBaseGetServerMixin", .whole⟩]

/-- An addressee is reported although the fragments disagree: it is reported to be unknown. -/
theorem unknown_reported_on_dispute :
    ¬∀ (index : MixinIndex) (mixinModules : List MergeCallee) (fuel : ℕ) (r : Resolved),
      resolve index mixinModules fuel = some r → ∀ x, r.target = some x →
        Agreed index mixinModules MixinIqFragment.target x := by
  intro h
  have hresolve : resolve routerIndex routerCallees 2 =
      some ⟨none, none, some .unknown, none⟩ := by decide +kernel
  obtain ⟨-, hall⟩ := h _ _ _ _ hresolve .unknown rfl
  have hget : routerIndex.get "WASmaxOutGroupsBaseGetGroupMixin" =
      some (addressing .groupJid) := rfl
  have hreached : Reached routerIndex routerCallees "WASmaxOutGroupsBaseGetGroupMixin" :=
    ⟨.whole, .root List.mem_cons_self⟩
  cases hall .groupJid ⟨_, _, hreached, hget, rfl⟩

end Whatspec.Scan

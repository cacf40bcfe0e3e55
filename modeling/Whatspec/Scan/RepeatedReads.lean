import Whatspec.Library.Cancelling

/-!
# Repeated reads of a response field

A parser may read one field of a response several times, each time with its own constraints.  The
scan merges the reads of a field into one: a read with the identity of an earlier one is folded
into it, children included, and any other is pushed.

* `constrain` is what a second read does to a constraint, `carry` to a structural fact;
* `takeConstraints` does it to every slot of a field;
* `mergeOrPush` is one read and `mergeAll` a list of them;
* `headAt` reads the merged tree along a path of identities, and `headAt_mergeAll` says which reads
  made what stands there;
* `hasPath_mergeAll`: the merged tree has the paths of its reads.
-/

namespace Whatspec.Scan.Reads

open Whatspec.Library

/-! ### Fields -/

structure AttrEnumVariant where
  name : String
  value : String
  deriving DecidableEq

structure AttrEnumRef where
  name : String
  module : String
  variants : List AttrEnumVariant
  deriving DecidableEq

/-- The value table of an enum accessor, before the pass over the bundle. -/
inductive PendingEnum where
  | link (ref : AttrEnumRef)
  | unresolvable
  deriving DecidableEq

inductive ContentType where
  | string
  | bytes
  | integer
  | nodes
  deriving DecidableEq

/-- What a field says apart from its children. -/
structure FieldHead where
  method : String
  name : String
  wireName : Option String
  tag : Option String
  parserRequired : Bool
  byteLength : Option ℕ
  byteMin : Option ℕ
  byteMax : Option ℕ
  intMin : Option ℤ
  intMax : Option ℤ
  enumKeys : Option (List String)
  enumRef : Option AttrEnumRef
  pendingEnumRef : Option PendingEnum
  literalValue : Option String
  contentType : Option ContentType
  referencePath : Option (List String)
  sourcePath : Option (List String)
  repeats : Option Bool
  deriving DecidableEq

inductive ParsedField where
  | mk (head : FieldHead) (children : Option (List ParsedField))

def ParsedField.head : ParsedField → FieldHead
  | ⟨head, _⟩ => head

def ParsedField.children : ParsedField → Option (List ParsedField)
  | ⟨_, children⟩ => children

/-- What makes two reads reads of one field. -/
structure Identity where
  method : String
  tag : Option String
  name : String
  wireName : Option String
  deriving DecidableEq

def FieldHead.identity (h : FieldHead) : Identity := ⟨h.method, h.tag, h.name, h.wireName⟩

def ParsedField.identity (f : ParsedField) : Identity := f.head.identity

/-- The fields below a field, none where it has no list of them. -/
def ParsedField.kids (f : ParsedField) : List ParsedField := f.children.getD []

/-! ### One slot -/

/-- The report of two reads that disagree about a slot. -/
def mergeConflict (slot name : String) : String :=
  "incompatibleRepeatedRead@" ++ slot ++ ":" ++ name

/-- A constraint the two reads disagree about is dropped. -/
def constrain {α : Type} [DecidableEq α] (slot name : String) (into new : Option α)
    (lost : List String) : Option α × List String :=
  match into, new with
  | none, some v => (some v, lost)
  | some a, some b => if a ≠ b then (none, lost ++ [mergeConflict slot name]) else (some a, lost)
  | kept, none => (kept, lost)

/-- A structural fact the two reads disagree about stays the first one. -/
def carry {α : Type} [DecidableEq α] (slot name : String) (into new : Option α)
    (lost : List String) : Option α × List String :=
  match into, new with
  | none, some v => (some v, lost)
  | some a, some b => if a ≠ b then (some a, lost ++ [mergeConflict slot name]) else (some a, lost)
  | kept, none => (kept, lost)

/-- What a pair of values adds to the reports. -/
def clash {α : Type} [DecidableEq α] (slot name : String) (into new : Option α) : List String :=
  match into, new with
  | some a, some b => if a ≠ b then [mergeConflict slot name] else []
  | _, _ => []

section
variable {α : Type} [DecidableEq α] (slot name : String) (into new : Option α) (lost : List String)

theorem constrain_lost :
    (constrain slot name into new lost).2 = lost ++ clash slot name into new := by
  cases into with
  | none => cases new <;> exact (List.append_nil lost).symm
  | some a =>
    cases new with
    | none => exact (List.append_nil lost).symm
    | some b => by_cases h : a ≠ b <;> simp [constrain, clash, h]

theorem carry_lost : (carry slot name into new lost).2 = lost ++ clash slot name into new := by
  cases into with
  | none => cases new <;> exact (List.append_nil lost).symm
  | some a =>
    cases new with
    | none => exact (List.append_nil lost).symm
    | some b => by_cases h : a ≠ b <;> simp [carry, clash, h]

/-- What a second read leaves of a constraint. -/
theorem constrain_kept :
    (constrain slot name into new lost).1 = new.elim into (Cancelling.settle into) := by
  cases into with
  | none => cases new <;> rfl
  | some a =>
    cases new with
    | none => rfl
    | some b => by_cases h : a = b <;> simp [constrain, Cancelling.settle, h]

theorem carry_kept : (carry slot name into new lost).1 = into.or new := by
  cases into with
  | none => cases new <;> rfl
  | some a =>
    cases new with
    | none => rfl
    | some b => by_cases h : a ≠ b <;> simp [carry, h]

end

theorem mem_clash {α : Type} [DecidableEq α] {a b : α} (slot name : String) (h : a ≠ b) :
    mergeConflict slot name ∈ clash slot name (some a) (some b) := by
  simp [clash, h]

/-! ### Every slot of a field -/

/-- `take_constraints`: what the second read pins goes onto the first. -/
def takeConstraints (into new : FieldHead) (lost : List String) : FieldHead × List String :=
  let byteLength := constrain "byte_length" into.name into.byteLength new.byteLength lost
  let byteMin := constrain "byte_min" into.name into.byteMin new.byteMin byteLength.2
  let byteMax := constrain "byte_max" into.name into.byteMax new.byteMax byteMin.2
  let intMin := constrain "int_min" into.name into.intMin new.intMin byteMax.2
  let intMax := constrain "int_max" into.name into.intMax new.intMax intMin.2
  let enumKeys := constrain "enum_keys" into.name into.enumKeys new.enumKeys intMax.2
  let enumRef := constrain "enum_ref" into.name into.enumRef new.enumRef enumKeys.2
  let pendingEnumRef :=
    constrain "pending_enum_ref" into.name into.pendingEnumRef new.pendingEnumRef enumRef.2
  let literalValue :=
    constrain "literal_value" into.name into.literalValue new.literalValue pendingEnumRef.2
  let contentType :=
    carry "content_type" into.name into.contentType new.contentType literalValue.2
  let referencePath :=
    carry "reference_path" into.name into.referencePath new.referencePath contentType.2
  let sourcePath := carry "source_path" into.name into.sourcePath new.sourcePath referencePath.2
  let repeats := carry "repeats" into.name into.repeats new.repeats sourcePath.2
  ({ into with
      byteLength := byteLength.1
      byteMin := byteMin.1
      byteMax := byteMax.1
      intMin := intMin.1
      intMax := intMax.1
      enumKeys := enumKeys.1
      enumRef := enumRef.1
      pendingEnumRef := pendingEnumRef.1
      literalValue := literalValue.1
      contentType := contentType.1
      referencePath := referencePath.1
      sourcePath := sourcePath.1
      repeats := repeats.1 }, repeats.2)

/-- The slots that a disagreement empties. -/
inductive Constraint where
  | byteLength
  | byteMin
  | byteMax
  | intMin
  | intMax
  | enumKeys
  | enumRef
  | pendingEnumRef
  | literalValue
  deriving DecidableEq

def Constraint.Value : Constraint → Type
  | byteLength | byteMin | byteMax => ℕ
  | intMin | intMax => ℤ
  | enumKeys => List String
  | enumRef => AttrEnumRef
  | pendingEnumRef => PendingEnum
  | literalValue => String

instance : (c : Constraint) → DecidableEq c.Value
  | .byteLength | .byteMin | .byteMax => inferInstanceAs (DecidableEq ℕ)
  | .intMin | .intMax => inferInstanceAs (DecidableEq ℤ)
  | .enumKeys => inferInstanceAs (DecidableEq (List String))
  | .enumRef => inferInstanceAs (DecidableEq AttrEnumRef)
  | .pendingEnumRef => inferInstanceAs (DecidableEq PendingEnum)
  | .literalValue => inferInstanceAs (DecidableEq String)

/-- The source's name of the slot, as the reports have it. -/
def Constraint.label : Constraint → String
  | byteLength => "byte_length"
  | byteMin => "byte_min"
  | byteMax => "byte_max"
  | intMin => "int_min"
  | intMax => "int_max"
  | enumKeys => "enum_keys"
  | enumRef => "enum_ref"
  | pendingEnumRef => "pending_enum_ref"
  | literalValue => "literal_value"

/-- What a field states in the slot. -/
def Constraint.get : (c : Constraint) → FieldHead → Option c.Value
  | byteLength, h => h.byteLength
  | byteMin, h => h.byteMin
  | byteMax, h => h.byteMax
  | intMin, h => h.intMin
  | intMax, h => h.intMax
  | enumKeys, h => h.enumKeys
  | enumRef, h => h.enumRef
  | pendingEnumRef, h => h.pendingEnumRef
  | literalValue, h => h.literalValue

theorem get_takeConstraints (c : Constraint) (into new : FieldHead) (lost : List String) :
    c.get (takeConstraints into new lost).1 =
      (c.get new).elim (c.get into) (Cancelling.settle (c.get into)) := by
  cases c <;> exact constrain_kept ..

/-- The reports made so far do not matter to the field. -/
theorem takeConstraints_head (into new : FieldHead) (lost : List String) :
    (takeConstraints into new lost).1 = (takeConstraints into new []).1 := by
  simp only [takeConstraints, constrain_kept, carry_kept]

/-- The reports of two reads, slot by slot. -/
def clashes (into new : FieldHead) : List String :=
  clash "byte_length" into.name into.byteLength new.byteLength ++
  clash "byte_min" into.name into.byteMin new.byteMin ++
  clash "byte_max" into.name into.byteMax new.byteMax ++
  clash "int_min" into.name into.intMin new.intMin ++
  clash "int_max" into.name into.intMax new.intMax ++
  clash "enum_keys" into.name into.enumKeys new.enumKeys ++
  clash "enum_ref" into.name into.enumRef new.enumRef ++
  clash "pending_enum_ref" into.name into.pendingEnumRef new.pendingEnumRef ++
  clash "literal_value" into.name into.literalValue new.literalValue ++
  clash "content_type" into.name into.contentType new.contentType ++
  clash "reference_path" into.name into.referencePath new.referencePath ++
  clash "source_path" into.name into.sourcePath new.sourcePath ++
  clash "repeats" into.name into.repeats new.repeats

theorem takeConstraints_lost (into new : FieldHead) (lost : List String) :
    (takeConstraints into new lost).2 = lost ++ clashes into new := by
  simp only [takeConstraints, constrain_lost, carry_lost, clashes, List.append_assoc]

/-- A constraint on which the reads differ is reported under the name of the field. -/
theorem mem_clashes {into new : FieldHead} (c : Constraint) {a b : c.Value}
    (ha : c.get into = some a) (hb : c.get new = some b) (h : a ≠ b) :
    mergeConflict c.label into.name ∈ clashes into new := by
  have hclash : mergeConflict c.label into.name ∈
      clash c.label into.name (c.get into) (c.get new) := by
    rw [ha, hb]
    exact mem_clash c.label into.name h
  cases c <;> simp only [clashes, List.mem_append] <;> tauto

/-! ### Reads of a field -/

/-- The fields up to the first with the identity, that field, and those after it. -/
def position (k : Identity) : List ParsedField →
    Option (List ParsedField × ParsedField × List ParsedField)
  | [] => none
  | g :: rest =>
    if g.identity = k then some ([], g, rest)
    else (position k rest).map fun found => (g :: found.1, found.2)

mutual

/-- `merge_or_push`: fold a read into the first field of its identity, or push it. -/
def mergeOrPush : List ParsedField → ParsedField → List String → List ParsedField × List String
  | into, ⟨head, children⟩, lost =>
    match position head.identity into with
    | none => (into ++ [⟨head, children⟩], lost)
    | some (before, ⟨here, existing⟩, after) =>
      let required := { here with parserRequired := here.parserRequired || head.parserRequired }
      let taken := takeConstraints required head lost
      match children with
      | none => (before ++ ⟨taken.1, existing⟩ :: after, taken.2)
      | some incoming =>
        let merged := mergeAll (existing.getD []) incoming taken.2
        (before ++ ⟨taken.1, some merged.1⟩ :: after, merged.2)

/-- The reads of a list, one after the other. -/
def mergeAll : List ParsedField → List ParsedField → List String → List ParsedField × List String
  | into, [], lost => (into, lost)
  | into, f :: rest, lost =>
    let merged := mergeOrPush into f lost
    mergeAll merged.1 rest merged.2

end

/-- The reads of a response, merged from nothing. -/
def readAll (reads : List ParsedField) : List ParsedField × List String := mergeAll [] reads []

/-! ### Finding a field -/

/-- The first field of an identity. -/
def find (k : Identity) (fields : List ParsedField) : Option ParsedField :=
  fields.find? fun g => g.identity = k

theorem find_cons (k : Identity) (g : ParsedField) (rest : List ParsedField) :
    find k (g :: rest) = if g.identity = k then some g else find k rest := by
  by_cases h : g.identity = k <;> simp [find, h]

theorem find_append_of_none {k : Identity} {front : List ParsedField} (h : find k front = none)
    (back : List ParsedField) : find k (front ++ back) = find k back := by
  rw [find, List.find?_append]
  rw [find] at h
  rw [h, Option.none_or]
  rfl

theorem position_eq_none {k : Identity} :
    ∀ {fields : List ParsedField}, position k fields = none → find k fields = none
  | [], _ => rfl
  | g :: rest, h => by
    rw [position] at h
    split at h
    · cases h
    · rename_i hne
      rw [find_cons, if_neg hne]
      exact position_eq_none (Option.map_eq_none_iff.mp h)

theorem position_eq_some {k : Identity} :
    ∀ {fields before after : List ParsedField} {g : ParsedField},
      position k fields = some (before, g, after) →
        fields = before ++ g :: after ∧ g.identity = k ∧ find k before = none
  | [], _, _, _, h => nomatch h
  | g :: rest, before, after, found, h => by
    rw [position] at h
    split at h
    · rename_i hk
      cases h
      exact ⟨rfl, hk, rfl⟩
    · rename_i hne
      obtain ⟨⟨before', found', after'⟩, hrest, hcons⟩ := Option.map_eq_some_iff.mp h
      cases hcons
      obtain ⟨rfl, hfound, hnone⟩ := position_eq_some hrest
      exact ⟨rfl, hfound, by rw [find_cons, if_neg hne, hnone]⟩

/-! ### What stands along a path -/

/-- What the first field of an identity says, or a field below it. -/
def headAt (k : Identity) : List Identity → List ParsedField → Option FieldHead
  | [], fields => (find k fields).map ParsedField.head
  | k' :: path, fields => (find k fields).bind fun g => headAt k' path g.kids

/-- Whether a field of the path stands in the tree. -/
def HasPath (k : Identity) : List Identity → List ParsedField → Prop
  | [], fields => ∃ g ∈ fields, g.identity = k
  | k' :: path, fields => ∃ g ∈ fields, g.identity = k ∧ HasPath k' path g.kids

/-- No field of the path has a sibling of its identity. -/
def Plain (k : Identity) : List Identity → List ParsedField → Prop
  | [], fields => fields.Pairwise fun f g => f.identity = k → g.identity ≠ k
  | k' :: path, fields =>
    (fields.Pairwise fun f g => f.identity = k → g.identity ≠ k) ∧
      ∀ g ∈ fields, g.identity = k → Plain k' path g.kids

/-- The two reads of a field as one. -/
def mergeHeads (here new : FieldHead) : FieldHead :=
  (takeConstraints { here with parserRequired := here.parserRequired || new.parserRequired } new
    []).1

/-- What stands somewhere after a read that may say something there. -/
def joinHeads : Option FieldHead → Option FieldHead → Option FieldHead
  | none, new => new
  | some here, none => some here
  | some here, some new => some (mergeHeads here new)

@[simp] theorem joinHeads_none (here : Option FieldHead) : joinHeads here none = here := by
  cases here <;> rfl

@[simp] theorem none_joinHeads (new : Option FieldHead) : joinHeads none new = new := rfl

theorem headAt_of_find_none {k : Identity} {fields : List ParsedField} (h : find k fields = none)
    (path : List Identity) : headAt k path fields = none := by
  cases path with
  | nil => rw [headAt, h, Option.map_none]
  | cons k' path => rw [headAt, h, Option.bind_none]

theorem headAt_nil (k : Identity) (path : List Identity) : headAt k path [] = none :=
  headAt_of_find_none rfl path

theorem headAt_congr {k : Identity} {fields fields' : List ParsedField}
    (h : find k fields = find k fields') (path : List Identity) :
    headAt k path fields = headAt k path fields' := by
  cases path with
  | nil => rw [headAt, headAt, h]
  | cons k' path => rw [headAt, headAt, h]

theorem headAt_cons_of_ne {k : Identity} {f : ParsedField} (h : f.identity ≠ k)
    (rest : List ParsedField) (path : List Identity) :
    headAt k path (f :: rest) = headAt k path rest :=
  headAt_congr (by rw [find_cons, if_neg h]) path

theorem headAt_cons_of_eq {k : Identity} {f : ParsedField} (h : f.identity = k)
    (rest : List ParsedField) (path : List Identity) :
    headAt k path (f :: rest) = headAt k path [f] :=
  headAt_congr (by rw [find_cons, if_pos h, find_cons, if_pos h]) path

theorem Plain.pairwise {k : Identity} {path : List Identity} {fields : List ParsedField}
    (h : Plain k path fields) : fields.Pairwise fun f g => f.identity = k → g.identity ≠ k := by
  cases path with
  | nil => exact h
  | cons k' path => exact h.1

theorem Plain.head {k : Identity} {path : List Identity} {f : ParsedField}
    {rest : List ParsedField} (h : Plain k path (f :: rest)) : Plain k path [f] := by
  cases path with
  | nil => exact List.pairwise_singleton ..
  | cons k' path =>
    refine ⟨List.pairwise_singleton .., fun g hg hk => ?_⟩
    rw [List.mem_singleton.mp hg] at hk ⊢
    exact h.2 f List.mem_cons_self hk

theorem Plain.tail {k : Identity} {path : List Identity} {f : ParsedField}
    {rest : List ParsedField} (h : Plain k path (f :: rest)) : Plain k path rest := by
  cases path with
  | nil => exact (List.pairwise_cons.mp h).2
  | cons k' path =>
    exact ⟨(List.pairwise_cons.mp h.1).2, fun g hg => h.2 g (List.mem_cons_of_mem f hg)⟩

theorem headAt_of_forall_ne {k : Identity} {fields : List ParsedField}
    (h : ∀ g ∈ fields, g.identity ≠ k) (path : List Identity) : headAt k path fields = none :=
  headAt_of_find_none (List.find?_eq_none.mpr fun g hg => by simpa using h g hg) path

/-- What a field says, or a field below it. -/
def headIn : List Identity → ParsedField → Option FieldHead
  | [], g => some g.head
  | k :: path, g => headAt k path g.kids

theorem headAt_eq (k : Identity) (path : List Identity) (fields : List ParsedField) :
    headAt k path fields = (find k fields).bind (headIn path) := by
  cases path with
  | nil => cases hf : find k fields <;> simp [headAt, headIn, hf]
  | cons k' path => rfl

theorem headAt_single {k : Identity} {f : ParsedField} (h : f.identity = k)
    (path : List Identity) : headAt k path [f] = headIn path f := by
  rw [headAt_eq, find_cons, if_pos h, Option.bind_some]

/-! ### One read -/

theorem mergeOrPush_new {into : List ParsedField} {f : ParsedField}
    (h : position f.identity into = none) (lost : List String) :
    mergeOrPush into f lost = (into ++ [f], lost) := by
  obtain ⟨head, children⟩ := f
  have hposition : position head.identity into = none := h
  rw [mergeOrPush, hposition]

/-- A read that repeats an earlier one is merged into it. -/
theorem mergeOrPush_old {into before after : List ParsedField} {f g : ParsedField}
    (h : position f.identity into = some (before, g, after)) (lost : List String) :
    ∃ existing : Option (List ParsedField),
      (mergeOrPush into f lost).1 =
        before ++ ParsedField.mk (mergeHeads g.head f.head) existing :: after ∧
      existing.getD [] = (mergeAll g.kids f.kids (lost ++ clashes g.head f.head)).1 ∧
      (mergeOrPush into f lost).2 = (mergeAll g.kids f.kids (lost ++ clashes g.head f.head)).2 := by
  obtain ⟨head, children⟩ := f
  obtain ⟨here, existing⟩ := g
  have hposition : position head.identity into = some (before, ⟨here, existing⟩, after) := h
  have hlost : ∀ required : Bool,
      (takeConstraints { here with parserRequired := required } head lost).2 =
        lost ++ clashes here head := fun _ => takeConstraints_lost ..
  rw [mergeOrPush, hposition]
  cases children with
  | none =>
    refine ⟨existing, ?_, ?_, ?_⟩
    · dsimp only
      rw [takeConstraints_head]
      rfl
    · exact (congrArg Prod.fst (mergeAll.eq_1 _ _)).symm
    · exact (hlost _).trans (congrArg Prod.snd (mergeAll.eq_1 _ _)).symm
  | some incoming =>
    refine ⟨some (mergeAll (existing.getD []) incoming (lost ++ clashes here head)).1, ?_, ?_, ?_⟩
    · dsimp only
      rw [takeConstraints_head, hlost]
      rfl
    · rfl
    · dsimp only
      rw [hlost]
      rfl

theorem find_replace_of_ne {k : Identity} {g g' : ParsedField} (hg : g.identity ≠ k)
    (hg' : g'.identity ≠ k) (before after : List ParsedField) :
    find k (before ++ g' :: after) = find k (before ++ g :: after) := by
  rw [find, find, List.find?_append, List.find?_append]
  congr 1
  exact (find_cons k g' after).trans ((if_neg hg').trans ((find_cons k g after).trans
    (if_neg hg)).symm)

/-- Where a field was merged, what stands along a path is what stood there and what the read says
there. -/
theorem headAt_replace {k : Identity} {path : List Identity} {before after : List ParsedField}
    {f g g' : ParsedField} (hg : g.identity = f.identity) (hg' : g'.identity = f.identity)
    (hbefore : find f.identity before = none)
    (hin : f.identity = k → headIn path g' = joinHeads (headIn path g) (headIn path f)) :
    headAt k path (before ++ g' :: after) =
      joinHeads (headAt k path (before ++ g :: after)) (headAt k path [f]) := by
  by_cases hk : f.identity = k
  · subst hk
    rw [headAt_single rfl, headAt_eq, headAt_eq, find_append_of_none hbefore,
      find_append_of_none hbefore, find_cons, find_cons, if_pos hg, if_pos hg', Option.bind_some,
      Option.bind_some, hin rfl]
  · rw [headAt_cons_of_ne hk, headAt_nil, joinHeads_none]
    exact headAt_congr (find_replace_of_ne (hg ▸ hk) (hg' ▸ hk) before after) path

theorem headAt_push {k : Identity} {into : List ParsedField} {f : ParsedField}
    (h : find f.identity into = none) (path : List Identity) :
    headAt k path (into ++ [f]) = joinHeads (headAt k path into) (headAt k path [f]) := by
  by_cases hk : f.identity = k
  · subst hk
    rw [headAt_of_find_none h, none_joinHeads]
    exact headAt_congr (find_append_of_none h [f]) path
  · rw [headAt_cons_of_ne hk, headAt_nil, joinHeads_none]
    refine headAt_congr ?_ path
    rw [find, List.find?_append, ← find, ← find, find_cons, if_neg hk]
    exact Option.or_none

/-! ### What stands after the reads -/

/-- What reads that may say something at a place say there together. -/
theorem headAt_cons {k : Identity} {path : List Identity} {f : ParsedField}
    {rest : List ParsedField} (h : Plain k path (f :: rest)) (here : Option FieldHead) :
    joinHeads here (headAt k path (f :: rest)) =
      joinHeads (joinHeads here (headAt k path [f])) (headAt k path rest) := by
  by_cases hk : f.identity = k
  · have hrest : ∀ g ∈ rest, g.identity ≠ k := fun g hg =>
      (List.pairwise_cons.mp h.pairwise).1 g hg hk
    rw [headAt_cons_of_eq hk, headAt_of_forall_ne hrest, joinHeads_none]
  · rw [headAt_cons_of_ne hk, headAt_cons_of_ne hk, headAt_nil,
      joinHeads_none]

mutual

/-- **One read.**  What stands at a place after it is what stood there and what it says there. -/
theorem headAt_mergeOrPush : ∀ (into : List ParsedField) (f : ParsedField) (lost : List String)
    {k : Identity} {path : List Identity}, Plain k path [f] →
      headAt k path (mergeOrPush into f lost).1 =
        joinHeads (headAt k path into) (headAt k path [f])
  | into, ⟨head, children⟩, lost, k, path, h => by
    cases hposition : position head.identity into with
    | none =>
      rw [mergeOrPush_new (f := ⟨head, children⟩) hposition]
      exact headAt_push (f := ⟨head, children⟩) (position_eq_none hposition) path
    | some found =>
      obtain ⟨before, g, after⟩ := found
      obtain ⟨rfl, hg, hbefore⟩ := position_eq_some hposition
      obtain ⟨existing, hmerged, hkids, -⟩ :=
        mergeOrPush_old (f := ⟨head, children⟩) hposition lost
      rw [hmerged]
      refine headAt_replace (f := ⟨head, children⟩) hg hg hbefore fun hk => ?_
      cases path with
      | nil => rfl
      | cons k' path =>
        have hplain : Plain k' path (children.getD []) := h.2 _ (List.mem_singleton.mpr rfl) hk
        show headAt k' path (existing.getD []) =
          joinHeads (headAt k' path g.kids) (headAt k' path (children.getD []))
        rw [hkids]
        cases children with
        | none => exact headAt_mergeAll g.kids [] _ hplain
        | some incoming => exact headAt_mergeAll g.kids incoming _ hplain

theorem headAt_mergeAll : ∀ (into reads : List ParsedField) (lost : List String)
    {k : Identity} {path : List Identity}, Plain k path reads →
      headAt k path (mergeAll into reads lost).1 =
        joinHeads (headAt k path into) (headAt k path reads)
  | into, [], lost, k, path, _ => by
    rw [mergeAll, headAt_nil, joinHeads_none]
  | into, f :: rest, lost, k, path, h => by
    rw [mergeAll, headAt_mergeAll _ rest _ h.tail, headAt_mergeOrPush into f lost h.head,
      headAt_cons h]

end

/-! ### Which paths the merged tree has -/

/-- Whether a field has the path below it. -/
def PathIn : List Identity → ParsedField → Prop
  | [], _ => True
  | k :: path, g => HasPath k path g.kids

theorem hasPath_iff {k : Identity} {path : List Identity} {fields : List ParsedField} :
    HasPath k path fields ↔ ∃ g ∈ fields, g.identity = k ∧ PathIn path g := by
  cases path with
  | nil => simp only [HasPath, PathIn, and_true]
  | cons k' path => exact Iff.rfl

theorem hasPath_append {k : Identity} {path : List Identity} {front back : List ParsedField} :
    HasPath k path (front ++ back) ↔ HasPath k path front ∨ HasPath k path back := by
  simp only [hasPath_iff, List.mem_append, or_and_right, exists_or]

theorem hasPath_cons {k : Identity} {path : List Identity} {f : ParsedField}
    {rest : List ParsedField} :
    HasPath k path (f :: rest) ↔ HasPath k path [f] ∨ HasPath k path rest := by
  rw [← List.singleton_append, hasPath_append]

theorem hasPath_middle {k : Identity} {path : List Identity} {f : ParsedField}
    {before after : List ParsedField} :
    HasPath k path (before ++ f :: after) ↔
      HasPath k path before ∨ HasPath k path [f] ∨ HasPath k path after := by
  rw [hasPath_append, hasPath_cons]

theorem hasPath_single {k : Identity} {path : List Identity} {f : ParsedField} :
    HasPath k path [f] ↔ f.identity = k ∧ PathIn path f := by
  simp only [hasPath_iff, List.mem_singleton, exists_eq_left]

theorem hasPath_merged {k : Identity} {path : List Identity} {f g : ParsedField}
    {existing : Option (List ParsedField)} (hg : g.identity = f.identity)
    (hin : PathIn path ⟨mergeHeads g.head f.head, existing⟩ ↔ PathIn path g ∨ PathIn path f) :
    HasPath k path [⟨mergeHeads g.head f.head, existing⟩] ↔
      HasPath k path [g] ∨ HasPath k path [f] := by
  have hidentity : (ParsedField.mk (mergeHeads g.head f.head) existing).identity = f.identity := hg
  rw [hasPath_single, hasPath_single, hasPath_single, hin, hidentity, hg, and_or_left]

theorem not_hasPath_nil {k : Identity} {path : List Identity} : ¬ HasPath k path [] := by
  simp [hasPath_iff]

mutual

theorem hasPath_mergeOrPush : ∀ (into : List ParsedField) (f : ParsedField) (lost : List String)
    {k : Identity} {path : List Identity},
      HasPath k path (mergeOrPush into f lost).1 ↔ HasPath k path into ∨ HasPath k path [f]
  | into, ⟨head, children⟩, lost, k, path => by
    cases hposition : position head.identity into with
    | none =>
      rw [mergeOrPush_new (f := ⟨head, children⟩) hposition]
      exact hasPath_append
    | some found =>
      obtain ⟨before, g, after⟩ := found
      obtain ⟨rfl, hg, -⟩ := position_eq_some hposition
      obtain ⟨existing, hmerged, hkids, -⟩ :=
        mergeOrPush_old (f := ⟨head, children⟩) hposition lost
      have hin : PathIn path ⟨mergeHeads g.head head, existing⟩ ↔
          PathIn path g ∨ PathIn path ⟨head, children⟩ := by
        cases path with
        | nil => exact ⟨fun _ => Or.inl trivial, fun _ => trivial⟩
        | cons k' path =>
          show HasPath k' path (existing.getD []) ↔
            HasPath k' path g.kids ∨ HasPath k' path (children.getD [])
          rw [hkids]
          cases children with
          | none => exact hasPath_mergeAll g.kids [] _
          | some incoming => exact hasPath_mergeAll g.kids incoming _
      rw [hmerged, hasPath_middle, hasPath_merged (f := ⟨head, children⟩) hg hin, hasPath_middle]
      tauto

/-- The merged tree has the paths of its reads, and no others. -/
theorem hasPath_mergeAll : ∀ (into reads : List ParsedField) (lost : List String)
    {k : Identity} {path : List Identity},
      HasPath k path (mergeAll into reads lost).1 ↔ HasPath k path into ∨ HasPath k path reads
  | into, [], lost, k, path => by
    rw [mergeAll]
    exact (or_iff_left not_hasPath_nil).symm
  | into, f :: rest, lost, k, path => by
    rw [mergeAll, hasPath_mergeAll _ rest, hasPath_mergeOrPush into f, or_assoc,
      ← hasPath_cons]

end

/-! ### Identities stay distinct -/

theorem identity_ne_of_find_none {k : Identity} {fields : List ParsedField}
    (h : find k fields = none) : k ∉ fields.map ParsedField.identity := by
  intro hk
  obtain ⟨g, hg, hgk⟩ := List.mem_map.mp hk
  simpa [hgk] using List.find?_eq_none.mp h g hg

theorem nodup_mergeOrPush {into : List ParsedField} (f : ParsedField) (lost : List String)
    (h : (into.map ParsedField.identity).Nodup) :
    ((mergeOrPush into f lost).1.map ParsedField.identity).Nodup := by
  cases hposition : position f.identity into with
  | none =>
    rw [mergeOrPush_new hposition, List.map_append]
    exact List.nodup_append.mpr ⟨h, List.nodup_singleton _, fun a ha b hb hab =>
      identity_ne_of_find_none (position_eq_none hposition)
        (List.mem_singleton.mp hb ▸ hab ▸ ha)⟩
  | some found =>
    obtain ⟨before, g, after⟩ := found
    obtain ⟨rfl, -, -⟩ := position_eq_some hposition
    obtain ⟨existing, hmerged, -, -⟩ := mergeOrPush_old hposition lost
    rw [hmerged, List.map_append, List.map_cons]
    rw [List.map_append, List.map_cons] at h
    exact h

theorem nodup_mergeAll : ∀ {into : List ParsedField} (reads : List ParsedField)
    (lost : List String), (into.map ParsedField.identity).Nodup →
      ((mergeAll into reads lost).1.map ParsedField.identity).Nodup
  | _, [], _, h => h
  | _, f :: rest, lost, h => nodup_mergeAll rest _ (nodup_mergeOrPush f lost h)

/-! ### Reports -/

mutual

theorem lost_mergeOrPush : ∀ (into : List ParsedField) (f : ParsedField) (lost : List String),
    lost ⊆ (mergeOrPush into f lost).2
  | into, ⟨head, children⟩, lost => by
    cases hposition : position head.identity into with
    | none => rw [mergeOrPush_new (f := ⟨head, children⟩) hposition]; exact fun _ h => h
    | some found =>
      obtain ⟨before, g, after⟩ := found
      obtain ⟨existing, -, -, hlost⟩ := mergeOrPush_old (f := ⟨head, children⟩) hposition lost
      rw [hlost]
      refine fun report h => ?_
      have hmem : report ∈ lost ++ clashes g.head head := List.mem_append_left _ h
      cases children with
      | none => exact lost_mergeAll g.kids [] _ hmem
      | some incoming => exact lost_mergeAll g.kids incoming _ hmem

/-- No report is taken back. -/
theorem lost_mergeAll : ∀ (into reads : List ParsedField) (lost : List String),
    lost ⊆ (mergeAll into reads lost).2
  | _, [], _ => fun _ h => h
  | into, f :: rest, lost => fun _ h =>
    lost_mergeAll _ rest _ (lost_mergeOrPush into f lost h)

end

/-- Whether a constraint on which two heads differ is reported. -/
def Reported (c : Constraint) (here new : Option FieldHead) (lost : List String) : Prop :=
  ∀ g h, here = some g → new = some h → ∀ a b, c.get g = some a → c.get h = some b → a ≠ b →
    mergeConflict c.label g.name ∈ lost

mutual

theorem reported_mergeOrPush (c : Constraint) :
    ∀ (into : List ParsedField) (f : ParsedField) (lost : List String) {k : Identity}
      {path : List Identity}, Plain k path [f] →
        Reported c (headAt k path into) (headAt k path [f]) (mergeOrPush into f lost).2
  | into, ⟨head, children⟩, lost, k, path, hplain => by
    intro g h hg hh a b ha hb hab
    by_cases hk : head.identity = k
    · subst hk
      cases hposition : position head.identity into with
      | none =>
        rw [headAt_of_find_none (position_eq_none hposition)] at hg
        cases hg
      | some found =>
        obtain ⟨before, old, after⟩ := found
        obtain ⟨rfl, hold, hbefore⟩ := position_eq_some hposition
        obtain ⟨existing, -, -, hlost⟩ :=
          mergeOrPush_old (f := ⟨head, children⟩) hposition lost
        rw [hlost]
        rw [headAt_eq, find_append_of_none hbefore, find_cons, if_pos hold, Option.bind_some] at hg
        have hh : headIn path ⟨head, children⟩ = some h :=
          (headAt_single (f := ⟨head, children⟩) rfl path).symm.trans hh
        cases path with
        | nil =>
          cases hg
          cases hh
          exact lost_mergeAll _ _ _ (List.mem_append_right _ (mem_clashes c ha hb hab))
        | cons k' path =>
          have hbelow : Plain k' path (children.getD []) :=
            hplain.2 _ (List.mem_singleton.mpr rfl) rfl
          cases children with
          | none => exact reported_mergeAll c old.kids [] _ hbelow g h hg hh a b ha hb hab
          | some incoming =>
            exact reported_mergeAll c old.kids incoming _ hbelow g h hg hh a b ha hb hab
    · rw [headAt_cons_of_ne (f := ⟨head, children⟩) hk, headAt_nil] at hh
      cases hh

theorem reported_mergeAll (c : Constraint) :
    ∀ (into reads : List ParsedField) (lost : List String) {k : Identity} {path : List Identity},
      Plain k path reads →
        Reported c (headAt k path into) (headAt k path reads) (mergeAll into reads lost).2
  | _, [], _, k, path, _ => by
    intro g h _ hh
    rw [headAt_nil] at hh
    cases hh
  | into, f :: rest, lost, k, path, hplain => by
    intro g h hg hh a b ha hb hab
    rw [mergeAll]
    by_cases hk : f.identity = k
    · rw [headAt_cons_of_eq hk] at hh
      exact lost_mergeAll _ _ _
        (reported_mergeOrPush c into f lost hplain.head g h hg hh a b ha hb hab)
    · rw [headAt_cons_of_ne hk] at hh
      have hstays : headAt k path (mergeOrPush into f lost).1 = some g := by
        rw [headAt_mergeOrPush into f lost hplain.head, headAt_cons_of_ne hk,
          headAt_nil, joinHeads_none, hg]
      exact reported_mergeAll c _ rest _ hplain.tail g h hstays hh a b ha hb hab

end

end Whatspec.Scan.Reads

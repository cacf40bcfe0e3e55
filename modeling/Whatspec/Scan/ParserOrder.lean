import Whatspec.Scan.ParserResolver

/-!
# The order in which parsers are asked for

Two disjunctions that have one another as a variant show what the cut does to a table: the one that
is asked first nests the other, and leaves the other remembered without what it nests.  Where no
parser leads back to itself the order does not show.

* `asksOf` are the questions a reading may ask, so that finitely many are reached;
* **`asks_alike`**: an answer does not depend on what was asked before, where no parser is read for
  the sake of itself and no two parsers have the same key;
* `not_alike_mutual` is the pair of disjunctions.
-/

namespace Whatspec.Scan.Parsers

open Whatspec.Library
open Whatspec.Scan.Cascades (Arm)

/-! ### What a reading asks for -/

/-- The questions about the arms of a disjunction. -/
def armQueries : List Arm → List Query
  | [] => []
  | (_, module, function) :: rest =>
    Query.resolve module function :: Query.assertions module function :: armQueries rest

section
variable {δ : Type} [Inhabited δ]

/-- A reading that asks only questions of a set, and is not aborted. -/
abbrev AsksIn {α : Type} (p : Reading δ α) (asked : Query → Prop) : Prop :=
  Meets (fun _ _ => True) asked True p fun _ => True

theorem asksIn_variantsOf : ∀ {arms : List Arm} {asked : Query → Prop},
    (∀ q ∈ armQueries arms, asked q) → AsksIn (variantsOf arms : Reading δ _) asked
  | [], _, _ => trivial
  | (name, module, function) :: rest, asked, h => by
    have hresolve : asked (Query.resolve module function) := h _ List.mem_cons_self
    have hassert : asked (Query.assertions module function) :=
      h _ (List.mem_cons_of_mem _ List.mem_cons_self)
    have hrest : AsksIn (variantsOf rest : Reading δ _) asked := asksIn_variantsOf fun q hq =>
      h q (List.mem_cons_of_mem _ (List.mem_cons_of_mem _ hq))
    refine ⟨hresolve, fun resolved _ => ⟨hassert, fun assertions _ => ?_⟩⟩
    show AsksIn ((variantsOf rest : Reading δ _) >>= _) asked
    exact meets_bind.mpr (hrest.mono (fun _ hq => hq) id fun _ _ => trivial)

variable (mods : Modules δ)

/-- The questions that a function of a module may ask. -/
def functionAsks (module slice name src : String) : List Query :=
  armQueries (refs mods src module) ++ mods.parserCalls src (mods.localFns slice) name

/-- The questions that a question may lead to at once. -/
def asksOf (module function : String) : List Query :=
  match parserSource mods module function with
  | none => []
  | some (slice, name, src) => functionAsks mods module slice name src

variable {mods}

omit [Inhabited δ] in
theorem asksIn_analyze {α : Type} (module slice name src : String)
    (f : Option (List ResponseAssertion × List (ParsedField δ)) → α) :
    AsksIn (do
        let analyzed ← mods.analyze src (mods.localFns slice) name
        pure (f analyzed))
      (· ∈ functionAsks mods module slice name src) :=
  meets_bind.mpr ((mods.analyze_meets src (mods.localFns slice) name).mono
    (fun _ hq => List.mem_append_right _ hq) id fun _ _ => trivial)

theorem asksIn_resolve (module function : String) :
    AsksIn (resolveUncached mods module function) (· ∈ asksOf mods module function) := by
  unfold resolveUncached asksOf
  cases parserSource mods module function with
  | none => exact trivial
  | some source =>
    obtain ⟨slice, name, src⟩ := source
    dsimp only
    split
    · have harms : AsksIn (analyzeDisjunction mods src module)
          (· ∈ functionAsks mods module slice name src) :=
        asksIn_variantsOf fun q hq => List.mem_append_left _ hq
      exact meets_bind.mpr (harms.mono (fun _ hq => hq) id fun _ _ => trivial)
    · exact asksIn_analyze module slice name src _

omit [Inhabited δ] in
theorem asksIn_assertions (module function : String) :
    AsksIn (assertionsUncached mods module function) (· ∈ asksOf mods module function) := by
  unfold assertionsUncached asksOf
  cases parserSource mods module function with
  | none => exact trivial
  | some source =>
    obtain ⟨slice, name, src⟩ := source
    dsimp only
    split
    · exact trivial
    · exact asksIn_analyze module slice name src _

variable (mods) in
/-- A reading asks only questions that its parser may lead to. -/
theorem asksIn_body : ∀ q : Query, ∃ module function,
    AsksIn (body mods q) (· ∈ asksOf mods module function)
  | .resolve module function => ⟨module, function, asksIn_resolve module function⟩
  | .assertions module function => ⟨module, function, asksIn_assertions module function⟩

/-! ### Finitely many questions are reached -/

theorem mem_of_lookup {key value : String} {entries : List (String × String)}
    (h : lookup key entries = some value) : (key, value) ∈ entries := by
  obtain ⟨entry, hfind, rfl⟩ := Option.map_eq_some_iff.mp h
  have hkey : entry.1 = key := by simpa using List.find?_some hfind
  exact hkey ▸ List.mem_of_find?_eq_some hfind

variable (mods) in
/-- All the questions that any function of a module may ask. -/
def allAsks : List Query :=
  mods.slices.flatMap fun (module, slice) =>
    (mods.localFns slice).flatMap fun (name, src) => functionAsks mods module slice name src

omit [Inhabited δ] in
theorem asksOf_subset (module function : String) : asksOf mods module function ⊆ allAsks mods := by
  unfold asksOf
  cases hsource : parserSource mods module function with
  | none => exact List.nil_subset _
  | some source =>
    obtain ⟨slice, name, src⟩ := source
    obtain ⟨slice', hslice, hrest⟩ := Option.bind_eq_some_iff.mp hsource
    obtain ⟨name', -, hrest⟩ := Option.bind_eq_some_iff.mp hrest
    obtain ⟨src', hsrc, heq⟩ := Option.bind_eq_some_iff.mp hrest
    cases heq
    intro q hq
    refine List.mem_flatMap.mpr ⟨(module, slice), mem_of_lookup hslice, ?_⟩
    exact List.mem_flatMap.mpr ⟨(name, src), mem_of_lookup hsrc, hq⟩

theorem body_safe (q : Query) : AsksIn (body mods q) fun _ => True := by
  obtain ⟨module, function, h⟩ := asksIn_body mods q
  exact h.mono (fun _ _ => trivial) id fun _ h => h

theorem asks_mem_allAsks {q d : Query} (h : Asks (body mods) (body mods q) d) :
    d ∈ allAsks mods := by
  have hcorrect : Correct (body mods) (fun _ => True) fun _ _ => True := fun c _ =>
    (body_safe c).mono (fun _ h => h) False.elim fun _ h => h
  obtain ⟨module, function, hasks⟩ := asksIn_body mods q
  exact asksOf_subset module function (meets_asks hcorrect (fun _ _ => trivial) hasks h)

theorem reaches_mem_allAsks {q d : Query} (h : Reaches (body mods) (body mods q) d) :
    d ∈ allAsks mods := by
  cases h with
  | asks h => exact asks_mem_allAsks h
  | step _ h => exact asks_mem_allAsks h

/-! ### Straight runs -/

variable (mods)

/-- The questions that some questions lead to, themselves among them. -/
def reached (queries : List Query) : Set Query :=
  {c | ∃ q ∈ queries, c = q ∨ Reaches (body mods) (body mods q) c}

/-- No parser is read for the sake of itself, and no two questions have the same key. -/
structure Straight (queries : List Query) : Prop where
  acyclic : ∀ q ∈ queries, ¬ Recurs (body mods) q
  keys : Set.InjOn Query.key (reached mods queries)

variable {mods}

theorem reached_subset (queries : List Query) {c : Query} (h : c ∈ reached mods queries) :
    c ∈ queries ++ allAsks mods := by
  obtain ⟨q, hq, rfl | hreach⟩ := h
  · exact List.mem_append_left _ hq
  · exact List.mem_append_right _ (reaches_mem_allAsks hreach)

theorem reached_finite (queries : List Query) : (reached mods queries).Finite :=
  (List.finite_toSet (queries ++ allAsks mods)).subset fun _ => reached_subset queries

theorem reached_closed (queries : List Query) : Closed (body mods) (reached mods queries) := by
  rintro c ⟨q, hq, rfl | hreach⟩ d hd
  · exact ⟨c, hq, Or.inr (.asks hd)⟩
  · exact ⟨q, hq, Or.inr (.step hreach hd)⟩

/-- Where the questions are answered within some depth, and all that may be asked have keys of their
own, the run is straight. -/
theorem straight_of_answer {mods : Modules δ} {queries : List Query} (n : ℕ)
    (hreturns : ∀ q ∈ queries, (answer (body mods) n q).isSome)
    (hkeys : ∀ c ∈ queries ++ allAsks mods, ∀ d ∈ queries ++ allAsks mods,
      c.key = d.key → c = d) : Straight mods queries where
  acyclic q hq := by
    obtain ⟨r, hr⟩ := Option.isSome_iff_exists.mp (hreturns q hq)
    have hreturn : Returns (body mods) (body mods q) r :=
      returns_iff_exec.mpr ⟨n, answer_succ hr⟩
    exact hreturn.not_recurs
  keys c hc d hd := hkeys c (reached_subset queries hc) d (reached_subset queries hd)

/-- **The order does not show** where no parser is read for the sake of itself. -/
theorem asks_alike (mods : Modules δ) (earlier : List Query) (q : Query)
    (h : Straight mods (q :: earlier)) : AnswersAlike mods earlier q := by
  have hmem : ∀ d ∈ q :: earlier, d ∈ reached mods (q :: earlier) := fun d hd =>
    ⟨d, hd, Or.inl rfl⟩
  have hearlier : ∀ d ∈ earlier, d ∈ reached mods (q :: earlier) ∧ ¬ Recurs (body mods) d :=
    fun d hd => ⟨hmem d (List.mem_cons_of_mem q hd), h.acyclic d (List.mem_cons_of_mem q hd)⟩
  obtain ⟨resolver, answer, r₁, r₂, hasked, hlate, hfresh⟩ := asked_alike cut
    (reached_finite (q :: earlier)) (reached_closed (q :: earlier)) body_safe h.keys hearlier
    (hmem q List.mem_cons_self) (h.acyclic q List.mem_cons_self)
  exact ⟨resolver, answer, r₁, r₂, hasked, hlate, hfresh⟩

end

/-! ### Two disjunctions that have one another as a variant -/

/-- A disjunction of the one variant `Bar`. -/
def fooText : String := "function e(e)\x7bvar t=o(\"WASmaxInBar\").parseBar(e);return t.success?" ++
  "\x7bname:\"Bar\",value:t.value\x7d:o(\"U\").errorMixinDisjunction(e,[\"Bar\"],[t])\x7d"

/-- A disjunction of the one variant `Foo`. -/
def barText : String := "function e(e)\x7bvar t=o(\"WASmaxInFoo\").parseFoo(e);return t.success?" ++
  "\x7bname:\"Foo\",value:t.value\x7d:o(\"U\").errorMixinDisjunction(e,[\"Foo\"],[t])\x7d"

/-- The module of a disjunction. -/
def moduleText (name text : String) : String :=
  "__d(\"WASmaxIn" ++ name ++ "\",[],(function(t,n,r,o,a,i,l)\x7b" ++ text ++ "l.parse" ++ name ++
    "=e\x7d),98);"

/-- The modules `WASmaxInFoo` and `WASmaxInBar`. -/
def mutualModules : Modules Unit where
  slices := [("WASmaxInFoo", moduleText "Foo" fooText), ("WASmaxInBar", moduleText "Bar" barText)]
  localFns slice :=
    if slice = moduleText "Foo" fooText then [("e", fooText)]
    else if slice = moduleText "Bar" barText then [("e", barText)]
    else []
  exportsOf slice :=
    if slice = moduleText "Foo" fooText then [("parseFoo", "e")]
    else if slice = moduleText "Bar" barText then [("parseBar", "e")]
    else []
  scanLocalCascade _ _ _ := []
  analyze _ _ _ := pure none
  parserCalls _ _ _ := []
  analyze_meets _ _ _ := trivial

def parseFoo : Query := .resolve "WASmaxInFoo" "parseFoo"

def parseBar : Query := .resolve "WASmaxInBar" "parseBar"

/-- Without `Bar`, a run that asks for both is straight. -/
theorem asks_alike_foo :
    AnswersAlike { mutualModules with slices := [("WASmaxInFoo", moduleText "Foo" fooText)] }
      [parseBar] parseFoo :=
  asks_alike _ _ _ (straight_of_answer 3 (by decide +kernel) (by decide +kernel))

/-- How many fields the variants of an answer have. -/
def variantSizes {δ : Type} : Option (Resolved δ) → List ℕ
  | some (.union variants) => variants.map fun | .mk _ fields _ => fields.length
  | _ => []

/-- A fresh resolver nests the fields of `Bar` in `Foo`; after `Bar` it remembers `Foo` without
them. -/
theorem fresh_and_late_foo :
    ((memoCall (body mutualModules) cut 4 parseFoo .empty).map
      fun x => variantSizes x.1) = some [1] ∧
    ((memoCall (body mutualModules) cut 4 parseBar .empty).bind fun x =>
      (memoCall (body mutualModules) cut 4 parseFoo x.2).map
        fun y => variantSizes y.1) = some [0] := by
  decide +kernel

theorem not_alike_mutual : ¬ AnswersAlike mutualModules [parseBar] parseFoo := by
  rintro ⟨resolver, answer, r₁, r₂, hasked, hlate, hfresh⟩
  obtain ⟨hfreshSizes, hlateSizes⟩ := fresh_and_late_foo
  obtain ⟨x, hx, hsize⟩ := Option.map_eq_some_iff.mp hfreshSizes
  obtain ⟨y, hy, hrest⟩ := Option.bind_eq_some_iff.mp hlateSizes
  obtain ⟨z, hz, hsize'⟩ := Option.map_eq_some_iff.mp hrest
  cases hasked with
  | cons hbar hnil =>
    cases hnil
    have hbar' := hbar.eq_of_memoCall hy
    have hfresh' := hfresh.eq_of_memoCall hx
    subst hbar' hfresh'
    have hlate' := hlate.eq_of_memoCall hz
    subst hlate'
    have hsame : [1] = [0] := hsize.symm.trans hsize'
    exact absurd hsame (by decide)

end Whatspec.Scan.Parsers

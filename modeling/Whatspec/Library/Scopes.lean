import Mathlib.Data.List.Basic

/-!
# Looking a dotted name up in nested scopes

Declarations have a name and declare others inside.  A reference is looked up from the
innermost scope outwards: the first scope that declares its first segment decides, and the
rest is followed inside what was found there.  A name that a scope declares twice denotes
nothing.

* `resolve_cons`: one scope decides or passes the reference on;
* `declaredAs_map`, `within_map`: renaming nothing, a change of the declarations is
  invisible to lookups;
* `declaredAs_append`: a lookup among more declarations.
-/

namespace Whatspec.Library.Scopes

variable {δ ν : Type*} [DecidableEq ν] (name : δ → ν) (inside : δ → List δ)

/-- A scope: how it is reached from the root, and what it declares. -/
structure Scope (δ ν : Type*) where
  path : List ν
  decls : List δ

/-- The scope declares something of this name. -/
def declares (ds : List δ) (x : ν) : Bool := ds.any fun d => name d = x

/-- The only declaration of a name. -/
def declaredAs (ds : List δ) (x : ν) : Option δ :=
  match ds.filter fun d => name d = x with
  | [d] => some d
  | _ => none

/-- What a path leads to inside a declaration. -/
def within (d : δ) : List ν → Option δ
  | [] => some d
  | x :: rest => (declaredAs name (inside d) x).bind fun e => within e rest

/-- The full name a scope gives to a path, when it leads somewhere. -/
def lookup (s : Scope δ ν) (x : ν) (rest : List ν) : Option (List ν) :=
  ((declaredAs name s.decls x).bind fun d => within name inside d rest).map
    fun _ => s.path ++ x :: rest

/-- The full name of what a reference denotes, innermost scope first. -/
def resolve (scopes : List (Scope δ ν)) : List ν → Option (List ν)
  | [] => none
  | x :: rest =>
      match scopes.find? fun s => declares name s.decls x with
      | some s => lookup name inside s x rest
      | none => none

variable {name inside}

theorem resolve_cons (s : Scope δ ν) (scopes : List (Scope δ ν)) (x : ν) (rest : List ν) :
    resolve name inside (s :: scopes) (x :: rest) =
      if declares name s.decls x = true then lookup name inside s x rest
      else resolve name inside scopes (x :: rest) := by
  rw [resolve, resolve, List.find?_cons]
  cases declares name s.decls x <;> rfl

@[simp] theorem resolve_nil (x : ν) (rest : List ν) :
    resolve name inside ([] : List (Scope δ ν)) (x :: rest) = none := rfl

theorem declares_iff {ds : List δ} {x : ν} :
    declares name ds x = true ↔ ∃ d ∈ ds, name d = x := by
  rw [declares, List.any_eq_true]
  simp only [decide_eq_true_eq]

theorem mem_of_declaredAs {ds : List δ} {x : ν} {d : δ} (h : declaredAs name ds x = some d) :
    d ∈ ds ∧ name d = x ∧ ∀ e ∈ ds, name e = x → e = d := by
  unfold declaredAs at h
  cases hf : ds.filter fun d => name d = x with
  | nil =>
      rw [hf] at h
      cases h
  | cons e es =>
      rw [hf] at h
      cases es with
      | cons e' es => cases h
      | nil =>
          cases h
          have hmem : ∀ y, y ∈ ds.filter (fun d => name d = x) ↔ y = d := fun y => by
            rw [hf, List.mem_singleton]
          have hd := List.mem_filter.mp ((hmem d).mpr rfl)
          refine ⟨hd.1, of_decide_eq_true hd.2, fun y hy hname => ?_⟩
          exact (hmem y).mp (List.mem_filter.mpr ⟨hy, decide_eq_true hname⟩)

/-- A declaration whose name is there once is what its name denotes. -/
theorem declaredAs_of_mem {ds : List δ} (hnodup : (ds.map name).Nodup) {d : δ} (hd : d ∈ ds) :
    declaredAs name ds (name d) = some d := by
  have hfilter : (ds.filter fun e => name e = name d) = [d] := by
    induction ds with
    | nil => exact absurd hd List.not_mem_nil
    | cons e es ih =>
        obtain ⟨hnew, hrest⟩ := List.nodup_cons.mp hnodup
        rw [List.filter_cons]
        cases List.mem_cons.mp hd with
        | inl heq =>
            subst heq
            have hnone : (es.filter fun e => name e = name d) = [] := by
              refine List.filter_eq_nil_iff.mpr fun f hf hname => ?_
              exact hnew (of_decide_eq_true hname ▸ List.mem_map_of_mem hf)
            rw [if_pos (decide_eq_true rfl), hnone]
        | inr hmem =>
            have hne : name e ≠ name d := fun heq => hnew (heq ▸ List.mem_map_of_mem hmem)
            rw [if_neg (by simpa using hne), ih hrest hmem]
  rw [declaredAs, hfilter]

theorem filter_of_not_declares {ds : List δ} {x : ν} (h : declares name ds x = false) :
    (ds.filter fun d => name d = x) = [] := by
  refine List.filter_eq_nil_iff.mpr fun d hd hname => ?_
  have hdecl := declares_iff.mpr ⟨d, hd, of_decide_eq_true hname⟩
  rw [h] at hdecl
  cases hdecl

theorem declaredAs_eq_none {ds : List δ} {x : ν} (h : declares name ds x = false) :
    declaredAs name ds x = none := by
  rw [declaredAs, filter_of_not_declares h]

theorem declares_of_declaredAs {ds : List δ} {x : ν} {d : δ}
    (h : declaredAs name ds x = some d) : declares name ds x = true :=
  declares_iff.mpr ⟨d, (mem_of_declaredAs h).1, (mem_of_declaredAs h).2.1⟩

/-! ### Changing the declarations -/

theorem declares_map {f : δ → δ} (hname : ∀ d, name (f d) = name d) (ds : List δ) (x : ν) :
    declares name (ds.map f) x = declares name ds x := by
  rw [declares, declares, List.any_map]
  refine congrArg ds.any (funext fun d => ?_)
  rw [Function.comp_apply, hname]

/-- **A change that keeps the names keeps what they denote.** -/
theorem declaredAs_map {f : δ → δ} (hname : ∀ d, name (f d) = name d) (ds : List δ) (x : ν) :
    declaredAs name (ds.map f) x = (declaredAs name ds x).map f := by
  have hcomp : ((fun d => decide (name d = x)) ∘ f) = fun d => decide (name d = x) :=
    funext fun d => by rw [Function.comp_apply, hname]
  rw [declaredAs, declaredAs, List.filter_map, hcomp]
  cases ds.filter fun d => name d = x with
  | nil => rfl
  | cons d rest =>
      cases rest with
      | nil => rfl
      | cons e rest => rfl

theorem within_map {f : δ → δ} (hname : ∀ d, name (f d) = name d)
    (hinside : ∀ d, inside (f d) = (inside d).map f) (path : List ν) (d : δ) :
    within name inside (f d) path = (within name inside d path).map f := by
  induction path generalizing d with
  | nil => rfl
  | cons x rest ih =>
      rw [within, within, hinside, declaredAs_map hname]
      cases declaredAs name (inside d) x with
      | none => rfl
      | some e => exact ih e

theorem declares_append (ds es : List δ) (x : ν) :
    declares name (ds ++ es) x = (declares name ds x || declares name es x) := by
  rw [declares, declares, declares, List.any_append]

theorem declaredAs_append_left {ds es : List δ} {x : ν} (h : declares name es x = false) :
    declaredAs name (ds ++ es) x = declaredAs name ds x := by
  rw [declaredAs, declaredAs, List.filter_append, filter_of_not_declares h, List.append_nil]

theorem declaredAs_append_right {ds es : List δ} {x : ν} (h : declares name ds x = false) :
    declaredAs name (ds ++ es) x = declaredAs name es x := by
  rw [declaredAs, declaredAs, List.filter_append, filter_of_not_declares h, List.nil_append]

/-- A name declared on both sides denotes nothing. -/
theorem declaredAs_append_both {ds es : List δ} {x : ν} (hds : declares name ds x = true)
    (hes : declares name es x = true) : declaredAs name (ds ++ es) x = none := by
  have hne : ∀ l : List δ, declares name l x = true → (l.filter fun d => name d = x) ≠ [] := by
    intro l hl hnil
    obtain ⟨d, hd, hname⟩ := declares_iff.mp hl
    have hmem : d ∈ l.filter fun d => name d = x :=
      List.mem_filter.mpr ⟨hd, decide_eq_true hname⟩
    rw [hnil] at hmem
    exact List.not_mem_nil hmem
  rw [declaredAs, List.filter_append]
  cases h1 : ds.filter fun d => name d = x with
  | nil => exact absurd h1 (hne ds hds)
  | cons d rest =>
      cases h2 : es.filter fun d => name d = x with
      | nil => exact absurd h2 (hne es hes)
      | cons e rest' =>
          cases rest with
          | nil => rfl
          | cons d' rest => rfl

end Whatspec.Library.Scopes

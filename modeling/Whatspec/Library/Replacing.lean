import Mathlib.Data.List.Basic

/-!
# Replacing what a pattern finds

A pattern is asked at one place of a text after the other.  Where it finds something the search
goes on behind it, elsewhere one element further.

* `scan` cuts a text into what is found and the elements between, and `render` puts it together;
* `Settled` are the pieces that a scan may give, by what the pattern says of the text from each of
  them on: **`settled_scan`** and **`scan_render`**.  So whether another text is cut in the same way
  is asked piece by piece.
-/

namespace Whatspec.Library

/-- What stands at the beginning of a text, with what is left of it. -/
structure Pattern (α ε : Type) where
  find : List α → Option (ε × List α)
  text : ε → List α
  find_eq : ∀ {cs rest : List α} {e : ε}, find cs = some (e, rest) → cs = text e ++ rest
  text_ne_nil : ∀ {cs rest : List α} {e : ε}, find cs = some (e, rest) → text e ≠ []

/-- A part of a text. -/
inductive Piece (α ε : Type) where
  | plain (c : α)
  | found (e : ε)

namespace Pattern

variable {α ε : Type} (p : Pattern α ε)

theorem length_rest_lt {cs rest : List α} {e : ε} (h : p.find cs = some (e, rest)) :
    rest.length < cs.length := by
  have hpos := List.length_pos_of_ne_nil (p.text_ne_nil h)
  rw [p.find_eq h, List.length_append]
  omega

/-- The pieces of a text. -/
def scan : List α → List (Piece α ε)
  | [] => []
  | c :: cs =>
    match _h : p.find (c :: cs) with
    | some (e, rest) => .found e :: scan rest
    | none => .plain c :: scan cs
termination_by cs => cs.length
decreasing_by
  · exact p.length_rest_lt _h
  · exact Nat.lt_succ_self _

/-- The text of a piece, with what stands for what was found. -/
def write (f : ε → List α) : Piece α ε → List α
  | .plain c => [c]
  | .found e => f e

def render (ps : List (Piece α ε)) : List α := ps.flatMap (write p.text)

/-- Everything that is found, replaced. -/
def replaceAll (f : ε → List α) (cs : List α) : List α := (p.scan cs).flatMap (write f)

/-- What is found, in the order of the text. -/
def foundIn (ps : List (Piece α ε)) : List ε := ps.filterMap fun
  | .plain _ => none
  | .found e => some e

theorem flatMap_write_congr {f g : ε → List α} {ps : List (Piece α ε)}
    (h : ∀ e ∈ foundIn ps, f e = g e) : ps.flatMap (write f) = ps.flatMap (write g) := by
  induction ps with
  | nil => rfl
  | cons piece ps ih =>
    cases piece with
    | plain c => exact congrArg (c :: ·) (ih h)
    | found e =>
      have hrest := ih fun e he => h e (List.mem_cons_of_mem _ he)
      show f e ++ ps.flatMap (write f) = g e ++ ps.flatMap (write g)
      rw [h e List.mem_cons_self, hrest]

/-- Pieces that the pattern finds where they stand. -/
inductive Settled : List (Piece α ε) → Prop
  | nil : Settled []
  | plain {c : α} {ps : List (Piece α ε)} :
      p.find (c :: p.render ps) = none → Settled ps → Settled (.plain c :: ps)
  | found {e : ε} {ps : List (Piece α ε)} :
      p.find (p.text e ++ p.render ps) = some (e, p.render ps) → Settled ps →
        Settled (.found e :: ps)

variable {p}

theorem scan_of_find {cs rest : List α} {e : ε} (h : p.find cs = some (e, rest))
    (hne : cs ≠ []) : p.scan cs = .found e :: p.scan rest := by
  cases cs with
  | nil => exact absurd rfl hne
  | cons c cs =>
    rw [scan]
    split
    · next heq =>
      rw [h] at heq
      cases heq
      rfl
    · next heq =>
      rw [h] at heq
      cases heq

theorem scan_of_none {c : α} {cs : List α} (h : p.find (c :: cs) = none) :
    p.scan (c :: cs) = .plain c :: p.scan cs := by
  rw [scan]
  split
  · next heq =>
    rw [h] at heq
    cases heq
  · rfl

/-- The pieces of a text are settled, and are the text. -/
theorem settled_scan_aux : ∀ cs : List α, p.Settled (p.scan cs) ∧ p.render (p.scan cs) = cs := by
  intro cs
  induction hn : cs.length using Nat.strongRecOn generalizing cs with
  | ind n ih =>
    subst hn
    cases cs with
    | nil =>
      rw [scan]
      exact ⟨.nil, rfl⟩
    | cons c cs =>
      cases hfind : p.find (c :: cs) with
      | none =>
        obtain ⟨hsettled, hrender⟩ := ih cs.length (Nat.lt_succ_self _) cs rfl
        rw [scan_of_none hfind]
        refine ⟨.plain ?_ hsettled, ?_⟩
        · rwa [hrender]
        · exact congrArg (c :: ·) hrender
      | some found =>
        obtain ⟨e, rest⟩ := found
        obtain ⟨hsettled, hrender⟩ := ih rest.length (p.length_rest_lt hfind) rest rfl
        have htext := p.find_eq hfind
        rw [scan_of_find hfind (List.cons_ne_nil c cs)]
        refine ⟨.found ?_ hsettled, ?_⟩
        · rw [hrender, ← htext, hfind]
        · exact (congrArg (p.text e ++ ·) hrender).trans htext.symm

/-- **The pieces of a text are found where they stand.** -/
theorem settled_scan (cs : List α) : p.Settled (p.scan cs) := (settled_scan_aux cs).1

theorem render_scan (cs : List α) : p.render (p.scan cs) = cs := (settled_scan_aux cs).2

/-- **Settled pieces are the pieces of their text.** -/
theorem scan_render {ps : List (Piece α ε)} (h : p.Settled ps) : p.scan (p.render ps) = ps := by
  induction h with
  | nil =>
    show p.scan [] = []
    rw [scan]
  | @plain c ps hfind _ ih =>
    show p.scan (c :: p.render ps) = _
    rw [scan_of_none hfind, ih]
  | @found e ps hfind _ ih =>
    have hne : p.text e ++ p.render ps ≠ [] := fun h =>
      p.text_ne_nil hfind (List.append_eq_nil_iff.mp h).1
    show p.scan (p.text e ++ p.render ps) = _
    rw [scan_of_find hfind hne, ih]

end Pattern

end Whatspec.Library

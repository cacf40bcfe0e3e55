import Mathlib.Data.List.Perm.Basic

/-!
# Maps from a key to a stack of values, and matching a demand against one

A map whose values are growable vectors, in the use a program makes of it: `push` adds a
value under a key, `pop` takes the last value added under one.  The entries are kept in
the order they were pushed, which is all the two operations depend on.

* `pop_perm`: a pop takes exactly one entry out;
* `drain` answers a list of keys, one pop a key; `drain_perm` says that what it hands out
  and what is left are the entries it started from;
* `drain_exhausts`: when as many keys are asked for as there are entries, nothing is left.
-/

namespace Whatspec.Library.Multimap

variable {κ β : Type} [DecidableEq κ]

/-- Add a value under a key. -/
def push (m : List (κ × β)) (k : κ) (v : β) : List (κ × β) := m ++ [(k, v)]

/-- The map with one entry pushed for each item, in order. -/
def collect (items : List (κ × β)) : List (κ × β) :=
  items.foldl (fun m e => push m e.1 e.2) []

/-- Take the last value added under a key. -/
def pop (m : List (κ × β)) (k : κ) : Option (β × List (κ × β)) :=
  match m with
  | [] => none
  | (k', v) :: rest =>
      match pop rest k with
      | some (v', rest') => some (v', (k', v) :: rest')
      | none => if k = k' then some (v, rest) else none

/-- One pop for each key of a list, in order; nothing when a pop fails. -/
def drain (m : List (κ × β)) : List κ → Option (List β × List (κ × β))
  | [] => some ([], m)
  | k :: ks =>
      match pop m k with
      | none => none
      | some (v, m') =>
          match drain m' ks with
          | none => none
          | some (vs, rest) => some (v :: vs, rest)

omit [DecidableEq κ] in
theorem collect_eq (items : List (κ × β)) : collect items = items := by
  have hfold : ∀ (items acc : List (κ × β)),
      items.foldl (fun m e => push m e.1 e.2) acc = acc ++ items := by
    intro items
    induction items with
    | nil => intro acc; exact (List.append_nil acc).symm
    | cons e items ih =>
        intro acc
        rw [List.foldl_cons, ih, push, List.append_assoc]
        rfl
  exact hfold items []

/-- **A pop takes one entry of its key out.** -/
theorem pop_perm {m m' : List (κ × β)} {k : κ} {v : β} (h : pop m k = some (v, m')) :
    m.Perm ((k, v) :: m') := by
  induction m generalizing m' with
  | nil => cases h
  | cons e rest ih =>
      obtain ⟨k', w⟩ := e
      rw [pop] at h
      cases hrest : pop rest k with
      | some p =>
          obtain ⟨v', rest'⟩ := p
          rw [hrest] at h
          cases h
          exact ((ih hrest).cons (k', w)).trans (List.Perm.swap _ _ _)
      | none =>
          rw [hrest] at h
          by_cases hk : k = k'
          · rw [if_pos hk] at h
            cases h
            rw [hk]
          · rw [if_neg hk] at h
            cases h

/-- **What is handed out and what is left make up the map.** -/
theorem drain_perm {m rest : List (κ × β)} {ks : List κ} {vs : List β}
    (h : drain m ks = some (vs, rest)) :
    vs.length = ks.length ∧ m.Perm (ks.zip vs ++ rest) := by
  induction ks generalizing m vs with
  | nil => cases h; exact ⟨rfl, List.Perm.refl _⟩
  | cons k ks ih =>
      rw [drain] at h
      cases hpop : pop m k with
      | none => rw [hpop] at h; cases h
      | some p =>
          obtain ⟨v, m'⟩ := p
          rw [hpop] at h
          simp only at h
          cases hrest : drain m' ks with
          | none => rw [hrest] at h; cases h
          | some q =>
              obtain ⟨vs', rest'⟩ := q
              rw [hrest] at h
              cases h
              obtain ⟨hlen, hperm⟩ := ih hrest
              refine ⟨congrArg (· + 1) hlen, ?_⟩
              exact (pop_perm hpop).trans (hperm.cons (k, v))

/-- **Nothing is left of a map drained by as many keys as it has entries.** -/
theorem drain_exhausts {m rest : List (κ × β)} {ks : List κ} {vs : List β}
    (h : drain m ks = some (vs, rest)) (hlen : ks.length = m.length) :
    m.Perm (ks.zip vs) := by
  obtain ⟨hvs, hperm⟩ := drain_perm h
  have hcount := hperm.length_eq
  rw [List.length_append, List.length_zip, hvs, Nat.min_self, hlen] at hcount
  have hrest : rest = [] := List.eq_nil_of_length_eq_zero (by omega)
  rw [hrest, List.append_nil] at hperm
  exact hperm

end Whatspec.Library.Multimap

import Mathlib.Data.List.Nodup
import Mathlib.Data.List.Perm.Basic

/-!
# Lists made of pieces

A list that is the concatenation of one piece for each of some keys, when every element tells
the key of its piece.  `flatMap_pieces` takes two such lists apart; `perm_of_filter_eq` puts a
list together from its pieces, in some order; `nodup_map_flatMap` says that nothing in it comes
twice.
-/

namespace Whatspec.Library

variable {κ α γ : Type*}

/-- The elements that belong to a key are its piece. -/
theorem filter_flatMap_piece (belongs : κ → γ → Prop) [∀ k, DecidablePred (belongs k)]
    [DecidableEq κ] {keys : List κ} (hnodup : keys.Nodup) {f : κ → List γ}
    (hf : ∀ k, ∀ c ∈ f k, ∀ k', belongs k' c ↔ k' = k) (k : κ) :
    (keys.flatMap f).filter (fun c => belongs k c) = if k ∈ keys then f k else [] := by
  induction keys with
  | nil => rfl
  | cons k' rest ih =>
      obtain ⟨hnew, hrest⟩ := List.nodup_cons.mp hnodup
      rw [List.flatMap_cons, List.filter_append, ih hrest]
      by_cases hk : k = k'
      · subst hk
        have hall : (f k).filter (fun c => belongs k c) = f k := by
          apply List.filter_eq_self.mpr
          exact fun c hc => decide_eq_true ((hf k c hc k).mpr rfl)
        rw [hall, if_neg hnew, List.append_nil, if_pos List.mem_cons_self]
      · have hnone : (f k').filter (fun c => belongs k c) = [] := by
          apply List.filter_eq_nil_iff.mpr
          exact fun c hc hb => hk ((hf k' c hc k).mp (of_decide_eq_true hb))
        rw [hnone, List.nil_append]
        by_cases hmem : k ∈ rest
        · rw [if_pos hmem, if_pos (List.mem_cons_of_mem _ hmem)]
        · rw [if_neg hmem, if_neg (List.not_mem_cons_of_ne_of_not_mem hk hmem)]

/-- **Equal lists have equal pieces.** -/
theorem flatMap_pieces (belongs : κ → γ → Prop) {keys keys' : List κ} (hnodup : keys.Nodup)
    (hnodup' : keys'.Nodup) {f g : κ → List γ}
    (hf : ∀ k, ∀ c ∈ f k, ∀ k', belongs k' c ↔ k' = k)
    (hg : ∀ k, ∀ c ∈ g k, ∀ k', belongs k' c ↔ k' = k)
    (hmiss : ∀ k, k ∉ keys → f k = []) (hmiss' : ∀ k, k ∉ keys' → g k = [])
    (h : keys.flatMap f = keys'.flatMap g) (k : κ) : f k = g k := by
  classical
  have hkeys := filter_flatMap_piece belongs hnodup hf k
  have hkeys' := filter_flatMap_piece belongs hnodup' hg k
  rw [h, hkeys'] at hkeys
  by_cases hk : k ∈ keys <;> by_cases hk' : k ∈ keys'
  · rw [if_pos hk, if_pos hk'] at hkeys
    exact hkeys.symm
  · rw [if_pos hk, if_neg hk'] at hkeys
    rw [← hkeys, hmiss' k hk']
  · rw [if_neg hk, if_pos hk'] at hkeys
    rw [hkeys, hmiss k hk]
  · rw [hmiss k hk, hmiss' k hk']

/-- Lists are told by an image from which their elements are restored. -/
theorem eq_of_map_eq {f : α → γ} {restore : γ → α} {xs ys : List α}
    (hxs : ∀ x ∈ xs, restore (f x) = x) (hys : ∀ y ∈ ys, restore (f y) = y)
    (h : xs.map f = ys.map f) : xs = ys := by
  have hback : ∀ {zs : List α}, (∀ z ∈ zs, restore (f z) = z) → (zs.map f).map restore = zs := by
    intro zs hzs
    rw [List.map_map]
    exact (List.map_congr_left hzs).trans (List.map_id _)
  rw [← hback hxs, h, hback hys]

/-- **Lists with the same elements under every key have the same elements.** -/
theorem perm_of_filter_eq [DecidableEq α] [DecidableEq κ] (key : α → κ) {xs ys : List α}
    (h : ∀ k, xs.filter (fun x => key x = k) = ys.filter fun x => key x = k) : xs.Perm ys := by
  rw [List.perm_iff_count]
  intro x
  have hcount : ∀ zs : List α,
      zs.count x = (zs.filter fun z => key z = key x).count x := fun zs =>
    (@List.count_filter _ _ _ (fun z => decide (key z = key x)) x zs (decide_eq_true rfl)).symm
  rw [hcount xs, hcount ys, h (key x)]

/-- Nothing comes twice when an image tells that nothing does. -/
theorem nodup_map_of_nodup_map {β : Type*} {f : α → β} {g : α → γ} {xs : List α}
    (h : (xs.map g).Nodup) (hfg : ∀ x ∈ xs, ∀ y ∈ xs, f x = f y → g x = g y) :
    (xs.map f).Nodup :=
  h.of_map.map_on fun x hx y hy heq => List.inj_on_of_nodup_map h hx hy (hfg x hx y hy heq)

/-- **Nothing comes twice** in a list of pieces when nothing does in a piece and an image tells the
key. -/
theorem nodup_map_flatMap {keys : List κ} (hnodup : keys.Nodup) {f : κ → List α} {g : α → γ}
    (hpiece : ∀ k ∈ keys, ((f k).map g).Nodup)
    (hkey : ∀ k ∈ keys, ∀ k' ∈ keys, ∀ x ∈ f k, ∀ y ∈ f k', g x = g y → k = k') :
    ((keys.flatMap f).map g).Nodup := by
  rw [List.map_flatMap, List.nodup_flatMap]
  refine ⟨hpiece, hnodup.imp_of_mem fun {k k'} hk hk' hne => ?_⟩
  intro y hy hy'
  obtain ⟨x, hx, rfl⟩ := List.mem_map.mp hy
  obtain ⟨x', hx', heq⟩ := List.mem_map.mp hy'
  exact hne (hkey k hk k' hk' x hx x' hx' heq.symm)

end Whatspec.Library

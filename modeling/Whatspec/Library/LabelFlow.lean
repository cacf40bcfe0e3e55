import Mathlib.Algebra.GroupWithZero.Nat
import Mathlib.Algebra.Order.BigOperators.Group.List
import Mathlib.Algebra.Order.Group.Nat
import Whatspec.Library.Worklist

/-!
# Labels that flow along the edges of a graph

Every edge of a graph carries a label, and labels compose along walks from given roots.  A node
is assigned the label that all walks to it have in common, or `top` when two of them differ.

* `Composition`: what the labels must satisfy, so that two walks that differ still differ one
  edge on, unless that edge tells nothing apart;
* `Walk` and `Assigned`: the walks, and the label of a node, which `assigned_unique` shows to be
  one only;
* `Delivery`: one round of a work list that computes the labels, and `exists_drain_assigned`: any
  loop of such rounds ends, with exactly the labels assigned.
-/

namespace Whatspec.Library.LabelFlow

open Whatspec.Library

/-- Labels that compose.  Nothing is known of what `top` labels. -/
structure Composition (M : Type*) where
  comp : M → M → M
  top : M
  top_comp : ∀ a, comp top a = top
  comp_top : ∀ a, comp a top = top
  cancel : ∀ {a b c}, comp a c = comp b c → a = b ∨ c = top

variable {ν M : Type*}

section Walks

variable (C : Composition M) (roots : List (ν × M)) (edges : ν → List (ν × M))

/-- There is a walk from the roots to the node that composes to the label. -/
inductive Walk : ν → M → Prop
  | root {n : ν} {a : M} : (n, a) ∈ roots → Walk n a
  | step {n m : ν} {a b : M} : Walk n a → (m, b) ∈ edges n → Walk m (C.comp a b)

/-- The node can be reached. -/
def Reachable (n : ν) : Prop := ∃ a, Walk C roots edges n a

/-- Two walks to the node compose to different labels. -/
def Disagree (n : ν) : Prop :=
  ∃ a b, Walk C roots edges n a ∧ Walk C roots edges n b ∧ a ≠ b

/-- The label of a node: what all walks to it compose to, or `top` when they disagree. -/
def Assigned (n : ν) (v : M) : Prop :=
  (Walk C roots edges n v ∧ ∀ a, Walk C roots edges n a → a = v) ∨
    (Disagree C roots edges n ∧ v = C.top)

/-- The walks bear a label out. -/
def Justified (n : ν) (v : M) : Prop :=
  Walk C roots edges n v ∨ (Disagree C roots edges n ∧ v = C.top)

end Walks

variable {C : Composition M} {roots : List (ν × M)} {edges : ν → List (ν × M)}

theorem Assigned.reachable {n : ν} {v : M} (h : Assigned C roots edges n v) :
    Reachable C roots edges n := by
  obtain ⟨hwalk, -⟩ | ⟨⟨a, b, ha, -, -⟩, -⟩ := h
  · exact ⟨v, hwalk⟩
  · exact ⟨a, ha⟩

theorem assigned_unique {n : ν} {v v' : M} (h : Assigned C roots edges n v)
    (h' : Assigned C roots edges n v') : v = v' := by
  have hclash : ∀ {w}, (∀ a, Walk C roots edges n a → a = w) → ¬Disagree C roots edges n := by
    rintro w hall ⟨a, b, ha, hb, hne⟩
    exact hne ((hall a ha).trans (hall b hb).symm)
  obtain ⟨hwalk, hall⟩ | ⟨hdis, rfl⟩ := h
  · obtain ⟨hwalk', -⟩ | ⟨hdis, -⟩ := h'
    · exact (hall v' hwalk').symm
    · exact absurd hdis (hclash hall)
  · obtain ⟨-, hall⟩ | ⟨-, rfl⟩ := h'
    · exact absurd hdis (hclash hall)
    · rfl

/-- Every node that can be reached is assigned a label. -/
theorem Reachable.assigned {n : ν} (h : Reachable C roots edges n) :
    ∃ v, Assigned C roots edges n v := by
  obtain ⟨v, hv⟩ := h
  by_cases hall : ∀ a, Walk C roots edges n a → a = v
  · exact ⟨v, .inl ⟨hv, hall⟩⟩
  · push Not at hall
    obtain ⟨a, ha, hne⟩ := hall
    exact ⟨C.top, .inr ⟨⟨a, v, ha, hv, hne⟩, rfl⟩⟩

/-- Walks depend on which roots and edges there are, not on how they are listed. -/
theorem Walk.mono {roots' : List (ν × M)} {edges' : ν → List (ν × M)}
    (hroots : ∀ e ∈ roots, e ∈ roots') (hedges : ∀ n, ∀ e ∈ edges n, e ∈ edges' n) {n : ν}
    {a : M} (h : Walk C roots edges n a) : Walk C roots' edges' n a := by
  induction h with
  | root hroot => exact .root (hroots _ hroot)
  | step _ hedge ih => exact ih.step (hedges _ _ hedge)

/-- A justified label, passed along an edge, is justified. -/
theorem Justified.step {n m : ν} {v b : M} (h : Justified C roots edges n v)
    (hedge : (m, b) ∈ edges n) : Justified C roots edges m (C.comp v b) := by
  obtain hwalk | ⟨⟨a, a', ha, ha', hne⟩, rfl⟩ := h
  · exact .inl (hwalk.step hedge)
  · rw [C.top_comp]
    by_cases heq : C.comp a b = C.comp a' b
    · obtain hsame | rfl := C.cancel heq
      · exact absurd hsame hne
      · have hwalk := ha.step hedge
        rw [C.comp_top] at hwalk
        exact .inl hwalk
    · exact .inr ⟨⟨_, _, ha.step hedge, ha'.step hedge, heq⟩, rfl⟩

/-- Two justified labels that differ justify `top`. -/
theorem Justified.clash {n : ν} {v w : M} (h : Justified C roots edges n v)
    (h' : Justified C roots edges n w) (hne : v ≠ w) : Justified C roots edges n C.top := by
  obtain hv | ⟨hdis, -⟩ := h
  · obtain hw | ⟨hdis, -⟩ := h'
    · exact .inr ⟨⟨v, w, hv, hw, hne⟩, rfl⟩
    · exact .inr ⟨hdis, rfl⟩
  · exact .inr ⟨hdis, rfl⟩

/-! ### What is left to do -/

section Effort

open Classical

/-- How often the labels of a node may still change. -/
noncomputable def rank (C : Composition M) : Option M → ℕ
  | none => 2
  | some v => if v = C.top then 0 else 1

/-- How often the labels of the nodes may still change. -/
noncomputable def capacity (C : Composition M) (nodes : List ν) (table : ν → Option M) : ℕ :=
  (nodes.map fun n => rank C (table n)).sum

/-- The deliveries that tell something. -/
noncomputable def telling (C : Composition M) (queue : List (ν × M)) : ℕ :=
  queue.countP fun e => e.2 ≠ C.top

/-- What a node passes on when nothing is known of it tells nothing. -/
theorem telling_top (es : List (ν × M)) :
    telling C (es.map fun e => (e.1, C.comp C.top e.2)) = 0 := by
  rw [telling, List.countP_eq_zero]
  intro e he
  obtain ⟨edge, -, rfl⟩ := List.mem_map.mp he
  rw [C.top_comp, decide_eq_true_eq]
  exact fun h => h rfl

end Effort

/-! ### Rounds -/

section Rounds

variable [DecidableEq ν] (C edges)

/-- The table of labels has no more to learn from a label for a node. -/
def Knows (C : Composition M) (table : ν → Option M) (n : ν) (a : M) : Prop :=
  table n = some a ∨ table n = some C.top

/-- One round: a label for a node is dropped, or set and passed on along the node's edges. -/
inductive Delivery (table : ν → Option M) (n : ν) (a : M) : (ν → Option M) → List (ν × M) → Prop
  | dropped : Knows C table n a → Delivery table n a table []
  | first : table n = none → Delivery table n a (Function.update table n (some a))
      ((edges n).map fun e => (e.1, C.comp a e.2))
  | clash {v : M} : table n = some v → v ≠ a →
      Delivery table n a (Function.update table n (some C.top))
        ((edges n).map fun e => (e.1, C.comp C.top e.2))

variable {C edges}

/-- The table learns: what it has it keeps, or knows no more. -/
theorem Delivery.knows {table table' : ν → Option M} {n : ν} {a : M} {pushed : List (ν × M)}
    (h : Delivery C edges table n a table' pushed) {m : ν} {b : M} (hm : Knows C table m b) :
    Knows C table' m b := by
  cases h with
  | dropped _ => exact hm
  | first hnone =>
    have hne : m ≠ n := by
      rintro rfl
      rcases hm with hm | hm <;> rw [hnone] at hm <;> cases hm
    rw [Knows, Function.update_of_ne hne]
    exact hm
  | clash _ _ =>
    rcases eq_or_ne m n with rfl | hne
    · exact .inr (Function.update_self ..)
    · rw [Knows, Function.update_of_ne hne]
      exact hm

/-- The label delivered is known from then on. -/
theorem Delivery.knows_self {table table' : ν → Option M} {n : ν} {a : M}
    {pushed : List (ν × M)} (h : Delivery C edges table n a table' pushed) :
    Knows C table' n a := by
  cases h with
  | dropped hknown => exact hknown
  | first _ => exact .inl (Function.update_self ..)
  | clash _ _ => exact .inr (Function.update_self ..)

/-- What holds of the table and of the deliveries still to be made. -/
structure Flow (C : Composition M) (roots : List (ν × M)) (edges : ν → List (ν × M))
    (table : ν → Option M) (queue : List (ν × M)) : Prop where
  settled : ∀ n v, table n = some v → Justified C roots edges n v
  pending : ∀ e ∈ queue, Justified C roots edges e.1 e.2
  started : ∀ e ∈ roots, e ∈ queue ∨ Knows C table e.1 e.2
  passed : ∀ n v, table n = some v → ∀ e ∈ edges n,
    (e.1, C.comp v e.2) ∈ queue ∨ Knows C table e.1 (C.comp v e.2)

omit [DecidableEq ν] in
theorem Flow.start : Flow C roots edges (fun _ => none) roots where
  settled := nofun
  pending := fun _ he => .inl (.root he)
  started := fun _ he => .inl he
  passed := nofun

/-- **A round keeps the flow.** -/
theorem Flow.delivery {table table' : ν → Option M} {n : ν} {a : M} {queue pushed : List (ν × M)}
    (h : Flow C roots edges table ((n, a) :: queue))
    (hround : Delivery C edges table n a table' pushed) :
    Flow C roots edges table' (queue ++ pushed) := by
  have hself := hround.knows_self
  have hpending : ∀ {e : ν × M}, e ∈ (n, a) :: queue ∨ Knows C table e.1 e.2 →
      e ∈ queue ++ pushed ∨ Knows C table' e.1 e.2 := by
    rintro e (he | he)
    · rcases List.mem_cons.mp he with rfl | he
      · exact .inr hself
      · exact .inl (List.mem_append_left _ he)
    · exact .inr (hround.knows he)
  have ha : Justified C roots edges n a := h.pending _ List.mem_cons_self
  have hold : ∀ e ∈ queue, Justified C roots edges e.1 e.2 := fun e he =>
    h.pending e (List.mem_cons_of_mem _ he)
  have hpassed : ∀ {v : M}, Justified C roots edges n v →
      ∀ e ∈ queue ++ (edges n).map fun e => (e.1, C.comp v e.2),
        Justified C roots edges e.1 e.2 := by
    intro v hv e he
    rcases List.mem_append.mp he with he | he
    · exact hold e he
    · obtain ⟨edge, hedge, rfl⟩ := List.mem_map.mp he
      exact hv.step hedge
  have hset : ∀ {v : M}, Justified C roots edges n v → ∀ m w,
      Function.update table n (some v) m = some w → Justified C roots edges m w := by
    intro v hv m w hw
    rcases eq_or_ne m n with rfl | hne
    · rw [Function.update_self] at hw
      exact Option.some.inj hw ▸ hv
    · rw [Function.update_of_ne hne] at hw
      exact h.settled m w hw
  have hedges : ∀ {v : M} {t : ν → Option M}, t = Function.update table n (some v) →
      (∀ {e : ν × M}, e ∈ (n, a) :: queue ∨ Knows C table e.1 e.2 →
        e ∈ queue ++ ((edges n).map fun e => (e.1, C.comp v e.2)) ∨ Knows C t e.1 e.2) →
      ∀ m w, t m = some w → ∀ e ∈ edges m,
        (e.1, C.comp w e.2) ∈ queue ++ ((edges n).map fun e => (e.1, C.comp v e.2)) ∨
          Knows C t e.1 (C.comp w e.2) := by
    rintro v t rfl hpend m w hw e he
    rcases eq_or_ne m n with rfl | hne
    · rw [Function.update_self] at hw
      obtain rfl := Option.some.inj hw
      exact .inl (List.mem_append_right _ (List.mem_map.mpr ⟨e, he, rfl⟩))
    · rw [Function.update_of_ne hne] at hw
      exact hpend (h.passed m w hw e he)
  cases hround with
  | dropped hknown =>
    exact ⟨h.settled, by rw [List.append_nil]; exact hold, fun e he => hpending (h.started e he),
      fun m w hw e he => hpending (h.passed m w hw e he)⟩
  | first hnone =>
    exact ⟨hset ha, hpassed ha, fun e he => hpending (h.started e he),
      hedges rfl fun he => hpending he⟩
  | @clash v hv hne =>
    have htop := (h.settled n v hv).clash ha hne
    exact ⟨hset htop, hpassed htop, fun e he => hpending (h.started e he),
      hedges rfl fun he => hpending he⟩

omit [DecidableEq ν] in
/-- **With nothing left to deliver, the table holds the labels assigned.** -/
theorem Flow.assigned {table : ν → Option M} (h : Flow C roots edges table []) (n : ν) (v : M) :
    table n = some v ↔ Assigned C roots edges n v := by
  have hwalks : ∀ {m a}, Walk C roots edges m a → Knows C table m a := by
    intro m a hwalk
    induction hwalk with
    | root hroot => exact (h.started _ hroot).resolve_left nofun
    | @step n m a b hwalk hedge ih =>
      rcases ih with hn | hn
      · exact (h.passed n a hn _ hedge).resolve_left nofun
      · have hnext := (h.passed n C.top hn _ hedge).resolve_left nofun
        rw [C.top_comp] at hnext
        exact .inr (hnext.elim id id)
  have hmp : ∀ {w}, table n = some w → Assigned C roots edges n w := by
    intro w hw
    obtain hwalk | hdis := h.settled n w hw
    · by_cases hall : ∀ a, Walk C roots edges n a → a = w
      · exact .inl ⟨hwalk, hall⟩
      · push Not at hall
        obtain ⟨a, ha, hne⟩ := hall
        refine .inr ⟨⟨w, a, hwalk, ha, hne.symm⟩, ?_⟩
        rcases hwalks ha with hn | hn
        · rw [hw] at hn
          exact absurd (Option.some.inj hn).symm hne
        · rw [hw] at hn
          exact Option.some.inj hn
    · exact .inr hdis
  refine ⟨hmp, fun hv => ?_⟩
  obtain ⟨a, ha⟩ := hv.reachable
  obtain ⟨w, hw⟩ : ∃ w, table n = some w := (hwalks ha).elim (fun h => ⟨_, h⟩) fun h => ⟨_, h⟩
  rw [hw, assigned_unique (hmp hw) hv]

/-! ### The loop ends -/

section Ends

open Classical

theorem capacity_update_lt {nodes : List ν} {table : ν → Option M} {n : ν} {v : M}
    (hmem : n ∈ nodes) (hlt : rank C (some v) < rank C (table n)) :
    capacity C nodes (Function.update table n (some v)) < capacity C nodes table := by
  have hle : ∀ m, rank C (Function.update table n (some v) m) ≤ rank C (table m) := by
    intro m
    rcases eq_or_ne m n with rfl | hne
    · rw [Function.update_self]
      exact hlt.le
    · rw [Function.update_of_ne hne]
  refine List.sum_lt_sum _ _ (fun m _ => hle m) ⟨n, hmem, ?_⟩
  rw [Function.update_self]
  exact hlt

/-- The measure of a loop: changes to come, deliveries that tell something, deliveries. -/
noncomputable def effort (C : Composition M) (nodes : List ν) (table : ν → Option M)
    (queue : List (ν × M)) : ℕ × ℕ × ℕ :=
  (capacity C nodes table, telling C queue, queue.length)

/-- **Every round makes the measure smaller.** -/
theorem Delivery.effort_lt {nodes : List ν} {table table' : ν → Option M} {n : ν} {a : M}
    {queue pushed : List (ν × M)} (h : Delivery C edges table n a table' pushed)
    (hmem : n ∈ nodes) :
    WellFoundedRelation.rel (effort C nodes table' (queue ++ pushed))
      (effort C nodes table ((n, a) :: queue)) := by
  have hcap : ∀ {t q t' q'}, capacity C nodes t < capacity C nodes t' →
      WellFoundedRelation.rel (effort C nodes t q) (effort C nodes t' q') :=
    fun hlt => Prod.Lex.left _ _ hlt
  cases h with
  | dropped _ =>
    have hcons : telling C ((n, a) :: queue) =
        telling C queue + if decide (a ≠ C.top) = true then 1 else 0 := List.countP_cons ..
    rw [List.append_nil, effort, effort, List.length_cons]
    refine Prod.Lex.right _ ?_
    by_cases ha : a = C.top
    · rw [hcons, if_neg (by simp [ha]), Nat.add_zero]
      exact Prod.Lex.right _ (Nat.lt_succ_self _)
    · rw [hcons, if_pos (by simp [ha])]
      exact Prod.Lex.left _ _ (Nat.lt_succ_self _)
  | first hnone =>
    refine hcap (capacity_update_lt hmem ?_)
    rw [hnone, rank, rank]
    split_ifs <;> omega
  | @clash v hv hne =>
    by_cases htop : v = C.top
    · subst htop
      have hsame : Function.update table n (some C.top) = table := by
        rw [← hv]
        exact Function.update_eq_self n table
      have hcons : telling C ((n, a) :: queue) = telling C queue + 1 :=
        (List.countP_cons ..).trans (by rw [if_pos (by simp [Ne.symm hne])]; rfl)
      have happend : telling C (queue ++ (edges n).map fun e => (e.1, C.comp C.top e.2)) =
          telling C queue := by
        rw [telling, List.countP_append, ← telling, ← telling, telling_top, Nat.add_zero]
      rw [hsame, effort, effort, hcons, happend]
      exact Prod.Lex.right _ (Prod.Lex.left _ _ (Nat.lt_succ_self _))
    · refine hcap (capacity_update_lt hmem ?_)
      rw [hv, rank, rank, if_pos rfl, if_neg htop]
      exact Nat.one_pos

/-- **A loop of such rounds ends, and assigns every node its label.**  The nodes that edges and
roots name are finitely many, and `view` is the table that the loop's own state stands for. -/
theorem exists_drain_assigned {σ : Type*} {round : ν × M → σ → σ × List (ν × M)}
    (view : σ → ν → Option M)
    (hround : ∀ n a s, Delivery C edges (view s) n a (view (round (n, a) s).1)
      (round (n, a) s).2)
    {nodes : List ν} (hroots : ∀ e ∈ roots, e.1 ∈ nodes)
    (hedges : ∀ n, ∀ e ∈ edges n, e.1 ∈ nodes) {s : σ} (hstart : view s = fun _ => none) :
    ∃ fuel r, drain round fuel roots s = some r ∧
      ∀ n v, view r n = some v ↔ Assigned C roots edges n v := by
  have hpushed : ∀ n a s, ∀ e ∈ (round (n, a) s).2, e.1 ∈ nodes := by
    intro n a s e he
    have hdelivery := hround n a s
    generalize view (round (n, a) s).1 = table' at hdelivery
    generalize (round (n, a) s).2 = pushed at hdelivery he
    cases hdelivery with
    | dropped _ => cases he
    | first _ =>
      obtain ⟨edge, hedge, rfl⟩ := List.mem_map.mp he
      exact hedges n edge hedge
    | clash _ _ =>
      obtain ⟨edge, hedge, rfl⟩ := List.mem_map.mp he
      exact hedges n edge hedge
  let inside : List (ν × M) → σ → Prop := fun queue _ => ∀ e ∈ queue, e.1 ∈ nodes
  have hinside : ∀ e queue s, inside (e :: queue) s →
      inside (queue ++ (round e s).2) (round e s).1 := by
    intro e queue s h e' he'
    rcases List.mem_append.mp he' with he' | he'
    · exact h e' (List.mem_cons_of_mem _ he')
    · exact hpushed e.1 e.2 s e' he'
  obtain ⟨fuel, r, h⟩ := exists_drain (fun queue s => effort C nodes (view s) queue) hinside
    (fun e queue s h => (hround e.1 e.2 s).effort_lt (h e List.mem_cons_self)) (s := s) hroots
  refine ⟨fuel, r, h, ?_⟩
  have hflow : Flow C roots edges (view r) [] :=
    drain_invariant (I := fun queue s => Flow C roots edges (view s) queue)
      (fun e queue s hflow => hflow.delivery (hround e.1 e.2 s))
      (by rw [hstart]; exact Flow.start) h
  exact hflow.assigned

end Ends

end Rounds

end Whatspec.Library.LabelFlow

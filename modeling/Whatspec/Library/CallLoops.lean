import Mathlib.Data.Set.Finite.Basic
import Whatspec.Library.Calls

/-!
# Calls that come back to themselves

A group of functions may go on forever by going round: a call makes itself again, through others.
Where only finitely many calls of one frame can make a bigger call of that frame, and a frame is
otherwise left for lower ones only, this is the one way of never returning.

* `Returns.acc_under`: what a program that returns calls is not called forever;
* `returns_iff_not_loops`: a program returns exactly when it reaches no such call that makes itself
  again.
-/

namespace Whatspec.Library

section

variable {C : Type} {R : C → Type} {α : Type} {body : ∀ c, Prog R (R c)}

variable (body) in
/-- A call that another one makes itself. -/
def Under (d c : C) : Prop := Asks body (body c) d

theorem reaches_iff_transGen {c d : C} :
    Reaches body (body c) d ↔ Relation.TransGen (Under body) d c := by
  constructor
  · intro h
    induction h with
    | asks h => exact .single h
    | step _ h ih => exact .head h ih
  · intro h
    induction h using Relation.TransGen.head_induction_on with
    | single h => exact .asks h
    | head h _ ih => exact .step ih h

theorem Reaches.trans {p : Prog R α} {c d : C} (hc : Reaches body p c)
    (hd : Reaches body (body c) d) : Reaches body p d := by
  induction hd with
  | asks h => exact .step hc h
  | step _ h ih => exact .step ih h

/-- What a program that returns calls is not called forever. -/
theorem Returns.acc_under {p : Prog R α} {a : α} (h : Returns body p a) {c : C}
    (hc : Asks body p c) : Acc (Under body) c := by
  induction h generalizing c with
  | ret => cases hc
  | call hret _ ihc ihk =>
    cases hc with
    | first => exact Acc.intro _ fun d hd => ihc hd
    | later hret' hlater =>
      obtain rfl := hret.unique hret'
      exact ihk hlater

theorem not_rel_of_acc {r : C → C → Prop} {c : C} (h : Acc r c) : ¬ r c c := by
  induction h with
  | intro c _ ih => exact fun hself => ih c hself hself

/-- A call that returns does not come back to itself. -/
theorem Returns.not_loops {c : C} {r : R c} (h : Returns body (body c) r) :
    ¬ Reaches body (body c) c := by
  intro hloop
  have hacc : Acc (Under body) c := Acc.intro c fun d hd => h.acc_under hd
  exact not_rel_of_acc hacc.transGen (reaches_iff_transGen.mp hloop)

variable {S : ∀ c, R c → Prop} {pre : C → Prop}

/-- A call that is not made forever returns. -/
theorem returns_of_acc (h : Correct body pre S)
    (hsafe : ∀ c, pre c → Meets S pre True (body c) (S c)) {c : C} (hc : pre c)
    (hacc : Acc (Under body) c) : ∃ r, Returns body (body c) r := by
  induction hacc with
  | intro c _ ih =>
    refine returns_of_asks h (hsafe c hc) fun d hd => ih d hd ?_
    exact meets_asks h (fun _ hd => hd) (hsafe c hc) hd

/-! ### Frames -/

/-- Induction along a transitive relation over a finite set on which nothing is related to
itself. -/
theorem finite_induction {s : Set C} (hs : s.Finite) {r : C → C → Prop}
    (htrans : ∀ {a b c}, r a b → r b c → r a c) (hirrefl : ∀ c ∈ s, ¬ r c c) {P : C → Prop}
    (hstep : ∀ c ∈ s, (∀ d ∈ s, r d c → P d) → P c) : ∀ c ∈ s, P c := by
  have : Finite s := hs.to_subtype
  have : IsTrans s fun a b => r a b := ⟨fun _ _ _ => htrans⟩
  have : Std.Irrefl fun a b : s => r a b := ⟨fun c => hirrefl c c.2⟩
  have hwf : WellFounded fun a b : s => r a b := Finite.wellFounded_of_trans_of_irrefl _
  intro c hc
  induction hn : (⟨c, hc⟩ : s) using hwf.induction generalizing c with
  | _ n ih =>
    subst hn
    exact hstep c hc fun d hd hdc => ih ⟨d, hd⟩ hdc d hd rfl

variable {M Φ : Type} [Preorder M] (level : C → M) (frame : C → Φ)
  (size : C → ℕ) (hub : C → Prop)

/-- A call made by another one: on a lower level, or in the same frame and smaller, unless the other
one is a hub. -/
def Inner (d c : C) : Prop :=
  level d < level c ∨ (level d = level c ∧ frame d = frame c ∧ (hub c ∨ size d < size c))

variable {level frame size hub}

section

variable {p : Prog R α} (hinner : ∀ c d, Reaches body p c → Under body d c →
  Inner level frame size hub d c)

include hinner

/-- In a frame, a call is not made forever when the hubs it leads to are not. -/
theorem acc_of_hubs {m : M} {φ : Φ}
    (hlower : ∀ c, Reaches body p c → level c < m → Acc (Under body) c) {c : C}
    (hc : Reaches body p c) (hm : level c = m) (hφ : frame c = φ)
    (hhubs : ∀ d, hub d → level d = m → frame d = φ →
      Relation.ReflTransGen (Under body) d c → Acc (Under body) d) : Acc (Under body) c := by
  induction hn : size c using Nat.strong_induction_on generalizing c with
  | _ n ih =>
    subst hn
    by_cases hhub : hub c
    · exact hhubs c hhub hm hφ .refl
    · refine Acc.intro c fun d hd => ?_
      have hreach : Reaches body p d := .step hc hd
      obtain hlt | ⟨hlevel, hframe, hsize⟩ := hinner c d hc hd
      · exact hlower d hreach (hm ▸ hlt)
      · refine ih _ (hsize.resolve_left hhub) hreach (hlevel.trans hm) (hframe.trans hφ) ?_ rfl
        exact fun e he hem heφ hed => hhubs e he hem heφ (hed.tail hd)

/-- When no hub comes back to itself, nothing is called forever. -/
theorem acc_of_not_loops [WellFoundedLT M]
    (hfinite : ∀ φ, {c | hub c ∧ frame c = φ}.Finite)
    (hloops : ∀ c, Reaches body p c → hub c → ¬ Reaches body (body c) c) {c : C}
    (hc : Reaches body p c) : Acc (Under body) c := by
  induction hm : level c using WellFoundedLT.induction generalizing c with
  | ind m ihLevel =>
    have hlower : ∀ c, Reaches body p c → level c < m → Acc (Under body) c :=
      fun c hc hlt => ihLevel _ hlt hc rfl
    -- the hubs of the frame are ordered by which leads to which
    have hhubs := finite_induction ((hfinite (frame c)).inter_of_left {d | Reaches body p d})
      (r := Relation.TransGen (Under body)) .trans
      (fun d hd hself => hloops d hd.2 hd.1.1 (reaches_iff_transGen.mpr hself))
      (P := fun d => level d = m → Acc (Under body) d) ?_
    · refine acc_of_hubs hinner hlower hc hm rfl fun d hd hdm hdφ hdc => ?_
      obtain rfl | hlead := Relation.reflTransGen_iff_eq_or_transGen.mp hdc
      · exact hhubs _ ⟨⟨hd, hdφ⟩, hc⟩ hdm
      · exact hhubs d ⟨⟨hd, hdφ⟩, hc.trans (reaches_iff_transGen.mpr hlead)⟩ hdm
    · rintro d ⟨⟨-, hdφ⟩, hd⟩ ih hdm
      refine Acc.intro d fun e he => ?_
      have hreach : Reaches body p e := .step hd he
      obtain hlt | ⟨hlevel, hframe, -⟩ := hinner d e hd he
      · exact hlower e hreach (hdm ▸ hlt)
      · refine acc_of_hubs hinner hlower hreach (hlevel.trans hdm) rfl fun f hf hfm hff hfe => ?_
        have hlead : Relation.TransGen (Under body) f d := .tail' hfe he
        refine ih f ⟨⟨hf, hff.trans (hframe.trans hdφ)⟩, ?_⟩ hlead hfm
        exact hd.trans (reaches_iff_transGen.mpr hlead)

end

/-- **A program returns exactly when it reaches no hub that comes back to itself.** -/
theorem returns_iff_not_loops [WellFoundedLT M] (h : Correct body pre S)
    (hmeets : ∀ c, pre c →
      Meets S (fun d => pre d ∧ Inner level frame size hub d c) True (body c) (S c))
    (hfinite : ∀ φ, {c | hub c ∧ frame c = φ}.Finite) {p : Prog R α} {Q : α → Prop}
    (hp : Meets S pre True p Q) :
    (∃ a, Returns body p a) ↔ ∀ c, Reaches body p c → hub c → ¬ Reaches body (body c) c := by
  have hpre : ∀ c, Reaches body p c → pre c := fun c hc =>
    pre_of_reaches h (hp.mono (fun _ hd => hd) False.elim fun _ hQ => hQ) hc
  constructor
  · rintro ⟨a, ha⟩ c hc -
    obtain ⟨r, hr⟩ := ha.of_reaches hc
    exact hr.not_loops
  · intro hloops
    have hinner : ∀ c d, Reaches body p c → Under body d c → Inner level frame size hub d c :=
      fun c d hc hd => (meets_asks h (fun _ hd => hd.1) (hmeets c (hpre c hc)) hd).2
    refine returns_of_asks h hp fun d hd => ?_
    refine returns_of_acc h (fun c hc => ?_) (hpre d (.asks hd))
      (acc_of_not_loops hinner hfinite hloops (.asks hd))
    exact (hmeets c hc).mono (fun _ hd => hd.1) id fun _ hS => hS

end

end Whatspec.Library

import Whatspec.Codegen.Guards
import Whatspec.Library.FreshNames
import Whatspec.Library.IntervalSweep
import Whatspec.Library.StableSort

/-!
# Which errors earlier arms cover

An arm of an error accepts codes, and texts where it pins one.  Whether earlier arms leave anything
to later ones is asked by a sweep over the bands of codes.

* `ErrorArm.Accepts` is what an arm accepts, `errorArmsCover` the sweep;
* `IrErrorArm` are the arms the intermediate form has;
* **`errorArmsCover_iff`**: the answer is yes exactly when every code and text that a later arm
  accepts is accepted by an earlier one.
-/

namespace Whatspec.Codegen

open Whatspec.Library
open Whatspec.Library.StableSort

def i64Min : ℤ := -2 ^ 63

def i64Max : ℤ := 2 ^ 63 - 1

/-- The arm accepts a code together with a text. -/
structure ErrorArm.Accepts (arm : ErrorArm) (code : ℤ) (text : String) : Prop where
  exact : ∀ c ∈ arm.code, code = c
  least : ∀ c ∈ arm.codeMin, c ≤ code
  most : ∀ c ∈ arm.codeMax, code ≤ c
  pinned : ∀ t ∈ arm.text, text = t

/-- The codes of an arm, from the least to the greatest. -/
def ErrorArm.band (arm : ErrorArm) : ℤ × ℤ :=
  ((arm.code.or arm.codeMin).getD i64Min, (arm.code.or arm.codeMax).getD i64Max)

/-- The bands of the arms that accept every text an arm accepts. -/
def bandsFor (earlier : List ErrorArm) (arm : ErrorArm) : List (ℤ × ℤ) :=
  sortBy toLex ((earlier.filter fun a =>
    a.text.isNone || (arm.text.isSome && a.text = arm.text)).map ErrorArm.band)

/-- `error_arms_cover`. -/
def errorArmsCover (earlier later : List ErrorArm) : Bool :=
  later.all fun arm => sweep arm.band.2 arm.band.1 (bandsFor earlier arm)

/-- An arm of the intermediate form: its numbers are of 64 bits, and a code that is pinned is in the
band, where the arm has one. -/
structure IrErrorArm extends ErrorArm where
  code_i64 : ∀ c ∈ code, i64Min ≤ c ∧ c ≤ i64Max
  codeMin_i64 : ∀ c ∈ codeMin, i64Min ≤ c ∧ c ≤ i64Max
  codeMax_i64 : ∀ c ∈ codeMax, i64Min ≤ c ∧ c ≤ i64Max
  code_band : ∀ c ∈ code, (∀ l ∈ codeMin, l ≤ c) ∧ ∀ m ∈ codeMax, c ≤ m

/-! ### One arm -/

/-- A code is in the band exactly when the arm accepts it. -/
theorem IrErrorArm.accepts_iff (arm : IrErrorArm) {code : ℤ} {text : String}
    (hcode : i64Min ≤ code ∧ code ≤ i64Max) :
    arm.Accepts code text ↔
      (arm.band.1 ≤ code ∧ code ≤ arm.band.2) ∧ ∀ t ∈ arm.text, text = t := by
  obtain ⟨⟨name, exact, pinned, least, most⟩, -, -, -, hband⟩ := arm
  cases exact with
  | some c =>
    have hc := hband c rfl
    constructor
    · intro h
      have heq : code = c := h.exact c rfl
      exact ⟨⟨heq.ge, heq.le⟩, h.pinned⟩
    · rintro ⟨⟨hle, hge⟩, hpinned⟩
      obtain rfl : code = c := le_antisymm hge hle
      refine ⟨?_, hc.1, hc.2, hpinned⟩
      intro d hd
      exact Option.some_inj.mp hd
  | none =>
    constructor
    · intro h
      refine ⟨⟨?_, ?_⟩, h.pinned⟩
      · cases least with
        | none => exact hcode.1
        | some l => exact h.least l rfl
      · cases most with
        | none => exact hcode.2
        | some m => exact h.most m rfl
    · rintro ⟨⟨hle, hge⟩, hpinned⟩
      refine ⟨nofun, ?_, ?_, hpinned⟩
      · rintro l hl
        obtain rfl : least = some l := hl
        exact hle
      · rintro m hm
        obtain rfl : most = some m := hm
        exact hge

theorem IrErrorArm.band_i64 (arm : IrErrorArm) :
    i64Min ≤ arm.band.1 ∧ arm.band.2 ≤ i64Max := by
  obtain ⟨⟨name, exact, pinned, least, most⟩, hexact, hleast, hmost, -⟩ := arm
  constructor
  · cases exact with
    | some c => exact (hexact c rfl).1
    | none =>
      cases least with
      | some l => exact (hleast l rfl).1
      | none => exact le_rfl
  · cases exact with
    | some c => exact (hexact c rfl).2
    | none =>
      cases most with
      | some m => exact (hmost m rfl).2
      | none => exact le_rfl

/-! ### Coverage -/

/-- An earlier arm whose text leaves out nothing that the later arm accepts. -/
def wider (a arm : ErrorArm) : Bool := a.text.isNone || (arm.text.isSome && a.text = arm.text)

theorem mem_bandsFor {earlier : List ErrorArm} {arm : ErrorArm} {b : ℤ × ℤ} :
    b ∈ bandsFor earlier arm ↔ ∃ a ∈ earlier, wider a arm = true ∧ a.band = b := by
  rw [bandsFor, (sortBy_perm toLex _).mem_iff, List.mem_map]
  constructor
  · rintro ⟨a, ha, rfl⟩
    rw [List.mem_filter] at ha
    exact ⟨a, ha.1, ha.2, rfl⟩
  · rintro ⟨a, ha, hwider, rfl⟩
    exact ⟨a, List.mem_filter.mpr ⟨ha, hwider⟩, rfl⟩

theorem pairwise_bandsFor (earlier : List ErrorArm) (arm : ErrorArm) :
    (bandsFor earlier arm).Pairwise (·.1 ≤ ·.1) := by
  refine (pairwise_sortBy toLex _).imp ?_
  intro a b hab
  rw [Prod.Lex.le_iff] at hab
  exact hab.elim le_of_lt fun h => le_of_eq h.1

/-- The sweep for one later arm. -/
theorem sweep_bandsFor {earlier : List ErrorArm} {arm : ErrorArm} :
    sweep arm.band.2 arm.band.1 (bandsFor earlier arm) = true ↔
      ∀ x, arm.band.1 ≤ x → x ≤ arm.band.2 →
        ∃ a ∈ earlier, wider a arm = true ∧ a.band.1 ≤ x ∧ x ≤ a.band.2 := by
  rw [sweep_iff (pairwise_bandsFor earlier arm)]
  refine forall_congr' fun x => forall_congr' fun _ => forall_congr' fun _ => ?_
  constructor
  · rintro ⟨b, hb, hx⟩
    obtain ⟨a, ha, hwider, rfl⟩ := mem_bandsFor.mp hb
    exact ⟨a, ha, hwider, hx⟩
  · rintro ⟨a, ha, hwider, hx⟩
    exact ⟨a.band, mem_bandsFor.mpr ⟨a, ha, hwider, rfl⟩, hx⟩

/-- The text of a wider arm is not in the way. -/
theorem pinned_of_wider {a arm : ErrorArm} {text : String} (h : wider a arm = true)
    (htext : ∀ t ∈ arm.text, text = t) : ∀ t ∈ a.text, text = t := by
  rw [wider, Bool.or_eq_true, Bool.and_eq_true, Option.isNone_iff_eq_none,
    decide_eq_true_iff] at h
  rcases h with hnone | ⟨-, heq⟩
  · rw [hnone]
    exact nofun
  · rw [heq]
    exact htext

/-- A text that the later arm accepts, and of the earlier ones only those that are wider. -/
theorem exists_text (earlier : List ErrorArm) (arm : ErrorArm) :
    ∃ text, (∀ t ∈ arm.text, text = t) ∧
      ∀ a ∈ earlier, (∀ t ∈ a.text, text = t) → wider a arm = true := by
  cases htext : arm.text with
  | some t =>
    refine ⟨t, fun u hu => Option.some_inj.mp hu, fun a ha hpinned => ?_⟩
    rw [wider, htext]
    cases hatext : a.text with
    | none => rfl
    | some u =>
      rw [hpinned u hatext]
      simp
  | none =>
    -- a text that no earlier arm pins
    let candidate : ℕ → String := fun n => String.ofList (List.replicate n 'a')
    have hinjective : Function.Injective candidate := by
      intro m n hmn
      have hlists := String.ofList_injective hmn
      have hlength := congrArg List.length hlists
      rwa [List.length_replicate, List.length_replicate] at hlength
    obtain ⟨k, -, hfree⟩ := @exists_free _ _ (earlier.filterMap (·.text)) _ hinjective 0
    refine ⟨candidate (0 + k), nofun, fun a ha hpinned => ?_⟩
    rw [wider, Bool.or_eq_true, Option.isNone_iff_eq_none]
    refine .inl (Option.eq_none_iff_forall_not_mem.mpr fun u hu => hfree ?_)
    exact List.mem_filterMap.mpr ⟨a, ha, (hpinned u hu) ▸ hu⟩

/-- **The answer is exact**: earlier arms cover later ones just when they accept every code and text
that these accept. -/
theorem errorArmsCover_iff (earlier later : List IrErrorArm) :
    errorArmsCover (earlier.map IrErrorArm.toErrorArm) (later.map IrErrorArm.toErrorArm) = true ↔
      ∀ (code : ℤ) (text : String), i64Min ≤ code → code ≤ i64Max →
        (∃ arm ∈ later, arm.Accepts code text) → ∃ arm ∈ earlier, arm.Accepts code text := by
  rw [errorArmsCover, List.all_eq_true]
  constructor
  · rintro hcover code text hmin hmax ⟨arm, harm, haccepts⟩
    have hsweep := sweep_bandsFor.mp (hcover arm.toErrorArm (List.mem_map_of_mem harm))
    have hband := (arm.accepts_iff ⟨hmin, hmax⟩).mp haccepts
    obtain ⟨a, ha, hwider, hx⟩ := hsweep code hband.1.1 hband.1.2
    obtain ⟨b, hb, rfl⟩ := List.mem_map.mp ha
    exact ⟨b, hb, (b.accepts_iff ⟨hmin, hmax⟩).mpr ⟨hx, pinned_of_wider hwider hband.2⟩⟩
  · intro hcover a ha
    obtain ⟨arm, harm, rfl⟩ := List.mem_map.mp ha
    refine sweep_bandsFor.mpr fun x hlo hhi => ?_
    obtain ⟨text, htext, honly⟩ := exists_text (earlier.map IrErrorArm.toErrorArm) arm.toErrorArm
    have hx : i64Min ≤ x ∧ x ≤ i64Max :=
      ⟨le_trans arm.band_i64.1 hlo, le_trans hhi arm.band_i64.2⟩
    have haccepts : arm.Accepts x text := (arm.accepts_iff hx).mpr ⟨⟨hlo, hhi⟩, htext⟩
    obtain ⟨b, hb, hbx⟩ := hcover x text hx.1 hx.2 ⟨arm, harm, haccepts⟩
    have hband := (b.accepts_iff hx).mp hbx
    have hmem := List.mem_map_of_mem (f := IrErrorArm.toErrorArm) hb
    exact ⟨b.toErrorArm, hmem, honly b.toErrorArm hmem hband.2, hband.1⟩

end Whatspec.Codegen

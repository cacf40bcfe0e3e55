import Whatspec.Library.Lines
import Whatspec.Library.Rendering
import Whatspec.Store.Lock

/-!
# What a fingerprint pins

`setHash` digests the sorted `sha256:size` lines of a set, joined with newlines.  The lines of
one set are told by their text, but the text does not say where a line ends when a `sha256`
field holds a newline:

* `setHash_eq_of_perm`: the order of the entries does not show;
* `preimage_injective`: fields without a newline are pinned;
* `setHash_pins_iff`: among arbitrary fields only the sets of at most one entry are pinned, and
  of those only the ones that cannot be read as two lines.
-/

namespace Whatspec.Store

open Whatspec.Library Whatspec.Library.Rendering Whatspec.Text

/-- The line of one entry. -/
def line (sha256 : String) (size : ℕ) : String := sha256 ++ ":" ++ toString size

def BundleId.line (b : BundleId) : String := Store.line b.sha256 b.size

/-- What a fingerprint is about: the digest and the size. -/
def BundleId.content (b : BundleId) : String × ℕ := (b.sha256, b.size)

/-- The sorted lines of a set. -/
def sortedLines (bundles : List BundleId) : List String :=
  (bundles.map BundleId.line).insertionSort (· ≤ ·)

/-- The text that is digested. -/
def preimage (bundles : List BundleId) : List Char :=
  List.intercalate ['\n'] ((sortedLines bundles).map String.toList)

/-- The two sets are equal as multisets of digest and size. -/
def SameContent (a b : List BundleId) : Prop :=
  (a.map BundleId.content).Perm (b.map BundleId.content)

/-- No digest field holds a newline. -/
def OneLined (bundles : List BundleId) : Prop := ∀ b ∈ bundles, '\n' ∉ b.sha256.toList

/-- The sizes are those of a `u64`. -/
def FitsU64 (bundles : List BundleId) : Prop := ∀ b ∈ bundles, b.size < 2 ^ 64

/-- The digest tells the texts of sets apart. -/
def Separates (digest : List UInt8 → List UInt8) : Prop :=
  Set.InjOn digest (Set.range fun bundles => utf8 (String.ofList (preimage bundles)))

/-- A set that no other set has the text of: at most one entry, which is not to be read as two
lines. -/
def Pinned (bundles : List BundleId) : Prop :=
  bundles = [] ∨ ∃ b, bundles = [b] ∧ ∀ sha256 size rest, size < 2 ^ 64 →
    b.sha256 = line sha256 size ++ "\n" ++ rest → ¬ line sha256 size ≤ line rest b.size

/-! ### Lines -/

theorem toList_line (sha256 : String) (size : ℕ) :
    (line sha256 size).toList = sha256.toList ++ ':' :: Nat.toDigits 10 size := by
  rw [line, String.toList_append, String.toList_append, List.append_assoc]
  show sha256.toList ++ (':' :: (Nat.repr size).toList) = _
  rw [Nat.repr_eq_ofList_toDigits, String.toList_ofList]

theorem not_mem_toDigits {c : Char} (hc : c.isDigit = false) (n : ℕ) : c ∉ Nat.toDigits 10 n := by
  intro h
  rw [Nat.isDigit_of_mem_toDigits (by decide) (by decide) h] at hc
  cases hc

/-- A line is read from its end: the digits of the size, then the colon. -/
theorem line_inj {s t : String} {m n : ℕ} (h : line s m = line t n) : s = t ∧ m = n := by
  have hchars := congrArg String.toList h
  rw [toList_line, toList_line] at hchars
  have hrev := congrArg List.reverse hchars
  simp only [List.reverse_append, List.reverse_cons, List.append_assoc, List.cons_append,
    List.nil_append] at hrev
  have hcolon : ∀ k, ∀ c ∈ (Nat.toDigits 10 k).reverse, c ≠ ':' := by
    intro k c hc heq
    subst heq
    exact not_mem_toDigits (by decide) k (List.mem_reverse.mp hc)
  obtain ⟨hdigits, hrest⟩ := append_inj_of_all (· ≠ ':') (hcolon m) (hcolon n)
    (not_not_intro rfl) (not_not_intro rfl) hrev
  exact ⟨String.toList_inj.mp (List.reverse_injective (List.cons.inj hrest).2),
    toDigits_injective (by decide) (by decide) (List.reverse_injective hdigits)⟩

/-- Sets with the same lines have the same content. -/
theorem sameContent_iff {a b : List BundleId} :
    SameContent a b ↔ sortedLines a = sortedLines b := by
  have hline : ∀ l : List BundleId,
      l.map BundleId.line = (l.map BundleId.content).map fun p => line p.1 p.2 := by
    intro l
    rw [List.map_map]
    rfl
  have hinj : Function.Injective fun p : String × ℕ => line p.1 p.2 := fun p q h =>
    Prod.ext (line_inj h).1 (line_inj h).2
  have hperm : SameContent a b ↔ (a.map BundleId.line).Perm (b.map BundleId.line) := by
    rw [hline, hline, SameContent]
    exact (List.map_perm_map_iff hinj).symm
  rw [hperm, sortedLines, sortedLines]
  constructor
  · intro h
    refine List.Perm.eq_of_pairwise' (List.pairwise_insertionSort _ _)
      (List.pairwise_insertionSort _ _) ?_
    exact (List.perm_insertionSort _ _).trans (h.trans (List.perm_insertionSort _ _).symm)
  · intro h
    have hleft := List.perm_insertionSort (· ≤ ·) (a.map BundleId.line)
    rw [h] at hleft
    exact hleft.symm.trans (List.perm_insertionSort _ _)

theorem length_sortedLines (bundles : List BundleId) :
    (sortedLines bundles).length = bundles.length := by
  rw [sortedLines, List.length_insertionSort, List.length_map]

theorem pairwise_sortedLines (bundles : List BundleId) : (sortedLines bundles).Pairwise (· ≤ ·) :=
  List.pairwise_insertionSort _ _

theorem mem_sortedLines {bundles : List BundleId} {l : String} :
    l ∈ sortedLines bundles ↔ ∃ b ∈ bundles, b.line = l := by
  rw [sortedLines, List.mem_insertionSort, List.mem_map]

/-- Lines in order are what the set is sorted to. -/
theorem sortedLines_eq {bundles : List BundleId}
    (h : (bundles.map BundleId.line).Pairwise (· ≤ ·)) :
    sortedLines bundles = bundles.map BundleId.line :=
  h.insertionSort_eq

theorem not_mem_line {b : BundleId} (h : '\n' ∉ b.sha256.toList) : '\n' ∉ b.line.toList := by
  rw [BundleId.line, toList_line]
  intro hmem
  cases List.mem_append.mp hmem with
  | inl hsha => exact h hsha
  | inr hrest =>
      cases List.mem_cons.mp hrest with
      | inl heq => exact absurd heq (by decide)
      | inr hdigits => exact not_mem_toDigits (by decide) b.size hdigits

theorem toList_line_ne_nil (b : BundleId) : b.line.toList ≠ [] := by
  rw [BundleId.line, toList_line]
  exact List.append_ne_nil_of_right_ne_nil _ (List.cons_ne_nil _ _)

/-! ### Fields without a newline -/

/-- The text of a set is empty only for the empty set. -/
theorem preimage_eq_nil_iff {bundles : List BundleId} : preimage bundles = [] ↔ bundles = [] := by
  constructor
  · intro h
    rw [preimage] at h
    cases hlines : sortedLines bundles with
    | nil =>
        have hlen := length_sortedLines bundles
        rw [hlines] at hlen
        exact List.length_eq_zero_iff.mp hlen.symm
    | cons l ls =>
        have hmem : l ∈ sortedLines bundles := by
          rw [hlines]
          exact List.mem_cons_self
        obtain ⟨b, _, rfl⟩ := mem_sortedLines.mp hmem
        rw [hlines, List.map_cons] at h
        cases ls with
        | nil =>
            rw [List.map_nil, List.intercalate_singleton] at h
            exact absurd h (toList_line_ne_nil b)
        | cons l' ls =>
            rw [List.map_cons, List.intercalate_cons_cons, List.append_eq_nil_iff,
              List.append_eq_nil_iff] at h
            exact absurd h.1.1 (toList_line_ne_nil b)
  · intro h
    subst h
    rfl

theorem not_mem_sortedLines {bundles : List BundleId} (h : OneLined bundles) :
    ∀ l ∈ (sortedLines bundles).map String.toList, '\n' ∉ l := by
  intro l hl
  obtain ⟨s, hs, rfl⟩ := List.mem_map.mp hl
  obtain ⟨b, hb, rfl⟩ := mem_sortedLines.mp hs
  exact not_mem_line (h b hb)

/-- **Fields without a newline are pinned by the text**, against each other and against all sets
of the same number of entries. -/
theorem preimage_injective {a b : List BundleId} (ha : OneLined a)
    (hb : OneLined b ∨ a.length = b.length) (h : preimage a = preimage b) :
    sortedLines a = sortedLines b := by
  refine List.map_injective_iff.mpr (fun _ _ heq => String.toList_inj.mp heq) ?_
  cases hb with
  | inl hb =>
      by_cases hnil : a = []
      · have hnil' : b = [] := by
          rw [← preimage_eq_nil_iff, ← h, preimage_eq_nil_iff]
          exact hnil
        rw [hnil, hnil']
      · have hnil' : b ≠ [] := by
          rw [Ne, ← preimage_eq_nil_iff, ← h, preimage_eq_nil_iff]
          exact hnil
        have hlines : ∀ c : List BundleId, c ≠ [] → (sortedLines c).map String.toList ≠ [] := by
          intro c hc hmap
          have hlen := length_sortedLines c
          rw [List.map_eq_nil_iff.mp hmap] at hlen
          exact hc (List.length_eq_zero_iff.mp hlen.symm)
        exact Lines.eq_of_intercalate_eq (not_mem_sortedLines ha) (not_mem_sortedLines hb)
          (hlines a hnil) (hlines b hnil') h
  | inr hlen =>
      refine Lines.eq_of_length_eq (not_mem_sortedLines ha) ?_ h
      rw [List.length_map, List.length_map, length_sortedLines, length_sortedLines, hlen]

/-! ### Arbitrary fields -/

/-- A text continued is not before the text. -/
theorem le_append (s t : String) : s ≤ s ++ t := by
  rw [String.le_iff_toList_le, String.toList_append]
  exact not_lt.mp fun h => List.le_append_left h

theorem exists_snoc_snoc {α : Type*} {l : List α} (h : 2 ≤ l.length) :
    ∃ init x y, l = init ++ [x, y] := by
  rcases List.eq_nil_or_concat l with rfl | ⟨l', y, rfl⟩
  · simp at h
  · rcases List.eq_nil_or_concat l' with rfl | ⟨init, x, rfl⟩
    · simp at h
    · exact ⟨init, x, y, by simp⟩

/-- **Two entries or more have the text of fewer**: the last two lines are one line of another
set. -/
theorem exists_other_of_two_le {a : List BundleId} (hfits : FitsU64 a) (hlen : 2 ≤ a.length) :
    ∃ b, FitsU64 b ∧ preimage a = preimage b ∧ ¬ SameContent a b := by
  have hperm := List.perm_insertionSort (fun x y : BundleId => x.line ≤ y.line) a
  have hlines : (a.insertionSort fun x y => x.line ≤ y.line).map BundleId.line = sortedLines a :=
    List.map_insertionSort _ _ BundleId.line a fun x _ y _ => Iff.rfl
  obtain ⟨init, x, y, hsorted⟩ :=
    exists_snoc_snoc (hperm.length_eq.symm ▸ hlen)
  rw [hsorted, List.map_append] at hlines
  have hmem : ∀ b ∈ init ++ [x, y], b ∈ a := fun b hb => hperm.mem_iff.mp (hsorted ▸ hb)
  have hpairs := pairwise_sortedLines a
  rw [← hlines, List.pairwise_append] at hpairs
  obtain ⟨hinit, hxy, hbelow⟩ := hpairs
  have hmerged : (⟨x.line ++ "\n" ++ y.sha256, y.size, none⟩ : BundleId).line =
      x.line ++ ("\n" ++ y.line) := by
    simp only [BundleId.line, Store.line, String.append_assoc]
  refine ⟨init ++ [⟨x.line ++ "\n" ++ y.sha256, y.size, none⟩], ?_, ?_, ?_⟩
  · intro b hb
    cases List.mem_append.mp hb with
    | inl hin => exact hfits b (hmem b (List.mem_append_left _ hin))
    | inr heq =>
        rw [List.mem_singleton.mp heq]
        exact hfits y (hmem y (List.mem_append_right _ (by simp)))
  · have hother : sortedLines (init ++ [⟨x.line ++ "\n" ++ y.sha256, y.size, none⟩]) =
        init.map BundleId.line ++ [x.line ++ ("\n" ++ y.line)] := by
      rw [sortedLines_eq, List.map_append, List.map_singleton, hmerged]
      rw [List.map_append, List.map_singleton, hmerged, List.pairwise_append]
      refine ⟨hinit, List.pairwise_singleton _ _, fun s hs t ht => ?_⟩
      rw [List.mem_singleton.mp ht]
      exact (hbelow s hs x.line (List.mem_cons_self)).trans (le_append _ _)
    rw [preimage, preimage, hother, ← hlines, List.map_append, List.map_append]
    have hchars : (x.line ++ ("\n" ++ y.line)).toList = x.line.toList ++ '\n' :: y.line.toList := by
      rw [String.toList_append, String.toList_append]
      rfl
    rw [List.map_singleton, hchars]
    exact Lines.intercalate_merge _ _ _
  · intro hsame
    have hcount := hsame.length_eq
    rw [List.length_map, List.length_map, ← hperm.length_eq, hsorted] at hcount
    simp only [List.length_append, List.length_cons, List.length_nil] at hcount
    omega

/-- One entry that can be read as two lines in order has the text of two. -/
theorem exists_other_of_cut {b : BundleId} {sha256 rest : String} {size : ℕ}
    (hfits : b.size < 2 ^ 64) (hsize : size < 2 ^ 64)
    (hcut : b.sha256 = line sha256 size ++ "\n" ++ rest)
    (hle : line sha256 size ≤ line rest b.size) :
    ∃ c, FitsU64 c ∧ preimage [b] = preimage c ∧ ¬ SameContent [b] c := by
  refine ⟨[⟨sha256, size, none⟩, ⟨rest, b.size, none⟩], ?_, ?_, ?_⟩
  · intro c hc
    simp only [List.mem_cons, List.not_mem_nil, or_false] at hc
    rcases hc with rfl | rfl
    · exact hsize
    · exact hfits
  · have hone : sortedLines [b] = [b.line] := rfl
    have htwo : sortedLines [⟨sha256, size, none⟩, ⟨rest, b.size, none⟩] =
        [line sha256 size, line rest b.size] := by
      rw [sortedLines_eq]
      · rfl
      · exact List.pairwise_pair.mpr hle
    have hchars : b.line.toList =
        (line sha256 size).toList ++ '\n' :: (line rest b.size).toList := by
      rw [BundleId.line, toList_line, hcut, toList_line rest, String.toList_append,
        String.toList_append]
      simp
    rw [preimage, preimage, hone, htwo, List.map_singleton, List.intercalate_singleton, hchars]
    simp
  · intro hsame
    have hcount := hsame.length_eq
    simp at hcount

/-- **A pinned set is told by its text.** -/
theorem sortedLines_of_pinned {a b : List BundleId} (hpinned : Pinned a) (hfits : FitsU64 b)
    (h : preimage a = preimage b) : sortedLines a = sortedLines b := by
  cases hpinned with
  | inl hnil =>
      have hnil' : b = [] := preimage_eq_nil_iff.mp (by rw [← h, hnil]; rfl)
      rw [hnil, hnil']
  | inr hone =>
      obtain ⟨e, rfl, hcut⟩ := hone
      have htext : preimage [e] = e.line.toList := by
        rw [preimage, show sortedLines [e] = [e.line] from rfl, List.map_singleton,
          List.intercalate_singleton]
      rw [htext, preimage] at h
      have hsorted := pairwise_sortedLines b
      have hentry : ∀ l ∈ sortedLines b, ∃ s n, n < 2 ^ 64 ∧ l = line s n := by
        intro l hl
        obtain ⟨c, hc, rfl⟩ := mem_sortedLines.mp hl
        exact ⟨c.sha256, c.size, hfits c hc, rfl⟩
      show [e.line] = sortedLines b
      cases hlines : sortedLines b with
      | nil =>
          rw [hlines] at h
          exact absurd h (toList_line_ne_nil e)
      | cons l ls =>
          rw [hlines] at h hsorted hentry
          rcases List.eq_nil_or_concat ls with rfl | ⟨init, last, rfl⟩
          · rw [List.map_singleton, List.intercalate_singleton] at h
            rw [String.toList_injective h]
          · -- The text of two lines and more is a line again, cut after the first one.
            exfalso
            obtain ⟨s, n, hn, rfl⟩ := hentry l List.mem_cons_self
            obtain ⟨s', n', _, rfl⟩ := hentry last (List.mem_cons_of_mem _ (by simp))
            rw [List.map_cons, List.concat_eq_append, List.map_append, List.map_singleton] at h
            obtain ⟨r, hjoin, htail⟩ := @Lines.exists_intercalate_append _ '\n'
              (line s n).toList (init.map String.toList) (line s' n').toList
            rw [hjoin] at h
            have hline : e.line = line (line s n ++ "\n" ++ (String.ofList r ++ s')) n' := by
              rw [← String.toList_inj, h, toList_line s' n',
                toList_line (line s n ++ "\n" ++ (String.ofList r ++ s')) n']
              simp
            obtain ⟨hsha, hsize⟩ := line_inj hline
            refine hcut s n (String.ofList r ++ s') hn hsha ?_
            rw [hsize]
            -- The second line begins the rest of the text.
            have hrest : line (String.ofList r ++ s') n' = String.ofList r ++ line s' n' := by
              simp only [Store.line, String.append_assoc]
            rw [hrest]
            cases init with
            | nil =>
                have hle : line s n ≤ line s' n' := by
                  rw [List.concat_eq_append, List.nil_append] at hsorted
                  exact List.pairwise_pair.mp hsorted
                have hr : r = [] := by
                  rw [List.map_nil, List.nil_append, List.intercalate_singleton] at htail
                  exact List.append_left_eq_self.mp htail.symm
                rw [hr]
                exact hle
            | cons m init =>
                have hle : line s n ≤ m := by
                  rw [List.concat_eq_append, List.cons_append] at hsorted
                  exact (List.pairwise_cons.mp hsorted).1 m List.mem_cons_self
                refine hle.trans ?_
                rw [String.le_iff_toList_le, String.toList_append, String.toList_ofList, ← htail,
                  List.map_cons, List.cons_append, List.intercalate_cons_of_ne_nil
                    (List.append_ne_nil_of_right_ne_nil _ (List.cons_ne_nil _ _)),
                  List.append_assoc]
                exact not_lt.mp fun h => List.le_append_left h

/-! ### Fingerprints -/

/-- The entries that a lock fingerprints. -/
def BundleLock.ids (lock : BundleLock) : List BundleId :=
  lock.bundles.map fun e => ⟨e.sha256, e.size, none⟩

def WasmLock.ids (lock : WasmLock) : List BundleId := lock.wasm.map WasmLockEntry.asBundleId

section Fingerprints

variable (digest : List UInt8 → List UInt8)

theorem setHash_eq (bundles : List BundleId) :
    setHash digest bundles = sha256Hex digest (utf8 (String.ofList (preimage bundles))) := by
  have htext : "\n".intercalate (sortedLines bundles) = String.ofList (preimage bundles) := by
    rw [← String.toList_inj, String.toList_intercalate, @String.toList_ofList (preimage bundles)]
    rfl
  rw [← htext]
  rfl

variable {digest}

/-- A fingerprint is as good as the text. -/
theorem setHash_eq_iff (hsep : Separates digest) {a b : List BundleId} :
    setHash digest a = setHash digest b ↔ preimage a = preimage b := by
  rw [setHash_eq, setHash_eq]
  constructor
  · intro h
    have hbytes := flatMap_hexByte_injective (String.ofList_injective h)
    have htexts := hsep ⟨a, rfl⟩ ⟨b, rfl⟩ hbytes
    exact String.ofList_injective (utf8_injective htexts)
  · intro h
    rw [h]

/-- **The order of the entries does not show.** -/
theorem setHash_eq_of_perm {a b : List BundleId} (h : SameContent a b) :
    setHash digest a = setHash digest b := by
  rw [setHash_eq, setHash_eq, preimage, preimage, sameContent_iff.mp h]

/-- Two checks that pass. -/
theorem checked_iff {p q : Prop} [Decidable p] [Decidable q] {e e' : String} :
    (if ¬p then .error e else if ¬q then .error e' else .ok () : Except String Unit) = .ok () ↔
      p ∧ q := by
  by_cases hp : p
  · by_cases hq : q
    · simp [hp, hq]
    · simp [hp, hq]
  · simp [hp]

/-- What a bundle lock records when it is consistent. -/
theorem BundleLock.verifySelfConsistent_ok {lock : BundleLock} :
    lock.verifySelfConsistent digest = .ok () ↔
      lock.bundleCount = lock.ids.length ∧ lock.setHash = Store.setHash digest lock.ids := by
  rw [BundleLock.verifySelfConsistent, BundleLock.ids, List.length_map]
  exact checked_iff

/-- What a wasm lock records when it is consistent. -/
theorem WasmLock.verifySelfConsistent_ok {lock : WasmLock} :
    lock.verifySelfConsistent digest = .ok () ↔
      lock.wasmCount = lock.ids.length ∧ lock.wasmSetHash = Store.setHash digest lock.ids := by
  rw [WasmLock.verifySelfConsistent, WasmLock.ids, List.length_map]
  exact checked_iff

/-- Sets without newlines in their fields have one fingerprint only as one multiset. -/
theorem setHash_pins_oneLined (hsep : Separates digest) {a b : List BundleId} (ha : OneLined a)
    (hb : OneLined b ∨ a.length = b.length) :
    setHash digest a = setHash digest b ↔ SameContent a b := by
  rw [setHash_eq_iff hsep]
  exact ⟨fun h => sameContent_iff.mpr (preimage_injective ha hb h),
    fun h => (setHash_eq_iff hsep).mp (setHash_eq_of_perm h)⟩

/-- **What a fingerprint pins.**  Fields without a newline are pinned, among themselves and among
all sets of the same count, which is what a consistent lock records; among arbitrary fields
exactly the `Pinned` sets are. -/
theorem setHash_pins_iff (hsep : Separates digest) :
    (∀ a b, OneLined a → OneLined b ∨ a.length = b.length →
      (setHash digest a = setHash digest b ↔ SameContent a b)) ∧
    (∀ lock lock' : BundleLock, lock.verifySelfConsistent digest = .ok () →
      lock'.verifySelfConsistent digest = .ok () → lock.setHash = lock'.setHash →
        lock.bundleCount = lock'.bundleCount → OneLined lock.ids →
          SameContent lock.ids lock'.ids) ∧
    (∀ lock lock' : WasmLock, lock.verifySelfConsistent digest = .ok () →
      lock'.verifySelfConsistent digest = .ok () → lock.wasmSetHash = lock'.wasmSetHash →
        lock.wasmCount = lock'.wasmCount → OneLined lock.ids →
          SameContent lock.ids lock'.ids) ∧
    ∀ a, FitsU64 a →
      ((∀ b, FitsU64 b → (setHash digest a = setHash digest b ↔ SameContent a b)) ↔ Pinned a) := by
  refine ⟨fun a b ha hb => setHash_pins_oneLined hsep ha hb, ?_, ?_, fun a hfits => ?_⟩
  · intro lock lock' hok hok' hhash hcount hone
    obtain ⟨hlen, hset⟩ := BundleLock.verifySelfConsistent_ok.mp hok
    obtain ⟨hlen', hset'⟩ := BundleLock.verifySelfConsistent_ok.mp hok'
    refine (setHash_pins_oneLined hsep hone (Or.inr ?_)).mp ?_
    · rw [← hlen, ← hlen', hcount]
    · rw [← hset, ← hset', hhash]
  · intro lock lock' hok hok' hhash hcount hone
    obtain ⟨hlen, hset⟩ := WasmLock.verifySelfConsistent_ok.mp hok
    obtain ⟨hlen', hset'⟩ := WasmLock.verifySelfConsistent_ok.mp hok'
    refine (setHash_pins_oneLined hsep hone (Or.inr ?_)).mp ?_
    · rw [← hlen, ← hlen', hcount]
    · rw [← hset, ← hset', hhash]
  · constructor
    · intro hall
      have hnone : ¬ ∃ b, FitsU64 b ∧ preimage a = preimage b ∧ ¬ SameContent a b := by
        intro hother
        obtain ⟨b, hb, htext, hne⟩ := hother
        exact hne ((hall b hb).mp ((setHash_eq_iff hsep).mpr htext))
      cases a with
      | nil => exact Or.inl rfl
      | cons e rest =>
          cases rest with
          | cons e' rest =>
              exact absurd (exists_other_of_two_le hfits (by simp)) hnone
          | nil =>
              refine Or.inr ⟨e, rfl, fun s n r hn hcut hle => hnone ?_⟩
              exact exists_other_of_cut (hfits e List.mem_cons_self) hn hcut hle
    · intro hpinned b hb
      rw [setHash_eq_iff hsep]
      exact ⟨fun h => sameContent_iff.mpr (sortedLines_of_pinned hpinned hb h),
        fun h => (setHash_eq_iff hsep).mp (setHash_eq_of_perm h)⟩

end Fingerprints

/-- A bundle lock over two entries, as the generator writes it when digests are texts. -/
def twoEntryLock (sha256 : String) (size : ℕ) (sha256' : String) (size' : ℕ) : BundleLock where
  waVersion := "2.3000.1"
  setHash := setHash id [⟨sha256, size, none⟩, ⟨sha256', size', none⟩]
  bundleCount := 2
  bundles := [⟨sha256, size, none⟩, ⟨sha256', size', none⟩]

theorem separates_id : Separates id := Function.injective_id.injOn

theorem setHash_pins_twoEntries :
    setHash id [⟨"aa", 1, none⟩, ⟨"bb", 2, none⟩] ≠
      setHash id [⟨"aa", 12, none⟩, ⟨"bb", 2, none⟩] := by
  have hpins := (setHash_pins_iff separates_id).1 [⟨"aa", 1, none⟩, ⟨"bb", 2, none⟩]
    [⟨"aa", 12, none⟩, ⟨"bb", 2, none⟩]
  intro h
  have hone : OneLined [⟨"aa", 1, none⟩, ⟨"bb", 2, none⟩] := by
    unfold OneLined
    decide
  have hsame := (hpins hone (Or.inr rfl)).mp h
  exact absurd hsame (by unfold SameContent; decide)

/-- A newline in a field lets two consistent locks of one count record one fingerprint. -/
theorem setHash_confuses_newline :
    Separates id ∧
      (twoEntryLock "a" 1 "b:2\nc" 3).verifySelfConsistent id = .ok () ∧
      (twoEntryLock "a:1\nb" 2 "c" 3).verifySelfConsistent id = .ok () ∧
      (twoEntryLock "a" 1 "b:2\nc" 3).setHash = (twoEntryLock "a:1\nb" 2 "c" 3).setHash ∧
      ¬ SameContent (twoEntryLock "a" 1 "b:2\nc" 3).ids (twoEntryLock "a:1\nb" 2 "c" 3).ids := by
  refine ⟨separates_id, BundleLock.verifySelfConsistent_ok.mpr ⟨rfl, rfl⟩,
    BundleLock.verifySelfConsistent_ok.mpr ⟨rfl, rfl⟩, ?_, ?_⟩
  · show setHash id _ = setHash id _
    exact (setHash_eq_iff separates_id).mpr (by decide +kernel)
  · unfold SameContent
    decide

end Whatspec.Store

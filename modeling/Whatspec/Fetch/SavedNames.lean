import Mathlib
import Whatspec.Library.FreshNames
import Whatspec.Library.Rendering
import Whatspec.Fetch.Cache
import Whatspec.Fetch.Download
import Whatspec.Store.Restore

/-!
# The names downloaded files are saved under

A bundle is saved under the last segment of its URL when that name is short and not taken yet,
and under a name made of the digest of its URL otherwise, numbered until it is free.

* `diskFileName` and `saveBundles` follow the saving, the loop over the numbers with fuel;
* `candidate` is the list of names the loop tries, all different (`candidate_injective`), all
  short and plain names of a directory entry (`length_candidate`, `entryName_candidate`);
* `saves_iff` says which lists of bundles are saved whole.
-/

namespace Whatspec.Fetch

open Whatspec.Library Whatspec.Library.Rendering Whatspec.Text

/-- A digest of 32 bytes, as SHA-256 has. -/
structure Digest where
  run : Bytes → Bytes
  length_run : ∀ bytes, (run bytes).length = 32

/-- A bundle named by one segment of a path, as `bundleFileName` names it. -/
structure NamedBundle extends Bundle where
  segment : '/' ∉ fileName.toList

theorem slash_not_mem_sanitize (s : String) : '/' ∉ (sanitize s).toList := by
  rw [sanitize, String.toList_ofList, List.mem_map]
  rintro ⟨c, -, hc⟩
  split_ifs at hc with hsafe
  · subst hc
    exact absurd hsafe (by decide)
  · exact absurd hc (by decide)

/-- **A bundle's file name is one segment.** -/
theorem slash_not_mem_bundleFileName (url : String) : '/' ∉ (bundleFileName url).toList := by
  simp only [bundleFileName]
  split_ifs
  · exact slash_not_mem_sanitize url
  · rw [String.toList_ofList, List.mem_reverse]
    intro hmem
    have hne := List.mem_takeWhile_imp hmem
    exact absurd hne (by decide)

/-- A bundle as the download makes it. -/
def NamedBundle.ofUrl (url : String) (bytes : Bytes) : NamedBundle where
  url := url
  fileName := bundleFileName url
  bytes := bytes
  segment := slash_not_mem_bundleFileName url

/-! ### The saving -/

def maxBundleFileName : ℕ := 128

def maxExtension : ℕ := 16

/-- The extension of a file name, when it is short and alphanumeric. -/
def recognisedExtension (fileName : String) : Option String :=
  (Store.extension fileName).filter fun e =>
    decide ((utf8 e).length ≤ maxExtension) && e.toList.all Char.isAlphanum

/-- The extension a made-up name carries. -/
def carriedExtension (fileName : String) : String := (recognisedExtension fileName).getD "bin"

/-- The loop over the numbered names.  The counter has 32 bits and wraps around. -/
def numberedName (used : List String) (hash ext : String) :
    ℕ → BitVec 32 → String → Option String
  | 0, _, _ => none
  | fuel + 1, n, name =>
    if name ∈ used then
      numberedName used hash ext fuel (n + 1)
        (hash ++ "-" ++ toString n.toInt ++ "." ++ ext)
    else some name

/-- The name a bundle is saved under, `none` when the fuel is spent. -/
def diskFileName (sha : Digest) (fuel : ℕ) (fileName url : String) (used : List String) :
    Option String :=
  if (utf8 fileName).length ≤ maxBundleFileName ∧ fileName ∉ used then some fileName
  else
    let ext := carriedExtension fileName
    let hash := sha256Hex sha.run (utf8 url)
    numberedName used hash ext fuel 1 (hash ++ "." ++ ext)

/-- The files of a directory without subdirectories. -/
abbrev Directory := String → Option Bytes

/-- What a file of a directory can be called: not the directory itself nor its parent, and
without a NUL. -/
def EntryName (name : String) : Prop :=
  name ≠ "" ∧ name ≠ "." ∧ name ≠ ".." ∧ Char.ofNat 0 ∉ name.toList

instance (name : String) : Decidable (EntryName name) :=
  inferInstanceAs (Decidable (_ ∧ _ ∧ _ ∧ _))

/-- `fs::write` of a segment in a directory. -/
def fsWrite (dir : Directory) (name : String) (bytes : Bytes) : Option Directory :=
  if EntryName name then some (Function.update dir name (some bytes)) else none

/-- Save the bundles one after the other.  The names they got, or the name that could not be
written, with the directory left; `none` when the fuel is spent. -/
def saveFrom (sha : Digest) (fuel : ℕ) :
    List NamedBundle → List String → Directory → Option (Except String (List String) × Directory)
  | [], _, dir => some (.ok [], dir)
  | b :: bundles, used, dir =>
    match diskFileName sha fuel b.fileName b.url used with
    | none => none
    | some name =>
      match fsWrite dir name b.bytes with
      | none => some (.error name, dir)
      | some dir' =>
        (saveFrom sha fuel bundles (name :: used) dir').map fun r =>
          (r.1.map (name :: ·), r.2)

def saveBundles (sha : Digest) (fuel : ℕ) (bundles : List NamedBundle) (dir : Directory) :
    Option (Except String (List String) × Directory) :=
  saveFrom sha fuel bundles [] dir

/-! ### Bytes of a name -/

theorem length_utf8_append (s t : String) :
    (utf8 (s ++ t)).length = (utf8 s).length + (utf8 t).length := by
  simp [utf8, String.toByteArray_append]

theorem length_utf8_of_ascii {s : String} (h : ∀ c ∈ s.toList, c.toNat < 128) :
    (utf8 s).length = s.toList.length := by
  obtain ⟨cs, rfl⟩ : ∃ cs, s = String.ofList cs := ⟨s.toList, String.ofList_toList.symm⟩
  rw [String.toList_ofList] at h ⊢
  induction cs with
  | nil => rfl
  | cons c cs ih =>
    rw [List.forall_mem_cons] at h
    have hc : c.utf8Size = 1 := by
      rw [Char.utf8Size, if_pos]
      have := h.1
      rw [UInt32.le_iff_toNat_le]
      change c.toNat ≤ 127
      omega
    have hcons : String.ofList (c :: cs) = String.ofList [c] ++ String.ofList cs := by
      rw [← String.ofList_append]
      rfl
    rw [hcons, length_utf8_append, ih h.2, List.length_cons, utf8, String.toByteArray_ofList,
      List.utf8Encode_singleton]
    simp [hc]
    omega

/-! ### The names the loop tries -/

/-- How many names there are before the counter has come around. -/
def tries : ℕ := 2 ^ 32 + 1

/-- The names the loop tries, in their order. -/
def candidate (hash ext : String) : ℕ → String
  | 0 => hash ++ "." ++ ext
  | i + 1 => hash ++ "-" ++ toString (BitVec.ofNat 32 (i + 1)).toInt ++ "." ++ ext

theorem numberedName_succ (used : List String) (hash ext : String) (fuel i : ℕ) :
    numberedName used hash ext (fuel + 1) (BitVec.ofNat 32 (i + 1)) (candidate hash ext i) =
      if candidate hash ext i ∈ used then
        numberedName used hash ext fuel (BitVec.ofNat 32 (i + 1 + 1)) (candidate hash ext (i + 1))
      else some (candidate hash ext i) := by
  rw [numberedName, BitVec.ofNat_add (i + 1) 1]
  rfl

/-- What tells a candidate from the others. -/
def mark : ℕ → String
  | 0 => ""
  | i + 1 => "-" ++ toString (BitVec.ofNat 32 (i + 1)).toInt

theorem candidate_eq (hash ext : String) (i : ℕ) :
    candidate hash ext i = hash ++ mark i ++ "." ++ ext := by
  cases i with
  | zero => rw [mark, String.append_empty, candidate]
  | succ i => simp only [mark, candidate, String.append_assoc]

theorem toList_int (a : ℤ) :
    (toString a).toList = if 0 ≤ a then Nat.toDigits 10 a.toNat
      else '-' :: Nat.toDigits 10 (-a).toNat := by
  rw [Int.toString_eq_repr, Int.repr_eq_if]
  split_ifs
  · rw [Nat.toList_repr]
  · rw [String.toList_append, Nat.toList_repr]
    rfl

theorem digit_of_mem_int {a : ℤ} {c : Char} (h : c ∈ (toString a).toList) :
    c.isDigit ∨ c = '-' := by
  rw [toList_int] at h
  split_ifs at h
  · exact Or.inl (Nat.isDigit_of_mem_toDigits (by omega) (by omega) h)
  · cases h with
    | head => exact Or.inr rfl
    | tail _ h => exact Or.inl (Nat.isDigit_of_mem_toDigits (by omega) (by omega) h)

theorem length_int_le (n : BitVec 32) : (toString n.toInt).toList.length ≤ 11 := by
  have hlow := n.le_two_mul_toInt
  have hhigh := n.two_mul_toInt_lt
  rw [toList_int]
  split_ifs with hneg
  · have := (Nat.length_toDigits_le_iff (n := n.toInt.toNat) (k := 11) (by decide : 1 < 10)
      (by omega)).mpr (by omega)
    exact this
  · have := (Nat.length_toDigits_le_iff (n := (-n.toInt).toNat) (k := 10) (by decide : 1 < 10)
      (by omega)).mpr (by omega)
    rw [List.length_cons]
    omega

theorem int_injective {a b : ℤ} (h : toString a = toString b) : a = b := by
  have hminus : ∀ n, '-' ∉ Nat.toDigits 10 n := fun n hmem =>
    absurd (Nat.isDigit_of_mem_toDigits (by omega) (by omega) hmem) (by decide)
  have hdigits : Function.Injective (Nat.toDigits 10) :=
    toDigits_injective (by decide) (by decide)
  have hlist := congrArg String.toList h
  rw [toList_int, toList_int] at hlist
  split_ifs at hlist with ha hb hb
  · have := hdigits hlist
    omega
  · exact absurd (hlist ▸ List.mem_cons_self) (hminus a.toNat)
  · exact absurd (hlist ▸ List.mem_cons_self) (hminus b.toNat)
  · have := hdigits (List.cons.inj hlist).2
    omega

theorem digit_of_mem_mark {i : ℕ} {c : Char} (h : c ∈ (mark i).toList) : c.isDigit ∨ c = '-' := by
  cases i with
  | zero => exact absurd h List.not_mem_nil
  | succ i =>
    rw [mark, String.toList_append, List.mem_append] at h
    obtain h | h := h
    · exact Or.inr (List.mem_singleton.mp h)
    · exact digit_of_mem_int h

theorem length_mark_le (i : ℕ) : (mark i).toList.length ≤ 12 := by
  cases i with
  | zero => decide
  | succ i =>
    have := length_int_le (BitVec.ofNat 32 (i + 1))
    rw [mark, String.toList_append, List.length_append]
    change 1 + _ ≤ 12
    omega

/-- The marks differ until the counter comes around. -/
theorem mark_injective {i j : ℕ} (hi : i < tries) (hj : j < tries) (h : mark i = mark j) :
    i = j := by
  have hne : ∀ k, mark (k + 1) ≠ mark 0 := by
    intro k hk
    have := congrArg (fun s => s.toList) hk
    simp [mark] at this
  unfold tries at hi hj
  cases i with
  | zero =>
    cases j with
    | zero => rfl
    | succ j => exact absurd h.symm (hne j)
  | succ i =>
    cases j with
    | zero => exact absurd h (hne i)
    | succ j =>
      have hint : (BitVec.ofNat 32 (i + 1)).toInt = (BitVec.ofNat 32 (j + 1)).toInt := by
        simp only [mark, String.append_right_inj] at h
        exact int_injective h
      have hbits := congrArg BitVec.toNat (BitVec.toInt_inj.mp hint)
      rw [BitVec.toNat_ofNat, BitVec.toNat_ofNat] at hbits
      omega

/-- **The candidates differ from one another.** -/
theorem candidate_injective {hash ext : String} {i j : ℕ} (hi : i < tries) (hj : j < tries)
    (h : candidate hash ext i = candidate hash ext j) : i = j := by
  rw [candidate_eq, candidate_eq] at h
  refine mark_injective hi hj ?_
  have hlist := congrArg String.toList h
  simp only [String.toList_append, List.append_assoc, List.append_cancel_left_eq] at hlist
  exact String.toList_inj.mp (List.append_cancel_right hlist)

/-! ### Every candidate is a good name -/

/-- The digest of a bundle's URL. -/
def urlHash (sha : Digest) (url : String) : String := sha256Hex sha.run (utf8 url)

theorem alphanum_of_mem_urlHash {sha : Digest} {url : String} {c : Char}
    (h : c ∈ (urlHash sha url).toList) : c.isAlphanum = true := by
  have hdigit : ∀ x : Fin 16, (Nat.digitChar x.val).isAlphanum = true := by decide
  rw [urlHash, sha256Hex, String.toList_ofList, List.mem_flatMap] at h
  obtain ⟨b, -, hc⟩ := h
  have hb : b.toNat < 256 := b.toNat_lt
  rw [hexByte, List.mem_cons, List.mem_singleton] at hc
  obtain rfl | rfl := hc
  · exact hdigit ⟨b.toNat / 16, by omega⟩
  · exact hdigit ⟨b.toNat % 16, by omega⟩

theorem length_urlHash (sha : Digest) (url : String) : (urlHash sha url).toList.length = 64 := by
  have hbytes : ∀ bs : List UInt8, (bs.flatMap hexByte).length = 2 * bs.length := by
    intro bs
    induction bs with
    | nil => rfl
    | cons b bs ih =>
      rw [List.flatMap_cons, List.length_append, ih, List.length_cons]
      change 2 + _ = _
      omega
  rw [urlHash, sha256Hex, String.toList_ofList, hbytes, sha.length_run]

theorem carriedExtension_spec (fileName : String) :
    (utf8 (carriedExtension fileName)).length ≤ maxExtension ∧
      ∀ c ∈ (carriedExtension fileName).toList, c.isAlphanum = true := by
  cases h : recognisedExtension fileName with
  | none =>
    rw [carriedExtension, h]
    exact ⟨by decide +kernel, List.all_eq_true.mp (by decide +kernel)⟩
  | some e =>
    rw [carriedExtension, h]
    have hgood := (Option.filter_eq_some_iff.mp h).2
    rw [Bool.and_eq_true, decide_eq_true_eq, List.all_eq_true] at hgood
    exact hgood

theorem toNat_lt_of_alphanum {c : Char} (h : c.isAlphanum = true) : c.toNat < 128 := by
  simp only [Char.isAlphanum, Char.isAlpha, Char.isUpper, Char.isLower, Char.isDigit,
    Bool.or_eq_true, Bool.and_eq_true, decide_eq_true_eq, ge_iff_le, UInt32.le_iff_toNat_le] at h
  change (_ ∧ c.toNat ≤ _ ∨ _ ∧ c.toNat ≤ _) ∨ _ ∧ c.toNat ≤ _ at h
  simp at h
  omega

/-- The characters of a candidate. -/
theorem mem_candidate {sha : Digest} {url fileName : String} {i : ℕ} {c : Char}
    (h : c ∈ (candidate (urlHash sha url) (carriedExtension fileName) i).toList) :
    c.isAlphanum = true ∨ c = '-' ∨ c = '.' := by
  rw [candidate_eq, String.toList_append, String.toList_append, String.toList_append] at h
  simp only [List.mem_append] at h
  obtain ((h | h) | h) | h := h
  · exact Or.inl (alphanum_of_mem_urlHash h)
  · obtain hdigit | hminus := digit_of_mem_mark h
    · exact Or.inl (by rw [Char.isAlphanum, hdigit, Bool.or_true])
    · exact Or.inr (Or.inl hminus)
  · exact Or.inr (Or.inr (List.mem_singleton.mp h))
  · exact Or.inl ((carriedExtension_spec fileName).2 c h)

theorem length_toList_candidate (sha : Digest) (url ext : String) (i : ℕ) :
    (candidate (urlHash sha url) ext i).toList.length =
      64 + (mark i).toList.length + 1 + ext.toList.length := by
  simp only [candidate_eq, String.toList_append, List.length_append, length_urlHash]
  rfl

/-- **A candidate is short**: at most 93 bytes. -/
theorem length_candidate (sha : Digest) (url fileName : String) (i : ℕ) :
    (utf8 (candidate (urlHash sha url) (carriedExtension fileName) i)).length ≤
      maxBundleFileName := by
  have hmark := length_mark_le i
  obtain ⟨hlen, hext⟩ := carriedExtension_spec fileName
  rw [length_utf8_of_ascii fun c hc => toNat_lt_of_alphanum (hext c hc)] at hlen
  rw [length_utf8_of_ascii, length_toList_candidate]
  · unfold maxExtension at hlen
    unfold maxBundleFileName
    omega
  · intro c hc
    obtain halpha | rfl | rfl := mem_candidate hc
    · exact toNat_lt_of_alphanum halpha
    · decide
    · decide

/-- **A candidate names a file of a directory.** -/
theorem entryName_candidate (sha : Digest) (url fileName : String) (i : ℕ) :
    EntryName (candidate (urlHash sha url) (carriedExtension fileName) i) := by
  have hlen := length_toList_candidate sha url (carriedExtension fileName) i
  refine ⟨?_, ?_, ?_, ?_⟩
  · intro h
    rw [h] at hlen
    exact absurd hlen (by simp; omega)
  · intro h
    rw [h] at hlen
    exact absurd hlen (by simp; omega)
  · intro h
    rw [h] at hlen
    exact absurd hlen (by simp; omega)
  · intro h
    have hchar := mem_candidate h
    exact absurd hchar (by decide)

/-- The extension of a name that was put together of a stem and an extension. -/
theorem extension_of_stem {stem ext : String} (hstem : 2 ≤ stem.toList.length)
    (hext : '.' ∉ ext.toList) : Store.extension (stem ++ "." ++ ext) = some ext := by
  have hlist : (stem ++ "." ++ ext).toList = stem.toList ++ '.' :: ext.toList := by
    simp
  have hne : stem ++ "." ++ ext ≠ ".." := by
    intro h
    have hlen := congrArg (fun s => s.toList.length) h
    simp only [hlist, List.length_append, List.length_cons] at hlen
    change _ = 2 at hlen
    omega
  have hreverse : (stem.toList ++ '.' :: ext.toList).reverse =
      ext.toList.reverse ++ '.' :: stem.toList.reverse := by
    simp
  have htake : (ext.toList.reverse ++ '.' :: stem.toList.reverse).takeWhile (· ≠ '.') =
      ext.toList.reverse := by
    rw [List.takeWhile_append_of_pos, List.takeWhile_cons_of_neg, List.append_nil]
    · simp
    · intro c hc
      have : c ≠ '.' := by
        rintro rfl
        exact hext (List.mem_reverse.mp hc)
      simp [this]
  have hnonempty : stem.toList.reverse.isEmpty = false := by
    rw [List.isEmpty_reverse]
    cases hs : stem.toList with
    | nil => rw [hs] at hstem; exact absurd hstem (by decide)
    | cons c cs => rfl
  rw [Store.extension, if_neg hne, hlist, hreverse]
  simp only [htake, List.drop_left, hnonempty, Bool.false_eq_true, if_false,
    List.reverse_reverse, String.ofList_toList]

theorem extension_candidate (sha : Digest) (url fileName : String) (i : ℕ) :
    Store.extension (candidate (urlHash sha url) (carriedExtension fileName) i) =
      some (carriedExtension fileName) := by
  rw [candidate_eq]
  apply extension_of_stem
  · rw [String.toList_append, List.length_append, length_urlHash]
    omega
  · intro h
    exact absurd ((carriedExtension_spec fileName).2 '.' h) (by decide)

/-! ### One name -/

/-- What the loop ends with is one of the names, and it is free. -/
theorem numberedName_spec {used : List String} {hash ext name : String} :
    ∀ {fuel i : ℕ}, numberedName used hash ext fuel (BitVec.ofNat 32 (i + 1))
      (candidate hash ext i) = some name → name ∉ used ∧ ∃ j, name = candidate hash ext j
  | 0, i, h => nomatch h
  | fuel + 1, i, h => by
    rw [numberedName_succ] at h
    split_ifs at h with hmem
    · exact numberedName_spec h
    · cases h
      exact ⟨hmem, i, rfl⟩

/-- The loop ends when one of the names ahead is free. -/
theorem numberedName_ends {used : List String} {hash ext : String} {k : ℕ} :
    ∀ {fuel i : ℕ}, candidate hash ext (i + k) ∉ used → k < fuel →
      ∃ name, numberedName used hash ext fuel (BitVec.ofNat 32 (i + 1)) (candidate hash ext i) =
        some name := by
  induction k with
  | zero =>
    rintro (_ | fuel) i hfree hfuel
    · omega
    · rw [Nat.add_zero] at hfree
      rw [numberedName_succ, if_neg hfree]
      exact ⟨_, rfl⟩
  | succ k ih =>
    rintro (_ | fuel) i hfree hfuel
    · omega
    · rw [numberedName_succ]
      split_ifs
      · refine ih ?_ (by omega)
        rwa [show i + 1 + k = i + (k + 1) by omega]
      · exact ⟨_, rfl⟩

theorem diskFileName_spec {sha : Digest} {fuel : ℕ} {fileName url name : String}
    {used : List String} (h : diskFileName sha fuel fileName url used = some name) :
    name ∉ used ∧ (name = fileName ∧ (utf8 fileName).length ≤ maxBundleFileName ∨
      ∃ j, name = candidate (urlHash sha url) (carriedExtension fileName) j) := by
  rw [diskFileName] at h
  split_ifs at h with hfree
  · cases h
    exact ⟨hfree.2, Or.inl ⟨rfl, hfree.1⟩⟩
  · obtain ⟨hname, hj⟩ := numberedName_spec (i := 0) h
    exact ⟨hname, Or.inr hj⟩

theorem diskFileName_of_short {sha : Digest} {fuel : ℕ} {fileName url name : String}
    {used : List String} (h : diskFileName sha fuel fileName url used = some name)
    (hshort : (utf8 fileName).length ≤ maxBundleFileName) : fileName ∈ name :: used := by
  by_cases hused : fileName ∈ used
  · exact List.mem_cons_of_mem _ hused
  · rw [diskFileName, if_pos ⟨hshort, hused⟩] at h
    cases h
    exact List.mem_cons_self

/-- A name a bundle can be saved under. -/
structure GoodName (b : NamedBundle) (name : String) : Prop where
  short : (utf8 name).length ≤ maxBundleFileName
  keeps : ∀ e, recognisedExtension b.fileName = some e → Store.extension name = some e

theorem goodName_diskFileName {sha : Digest} {fuel : ℕ} {b : NamedBundle} {used : List String}
    {name : String} (h : diskFileName sha fuel b.fileName b.url used = some name) :
    GoodName b name := by
  obtain ⟨rfl, hshort⟩ | ⟨j, rfl⟩ := (diskFileName_spec h).2
  · exact ⟨hshort, fun e he => (Option.filter_eq_some_iff.mp he).1⟩
  · refine ⟨length_candidate sha b.url b.fileName j, fun e he => ?_⟩
    rw [extension_candidate, carriedExtension, he, Option.getD_some]

/-! ### The whole list -/

/-- A bundle is in the directory, under a name it can be saved under. -/
structure SavedAs (dir : Directory) (b : NamedBundle) (name : String) : Prop where
  good : GoodName b name
  written : dir name = some b.bytes

/-- What a successful saving does. -/
structure Saved (bundles : List NamedBundle) (used : List String) (dir : Directory)
    (names : List String) (after : Directory) : Prop where
  distinct : names.Nodup
  fresh : ∀ name ∈ names, name ∉ used
  proper : ∀ name ∈ names, EntryName name
  saved : List.Forall₂ (SavedAs after) bundles names
  shorts : ∀ b ∈ bundles, (utf8 b.fileName).length ≤ maxBundleFileName →
    b.fileName ∈ names ∨ b.fileName ∈ used
  frame : ∀ name ∉ names, after name = dir name

theorem fsWrite_eq_some {dir dir' : Directory} {name : String} {bytes : Bytes}
    (h : fsWrite dir name bytes = some dir') :
    EntryName name ∧ dir' = Function.update dir name (some bytes) := by
  rw [fsWrite] at h
  split_ifs at h with hname
  cases h
  exact ⟨hname, rfl⟩

/-- **A run that ends well has saved every bundle** under a name of its own. -/
theorem saved_saveFrom {sha : Digest} {fuel : ℕ} : ∀ {bundles : List NamedBundle}
    {used : List String} {dir : Directory} {names : List String} {after : Directory},
    saveFrom sha fuel bundles used dir = some (.ok names, after) →
      Saved bundles used dir names after
  | [], used, dir, names, after, h => by
    cases h
    exact ⟨List.nodup_nil, nofun, nofun, .nil, nofun, fun _ _ => rfl⟩
  | b :: bundles, used, dir, names, after, h => by
    rw [saveFrom] at h
    cases hname : diskFileName sha fuel b.fileName b.url used with
    | none =>
      rw [hname] at h
      cases h
    | some name =>
      cases hwrite : fsWrite dir name b.bytes with
      | none =>
        simp only [hname, hwrite] at h
        cases h
      | some dir' =>
        simp only [hname, hwrite] at h
        obtain ⟨⟨outcome, last⟩, hrest, hr⟩ := Option.map_eq_some_iff.mp h
        cases outcome with
        | error bad => cases hr
        | ok rest =>
          cases hr
          have ih := saved_saveFrom hrest
          obtain ⟨hentry, rfl⟩ := fsWrite_eq_some hwrite
          have hnot : name ∉ rest := fun hmem => ih.fresh name hmem List.mem_cons_self
          constructor
          case distinct => exact List.nodup_cons.mpr ⟨hnot, ih.distinct⟩
          case fresh =>
            rw [List.forall_mem_cons]
            refine ⟨(diskFileName_spec hname).1, fun x hx hused => ?_⟩
            exact ih.fresh x hx (List.mem_cons_of_mem _ hused)
          case proper => exact List.forall_mem_cons.mpr ⟨hentry, ih.proper⟩
          case saved =>
            refine .cons ⟨goodName_diskFileName hname, ?_⟩ ih.saved
            exact (ih.frame name hnot).trans (Function.update_self _ _ _)
          case shorts =>
            have hlater : ∀ {x : String}, x ∈ name :: used → x ∈ name :: rest ∨ x ∈ used := by
              intro x hx
              obtain rfl | hx := List.mem_cons.mp hx
              · exact Or.inl List.mem_cons_self
              · exact Or.inr hx
            rw [List.forall_mem_cons]
            refine ⟨fun hshort => hlater (diskFileName_of_short hname hshort), ?_⟩
            intro c hc hshort
            obtain hin | hused := ih.shorts c hc hshort
            · exact Or.inl (List.mem_cons_of_mem _ hin)
            · exact hlater hused
          case frame =>
            intro x hx
            rw [List.mem_cons, not_or] at hx
            exact (ih.frame x hx.2).trans (Function.update_of_ne hx.1 _ _)

/-! ### When the saving ends well -/

/-- A name is among the candidates of a bundle. -/
def isCandidate (sha : Digest) (b : NamedBundle) (name : String) : Bool :=
  decide (∃ i, i < tries ∧ name = candidate (urlHash sha b.url) (carriedExtension b.fileName) i)

/-- A bundle can take a candidate of another: its own name is one, or its candidates are. -/
def competes (sha : Digest) (b c : NamedBundle) : Bool :=
  isCandidate sha b c.fileName ||
    decide (urlHash sha c.url = urlHash sha b.url ∧
      carriedExtension c.fileName = carriedExtension b.fileName)

/-- No short file name is that of a directory, or has a NUL. -/
def ProperNames (bundles : List NamedBundle) : Prop :=
  ∀ b ∈ bundles, (utf8 b.fileName).length ≤ maxBundleFileName → EntryName b.fileName

/-- No bundle has more competitors than there are numbers. -/
def Numberable (sha : Digest) (bundles : List NamedBundle) : Prop :=
  ∀ b ∈ bundles, bundles.countP (competes sha b) ≤ tries

theorem competes_self (sha : Digest) (b : NamedBundle) : competes sha b b = true := by
  simp [competes]

/-- Who took a candidate of a bundle competes with it. -/
theorem competes_of_isCandidate {sha : Digest} {fuel : ℕ} {b c : NamedBundle}
    {used : List String} {name : String}
    (h : diskFileName sha fuel c.fileName c.url used = some name)
    (hcandidate : isCandidate sha b name = true) : competes sha b c = true := by
  rw [competes, Bool.or_eq_true, decide_eq_true_eq]
  obtain ⟨rfl, -⟩ | ⟨j, rfl⟩ := (diskFileName_spec h).2
  · exact Or.inl hcandidate
  · rw [isCandidate, decide_eq_true_eq] at hcandidate
    obtain ⟨i, -, hi⟩ := hcandidate
    have hext := congrArg Store.extension hi
    rw [extension_candidate, extension_candidate] at hext
    have hhash := congrArg String.toList hi
    simp only [candidate_eq, String.toList_append, List.append_assoc] at hhash
    have htake := (List.append_inj hhash (by rw [length_urlHash, length_urlHash])).1
    exact Or.inr ⟨String.toList_inj.mp htake, Option.some.inj hext⟩

/-- While a bundle has fewer competitors than there are candidates, it gets a name. -/
theorem diskFileName_ends {sha : Digest} {b : NamedBundle} {used : List String}
    (h : used.countP (isCandidate sha b) < tries) :
    ∃ name, diskFileName sha tries b.fileName b.url used = some name := by
  rw [diskFileName]
  split_ifs
  · exact ⟨_, rfl⟩
  · obtain ⟨k, hk, hfree⟩ := exists_free_of_countP_lt
      (candidate (urlHash sha b.url) (carriedExtension b.fileName))
      (fun i hi j hj => candidate_injective hi hj)
      (fun i hi => decide_eq_true ⟨i, hi, rfl⟩) h
    rw [← Nat.zero_add k] at hfree
    exact numberedName_ends hfree hk

theorem entryName_diskFileName {sha : Digest} {fuel : ℕ} {b : NamedBundle} {used : List String}
    {name : String} (h : diskFileName sha fuel b.fileName b.url used = some name)
    (hproper : (utf8 b.fileName).length ≤ maxBundleFileName → EntryName b.fileName) :
    EntryName name := by
  obtain ⟨rfl, hshort⟩ | ⟨j, rfl⟩ := (diskFileName_spec h).2
  · exact hproper hshort
  · exact entryName_candidate sha b.url b.fileName j

/-- **The saving ends well** when every name is proper and there are numbers enough. -/
theorem saveFrom_ends {sha : Digest} : ∀ {bundles : List NamedBundle} {used : List String}
    {dir : Directory}, ProperNames bundles →
      (∀ b ∈ bundles, used.countP (isCandidate sha b) + bundles.countP (competes sha b) ≤ tries) →
      ∃ names after, saveFrom sha tries bundles used dir = some (.ok names, after)
  | [], used, dir, _, _ => ⟨[], dir, rfl⟩
  | b :: bundles, used, dir, hproper, hroom => by
    obtain ⟨hb, hproper⟩ := List.forall_mem_cons.mp hproper
    obtain ⟨hroomB, hroom⟩ := List.forall_mem_cons.mp hroom
    rw [List.countP_cons_of_pos (competes_self sha b)] at hroomB
    obtain ⟨name, hname⟩ := diskFileName_ends
      (show used.countP (isCandidate sha b) < tries by omega)
    have hwrite : fsWrite dir name b.bytes = some (Function.update dir name (some b.bytes)) :=
      if_pos (entryName_diskFileName hname hb)
    -- a name that is a candidate of a later bundle was taken by a competitor of it
    have hlater : ∀ c ∈ bundles, (name :: used).countP (isCandidate sha c) +
        bundles.countP (competes sha c) ≤ tries := by
      intro c hc
      have hrest := hroom c hc
      rw [List.countP_cons] at hrest ⊢
      by_cases htaken : isCandidate sha c name = true
      · rw [if_pos (competes_of_isCandidate hname htaken)] at hrest
        rw [if_pos htaken]
        omega
      · rw [if_neg htaken]
        omega
    obtain ⟨names, after, hrun⟩ : ∃ names after, saveFrom sha tries bundles (name :: used)
        (Function.update dir name (some b.bytes)) = some (.ok names, after) :=
      saveFrom_ends hproper hlater
    refine ⟨name :: names, after, ?_⟩
    rw [saveFrom]
    simp only [hname, hwrite, hrun]
    rfl

/-- Saving writes every bundle, under short names all different that keep its extension. -/
def SavesEvery (sha : Digest) (dir : Directory) (bundles : List NamedBundle) : Prop :=
  ∃ fuel names after, saveBundles sha fuel bundles dir = some (.ok names, after) ∧
    names.Nodup ∧ List.Forall₂ (SavedAs after) bundles names

/-- **Which lists are saved whole.**  Those whose short names are names of files, as long as no
bundle has more competitors than numbers; a list with another name is never saved whole. -/
theorem saves_iff (sha : Digest) (dir : Directory) (bundles : List NamedBundle) :
    (ProperNames bundles ∧ Numberable sha bundles → SavesEvery sha dir bundles) ∧
      (SavesEvery sha dir bundles → ProperNames bundles) := by
  constructor
  · rintro ⟨hproper, hroom⟩
    obtain ⟨names, after, hrun⟩ : ∃ names after, saveFrom sha tries bundles [] dir =
        some (.ok names, after) :=
      saveFrom_ends hproper fun b hb => by simpa using hroom b hb
    have hsaved := saved_saveFrom hrun
    exact ⟨tries, names, after, hrun, hsaved.distinct, hsaved.saved⟩
  · rintro ⟨fuel, names, after, hrun, -, -⟩ b hb hshort
    have hsaved := saved_saveFrom hrun
    obtain hmem | hmem := hsaved.shorts b hb hshort
    · exact hsaved.proper _ hmem
    · cases hmem

/-- The last segment of this URL is the parent directory, and nothing is saved. -/
theorem not_savesEvery_parent :
    ¬ SavesEvery ⟨fun _ => List.replicate 32 0, fun _ => rfl⟩ (fun _ => none)
      [.ofUrl "https://static.whatsapp.net/rsrc.php/..?x.js" [1]] := by
  rintro ⟨fuel, names, after, hrun, -, -⟩
  have hname : bundleFileName "https://static.whatsapp.net/rsrc.php/..?x.js" = ".." := by decide
  have hsaved := saved_saveFrom hrun
  have hshort := hsaved.shorts _ List.mem_cons_self
  simp only [NamedBundle.ofUrl, hname] at hshort
  obtain hmem | hmem := hshort (by decide)
  · exact absurd (hsaved.proper _ hmem) (by decide)
  · cases hmem

end Whatspec.Fetch

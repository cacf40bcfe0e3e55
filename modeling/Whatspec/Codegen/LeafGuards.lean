import Whatspec.Codegen.ValueUnions

/-!
# What the guard of a leaf guarantees

An alternative of a union of values is taken only where its leaves pass their guards.  A guard is
one check of the leaf; where it covers all that the leaf declares, the leaf is absent and optional,
or it is there with a value that all its constraints accept, and the member is that value.

* `ParsedField.Accepts` is what the constraints of a leaf say of its raw value, all together;
* `ParsedField.Covered` is what a leaf must be like for one check to do;
* `accepts_of_guard` and `enforced_of_accepts` are the result for one leaf.
-/

namespace Whatspec.Codegen

/-! ### Numbers in bytes -/

/-- The number that big-endian bytes are. -/
def bigEndian (b : List UInt8) : ℕ := b.foldl (fun n x => 256 * n + x.toNat) 0

theorem toNat_shift_or (a : UInt64) (x : UInt8) :
    (a <<< 8 ||| x.toUInt64).toNat = (256 * a.toNat + x.toNat) % 2 ^ 64 := by
  have hx : x.toNat < 2 ^ 8 := x.toNat_lt
  have h8 : (8 : UInt64).toNat % 64 = 8 := rfl
  rw [UInt64.toNat_or, UInt64.toNat_shiftLeft, UInt8.toNat_toUInt64, h8, Nat.shiftLeft_eq]
  have hmod : a.toNat * 2 ^ 8 % 2 ^ 64 = a.toNat % 2 ^ 56 * 2 ^ 8 := by omega
  rw [hmod, ← Nat.shiftLeft_eq, ← Nat.shiftLeft_add_eq_or_of_lt hx, Nat.shiftLeft_eq]
  omega

/-- The fold keeps the number modulo the width. -/
theorem toNat_foldl_shift (b : List UInt8) (a : UInt64) (n : ℕ) (h : a.toNat = n % 2 ^ 64) :
    (b.foldl (fun (acc : UInt64) x => acc <<< 8 ||| x.toUInt64) a).toNat =
      b.foldl (fun n x => 256 * n + x.toNat) n % 2 ^ 64 := by
  induction b generalizing a n with
  | nil => exact h
  | cons x b ih =>
    refine ih _ _ ?_
    rw [toNat_shift_or, h, Nat.add_mod, Nat.mul_mod_mod, ← Nat.add_mod]

theorem toNat_foldUint {b : List UInt8} (h : bigEndian b < 2 ^ 64) :
    (foldUint b).toNat = bigEndian b := by
  rw [foldUint, toNat_foldl_shift b 0 0 rfl]
  exact Nat.mod_eq_of_lt h

/-! ### The contract of a leaf -/

/-- What is on the wire for a leaf. -/
inductive RawValue where
  | text (s : String)
  | bytes (b : List UInt8)

def RawValue.size : RawValue → ℕ
  | .text s => s.utf8ByteSize
  | .bytes b => b.length

def hexDigit (n : ℕ) : Char := Char.ofNat (if n < 10 then n + 48 else n + 87)

/-- Bytes as pins spell them. -/
def bytesHex (b : List UInt8) : String :=
  String.ofList (b.flatMap fun x => [hexDigit (x.toNat / 16), hexDigit (x.toNat % 16)])

section Contract

variable {ν J : Type} (nodes : ValueReader ν J) (flavored : ParsedFieldType → J → Bool)

/-- Where a leaf is read. -/
def ParsedField.place (f : ParsedField) (node : ν) : Option ν :=
  descendOpt nodes.toNodeReader node (f.sourcePath.getD [])

def ParsedField.raw (f : ParsedField) (place : ν) : Option RawValue :=
  if isContentMethod f.method then
    match rawContent f with
    | .bytes => (nodes.contentBytes place).map .bytes
    | .text => (nodes.contentStr place).map .text
  else (nodes.getAttr place f.wire).map .text

/-- Something is there for the leaf, readable or not. -/
def ParsedField.isThere (f : ParsedField) (place : ν) : Bool :=
  if isContentMethod f.method then
    (nodes.contentBytes place).isSome || (nodes.contentStr place).isSome
  else (nodes.getAttr place f.wire).isSome

/-- The value of a raw value, at the type of the accessor. -/
def ParsedField.decode (f : ParsedField) (raw : RawValue) : Option (WireValue J) :=
  match if isContentMethod f.method then contentDecoder f else attrDecoder f, raw with
  | .text, .text s => some (.text s)
  | .integer w, .text s => (parseInteger w s).map .integer
  | .jid, .text s => (nodes.toJid s).map .jid
  | .bytes, .bytes b => some (.bytes b)
  | .uint, .bytes b => some (.integer (bigEndian b))
  | _, _ => none

/-- A value is what a pin says.  Pins are texts; one on a JID is about its spelling. -/
def WireValue.IsPinnedTo (raw : RawValue) (lit : String) : WireValue J → Prop
  | .integer n => parseInteger .i128 lit = some n
  | .bytes b => bytesHex b = lit
  | .text s => s = lit
  | .jid _ => raw = .text lit

def ParsedField.sizeFits (f : ParsedField) (len : ℕ) : Bool :=
  f.byteLength.all (len = ·) && f.byteMin.all (· ≤ len) && f.byteMax.all (len ≤ ·)

def ParsedField.numberFits (f : ParsedField) (n : ℤ) : Bool :=
  (f.intMin.all fun lo => lo ≤ n) && f.intMax.all fun hi => n ≤ hi

/-- All constraints of a leaf together.  What the accessor of a JID demands beyond a JID is its
flavor. -/
structure ParsedField.Accepts (f : ParsedField) (raw : RawValue) (v : WireValue J) : Prop where
  decodes : f.decode nodes raw = some v
  flavor : ∀ j, v = .jid j → flavored (methodFieldType f.method) j = true
  vocabulary : ∀ values, enumValues f = some values → ∃ s ∈ values, raw = .text s
  pin : ∀ lit, f.literalValue = some lit → v.IsPinnedTo raw lit
  number : ∀ n, v = .integer n → f.numberFits n = true
  size : f.sizeFits raw.size = true

/-- What a member is: the decoded value that all constraints accept, at the place of the leaf, or
nothing for an optional leaf that is absent. -/
def ParsedField.Enforced (f : ParsedField) (node : ν) : Stored J → Prop
  | .plain v | .option (some v) =>
    ∃ place raw, f.place nodes node = some place ∧ f.raw nodes place = some raw ∧
      f.Accepts nodes flavored raw v
  | .option none =>
    f.parserRequired = false ∧
      ∀ place, f.place nodes node = some place → f.isThere nodes place = false

/-! ### Leaves that are covered -/

/-- No length is declared. -/
def ParsedField.sizeFree (f : ParsedField) : Prop :=
  f.byteLength = none ∧ f.byteMin = none ∧ f.byteMax = none

/-- The one check of a leaf covers all its constraints, on this node. -/
structure ParsedField.Covered (f : ParsedField) (node : ν) : Prop where
  /-- The leaf is read off the node itself. -/
  here : f.sourcePath.getD [] = []
  /-- A fixed length does not contradict a range. -/
  fixed : (f.byteLength.all fun n => (f.byteMin.all (· ≤ n)) && f.byteMax.all (n ≤ ·)) = true
  /-- The values of a vocabulary are texts that meet the other constraints. -/
  vocabulary : ∀ values, enumValues f = some values →
    (isContentMethod f.method = true → rawContent f = .text) ∧
      ∀ s ∈ values, ∃ v, f.Accepts nodes flavored (.text s) v
  /-- A content has no pin; a number has no length, unless it is made of bytes, and then no
  range. -/
  content : isContentMethod f.method = true → enumValues f = none →
    f.literalValue = none ∧
      (∀ w, contentDecoder f = .integer w → f.sizeFree) ∧
      (contentDecoder f = .uint → (f.intMin.all fun lo => lo ≤ 0) = true ∧ f.intMax = none)
  /-- A pin meets the other constraints. -/
  pin : isContentMethod f.method = false → enumValues f = none → ∀ lit,
    f.literalValue = some lit →
      match pinnedInteger f lit with
      | some n => f.numberFits n = true ∧ f.sizeFree
      | none => ∃ v, f.Accepts nodes flavored (.text lit) v
  /-- Any other attribute has no length, and its accessor takes every JID. -/
  attr : isContentMethod f.method = false → enumValues f = none → f.literalValue = none →
    f.sizeFree ∧ ((methodFieldType f.method).isJid = true → ∀ s j, nodes.toJid s = some j →
      flavored (methodFieldType f.method) j = true)
  /-- The content for an optional leaf is of the kind that the leaf reads. -/
  readable : f.parserRequired = false → isContentMethod f.method = true →
    f.isThere nodes node = true → ((rawContent f).size nodes node).isSome = true
  /-- The bytes of a number fit its width. -/
  fits : f.method = "contentUint" → ∀ b, nodes.contentBytes node = some b → bigEndian b < 2 ^ 64

end Contract

/-! ### One leaf -/

section Leaf

variable {ν J : Type} {nodes : ValueReader ν J} {flavored : ParsedFieldType → J → Bool}
  {f : ParsedField} {node : ν}

theorem sizeFits_of_sizeFree (h : f.sizeFree) (len : ℕ) : f.sizeFits len = true := by
  rw [ParsedField.sizeFits, h.1, h.2.1, h.2.2]
  rfl

theorem methodFieldType_contentUint : methodFieldType "contentUint" = .integer := by decide

/-- How contents are read, by the decoder. -/
theorem rawContent_eq (f : ParsedField) :
    rawContent f = match (contentDecoder f : Decoder) with
      | .uint | .bytes => .bytes
      | _ => .text := by
  by_cases huint : f.method = "contentUint"
  · rw [rawContent, contentDecoder, if_pos huint, huint, methodFieldType_contentUint]
    rfl
  · rw [rawContent, contentDecoder, if_neg huint, if_neg huint]
    cases methodFieldType f.method <;> rfl

theorem decode_content_eq (hcontent : isContentMethod f.method = true) (raw : RawValue) :
    f.decode nodes raw = match contentDecoder f, raw with
      | .text, .text s => some (.text s)
      | .integer w, .text s => (parseInteger w s).map .integer
      | .jid, .text s => (nodes.toJid s).map .jid
      | .bytes, .bytes b => some (.bytes b)
      | .uint, .bytes b => some (.integer (bigEndian b))
      | _, _ => none := by
  simp only [ParsedField.decode, hcontent, if_true]

/-- No content is decoded to a JID. -/
theorem contentDecoder_ne_jid (f : ParsedField) : contentDecoder f ≠ .jid := by
  intro hd
  rw [contentDecoder] at hd
  split_ifs at hd
  cases ht : methodFieldType f.method <;> rw [ht] at hd <;> cases hd

/-- The expression of a content reads what the contract decodes. -/
theorem content_eq_decode (hcontent : isContentMethod f.method = true)
    (hfits : f.method = "contentUint" → ∀ b, nodes.contentBytes node = some b →
      bigEndian b < 2 ^ 64) :
    (contentDecoder f).content nodes node = (f.raw nodes node).bind (f.decode nodes) := by
  have hdecode : ∀ raw, f.decode nodes raw = _ := decode_content_eq hcontent
  have huint : contentDecoder f = .uint → f.method = "contentUint" := by
    intro h
    by_contra hne
    rw [contentDecoder, if_neg hne] at h
    cases ht : methodFieldType f.method <;> rw [ht] at h <;> cases h
  rw [ParsedField.raw, if_pos hcontent, rawContent_eq]
  cases hd : contentDecoder f with
  | text =>
    cases hs : nodes.contentStr node <;> simp [Decoder.content, hdecode, hd, hs]
  | integer w =>
    cases hs : nodes.contentStr node <;> simp [Decoder.content, hdecode, hd, hs]
  | bytes =>
    cases hb : nodes.contentBytes node <;> simp [Decoder.content, hdecode, hd, hb]
  | uint =>
    cases hb : nodes.contentBytes node with
    | none => simp [Decoder.content, hb]
    | some b =>
      have hfold := toNat_foldUint (hfits (huint hd) b hb)
      simp [Decoder.content, hdecode, hd, hb, hfold]
  | jid => exact absurd hd (contentDecoder_ne_jid f)

/-- The expression of an attribute reads what the contract decodes. -/
theorem attr_eq_decode (hattr : isContentMethod f.method = false) :
    (attrDecoder f).attr nodes node f.wire = (f.raw nodes node).bind (f.decode nodes) := by
  rw [ParsedField.raw, hattr, if_neg Bool.false_ne_true]
  cases hs : nodes.getAttr node f.wire with
  | none => cases attrDecoder f <;> simp [Decoder.attr, hs]
  | some s =>
    simp only [Option.map_some, Option.bind_some, ParsedField.decode, hattr, Bool.false_eq_true,
      if_false]
    have hkinds : attrDecoder f = .integer (integerWidth f) ∨ attrDecoder f = .jid ∨
        attrDecoder f = .text := by
      rw [attrDecoder]
      cases methodFieldType f.method <;> simp [ParsedFieldType.isJid]
    obtain hd | hd | hd := hkinds <;> simp [hd, Decoder.attr, hs]

/-- The expression reads what the contract decodes. -/
theorem read_eq_decode (hcovered : f.Covered nodes flavored node) :
    (fieldExpr f).read nodes node = (f.raw nodes node).bind (f.decode nodes) := by
  cases hcontent : isContentMethod f.method with
  | true =>
    rw [← content_eq_decode hcontent hcovered.fits, fieldExpr, hcontent, if_pos rfl]
    rfl
  | false =>
    rw [← attr_eq_decode hcontent, fieldExpr, hcontent, if_neg Bool.false_ne_true]
    rfl

/-- A leaf without vocabulary and pin accepts a value that decodes, in range and in size. -/
theorem accepts_of_plain {raw : RawValue} {v : WireValue J} (hvalues : enumValues f = none)
    (hpin : f.literalValue = none) (hdecodes : f.decode nodes raw = some v)
    (hflavor : ∀ j, v = .jid j → flavored (methodFieldType f.method) j = true)
    (hnumber : ∀ n, v = .integer n → f.numberFits n = true)
    (hsize : f.sizeFits raw.size = true) : f.Accepts nodes flavored raw v where
  decodes := hdecodes
  flavor := hflavor
  vocabulary _ h := by rw [hvalues] at h; cases h
  pin _ h := by rw [hpin] at h; cases h
  number := hnumber
  size := hsize

theorem numberFits_of_intBand (htype : methodFieldType f.method = .integer) {n : ℤ}
    (hfits : (integerWidth f).fits n = true) (hband : (intBand f).all (·.holds n) = true) :
    f.numberFits n = true :=
  Bool.and_eq_true_iff.mpr (bounds_of_intBand htype hfits hband)

theorem sizeFits_of_byteBand (hcovered : f.Covered nodes flavored node) {len : ℕ}
    (hband : (byteBand f).all (·.holds len) = true) : f.sizeFits len = true := by
  obtain ⟨hlength, hmin, hmax⟩ := sizes_of_byteBand hcovered.fixed hband
  rw [ParsedField.sizeFits, hlength, hmin, hmax]
  rfl

/-- The guard of a content: its test holds, or the leaf is optional and nothing is there. -/
theorem guarded_content {raw : RawContent} {test : LeafTest}
    (h : (if f.parserRequired then test else .absentContentOr raw test).holds nodes node = true) :
    test.holds nodes node = true ∨ (raw.size nodes node = none ∧ f.parserRequired = false) := by
  cases hrequired : f.parserRequired with
  | true => exact .inl (by rwa [hrequired, if_pos rfl] at h)
  | false =>
    rw [hrequired, if_neg Bool.false_ne_true, LeafTest.holds, Bool.or_eq_true,
      Option.isNone_iff_eq_none] at h
    exact h.symm.imp_right fun hnone => ⟨hnone, rfl⟩

theorem guarded_attr {test : LeafTest}
    (h : (if f.parserRequired then test else .absentAttrOr f.wire test).holds nodes node = true) :
    test.holds nodes node = true ∨
      (nodes.getAttr node f.wire = none ∧ f.parserRequired = false) := by
  cases hrequired : f.parserRequired with
  | true => exact .inl (by rwa [hrequired, if_pos rfl] at h)
  | false =>
    rw [hrequired, if_neg Bool.false_ne_true, LeafTest.holds, Bool.or_eq_true,
      Option.isNone_iff_eq_none] at h
    exact h.symm.imp_right fun hnone => ⟨hnone, rfl⟩

theorem raw_of_content (hcontent : isContentMethod f.method = true) {len : ℕ}
    (h : (rawContent f).size nodes node = some len) :
    ∃ raw, f.raw nodes node = some raw ∧ raw.size = len := by
  rw [ParsedField.raw, if_pos hcontent]
  cases hkind : rawContent f with
  | bytes =>
    rw [hkind, RawContent.size, Option.map_eq_some_iff] at h
    obtain ⟨b, hb, rfl⟩ := h
    exact ⟨.bytes b, by rw [hb]; rfl, rfl⟩
  | text =>
    rw [hkind, RawContent.size, Option.map_eq_some_iff] at h
    obtain ⟨s, hs, rfl⟩ := h
    exact ⟨.text s, by rw [hs]; rfl, rfl⟩

theorem raw_eq_none (hcontent : isContentMethod f.method = true)
    (h : (rawContent f).size nodes node = none) : f.raw nodes node = none := by
  rw [ParsedField.raw, if_pos hcontent]
  cases hkind : rawContent f <;>
    · rw [hkind, RawContent.size, Option.map_eq_none_iff] at h
      rw [h]
      rfl

/-- What a content is decoded to: a number only by a decoder of numbers, and never a JID. -/
theorem decode_content (hcontent : isContentMethod f.method = true) {raw : RawValue}
    {v : WireValue J} (h : f.decode nodes raw = some v) :
    (∀ j, v ≠ .jid j) ∧ (∀ n, v = .integer n → (∃ w, contentDecoder f = .integer w) ∨
      (contentDecoder f = .uint ∧ 0 ≤ n)) := by
  rw [decode_content_eq hcontent] at h
  cases hd : contentDecoder f with
  | text =>
    cases raw with
    | text s => rw [hd] at h; obtain rfl := Option.some.inj h; exact ⟨nofun, nofun⟩
    | bytes b => rw [hd] at h; cases h
  | integer w =>
    cases raw with
    | text s =>
      rw [hd] at h
      obtain ⟨n, -, rfl⟩ := Option.map_eq_some_iff.mp h
      exact ⟨nofun, fun _ _ => .inl ⟨w, rfl⟩⟩
    | bytes b => rw [hd] at h; cases h
  | jid => exact absurd hd (contentDecoder_ne_jid f)
  | bytes =>
    cases raw with
    | text s => rw [hd] at h; cases h
    | bytes b => rw [hd] at h; obtain rfl := Option.some.inj h; exact ⟨nofun, nofun⟩
  | uint =>
    cases raw with
    | text s => rw [hd] at h; cases h
    | bytes b =>
      rw [hd] at h
      obtain rfl := Option.some.inj h
      refine ⟨nofun, fun n hn => .inr ⟨rfl, ?_⟩⟩
      obtain rfl := WireValue.integer.inj hn
      exact Int.natCast_nonneg _

/-- A content that is no decimal number decodes as soon as it is there. -/
theorem decodes_of_raw (hcontent : isContentMethod f.method = true)
    (hdecoder : ∀ w, contentDecoder f ≠ .integer w) {raw : RawValue}
    (hraw : f.raw nodes node = some raw) : ∃ v : WireValue J, f.decode nodes raw = some v := by
  rw [ParsedField.raw, if_pos hcontent, rawContent_eq] at hraw
  rw [decode_content_eq hcontent]
  cases hd : contentDecoder f with
  | text =>
    rw [hd] at hraw
    obtain ⟨s, -, rfl⟩ := Option.map_eq_some_iff.mp hraw
    exact ⟨_, rfl⟩
  | integer w => exact absurd hd (hdecoder w)
  | jid => exact absurd hd (contentDecoder_ne_jid f)
  | bytes =>
    rw [hd] at hraw
    obtain ⟨b, -, rfl⟩ := Option.map_eq_some_iff.mp hraw
    exact ⟨_, rfl⟩
  | uint =>
    rw [hd] at hraw
    obtain ⟨b, -, rfl⟩ := Option.map_eq_some_iff.mp hraw
    exact ⟨_, rfl⟩

/-- The guard of a content covers it. -/
theorem accepts_of_contentGuard (hcovered : f.Covered nodes flavored node)
    (hcontent : isContentMethod f.method = true) (hvalues : enumValues f = none)
    (hguard : (contentGuard f).all (·.holds nodes node) = true) :
    (∃ raw v, f.raw nodes node = some raw ∧ f.Accepts nodes flavored raw v) ∨
      (f.raw nodes node = none ∧ f.parserRequired = false) := by
  obtain ⟨hpin, hsizeFree, huintFree⟩ := hcovered.content hcontent hvalues
  rw [contentGuard] at hguard
  by_cases hdecimal : rawContent f = .text ∧ methodFieldType f.method = .integer
  · -- Decimal text.
    obtain ⟨htext, htype⟩ := hdecimal
    have hnotUint : f.method ≠ "contentUint" := by
      intro huint
      rw [rawContent, huint, methodFieldType_contentUint] at htext
      cases htext
    have hdecoder : contentDecoder f = .integer (integerWidth f) := by
      rw [contentDecoder, if_neg hnotUint, htype]
    rw [if_pos ⟨htext, htype⟩, Option.all_some] at hguard
    obtain htest | ⟨hnone, hoptional⟩ := guarded_content hguard
    · rw [LeafTest.holds, Option.any_eq_true] at htest
      obtain ⟨n, hparse, hband⟩ := htest
      obtain ⟨s, hs, hn⟩ := Option.bind_eq_some_iff.mp hparse
      refine .inl ⟨.text s, .integer n, ?_, accepts_of_plain hvalues hpin ?_ nofun ?_ ?_⟩
      · rw [ParsedField.raw, if_pos hcontent, htext, hs]
        rfl
      · rw [decode_content_eq hcontent, hdecoder]
        show (parseInteger _ s).map _ = _
        rw [hn, Option.map_some]
      · rintro _ ⟨⟩
        exact numberFits_of_intBand htype (fits_of_parseInteger hn) hband
      · exact sizeFits_of_sizeFree (hsizeFree _ hdecoder) _
    · exact .inr ⟨raw_eq_none hcontent hnone, hoptional⟩
  · -- Text or bytes: what is there decodes, and the length is checked.
    have hdecoder : ∀ w, contentDecoder f ≠ .integer w := by
      intro w hd
      have hraw := rawContent_eq f
      rw [hd] at hraw
      refine hdecimal ⟨hraw, ?_⟩
      rw [contentDecoder] at hd
      split_ifs at hd
      cases ht : methodFieldType f.method <;> rw [ht] at hd <;> first | rfl | cases hd
    have haccepts : ∀ raw, f.raw nodes node = some raw →
        (byteBand f).all (·.holds raw.size) = true →
        ∃ v, f.Accepts nodes flavored raw v := by
      intro raw hraw hband
      obtain ⟨v, hv⟩ := decodes_of_raw hcontent hdecoder hraw
      obtain ⟨hnotJid, hnumber⟩ := decode_content hcontent hv
      refine ⟨v, accepts_of_plain hvalues hpin hv (fun j hj => absurd hj (hnotJid j))
        (fun n hn => ?_) (sizeFits_of_byteBand hcovered hband)⟩
      obtain ⟨w, hw⟩ | ⟨huint, hnonneg⟩ := hnumber n hn
      · exact absurd hw (hdecoder w)
      · obtain ⟨hmin, hmax⟩ := huintFree huint
        rw [ParsedField.numberFits, hmax, Option.all_none, Bool.and_true]
        cases hlo : f.intMin with
        | none => rfl
        | some lo =>
          rw [hlo] at hmin
          exact decide_eq_true (le_trans (of_decide_eq_true hmin) hnonneg)
    rw [if_neg hdecimal] at hguard
    cases hband : byteBand f with
    | some band =>
      simp only [hband, Option.all_some] at hguard
      obtain htest | ⟨hnone, hoptional⟩ := guarded_content hguard
      · rw [LeafTest.holds, Option.any_eq_true] at htest
        obtain ⟨len, hlen, hholds⟩ := htest
        obtain ⟨raw, hraw, rfl⟩ := raw_of_content hcontent hlen
        obtain ⟨v, hv⟩ := haccepts raw hraw (by rw [hband]; exact hholds)
        exact .inl ⟨raw, v, hraw, hv⟩
      · exact .inr ⟨raw_eq_none hcontent hnone, hoptional⟩
    | none =>
      cases hraw : f.raw nodes node with
      | some raw =>
        obtain ⟨v, hv⟩ := haccepts raw hraw (by rw [hband]; rfl)
        exact .inl ⟨raw, v, rfl, hv⟩
      | none =>
        refine .inr ⟨rfl, ?_⟩
        cases hrequired : f.parserRequired with
        | false => rfl
        | true =>
          simp only [hband, hrequired, if_true, Option.all_some, LeafTest.holds] at hguard
          rw [Option.any_eq_true] at hguard
          obtain ⟨len, hlen, -⟩ := hguard
          obtain ⟨raw, hthere, -⟩ := raw_of_content hcontent hlen
          rw [hraw] at hthere
          cases hthere

theorem raw_of_attr (hattr : isContentMethod f.method = false) :
    f.raw nodes node = (nodes.getAttr node f.wire).map .text := by
  rw [ParsedField.raw, hattr, if_neg Bool.false_ne_true]

/-- A pinned attribute that has its value is accepted. -/
theorem accepts_of_pin (hcovered : f.Covered nodes flavored node)
    (hattr : isContentMethod f.method = false) (hvalues : enumValues f = none) {lit : String}
    (hpin : f.literalValue = some lit)
    (htest : (match pinnedInteger f lit with
      | some n => LeafTest.attrParsesTo f.wire (integerWidth f) n
      | none => .attrIs f.wire lit).holds nodes node = true) :
    ∃ raw v, f.raw nodes node = some raw ∧ f.Accepts nodes flavored raw v := by
  have hmeets := hcovered.pin hattr hvalues lit hpin
  rw [raw_of_attr hattr]
  cases hn : pinnedInteger f lit with
  | none =>
    rw [hn] at htest hmeets
    obtain ⟨v, hv⟩ := hmeets
    refine ⟨.text lit, v, ?_, hv⟩
    rw [of_decide_eq_true htest]
    rfl
  | some n =>
    rw [hn] at htest hmeets
    obtain ⟨hnumber, hsizeFree⟩ := hmeets
    obtain ⟨s, hs, hparse⟩ := Option.bind_eq_some_iff.mp (of_decide_eq_true htest)
    have htype : methodFieldType f.method = .integer := by
      by_contra hne
      rw [pinnedInteger, if_neg hne] at hn
      cases hn
    rw [pinnedInteger, if_pos htype] at hn
    refine ⟨.text s, .integer n, by rw [hs]; rfl, ?_, nofun, ?_, ?_, ?_, ?_⟩
    · simp only [ParsedField.decode, hattr, Bool.false_eq_true, if_false, attrDecoder, htype,
        hparse, Option.map_some]
    · rw [hvalues]
      exact nofun
    · intro lit' hlit
      obtain rfl := Option.some.inj (hpin.symm.trans hlit)
      exact (Option.filter_eq_some_iff.mp hn).1
    · rintro _ ⟨⟩
      exact hnumber
    · exact sizeFits_of_sizeFree hsizeFree _

theorem attrDecoder_of_ne (htype : methodFieldType f.method ≠ .integer) :
    attrDecoder f = if (methodFieldType f.method).isJid then .jid else .text := by
  rw [attrDecoder]
  cases ht : methodFieldType f.method <;> first | rfl | exact absurd ht htype

/-- What an attribute is decoded to. -/
theorem decode_attr (hattr : isContentMethod f.method = false) {s : String} {v : WireValue J}
    (h : f.decode nodes (.text s) = some v) :
    (∀ j, v = .jid j → (methodFieldType f.method).isJid = true ∧ nodes.toJid s = some j) ∧
      ∀ n, v = .integer n → methodFieldType f.method = .integer ∧
        (integerWidth f).fits n = true := by
  simp only [ParsedField.decode, hattr, Bool.false_eq_true, if_false] at h
  by_cases htype : methodFieldType f.method = .integer
  · have hd : attrDecoder f = .integer (integerWidth f) := by rw [attrDecoder, htype]
    rw [hd] at h
    obtain ⟨n, hn, rfl⟩ := Option.map_eq_some_iff.mp h
    refine ⟨nofun, ?_⟩
    rintro _ ⟨⟩
    exact ⟨htype, fits_of_parseInteger hn⟩
  · have hd := attrDecoder_of_ne htype
    by_cases hjid : (methodFieldType f.method).isJid = true
    · rw [hd, if_pos hjid] at h
      obtain ⟨j, hj, rfl⟩ := Option.map_eq_some_iff.mp h
      refine ⟨?_, nofun⟩
      rintro _ ⟨⟩
      exact ⟨hjid, hj⟩
    · rw [hd, if_neg hjid] at h
      obtain rfl := Option.some.inj h
      exact ⟨nofun, nofun⟩

/-- An attribute that decodes, in its range, is accepted. -/
theorem accepts_of_attr (hcovered : f.Covered nodes flavored node)
    (hattr : isContentMethod f.method = false) (hvalues : enumValues f = none)
    (hpin : f.literalValue = none) {v : WireValue J}
    (hread : (attrDecoder f).attr nodes node f.wire = some v)
    (hband : (intBand f).all v.within = true) :
    ∃ raw v, f.raw nodes node = some raw ∧ f.Accepts nodes flavored raw v := by
  obtain ⟨hsizeFree, hflavored⟩ := hcovered.attr hattr hvalues hpin
  rw [attr_eq_decode hattr] at hread
  obtain ⟨raw, hraw, hdecode⟩ := Option.bind_eq_some_iff.mp hread
  obtain ⟨s, -, rfl⟩ := Option.map_eq_some_iff.mp ((raw_of_attr hattr).symm.trans hraw)
  obtain ⟨hjid, hinteger⟩ := decode_attr hattr hdecode
  refine ⟨.text s, v, hraw, accepts_of_plain hvalues hpin hdecode (fun j hj => ?_)
    (fun n hn => ?_) (sizeFits_of_sizeFree hsizeFree _)⟩
  · obtain ⟨htype, hs⟩ := hjid j hj
    exact hflavored htype s j hs
  · obtain ⟨htype, hfits⟩ := hinteger n hn
    rw [hn] at hband
    exact numberFits_of_intBand htype hfits hband

/-- The guard of an attribute covers it. -/
theorem accepts_of_attrGuard (hcovered : f.Covered nodes flavored node)
    (hattr : isContentMethod f.method = false) (hvalues : enumValues f = none)
    (hguard : (attrGuard f).all (·.holds nodes node) = true) :
    (∃ raw v, f.raw nodes node = some raw ∧ f.Accepts nodes flavored raw v) ∨
      (f.raw nodes node = none ∧ f.parserRequired = false) := by
  have habsent : nodes.getAttr node f.wire = none → f.raw nodes node = none := by
    intro hnone
    rw [raw_of_attr hattr, hnone]
    rfl
  rw [attrGuard] at hguard
  cases hpin : f.literalValue with
  | some lit =>
    rw [hpin, Option.all_some] at hguard
    obtain htest | ⟨hnone, hoptional⟩ := guarded_attr hguard
    · exact .inl (accepts_of_pin hcovered hattr hvalues hpin htest)
    · exact .inr ⟨habsent hnone, hoptional⟩
  | none =>
    simp only [hpin] at hguard
    by_cases hplain : (!isTyped f && (intBand f).isNone) = true
    · -- Plain text: what is there decodes.
      obtain ⟨htyped, hband⟩ := Bool.and_eq_true_iff.mp hplain
      rw [Option.isNone_iff_eq_none] at hband
      have hd : attrDecoder f = .text := by
        rw [Bool.not_eq_true', isTyped, hattr, Bool.or_false, Bool.or_eq_false_iff] at htyped
        rw [attrDecoder_of_ne (of_decide_eq_false htyped.1), htyped.2, if_neg Bool.false_ne_true]
      cases hs : nodes.getAttr node f.wire with
      | some s =>
        refine .inl (accepts_of_attr hcovered hattr hvalues hpin (v := .text s) ?_ ?_)
        · rw [hd]
          show (nodes.getAttr node f.wire).map WireValue.text = _
          rw [hs]
          rfl
        · rw [hband]
          rfl
      | none =>
        refine .inr ⟨habsent hs, ?_⟩
        cases hrequired : f.parserRequired with
        | false => rfl
        | true =>
          rw [if_pos hplain, hrequired, if_pos rfl, Option.all_some, LeafTest.holds, hs] at hguard
          cases hguard
    · rw [if_neg hplain, Option.all_some] at hguard
      obtain htest | ⟨hnone, hoptional⟩ := guarded_attr hguard
      · rw [LeafTest.holds, Option.any_eq_true] at htest
        obtain ⟨v, hread, hband⟩ := htest
        exact .inl (accepts_of_attr hcovered hattr hvalues hpin hread hband)
      · exact .inr ⟨habsent hnone, hoptional⟩

/-- **A guard covers its leaf**: where it holds, the leaf is there and accepted, or it is optional
and nothing is there to read. -/
theorem accepts_of_guard (hcovered : f.Covered nodes flavored node)
    (hguard : (leafGuard f).all (·.holds nodes node) = true) :
    (∃ raw v, f.raw nodes node = some raw ∧ f.Accepts nodes flavored raw v) ∨
      (f.raw nodes node = none ∧ f.parserRequired = false) := by
  rw [leafGuard] at hguard
  cases hvalues : enumValues f with
  | none =>
    cases hcontent : isContentMethod f.method with
    | true =>
      rw [hvalues] at hguard
      simp only [hcontent, if_true] at hguard
      exact accepts_of_contentGuard hcovered hcontent hvalues hguard
    | false =>
      rw [hvalues] at hguard
      simp only [hcontent, Bool.false_eq_true, if_false] at hguard
      exact accepts_of_attrGuard hcovered hcontent hvalues hguard
  | some values =>
    obtain ⟨htext, haccepts⟩ := hcovered.vocabulary values hvalues
    rw [hvalues] at hguard
    -- A text of the vocabulary is accepted; without a text the leaf is optional.
    have hamong : ∀ read : Option String, read.elim (!f.parserRequired) (· ∈ values) = true →
        f.raw nodes node = read.map .text →
        (∃ raw v, f.raw nodes node = some raw ∧ f.Accepts nodes flavored raw v) ∨
          (f.raw nodes node = none ∧ f.parserRequired = false) := by
      intro read hread hraw
      cases read with
      | none => exact .inr ⟨hraw, by simpa using hread⟩
      | some s =>
        obtain ⟨v, hv⟩ := haccepts s (of_decide_eq_true hread)
        exact .inl ⟨.text s, v, hraw, hv⟩
    cases hcontent : isContentMethod f.method with
    | true =>
      simp only [hcontent, if_true, Option.all_some, LeafTest.holds] at hguard
      refine hamong _ hguard ?_
      rw [ParsedField.raw, if_pos hcontent, htext hcontent]
    | false =>
      simp only [hcontent, Bool.false_eq_true, if_false, Option.all_some, LeafTest.holds]
        at hguard
      refine hamong _ hguard ?_
      rw [ParsedField.raw, hcontent, if_neg Bool.false_ne_true]

/-- **A leaf whose guard holds is enforced.** -/
theorem enforced_of_accepts (hcovered : f.Covered nodes flavored node)
    (h : (∃ raw v, f.raw nodes node = some raw ∧ f.Accepts nodes flavored raw v) ∨
      (f.raw nodes node = none ∧ f.parserRequired = false)) :
    f.Enforced nodes flavored node ((fieldExpr f).eval nodes node) := by
  have hplace : f.place nodes node = some node := by
    rw [ParsedField.place, hcovered.here]
    rfl
  rw [FieldExpr.eval, read_eq_decode hcovered]
  obtain ⟨raw, v, hraw, haccepts⟩ | ⟨hraw, hoptional⟩ := h
  · rw [hraw, Option.bind_some, haccepts.decodes]
    split_ifs
    · exact ⟨node, raw, hplace, hraw, haccepts⟩
    · exact ⟨node, raw, hplace, hraw, haccepts⟩
  · have hopt : (fieldExpr f).optional = true := by
      rw [fieldExpr, hoptional]
      split_ifs
      · rfl
      · exact Bool.or_true _
    rw [hopt, if_pos rfl, hraw]
    refine ⟨hoptional, fun place hthis => ?_⟩
    obtain rfl : node = place := Option.some.inj (hplace.symm.trans hthis)
    cases hthere : f.isThere nodes node with
    | false => rfl
    | true =>
      exfalso
      cases hcontent : isContentMethod f.method with
      | true =>
        have hreadable := hcovered.readable hoptional hcontent hthere
        rw [ParsedField.raw, if_pos hcontent] at hraw
        cases hkind : rawContent f <;>
          simp_all [RawContent.size]
      | false =>
        rw [ParsedField.isThere, hcontent, if_neg Bool.false_ne_true] at hthere
        rw [ParsedField.raw, hcontent, if_neg Bool.false_ne_true, Option.map_eq_none_iff] at hraw
        rw [hraw] at hthere
        cases hthere

/-- A plain attribute that an assertion pins is enforced by it. -/
theorem accepts_of_assertion (hcovered : f.Covered nodes flavored node)
    (hattr : isContentMethod f.method = false) (hless : constrainsMore f = false) {value : String}
    (hpinned : ∀ lit, f.literalValue = some lit → value = lit)
    (hread : nodes.getAttr node f.wire = some value) :
    ∃ raw v, f.raw nodes node = some raw ∧ f.Accepts nodes flavored raw v := by
  simp only [constrainsMore, Bool.or_eq_false_iff, Option.isSome_eq_false_iff,
    Option.isNone_iff_eq_none] at hless
  obtain ⟨⟨⟨htyped, hvalues⟩, hband⟩, -⟩ := hless
  rw [isTyped, hattr, Bool.or_false, Bool.or_eq_false_iff] at htyped
  have htype : methodFieldType f.method ≠ .integer := of_decide_eq_false htyped.1
  cases hpin : f.literalValue with
  | some lit =>
    refine accepts_of_pin hcovered hattr hvalues hpin ?_
    have hn : pinnedInteger f lit = none := by rw [pinnedInteger, if_neg htype]
    rw [hn, ← hpinned lit hpin]
    exact decide_eq_true hread
  | none =>
    refine accepts_of_attr hcovered hattr hvalues hpin (v := .text value) ?_ ?_
    · rw [attrDecoder_of_ne htype, htyped.2, if_neg Bool.false_ne_true]
      show (nodes.getAttr node f.wire).map WireValue.text = _
      rw [hread]
      rfl
    · rw [hband]
      rfl

end Leaf

end Whatspec.Codegen

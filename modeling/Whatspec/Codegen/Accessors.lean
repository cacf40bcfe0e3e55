import Mathlib.Data.List.Infix
import Whatspec.Codegen.Guards

/-!
# Parsed fields and their accessors

A field of a response says how its value is read: the accessor, the name on the wire, and what the
accessor takes.  What an accessor reads and decodes is derived from its spelling.

* `isAttrMethod`, `isContentMethod` and `methodFieldType` classify the accessors;
* `ParsedField` and `UnionVariant` are the trees of fields;
* `intBand`, `byteBand` and `enumValues` are the constraints that the generator spells out, and
  `parseInteger` is how generated code reads a number.
-/

namespace Whatspec.Codegen

/-! ### Accessors -/

inductive ParsedFieldType where
  | string
  | integer
  | timestamp
  | timestampMillis
  | enum
  | bytes
  | jid
  | userJid
  | lidUserJid
  | deviceJid
  | lidDeviceJid
  | groupJid
  | newsletterJid
  | callJid
  | broadcastJid
  | statusJid
  | jidTyped
  | bool
  | union
  | node
  deriving DecidableEq

def ParsedFieldType.isJid : ParsedFieldType → Bool
  | .jid | .userJid | .lidUserJid | .deviceJid | .lidDeviceJid | .groupJid | .newsletterJid
  | .callJid | .broadcastJid | .statusJid | .jidTyped => true
  | _ => false

/-- The text begins with this. -/
def startsWith (start s : String) : Bool := start.toList.isPrefixOf s.toList

/-- The text ends with this. -/
def endsWith (ending s : String) : Bool := ending.toList.isSuffixOf s.toList

def hasAttrMethod : String := "hasAttr"

def isChildMethod (m : String) : Bool :=
  m ∈ ["child", "maybeChild", "forEachChildWithTag", "mapChildren", "mapChildrenWithTag"]

def isContentMethod (m : String) : Bool :=
  m ∈ ["contentString", "contentBytes", "contentInt", "contentUint", "contentEnum",
    "contentStringEnum", "contentBytesRange", "contentLiteralBytes"]

def isAttrMethod (m : String) : Bool :=
  let literalAttr := startsWith "literal" m && !decide ("Content".toList <:+: m.toList)
  let attr := (startsWith "attr" m || startsWith "maybeAttr" m) && m ≠ hasAttrMethod
  (attr || literalAttr) && !endsWith "FromReference" m

def isOptionalMethod (m : String) : Bool := startsWith "maybe" m

/-- The type of an accessor that is not spelled `maybe`. -/
def plainMethodFieldType (m : String) : ParsedFieldType :=
  if m = "attrString" then .string
  else if m ∈ ["attrEnum", "attrEnumValues"] then .enum
  else if m ∈ ["attrInt", "attrTime", "attrIntRange", "attrFutureTime", "contentInt",
      "contentUint"] then .integer
  else if m ∈ ["attrUserJid", "attrPhoneUserJid"] then .userJid
  else if m = "attrPhoneDeviceJid" then .deviceJid
  else if m = "attrLidUserJid" then .lidUserJid
  else if m = "attrDeviceJid" then .deviceJid
  else if m = "attrLidDeviceJid" then .lidDeviceJid
  else if m = "attrGroupJid" then .groupJid
  else if m = "attrNewsletterJid" then .newsletterJid
  else if m = "attrCallJid" then .callJid
  else if m = "attrBroadcastJid" then .broadcastJid
  else if m = "attrStatusJid" then .statusJid
  else if m ∈ ["attrJidWithType", "attrJidEnum", "attrFromJidChat", "attrFromJidPhoneChat"] then
    .jidTyped
  else if m ∈ ["attrWapJid", "attrChatJid", "attrFromJid"] then .jid
  else if m ∈ ["attrJid", "literalJid", "attrPhoneChatJid", "attrDomainJid", "attrLidJid",
      "attrFromPhoneJid"] then .jid
  else if m ∈ ["attrStringEnum", "contentStringEnum", "contentEnum",
      "attrEnumOrNullIfUnknown"] then .enum
  else if m ∈ ["contentBytes", "contentBytesRange", "contentLiteralBytes"] then .bytes
  else .string

/-- `maybeAttrX` decodes as `attrX` does.  A first letter outside of ASCII leads to no accessor. -/
def methodFieldTypeFrom : ℕ → List Char → ParsedFieldType
  | fuel + 1, 'm' :: 'a' :: 'y' :: 'b' :: 'e' :: first :: rest =>
    methodFieldTypeFrom fuel (first.toLower :: rest)
  | _, m => plainMethodFieldType (String.ofList m)

/-- The type that an accessor decodes to. -/
def methodFieldType (m : String) : ParsedFieldType :=
  methodFieldTypeFrom m.toList.length m.toList

/-! ### Fields -/

inductive ContentType where
  | string
  | bytes
  | integer
  | nodes
  deriving DecidableEq

mutual

/-- A field of a response.  Of an enumeration only the wire values of its variants are kept. -/
structure ParsedField where
  method : String
  name : String
  wireName : Option String
  fieldType : ParsedFieldType
  parserRequired : Bool
  byteLength : Option ℕ
  byteMin : Option ℕ
  byteMax : Option ℕ
  intMin : Option ℤ
  intMax : Option ℤ
  enumKeys : Option (List String)
  enumRef : Option (List String)
  literalValue : Option String
  referencePath : Option (List String)
  tag : Option String
  children : Option (List ParsedField)
  repeats : Option Bool
  contentType : Option ContentType
  unionVariants : Option (List UnionVariant)
  sameNode : Bool
  sourcePath : Option (List String)

/-- An alternative of a union. -/
structure UnionVariant where
  name : String
  fields : List ParsedField
  assertions : List ResponseAssertion

end

/-- A field of which only the accessor and the name are given. -/
def ParsedField.plain (method name : String) : ParsedField where
  method := method
  name := name
  wireName := none
  fieldType := .string
  parserRequired := true
  byteLength := none
  byteMin := none
  byteMax := none
  intMin := none
  intMax := none
  enumKeys := none
  enumRef := none
  literalValue := none
  referencePath := none
  tag := none
  children := none
  repeats := none
  contentType := none
  unionVariants := none
  sameNode := false
  sourcePath := none

/-- The name on the wire. -/
def ParsedField.wire (f : ParsedField) : String := f.wireName.getD f.name

def isAttrField (f : ParsedField) : Bool :=
  isAttrMethod f.method || isContentMethod f.method || f.method = hasAttrMethod

/-! ### Numbers -/

/-- The integer types of generated code, and the one that pins are read with. -/
inductive IntegerWidth where
  | u64
  | i64
  | i128
  deriving DecidableEq

def IntegerWidth.signed : IntegerWidth → Bool
  | .u64 => false
  | .i64 | .i128 => true

/-- The width holds the number. -/
def IntegerWidth.fits : IntegerWidth → ℤ → Bool
  | .u64, n => 0 ≤ n && n < 2 ^ 64
  | .i64, n => -2 ^ 63 ≤ n && n < 2 ^ 63
  | .i128, n => -2 ^ 127 ≤ n && n < 2 ^ 127

/-- A number that is all digits, at least one. -/
def allDigits (cs : List Char) : Option ℤ :=
  if cs ≠ [] ∧ cs.all isAsciiDigit then some (ofDigits cs) else none

/-- `str::parse` at a width. -/
def parseInteger (w : IntegerWidth) (s : String) : Option ℤ :=
  let n := match s.toList with
    | '+' :: cs => allDigits cs
    | '-' :: cs => if w.signed then (allDigits cs).map fun n => -n else none
    | cs => allDigits cs
  n.filter w.fits

/-- The range that is declared admits a negative value. -/
def admitsNegative (f : ParsedField) : Bool :=
  if f.method = "contentUint" then false
  else if methodFieldType f.method ≠ .integer then false
  else
    match f.intMin, f.intMax with
    | some lo, _ => lo < 0
    | none, some _ => true
    | none, none => false

def integerWidth (f : ParsedField) : IntegerWidth := if admitsNegative f then .i64 else .u64

/-- The range that is declared admits nothing at the width that is emitted. -/
def contradictoryBand (f : ParsedField) : Bool :=
  (match f.intMin, f.intMax with
    | some lo, some hi => lo > hi
    | _, _ => false) ||
    (!admitsNegative f && methodFieldType f.method = .integer && f.intMax.any fun hi => hi < 0)

/-! ### Constraints -/

/-- A test on a number, as it is spelled. -/
inductive IntBand where
  | never
  | between (lo hi : ℤ)
  | atLeast (lo : ℤ)
  | atMost (hi : ℤ)

def IntBand.holds (n : ℤ) : IntBand → Bool
  | .never => false
  | .between lo hi => lo ≤ n && n ≤ hi
  | .atLeast lo => lo ≤ n
  | .atMost hi => n ≤ hi

def intBand (f : ParsedField) : Option IntBand :=
  if methodFieldType f.method ≠ .integer then none
  else if contradictoryBand f then some .never
  else
    let signed := admitsNegative f
    match f.intMin.filter fun n => signed || 0 < n, f.intMax.filter fun n => signed || 0 ≤ n with
    | some lo, some hi => some (.between lo hi)
    | some lo, none => some (.atLeast lo)
    | none, some hi => some (.atMost hi)
    | none, none => none

/-- A test on a length, as it is spelled. -/
inductive ByteBand where
  | exactly (n : ℕ)
  | between (lo hi : ℕ)
  | atLeast (lo : ℕ)
  | atMost (hi : ℕ)

def ByteBand.holds (len : ℕ) : ByteBand → Bool
  | .exactly n => len = n
  | .between lo hi => lo ≤ len && len ≤ hi
  | .atLeast lo => lo ≤ len
  | .atMost hi => len ≤ hi

def byteBand (f : ParsedField) : Option ByteBand :=
  match f.byteLength, f.byteMin, f.byteMax with
  | some n, _, _ => some (.exactly n)
  | none, some lo, some hi => some (.between lo hi)
  | none, some lo, none => some (.atLeast lo)
  | none, none, some hi => some (.atMost hi)
  | none, none, none => none

/-- The values that an enumeration takes. -/
def enumValues (f : ParsedField) : Option (List String) :=
  match f.enumRef with
  | some (v :: vs) => some (v :: vs)
  | _ => f.enumKeys.filter (· ≠ [])

/-! ### What the tests say -/

theorem fits_of_parseInteger {w : IntegerWidth} {s : String} {n : ℤ}
    (h : parseInteger w s = some n) : w.fits n = true :=
  (Option.filter_eq_some_iff.mp h).2

/-- An unsigned width reads no negative number. -/
theorem IntegerWidth.nonneg_of_fits_u64 {n : ℤ} (h : IntegerWidth.u64.fits n = true) : 0 ≤ n := by
  rw [IntegerWidth.fits, Bool.and_eq_true, decide_eq_true_eq] at h
  exact h.1

/-- A bound that the test leaves out is one that no number of the width fails. -/
theorem bounds_of_intBand {f : ParsedField} (htype : methodFieldType f.method = .integer) {n : ℤ}
    (hfits : (integerWidth f).fits n = true) (hband : (intBand f).all (·.holds n) = true) :
    (f.intMin.all fun lo => lo ≤ n) = true ∧ (f.intMax.all fun hi => n ≤ hi) = true := by
  rw [intBand, if_neg (not_not.mpr htype)] at hband
  cases hcontra : contradictoryBand f with
  | true =>
    rw [hcontra, if_pos rfl] at hband
    cases hband
  | false =>
    rw [hcontra, if_neg Bool.false_ne_true] at hband
    have hspelled : (f.intMin.filter fun lo => admitsNegative f || 0 < lo).all (fun lo => lo ≤ n) ∧
        (f.intMax.filter fun hi => admitsNegative f || 0 ≤ hi).all fun hi => n ≤ hi := by
      cases hlo : f.intMin.filter fun lo => admitsNegative f || 0 < lo <;>
        cases hhi : f.intMax.filter fun hi => admitsNegative f || 0 ≤ hi <;>
        simp only [hlo, hhi] at hband <;>
        simp_all [IntBand.holds]
    cases hsigned : admitsNegative f with
    | true => simpa [hsigned] using hspelled
    | false =>
      have hnonneg : 0 ≤ n := by
        rw [integerWidth, hsigned] at hfits
        exact IntegerWidth.nonneg_of_fits_u64 hfits
      simp only [contradictoryBand, hsigned, htype, Bool.or_eq_false_iff] at hcontra
      simp only [hsigned, Bool.false_or] at hspelled
      constructor
      · cases hlo : f.intMin with
        | none => rfl
        | some lo =>
          by_cases hpositive : 0 < lo
          · simpa [hlo, Option.filter, hpositive] using hspelled.1
          · exact decide_eq_true (le_trans (not_lt.mp hpositive) hnonneg)
      · cases hhi : f.intMax with
        | none => rfl
        | some hi =>
          have hhi0 : 0 ≤ hi := by simpa [hhi] using hcontra.2
          simpa [hhi, Option.filter, hhi0] using hspelled.2

/-- The length test spells every bound, where a fixed length does not contradict the others. -/
theorem sizes_of_byteBand {f : ParsedField}
    (hfixed : (f.byteLength.all fun n => (f.byteMin.all (· ≤ n)) && f.byteMax.all (n ≤ ·)) = true)
    {len : ℕ} (hband : (byteBand f).all (·.holds len) = true) :
    (f.byteLength.all (len = ·)) = true ∧ (f.byteMin.all (· ≤ len)) = true ∧
      (f.byteMax.all (len ≤ ·)) = true := by
  cases hlength : f.byteLength with
  | some n =>
    simp only [byteBand, hlength, Option.all_some, ByteBand.holds, decide_eq_true_eq] at hband
    rw [hlength, Option.all_some, Bool.and_eq_true] at hfixed
    rw [hband]
    exact ⟨decide_eq_true rfl, hfixed⟩
  | none =>
    refine ⟨rfl, ?_⟩
    cases hmin : f.byteMin <;> cases hmax : f.byteMax <;>
      simp_all [byteBand, ByteBand.holds]

end Whatspec.Codegen

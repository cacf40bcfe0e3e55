import Mathlib.Data.String.Basic

/-!
# Text, bytes and content hashes

`utf8` and `readUtf8` are the two directions between a string and the bytes of a file, and
`sha256Hex` is the lowercase hexadecimal rendering of a digest.  The digest itself comes
from outside the repository and is a parameter; the rendering loses nothing, so a digest
without collisions gives hexadecimal names without collisions.
-/

namespace Whatspec.Text

/-- The bytes of a string (`str::as_bytes`). -/
def utf8 (s : String) : List UInt8 := s.toByteArray.data.toList

/-- The string a file's bytes spell, when they are UTF-8 (`fs::read_to_string`). -/
def readUtf8 (bytes : List UInt8) : Option String := String.fromUTF8? ⟨bytes.toArray⟩

theorem utf8_injective : Function.Injective utf8 := by
  intro s t h
  have hdata : s.toByteArray.data = t.toByteArray.data := Array.toList_inj.mp h
  exact String.toByteArray_inj.mp (ByteArray.ext hdata)

theorem readUtf8_utf8 (s : String) : readUtf8 (utf8 s) = some s := by
  have hbytes : (⟨(utf8 s).toArray⟩ : ByteArray) = s.toByteArray := by
    simp [utf8]
  rw [readUtf8, hbytes, String.fromUTF8?, dif_pos s.isValidUTF8]
  rfl

/-- One byte as two lowercase hexadecimal digits (`{b:02x}`). -/
def hexByte (b : UInt8) : List Char :=
  [Nat.digitChar (b.toNat / 16), Nat.digitChar (b.toNat % 16)]

/-- Lowercase hex of the digest of some bytes. -/
def sha256Hex (digest : List UInt8 → List UInt8) (bytes : List UInt8) : String :=
  String.ofList ((digest bytes).flatMap hexByte)

theorem digitChar_injective_of_lt {a b : ℕ} (ha : a < 16) (hb : b < 16)
    (h : Nat.digitChar a = Nat.digitChar b) : a = b := by
  have key : ∀ x : Fin 16, ∀ y : Fin 16,
      Nat.digitChar x.val = Nat.digitChar y.val → x = y := by decide
  exact congrArg Fin.val (key ⟨a, ha⟩ ⟨b, hb⟩ h)

theorem hexByte_injective {a b : UInt8} (h : hexByte a = hexByte b) : a = b := by
  simp only [hexByte, List.cons.injEq, and_true] at h
  have hahi : a.toNat < 256 := a.toNat_lt
  have hbhi : b.toNat < 256 := b.toNat_lt
  have hdiv : a.toNat / 16 = b.toNat / 16 :=
    digitChar_injective_of_lt (by omega) (by omega) h.1
  have hmod : a.toNat % 16 = b.toNat % 16 :=
    digitChar_injective_of_lt (by omega) (by omega) h.2
  exact UInt8.toNat_inj.mp (by omega)

theorem flatMap_hexByte_injective :
    Function.Injective fun bytes : List UInt8 => bytes.flatMap hexByte := by
  intro as
  induction as with
  | nil =>
      intro bs h
      cases bs with
      | nil => rfl
      | cons b bs => simp [hexByte] at h
  | cons a as ih =>
      intro bs h
      cases bs with
      | nil => simp [hexByte] at h
      | cons b bs =>
          simp only [List.flatMap_cons] at h
          obtain ⟨hhead, htail⟩ := List.append_inj h rfl
          rw [hexByte_injective hhead, ih htail]

/-- **Hex names inherit the digest's freedom from collisions.** -/
theorem sha256Hex_injective {digest : List UInt8 → List UInt8}
    (hdigest : Function.Injective digest) : Function.Injective (sha256Hex digest) := by
  intro a b h
  exact hdigest (flatMap_hexByte_injective (String.ofList_injective h))

/-! ### Pieces of a text -/

/-- The text behind a prefix (`str::strip_prefix`). -/
def stripPrefix (pre s : List Char) : Option (List Char) :=
  if pre.isPrefixOf s then some (s.drop pre.length) else none

/-- The text in front of a suffix (`str::strip_suffix`). -/
def stripSuffix (suf s : List Char) : Option (List Char) :=
  if suf.isSuffixOf s then some (s.take (s.length - suf.length)) else none

/-- What follows the last `sep` of a text, all of it when there is none
(`rsplit(sep).next()`). -/
def afterLast (sep : Char) (s : List Char) : List Char :=
  (s.reverse.takeWhile (· ≠ sep)).reverse

/-- What precedes the last `sep` of a text, nothing when there is none. -/
def beforeLast (sep : Char) (s : List Char) : List Char :=
  ((s.reverse.dropWhile (· ≠ sep)).drop 1).reverse

/-- The characters of the property `White_Space`. -/
def isWhitespace (c : Char) : Bool :=
  (9 ≤ c.toNat && c.toNat ≤ 13) || c.toNat = 32 || c.toNat = 0x85 || c.toNat = 0xa0 ||
    c.toNat = 0x1680 || (0x2000 ≤ c.toNat && c.toNat ≤ 0x200a) || c.toNat = 0x2028 ||
    c.toNat = 0x2029 || c.toNat = 0x202f || c.toNat = 0x205f || c.toNat = 0x3000

/-- A text without the whitespace around it (`str::trim`). -/
def trim (s : List Char) : List Char :=
  ((s.dropWhile isWhitespace).reverse.dropWhile isWhitespace).reverse

theorem not_mem_of_mem_splitOn {sep : Char} {cs w : List Char} (h : w ∈ cs.splitOn sep) :
    sep ∉ w := by
  induction cs generalizing w with
  | nil =>
      rw [List.splitOn_nil, List.mem_singleton] at h
      rw [h]
      exact List.not_mem_nil
  | cons c cs ih =>
      rw [List.splitOn_cons_eq_if_modifyHead] at h
      by_cases hc : c = sep
      · rw [if_pos (beq_iff_eq.mpr hc)] at h
        rcases List.mem_cons.mp h with hnil | htail
        · rw [hnil]
          exact List.not_mem_nil
        · exact ih htail
      · rw [if_neg (fun hbeq => hc (beq_iff_eq.mp hbeq))] at h
        cases hsplit : cs.splitOn sep with
        | nil =>
            rw [hsplit] at h
            exact absurd h List.not_mem_nil
        | cons w₀ ws =>
            rw [hsplit] at h ih
            rcases List.mem_cons.mp h with hhead | htail
            · rw [hhead]
              intro hmem
              rcases List.mem_cons.mp hmem with heq | hin
              · exact hc heq.symm
              · exact ih List.mem_cons_self hin
            · exact ih (List.mem_cons_of_mem w₀ htail)

end Whatspec.Text

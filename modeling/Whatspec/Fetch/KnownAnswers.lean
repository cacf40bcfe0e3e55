import Mathlib.Logic.Equiv.List
import Whatspec.Fetch.Cache

/-!
# Runtimes that give known answers

A `Runtime` built from two finite tables: the digests of some byte strings and the JSON
texts of some manifests.  On the tabled inputs it answers as the real dependencies do, and
elsewhere it answers with something no table entry can be, so `knownAnswers_lawful` makes
it lawful as soon as the tables have no two equal answers.
-/

namespace Whatspec.Fetch

open Whatspec.Library Whatspec.Text

instance encodableChar : Encodable Char :=
  Encodable.ofLeftInverse Char.toNat Char.ofNat Char.ofNat_toNat

instance encodableString : Encodable String :=
  Encodable.ofLeftInverse String.toList String.ofList fun _ => String.ofList_toList

instance : Encodable BundleEntry :=
  Encodable.ofLeftInverse (fun e => (e.url, e.fileName, e.sha256, e.size))
    (fun p => ⟨p.1, p.2.1, p.2.2.1, p.2.2.2⟩) fun _ => rfl

instance : Encodable CacheManifest :=
  Encodable.ofLeftInverse (fun m => (m.waVersion, m.complete, m.bundles, m.wasm, m.wasmHandles))
    (fun p => ⟨p.1, p.2.1, p.2.2.1, p.2.2.2.1, p.2.2.2.2⟩) fun _ => rfl

/-- The tabled digest of a byte string, or a value too long to be a digest. -/
def knownDigest (digests : List (Bytes × Bytes)) (b : Bytes) : Bytes :=
  (digests.lookup b).getD (List.replicate 33 0 ++ b)

/-- The tabled text of a manifest, or a text that is not JSON. -/
def knownText (texts : List (CacheManifest × String)) (m : CacheManifest) : String :=
  (texts.lookup m).getD (String.ofList (List.replicate (Encodable.encode m) 'x'))

def knownParse (texts : List (CacheManifest × String)) (s : String) : Option CacheManifest :=
  match texts.find? fun p => p.2 ++ "\n" = s with
  | some p => some p.1
  | none => Encodable.decode (s.toList.length - 1)

/-- The runtime of two tables of known answers. -/
def knownAnswers (digests : List (Bytes × Bytes)) (texts : List (CacheManifest × String)) :
    Runtime :=
  ⟨knownDigest digests, knownText texts, knownParse texts⟩

theorem mem_of_lookup {α β : Type} [BEq α] [LawfulBEq α] {l : List (α × β)} {a : α} {b : β}
    (h : l.lookup a = some b) : (a, b) ∈ l := by
  obtain ⟨before, after, rfl, _⟩ := List.lookup_eq_some_iff.mp h
  simp

theorem fst_eq_of_snd_eq {α β : Type} {l : List (α × β)} (hl : (l.map Prod.snd).Nodup)
    {a a' : α} {b : β} (h : (a, b) ∈ l) (h' : (a', b) ∈ l) : a = a' := by
  have := List.inj_on_of_nodup_map hl h h' rfl
  exact congrArg Prod.fst this

theorem knownDigest_injective {digests : List (Bytes × Bytes)}
    (hnodup : (digests.map Prod.snd).Nodup) (hlen : ∀ p ∈ digests, p.2.length = 32) :
    Function.Injective (knownDigest digests) := by
  intro a b h
  unfold knownDigest at h
  cases ha : digests.lookup a with
  | some x =>
      cases hb : digests.lookup b with
      | some y =>
          rw [ha, hb] at h
          have hxy : x = y := h
          subst hxy
          exact fst_eq_of_snd_eq hnodup (mem_of_lookup ha) (mem_of_lookup hb)
      | none =>
          rw [ha, hb] at h
          have hx := hlen _ (mem_of_lookup ha)
          have hx' : x = List.replicate 33 0 ++ b := h
          simp [hx'] at hx
  | none =>
      cases hb : digests.lookup b with
      | some y =>
          rw [ha, hb] at h
          have hy := hlen _ (mem_of_lookup hb)
          have hy' : List.replicate 33 0 ++ a = y := h
          simp [← hy'] at hy
      | none =>
          rw [ha, hb] at h
          exact List.append_cancel_left h

theorem knownParse_knownText {texts : List (CacheManifest × String)}
    (hnodup : (texts.map Prod.snd).Nodup)
    (hbrace : ∀ p ∈ texts, p.2.toList.head? = some '\x7b') (m : CacheManifest) :
    knownParse texts (knownText texts m ++ "\n") = some m := by
  unfold knownText
  cases hm : texts.lookup m with
  | some t =>
      have hmem : (m, t) ∈ texts := mem_of_lookup hm
      have hfind : (texts.find? fun p => p.2 ++ "\n" = t ++ "\n").isSome := by
        rw [List.find?_isSome]
        exact ⟨(m, t), hmem, by simp⟩
      obtain ⟨p, hp⟩ := Option.isSome_iff_exists.mp hfind
      have hpmem : p ∈ texts := List.mem_of_find?_eq_some hp
      have hpt : p.2 ++ "\n" = t ++ "\n" := by simpa using List.find?_some hp
      have hpt' : p.2 = t := by
        have hchars := congrArg String.toList hpt
        rw [String.toList_append, String.toList_append] at hchars
        exact String.toList_inj.mp (List.append_cancel_right hchars)
      obtain ⟨m', t'⟩ := p
      simp only at hpt'
      subst hpt'
      simp only [Option.getD_some, knownParse, hp]
      rw [fst_eq_of_snd_eq hnodup hpmem hmem]
  | none =>
      have hnone : texts.find? (fun p => p.2 ++ "\n" =
          String.ofList (List.replicate (Encodable.encode m) 'x') ++ "\n") = none := by
        rw [List.find?_eq_none]
        intro p hp heq
        have hchars := congrArg String.toList (of_decide_eq_true heq)
        have hhead := hbrace p hp
        simp only [String.toList_append, String.toList_ofList] at hchars
        cases hp2 : p.2.toList with
        | nil => simp [hp2] at hhead
        | cons c cs =>
            rw [hp2] at hchars hhead
            cases hn : Encodable.encode m with
            | zero =>
                rw [hn] at hchars
                simp at hchars
            | succ n =>
                rw [hn, List.replicate_succ] at hchars
                simp only [List.cons_append, List.cons.injEq] at hchars
                simp [hchars.1] at hhead
      simp only [Option.getD_none, knownParse, hnone, String.toList_append,
        String.toList_ofList, List.length_append, List.length_replicate]
      exact Encodable.encodek m

/-- **Tables without two equal answers make a lawful runtime.** -/
theorem knownAnswers_lawful {digests : List (Bytes × Bytes)}
    {texts : List (CacheManifest × String)} (hdigests : (digests.map Prod.snd).Nodup)
    (hlen : ∀ p ∈ digests, p.2.length = 32) (htexts : (texts.map Prod.snd).Nodup)
    (hbrace : ∀ p ∈ texts, p.2.toList.head? = some '\x7b') :
    (knownAnswers digests texts).Lawful :=
  ⟨knownDigest_injective hdigests hlen, knownParse_knownText htexts hbrace⟩

/-! ### The runtime of the examples -/

/-- The SHA-256 digests of the strings the examples hash. -/
def sampleDigests : List (Bytes × Bytes) :=
  [ (utf8 "https://h/a.js",
      [4, 115, 46, 37, 247, 250, 2, 97, 216, 191, 187, 57, 127, 10, 35, 114, 202, 212, 1, 200,
      192, 62, 154, 229, 37, 9, 134, 236, 246, 125, 34, 45]),
    (utf8 "alpha",
      [142, 211, 246, 173, 104, 91, 149, 158, 173, 112, 34, 81, 142, 26, 247, 108, 216, 22, 248,
      232, 236, 124, 205, 218, 30, 212, 1, 142, 143, 34, 35, 248]),
    (utf8 "https://h/e.wasm",
      [254, 39, 25, 90, 172, 107, 154, 229, 58, 60, 140, 149, 129, 221, 53, 196, 72, 32, 61, 70,
      17, 91, 215, 87, 2, 126, 180, 2, 20, 180, 116, 69]),
    (utf8 "hello",
      [44, 242, 77, 186, 95, 176, 163, 14, 38, 232, 59, 42, 197, 185, 226, 158, 27, 22, 30, 92,
      31, 167, 66, 94, 115, 4, 51, 98, 147, 139, 152, 36]),
    (utf8 "world",
      [72, 110, 164, 98, 36, 209, 187, 79, 182, 128, 243, 79, 124, 154, 217, 106, 143, 36, 236,
      136, 190, 115, 234, 142, 90, 108, 101, 38, 14, 156, 184, 167]),
    (utf8 "8ed3f6ad685b959ead7022518e1af76cd816f8e8ec7ccdda1ed4018e8f2223f8:5",
      [74, 77, 190, 137, 133, 230, 52, 237, 21, 159, 220, 22, 133, 199, 199, 132, 13, 139, 173,
      174, 59, 176, 197, 6, 245, 183, 124, 90, 132, 215, 174, 183]),
    (utf8 "8ed3f6ad685b959ead7022518e1af76cd816f8e8ec7ccdda1ed4018e8f2223f8:6",
      [56, 238, 218, 175, 213, 102, 218, 40, 122, 150, 0, 61, 89, 188, 59, 7, 96, 232, 11, 212,
      11, 163, 185, 3, 37, 164, 240, 18, 70, 39, 192, 171]) ]

/-- A release with one bundle. -/
def bundlesOnly : CacheManifest :=
  ⟨"2.3000.1", true,
    [⟨"https://h/a.js", "a.js",
      "8ed3f6ad685b959ead7022518e1af76cd816f8e8ec7ccdda1ed4018e8f2223f8", 5⟩],
    [], []⟩

/-- The same release with a wasm payload attached. -/
def withWasm : CacheManifest :=
  { bundlesOnly with
    wasm := [⟨"https://h/e.wasm", "e.wasm",
      "2cf24dba5fb0a30e26e83b2ac5b9e29e1b161e5c1fa7425e73043362938b9824", 5⟩] }

/-- The JSON text of both, up to the end of the bundle list. -/
def bundlesText : String :=
  "\x7b\n" ++
  "  \"wa_version\": \"2.3000.1\",\n  \"complete\": true,\n  \"bundles\": [\n    \x7b\n" ++
  "      \"url\": \"https://h/a.js\",\n      \"file_name\": \"a.js\",\n      \"sha256\": \"" ++
  "8ed3f6ad685b959ead7022518e1af76cd816f8e8ec7ccdda1ed4018e8f2223f8" ++
  "\",\n      \"size\": 5\n    \x7d\n  ]"

def wasmText : String :=
  ",\n" ++
  "  \"wasm\": [\n    \x7b\n" ++
  "      \"url\": \"https://h/e.wasm\",\n      \"file_name\": \"e.wasm\",\n      \"sha256\": \"" ++
  "2cf24dba5fb0a30e26e83b2ac5b9e29e1b161e5c1fa7425e73043362938b9824" ++
  "\",\n      \"size\": 5\n    \x7d\n  ]\n\x7d"

def sampleRuntime : Runtime :=
  knownAnswers sampleDigests
    [(bundlesOnly, bundlesText ++ "\n\x7d"), (withWasm, bundlesText ++ wasmText)]

theorem bundlesText_head (s : String) : (bundlesText ++ s).toList.head? = some '\x7b' := by
  have hfirst : ("\x7b\n" : String).toList.head? = some '\x7b' := by decide
  simp only [bundlesText, String.toList_append, List.head?_append, hfirst, Option.some_or]

theorem sampleTexts_ne : bundlesText ++ "\n\x7d" ≠ bundlesText ++ wasmText := by
  intro h
  have hchars := congrArg String.toList h
  rw [String.toList_append, String.toList_append] at hchars
  have htails := congrArg List.head? (List.append_cancel_left hchars)
  have hcomma : (",\n" : String).toList.head? = some ',' := by decide
  have hnewline : ("\n\x7d" : String).toList.head? = some '\n' := by decide
  simp only [wasmText, String.toList_append, List.head?_append, hcomma, hnewline,
    Option.some_or] at htails
  exact absurd htails (by decide)

theorem sampleRuntime_lawful : sampleRuntime.Lawful := by
  apply knownAnswers_lawful
  · decide
  · decide
  · rw [List.map_cons, List.map_cons, List.nodup_cons, List.map_nil, List.mem_singleton]
    exact ⟨sampleTexts_ne, List.nodup_singleton _⟩
  · intro p hp
    rcases List.mem_cons.mp hp with rfl | hp
    · exact bundlesText_head _
    · rw [List.mem_singleton.mp hp]
      exact bundlesText_head _

end Whatspec.Fetch

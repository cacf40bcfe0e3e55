import Mathlib.Data.Prod.Lex
import Whatspec.Mex.LiteralReader

/-!
# Where the reader of operation literals goes on forever

Every pass of a loop over an object or a list goes forward, but for the passes that begin at a byte
no branch consumes.  `Bad` are these passes, and the ones over a quoted key whose last byte is a
backslash, which are aborted.

* `meets_body`: every call stays within the text and, unless it is bad, makes smaller calls only;
* `reads_iff`: a module is read, with every offset in range and every pass going forward, exactly
  when no bad pass is reached.
-/

namespace Whatspec.Mex

open Whatspec.Library Whatspec.Text

/-! ### Bad passes -/

/-- A byte some branch of the loop over an object consumes, or the start of a spread. -/
def Consumed (b : Source) (i : ℕ) : Prop :=
  (bytes "...").isPrefixOf (b.drop i) = true ∨
    ∃ c, b[i]? = some c ∧ (isIdentByte c = true ∨ c ∈ bytes "\"'[(:,")

/-- A pass over an object that ends where it began. -/
def StallsObject (b : Source) (i : ℕ) : Prop :=
  i < b.length ∧ b[i]? ≠ some (byte '\x7d') ∧ skipWs b i = i ∧ ¬ Consumed b i

/-- A pass over an object that begins with a quoted key running over the end. -/
def KeyOverruns (b : Source) (i : ℕ) : Prop :=
  ∃ c, b[skipWs b i]? = some c ∧ (c = byte '"' ∨ c = byte '\'') ∧
    b.length < closing b c (skipWs b i + 1)

/-- A pass over a list that ends where it began. -/
def StallsArray (b : Source) (i : ℕ) : Prop := ∃ c, b[i]? = some c ∧ c ∈ bytes "\x7d):"

/-- The passes that never end. -/
def Bad (b : Source) : Call → Prop
  | .objectLoop i _ _ => StallsObject b i ∨ KeyOverruns b i
  | .arrayLoop i _ _ => StallsArray b i
  | _ => False

/-! ### What the pieces do -/

theorem le_skipComma {b : Source} {i : ℕ} (hi : i ≤ b.length) :
    i ≤ skipComma b i ∧ skipComma b i ≤ b.length := by
  unfold skipComma
  split_ifs with h
  · have := (List.getElem?_eq_some_iff.mp h).1
    omega
  · omega

theorem memberChain_bounds (b : Source) (j : ℕ) (hj : j ≤ b.length) :
    j ≤ (memberChain b j).2 ∧ (memberChain b j).2 ≤ b.length := by
  fun_induction memberChain b j with
  | case1 j h hc => exact le_skipExpr hj valueStops
  | case2 j h hc hs ih =>
    have := ih (by omega)
    omega
  | case3 j h hc hs => exact ⟨Nat.le_refl j, hj⟩
  | case4 j h => exact ⟨Nat.le_refl j, hj⟩

theorem lt_numberEnd {b : Source} {i : ℕ} (h : i < b.length)
    (hc : isDigit b[i] = true ∨ b[i] = byte '.' ∨ b[i] = byte '-') :
    i < numberEnd b i ∧ numberEnd b i ≤ b.length := by
  unfold numberEnd
  split_ifs with hminus
  · have := le_spanEnd isNumberByte b (i + 1)
    exact ⟨by omega, spanEnd_le _ h⟩
  · refine ⟨lt_spanEnd h ?_, spanEnd_le _ (Nat.le_of_lt h)⟩
    obtain hdigit | hdot | hsign := hc
    · simp [isNumberByte, hdigit]
    · simp [isNumberByte, hdot]
    · exact absurd (List.getElem?_eq_some_iff.mpr ⟨h, hsign⟩) hminus

theorem identByte_of_alpha {c : UInt8}
    (hc : (Char.ofNat c.toNat).isAlpha = true ∨ c = byte '_' ∨ c = byte '$') :
    isIdentByte c = true := by
  obtain halpha | hline | hdollar := hc
  · simp [isIdentByte, Char.isAlphanum, halpha]
  · simp [isIdentByte, hline]
  · simp [isIdentByte, hdollar]

theorem assignmentAt_bounds {b ident : Source} {i pos : ℕ} (hi : i + ident.length ≤ b.length)
    (h : assignmentAt b ident i = some pos) : i < pos ∧ pos ≤ b.length := by
  simp only [assignmentAt] at h
  split_ifs at h with hident hfound
  cases h
  have hj := (List.getElem?_eq_some_iff.mp hfound.2.1).1
  have hle := le_skipWs b (i + ident.length) hi
  have hnext := le_skipWs b (skipWs b (i + ident.length) + 1) hj
  exact ⟨by omega, skipWs_le b _⟩

theorem findAssignment_bounds {b ident : Source} {start pos : ℕ}
    (h : findAssignment b ident start = some pos) :
    start < pos ∧ pos ≤ b.length ∧ start < b.length := by
  rw [findAssignment] at h
  split_ifs at h
  fun_induction findAssignmentFrom b ident start with
  | case1 i hi pos' hat =>
    cases h
    have := assignmentAt_bounds (by omega) hat
    omega
  | case2 i hi hat ih =>
    have := ih h
    omega
  | case3 i hi => cases h

/-- Where a key ends; one that takes nothing begins at none of the bytes of a key. -/
theorem parseKey_bounds {decode : List UInt8 → String} {b : Source} {i : ℕ} (h : i < b.length)
    (hws : skipWs b i = i) {key : Option String} {last : ℕ}
    (hkey : parseKey decode b i = some (key, last)) :
    i ≤ last ∧ (isIdentByte b[i] = true ∨ b[i] ∈ bytes "\"'[" → i < last) := by
  simp only [parseKey, hws, dif_pos h] at hkey
  split_ifs at hkey with hquote hle hbracket hident
  · cases hkey
    have := le_closing b b[i] (i + 1)
    exact ⟨by omega, fun _ => by omega⟩
  · cases hkey
    have := (le_skipExpr (show i + 1 ≤ b.length by omega) (bytes "]")).1
    exact ⟨by omega, fun _ => by omega⟩
  · cases hkey
    exact ⟨by omega, fun _ => by omega⟩
  · cases hkey
    refine ⟨Nat.le_refl _, ?_⟩
    rintro (hkind | hmem)
    · exact absurd (lt_spanEnd h hkind) hident
    · have hbyte : b[i] = byte '"' ∨ b[i] = byte '\'' ∨ b[i] = byte '[' := by
        simpa [bytes] using hmem
      obtain hc | hc | hc := hbyte
      · exact absurd (Or.inl hc) hquote
      · exact absurd (Or.inr hc) hquote
      · exact absurd hc hbracket

/-- The key that has no range is a quoted one running over the end. -/
theorem keyOverruns_of_parseKey {decode : List UInt8 → String} {b : Source} {i : ℕ}
    (h : skipWs b i < b.length) (hkey : parseKey decode b (skipWs b i) = none) :
    KeyOverruns b i := by
  simp only [parseKey, skipWs_skipWs, dif_pos h] at hkey
  split_ifs at hkey with hquote hle
  exact ⟨_, List.getElem?_eq_some_iff.mpr ⟨h, rfl⟩, hquote, by omega⟩

/-! ### Traced identifiers -/

section

variable (decode : List UInt8 → String) (b : Source)

/-- The identifiers the text could hold. -/
def idents : List String :=
  (List.range (b.length + 1)).flatMap fun i =>
    (List.range (b.length + 1)).map fun j => decode (slice b i j)

/-- How many of them were not traced yet. -/
def untraced (cache : Cache) : ℕ :=
  (idents decode b).countP fun ident => (cache.lookup ident).isNone

/-- A cache that knows all that another knows. -/
def Grown (cache cache' : Cache) : Prop :=
  ∀ ident, (cache'.lookup ident).isNone = true → (cache.lookup ident).isNone = true

variable {decode b}

theorem Grown.refl (cache : Cache) : Grown cache cache := fun _ h => h

theorem Grown.trans {c₁ c₂ c₃ : Cache} (h : Grown c₁ c₂) (h' : Grown c₂ c₃) : Grown c₁ c₃ :=
  fun ident hident => h ident (h' ident hident)

theorem grown_cons (ident : String) (v : Option Val) (cache : Cache) :
    Grown cache ((ident, v) :: cache) := by
  intro x hx
  rw [List.lookup_cons] at hx
  split at hx
  · cases hx
  · exact hx

theorem untraced_le {cache cache' : Cache} (h : Grown cache cache') :
    untraced decode b cache' ≤ untraced decode b cache :=
  List.countP_mono_left fun ident _ => h ident

theorem mem_idents {i j : ℕ} (hi : i ≤ b.length) (hj : j ≤ b.length) :
    decode (slice b i j) ∈ idents decode b :=
  List.mem_flatMap.mpr ⟨i, List.mem_range.mpr (by omega),
    List.mem_map.mpr ⟨j, List.mem_range.mpr (by omega), rfl⟩⟩

/-- Fewer of a list are counted when what is counted is less, and one of the list is left out. -/
theorem countP_lt {α : Type} {p q : α → Bool} {x : α} : ∀ {l : List α}, x ∈ l → p x = false →
    q x = true → (∀ y ∈ l, p y = true → q y = true) → l.countP p < l.countP q
  | y :: l, hx, hp, hq, h => by
    rw [List.forall_mem_cons] at h
    have hle : l.countP p ≤ l.countP q := List.countP_mono_left h.2
    rw [List.countP_cons, List.countP_cons]
    obtain rfl | hx := List.mem_cons.mp hx
    · rw [if_neg (by simp [hp]), if_pos hq]
      omega
    · have hlt := countP_lt hx hp hq h.2
      split_ifs with hpy hqy
      · omega
      · exact absurd (h.1 hpy) hqy
      · omega
      · omega

theorem untraced_lt {ident : String} {cache : Cache} (hmem : ident ∈ idents decode b)
    (hnew : cache.lookup ident = none) :
    untraced decode b ((ident, none) :: cache) < untraced decode b cache := by
  refine countP_lt hmem ?_ (by rw [hnew]; rfl) fun x _ => grown_cons ident none cache x
  rw [List.lookup_cons_self]
  rfl

/-! ### Conditions and sizes -/

variable (decode b)

/-- What holds when a call is made. -/
def Pre : Call → Prop
  | .value start _ => start ≤ b.length
  | .object start _ | .array start _ => start < b.length
  | .objectLoop i _ _ | .arrayLoop i _ _ => i ≤ b.length
  | .trace ident _ => ident ∈ idents decode b
  | .traceLoop .. => True

/-- What holds when a call returns: the offset is ahead and within the text. -/
def Post : ∀ c : Call, Read c → Prop
  | .value start cache, (_, last, cache') =>
    (skipWs b start ≤ last ∧ last ≤ b.length) ∧
      (∀ c, b[skipWs b start]? = some c → c ∉ valueStops → skipWs b start < last) ∧
      Grown cache cache'
  | .object start cache, (_, last, cache') | .array start cache, (_, last, cache') =>
    (start < last ∧ last ≤ b.length) ∧ Grown cache cache'
  | .objectLoop i _ cache, (_, last, cache') | .arrayLoop i _ cache, (_, last, cache') =>
    (i ≤ last ∧ last ≤ b.length) ∧ Grown cache cache'
  | .trace _ cache, (_, cache') | .traceLoop _ _ _ cache, (_, cache') => Grown cache cache'

/-- The cache a call starts with. -/
def Call.cache : Call → Cache
  | .value _ cache | .object _ cache | .objectLoop _ _ cache | .array _ cache
  | .arrayLoop _ _ cache | .trace _ cache | .traceLoop _ _ _ cache => cache

/-- What is left of the text for a call, with the order of the calls at one offset. -/
def Call.ahead : Call → ℕ
  | .value start _ => 4 * (b.length - start) + 2
  | .object start _ | .array start _ => 4 * (b.length - start) + 1
  | .objectLoop i _ _ | .arrayLoop i _ _ => 4 * (b.length - i) + 3
  | .trace .. => 0
  | .traceLoop _ search _ _ => 4 * b.length + 3 + (b.length + 1 - search)

/-- The size of a call: the identifiers left first, then the text. -/
def size (c : Call) : ℕ ×ₗ ℕ := toLex (untraced decode b c.cache, c.ahead b)

/-- The offset a pass of a loop begins at. -/
def Call.pass : Call → Option ℕ
  | .objectLoop i _ _ | .arrayLoop i _ _ => some i
  | _ => none

/-- From one pass of a loop to the next the offset grows. -/
def Advances (c d : Call) : Prop := ∀ i j, c.pass = some i → d.pass = some j → i < j

/-- What a call may call. -/
def Callee (c d : Call) : Prop :=
  Pre decode b d ∧ (¬ Bad b c → size decode b d < size decode b c ∧ Advances c d)

variable {decode b}

theorem size_lt {c d : Call} (hcache : Grown c.cache d.cache) (hahead : d.ahead b < c.ahead b) :
    size decode b d < size decode b c := by
  rw [size, size, Prod.Lex.toLex_lt_toLex]
  obtain hlt | heq := Nat.lt_or_eq_of_le (@untraced_le decode b _ _ hcache)
  · exact Or.inl hlt
  · exact Or.inr ⟨heq, hahead⟩

theorem callee_of_ahead {c d : Call} (hpre : Pre decode b d) (hcache : Grown c.cache d.cache)
    (hahead : ¬ Bad b c → d.ahead b < c.ahead b) (hpass : c.pass = none ∨ d.pass = none) :
    Callee decode b c d := by
  refine ⟨hpre, fun hbad => ⟨size_lt hcache (hahead hbad), fun i j hi hj => ?_⟩⟩
  obtain h | h := hpass
  · rw [h] at hi
    cases hi
  · rw [h] at hj
    cases hj

/-- A part of the reader does what it should for the call `c`. -/
abbrev Does (decode : List UInt8 → String) (b : Source) (c : Call) {α : Type} (p : Reader α)
    (Q : α → Prop) : Prop :=
  Meets (Post b) (Callee decode b c) (¬ Bad b c) p Q

/-! ### Each call -/

theorem does_parseIdent {start last : ℕ} {cache : Cache} {ident : String}
    (hident : ident ∈ idents decode b) :
    Does decode b (.value start cache) (parseIdent ident last cache) fun r =>
      r.2.1 = last ∧ Grown cache r.2.2 := by
  have hrefl := Grown.refl cache
  rw [parseIdent]
  split_ifs
  · exact ⟨rfl, hrefl⟩
  · exact ⟨rfl, hrefl⟩
  · exact ⟨rfl, hrefl⟩
  · exact ⟨rfl, hrefl⟩
  · refine ⟨callee_of_ahead hident hrefl (fun _ => ?_) (Or.inl rfl), fun r hr => ⟨rfl, hr⟩⟩
    exact Nat.lt_of_lt_of_le (Nat.zero_lt_succ 1) (Nat.le_add_left 2 _)

theorem does_parseValue {start : ℕ} (cache : Cache) (hstart : start ≤ b.length) :
    Does decode b (.value start cache) (parseValue decode b start cache)
      (Post b (.value start cache)) := by
  have hle := le_skipWs b start hstart
  have hrefl := Grown.refl cache
  by_cases h : skipWs b start < b.length
  · -- a value that ends behind its first byte
    have hahead : ∀ {last : ℕ} {cache' : Cache} {v : Val}, skipWs b start < last →
        last ≤ b.length → Grown cache cache' → Post b (.value start cache) (v, last, cache') :=
      fun hlt hlast hcache => ⟨⟨Nat.le_of_lt hlt, hlast⟩, fun _ _ _ => hlt, hcache⟩
    have hsub : ∀ d : Call, Pre decode b d → d.cache = cache →
        d.ahead b = 4 * (b.length - skipWs b start) + 1 → d.pass = none →
        Callee decode b (.value start cache) d := by
      intro d hpre hcache hsize hpass
      refine callee_of_ahead hpre (hcache ▸ hrefl) (fun _ => ?_) (Or.inr hpass)
      rw [hsize]
      change _ < 4 * (b.length - start) + 2
      omega
    simp only [parseValue, dif_pos h]
    split_ifs with hquote hbrace hbracket htrue hfalse hnum hident hchain
    · have := lt_skipString h
      exact hahead this.1 this.2 hrefl
    · refine ⟨hsub _ h rfl rfl rfl, fun r hr => ?_⟩
      exact hahead hr.1.1 hr.1.2 hr.2
    · refine ⟨hsub _ h rfl rfl rfl, fun r hr => ?_⟩
      exact hahead hr.1.1 hr.1.2 hr.2
    · have := (List.getElem?_eq_some_iff.mp htrue.2).1
      exact hahead (by omega) (by omega) hrefl
    · have := (List.getElem?_eq_some_iff.mp hfalse.2).1
      exact hahead (by omega) (by omega) hrefl
    · obtain ⟨hlt, hlast⟩ := lt_numberEnd h hnum
      exact hahead hlt hlast hrefl
    · have hlt := lt_spanEnd h (identByte_of_alpha hident)
      have hlast := memberChain_bounds b _ (spanEnd_le isIdentByte (Nat.le_of_lt h))
      exact hahead (by omega) hlast.2 hrefl
    · have hlt := lt_spanEnd h (identByte_of_alpha hident)
      have hlast := spanEnd_le isIdentByte (Nat.le_of_lt h)
      refine (does_parseIdent (mem_idents (Nat.le_of_lt h) hlast)).mono (fun _ => id) id ?_
      rintro ⟨v, last, cache'⟩ ⟨rfl, hcache⟩
      exact hahead hlt hlast hcache
    · have hbounds := le_skipExpr (Nat.le_of_lt h) valueStops
      refine ⟨hbounds, fun c hc hstop => ?_, hrefl⟩
      obtain ⟨_, rfl⟩ := List.getElem?_eq_some_iff.mp hc
      exact lt_skipExpr h hstop
  · simp only [parseValue, dif_neg h]
    refine ⟨⟨Nat.le_refl _, skipWs_le b start⟩, fun c hc => ?_, hrefl⟩
    exact absurd (List.getElem?_eq_some_iff.mp hc).1 h

/-- An opening bracket is followed by the first pass of its loop. -/
theorem callee_firstPass {c d : Call} {start : ℕ} (hstart : start < b.length)
    (hc : c.ahead b = 4 * (b.length - start) + 1) (hpass : c.pass = none)
    (hd : d.ahead b = 4 * (b.length - skipWs b (start + 1)) + 3) (hpre : Pre decode b d)
    (hcache : Grown c.cache d.cache) : Callee decode b c d := by
  have hle := le_skipWs b (start + 1) hstart
  refine callee_of_ahead hpre hcache (fun _ => ?_) (Or.inl hpass)
  rw [hc, hd]
  omega

theorem does_parseObject {start : ℕ} (cache : Cache) (hstart : start < b.length) :
    Does decode b (.object start cache) (parseObject b start cache)
      (Post b (.object start cache)) := by
  refine ⟨callee_firstPass hstart rfl rfl rfl (skipWs_le b _) (Grown.refl cache), ?_⟩
  rintro ⟨out, i, cache'⟩ ⟨hi, hcache⟩
  refine ⟨?_, hcache⟩
  have hle := le_skipWs b (start + 1) hstart
  split_ifs <;> omega

theorem does_parseArray {start : ℕ} (cache : Cache) (hstart : start < b.length) :
    Does decode b (.array start cache) (parseArray b start cache)
      (Post b (.array start cache)) := by
  refine ⟨callee_firstPass hstart rfl rfl rfl (skipWs_le b _) (Grown.refl cache), ?_⟩
  rintro ⟨out, i, cache'⟩ ⟨hi, hcache⟩
  refine ⟨?_, hcache⟩
  have hle := le_skipWs b (start + 1) hstart
  split_ifs <;> omega

/-- The next pass of a loop may be made when it begins further on. -/
theorem callee_of_pass {c d : Call} {i j : ℕ} (hc : c.pass = some i) (hd : d.pass = some j)
    (hi : i < b.length) (hj : j ≤ b.length) (hcache : Grown c.cache d.cache)
    (hij : ¬ Bad b c → i < j) : Callee decode b c d := by
  have hahead : ∀ {e : Call} {k : ℕ}, e.pass = some k → e.ahead b = 4 * (b.length - k) + 3 := by
    rintro (_ | _ | _ | _ | _ | _ | _) k ⟨⟩ <;> rfl
  have hpre : ∀ {e : Call} {k : ℕ}, e.pass = some k → k ≤ b.length → Pre decode b e := by
    rintro (_ | _ | _ | _ | _ | _ | _) k ⟨⟩ hk <;> exact hk
  refine ⟨hpre hd hj, fun hbad => ⟨size_lt hcache ?_, ?_⟩⟩
  · have := hij hbad
    rw [hahead hc, hahead hd]
    omega
  · rintro i' j' hi' hj'
    obtain rfl : i = i' := Option.some.inj (hc.symm.trans hi')
    obtain rfl : j = j' := Option.some.inj (hd.symm.trans hj')
    exact hij hbad

/-- A value that begins behind the start of a pass may be read. -/
theorem callee_value {c : Call} {i start : ℕ} {cache : Cache}
    (hc : c.ahead b = 4 * (b.length - i) + 3)
    (hcache : Grown c.cache cache) (hi : i ≤ start) (hstart : start ≤ b.length) :
    Callee decode b c (.value start cache) := by
  refine callee_of_ahead hstart hcache (fun _ => ?_) (Or.inr rfl)
  rw [hc]
  change 4 * (b.length - start) + 2 < _
  omega

/-- Where a pass over an object that is not bad goes on behind its key. -/
theorem lt_of_key {decode : List UInt8 → String} {i last : ℕ} {key : Option String}
    (h : skipWs b i < b.length) (hend : b[i]? ≠ some (byte '\x7d'))
    (hspread : ¬ (bytes "...").isPrefixOf (b.drop (skipWs b i)) = true)
    (hkey : parseKey decode b (skipWs b i) = some (key, last)) (hi : i ≤ b.length)
    (hstalls : ¬ StallsObject b i)
    (hopen : b[skipWs b last]? ≠ some (byte '(')) (hcolon : b[skipWs b last]? ≠ some (byte ':')) :
    i < skipComma b (skipWs b last) := by
  have hle := le_skipWs b i hi
  obtain ⟨hlast, hlt⟩ := parseKey_bounds h (skipWs_skipWs b i) hkey
  have hmin := min_le_skipWs b last
  have hcomma := (le_skipComma (skipWs_le b last)).1
  by_cases hmove : i < skipWs b i
  · omega
  have hstay : skipWs b i = i := by omega
  simp only [hstay] at h hspread hlast hlt
  have hconsumed : Consumed b i := by
    by_contra hnot
    exact hstalls ⟨h, hend, hstay, hnot⟩
  obtain hdots | ⟨c, hc, hkind⟩ := hconsumed
  · exact absurd hdots hspread
  obtain ⟨_, rfl⟩ := List.getElem?_eq_some_iff.mp hc
  by_cases hgo : i < last
  · omega
  -- the key takes nothing, so the byte is one of those behind a key
  obtain rfl : last = i := by omega
  have hkey' : ¬ (isIdentByte b[last] = true ∨ b[last] ∈ bytes "\"'[") := fun hk =>
    absurd (hlt hk) hgo
  rw [not_or] at hkey'
  obtain hident | hbyte := hkind
  · exact absurd hident hkey'.1
  rw [hstay] at hopen hcolon ⊢
  have hcases : b[last] ∈ bytes "\"'[" ∨ b[last] = byte '(' ∨ b[last] = byte ':' ∨
      b[last] = byte ',' := by
    simpa [bytes, or_assoc] using hbyte
  obtain hk | hc' | hc' | hc' := hcases
  · exact absurd hk hkey'.2
  · exact absurd (hc.trans (by rw [hc'])) hopen
  · exact absurd (hc.trans (by rw [hc'])) hcolon
  · rw [skipComma, if_pos (hc.trans (by rw [hc']))]
    omega

/-- The last call of a pass over an object. -/
theorem does_nextPass {i j : ℕ} {out out' : List (String × Val)} {cache cache' : Cache}
    (hi : i < b.length) (hj : j ≤ b.length) (hcache : Grown cache cache')
    (hij : ¬ Bad b (.objectLoop i out cache) → i < j) :
    Does decode b (.objectLoop i out cache) (askObjectLoop j out' cache')
      fun r => r.2.1 ≤ b.length ∧ j ≤ r.2.1 ∧ Grown cache r.2.2 := by
  refine ⟨callee_of_pass rfl rfl hi hj hcache hij, ?_⟩
  rintro ⟨out'', last, cache''⟩ ⟨hlast, hcache'⟩
  exact ⟨hlast.2, hlast.1, hcache.trans hcache'⟩

theorem does_objectPass {i : ℕ} {out : List (String × Val)} {cache : Cache}
    (hi : i < b.length) (hend : b[i]? ≠ some (byte '\x7d')) (h : skipWs b i < b.length) :
    Does decode b (.objectLoop i out cache) (objectPass decode b (skipWs b i) out cache)
      (Post b (.objectLoop i out cache)) := by
  have hle := le_skipWs b i (Nat.le_of_lt hi)
  have hrefl := Grown.refl cache
  have hpost : ∀ {j : ℕ} {r : List (String × Val) × ℕ × Cache}, i ≤ j →
      r.2.1 ≤ b.length ∧ j ≤ r.2.1 ∧ Grown cache r.2.2 → Post b (.objectLoop i out cache) r :=
    fun hij hr => ⟨⟨Nat.le_trans hij hr.2.1, hr.1⟩, hr.2.2⟩
  -- a value in the middle of the pass, and the next pass behind it
  have hvalue : ∀ {start : ℕ} (next : Val → List (String × Val)), i < start →
      start ≤ b.length → Does decode b (.objectLoop i out cache)
        (askValue start cache >>= fun r =>
          askObjectLoop (skipComma b (skipWs b r.2.1)) (next r.1) r.2.2)
        (Post b (.objectLoop i out cache)) := by
    intro start next hlt hstart
    refine ⟨callee_value rfl hrefl (Nat.le_of_lt hlt) hstart, ?_⟩
    rintro ⟨v, last, cache'⟩ ⟨hlast, -, hcache⟩
    have hstart' := le_skipWs b start hstart
    have hlast' := le_skipWs b last hlast.2
    have hcomma := le_skipComma (skipWs_le b last)
    have hij : i < skipComma b (skipWs b last) := by omega
    exact (does_nextPass hi hcomma.2 hcache fun _ => hij).mono (fun _ => id) id
      fun r hr => hpost (Nat.le_of_lt hij) hr
  rw [objectPass]
  split_ifs with hspread
  · have hlen : (bytes "...").length ≤ (b.drop (skipWs b i)).length :=
      (List.isPrefixOf_iff_prefix.mp hspread).length_le
    rw [List.length_drop] at hlen
    change 3 ≤ _ at hlen
    exact hvalue (fun v => spread out v) (by omega) (by omega)
  · cases hkey : parseKey decode b (skipWs b i) with
    | none => exact fun hbad => hbad (Or.inr (keyOverruns_of_parseKey h hkey))
    | some keyed =>
      obtain ⟨key, last⟩ := keyed
      have hlast := (parseKey_bounds h (skipWs_skipWs b i) hkey).1
      have hmin := min_le_skipWs b last
      simp only
      split_ifs with hopen hcolon
      · obtain ⟨hj, hbyte⟩ := List.getElem?_eq_some_iff.mp hopen
        have hstop : b[skipWs b last] ∉ bytes ",\x7d" := by
          rw [hbyte]
          decide
        have hlt := lt_skipExpr hj hstop
        have hcomma := le_skipComma (le_skipExpr (Nat.le_of_lt hj) (bytes ",\x7d")).2
        exact (does_nextPass hi hcomma.2 hrefl fun _ => by omega).mono (fun _ => id) id
          fun r hr => hpost (by omega) hr
      · have hcomma := le_skipComma (skipWs_le b last)
        refine (does_nextPass hi hcomma.2 hrefl fun hbad => ?_).mono (fun _ => id) id
          fun r hr => hpost (by omega) hr
        exact lt_of_key h hend hspread hkey (Nat.le_of_lt hi) (fun hs => hbad (Or.inl hs)) hopen
          hcolon
      · rw [not_not] at hcolon
        have hj := (List.getElem?_eq_some_iff.mp hcolon).1
        exact hvalue (fun v => out ++ key.toList.map fun k => (k, v)) (by omega) hj

theorem does_parseObjectLoop {i : ℕ} (out : List (String × Val)) (cache : Cache)
    (hi : i ≤ b.length) :
    Does decode b (.objectLoop i out cache) (parseObjectLoop decode b i out cache)
      (Post b (.objectLoop i out cache)) := by
  have hle := le_skipWs b i hi
  simp only [parseObjectLoop]
  split_ifs with hend hend'
  · exact ⟨⟨Nat.le_refl i, hi⟩, Grown.refl cache⟩
  · exact ⟨⟨hle, skipWs_le b i⟩, Grown.refl cache⟩
  · rw [not_or] at hend hend'
    refine does_objectPass ?_ hend.2 ?_
    · by_contra hlen
      exact hend.1 (List.getElem?_eq_none (by omega))
    · by_contra hlen
      exact hend'.1 (List.getElem?_eq_none (by omega))

/-- Where a pass over a list that is not bad goes on behind its value. -/
theorem lt_of_value {i last : ℕ} (hi : i < b.length) (hend : b[i]? ≠ some (byte ']'))
    (hstalls : ¬ StallsArray b i) (hlast : skipWs b i ≤ last ∧ last ≤ b.length)
    (hlt : ∀ c, b[skipWs b i]? = some c → c ∉ valueStops → skipWs b i < last) :
    i < skipWs b (skipComma b (skipWs b last)) := by
  have hle := le_skipWs b i (Nat.le_of_lt hi)
  have hlast' := le_skipWs b last hlast.2
  have hcomma := le_skipComma (skipWs_le b last)
  have hnext := le_skipWs b _ hcomma.2
  by_cases hgo : i < last
  · omega
  have hstay : skipWs b i = i := by omega
  obtain rfl : last = i := by omega
  rw [hstay] at hlt ⊢
  have hc : b[last]? = some b[last] := List.getElem?_eq_some_iff.mpr ⟨hi, rfl⟩
  have hstop : b[last] ∈ valueStops := by
    by_contra hnot
    exact absurd (hlt _ hc hnot) (Nat.lt_irrefl last)
  have hcases : b[last] = byte ',' ∨ b[last] ∈ bytes "\x7d):" ∨ b[last] = byte ']' := by
    have h5 : b[last] = byte ',' ∨ b[last] = byte '\x7d' ∨ b[last] = byte ']' ∨
        b[last] = byte ')' ∨ b[last] = byte ':' := by
      simpa [valueStops, bytes] using hstop
    simp only [bytes, List.mem_map]
    obtain h | h | h | h | h := h5
    · exact Or.inl h
    · exact Or.inr (Or.inl ⟨_, by decide, h.symm⟩)
    · exact Or.inr (Or.inr h)
    · exact Or.inr (Or.inl ⟨_, by decide, h.symm⟩)
    · exact Or.inr (Or.inl ⟨_, by decide, h.symm⟩)
  obtain h | h | h := hcases
  · have hmove : skipComma b last = last + 1 := if_pos (hc.trans (by rw [h]))
    rw [hmove]
    exact le_skipWs b (last + 1) hi
  · exact absurd ⟨_, hc, h⟩ hstalls
  · exact absurd (hc.trans (by rw [h])) hend

theorem does_parseArrayLoop {i : ℕ} (out : List Val) (cache : Cache) (hi : i ≤ b.length) :
    Does decode b (.arrayLoop i out cache) (parseArrayLoop b i out cache)
      (Post b (.arrayLoop i out cache)) := by
  rw [parseArrayLoop]
  split_ifs with hend
  · exact ⟨⟨Nat.le_refl i, hi⟩, Grown.refl cache⟩
  · rw [not_or] at hend
    have hlen : i < b.length := by
      by_contra hlen
      exact hend.1 (List.getElem?_eq_none (by omega))
    refine ⟨callee_value rfl (Grown.refl cache) (Nat.le_refl i) hi, ?_⟩
    rintro ⟨v, last, cache'⟩ ⟨hlast, hlt, hcache⟩
    have hle := le_skipWs b i hi
    have hlast' := le_skipWs b last hlast.2
    have hcomma := le_skipComma (skipWs_le b last)
    have hnext := le_skipWs b _ hcomma.2
    refine ⟨callee_of_pass rfl rfl hlen (skipWs_le b _) hcache fun hbad =>
      lt_of_value hlen hend.2 hbad hlast hlt, ?_⟩
    rintro ⟨out', last', cache''⟩ ⟨hlast'', hcache'⟩
    exact ⟨⟨by omega, hlast''.2⟩, hcache.trans hcache'⟩

theorem does_trace {ident : String} (cache : Cache) (hident : ident ∈ idents decode b) :
    Does decode b (.trace ident cache) (trace ident cache) (Post b (.trace ident cache)) := by
  rw [trace]
  cases hlookup : cache.lookup ident with
  | some v => exact Grown.refl cache
  | none =>
    have hgrown := grown_cons ident none cache
    refine ⟨⟨trivial, fun _ => ⟨?_, nofun⟩⟩, ?_⟩
    · rw [size, size, Prod.Lex.toLex_lt_toLex]
      exact Or.inl (untraced_lt hident hlookup)
    · rintro ⟨last, cache'⟩ hcache
      exact (hgrown.trans hcache).trans (grown_cons ident last cache')

theorem does_traceLoop (ident : String) (search : ℕ) (last : Option Val) (cache : Cache) :
    Does decode b (.traceLoop ident search last cache) (traceLoop b ident search last cache)
      (Post b (.traceLoop ident search last cache)) := by
  rw [traceLoop]
  cases hfind : findAssignment b (utf8 ident) search with
  | none => exact Grown.refl cache
  | some pos =>
    obtain ⟨hlt, hpos, hsearch⟩ := findAssignment_bounds hfind
    have hnext : ∀ {last' : Option Val} {cache' : Cache}, Grown cache cache' →
        Does decode b (.traceLoop ident search last cache)
          (askTraceLoop ident (pos + 1) last' cache')
          (Post b (.traceLoop ident search last cache)) := by
      intro last' cache' hcache
      refine ⟨callee_of_ahead trivial hcache (fun _ => ?_) (Or.inl rfl), ?_⟩
      · change 4 * b.length + 3 + (b.length + 1 - (pos + 1)) <
          4 * b.length + 3 + (b.length + 1 - search)
        omega
      · rintro ⟨last'', cache''⟩ hcache'
        exact hcache.trans hcache'
    simp only
    split_ifs
    · refine ⟨callee_of_ahead (skipWs_le b pos) (Grown.refl cache) (fun _ => ?_) (Or.inl rfl), ?_⟩
      · change 4 * (b.length - skipWs b pos) + 2 <
          4 * b.length + 3 + (b.length + 1 - search)
        omega
      · rintro ⟨v, after, cache'⟩ ⟨-, -, hcache⟩
        exact hnext hcache
    · exact hnext (Grown.refl cache)

/-- **Every call does what it should**: it stays within the text, and unless it is bad it is not
aborted and makes smaller calls only. -/
theorem does_body (c : Call) (hpre : Pre decode b c) :
    Does decode b c (body decode b c) (Post b c) := by
  cases c with
  | value start cache => exact does_parseValue cache hpre
  | object start cache => exact does_parseObject cache hpre
  | objectLoop i out cache => exact does_parseObjectLoop out cache hpre
  | array start cache => exact does_parseArray cache hpre
  | arrayLoop i out cache => exact does_parseArrayLoop out cache hpre
  | trace ident cache => exact does_trace cache hpre
  | traceLoop ident search last cache => exact does_traceLoop ident search last cache

theorem correct_body : Correct (body decode b) (Pre decode b) (Post b) := fun c hpre =>
  (does_body c hpre).mono (fun _ hd => hd.1) False.elim fun _ => id

/-! ### A bad pass never ends -/

theorem parseKey_of_not_consumed {i : ℕ} (h : i < b.length) (hws : skipWs b i = i)
    (hnot : ¬ Consumed b i) : parseKey decode b i = some (none, i) := by
  have hbyte : isIdentByte b[i] ≠ true ∧ b[i] ∉ bytes "\"'[(:," := by
    rw [← not_or]
    exact fun hc => hnot (Or.inr ⟨_, List.getElem?_eq_some_iff.mpr ⟨h, rfl⟩, hc⟩)
  have hquote : ¬ (b[i] = byte '"' ∨ b[i] = byte '\'') := by
    rintro (hc | hc) <;> exact hbyte.2 (by rw [hc]; decide)
  have hbracket : b[i] ≠ byte '[' := fun hc => hbyte.2 (by rw [hc]; decide)
  have hspan := spanEnd_eq_self h (Bool.eq_false_iff.mpr hbyte.1)
  simp only [parseKey, hws, dif_pos h, if_neg hquote, if_neg hbracket, hspan, lt_self_iff_false,
    if_false]

theorem parseObjectLoop_of_stalls {i : ℕ} (out : List (String × Val)) (cache : Cache)
    (h : StallsObject b i) :
    parseObjectLoop decode b i out cache = askObjectLoop i (out ++ []) cache := by
  obtain ⟨hlen, hend, hws, hnot⟩ := h
  have hnone : b[i]? ≠ none := by simp [hlen]
  have hspread : ¬ (bytes "...").isPrefixOf (b.drop i) = true := fun hc => hnot (Or.inl hc)
  have hbyte : ∀ c ∈ bytes "(:,", b[i]? ≠ some (c : UInt8) := fun c hc hi =>
    hnot (Or.inr ⟨c, hi, Or.inr (List.mem_of_mem_drop (i := 3) hc)⟩)
  have hkey : parseKey decode b i = some (none, i) := parseKey_of_not_consumed hlen hws hnot
  simp only [parseObjectLoop, hws, hnone, hend, or_self, if_false, objectPass, hspread, hkey]
  rw [if_neg (hbyte _ (by decide)), if_pos (hbyte _ (by decide)), skipComma,
    if_neg (hbyte _ (by decide))]
  rfl

theorem parseObjectLoop_of_overruns {i : ℕ} (out : List (String × Val)) (cache : Cache)
    (h : KeyOverruns b i) : parseObjectLoop decode b i out cache = .abort := by
  obtain ⟨c, hc, hquote, hover⟩ := h
  obtain ⟨hlen, hbyte⟩ := List.getElem?_eq_some_iff.mp hc
  have hi : i < b.length := by
    by_contra hi
    have hmin := min_le_skipWs b i
    omega
  have hend : b[i]? ≠ some (byte '\x7d') := by
    intro hbrace
    obtain ⟨_, hbrace⟩ := List.getElem?_eq_some_iff.mp hbrace
    have hstay := skipWs_of_solid hi (by rw [hbrace]; decide) (by rw [hbrace]; decide)
    simp only [hstay, hbrace] at hbyte
    obtain rfl | rfl := hquote <;> exact absurd hbyte (by decide)
  have hcases : c ≠ byte '\x7d' ∧ c ≠ byte '.' := by
    obtain rfl | rfl := hquote <;> decide
  have hnone : b[i]? ≠ none := by simp [hi]
  have hspread : ¬ (bytes "...").isPrefixOf (b.drop (skipWs b i)) = true := by
    rw [List.drop_eq_getElem_cons hlen, hbyte]
    intro hdots
    have hdot : byte '.' = c := by
      have := List.isPrefixOf_iff_prefix.mp hdots
      exact (List.cons_prefix_cons.mp this).1
    exact hcases.2 hdot.symm
  have hkey : parseKey decode b (skipWs b i) = none := by
    simp only [parseKey, skipWs_skipWs, dif_pos hlen, hbyte, if_pos hquote]
    rw [if_neg (by omega)]
  have hbrace : ¬ (some c = none ∨ some c = some (byte '\x7d')) := by simp [hcases.1]
  simp only [parseObjectLoop, hnone, hend, or_self, if_false, hc, if_neg hbrace, objectPass,
    hspread, hkey]
  rfl

/-- What is read of a byte that ends a value: nothing. -/
theorem parseValue_of_stalls {i : ℕ} (cache : Cache) (h : StallsArray b i) :
    skipWs b i = i ∧ parseValue decode b i cache = .ret (.null, i, cache) := by
  obtain ⟨c, hc, hmem⟩ := h
  obtain ⟨hlen, hbyte⟩ := List.getElem?_eq_some_iff.mp hc
  have hcases : c = byte '\x7d' ∨ c = byte ')' ∨ c = byte ':' := by simpa [bytes] using hmem
  have hsolid : isAsciiSpace c = false ∧ c ≠ byte '/' ∧ isQuote c = false ∧
      c ∉ bytes "([\x7b" ∧ c ∈ valueStops := by
    obtain rfl | rfl | rfl := hcases <;> decide
  have hplain : c ≠ byte '\x7b' ∧ c ≠ byte '[' ∧ c ≠ byte '!' ∧
      ¬ (isDigit c ∨ c = byte '.' ∨ c = byte '-') ∧
      ¬ ((Char.ofNat c.toNat).isAlpha ∨ c = byte '_' ∨ c = byte '$') := by
    obtain rfl | rfl | rfl := hcases <;> decide
  obtain ⟨hspace, hslash, hquote, hopen, hstop⟩ := hsolid
  have hws : skipWs b i = i := skipWs_of_solid hlen (hbyte ▸ hspace) (hbyte ▸ hslash)
  have hexpr : skipExpr b i valueStops = i :=
    skipExpr_of_stop hlen (hbyte ▸ hstop) (hbyte ▸ hquote) (hbyte ▸ hopen)
  refine ⟨hws, ?_⟩
  simp only [parseValue, hws, dif_pos hlen, hbyte, hquote, Bool.false_eq_true, if_false,
    if_neg hplain.1, if_neg hplain.2.1, hplain.2.2.1, false_and, if_neg hplain.2.2.2.1,
    if_neg hplain.2.2.2.2, hexpr]

/-- **A bad pass is aborted, or followed by another.** -/
theorem doomed_of_bad (c : Call) (hbad : Bad b c) :
    Doomed (body decode b) (Bad b) (body decode b c) := by
  cases c with
  | objectLoop i out cache =>
    rw [body]
    obtain hstalls | hover := hbad
    · rw [parseObjectLoop_of_stalls out cache hstalls]
      exact Or.inl (Or.inl hstalls)
    · rw [parseObjectLoop_of_overruns out cache hover]
      trivial
  | arrayLoop i out cache =>
    obtain ⟨hws, hvalue⟩ := @parseValue_of_stalls decode b i cache hbad
    obtain ⟨c, hc, hmem⟩ := hbad
    have hcases : c ≠ byte ']' ∧ c ≠ byte ',' := by
      have : c = byte '\x7d' ∨ c = byte ')' ∨ c = byte ':' := by simpa [bytes] using hmem
      obtain rfl | rfl | rfl := this <;> decide
    have hend : ¬ (b[i]? = none ∨ b[i]? = some (byte ']')) := by simp [hc, hcases.1]
    have hcomma : skipComma b i = i := if_neg (by simp [hc, hcases.2])
    rw [body, parseArrayLoop, if_neg hend]
    refine Or.inr fun r hr => ?_
    rw [body, hvalue, returns_ret] at hr
    subst hr
    refine Or.inl ?_
    change StallsArray b (skipWs b (skipComma b (skipWs b i)))
    rw [hws, hcomma, hws]
    exact ⟨c, hc, hmem⟩
  | value | object | array | trace | traceLoop => exact hbad.elim

/-! ### The whole reader -/

theorem findSub_lt {needle : Source} : ∀ {i m : ℕ} {b : Source},
    findSub needle i b = some m → m < i + b.length
  | _, _, [], h => nomatch h
  | i, m, c :: rest, h => by
    rw [findSub] at h
    rw [List.length_cons]
    split_ifs at h
    · cases h
      omega
    · have := findSub_lt h
      omega

theorem meets_findLiteralFrom : ∀ {n : ℕ} (depth : BitVec 32) (cache : Cache), n ≤ b.length →
    Meets (Post b) (Pre decode b) True (findLiteralFrom b n depth cache) fun _ => True
  | 0, _, _, _ => trivial
  | n + 1, depth, cache, hn => by
    have hrest : ∀ (depth : BitVec 32) (cache : Cache),
        Meets (Post b) (Pre decode b) True (findLiteralFrom b n depth cache) fun _ => True :=
      fun depth cache => meets_findLiteralFrom depth cache (by omega)
    simp only [findLiteralFrom]
    split_ifs
    · exact hrest _ _
    · refine ⟨hn, ?_⟩
      rintro ⟨v, last, cache'⟩ -
      change Meets (Post b) (Pre decode b) True
        (if v.kind = "Request" then .ret (some v) else findLiteralFrom b n 0 cache') _
      split_ifs
      · trivial
      · exact hrest _ _
    · exact hrest _ _
    · exact hrest _ _
    · exact hrest _ _

theorem meets_responseFromModule :
    Meets (Post b) (Pre decode b) True (responseFromModule b) fun _ => True := by
  rw [responseFromModule, meets_bind, findOperationLiteral]
  cases hmarker : findSub (bytes "\"Request\"") 0 b with
  | none => trivial
  | some marker =>
    have hlt := findSub_lt hmarker
    exact (meets_findLiteralFrom 0 [] (by omega)).mono (fun _ => id) id fun _ _ => trivial

variable (decode b)

/-- A call of the reader of a module. -/
def Reached (c : Call) : Prop := Reaches (body decode b) (responseFromModule b) c

/-- The offset a call returns. -/
def endOf : ∀ c : Call, Read c → Option ℕ
  | .value .., r | .object .., r | .array .., r => some r.2.1
  | .objectLoop .., r => some r.2.1
  | .arrayLoop .., r => some r.2.1
  | .trace .., _ | .traceLoop .., _ => none

/-- The reader returns, every offset it meets is within the text, and its loops go forward. -/
structure Reads : Prop where
  returns : ∃ out, Returns (body decode b) (responseFromModule b) out
  inRange : ∀ c, Reached decode b c → ∀ r, Returns (body decode b) (body decode b c) r →
    ∀ last, endOf c r = some last → last ≤ b.length
  advances : ∀ c d, Reached decode b c → Asks (body decode b) (body decode b c) d → Advances c d

variable {decode b}

theorem endOf_le {c : Call} {r : Read c} (h : Post b c r) {last : ℕ}
    (hlast : endOf c r = some last) :
    last ≤ b.length := by
  cases c with
  | value | object | array | objectLoop | arrayLoop =>
    cases hlast
    exact h.1.2
  | trace | traceLoop => cases hlast

end

/-- **Which modules are read to the end.**  Those whose reading reaches no bad pass: no pass over an
object begins at a byte that no branch consumes, no quoted key of an object runs over the end, and
no pass over a list begins at a closing brace, a closing parenthesis or a colon. -/
theorem reads_iff (decode : List UInt8 → String) (b : Source) :
    Reads decode b ↔ ∀ c, Reached decode b c → ¬ Bad b c := by
  have hreturns := returns_iff_not_reaches (size decode b) correct_body
    (fun c hpre hbad => (does_body c hpre).mono
      (fun d hd => ⟨hd.1, (hd.2 hbad).1⟩) (fun _ => hbad) fun _ => id)
    doomed_of_bad (@meets_responseFromModule decode b)
  have hpre : ∀ c, Reached decode b c → Pre decode b c := fun c hc =>
    pre_of_reaches correct_body (meets_responseFromModule.mono (fun _ => id) False.elim
      fun _ => id) hc
  constructor
  · intro h
    exact hreturns.mp h.returns
  · intro hgood
    refine ⟨hreturns.mpr hgood, ?_, ?_⟩
    · intro c hc r hr last hlast
      exact endOf_le (returns_spec correct_body (correct_body c (hpre c hc)) hr) hlast
    · intro c d hc hd
      have hcallee := meets_asks correct_body (fun _ hd => hd.1) (does_body c (hpre c hc)) hd
      exact (hcallee.2 (hgood c hc)).2

/-- The decoding of ASCII bytes. -/
def asciiText (bs : List UInt8) : String := String.ofList (bs.map fun c => Char.ofNat c.toNat)

example : (exec (Library.answer (body asciiText (bytes "[1,\x7bk:\"Request\"\x7d]")) 5)
    (findOperationLiteral (bytes "[1,\x7bk:\"Request\"\x7d]"))).isSome = true := by
  decide +kernel

/-- A block that begins with an empty statement keeps the reader busy forever. -/
theorem not_reads_emptyStatement : ¬ Reads asciiText (bytes "\x7b;\"Request\"\x7d") := by
  intro h
  have hobject : Reached asciiText (bytes "\x7b;\"Request\"\x7d") (.object 0 []) :=
    .asks (.first (Call.object 0 []) _)
  have hpass : Reached asciiText (bytes "\x7b;\"Request\"\x7d")
      (.objectLoop (skipWs (bytes "\x7b;\"Request\"\x7d") 1) [] []) :=
    .step hobject (.first (Call.objectLoop (skipWs (bytes "\x7b;\"Request\"\x7d") 1) [] []) _)
  have hws : skipWs (bytes "\x7b;\"Request\"\x7d") 1 = 1 :=
    skipWs_of_solid (by decide) (by decide) (by decide)
  rw [hws] at hpass
  have hbad : Bad (bytes "\x7b;\"Request\"\x7d") (.objectLoop 1 [] []) := by
    refine Or.inl ⟨by decide, by decide, hws, ?_⟩
    rintro (hdots | ⟨c, hc, hkind⟩)
    · exact absurd hdots (by decide)
    · obtain rfl : byte ';' = c := Option.some.inj hc
      exact absurd hkind (by decide)
  obtain ⟨out, hout⟩ := h.returns
  obtain ⟨r, hr⟩ := hout.of_reaches hpass
  exact not_returns_of_doomed doomed_of_bad (doomed_of_bad _ hbad) hr

end Whatspec.Mex

import Mathlib

/-!
# The host that a URL names

Two readings of a URL.  `rfcHost` is the generic syntax of RFC 3986: scheme, authority, userinfo,
host and port, each made of the characters its rule admits.  `webHost` is the parser of the
WHATWG standard for `https` URLs: control characters and blanks around the text and tabs and
newlines in it are dropped, any number of slashes and backslashes may follow the scheme, and a
backslash ends the authority as a slash does.

What is behind a host text, Unicode tables and numeric addresses, is a parameter (`Rules`);
`Rules.Lawful` is what a conversion to ASCII does to plain letters.
-/

namespace Whatspec.Library.Urls

/-- What a URL names as its host. -/
inductive Host where
  | name (s : List Char)
  | ipv4 (s : List Char)
  | ipv6 (s : List Char)
  | ipFuture (s : List Char)
  deriving DecidableEq, Repr

/-- What the two grammars take from elsewhere. -/
structure Rules where
  /-- Percent-decoding and conversion to ASCII of a host that is not in brackets. -/
  domainToAscii : List Char → Option (List Char)
  isIpv4 : List Char → Bool
  isIpv6 : List Char → Bool

/-- Letters and dots. -/
def Plain (s : List Char) : Prop := ∀ c ∈ s, c.isAlpha = true ∨ c = '.'

/-- Plain text comes out in lowercase; behind a dot it does so whatever stands before it. -/
structure Rules.Lawful (rules : Rules) : Prop where
  plain : ∀ s, s ≠ [] → Plain s → rules.domainToAscii s = some (s.map Char.toLower)
  suffix : ∀ front s d, Plain ('.' :: s) → rules.domainToAscii (front ++ '.' :: s) = some d →
    ('.' :: s).map Char.toLower <:+ d

/-- The text before the first separator, and the text after it. -/
def cutAt (sep : Char) : List Char → Option (List Char × List Char)
  | [] => none
  | c :: cs => if c = sep then some ([], cs) else (cutAt sep cs).map fun p => (c :: p.1, p.2)

def isHexDigit (c : Char) : Bool :=
  c.isDigit || ('a' ≤ c && c ≤ 'f') || ('A' ≤ c && c ≤ 'F')

/-- Ends an authority in both grammars. -/
def isAuthorityEnd (c : Char) : Bool := c = '/' || c = '?' || c = '#'

/-- An IPv6 address is made of hexadecimal digits, colons and dots. -/
def ipv6Char (c : Char) : Bool := isHexDigit c || c = ':' || c = '.'

def ipv6Text (rules : Rules) (s : List Char) : Bool := s.all ipv6Char && rules.isIpv6 s

/-! ### RFC 3986 -/

def isUnreserved (c : Char) : Bool := c.isAlphanum || c = '-' || c = '.' || c = '_' || c = '~'

def isSubDelim (c : Char) : Bool :=
  c = '!' || c = '$' || c = '&' || c.toNat = 39 || c = '(' || c = ')' || c = '*' || c = '+' ||
    c = ',' || c = ';' || c = '='

def isRegNameChar (c : Char) : Bool := isUnreserved c || isSubDelim c

def isUserinfoChar (c : Char) : Bool := isUnreserved c || isSubDelim c || c = ':'

/-- Characters of one kind and percent-encoded bytes. -/
def encoded (ok : Char → Bool) : List Char → Bool
  | [] => true
  | c :: cs =>
      if c = '%' then
        match cs with
        | a :: b :: rest => isHexDigit a && isHexDigit b && encoded ok rest
        | _ => false
      else ok c && encoded ok cs

def isScheme : List Char → Bool
  | [] => false
  | c :: cs => c.isAlpha && cs.all fun d => d.isAlphanum || d = '+' || d = '-' || d = '.'

/-- Nothing, or a colon and digits. -/
def isPortSuffix : List Char → Bool
  | [] => true
  | c :: ds => c = ':' && ds.all Char.isDigit

def isIpFuture : List Char → Bool
  | [] => false
  | v :: cs => (v = 'v' || v = 'V') &&
      match cutAt '.' cs with
      | some (version, rest) => version ≠ [] && version.all isHexDigit && rest ≠ [] &&
          rest.all fun c => isUnreserved c || isSubDelim c || c = ':'
      | none => false

/-- The authority of an absolute URI. -/
def rfcAuthority (s : List Char) : Option (List Char) :=
  (cutAt ':' s).bind fun (scheme, rest) =>
    match rest with
    | '/' :: '/' :: r => if isScheme scheme then some (r.takeWhile (!isAuthorityEnd ·)) else none
    | _ => none

/-- The authority without its userinfo. -/
def rfcHostPort (a : List Char) : Option (List Char) :=
  match cutAt '@' a with
  | some (userinfo, rest) => if encoded isUserinfoChar userinfo then some rest else none
  | none => some a

/-- The host in front of a port. -/
def rfcHostOf (rules : Rules) (hp : List Char) : Option Host :=
  if hp.head? = some '[' then
    (cutAt ']' hp.tail).bind fun (inner, after) =>
      if isPortSuffix after then
        if ipv6Text rules inner then some (.ipv6 inner)
        else if isIpFuture inner then some (.ipFuture inner)
        else none
      else none
  else if encoded isRegNameChar (hp.takeWhile (· ≠ ':')) && isPortSuffix (hp.dropWhile (· ≠ ':'))
    then some (.name (hp.takeWhile (· ≠ ':')))
  else none

def rfcHost (rules : Rules) (s : List Char) : Option Host :=
  (rfcAuthority s).bind fun a => (rfcHostPort a).bind (rfcHostOf rules)

/-! ### WHATWG, `https` URLs -/

/-- A C0 control or a space. -/
def isC0OrSpace (c : Char) : Bool := c.toNat ≤ 0x20

def isTabOrNewline (c : Char) : Bool := c = '\t' || c = '\n' || c = '\r'

/-- The text that is parsed. -/
def cleaned (s : List Char) : List Char :=
  ((s.dropWhile isC0OrSpace).rdropWhile isC0OrSpace).filter (!isTabOrNewline ·)

def isSlash (c : Char) : Bool := c = '/' || c = '\\'

/-- What stands between the slashes after `https:` and the next slash, backslash, question mark
or hash. -/
def webAuthority (s : List Char) : Option (List Char) :=
  (cutAt ':' (cleaned s)).bind fun (scheme, rest) =>
    if scheme.map Char.toLower = "https".toList then
      some ((rest.dropWhile isSlash).takeWhile fun c => !isAuthorityEnd c && c ≠ '\\')
    else none

/-- What follows the last `@`; nothing after one is an error. -/
def webHostPort (a : List Char) : Option (List Char) :=
  let hp := a.rtakeWhile (· ≠ '@')
  if '@' ∈ a ∧ hp = [] then none else some hp

/-- The host text, up to a colon outside brackets, and what follows it. -/
def hostBuffer (inside : Bool) : List Char → List Char × List Char
  | [] => ([], [])
  | c :: cs =>
      if c = ':' ∧ inside = false then ([], c :: cs)
      else
        let p := hostBuffer (if c = '[' then true else if c = ']' then false else inside) cs
        (c :: p.1, p.2)

def isWebPort : List Char → Bool
  | [] => true
  | _ :: ds => ds.all Char.isDigit &&
      decide (ds.foldl (fun n d => 10 * n + (d.toNat - '0'.toNat)) 0 ≤ 65535)

/-- A forbidden host code point. -/
def isForbidden (c : Char) : Bool :=
  c.toNat ≤ 0x20 || c = '#' || c = '/' || c = ':' || c = '<' || c = '>' || c = '?' || c = '@' ||
    c = '[' || c = '\\' || c = ']' || c = '^' || c = '|' || c.toNat = 0x7f

/-- The last label, a trailing dot aside, is a number. -/
def endsInNumber (d : List Char) : Bool :=
  let trimmed := if d.getLast? = some '.' then d.dropLast else d
  match trimmed.rtakeWhile (· ≠ '.') with
  | [] => false
  | c :: cs => (c :: cs).all Char.isDigit || (c = '0' &&
      match cs with
      | x :: hex => (x = 'x' || x = 'X') && hex.all isHexDigit
      | [] => false)

/-- The host parser. -/
def hostParser (rules : Rules) (b : List Char) : Option Host :=
  if b.head? = some '[' then
    if b.getLast? = some ']' ∧ ipv6Text rules b.tail.dropLast then some (.ipv6 b.tail.dropLast)
    else none
  else if b.any isForbidden then none
  else (rules.domainToAscii b).bind fun d =>
    if endsInNumber d then (if rules.isIpv4 d then some (.ipv4 d) else none) else some (.name d)

def webHostOf (rules : Rules) (hp : List Char) : Option Host :=
  let p := hostBuffer false hp
  if p.1 ≠ [] ∧ isWebPort p.2 then hostParser rules p.1 else none

def webHost (rules : Rules) (s : List Char) : Option Host :=
  (webAuthority s).bind fun a => (webHostPort a).bind (webHostOf rules)

/-! ### Cutting -/

theorem cutAt_eq_some {sep : Char} {s a b : List Char} :
    cutAt sep s = some (a, b) ↔ s = a ++ sep :: b ∧ sep ∉ a := by
  induction s generalizing a with
  | nil =>
      refine ⟨(nomatch ·), fun h => ?_⟩
      exact absurd h.1.symm (List.append_ne_nil_of_right_ne_nil _ (List.cons_ne_nil _ _))
  | cons c cs ih =>
      rw [cutAt]
      by_cases hc : c = sep
      · subst hc
        rw [if_pos rfl]
        constructor
        · intro h
          cases h
          exact ⟨rfl, List.not_mem_nil⟩
        · intro h
          obtain ⟨heq, hnot⟩ := h
          cases a with
          | nil =>
              cases heq
              rfl
          | cons x a =>
              rw [List.cons_append] at heq
              exact absurd ((List.cons.inj heq).1 ▸ List.mem_cons_self) hnot
      · rw [if_neg hc, Option.map_eq_some_iff]
        constructor
        · intro h
          obtain ⟨⟨a', b'⟩, hcut, heq⟩ := h
          cases heq
          obtain ⟨rfl, hnot⟩ := ih.mp hcut
          refine ⟨rfl, fun hmem => ?_⟩
          cases List.mem_cons.mp hmem with
          | inl heq => exact hc heq.symm
          | inr hin => exact hnot hin
        · intro h
          obtain ⟨heq, hnot⟩ := h
          cases a with
          | nil => exact absurd (List.cons.inj heq).1 hc
          | cons x a =>
              obtain ⟨rfl, hrest⟩ := List.cons.inj heq
              exact ⟨(a, b), ih.mpr ⟨hrest, fun hin => hnot (List.mem_cons_of_mem _ hin)⟩, rfl⟩

/-! ### Reading to a delimiter what was cleaned -/

section Cleaning

variable {α : Type*} {p k q : α → Bool}

/-- What is dropped is not a delimiter, so dropping and reading up to one may be exchanged. -/
theorem takeWhile_dropWhile_comm (hpk : ∀ c, p c = true → k c = true) (s : List α) :
    (s.dropWhile p).takeWhile k = (s.takeWhile k).dropWhile p := by
  induction s with
  | nil => rfl
  | cons c cs ih =>
      by_cases hp : p c = true
      · rw [List.dropWhile_cons_of_pos hp, ih, List.takeWhile_cons_of_pos (hpk c hp),
          List.dropWhile_cons_of_pos hp]
      · rw [List.dropWhile_cons_of_neg hp]
        by_cases hk : k c = true
        · rw [List.takeWhile_cons_of_pos hk, List.dropWhile_cons_of_neg hp]
        · rw [List.takeWhile_cons_of_neg hk]
          rfl

theorem rtakeWhile_rdropWhile_comm (hpk : ∀ c, p c = true → k c = true) (s : List α) :
    (s.rdropWhile p).rtakeWhile k = (s.rtakeWhile k).rdropWhile p := by
  have h := takeWhile_dropWhile_comm hpk s.reverse
  simp only [List.rtakeWhile, List.rdropWhile, List.reverse_reverse, h]

theorem takeWhile_filter_comm (hqk : ∀ c, q c = false → k c = true) (s : List α) :
    (s.filter q).takeWhile k = (s.takeWhile k).filter q := by
  induction s with
  | nil => rfl
  | cons c cs ih =>
      by_cases hq : q c = true
      · rw [List.filter_cons_of_pos hq]
        by_cases hk : k c = true
        · rw [List.takeWhile_cons_of_pos hk, List.takeWhile_cons_of_pos hk, ih,
            List.filter_cons_of_pos hq]
        · rw [List.takeWhile_cons_of_neg hk, List.takeWhile_cons_of_neg hk]
          rfl
      · rw [List.filter_cons_of_neg hq, ih,
          List.takeWhile_cons_of_pos (hqk c (Bool.eq_false_iff.mpr hq)), List.filter_cons_of_neg hq]

theorem rtakeWhile_filter_comm (hqk : ∀ c, q c = false → k c = true) (s : List α) :
    (s.filter q).rtakeWhile k = (s.rtakeWhile k).filter q := by
  have h := takeWhile_filter_comm hqk s.reverse
  rw [List.rtakeWhile, List.rtakeWhile, ← List.filter_reverse, h, List.filter_reverse]

/-- Dropping at the end leaves what is read up to a delimiter, or drops from it. -/
theorem takeWhile_rdropWhile (hpk : ∀ c, p c = true → k c = true) (s : List α) :
    (s.rdropWhile p).takeWhile k = s.takeWhile k ∨
      (s.rdropWhile p).takeWhile k = (s.takeWhile k).rdropWhile p := by
  induction s using List.reverseRecOn with
  | nil => exact Or.inl rfl
  | append_singleton s c ih =>
      by_cases hp : p c = true
      · rw [List.rdropWhile_concat_pos p s c hp, List.takeWhile_append]
        by_cases hall : (s.takeWhile k).length = s.length
        · have hs : s.takeWhile k = s :=
            (List.takeWhile_prefix k).eq_of_length hall
          rw [if_pos hall, List.takeWhile_cons_of_pos (hpk c hp), List.takeWhile_nil,
            List.rdropWhile_concat_pos p s c hp]
          rw [hs] at ih
          right
          cases ih with
          | inl h =>
              have hsub : (s.rdropWhile p).takeWhile k = s.rdropWhile p := by
                refine List.takeWhile_eq_self_iff.mpr fun d hd => ?_
                have hmem := (List.rdropWhile_prefix p (l := s)).subset hd
                exact List.takeWhile_eq_self_iff.mp hs d hmem
              exact hsub
          | inr h => exact h
        · rw [if_neg hall]
          exact ih
      · rw [List.rdropWhile_concat_neg p s c hp]
        exact Or.inl rfl

/-- A character that stays is not dropped. -/
theorem mem_rdropWhile {s : List α} {c : α} (hc : c ∈ s) (hp : p c = false) :
    c ∈ s.rdropWhile p := by
  rw [← List.rdropWhile_append_rtakeWhile (p := p) (l := s), List.mem_append] at hc
  refine hc.resolve_right fun htake => ?_
  rw [List.mem_rtakeWhile_imp htake] at hp
  cases hp

/-- Nothing is dropped behind a character that stays. -/
theorem rdropWhile_append_of_last {s t : List α} {c : α} (hlast : t.getLast? = some c)
    (hc : p c = false) : (s ++ t).rdropWhile p = s ++ t := by
  obtain ⟨init, rfl⟩ := List.getLast?_eq_some_iff.mp hlast
  rw [← List.append_assoc, List.rdropWhile_concat_neg p _ c (by rw [hc]; decide)]

/-- Dropping at the end stops at a character that stays. -/
theorem rdropWhile_append_left {s : List α} {c : α} (hlast : s.getLast? = some c)
    (hc : p c = false) (t : List α) : (s ++ t).rdropWhile p = s ++ t.rdropWhile p := by
  induction t using List.reverseRecOn with
  | nil =>
      have h := rdropWhile_append_of_last (s := []) hlast hc
      rw [List.nil_append] at h
      rw [List.append_nil, h, List.rdropWhile_nil, List.append_nil]
  | append_singleton t d ih =>
      rw [← List.append_assoc]
      by_cases hd : p d = true
      · rw [List.rdropWhile_concat_pos p _ d hd, List.rdropWhile_concat_pos p t d hd, ih]
      · rw [List.rdropWhile_concat_neg p _ d hd, List.rdropWhile_concat_neg p t d hd,
          List.append_assoc]

/-- Reading back stops at a delimiter. -/
theorem rtakeWhile_append_stop {s t : List α} {c : α} (hc : k c = false) :
    (s ++ c :: t).rtakeWhile k = t.rtakeWhile k := by
  induction t using List.reverseRecOn with
  | nil => rw [List.rtakeWhile_concat_neg k s c (by rw [hc]; decide), List.rtakeWhile_nil]
  | append_singleton t d ih =>
      rw [← List.cons_append, ← List.append_assoc]
      by_cases hd : k d = true
      · rw [List.rtakeWhile_concat_pos k _ d hd, List.rtakeWhile_concat_pos k t d hd, ih]
      · rw [List.rtakeWhile_concat_neg k _ d hd, List.rtakeWhile_concat_neg k t d hd]

end Cleaning

/-! ### RFC 3986: what a host is made of -/

theorem mem_of_encoded {ok : Char → Bool} {s : List Char} (h : encoded ok s = true) :
    ∀ c ∈ s, ok c = true ∨ c = '%' ∨ isHexDigit c = true := by
  induction s using encoded.induct with
  | case1 => exact fun c hc => absurd hc List.not_mem_nil
  | case2 a b rest ih =>
      rw [encoded, if_pos rfl] at h
      simp only [Bool.and_eq_true] at h
      intro c hc
      simp only [List.mem_cons] at hc
      rcases hc with rfl | rfl | rfl | hc
      · exact Or.inr (Or.inl rfl)
      · exact Or.inr (Or.inr h.1.1)
      · exact Or.inr (Or.inr h.1.2)
      · exact ih h.2 c hc
  | case3 cs hcs =>
      rw [encoded.eq_def] at h
      simp only [if_true] at h
      cases cs with
      | nil => cases h
      | cons a cs =>
          cases cs with
          | nil => cases h
          | cons b rest => exact absurd rfl (hcs a b rest)
  | case4 c cs hc ih =>
      rw [encoded.eq_def] at h
      simp only [if_neg hc, Bool.and_eq_true] at h
      intro d hd
      cases List.mem_cons.mp hd with
      | inl heq => exact Or.inl (heq ▸ h.1)
      | inr hin => exact ih h.2 d hin

theorem not_at_of_portSuffix {s : List Char} (h : isPortSuffix s = true) : '@' ∉ s := by
  cases s with
  | nil => exact List.not_mem_nil
  | cons c ds =>
      simp only [isPortSuffix, Bool.and_eq_true, List.all_eq_true] at h
      intro hmem
      cases List.mem_cons.mp hmem with
      | inl heq =>
          rw [← heq] at h
          exact absurd h.1 (by decide)
      | inr hin => exact absurd (h.2 '@' hin) (by decide)

theorem not_at_of_ipFuture {s : List Char} (h : isIpFuture s = true) : '@' ∉ s := by
  cases s with
  | nil => exact List.not_mem_nil
  | cons v cs =>
      rw [isIpFuture] at h
      cases hcut : cutAt '.' cs with
      | none =>
          rw [hcut] at h
          simp at h
      | some p =>
          obtain ⟨version, rest⟩ := p
          rw [hcut] at h
          obtain ⟨rfl, _⟩ := cutAt_eq_some.mp hcut
          simp only [Bool.and_eq_true, List.all_eq_true] at h
          intro hmem
          simp only [List.mem_cons, List.mem_append] at hmem
          rcases hmem with heq | hver | heq | hrest
          · rw [← heq] at h
            exact absurd h.1 (by decide)
          · exact absurd (h.2.1.1.2 '@' hver) (by decide)
          · exact absurd heq (by decide)
          · exact absurd (h.2.2 '@' hrest) (by decide)

/-- No `@` is part of a host and its port. -/
theorem not_at_of_rfcHostOf {rules : Rules} {hp : List Char} {H : Host}
    (h : rfcHostOf rules hp = some H) : '@' ∉ hp := by
  rw [rfcHostOf] at h
  by_cases hbracket : hp.head? = some '['
  · rw [if_pos hbracket, Option.bind_eq_some_iff] at h
    obtain ⟨⟨inner, after⟩, hcut, h⟩ := h
    obtain ⟨htail, _⟩ := cutAt_eq_some.mp hcut
    dsimp only at h
    rw [← List.cons_head?_tail hbracket, htail]
    by_cases hport : isPortSuffix after = true
    · rw [if_pos hport] at h
      have hinner : '@' ∉ inner := by
        by_cases h6 : ipv6Text rules inner = true
        · simp only [ipv6Text, Bool.and_eq_true, List.all_eq_true] at h6
          exact fun hmem => absurd (h6.1 '@' hmem) (by decide)
        · rw [if_neg h6] at h
          by_cases hf : isIpFuture inner = true
          · exact not_at_of_ipFuture hf
          · rw [if_neg hf] at h
            cases h
      intro hmem
      simp only [List.mem_cons, List.mem_append] at hmem
      rcases hmem with heq | hin | heq | hafter
      · exact absurd heq (by decide)
      · exact hinner hin
      · exact absurd heq (by decide)
      · exact not_at_of_portSuffix hport hafter
    · rw [if_neg hport] at h
      cases h
  · rw [if_neg hbracket] at h
    by_cases hvalid : (encoded isRegNameChar (hp.takeWhile (· ≠ ':')) &&
        isPortSuffix (hp.dropWhile (· ≠ ':'))) = true
    · obtain ⟨hname, hport⟩ := Bool.and_eq_true_iff.mp hvalid
      rw [← List.takeWhile_append_dropWhile (p := (· ≠ ':')) (l := hp), List.mem_append, not_or]
      refine ⟨fun hmem => ?_, not_at_of_portSuffix hport⟩
      rcases mem_of_encoded hname '@' hmem with hok | heq | hhex
      · exact absurd hok (by decide)
      · exact absurd heq (by decide)
      · exact absurd hhex (by decide)
    · rw [if_neg hvalid] at h
      cases h

/-- The host of an `https` URL is behind the last `@` of its authority. -/
theorem rfcHost_https {rules : Rules} {r : List Char} {H : Host}
    (h : rfcHost rules ("https://".toList ++ r) = some H) :
    rfcHostOf rules ((r.takeWhile (!isAuthorityEnd ·)).rtakeWhile (· ≠ '@')) = some H := by
  have hauth : rfcAuthority ("https://".toList ++ r) = some (r.takeWhile (!isAuthorityEnd ·)) := rfl
  rw [rfcHost, hauth, Option.bind_some, Option.bind_eq_some_iff] at h
  obtain ⟨hp, hport, hhost⟩ := h
  have hat := not_at_of_rfcHostOf hhost
  have hall : hp.rtakeWhile (· ≠ '@') = hp := by
    rw [List.rtakeWhile_eq_self_iff]
    exact fun c hc => decide_eq_true fun heq => hat (heq ▸ hc)
  rw [rfcHostPort] at hport
  cases hcut : cutAt '@' (r.takeWhile (!isAuthorityEnd ·)) with
  | none =>
      rw [hcut] at hport
      rw [Option.some.inj hport, hall]
      exact hhost
  | some p =>
      obtain ⟨userinfo, rest⟩ := p
      rw [hcut] at hport
      by_cases hvalid : encoded isUserinfoChar userinfo = true
      · have hrest : rest = hp := by
          simpa only [if_pos hvalid, Option.some.injEq] using hport
        obtain ⟨hsplit, _⟩ := cutAt_eq_some.mp hcut
        rw [hsplit, rtakeWhile_append_stop (by decide), hrest, hall]
        exact hhost
      · simp only [if_neg hvalid] at hport
        cases hport

/-! ### WHATWG: where a host ends -/

/-- The text up to the first colon is part of the host text. -/
theorem takeWhile_prefix_hostBuffer (inside : Bool) (s : List Char) :
    s.takeWhile (· ≠ ':') <+: (hostBuffer inside s).1 := by
  induction s generalizing inside with
  | nil => exact List.prefix_rfl
  | cons c cs ih =>
      by_cases hc : c = ':'
      · rw [List.takeWhile_cons_of_neg (by simp [hc])]
        exact List.nil_prefix
      · rw [List.takeWhile_cons_of_pos (by simp [hc]), hostBuffer, if_neg fun h => hc h.1]
        exact List.cons_prefix_cons.mpr ⟨rfl, ih _⟩

/-- Without a bracket the host text ends at the first colon. -/
theorem hostBuffer_of_no_bracket {s : List Char} (h : '[' ∉ s.takeWhile (· ≠ ':')) :
    (hostBuffer false s).1 = s.takeWhile (· ≠ ':') := by
  induction s with
  | nil => rfl
  | cons c cs ih =>
      by_cases hc : c = ':'
      · rw [List.takeWhile_cons_of_neg (by simp [hc]), hostBuffer, if_pos ⟨hc, rfl⟩]
      · rw [List.takeWhile_cons_of_pos (by simp [hc])] at h ⊢
        rw [List.mem_cons, not_or] at h
        have hstay : (if c = '[' then true else if c = ']' then false else false) = false := by
          rw [if_neg fun heq => h.1 heq.symm, ite_self]
        rw [hostBuffer, if_neg fun hcolon => hc hcolon.1, hstay]
        exact congrArg (c :: ·) (ih h.2)

/-- Inside brackets a colon is part of the host text. -/
theorem prefix_hostBuffer_true {t rest : List Char} (ht : ']' ∉ t) :
    t ++ [']'] <+: (hostBuffer true (t ++ ']' :: rest)).1 := by
  induction t with
  | nil =>
      rw [List.nil_append, List.nil_append, hostBuffer, if_neg (by decide)]
      exact List.cons_prefix_cons.mpr ⟨rfl, List.nil_prefix⟩
  | cons c cs ih =>
      rw [List.mem_cons, not_or] at ht
      have hstay : (if c = '[' then true else if c = ']' then false else true) = true := by
        rw [if_neg fun heq : c = ']' => ht.1 heq.symm, ite_self]
      rw [List.cons_append, List.cons_append, hostBuffer, if_neg (by simp), hstay]
      exact List.cons_prefix_cons.mpr ⟨rfl, ih ht.2⟩

/-- **A host text with a letter that no address has** is a domain, and has no bracket. -/
theorem hostParser_domain {rules : Rules} {b : List Char} {H : Host}
    (h : hostParser rules b = some H) {c : Char} (hc : c ∈ b) (halpha : c.isAlpha = true)
    (h6 : ipv6Char c = false) :
    '[' ∉ b ∧ ∃ d, rules.domainToAscii b = some d ∧
      (endsInNumber d = false → H = .name d) := by
  have hnot : c ≠ '[' ∧ c ≠ ']' := by
    constructor
    · intro heq
      rw [heq] at halpha
      exact absurd halpha (by decide)
    · intro heq
      rw [heq] at halpha
      exact absurd halpha (by decide)
  rw [hostParser] at h
  by_cases hbracket : b.head? = some '['
  · rw [if_pos hbracket] at h
    exfalso
    by_cases haddr : b.getLast? = some ']' ∧ ipv6Text rules b.tail.dropLast
    · obtain ⟨hlast, htext⟩ := haddr
      have htail : c ∈ b.tail := by
        rw [← List.cons_head?_tail hbracket] at hc
        exact (List.mem_cons.mp hc).resolve_left hnot.1
      have htl : b.tail.getLast? = some ']' := by
        rw [← List.cons_head?_tail hbracket] at hlast
        cases hb : b.tail with
        | nil =>
            rw [hb] at htail
            exact absurd htail List.not_mem_nil
        | cons x xs =>
            rw [hb, List.getLast?_cons_cons] at hlast
            exact hlast
      obtain ⟨init, hinit⟩ := List.getLast?_eq_some_iff.mp htl
      rw [hinit, List.dropLast_concat] at htext
      rw [hinit, List.mem_append, List.mem_singleton] at htail
      simp only [ipv6Text, Bool.and_eq_true, List.all_eq_true] at htext
      rw [htext.1 c (htail.resolve_right hnot.2)] at h6
      cases h6
    · rw [if_neg haddr] at h
      cases h
  · rw [if_neg hbracket] at h
    by_cases hforbidden : b.any isForbidden = true
    · rw [if_pos hforbidden] at h
      cases h
    · rw [if_neg hforbidden, Option.bind_eq_some_iff] at h
      obtain ⟨d, hd, h⟩ := h
      refine ⟨fun hmem => ?_, d, hd, fun hend => ?_⟩
      · exact hforbidden (List.any_eq_true.mpr ⟨'[', hmem, by decide⟩)
      · rw [hend] at h
        exact (Option.some.inj h).symm

/-- The authority of an `https` URL before it is cut at a backslash. -/
def cleanedAuthority (r : List Char) : List Char :=
  ((r.rdropWhile isC0OrSpace).filter (!isTabOrNewline ·)).takeWhile (!isAuthorityEnd ·)

/-- The authority in front of its first backslash, those at its start aside. -/
def front (r : List Char) : List Char :=
  ((cleanedAuthority r).dropWhile (· = '\\')).takeWhile (· ≠ '\\')

theorem cleaned_https (r : List Char) :
    cleaned ("https://".toList ++ r) =
      "https://".toList ++ (r.rdropWhile isC0OrSpace).filter (!isTabOrNewline ·) := by
  have hdrop : ("https://".toList ++ r).dropWhile isC0OrSpace = "https://".toList ++ r := rfl
  rw [cleaned, hdrop, @rdropWhile_append_left _ _ "https://".toList '/' rfl (by decide),
    List.filter_append]
  rfl

/-- **Where the WHATWG authority ends**: at the first backslash behind those that begin it. -/
theorem webAuthority_https {r : List Char} {c : Char} (hc : c ∈ cleanedAuthority r)
    (hback : c ≠ '\\') : webAuthority ("https://".toList ++ r) = some (front r) := by
  obtain ⟨R, hR⟩ : ∃ R, R = (r.rdropWhile isC0OrSpace).filter (!isTabOrNewline ·) := ⟨_, rfl⟩
  have hauth : cleanedAuthority r = R.takeWhile (!isAuthorityEnd ·) := by rw [cleanedAuthority, hR]
  have hweb : webAuthority ("https://".toList ++ r) =
      some ((R.dropWhile isSlash).takeWhile fun c => !isAuthorityEnd c && c ≠ '\\') := by
    rw [webAuthority, cleaned_https, ← hR]
    rfl
  rw [hweb, front, hauth]
  rw [hauth] at hc
  refine congrArg some ?_
  clear hweb hauth hR
  -- Slashes are skipped inside the authority only, for it does not end before its letter.
  have hskip : ∀ S : List Char, c ∈ S.takeWhile (!isAuthorityEnd ·) →
      (S.dropWhile isSlash).takeWhile (fun c => !isAuthorityEnd c && c ≠ '\\') =
        ((S.takeWhile (!isAuthorityEnd ·)).dropWhile (· = '\\')).takeWhile (· ≠ '\\') := by
    intro S
    have hstop : ∀ T : List Char, T.takeWhile (fun c => !isAuthorityEnd c && c ≠ '\\') =
        (T.takeWhile (!isAuthorityEnd ·)).takeWhile (· ≠ '\\') := by
      intro T
      rw [List.takeWhile_takeWhile]
      refine congrFun (congrArg _ (funext fun d => ?_)) T
      by_cases hd : d = '\\' <;> simp [hd]
    induction S with
    | nil => exact fun h => absurd h List.not_mem_nil
    | cons d S ih =>
        intro hmem
        by_cases hend : isAuthorityEnd d = true
        · rw [List.takeWhile_cons_of_neg (by rw [hend]; decide)] at hmem
          exact absurd hmem List.not_mem_nil
        · have hkeep : (!isAuthorityEnd d) = true := by simpa using hend
          have hread : (d :: S).takeWhile (!isAuthorityEnd ·) =
              d :: S.takeWhile (!isAuthorityEnd ·) := List.takeWhile_cons_of_pos hkeep
          rw [hread] at hmem ⊢
          by_cases hd : d = '\\'
          · have hrest := (List.mem_cons.mp hmem).resolve_left fun heq => hback (heq.trans hd)
            rw [List.dropWhile_cons_of_pos (by rw [hd]; decide),
              List.dropWhile_cons_of_pos (by simp [hd])]
            exact ih hrest
          · have hslash : ¬ isSlash d = true := by
              intro h
              simp only [isSlash, Bool.or_eq_true, decide_eq_true_eq] at h
              cases h with
              | inl heq => exact hend (by rw [heq]; decide)
              | inr heq => exact hd heq
            rw [List.dropWhile_cons_of_neg hslash, List.dropWhile_cons_of_neg (by simp [hd]),
              hstop, hread]
  exact hskip R hc

/-! ### Letters in lowercase -/

/-- A statement about characters: the ASCII ones one by one, the others together. -/
theorem forall_char {P : Char → Prop} (hascii : ∀ n : Fin 128, P (Char.ofNat n.val))
    (hrest : ∀ c, 128 ≤ c.toNat → P c) (c : Char) : P c := by
  by_cases h : c.toNat < 128
  · have hc := hascii ⟨c.toNat, h⟩
    rw [Char.ofNat_toNat] at hc
    exact hc
  · exact hrest c (Nat.le_of_not_lt h)

theorem toLower_of_le {c : Char} (h : 128 ≤ c.toNat) : c.toLower = c := by
  rw [Char.toLower, dif_neg]
  intro hupper
  have hle : c.toNat ≤ 90 := UInt32.le_iff_toNat_le.mp hupper.2
  omega

theorem plain_of_toLower (c : Char) :
    (c.toLower.isAlpha = true ∨ c.toLower = '.') → (c.isAlpha = true ∨ c = '.') := by
  induction c using forall_char with
  | hascii n => revert n; decide
  | hrest c h => rw [toLower_of_le h]; exact id

theorem ipv6Char_of_toLower (c : Char) : ipv6Char c.toLower = false → ipv6Char c = false := by
  induction c using forall_char with
  | hascii n => revert n; decide
  | hrest c h => rw [toLower_of_le h]; exact id

theorem alpha_of_toLower (c : Char) : c.toLower.isAlpha = true → c.isAlpha = true := by
  induction c using forall_char with
  | hascii n => revert n; decide
  | hrest c h => rw [toLower_of_le h]; exact id

theorem dot_of_toLower (c : Char) : c.toLower = '.' → c = '.' := by
  induction c using forall_char with
  | hascii n => revert n; decide
  | hrest c h => rw [toLower_of_le h]; exact id

theorem plain_of_all {s : List Char} (h : s.all (fun c => c.isAlpha || c = '.') = true) :
    Plain s := by
  intro c hc
  have hchar := List.all_eq_true.mp h c hc
  rwa [Bool.or_eq_true, decide_eq_true_iff] at hchar

theorem plain_of_map_toLower {t w : List Char} (hw : Plain w) (h : t.map Char.toLower = w) :
    Plain t := fun c hc => plain_of_toLower c (hw _ (h ▸ List.mem_map_of_mem hc))

/-- The last label decides, whatever stands in front of it. -/
theorem endsInNumber_suffix (z : List Char) {w : List Char} {c : Char}
    (hlast : w.getLast? = some c) (hdot : c ≠ '.') :
    endsInNumber (z ++ '.' :: w) = endsInNumber ('.' :: w) := by
  obtain ⟨init, rfl⟩ := List.getLast?_eq_some_iff.mp hlast
  have hend : ∀ x : List Char, (x ++ '.' :: (init ++ [c])).getLast? = some c := by
    intro x
    rw [← List.cons_append, ← List.append_assoc, List.getLast?_concat]
  have hne : some c ≠ some '.' := fun h => hdot (Option.some.inj h)
  have htop := hend []
  rw [List.nil_append] at htop
  rw [endsInNumber, endsInNumber, hend z, htop]
  simp only [if_neg hne]
  rw [rtakeWhile_append_stop (by decide)]
  have hone := @rtakeWhile_append_stop _ (fun x : Char => decide (x ≠ '.')) [] (init ++ [c]) '.'
    (by decide)
  rw [List.nil_append] at hone
  rw [hone]

end Whatspec.Library.Urls

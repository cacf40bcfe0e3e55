import Whatspec.Fetch.Hosts

/-!
# The host that is contacted

Each gate decides on the host that `hostOf` reads.  A text it lets through is read by the two URL
grammars, and the host they find is compared with the set the gate stands for.

* `rfc_host_of_read`: by RFC 3986 it is the same host, or an address of a future version, whose
  brackets `hostOf` takes off;
* `web_host_of_read`: by the WHATWG rules it is the same host when the authority has no
  backslash; with one it is whatever stands in `front` of it.
-/

namespace Whatspec.Fetch

open Whatspec.Library Whatspec.Library.Urls Whatspec.Text

/-- The hosts that a check on lowercased texts admits. -/
def Allows (ok : List Char → Bool) (H : Host) : Prop :=
  ∃ n, H = .name n ∧ ok (n.map Char.toLower) = true

/-- A check that cleaning and conversion to ASCII cannot lead out of: what it admits has a letter
that no address has, and stays admitted. -/
structure Steady (ok : List Char → Bool) : Prop where
  letter : ∀ t : List Char, ok (t.map Char.toLower) = true →
    ∃ c ∈ t, c.isAlpha = true ∧ ipv6Char c = false
  converted : ∀ rules : Rules, rules.Lawful →
    ∀ t t' : List Char, ok (t.map Char.toLower) = true → t' = t ∨ t' = t.rdropWhile isC0OrSpace →
      ∀ d, rules.domainToAscii (t'.filter (!isTabOrNewline ·)) = some d →
        endsInNumber d = false ∧ ok (d.map Char.toLower) = true

/-! ### RFC 3986 -/

section Read

variable {ok : List Char → Bool} (hsteady : Steady ok) {r h : List Char}
  (hhost : hostOf (https ++ r) = some h) (hok : ok h = true)

include hsteady hhost hok in
/-- **By RFC 3986** a host that was read is the host of the URL, or an address in brackets of a
version to come. -/
theorem rfc_host_of_read {rules : Rules} {H : Host} (hH : rfcHost rules (https ++ r) = some H) :
    Allows ok H ∨
      ∃ s, H = .ipFuture s ∧ isIpFuture s = true ∧ ok (s.map Char.toLower) = true := by
  obtain ⟨t, _, rfl, htext⟩ := hostOf_https hhost
  obtain ⟨c, hc, _, h6⟩ := hsteady.letter t hok
  have hread := rfcHost_https hH
  rw [← authorityOf] at hread
  cases htext with
  | inl hbracket =>
      obtain ⟨rest, hhp, hnot⟩ := hbracket
      rw [hhp, rfcHostOf, List.head?_cons, if_pos rfl, List.tail_cons, cutAt_eq_some.mpr ⟨rfl, hnot⟩,
        Option.bind_some] at hread
      dsimp only at hread
      have haddr : ¬ ipv6Text rules t = true := by
        intro htrue
        simp only [ipv6Text, Bool.and_eq_true, List.all_eq_true] at htrue
        rw [htrue.1 c hc] at h6
        cases h6
      rw [if_neg haddr] at hread
      by_cases hport : isPortSuffix rest = true
      · rw [if_pos hport] at hread
        by_cases hfuture : isIpFuture t = true
        · rw [if_pos hfuture] at hread
          exact Or.inr ⟨t, (Option.some.inj hread).symm, hfuture, hok⟩
        · rw [if_neg hfuture] at hread
          cases hread
      · rw [if_neg hport] at hread
        cases hread
  | inr hplain =>
      obtain ⟨hhead, ht⟩ := hplain
      rw [rfcHostOf, if_neg hhead, ← ht] at hread
      left
      by_cases hvalid : (encoded isRegNameChar t && isPortSuffix
          (((authorityOf r).rtakeWhile (· ≠ '@')).dropWhile (· ≠ ':'))) = true
      · rw [if_pos hvalid] at hread
        exact ⟨t, (Option.some.inj hread).symm, hok⟩
      · rw [if_neg hvalid] at hread
        cases hread

/-! ### WHATWG -/

theorem isC0OrSpace_of_alpha {c : Char} (h : c.isAlpha = true) : isC0OrSpace c = false := by
  simp only [Char.isAlpha, Char.isUpper, Char.isLower, Bool.or_eq_true, Bool.and_eq_true,
    decide_eq_true_eq, ge_iff_le, UInt32.le_iff_toNat_le] at h
  have hval : c.val.toNat = c.toNat := rfl
  simp only [hval] at h
  simp only [isC0OrSpace, decide_eq_false_iff_not]
  have hlow : 65 ≤ c.toNat := by
    cases h with
    | inl hu => exact hu.1
    | inr hl => exact le_trans (by decide) hl.1
  omega

theorem isTabOrNewline_of_alpha {c : Char} (h : c.isAlpha = true) : isTabOrNewline c = false := by
  rw [Bool.eq_false_iff]
  intro htab
  simp only [isTabOrNewline, Bool.or_eq_true, decide_eq_true_eq] at htab
  rcases htab with (rfl | rfl) | rfl
  · exact absurd h (by decide)
  · exact absurd h (by decide)
  · exact absurd h (by decide)

theorem toList_ne_of_alpha {c : Char} (h : c.isAlpha = true) :
    c ≠ '\\' ∧ c ≠ ':' ∧ c ≠ '[' ∧ c ≠ ']' := by
  refine ⟨?_, ?_, ?_, ?_⟩
  · rintro rfl
    exact absurd h (by decide)
  · rintro rfl
    exact absurd h (by decide)
  · rintro rfl
    exact absurd h (by decide)
  · rintro rfl
    exact absurd h (by decide)

/-- The authority that is parsed is the authority, cleaned. -/
theorem cleanedAuthority_cases (r : List Char) :
    ∃ a, (a = authorityOf r ∨ a = (authorityOf r).rdropWhile isC0OrSpace) ∧
      cleanedAuthority r = a.filter (!isTabOrNewline ·) := by
  have hfilter : ∀ c, (!isTabOrNewline c) = false → (!isAuthorityEnd c) = true := by
    intro c hc
    simp only [isTabOrNewline, Bool.not_eq_false', Bool.or_eq_true, decide_eq_true_eq] at hc
    rcases hc with (rfl | rfl) | rfl <;> decide
  have hdrop : ∀ c, isC0OrSpace c = true → (!isAuthorityEnd c) = true := by
    intro c hc
    rw [Bool.not_eq_true']
    rw [Bool.eq_false_iff]
    intro hend
    simp only [isAuthorityEnd, Bool.or_eq_true, decide_eq_true_eq] at hend
    rcases hend with (rfl | rfl) | rfl <;> exact absurd hc (by decide)
  refine ⟨(r.rdropWhile isC0OrSpace).takeWhile (!isAuthorityEnd ·),
    takeWhile_rdropWhile hdrop r, ?_⟩
  rw [cleanedAuthority, takeWhile_filter_comm hfilter]

/-- What follows the last `@` of the cleaned authority is what followed it, cleaned. -/
theorem hostPort_cleanedAuthority (r : List Char) :
    ∃ hp, (hp = (authorityOf r).rtakeWhile (· ≠ '@') ∨
        hp = ((authorityOf r).rtakeWhile (· ≠ '@')).rdropWhile isC0OrSpace) ∧
      (cleanedAuthority r).rtakeWhile (· ≠ '@') = hp.filter (!isTabOrNewline ·) := by
  obtain ⟨a, ha, hclean⟩ := cleanedAuthority_cases r
  have hfilter : ∀ c, (!isTabOrNewline c) = false → decide (c ≠ '@') = true := by
    intro c hc
    rw [decide_eq_true_iff]
    rintro rfl
    exact absurd hc (by decide)
  have hdrop : ∀ c, isC0OrSpace c = true → decide (c ≠ '@') = true := by
    intro c hc
    rw [decide_eq_true_iff]
    rintro rfl
    exact absurd hc (by decide)
  refine ⟨a.rtakeWhile (· ≠ '@'), ?_, by rw [hclean, rtakeWhile_filter_comm hfilter]⟩
  cases ha with
  | inl heq => exact Or.inl (by rw [heq])
  | inr heq => exact Or.inr (by rw [heq, rtakeWhile_rdropWhile_comm hdrop])

theorem mem_of_hostText {hp t : List Char} (htext : HostText hp t) {c : Char} (hc : c ∈ t) :
    c ∈ hp := by
  cases htext with
  | inl hbracket =>
      obtain ⟨rest, rfl, _⟩ := hbracket
      exact List.mem_cons_of_mem _ (List.mem_append_left _ hc)
  | inr hplain => exact (List.takeWhile_prefix _).subset (hplain.2 ▸ hc)

include hsteady hhost hok in
/-- **The WHATWG host** of a URL that was read is what stands in front of the first backslash. -/
theorem webHost_front (rules : Rules) :
    webHost rules (https ++ r) = (webHostPort (front r)).bind (webHostOf rules) := by
  obtain ⟨t, _, rfl, htext⟩ := hostOf_https hhost
  obtain ⟨c, hc, halpha, _⟩ := hsteady.letter t hok
  have hmem : c ∈ authorityOf r :=
    (List.rtakeWhile_suffix _ _).subset (mem_of_hostText htext hc)
  obtain ⟨a, ha, hclean⟩ := cleanedAuthority_cases r
  have hin : c ∈ cleanedAuthority r := by
    rw [hclean, List.mem_filter]
    refine ⟨?_, by rw [isTabOrNewline_of_alpha halpha]; rfl⟩
    cases ha with
    | inl heq => exact heq ▸ hmem
    | inr heq => exact heq ▸ mem_rdropWhile hmem (isC0OrSpace_of_alpha halpha)
  have hauth : webAuthority (https ++ r) = some (front r) :=
    webAuthority_https hin (toList_ne_of_alpha halpha).1
  rw [webHost, hauth, Option.bind_some]

/-- A host text with a letter, as the WHATWG parser reads it. -/
theorem domain_of_webHostOf {hp hp' t : List Char} (htext : HostText hp t) {c : Char} (hc : c ∈ t)
    (halpha : c.isAlpha = true) (h6 : ipv6Char c = false)
    (hhp : hp' = hp ∨ hp' = hp.rdropWhile isC0OrSpace) {rules : Rules} {H : Host}
    (hH : webHostOf rules (hp'.filter (!isTabOrNewline ·)) = some H) :
    ∃ t', (t' = t ∨ t' = t.rdropWhile isC0OrSpace) ∧
      ∃ d, rules.domainToAscii (t'.filter (!isTabOrNewline ·)) = some d ∧
        (endsInNumber d = false → H = .name d) := by
  have hkeep : ∀ s : List Char, c ∈ s → c ∈ s.filter (!isTabOrNewline ·) := fun s hs =>
    List.mem_filter.mpr ⟨hs, by rw [isTabOrNewline_of_alpha halpha]; rfl⟩
  rw [webHostOf] at hH
  by_cases hvalid : (hostBuffer false (hp'.filter (!isTabOrNewline ·))).1 ≠ [] ∧
      isWebPort (hostBuffer false (hp'.filter (!isTabOrNewline ·))).2
  · rw [if_pos hvalid] at hH
    cases htext with
    | inl hbracket =>
        -- The host text begins with a bracket and has the letter.
        exfalso
        obtain ⟨rest, rfl, hnot⟩ := hbracket
        obtain ⟨rest', hrest'⟩ : ∃ rest', hp' = '[' :: (t ++ ']' :: rest') := by
          cases hhp with
          | inl heq => exact ⟨rest, heq⟩
          | inr heq =>
              refine ⟨rest.rdropWhile isC0OrSpace, ?_⟩
              have hsplit : '[' :: (t ++ ']' :: rest) = ('[' :: (t ++ [']'])) ++ rest := by simp
              have hlast : ('[' :: (t ++ [']'])).getLast? = some ']' := by
                rw [← List.cons_append, List.getLast?_concat]
              rw [heq, hsplit, rdropWhile_append_left hlast (by decide)]
              simp
        have hfiltered : hp'.filter (!isTabOrNewline ·) =
            '[' :: (t.filter (!isTabOrNewline ·) ++ ']' :: rest'.filter (!isTabOrNewline ·)) := by
          rw [hrest', List.filter_cons_of_pos (by decide), List.filter_append,
            List.filter_cons_of_pos (by decide)]
        have hnot' : ']' ∉ t.filter (!isTabOrNewline ·) := fun h => hnot (List.mem_filter.mp h).1
        rw [hfiltered, hostBuffer, if_neg (by decide), if_pos rfl] at hH
        have hpre := @prefix_hostBuffer_true _ (rest'.filter (!isTabOrNewline ·)) hnot'
        have hcmem := hpre.subset (List.mem_append_left _ (hkeep t hc))
        have hdomain := hostParser_domain hH (List.mem_cons_of_mem _ hcmem) halpha h6
        exact hdomain.1 List.mem_cons_self
    | inr hplain =>
        obtain ⟨_, ht⟩ := hplain
        have hfilter : ∀ d, (!isTabOrNewline d) = false → decide (d ≠ ':') = true := by
          intro d hd
          rw [decide_eq_true_iff]
          rintro rfl
          exact absurd hd (by decide)
        have hdrop : ∀ d, isC0OrSpace d = true → decide (d ≠ ':') = true := by
          intro d hd
          rw [decide_eq_true_iff]
          rintro rfl
          exact absurd hd (by decide)
        have hcut : hp'.takeWhile (· ≠ ':') = t ∨
            hp'.takeWhile (· ≠ ':') = t.rdropWhile isC0OrSpace := by
          cases hhp with
          | inl heq => exact Or.inl (by rw [heq, ht])
          | inr heq =>
              rw [heq, ht]
              exact takeWhile_rdropWhile hdrop hp
        refine ⟨hp'.takeWhile (· ≠ ':'), hcut, ?_⟩
        have htake := takeWhile_filter_comm hfilter hp'
        have hmem : c ∈ (hp'.filter (!isTabOrNewline ·)).takeWhile (· ≠ ':') := by
          rw [htake]
          refine hkeep _ ?_
          cases hcut with
          | inl heq => exact heq.symm ▸ hc
          | inr heq => exact heq.symm ▸ mem_rdropWhile hc (isC0OrSpace_of_alpha halpha)
        have hpre := takeWhile_prefix_hostBuffer false (hp'.filter (!isTabOrNewline ·))
        obtain ⟨hnob, d, hd, hname⟩ := hostParser_domain hH (hpre.subset hmem) halpha h6
        have hbuf := hostBuffer_of_no_bracket fun h => hnob (hpre.subset h)
        rw [hbuf, htake] at hd
        exact ⟨d, hd, hname⟩
  · rw [if_neg hvalid] at hH
    cases hH

include hsteady hhost hok in
/-- **By the WHATWG rules** a host that was read is the host of the URL, when no backslash is in
the authority. -/
theorem web_host_of_read (hback : '\\' ∉ authorityOf r) {rules : Rules} (hlawful : rules.Lawful)
    {H : Host} (hH : webHost rules (https ++ r) = some H) : Allows ok H := by
  rw [webHost_front hsteady hhost hok] at hH
  obtain ⟨t, _, rfl, htext⟩ := hostOf_https hhost
  obtain ⟨c, hc, halpha, h6⟩ := hsteady.letter t hok
  have hfront : front r = cleanedAuthority r := by
    have hno : ∀ d ∈ cleanedAuthority r, d ≠ '\\' := by
      intro d hd
      rintro rfl
      obtain ⟨a, ha, hclean⟩ := cleanedAuthority_cases r
      rw [hclean] at hd
      have hmem := (List.mem_filter.mp hd).1
      cases ha with
      | inl heq => exact hback (heq ▸ hmem)
      | inr heq => exact hback ((List.rdropWhile_prefix _ _).subset (heq ▸ hmem))
    rw [front, List.dropWhile_eq_self_iff.mpr, List.takeWhile_eq_self_iff.mpr]
    · exact fun d hd => decide_eq_true (hno d hd)
    · intro hlen
      simpa using hno _ (List.getElem_mem hlen)
  rw [hfront, webHostPort, Option.bind_eq_some_iff] at hH
  obtain ⟨hp', hport, hH⟩ := hH
  obtain ⟨hp, hhp, hclean⟩ := hostPort_cleanedAuthority r
  split at hport
  · cases hport
  · rw [← Option.some.inj hport, hclean] at hH
    obtain ⟨t', ht', d, hd, hname⟩ := domain_of_webHostOf htext hc halpha h6 hhp hH
    obtain ⟨hend, hokd⟩ := hsteady.converted rules hlawful t t' hok ht' d hd
    exact ⟨d, hname hend, hokd⟩

end Read

/-! ### The three sets of hosts -/

theorem isC0OrSpace_of_plain {c : Char} (h : c.isAlpha = true ∨ c = '.') :
    isC0OrSpace c = false ∧ isTabOrNewline c = false := by
  cases h with
  | inl halpha => exact ⟨isC0OrSpace_of_alpha halpha, isTabOrNewline_of_alpha halpha⟩
  | inr hdot => rw [hdot]; decide

/-- Nothing is cleaned off letters and dots. -/
theorem clean_plain {x s t' : List Char} (hs : Plain s) (hne : s ≠ [])
    (ht' : t' = x ++ s ∨ t' = (x ++ s).rdropWhile isC0OrSpace) :
    t'.filter (!isTabOrNewline ·) = x.filter (!isTabOrNewline ·) ++ s := by
  have hkept : (x ++ s).rdropWhile isC0OrSpace = x ++ s := by
    refine rdropWhile_append_of_last (List.getLast?_eq_some_getLast hne) ?_
    exact (isC0OrSpace_of_plain (hs _ (List.getLast_mem hne))).1
  have hfilter : s.filter (!isTabOrNewline ·) = s := by
    refine List.filter_eq_self.mpr fun c hc => ?_
    rw [(isC0OrSpace_of_plain (hs c hc)).2]
    rfl
  cases ht' with
  | inl heq => rw [heq, List.filter_append, hfilter]
  | inr heq => rw [heq, hkept, List.filter_append, hfilter]

/-- Letters and dots in lowercase that are no address. -/
structure HostLabels (w : List Char) : Prop where
  plain : Plain w
  lower : w.map Char.toLower = w
  letter : ∃ c ∈ w, c.isAlpha = true ∧ ipv6Char c = false
  notNumber : endsInNumber w = false

theorem HostLabels.letter_of_map {w t : List Char} (hw : HostLabels w) {x : List Char}
    (h : t.map Char.toLower = x ++ w) : ∃ c ∈ t, c.isAlpha = true ∧ ipv6Char c = false := by
  obtain ⟨c, hc, halpha, h6⟩ := hw.letter
  have hmem : c ∈ t.map Char.toLower := h ▸ List.mem_append_right x hc
  obtain ⟨d, hd, rfl⟩ := List.mem_map.mp hmem
  exact ⟨d, hd, alpha_of_toLower d halpha, ipv6Char_of_toLower d h6⟩

/-- **One host.** -/
theorem steady_host {w : List Char} (hw : HostLabels w) : Steady fun h => h = w where
  letter := by
    intro t ht
    exact hw.letter_of_map (x := []) (of_decide_eq_true ht)
  converted := by
    intro rules hlawful t t' ht ht' d hd
    have hmap : t.map Char.toLower = w := of_decide_eq_true ht
    have hplain := plain_of_map_toLower hw.plain hmap
    have hne : t ≠ [] := by
      rintro rfl
      obtain ⟨c, hc, _⟩ := hw.letter
      rw [← hmap] at hc
      exact absurd hc List.not_mem_nil
    have hclean := @clean_plain [] t t' hplain hne ht'
    rw [hclean, List.filter_nil, List.nil_append, hlawful.plain t hne hplain, hmap] at hd
    rw [← Option.some.inj hd]
    exact ⟨hw.notNumber, decide_eq_true hw.lower⟩

/-- **All hosts under a domain.** -/
theorem steady_suffix {w : List Char} (hw : HostLabels ('.' :: w)) {c : Char}
    (hlast : w.getLast? = some c) (hdot : c ≠ '.') :
    Steady fun h => ('.' :: w).isSuffixOf h where
  letter := by
    intro t ht
    obtain ⟨x, hx⟩ := List.isSuffixOf_iff_suffix.mp ht
    exact hw.letter_of_map hx.symm
  converted := by
    intro rules hlawful t t' ht ht' d hd
    obtain ⟨y, hy⟩ := List.isSuffixOf_iff_suffix.mp ht
    obtain ⟨x, s, rfl, _, hs⟩ := List.map_eq_append_iff.mp hy.symm
    have hplain := plain_of_map_toLower hw.plain hs
    obtain ⟨e, s', rfl, he, _⟩ := List.map_eq_cons_iff.mp hs
    obtain rfl := dot_of_toLower e he
    rw [clean_plain hplain (List.cons_ne_nil _ _) ht'] at hd
    have hsuffix := hlawful.suffix _ s' d hplain hd
    rw [hs] at hsuffix
    obtain ⟨z, rfl⟩ := hsuffix
    rw [endsInNumber_suffix z hlast hdot]
    refine ⟨hw.notNumber, List.isSuffixOf_iff_suffix.mpr ?_⟩
    rw [List.map_append, hw.lower]
    exact List.suffix_append _ _

/-- One set or the other. -/
theorem Steady.or {ok ok' : List Char → Bool} (h : Steady ok) (h' : Steady ok') :
    Steady fun s => ok s || ok' s where
  letter := by
    intro t ht
    cases Bool.or_eq_true_iff.mp ht with
    | inl hl => exact h.letter t hl
    | inr hr => exact h'.letter t hr
  converted := by
    intro rules hlawful t t' ht ht' d hd
    cases Bool.or_eq_true_iff.mp ht with
    | inl hl =>
        obtain ⟨hend, hd'⟩ := h.converted rules hlawful t t' hl ht' d hd
        exact ⟨hend, Bool.or_eq_true_iff.mpr (Or.inl hd')⟩
    | inr hr =>
        obtain ⟨hend, hd'⟩ := h'.converted rules hlawful t t' hr ht' d hd
        exact ⟨hend, Bool.or_eq_true_iff.mpr (Or.inr hd')⟩

def isCdnHost (host : List Char) : Bool := host = allowedHost

def isPayloadHost (host : List Char) : Bool := payloadHostSuffix.isSuffixOf host

/-- Labels are checked character by character. -/
theorem hostLabels_of {w : List Char} (hplain : w.all (fun c => c.isAlpha || c = '.') = true)
    (hlower : w.map Char.toLower = w) {c : Char} (hc : c ∈ w) (halpha : c.isAlpha = true)
    (h6 : ipv6Char c = false) (hend : endsInNumber w = false) : HostLabels w :=
  ⟨plain_of_all hplain, hlower, ⟨c, hc, halpha, h6⟩, hend⟩

theorem steady_cdn : Steady isCdnHost :=
  steady_host (hostLabels_of (c := 's') (by decide) (by decide) (by decide) (by decide) (by decide)
    (by decide))

theorem steady_payload : Steady isPayloadHost :=
  steady_suffix (w := "fbcdn.net".toList) (c := 't')
    (hostLabels_of (c := 'n') (by decide) (by decide) (by decide) (by decide) (by decide)
      (by decide)) (by decide) (by decide)

theorem steady_endpoint : Steady isEndpointHost := by
  have hcom : Steady fun h => h = "whatsapp.com".toList :=
    steady_host (hostLabels_of (c := 'w') (by decide) (by decide) (by decide) (by decide)
      (by decide) (by decide))
  have hnet : Steady fun h => h = "whatsapp.net".toList :=
    steady_host (hostLabels_of (c := 'w') (by decide) (by decide) (by decide) (by decide)
      (by decide) (by decide))
  have hcoms : Steady fun h => ('.' :: "whatsapp.com".toList).isSuffixOf h :=
    steady_suffix (c := 'm') (hostLabels_of (c := 'w') (by decide) (by decide) (by decide)
      (by decide) (by decide) (by decide)) (by decide) (by decide)
  have hnets : Steady fun h => ('.' :: "whatsapp.net".toList).isSuffixOf h :=
    steady_suffix (c := 't') (hostLabels_of (c := 'w') (by decide) (by decide) (by decide)
      (by decide) (by decide) (by decide)) (by decide) (by decide)
  have hall := (hcoms.or hcom).or (hnets.or hnet)
  have heq : isEndpointHost = fun h =>
      (('.' :: "whatsapp.com".toList).isSuffixOf h || decide (h = "whatsapp.com".toList)) ||
        (('.' :: "whatsapp.net".toList).isSuffixOf h || decide (h = "whatsapp.net".toList)) := by
    funext h
    simp only [isEndpointHost, endpointDomains, List.any_cons, List.any_nil, Bool.or_false]
    rfl
  rw [heq]
  exact hall

/-! ### The gates -/

/-- By both grammars the host of a URL, if it has one, is in the set. -/
def HostsIn (rules : Rules) (url : List Char) (ok : List Char → Bool) : Prop :=
  (∀ H, rfcHost rules url = some H → Allows ok H) ∧ ∀ H, webHost rules url = some H → Allows ok H

/-- What follows `https://`. -/
def afterHttps (url : List Char) : List Char := url.drop https.length

/-- When the authority has a backslash, what stands in front of it is no host, or one of the
set. -/
def FrontHarmless (rules : Rules) (url : List Char) (ok : List Char → Bool) : Prop :=
  '\\' ∈ authorityOf (afterHttps url) → ∀ hp H, webHostPort (front (afterHttps url)) = some hp →
    webHostOf rules hp = some H → Allows ok H

/-- The host is not an address of a future version in brackets. -/
def NoFutureAddress (rules : Rules) (url : List Char) : Prop :=
  ∀ s, rfcHost rules url ≠ some (.ipFuture s)

section Gates

variable {ok : List Char → Bool} (hsteady : Steady ok) {rules : Rules} (hlawful : rules.Lawful)

include hsteady hlawful in
/-- **A URL whose host was read** names only hosts of the set exactly when its authority hides
none in front of a backslash or in brackets. -/
theorem hostsIn_iff {url h : List Char} (hhttps : https.isPrefixOf url = true)
    (hhost : hostOf url = some h) (hok : ok h = true) :
    HostsIn rules url ok ↔ FrontHarmless rules url ok ∧ NoFutureAddress rules url := by
  obtain ⟨r, rfl⟩ := List.isPrefixOf_iff_prefix.mp hhttps
  have hafter : afterHttps (https ++ r) = r := List.drop_left
  have hfront := webHost_front hsteady hhost hok rules
  rw [FrontHarmless, hafter]
  constructor
  · intro hin
    obtain ⟨hrfc, hweb⟩ := hin
    refine ⟨fun _ hp H hport hH => hweb H ?_, fun s hs => ?_⟩
    · rw [hfront, hport, Option.bind_some, hH]
    · obtain ⟨n, hname, _⟩ := hrfc _ hs
      cases hname
  · intro hsafe
    obtain ⟨hharmless, hfuture⟩ := hsafe
    refine ⟨fun H hH => ?_, fun H hH => ?_⟩
    · cases rfc_host_of_read hsteady hhost hok hH with
      | inl hallowed => exact hallowed
      | inr haddr =>
          obtain ⟨s, rfl, _, _⟩ := haddr
          exact absurd hH (hfuture s)
    · by_cases hback : '\\' ∈ authorityOf r
      · rw [hfront, Option.bind_eq_some_iff] at hH
        obtain ⟨hp, hport, hH⟩ := hH
        exact hharmless hback hp H hport hH
      · exact web_host_of_read hsteady hhost hok hback hlawful hH

end Gates

/-- The CDN host is not written like an address of a future version. -/
theorem noFutureAddress_cdn {rules : Rules} {url h : List Char}
    (hhttps : https.isPrefixOf url = true) (hhost : hostOf url = some h)
    (hok : isCdnHost h = true) : NoFutureAddress rules url := by
  obtain ⟨r, rfl⟩ := List.isPrefixOf_iff_prefix.mp hhttps
  intro s hs
  cases rfc_host_of_read steady_cdn hhost hok hs with
  | inl hallowed =>
      obtain ⟨n, hname, _⟩ := hallowed
      cases hname
  | inr haddr =>
      -- It would begin with a `v`.
      obtain ⟨s', heq, hfuture, hs'⟩ := haddr
      cases heq
      have hlower : s.map Char.toLower = allowedHost := of_decide_eq_true hs'
      cases s with
      | nil => cases hfuture
      | cons v cs =>
          rw [isIpFuture, Bool.and_eq_true, Bool.or_eq_true, decide_eq_true_iff,
            decide_eq_true_iff] at hfuture
          rw [List.map_cons] at hlower
          have hv := (List.cons.inj hlower).1
          cases hfuture.1 with
          | inl heq => rw [heq] at hv; exact absurd hv (by decide)
          | inr heq => rw [heq] at hv; exact absurd hv (by decide)

theorem isCdnPayload_iff {url : List Char} :
    isCdnPayload url = true ↔
      https.isPrefixOf url = true ∧ ∃ h, hostOf url = some h ∧ isCdnHost h = true := by
  rw [isCdnPayload, Bool.and_eq_true, decide_eq_true_iff]
  refine and_congr_right fun _ => ⟨fun h => ⟨_, h, decide_eq_true rfl⟩, fun h => ?_⟩
  obtain ⟨h, hhost, hok⟩ := h
  rw [hhost, of_decide_eq_true hok]

theorem endpointIsTrusted_iff {uri : List Char} :
    endpointIsTrusted uri = true ↔
      https.isPrefixOf uri = true ∧ ∃ h, hostOf uri = some h ∧ isEndpointHost h = true := by
  rw [endpointIsTrusted]
  by_cases hhttps : https.isPrefixOf uri = true
  · rw [hhttps, if_neg (by decide)]
    cases hhost : hostOf uri with
    | none =>
        refine iff_of_false (by simp) fun h => ?_
        obtain ⟨-, _, hnone, -⟩ := h
        cases hnone
    | some h =>
        constructor
        · exact fun hok => ⟨rfl, h, rfl, hok⟩
        · intro hok
          obtain ⟨_, h', heq, hok⟩ := hok
          cases heq
          exact hok
  · rw [Bool.eq_false_iff.mpr hhttps]
    exact iff_of_false (by simp) (by simp)

/-- What an accepted redirect target is. -/
theorem acceptPayloadLocation_ok {printable : Char → Bool} {location target : List Char}
    (h : acceptPayloadLocation printable location = .ok target) :
    target = trim location ∧ https.isPrefixOf target = true ∧
      '\\' ∉ authorityOf (afterHttps target) ∧
        ∃ host, hostOf target = some host ∧ isPayloadHost host = true := by
  rw [acceptPayloadLocation] at h
  dsimp only at h
  cases hstrip : stripPrefix https (trim location) with
  | none =>
      rw [hstrip] at h
      cases h
  | some rest =>
      rw [hstrip] at h
      have hpre : https.isPrefixOf (trim location) = true ∧ rest = afterHttps (trim location) := by
        rw [stripPrefix] at hstrip
        by_cases hp : https.isPrefixOf (trim location) = true
        · rw [if_pos hp] at hstrip
          exact ⟨hp, (Option.some.inj hstrip).symm⟩
        · rw [if_neg hp] at hstrip
          cases hstrip
      dsimp only at h
      by_cases hbad : '@' ∈ authorityOf rest ∨ '\\' ∈ authorityOf rest
      · rw [if_pos hbad] at h
        cases h
      · rw [if_neg hbad] at h
        cases hhost : hostOf (trim location) with
        | none =>
            rw [hhost] at h
            cases h
        | some host =>
            rw [hhost] at h
            dsimp only at h
            by_cases hsuffix : payloadHostSuffix.isSuffixOf host = true
            · rw [hsuffix, if_neg (by decide)] at h
              cases h
              refine ⟨rfl, hpre.1, fun hback => hbad (Or.inr ?_), host, hhost, hsuffix⟩
              rw [hpre.2]
              exact hback
            · rw [Bool.eq_false_iff.mpr hsuffix, if_pos (by decide)] at h
              cases h

/-- **What the gates let through.**  A payload URL names the CDN unless a backslash of its
authority has another host in front of it; an endpoint is under its domains unless that, or it is
an address of a future version; a redirect target is on its suffix unless the latter. -/
theorem gates_sound_iff (rules : Rules) (hlawful : rules.Lawful) :
    (∀ url, (isCdnPayload url = true → HostsIn rules url isCdnHost) ↔
      (isCdnPayload url = true → FrontHarmless rules url isCdnHost)) ∧
    (∀ uri, (endpointIsTrusted uri = true → HostsIn rules uri isEndpointHost) ↔
      (endpointIsTrusted uri = true →
        FrontHarmless rules uri isEndpointHost ∧ NoFutureAddress rules uri)) ∧
    ∀ printable location target, acceptPayloadLocation printable location = .ok target →
      target = trim location ∧
        (HostsIn rules target isPayloadHost ↔ NoFutureAddress rules target) := by
  refine ⟨fun url => forall_congr' fun hgate => ?_, fun uri => forall_congr' fun hgate => ?_,
    fun printable location target hgate => ?_⟩
  · obtain ⟨hhttps, h, hhost, hok⟩ := isCdnPayload_iff.mp hgate
    rw [hostsIn_iff steady_cdn hlawful hhttps hhost hok]
    exact and_iff_left (noFutureAddress_cdn hhttps hhost hok)
  · obtain ⟨hhttps, h, hhost, hok⟩ := endpointIsTrusted_iff.mp hgate
    exact hostsIn_iff steady_endpoint hlawful hhttps hhost hok
  · obtain ⟨htrim, hhttps, hback, h, hhost, hok⟩ := acceptPayloadLocation_ok hgate
    rw [hostsIn_iff steady_payload hlawful hhttps hhost hok]
    exact ⟨htrim, and_iff_right fun hmem => absurd hmem hback⟩

/-- Rules that convert letters, digits, dots and hyphens only. -/
def letterRules : Rules where
  domainToAscii s :=
    if s ≠ [] ∧ s.all (fun c => c.isAlphanum || c = '.' || c = '-') then some (s.map Char.toLower)
    else none
  isIpv4 := fun _ => false
  isIpv6 := fun _ => false

theorem letterRules_lawful : letterRules.Lawful where
  plain := by
    intro s hne hplain
    refine if_pos ⟨hne, List.all_eq_true.mpr fun c hc => ?_⟩
    cases hplain c hc with
    | inl halpha => simp [Char.isAlphanum, halpha]
    | inr hdot => simp [hdot]
  suffix := by
    intro x s d _ hd
    simp only [letterRules] at hd
    split_ifs at hd
    rw [← Option.some.inj hd, List.map_append]
    exact List.suffix_append _ _

theorem gates_sound_cdn :
    isCdnPayload "https://u@Static.WhatsApp.net:443/a\\@b.wasm".toList = true ∧
      HostsIn letterRules "https://u@Static.WhatsApp.net:443/a\\@b.wasm".toList isCdnHost := by
  have hgate : isCdnPayload "https://u@Static.WhatsApp.net:443/a\\@b.wasm".toList = true := by
    decide +kernel
  refine ⟨hgate, ((gates_sound_iff letterRules letterRules_lawful).1 _).mpr (fun _ hback => ?_)
    hgate⟩
  exact absurd hback (by decide +kernel)

/-- A backslash in the authority, and brackets around a name with a dot. -/
theorem gates_admit_other_hosts :
    letterRules.Lawful ∧
      (isCdnPayload "https://evil.test\\@static.whatsapp.net/x.wasm".toList = true ∧
        ¬ HostsIn letterRules "https://evil.test\\@static.whatsapp.net/x.wasm".toList isCdnHost) ∧
      (endpointIsTrusted "https://evil.test\\.whatsapp.com/".toList = true ∧
        ¬ HostsIn letterRules "https://evil.test\\.whatsapp.com/".toList isEndpointHost) ∧
      acceptPayloadLocation (fun _ => true) "https://[v1.fbcdn.net]/x".toList =
          .ok "https://[v1.fbcdn.net]/x".toList ∧
        ¬ HostsIn letterRules "https://[v1.fbcdn.net]/x".toList isPayloadHost := by
  have hevil : ∀ ok, ok "evil.test".toList = false →
      ¬ Allows ok (.name "evil.test".toList) := by
    intro ok hok hallowed
    obtain ⟨n, hname, hn⟩ := hallowed
    cases hname
    have hlower : "evil.test".toList.map Char.toLower = "evil.test".toList := by decide
    rw [hlower, hok] at hn
    cases hn
  refine ⟨letterRules_lawful, ⟨by decide +kernel, fun hin => ?_⟩,
    ⟨by decide +kernel, fun hin => ?_⟩, by rfl, fun hin => ?_⟩
  · exact hevil _ (by decide) (hin.2 (.name "evil.test".toList) (by decide +kernel))
  · exact hevil _ (by decide) (hin.2 (.name "evil.test".toList) (by decide +kernel))
  · obtain ⟨n, hname, _⟩ := hin.1 (.ipFuture "v1.fbcdn.net".toList) (by decide +kernel)
    cases hname

end Whatspec.Fetch

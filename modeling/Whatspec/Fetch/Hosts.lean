import Whatspec.Library.Rendering
import Whatspec.Library.Urls
import Whatspec.Text

/-!
# Which URLs are let through

`hostOf` reads the host of a URL; three gates are built on it.  `isCdnPayload` admits payload
URLs on one host, `endpointIsTrusted` a request endpoint under two domains, and
`acceptPayloadLocation` a redirect target under a third, with a bare authority.

The texts are lists of characters; `printable` is the choice of the debug text in the errors.
-/

namespace Whatspec.Fetch

open Whatspec.Library Whatspec.Library.Urls Whatspec.Text

/-- The text in front of the first `://`, and the text behind it. -/
def splitScheme : List Char → Option (List Char × List Char)
  | [] => none
  | c :: cs =>
      if ['/', '/'].isPrefixOf cs && c = ':' then some ([], cs.drop 2)
      else (splitScheme cs).map fun p => (c :: p.1, p.2)

/-- The second piece of a URL cut at every `://`. -/
def secondPiece (url : List Char) : Option (List Char) :=
  (splitScheme url).map fun p => ((splitScheme p.2).map Prod.fst).getD p.2

/-- The authority of what follows the scheme. -/
def authorityOf (after : List Char) : List Char := after.takeWhile (!isAuthorityEnd ·)

/-- Lowercased host of a URL. -/
def hostOf (url : List Char) : Option (List Char) :=
  (secondPiece url).bind fun after =>
    let hostPort := (authorityOf after).rtakeWhile (· ≠ '@')
    let host :=
      if hostPort.head? = some '[' then (cutAt ']' hostPort.tail).map Prod.fst
      else some (hostPort.takeWhile (· ≠ ':'))
    host.bind fun h => if h = [] then none else some (h.map Char.toLower)

def https : List Char := "https://".toList

/-- The static CDN. -/
def allowedHost : List Char := "static.whatsapp.net".toList

/-- Domains the bootloader endpoint may live on. -/
def endpointDomains : List (List Char) := [".whatsapp.com".toList, ".whatsapp.net".toList]

def payloadHostSuffix : List Char := ".fbcdn.net".toList

/-- Whether a payload URL may be downloaded. -/
def isCdnPayload (url : List Char) : Bool :=
  https.isPrefixOf url && hostOf url = some allowedHost

/-- A host under one of the endpoint domains. -/
def isEndpointHost (host : List Char) : Bool :=
  endpointDomains.any fun d => d.isSuffixOf host || host = d.drop 1

/-- Whether the page-supplied endpoint may be requested. -/
def endpointIsTrusted (uri : List Char) : Bool :=
  if !https.isPrefixOf uri then false
  else
    match hostOf uri with
    | some host => isEndpointHost host
    | none => false

section Redirects

variable (printable : Char → Bool)

/-- The debug text of a URL. -/
def shown (s : List Char) : String := String.ofList (Rendering.quoted printable (String.ofList s))

/-- Admit a redirect target: the text to fetch, or which rule refused it. -/
def acceptPayloadLocation (location : List Char) : Except String (List Char) :=
  let location := trim location
  match stripPrefix https location with
  | none =>
      .error ("redirect Location " ++ shown printable location ++ " is not an absolute https URL")
  | some rest =>
      let authority := authorityOf rest
      if '@' ∈ authority ∨ '\\' ∈ authority then
        .error ("redirect Location " ++ shown printable location ++
          " carries userinfo in its authority")
      else
        match hostOf location with
        | none => .error ("redirect Location " ++ shown printable location ++ " has no host")
        | some host =>
            if !payloadHostSuffix.isSuffixOf host then
              .error ("redirect Location host " ++ shown printable host ++ " is outside " ++
                String.ofList payloadHostSuffix)
            else .ok location

end Redirects

/-! ### The host text -/

/-- The host text of a host and port, as the code reads it and before it is lowercased. -/
def HostText (hp t : List Char) : Prop :=
  (∃ rest, hp = '[' :: (t ++ ']' :: rest) ∧ ']' ∉ t) ∨
    (hp.head? ≠ some '[' ∧ t = hp.takeWhile (· ≠ ':'))

theorem splitScheme_https (r : List Char) :
    splitScheme (https ++ r) = some ("https".toList, r) := by
  rfl

/-- A second `://` cuts the text at a colon. -/
theorem splitScheme_eq_some {s a b : List Char} (h : splitScheme s = some (a, b)) :
    s = a ++ ':' :: '/' :: '/' :: b := by
  induction s generalizing a with
  | nil => cases h
  | cons c cs ih =>
      rw [splitScheme] at h
      by_cases hc : (['/', '/'].isPrefixOf cs && decide (c = ':')) = true
      · rw [if_pos hc] at h
        cases h
        obtain ⟨hpre, hcolon⟩ := Bool.and_eq_true_iff.mp hc
        obtain ⟨t, rfl⟩ := List.isPrefixOf_iff_prefix.mp hpre
        rw [of_decide_eq_true hcolon]
        rfl
      · rw [if_neg hc, Option.map_eq_some_iff] at h
        obtain ⟨⟨a', b'⟩, hrest, heq⟩ := h
        cases heq
        rw [ih hrest]
        rfl

/-- The authority that is read is the authority of the URL, or lacks a final colon. -/
theorem authorityOf_secondPiece (r : List Char) :
    ∃ after, secondPiece (https ++ r) = some after ∧
      (authorityOf r = authorityOf after ∨ authorityOf r = authorityOf after ++ [':']) := by
  rw [secondPiece, splitScheme_https, Option.map_some]
  cases h : splitScheme r with
  | none => exact ⟨r, rfl, Or.inl rfl⟩
  | some p =>
      obtain ⟨a, b⟩ := p
      refine ⟨a, rfl, ?_⟩
      rw [splitScheme_eq_some h, authorityOf, authorityOf, List.takeWhile_append]
      by_cases hall : (a.takeWhile (!isAuthorityEnd ·)).length = a.length
      · rw [if_pos hall, (List.takeWhile_prefix _).eq_of_length hall]
        exact Or.inr rfl
      · rw [if_neg hall]
        exact Or.inl rfl

theorem takeWhile_append_stop {α : Type*} {p : α → Bool} {c : α} (hc : p c = false)
    (s t : List α) : (s ++ c :: t).takeWhile p = s.takeWhile p := by
  rw [List.takeWhile_append]
  by_cases hall : (s.takeWhile p).length = s.length
  · rw [if_pos hall, List.takeWhile_cons_of_neg (by rw [hc]; decide), List.append_nil]
    exact ((List.takeWhile_prefix _).eq_of_length hall).symm
  · rw [if_neg hall]

/-- **What `hostOf` reads** in an `https` URL. -/
theorem hostOf_https {r h : List Char} (hhost : hostOf (https ++ r) = some h) :
    ∃ t, t ≠ [] ∧ h = t.map Char.toLower ∧
      HostText ((authorityOf r).rtakeWhile (· ≠ '@')) t := by
  obtain ⟨after, hafter, hauth⟩ := authorityOf_secondPiece r
  rw [hostOf, hafter, Option.bind_some, Option.bind_eq_some_iff] at hhost
  obtain ⟨t, ht, hlower⟩ := hhost
  by_cases hne : t = []
  · rw [if_pos hne] at hlower
    cases hlower
  · rw [if_neg hne] at hlower
    refine ⟨t, hne, (Option.some.inj hlower).symm, ?_⟩
    -- The final colon, if it was cut off, belongs to the port.
    have hcolon : (authorityOf r).rtakeWhile (· ≠ '@') =
          (authorityOf after).rtakeWhile (· ≠ '@') ∨
        (authorityOf r).rtakeWhile (· ≠ '@') =
          (authorityOf after).rtakeWhile (· ≠ '@') ++ [':'] := by
      cases hauth with
      | inl heq => exact Or.inl (by rw [heq])
      | inr heq =>
          right
          rw [heq, List.rtakeWhile_concat_pos _ _ _ (by decide)]
    by_cases hbracket : ((authorityOf after).rtakeWhile (· ≠ '@')).head? = some '['
    · rw [if_pos hbracket, Option.map_eq_some_iff] at ht
      obtain ⟨⟨inner, rest⟩, hcut, rfl⟩ := ht
      obtain ⟨htail, hnot⟩ := cutAt_eq_some.mp hcut
      have hcons : (authorityOf after).rtakeWhile (· ≠ '@') = '[' :: (inner ++ ']' :: rest) := by
        rw [← htail]
        exact (List.cons_head?_tail hbracket).symm
      left
      cases hcolon with
      | inl heq => exact ⟨rest, by rw [heq, hcons], hnot⟩
      | inr heq =>
          refine ⟨rest ++ [':'], ?_, hnot⟩
          rw [heq, hcons, List.cons_append, List.append_assoc, List.cons_append]
    · rw [if_neg hbracket] at ht
      have ht := Option.some.inj ht
      right
      cases hcolon with
      | inl heq => exact ⟨by rw [heq]; exact hbracket, by rw [heq, ht]⟩
      | inr heq =>
          rw [heq]
          refine ⟨fun hhead => ?_, ?_⟩
          · cases hp : (authorityOf after).rtakeWhile (· ≠ '@') with
            | nil =>
                rw [hp] at hhead
                exact absurd hhead (by decide)
            | cons c cs =>
                rw [hp] at hhead hbracket
                exact hbracket hhead
          · rw [← ht]
            exact (takeWhile_append_stop (by decide) _ []).symm

end Whatspec.Fetch

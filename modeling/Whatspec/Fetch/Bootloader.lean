import Whatspec.Fetch.Hosts
import Whatspec.Library.Json
import Whatspec.Library.SortedMap
import Whatspec.Library.SortedSet

/-!
# Resolving wasm handles

The page carries a map from handles to URLs, and the bootloader endpoint is asked for more of it.

* `collectBxData` takes the handles of one payload: the first binding of a handle stays;
* `resolveWasm` asks in rounds until one adds nothing, and keeps the handles of wasm payloads on
  the CDN.

The answers of the endpoint come from outside the repository: `answers` gives the payload of each
request, or why there is none.
-/

namespace Whatspec.Fetch

open Whatspec.Library

/-- Whether a URL is a WebAssembly payload; a query or a fragment does not count. -/
def isWasmUrl (url : String) : Bool :=
  ".wasm".toList.isSuffixOf (url.toList.takeWhile fun c => c ≠ '?' && c ≠ '#')

/-- What may be downloaded as a wasm payload and recorded as one. -/
def isWasmPayload (url : String) : Bool := isWasmUrl url && isCdnPayload url.toList

/-- Unescape JSON-escaped URLs. -/
def unescapeSlashes : List Char → List Char
  | '\\' :: '/' :: cs => '/' :: unescapeSlashes cs
  | c :: cs => c :: unescapeSlashes cs
  | [] => []

def unescapeJsonUrl (raw : String) : String := String.ofList (unescapeSlashes raw.toList)

/-! ### The handles of a payload -/

section Payloads

variable {ν : Type}

/-- The URL of a handle's entry. -/
def uriOf : Json ν → Option String
  | .object fields =>
      match SortedMap.get fields "uri" with
      | some (.string uri) => some (unescapeJsonUrl uri)
      | _ => none
  | _ => none

/-- The handles of an object that has them. -/
def bxEntries (fields : List (String × Json ν)) : List (String × String) :=
  match SortedMap.get fields "bxData" with
  | some (.object bx) => bx.filterMap fun e => (uriOf e.2).map fun uri => (e.1, uri)
  | _ => []

mutual

/-- Collect the handles found anywhere in a payload; the first binding of a handle stays. -/
def collectBxData (out : List (String × String)) : Json ν → List (String × String)
  | .object fields => collectFields (SortedMap.complete out (bxEntries fields)) fields
  | .array items => collectItems out items
  | _ => out

def collectFields (out : List (String × String)) :
    List (String × Json ν) → List (String × String)
  | [] => out
  | (_, v) :: fields => collectFields (collectBxData out v) fields

def collectItems (out : List (String × String)) : List (Json ν) → List (String × String)
  | [] => out
  | v :: items => collectItems (collectBxData out v) items

end

end Payloads

/-! ### Resolution -/

/-- What the page says, as far as wasm payloads depend on it. -/
structure Discovered where
  waVersion : Option String
  /-- The wasm URLs found in the text of the page. -/
  wasm : List String
  /-- The page's map of resources. -/
  bxData : List (String × String)
  sorted : SortedMap.Sorted bxData
  /-- The endpoint, when the page shipped all of its parameters. -/
  bootloader : Option String
  deferredComponents : List String

/-- The two spellings of a request. -/
def moduleParams : List String := ["nb_modules", "modules"]

def maxRounds : ℕ := 3

def maxComponents : ℕ := 512

/-- What was learned so far. -/
structure Asked where
  bx : List (String × String)
  rounds : ℕ
  requests : ℕ
  failures : List String
  failedRequests : ℕ

section Rounds

variable {ν : Type} (answers : ℕ → String → Except String (Json ν))

/-- One request. -/
def ask (round : ℕ) (a : Asked) (param : String) : Asked :=
  match answers round param with
  | .ok payload =>
      { a with requests := a.requests + 1, bx := collectBxData a.bx payload }
  | .error why =>
      { a with
        requests := a.requests + 1
        failures := a.failures ++ [param ++ " round " ++ toString round ++ ": " ++ why]
        failedRequests := a.failedRequests + 1 }

/-- Rounds of requests, until one adds no handle. -/
def askRounds : ℕ → ℕ → Asked → Asked
  | 0, _, a => a
  | remaining + 1, round, a =>
      let asked := moduleParams.foldl (ask answers round) a
      let next := { asked with rounds := asked.rounds + 1 }
      if next.bx.length = a.bx.length then next else askRounds remaining (round + 1) next

end Rounds

/-- The message about a list of components that was cut. -/
def cappedFailures (d : Discovered) : List String :=
  if maxComponents < d.deferredComponents.length then
    ["component list capped at " ++ toString maxComponents ++ " of " ++
      toString d.deferredComponents.length ++
      " deferred components — raise max_components for full coverage"]
  else []

/-- The page's handles and those of the endpoint's answers. -/
def askEndpoint {ν : Type} (d : Discovered) (answers : ℕ → String → Except String (Json ν)) :
    Asked :=
  let start : Asked := ⟨d.bxData, 0, 0, cappedFailures d, 0⟩
  match d.bootloader with
  | none =>
      { start with
        failures := start.failures ++
          ["page did not ship the bootloader endpoint parameters (SiteData / " ++
            "BootloaderEndpointConfig) — only page-inlined handles are resolvable"] }
  | some endpoint =>
    if !endpointIsTrusted endpoint.toList then
      { start with
        failures := start.failures ++
          ["refusing the bootloader endpoint " ++ endpoint ++ ": not an https WhatsApp host"] }
    else if d.deferredComponents.isEmpty then
      { start with
        failures := start.failures ++
          ["page deferred no server-fetchable components — nothing to ask the bootloader " ++
            "endpoint (expected ~150; suspect a page-payload shape change)"] }
    else askRounds answers maxRounds 0 start

structure WasmResolution where
  /-- The URL of each handle of a wasm payload. -/
  byId : List (String × String)
  /-- Every handle that was mentioned. -/
  observedIds : List String
  urls : List String
  fromPage : ℕ
  rounds : ℕ
  requests : ℕ
  failures : List String
  failedRequests : ℕ

/-- Resolve every wasm handle that the page and the endpoint tell. -/
def resolveWasm {ν : Type} (d : Discovered) (answers : ℕ → String → Except String (Json ν)) :
    WasmResolution :=
  let asked := askEndpoint d answers
  let byId := asked.bx.filter fun p => isWasmPayload p.2
  { byId
    observedIds := asked.bx.map Prod.fst
    urls := SortedSet.collect (byId.map Prod.snd ++ d.wasm.filter fun u => isCdnPayload u.toList)
    fromPage := (d.bxData.filter fun p => isWasmUrl p.2).length
    rounds := asked.rounds
    requests := asked.requests
    failures := asked.failures
    failedRequests := asked.failedRequests }

/-- A map of handles turned around; the first handle of a URL counts. -/
def invert (byId : List (String × String)) : List (String × String) :=
  SortedMap.complete [] (byId.map Prod.swap)

/-- The handle of each resolved URL. -/
def WasmResolution.handleByUrl (r : WasmResolution) : List (String × String) := invert r.byId

/-! ### What resolution keeps -/

section Collecting

variable {ν : Type} {P : List (String × String) → Prop}

mutual

/-- What adding entries keeps, collecting the handles of a payload keeps. -/
theorem collectBxData_keeps (hcomplete : ∀ out entries, P out → P (SortedMap.complete out entries)) :
    ∀ (out : List (String × String)) (v : Json ν), P out → P (collectBxData out v)
  | _, .object fields, h => by
    rw [collectBxData]
    exact collectFields_keeps hcomplete _ fields (hcomplete _ _ h)
  | out, .array items, h => by
    rw [collectBxData]
    exact collectItems_keeps hcomplete out items h
  | _, .null, h => h
  | _, .bool _, h => h
  | _, .number _, h => h
  | _, .string _, h => h

theorem collectFields_keeps (hcomplete : ∀ out entries, P out → P (SortedMap.complete out entries)) :
    ∀ (out : List (String × String)) (fields : List (String × Json ν)),
      P out → P (collectFields out fields)
  | _, [], h => h
  | out, (_, v) :: fields, h =>
    collectFields_keeps hcomplete _ fields (collectBxData_keeps hcomplete out v h)

theorem collectItems_keeps (hcomplete : ∀ out entries, P out → P (SortedMap.complete out entries)) :
    ∀ (out : List (String × String)) (items : List (Json ν)),
      P out → P (collectItems out items)
  | _, [], h => h
  | out, v :: items, h =>
    collectItems_keeps hcomplete _ items (collectBxData_keeps hcomplete out v h)

end

variable (hcomplete : ∀ out entries, P out → P (SortedMap.complete out entries))

include hcomplete

variable (answers : ℕ → String → Except String (Json ν))

theorem ask_keeps (round : ℕ) (params : List String) :
    ∀ a : Asked, P a.bx → P (params.foldl (ask answers round) a).bx := by
  induction params with
  | nil => exact fun _ h => h
  | cons param params ih =>
    intro a h
    refine ih _ ?_
    unfold ask
    split
    · exact collectBxData_keeps hcomplete _ _ h
    · exact h

theorem askRounds_keeps : ∀ (remaining round : ℕ) (a : Asked),
    P a.bx → P (askRounds answers remaining round a).bx
  | 0, _, _, h => h
  | remaining + 1, round, a, h => by
    have hnext := ask_keeps hcomplete answers round moduleParams a h
    rw [askRounds]
    dsimp only
    split_ifs
    · exact hnext
    · exact askRounds_keeps remaining (round + 1) _ hnext

theorem askEndpoint_keeps (d : Discovered) (h : P d.bxData) : P (askEndpoint d answers).bx := by
  unfold askEndpoint
  dsimp only
  split
  · exact h
  · split_ifs
    · exact h
    · exact h
    · exact askRounds_keeps hcomplete answers maxRounds 0 _ h

end Collecting

section Resolving

variable {ν : Type} (d : Discovered) (answers : ℕ → String → Except String (Json ν))

theorem sorted_askEndpoint : SortedMap.Sorted (askEndpoint d answers).bx :=
  askEndpoint_keeps (P := SortedMap.Sorted) (fun _ entries h => SortedMap.sorted_complete h entries)
    answers d d.sorted

/-- A handle of the page keeps its URL. -/
theorem get_askEndpoint {id url : String} (h : SortedMap.get d.bxData id = some url) :
    SortedMap.get (askEndpoint d answers).bx id = some url := by
  refine askEndpoint_keeps (P := fun out => SortedMap.get out id = some url) ?_ answers d h
  intro out entries hget
  rw [SortedMap.get_complete, hget, Option.some_or]

theorem get_byId (id url : String) : SortedMap.get (resolveWasm d answers).byId id = some url ↔
    SortedMap.get (askEndpoint d answers).bx id = some url ∧ isWasmPayload url = true := by
  rw [show (resolveWasm d answers).byId =
      (askEndpoint d answers).bx.filter fun p => isWasmPayload p.2 from rfl,
    SortedMap.get_filter (sorted_askEndpoint d answers), Option.filter_eq_some_iff]

theorem sorted_byId : SortedMap.Sorted (resolveWasm d answers).byId :=
  (sorted_askEndpoint d answers).filter _

theorem not_mem_observedIds_iff (id : String) : id ∉ (resolveWasm d answers).observedIds ↔
    SortedMap.get (askEndpoint d answers).bx id = none :=
  (SortedMap.get_eq_none_iff _ id).symm

end Resolving

/-- The handle of a URL has that URL. -/
theorem get_invert {byId : List (String × String)} (hsorted : SortedMap.Sorted byId)
    {url id : String} (h : SortedMap.get (invert byId) url = some id) :
    SortedMap.get byId id = some url := by
  rw [invert, SortedMap.get_complete, SortedMap.get_nil, Option.none_or] at h
  obtain ⟨⟨id', url'⟩, hmem, heq⟩ := List.mem_map.mp (SortedMap.mem_of_get h)
  cases heq
  exact SortedMap.get_of_mem hsorted hmem

end Whatspec.Fetch

import Whatspec.Fetch.Bootloader

/-!
# A resolution, request by request

`resolveWasmWith` is a resolution under any bounds.  Its run is read as the states after each request
and each round.

* `runStates_grow`: what is bound stays bound, to the same URL;
* `askRounds_spec`: two requests in each round, a bounded number of rounds, and a message for each
  request that failed;
* `learning_roundEnds`: every round but the last learns something;
* **`resolution_laws_iff`**: what a resolution keeps to, exactly when the page lists no other payload
  of the CDN among its wasm URLs.
-/

namespace Whatspec.Fetch

open Whatspec.Library

/-! ### Resolution under any bounds -/

structure WasmResolveOptions where
  /-- Rounds of requests, at most. -/
  maxRounds : ℕ
  /-- Components named in one request, at most. -/
  maxComponents : ℕ

/-- The components that are asked for. -/
def components (opts : WasmResolveOptions) (d : Discovered) : List String :=
  d.deferredComponents.take opts.maxComponents

def cappedAt (opts : WasmResolveOptions) (d : Discovered) : String :=
  "component list capped at " ++ toString (components opts d).length ++ " of " ++
    toString d.deferredComponents.length ++
    " deferred components — raise max_components for full coverage"

def noParameters : String :=
  "page did not ship the bootloader endpoint parameters (SiteData / " ++
    "BootloaderEndpointConfig) — only page-inlined handles are resolvable"

def refusedEndpoint (endpoint : String) : String :=
  "refusing the bootloader endpoint " ++ endpoint ++ ": not an https WhatsApp host"

def nothingDeferred : String :=
  "page deferred no server-fetchable components — nothing to ask the bootloader " ++
    "endpoint (expected ~150; suspect a page-payload shape change)"

def failedRequest (param : String) (round : ℕ) (why : String) : String :=
  param ++ " round " ++ toString round ++ ": " ++ why

/-- A capped request set means an incomplete answer. -/
def cutFailures (opts : WasmResolveOptions) (d : Discovered) : List String :=
  if (components opts d).length < d.deferredComponents.length then [cappedAt opts d] else []

/-- Why the endpoint is not asked at all. -/
def refusal (opts : WasmResolveOptions) (d : Discovered) : Option String :=
  match d.bootloader with
  | none => some noParameters
  | some endpoint =>
    if !endpointIsTrusted endpoint.toList then some (refusedEndpoint endpoint)
    else if (components opts d).isEmpty then some nothingDeferred
    else none

/-- Before any request. -/
def startOf (opts : WasmResolveOptions) (d : Discovered) : Asked :=
  ⟨d.bxData, 0, 0, cutFailures opts d, 0⟩

section Resolve

variable {ν : Type}

/-- The page's handles and those of the endpoint's answers. -/
def askEndpointWith (opts : WasmResolveOptions) (d : Discovered)
    (answers : ℕ → String → Except String (Json ν)) : Asked :=
  match refusal opts d with
  | some why =>
    { startOf opts d with failures := (startOf opts d).failures ++ [why] }
  | none => askRounds answers opts.maxRounds 0 (startOf opts d)

/-- Resolve every wasm handle that the page and the endpoint tell. -/
def resolveWasmWith (opts : WasmResolveOptions) (d : Discovered)
    (answers : ℕ → String → Except String (Json ν)) : WasmResolution :=
  let asked := askEndpointWith opts d answers
  let byId := asked.bx.filter fun p => isWasmPayload p.2
  { byId
    observedIds := asked.bx.map Prod.fst
    urls := SortedSet.collect (byId.map Prod.snd ++ d.wasm.filter fun u => isCdnPayload u.toList)
    fromPage := (d.bxData.filter fun p => isWasmUrl p.2).length
    rounds := asked.rounds
    requests := asked.requests
    failures := asked.failures
    failedRequests := asked.failedRequests }

/-! ### The states of a run -/

variable (answers : ℕ → String → Except String (Json ν))

/-- The states after each request of a round. -/
def askStates (round : ℕ) : List String → Asked → List Asked
  | [], _ => []
  | param :: params, a =>
    ask answers round a param :: askStates round params (ask answers round a param)

/-- The state at the end of a round. -/
def endOfRound (round : ℕ) (a : Asked) : Asked :=
  let asked := moduleParams.foldl (ask answers round) a
  { asked with rounds := asked.rounds + 1 }

/-- The states after each request and each round. -/
def roundStates : ℕ → ℕ → Asked → List Asked
  | 0, _, _ => []
  | remaining + 1, round, a =>
    askStates answers round moduleParams a ++ endOfRound answers round a ::
      if (endOfRound answers round a).bx.length = a.bx.length then []
      else roundStates remaining (round + 1) (endOfRound answers round a)

/-- The states before the first round and at the end of each. -/
def roundEnds : ℕ → ℕ → Asked → List Asked
  | 0, _, a => [a]
  | remaining + 1, round, a =>
    a :: if (endOfRound answers round a).bx.length = a.bx.length then [endOfRound answers round a]
      else roundEnds remaining (round + 1) (endOfRound answers round a)

/-- All states of a resolution. -/
def runStates (opts : WasmResolveOptions) (d : Discovered) : List Asked :=
  startOf opts d ::
    if (refusal opts d).isSome then [] else roundStates answers opts.maxRounds 0 (startOf opts d)

theorem askRounds_succ (remaining round : ℕ) (a : Asked) :
    askRounds answers (remaining + 1) round a =
      if (endOfRound answers round a).bx.length = a.bx.length then endOfRound answers round a
      else askRounds answers remaining (round + 1) (endOfRound answers round a) := rfl

/-! ### What is bound stays bound -/

/-- Every handle that is bound keeps its URL. -/
def Keeps (a b : Asked) : Prop :=
  ∀ id url, SortedMap.get a.bx id = some url → SortedMap.get b.bx id = some url

theorem Keeps.trans {a b c : Asked} (h : Keeps a b) (h' : Keeps b c) : Keeps a c :=
  fun id url hget => h' id url (h id url hget)

theorem keeps_ask (round : ℕ) (a : Asked) (param : String) :
    Keeps a (ask answers round a param) := by
  intro id url hget
  refine ask_keeps (P := fun out => SortedMap.get out id = some url) ?_ answers round [param] a hget
  intro out entries h
  rw [SortedMap.get_complete, h, Option.some_or]

theorem grow_askStates (round : ℕ) (params : List String) (a : Asked) :
    (a :: askStates answers round params a).Pairwise Keeps ∧
      ∀ b ∈ a :: askStates answers round params a,
        Keeps b (params.foldl (ask answers round) a) := by
  induction params generalizing a with
  | nil =>
    refine ⟨List.pairwise_singleton _ _, fun b hb => ?_⟩
    rw [List.mem_singleton.mp hb]
    exact fun _ _ h => h
  | cons param params ih =>
    obtain ⟨hpairs, hlast⟩ := ih (ask answers round a param)
    have hfirst := keeps_ask answers round a param
    rw [askStates]
    refine ⟨List.pairwise_cons.mpr ⟨fun b hb => ?_, hpairs⟩, fun b hb => ?_⟩
    · obtain rfl | hb' := List.mem_cons.mp hb
      · exact hfirst
      · exact hfirst.trans ((List.pairwise_cons.mp hpairs).1 b hb')
    · obtain rfl | hb := List.mem_cons.mp hb
      · exact hfirst.trans (hlast _ List.mem_cons_self)
      · exact hlast b hb

theorem grow_roundStates (remaining round : ℕ) (a : Asked) :
    (a :: roundStates answers remaining round a).Pairwise Keeps ∧
      ∀ b ∈ a :: roundStates answers remaining round a,
        Keeps b (askRounds answers remaining round a) := by
  induction remaining generalizing round a with
  | zero =>
    refine ⟨List.pairwise_singleton _ _, fun b hb => ?_⟩
    rw [List.mem_singleton.mp hb]
    exact fun _ _ h => h
  | succ remaining ih =>
    obtain ⟨hround, hend⟩ := grow_askStates answers round moduleParams a
    rw [askRounds_succ, roundStates, ← List.cons_append]
    split
    · refine ⟨List.pairwise_append.mpr ⟨hround, List.pairwise_singleton _ _, fun b hb c hc => ?_⟩,
        fun b hb => ?_⟩
      · rw [List.mem_singleton.mp hc]
        exact hend b hb
      · obtain hb | hb := List.mem_append.mp hb
        · exact hend b hb
        · rw [List.mem_singleton.mp hb]
          exact fun _ _ h => h
    · obtain ⟨hrest, hlast⟩ := ih (round + 1) (endOfRound answers round a)
      refine ⟨List.pairwise_append.mpr ⟨hround, hrest, fun b hb c hc => ?_⟩, fun b hb => ?_⟩
      · have hb' : Keeps b (endOfRound answers round a) := hend b hb
        obtain rfl | hc' := List.mem_cons.mp hc
        · exact hb'
        · exact hb'.trans ((List.pairwise_cons.mp hrest).1 c hc')
      · obtain hb | hb := List.mem_append.mp hb
        · have hb' : Keeps b (endOfRound answers round a) := hend b hb
          exact hb'.trans (hlast _ List.mem_cons_self)
        · exact hlast b hb

/-- **What is bound stays bound**, through every state of a resolution and to its end. -/
theorem runStates_grow (opts : WasmResolveOptions) (d : Discovered) :
    (runStates answers opts d).Pairwise Keeps ∧
      ∀ b ∈ runStates answers opts d, Keeps b (askEndpointWith opts d answers) := by
  rw [runStates, askEndpointWith]
  cases refusal opts d with
  | none => exact grow_roundStates answers opts.maxRounds 0 (startOf opts d)
  | some why =>
    refine ⟨List.pairwise_singleton _ _, fun b hb => ?_⟩
    rw [List.mem_singleton.mp hb]
    exact fun _ _ h => h

/-! ### Requests, rounds and failures -/

/-- The message about a request that failed. -/
def failureOf (round : ℕ) (param : String) : Option String :=
  match answers round param with
  | .ok _ => none
  | .error why => some (failedRequest param round why)

/-- The messages of some rounds. -/
def failuresOf (round count : ℕ) : List String :=
  (List.range' round count).flatMap fun r => moduleParams.filterMap (failureOf answers r)

theorem ask_spec (round : ℕ) (params : List String) (a : Asked) :
    (params.foldl (ask answers round) a).rounds = a.rounds ∧
      (params.foldl (ask answers round) a).requests = a.requests + params.length ∧
      (params.foldl (ask answers round) a).failures =
        a.failures ++ params.filterMap (failureOf answers round) ∧
      (params.foldl (ask answers round) a).failedRequests =
        a.failedRequests + (params.filterMap (failureOf answers round)).length := by
  induction params generalizing a with
  | nil => simp
  | cons param params ih =>
    obtain ⟨hrounds, hrequests, hfailures, hfailed⟩ := ih (ask answers round a param)
    rw [List.foldl_cons, hrounds, hrequests, hfailures, hfailed, List.filterMap_cons, failureOf, ask]
    cases answers round param with
    | ok payload => exact ⟨rfl, by simp only [List.length_cons]; omega, rfl, rfl⟩
    | error why =>
      refine ⟨rfl, by simp only [List.length_cons]; omega, ?_, ?_⟩
      · rw [List.append_assoc]
        rfl
      · simp only [List.length_cons]
        omega

/-- Two requests in each round, no more rounds than allowed, and a message for each request that
failed. -/
theorem askRounds_spec (remaining round : ℕ) (a : Asked) :
    ∃ count ≤ remaining, (askRounds answers remaining round a).rounds = a.rounds + count ∧
      (askRounds answers remaining round a).requests = a.requests + 2 * count ∧
      (askRounds answers remaining round a).failures =
        a.failures ++ failuresOf answers round count ∧
      (askRounds answers remaining round a).failedRequests =
        a.failedRequests + (failuresOf answers round count).length := by
  induction remaining generalizing round a with
  | zero => exact ⟨0, le_rfl, rfl, rfl, (List.append_nil _).symm, rfl⟩
  | succ remaining ih =>
    obtain ⟨hrounds, hrequests, hfailures, hfailed⟩ := ask_spec answers round moduleParams a
    have hend : (endOfRound answers round a).rounds = a.rounds + 1 ∧
        (endOfRound answers round a).requests = a.requests + 2 ∧
        (endOfRound answers round a).failures = a.failures ++ failuresOf answers round 1 ∧
        (endOfRound answers round a).failedRequests =
          a.failedRequests + (failuresOf answers round 1).length := by
      refine ⟨congrArg Nat.succ hrounds, hrequests, ?_, ?_⟩
      · rw [failuresOf, List.range'_one, List.flatMap_singleton]
        exact hfailures
      · rw [failuresOf, List.range'_one, List.flatMap_singleton]
        exact hfailed
    rw [askRounds_succ]
    split
    · exact ⟨1, by omega, hend⟩
    · obtain ⟨count, hcount, hrounds', hrequests', hfailures', hfailed'⟩ :=
        ih (round + 1) (endOfRound answers round a)
      have hsplit : failuresOf answers round (count + 1) =
          failuresOf answers round 1 ++ failuresOf answers (round + 1) count := by
        rw [failuresOf, failuresOf, failuresOf, List.range'_succ, List.range'_one,
          List.flatMap_cons, List.flatMap_singleton]
      refine ⟨count + 1, by omega, ?_, ?_, ?_, ?_⟩
      · rw [hrounds', hend.1]
        omega
      · rw [hrequests', hend.2.1]
        omega
      · rw [hfailures', hend.2.2.1, hsplit, List.append_assoc]
      · rw [hfailed', hend.2.2.2, hsplit, List.length_append]
        omega

/-- Every round but the last learns something; the last leaves what is returned. -/
theorem learning_roundEnds (remaining round : ℕ) (a : Asked) :
    (∃ rest, roundEnds answers remaining round a = a :: rest) ∧
      (roundEnds answers remaining round a).getLast? =
        some (askRounds answers remaining round a) ∧
      (roundEnds answers remaining round a).length + a.rounds =
        (askRounds answers remaining round a).rounds + 1 ∧
      (roundEnds answers remaining round a).dropLast.IsChain (fun b c => b.bx ≠ c.bx) := by
  induction remaining generalizing round a with
  | zero => exact ⟨⟨[], rfl⟩, rfl, Nat.add_comm .., .nil⟩
  | succ remaining ih =>
    have hrounds : (endOfRound answers round a).rounds = a.rounds + 1 :=
      congrArg Nat.succ (ask_spec answers round moduleParams a).1
    rw [roundEnds, askRounds_succ]
    refine ⟨⟨_, rfl⟩, ?_⟩
    split
    · refine ⟨rfl, ?_, .singleton _⟩
      rw [hrounds, List.length_cons, List.length_singleton]
      omega
    · next hlearned =>
      obtain ⟨⟨rest, hrest⟩, hlast, hlength, hchain⟩ := ih (round + 1) (endOfRound answers round a)
      refine ⟨?_, ?_, ?_⟩
      · rw [List.getLast?_cons, hlast]
        rfl
      · rw [List.length_cons]
        omega
      · rw [hrest] at hchain ⊢
        cases rest with
        | nil => exact .singleton _
        | cons b rest =>
          rw [List.dropLast_cons_of_ne_nil (List.cons_ne_nil _ _),
            List.dropLast_cons_of_ne_nil (List.cons_ne_nil _ _), List.isChain_cons_cons]
          rw [List.dropLast_cons_of_ne_nil (List.cons_ne_nil _ _)] at hchain
          exact ⟨fun heq => hlearned (congrArg List.length heq.symm), hchain⟩

/-! ### What a resolution keeps to -/

variable (opts : WasmResolveOptions) (d : Discovered)

/-- Every shortfall has its message. -/
structure Reported (r : WasmResolution) : Prop where
  capped : (components opts d).length < d.deferredComponents.length → cappedAt opts d ∈ r.failures
  parameters : d.bootloader = none → noParameters ∈ r.failures
  endpoint : ∀ uri, d.bootloader = some uri → endpointIsTrusted uri.toList = false →
    refusedEndpoint uri ∈ r.failures
  deferred : ∀ uri, d.bootloader = some uri → endpointIsTrusted uri.toList = true →
    components opts d = [] → nothingDeferred ∈ r.failures
  failed : ∀ round < r.rounds, ∀ param ∈ moduleParams, ∀ why,
    answers round param = .error why → failedRequest param round why ∈ r.failures

/-- What a resolution keeps to. -/
structure Lawful : Prop where
  /-- What is bound stays bound, from each state to every later one and to the end. -/
  grows : (runStates answers opts d).Pairwise Keeps
  final : ∀ a ∈ runStates answers opts d, Keeps a (askEndpointWith opts d answers)
  /-- The page's bindings stand. -/
  page : ∀ id url, SortedMap.get d.bxData id = some url →
    SortedMap.get (askEndpointWith opts d answers).bx id = some url
  /-- The handles that are returned are those bound to a payload. -/
  bound : ∀ id url, SortedMap.get (resolveWasmWith opts d answers).byId id = some url ↔
    SortedMap.get (askEndpointWith opts d answers).bx id = some url ∧ isWasmPayload url = true
  observed : ∀ id ∈ (resolveWasmWith opts d answers).byId.map Prod.fst,
    id ∈ (resolveWasmWith opts d answers).observedIds
  distinct : (resolveWasmWith opts d answers).urls.Nodup
  payloads : ∀ url ∈ (resolveWasmWith opts d answers).urls, isWasmPayload url = true
  rounds : (resolveWasmWith opts d answers).rounds ≤ opts.maxRounds
  requests : (resolveWasmWith opts d answers).requests =
    2 * (resolveWasmWith opts d answers).rounds
  /-- Every round but the last learns something. -/
  stops : refusal opts d = none →
    (roundEnds answers opts.maxRounds 0 (startOf opts d)).getLast? =
        some (askEndpointWith opts d answers) ∧
      (roundEnds answers opts.maxRounds 0 (startOf opts d)).length =
        (resolveWasmWith opts d answers).rounds + 1 ∧
      (roundEnds answers opts.maxRounds 0 (startOf opts d)).dropLast.IsChain
        fun b c => b.bx ≠ c.bx
  reported : Reported answers opts d (resolveWasmWith opts d answers)

theorem startOf_mem : startOf opts d ∈ runStates answers opts d := by
  rw [runStates]
  exact List.mem_cons_self

theorem sorted_askEndpointWith : SortedMap.Sorted (askEndpointWith opts d answers).bx := by
  rw [askEndpointWith]
  cases refusal opts d with
  | none =>
    exact askRounds_keeps (P := SortedMap.Sorted)
      (fun _ entries h => SortedMap.sorted_complete h entries) answers opts.maxRounds 0
      (startOf opts d) d.sorted
  | some why => exact d.sorted

theorem reported_resolveWasmWith :
    Reported answers opts d (resolveWasmWith opts d answers) := by
  have hcut : (components opts d).length < d.deferredComponents.length →
      cappedAt opts d ∈ (startOf opts d).failures := fun h => by
    rw [startOf, cutFailures, if_pos h]
    exact List.mem_cons_self
  have hrefused : ∀ why, refusal opts d = some why →
      why ∈ (resolveWasmWith opts d answers).failures := fun why h => by
    rw [resolveWasmWith, askEndpointWith, h]
    exact List.mem_append_right _ List.mem_cons_self
  refine ⟨fun h => ?_, fun h => hrefused _ ?_, fun uri huri h => hrefused _ ?_,
    fun uri huri htrusted h => hrefused _ ?_, ?_⟩
  · rw [resolveWasmWith, askEndpointWith]
    cases refusal opts d with
    | some why => exact List.mem_append_left _ (hcut h)
    | none =>
      obtain ⟨_, _, _, _, hfailures, _⟩ :=
        askRounds_spec answers opts.maxRounds 0 (startOf opts d)
      exact hfailures ▸ List.mem_append_left _ (hcut h)
  · rw [refusal, h]
  · rw [refusal, huri]
    simp [h]
  · rw [refusal, huri]
    simp [htrusted, h]
  · intro round hround param hparam why hwhy
    rw [resolveWasmWith, askEndpointWith] at hround ⊢
    cases hrefusal : refusal opts d with
    | some why' =>
      rw [hrefusal] at hround
      exact absurd hround (Nat.not_lt_zero round)
    | none =>
      rw [hrefusal] at hround
      obtain ⟨count, -, hrounds, -, hfailures, -⟩ :=
        askRounds_spec answers opts.maxRounds 0 (startOf opts d)
      have hlt : round < count := by
        change round < (askRounds answers opts.maxRounds 0 (startOf opts d)).rounds at hround
        rw [hrounds] at hround
        simpa [startOf] using hround
      have hmessage : failureOf answers round param = some (failedRequest param round why) := by
        rw [failureOf, hwhy]
      refine hfailures ▸ List.mem_append_right _ ?_
      exact List.mem_flatMap.mpr ⟨round, List.mem_range'_1.mpr ⟨Nat.zero_le _, by omega⟩,
        List.mem_filterMap.mpr ⟨param, hparam, hmessage⟩⟩

theorem mem_urls {url : String} : url ∈ (resolveWasmWith opts d answers).urls ↔
    (∃ id, (id, url) ∈ (askEndpointWith opts d answers).bx ∧ isWasmPayload url = true) ∨
      (url ∈ d.wasm ∧ isCdnPayload url.toList = true) := by
  rw [resolveWasmWith]
  simp only [SortedSet.mem_collect, List.mem_append, List.mem_map, List.mem_filter, Prod.exists]
  refine or_congr_left ⟨?_, ?_⟩
  · rintro ⟨id, url', ⟨hmem, hpayload⟩, rfl⟩
    exact ⟨id, hmem, hpayload⟩
  · rintro ⟨id, hmem, hpayload⟩
    exact ⟨id, url, ⟨hmem, hpayload⟩, rfl⟩

/-- **A resolution keeps to its laws** exactly when every URL of the CDN that the page lists as wasm
is one. -/
theorem resolution_laws_iff :
    Lawful answers opts d ↔
      ∀ url ∈ d.wasm, isCdnPayload url.toList = true → isWasmUrl url = true := by
  constructor
  · intro h url hurl hcdn
    have hpayload := h.payloads url ((mem_urls answers opts d).mpr (.inr ⟨hurl, hcdn⟩))
    rw [isWasmPayload, Bool.and_eq_true] at hpayload
    exact hpayload.1
  · intro h
    have hgrow := runStates_grow answers opts d
    have hsorted := sorted_askEndpointWith answers opts d
    have hrounds : (resolveWasmWith opts d answers).rounds ≤ opts.maxRounds ∧
        (resolveWasmWith opts d answers).requests =
          2 * (resolveWasmWith opts d answers).rounds := by
      rw [resolveWasmWith, askEndpointWith]
      cases refusal opts d with
      | some why => exact ⟨Nat.zero_le _, rfl⟩
      | none =>
        obtain ⟨count, hcount, hrounds, hrequests, -⟩ :=
          askRounds_spec answers opts.maxRounds 0 (startOf opts d)
        have hstart : (startOf opts d).rounds = 0 ∧ (startOf opts d).requests = 0 := ⟨rfl, rfl⟩
        dsimp only
        omega
    refine ⟨hgrow.1, hgrow.2, fun id url hget => ?_, fun id url => ?_, fun id hid => ?_, ?_,
      fun url hurl => ?_, hrounds.1, hrounds.2, fun hrefusal => ?_,
      reported_resolveWasmWith answers opts d⟩
    · exact hgrow.2 _ (startOf_mem answers opts d) id url hget
    · rw [show (resolveWasmWith opts d answers).byId =
          (askEndpointWith opts d answers).bx.filter fun p => isWasmPayload p.2 from rfl,
        SortedMap.get_filter hsorted, Option.filter_eq_some_iff]
    · obtain ⟨e, he, rfl⟩ := List.mem_map.mp hid
      exact List.mem_map_of_mem (List.mem_filter.mp he).1
    · exact (SortedSet.sorted_collect _).nodup
    · obtain ⟨id, -, hpayload⟩ | ⟨hurl, hcdn⟩ := (mem_urls answers opts d).mp hurl
      · exact hpayload
      · rw [isWasmPayload, h url hurl hcdn, hcdn]
        rfl
    · have hends := learning_roundEnds answers opts.maxRounds 0 (startOf opts d)
      have hasked : askEndpointWith opts d answers =
          askRounds answers opts.maxRounds 0 (startOf opts d) := by
        rw [askEndpointWith, hrefusal]
      rw [hasked, show (resolveWasmWith opts d answers).rounds =
        (askEndpointWith opts d answers).rounds from rfl, hasked]
      exact ⟨hends.2.1, hends.2.2.1, hends.2.2.2⟩

end Resolve

/-- A page with one script, whose query ends like a wasm payload. -/
def scriptPage : Discovered where
  waVersion := none
  wasm := ["https://static.whatsapp.net/x?f=.wasm"]
  bxData := []
  sorted := List.Pairwise.nil
  bootloader := none
  deferredComponents := []

/-- Without a request, the script of the page is returned as a wasm URL. -/
theorem not_lawful_scriptPage :
    ¬ Lawful (ν := ℕ) (fun _ _ => .error "") ⟨maxRounds, maxComponents⟩ scriptPage := by
  intro h
  have hpayload := h.payloads "https://static.whatsapp.net/x?f=.wasm"
    ((mem_urls _ _ _).mpr (.inr ⟨List.mem_cons_self, by decide⟩))
  exact absurd hpayload (by decide)

end Whatspec.Fetch

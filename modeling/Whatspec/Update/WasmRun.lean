import Whatspec.Fetch.Bootloader
import Whatspec.Fetch.Cache
import Whatspec.Fetch.Download
import Whatspec.Library.FreshNames
import Whatspec.Store.Restore

/-!
# An update run and the wasm lock

`loadWasm` is the wasm half of an update: it resolves the handles, takes the payloads from the
cache and the network, and says which handle each has.  `lockWritten` is the lock the run puts in
place, merged with the handles of the lock that was there.

A cache is its manifest here; what the payloads in it verify to is given to the run.
-/

namespace Whatspec.Update

open Whatspec.Library Whatspec.Text Whatspec.Fetch Whatspec.Store

variable (rt : Runtime)

/-! ### The lock -/

/-- The bootloader section of a wasm lock. -/
structure BootloaderPins where
  handlesFromPage : ℕ
  /-- The URL of each handle. -/
  wasmHandles : List (String × String)
  requests : ℕ
  failedRequests : ℕ
  degradations : ℕ
  deriving DecidableEq

/-- A wasm lock with its bootloader section. -/
structure PinnedLock where
  lock : WasmLock
  bootloader : Option BootloaderPins
  deriving DecidableEq

/-- The handles that a lock records. -/
def PinnedLock.handles (l : PinnedLock) : List (String × String) :=
  match l.bootloader with
  | some pins => pins.wasmHandles
  | none => []

def entryLe (a b : WasmLockEntry) : Prop := a.sha256 < b.sha256 ∨ a.sha256 = b.sha256 ∧ a.url ≤ b.url

instance : DecidableRel entryLe := fun _ _ => inferInstanceAs (Decidable (_ ∨ _ ∧ _))

def withBootloader (waVersion : String) (wasm : List WasmLockEntry)
    (bootloader : Option BootloaderPins) : PinnedLock :=
  let sorted := wasm.insertionSort entryLe
  ⟨⟨waVersion, setHash rt.digest (sorted.map WasmLockEntry.asBundleId), sorted.length, sorted⟩,
    bootloader⟩

/-! ### File names -/

def maxName : ℕ := 128

/-- The longest beginning of a text that fits, without splitting a character. -/
def truncateOnCharBoundary (maxBytes : ℕ) : List Char → List Char
  | [] => []
  | c :: cs =>
    if c.utf8Size ≤ maxBytes then c :: truncateOnCharBoundary (maxBytes - c.utf8Size) cs else []

/-- A reversed text without the extensions it starts with. -/
def dropWasm : List Char → List Char
  | 'm' :: 's' :: 'a' :: 'w' :: '.' :: cs => dropWasm cs
  | cs => cs

/-- The name a payload would have on its own. -/
def baseName (url : String) : String :=
  let preferred := bundleFileName url
  if preferred ≠ "" ∧ (utf8 preferred).length ≤ maxName ∧
      ".wasm".toList.isSuffixOf preferred.toList ∧ fileName preferred = some preferred then
    preferred
  else String.ofList ((sha256Hex rt.digest (utf8 url)).toList.take 16) ++ ".wasm"

/-- The names that are tried when the name of a payload is taken. -/
def attemptName (url : String) (attempt : ℕ) : String :=
  let stem := truncateOnCharBoundary (maxName - 32)
    (dropWasm (baseName rt url).toList.reverse).reverse
  String.ofList stem ++ "-" ++ String.ofList ((sha256Hex rt.digest (utf8 url)).toList.take 8) ++ "-"
    ++ toString attempt ++ ".wasm"

/-- Give every payload a file name of its own, given the names that are taken. -/
def nameFrom (taken : List String) : List Bundle → List Bundle
  | [] => []
  | b :: rest =>
    let base := baseName rt b.url
    let name := if base ∈ taken then firstFree taken (attemptName rt b.url) else base
    { b with fileName := name } :: nameFrom (name :: taken) rest

def withLockSafeFileNames (payloads : List Bundle) : List Bundle := nameFrom rt [] payloads

/-! ### One run -/

/-- What an update run is given. -/
structure FetchRun (ν : Type) where
  /-- `--wasm`. -/
  wasm : Bool
  /-- The version that the run stamps. -/
  waVersion : String
  discovered : Discovered
  answers : ℕ → String → Except String (Json ν)
  /-- The payloads of the cache that verify, when the run has a cache. -/
  cache : Option (List Bundle)
  /-- What a download yields, when it does not fail. -/
  download : String → Option Bytes
  /-- The store to the cache reaches its commit. -/
  commits : Bool

variable {ν : Type}

namespace FetchRun

variable (run : FetchRun ν)

def resolution : WasmResolution := resolveWasm run.discovered run.answers

/-- The version that keys the cache, when there is a cache. -/
def cacheVersion : Option String :=
  match run.cache with
  | some _ => run.discovered.waVersion
  | none => none

def cachedPayloads : List Bundle :=
  match run.cacheVersion with
  | some _ => run.cache.getD []
  | none => []

end FetchRun

/-- The handles that the cache has for the version of a run. -/
def cachedHandles (manifest : Option CacheManifest) (run : FetchRun ν) : List (String × String) :=
  match run.cacheVersion, manifest with
  | some v, some m => if m.waVersion = v then m.wasmHandles else []
  | _, _ => []

def wasmMagic : Bytes := [0x00, 0x61, 0x73, 0x6d]

/-- The bytes are a wasm module. -/
def keep (b : Bundle) : Bool := wasmMagic.isPrefixOf b.bytes

def byUrl (bundles : List Bundle) : List (String × Bundle) := bundles.map fun b => (b.url, b)

/-- The payloads that a run downloads. -/
def downloaded (run : FetchRun ν) : List Bundle :=
  let cached := SortedMap.collect (byUrl run.cachedPayloads)
  let toDownload := run.resolution.urls.filter fun url => (SortedMap.get cached url).isNone
  (toDownload.filterMap fun url =>
    (run.download url).map fun bytes => ⟨url, bundleFileName url, bytes⟩).filter keep

/-- The payloads that a run takes from the cache. -/
def reused (run : FetchRun ν) : List Bundle :=
  ((SortedMap.collect (byUrl run.cachedPayloads)).map Prod.snd).filter keep

/-- The payloads of a run, by URL. -/
def merged (run : FetchRun ν) : List (String × Bundle) :=
  SortedMap.extend (SortedMap.collect (byUrl (reused run))) (byUrl (downloaded run))

def payloads (run : FetchRun ν) : List Bundle :=
  withLockSafeFileNames rt ((merged run).map Prod.snd)

/-- Remove the URLs whose handle the live response has bound to another URL, or to none. -/
def dropStaleAliases (handles liveById : List (String × String)) (observed : List String) :
    List (String × String) :=
  handles.filter fun p =>
    match SortedMap.get liveById p.2 with
    | some liveUrl => liveUrl = p.1
    | none => p.2 ∉ observed

/-- The handle of each URL: of the page, of the cache and of the response. -/
def handles (manifest : Option CacheManifest) (run : FetchRun ν) : List (String × String) :=
  let ofPage := invert run.discovered.bxData
  let withCache := SortedMap.extend ofPage (cachedHandles manifest run)
  dropStaleAliases (SortedMap.extend withCache run.resolution.handleByUrl) run.resolution.byId
    run.resolution.observedIds

/-- The URL of each handle: of the page, of the response and, for a handle that was not seen, of
the cache. -/
def ids (manifest : Option CacheManifest) (run : FetchRun ν) : List (String × String) :=
  let live := SortedMap.extend run.discovered.bxData run.resolution.byId
  let unseen := (cachedHandles manifest run).filter fun p => p.2 ∉ run.resolution.observedIds
  SortedMap.complete live (unseen.map Prod.swap)

def bootloaderPins (resolution : WasmResolution) (ids : List (String × String)) :
    BootloaderPins where
  handlesFromPage := resolution.fromPage
  wasmHandles := ids.filter fun p => isWasmPayload p.2
  requests := resolution.requests
  failedRequests := resolution.failedRequests
  degradations := resolution.failures.length

def pins (manifest : Option CacheManifest) (run : FetchRun ν) : BootloaderPins :=
  bootloaderPins run.resolution (ids manifest run)

def wasmEntries (payloads : List Bundle) (handleByUrl : List (String × String)) :
    List WasmLockEntry :=
  payloads.map fun b =>
    { bxId := SortedMap.get handleByUrl b.url
      fileName := b.fileName
      url := b.url
      sha256 := sha256Hex rt.digest b.bytes
      size := b.bytes.length }

/-! ### What a run leaves -/

/-- Add the handles of a lock that the run neither resolved nor saw. -/
def mergePriorHandles (pins : BootloaderPins) (prior : Option BootloaderPins)
    (seenLive : List String) : BootloaderPins :=
  match prior with
  | none => pins
  | some prior =>
    { pins with
      wasmHandles := SortedMap.complete pins.wasmHandles
        (prior.wasmHandles.filter fun p => p.1 ∉ seenLive) }

/-- The handles of a run merged with those of a lock of its version. -/
def pinsWithPrior (prior : Option PinnedLock) (pins : BootloaderPins) (waVersion : String)
    (seenLive : List String) : BootloaderPins :=
  match prior with
  | none => pins
  | some l =>
    mergePriorHandles pins (if l.lock.waVersion = waVersion then l.bootloader else none) seenLive

/-- Rewrite the bootloader section of a lock, when it is of the version of the run. -/
def updateLockBootloader (prior : Option PinnedLock) (pins : BootloaderPins) (waVersion : String)
    (seenLive : List String) : Option PinnedLock :=
  match prior with
  | none => none
  | some l =>
    if l.lock.waVersion = waVersion then
      some { l with bootloader := some (mergePriorHandles pins l.bootloader seenLive) }
    else none

/-- The cache's manifest and the lock in place. -/
structure UpdateState where
  manifest : Option CacheManifest
  lock : Option PinnedLock

/-- The lock that a run writes; one that found no payloads only rewrites the bootloader section. -/
def lockWritten (s : UpdateState) (run : FetchRun ν) : Option PinnedLock :=
  if run.wasm then
    let found := payloads rt run
    let seenLive := run.resolution.observedIds
    if found = [] then
      updateLockBootloader s.lock (pins s.manifest run) run.waVersion seenLive
    else
      some (withBootloader rt run.waVersion (wasmEntries rt found (handles s.manifest run))
        (some (pinsWithPrior s.lock (pins s.manifest run) run.waVersion seenLive)))
  else none

/-- A manifest after a store of wasm payloads, which is refused for another version. -/
def attached (manifest : Option CacheManifest) (waVersion : String) (wasm : List Bundle)
    (handles : List (String × String)) : Option CacheManifest :=
  manifest.map fun m =>
    if m.complete ∧ m.waVersion = waVersion then storeWasmManifest rt m wasm handles else m

/-- The manifest that a run leaves. -/
def manifestAfter (s : UpdateState) (run : FetchRun ν) : Option CacheManifest :=
  match run.cacheVersion with
  | some v =>
    if run.wasm ∧ payloads rt run ≠ [] ∧ run.commits then
      attached rt s.manifest v (payloads rt run) (handles s.manifest run)
    else s.manifest
  | none => s.manifest

/-- What happens to a cache and a lock. -/
inductive Step (ν : Type) where
  | update (run : FetchRun ν)
  /-- The bundles of a version are stored, which replaces the cache. -/
  | store (waVersion : String) (bundles : List Bundle)
  /-- The payloads of the lock are restored into the cache. -/
  | restore (payloads : List Bundle)
  | clearCache
  | removeLock

def UpdateState.after (s : UpdateState) : Step ν → UpdateState
  | .update run => ⟨manifestAfter rt s run, (lockWritten rt s run).or s.lock⟩
  | .store waVersion bundles => ⟨some (storeManifest rt waVersion bundles), s.lock⟩
  | .restore payloads =>
      match s.lock with
      | some l => ⟨attached rt s.manifest l.lock.waVersion payloads (lockHandles l.lock), s.lock⟩
      | none => s
  | .clearCache => ⟨none, s.lock⟩
  | .removeLock => ⟨s.manifest, none⟩

end Whatspec.Update

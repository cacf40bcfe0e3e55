import Mathlib.Data.List.Sort
import Whatspec.Text

/-!
# The lockfiles

A bundle lock pins the bundles of one release by digest and size, with the URL each came
from when that is known; a wasm lock pins the payloads, each with its file name and URL.
Both carry a fingerprint of the multiset of `sha256:size` lines, and are trusted only when
the fingerprint and the count agree with the entries.  URLs, names and handles are not
part of the fingerprint.
-/

namespace Whatspec.Store

open Whatspec.Text

/-- The content identity of one file. -/
structure BundleId where
  sha256 : String
  size : ℕ
  url : Option String
  deriving DecidableEq

structure LockEntry where
  sha256 : String
  size : ℕ
  url : Option String
  deriving DecidableEq

/-- `bundles.lock.json`. -/
structure BundleLock where
  waVersion : String
  setHash : String
  bundleCount : ℕ
  bundles : List LockEntry
  deriving DecidableEq

structure WasmLockEntry where
  bxId : Option String
  fileName : String
  url : String
  sha256 : String
  size : ℕ
  deriving DecidableEq

/-- `wasm.lock.json`. -/
structure WasmLock where
  waVersion : String
  wasmSetHash : String
  wasmCount : ℕ
  wasm : List WasmLockEntry
  deriving DecidableEq

variable (digest : List UInt8 → List UInt8)

/-- The fingerprint of a set: the hash of its sorted `sha256:size` lines. -/
def setHash (bundles : List BundleId) : String :=
  let lines := bundles.map fun b => b.sha256 ++ ":" ++ toString b.size
  sha256Hex digest (utf8 ("\n".intercalate (lines.insertionSort (· ≤ ·))))

/-- Whether the recorded count and fingerprint agree with the entries. -/
def BundleLock.verifySelfConsistent (lock : BundleLock) : Except String Unit :=
  if lock.bundleCount ≠ lock.bundles.length then
    .error ("bundleCount " ++ toString lock.bundleCount ++ " != " ++
      toString lock.bundles.length ++ " entries")
  else
    let recomputed := Store.setHash digest (lock.bundles.map fun e => ⟨e.sha256, e.size, none⟩)
    if lock.setHash ≠ recomputed then
      .error ("setHash " ++ lock.setHash ++ " does not match the bundle list (recomputed " ++
        recomputed ++ ")")
    else .ok ()

/-- What `setHash` fingerprints of a payload. -/
def WasmLockEntry.asBundleId (e : WasmLockEntry) : BundleId := ⟨e.sha256, e.size, none⟩

def WasmLock.verifySelfConsistent (lock : WasmLock) : Except String Unit :=
  if lock.wasmCount ≠ lock.wasm.length then
    .error ("wasmCount " ++ toString lock.wasmCount ++ " != " ++
      toString lock.wasm.length ++ " entries")
  else
    let recomputed := setHash digest (lock.wasm.map WasmLockEntry.asBundleId)
    if lock.wasmSetHash ≠ recomputed then
      .error ("wasmSetHash " ++ lock.wasmSetHash ++ " does not match the payload list " ++
        "(recomputed " ++ recomputed ++ ")")
    else .ok ()

end Whatspec.Store

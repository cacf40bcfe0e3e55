import Whatspec.Library.Disk
import Whatspec.Library.SortedMap
import Whatspec.Text

/-!
# The version-keyed bundle cache

One directory holds one version: a manifest, the bundle files and the wasm files.  The
reading side (`check`, `wasmPayloads`) is a function of the disk.  The writing side
(`store`, `storeWasm`, `clear`) is a list of file-system steps, in the order the calls
make them, so that an operation cut after any of them is the same list cut.

The digest and the JSON text of a manifest come from outside the repository and are the
fields of `Runtime`; `Runtime.Lawful` is what the cache relies on.
-/

namespace Whatspec.Fetch

open Whatspec.Library Whatspec.Text

/-- A downloaded file. -/
structure Bundle where
  url : String
  fileName : String
  bytes : Bytes
  deriving DecidableEq

/-- One cached file's identity and integrity metadata. -/
structure BundleEntry where
  url : String
  fileName : String
  sha256 : String
  size : ℕ
  deriving DecidableEq

structure CacheManifest where
  waVersion : String
  complete : Bool
  bundles : List BundleEntry
  wasm : List BundleEntry
  wasmHandles : List (String × String)
  deriving DecidableEq

/-- The outcome of probing the cache. -/
inductive CacheStatus where
  | hit (bundles : List Bundle)
  | miss (why : String)
  deriving DecidableEq

/-- The digest and the manifest's JSON text, which the cache takes from its dependencies. -/
structure Runtime where
  digest : Bytes → Bytes
  toStringPretty : CacheManifest → String
  fromStr : String → Option CacheManifest

/-- The digest has no collisions, and a manifest's text parses back to it. -/
structure Runtime.Lawful (rt : Runtime) : Prop where
  digest_injective : Function.Injective rt.digest
  fromStr_toStringPretty : ∀ m, rt.fromStr (rt.toStringPretty m ++ "\n") = some m

/-- The files of a cache directory, by their path under it. -/
inductive CacheFile where
  | manifest
  | manifestTmp
  | bundle (name : String)
  | wasm (name : String)
  deriving DecidableEq

inductive CacheDir where
  | bundles
  | wasm
  deriving DecidableEq

abbrev CacheDisk := Disk CacheFile CacheDir
abbrev CacheStep := DiskStep CacheFile CacheDir

variable (rt : Runtime)

/-- On-disk file name for what was fetched from a URL: the hash of the URL. -/
def cacheFileName (url : String) : String := sha256Hex rt.digest (utf8 url)

/-- The manifest, or nothing when it is absent or does not parse. -/
def readManifest (d : CacheDisk) : Option CacheManifest :=
  (d.file .manifest).bind fun raw => (readUtf8 raw).bind rt.fromStr

/-- The manifest when it is complete and for `remoteVersion`, and otherwise the miss that
says why it cannot be used. -/
def usableManifest (d : CacheDisk) (remoteVersion : String) : Except CacheStatus CacheManifest :=
  match readManifest rt d with
  | none => .error (.miss "no cache manifest")
  | some manifest =>
      if !manifest.complete then .error (.miss "previous download was incomplete")
      else if manifest.waVersion ≠ remoteVersion then
        .error (.miss ("version changed: cached " ++ manifest.waVersion ++ ", remote " ++
          remoteVersion))
      else .ok manifest

/-- One recorded file of a directory, verified by size and digest. -/
def loadOne (d : CacheDisk) (place : String → CacheFile) (entry : BundleEntry) :
    Except String Bundle :=
  match d.file (place (cacheFileName rt entry.url)) with
  | none => .error ("missing cached file " ++ entry.fileName)
  | some bytes =>
      if bytes.length ≠ entry.size then .error ("size mismatch for " ++ entry.fileName)
      else if sha256Hex rt.digest bytes ≠ entry.sha256 then
        .error ("checksum mismatch for " ++ entry.fileName)
      else .ok ⟨entry.url, entry.fileName, bytes⟩

/-- Every recorded file of a directory; any one missing or corrupt makes the set a miss. -/
def loadSet (d : CacheDisk) (place : String → CacheFile) (entries : List BundleEntry) :
    CacheStatus :=
  match entries.mapM (loadOne rt d place) with
  | .ok bundles => .hit bundles
  | .error why => .miss why

/-- Probe the cache for a version. -/
def check (d : CacheDisk) (remoteVersion : String) : CacheStatus :=
  match usableManifest rt d remoteVersion with
  | .error miss => miss
  | .ok manifest => loadSet rt d .bundle manifest.bundles

/-- The cached wasm payloads that verify; unlike `check`, one bad payload does not take the
others with it. -/
def wasmPayloads (d : CacheDisk) (remoteVersion : String) : List Bundle :=
  match usableManifest rt d remoteVersion with
  | .error _ => []
  | .ok manifest => manifest.wasm.filterMap fun entry => (loadOne rt d .wasm entry).toOption

/-- The integrity record of a file that is being stored. -/
def entryOf (b : Bundle) : BundleEntry :=
  ⟨b.url, b.fileName, sha256Hex rt.digest b.bytes, b.bytes.length⟩

/-- Write every file of a set into a directory, created if needed. -/
def writeSetSteps (bundles : List Bundle) (dir : CacheDir) (place : String → CacheFile) :
    List CacheStep :=
  .makeDir dir :: bundles.flatMap fun b => writeFile (place (cacheFileName rt b.url)) b.bytes

/-- Commit a manifest: write it beside its place, then rename it into place. -/
def writeManifestSteps (m : CacheManifest) : List CacheStep :=
  writeFile .manifestTmp (utf8 (rt.toStringPretty m ++ "\n")) ++
    [.rename .manifestTmp .manifest]

/-- Remove a directory with the files a listing of it named. -/
def removeDirAllSteps (d : CacheDisk) (dir : CacheDir) (place : String → CacheFile)
    (names : List String) : List CacheStep :=
  if d.dir dir then names.map (fun n => .removeFile (place n)) ++ [.removeDir dir] else []

/-- Remove the cache, manifest first. -/
def clearSteps (d : CacheDisk) (bundleNames wasmNames : List String) : List CacheStep :=
  (if (d.file .manifest).isSome then [.removeFile .manifest] else []) ++
    removeDirAllSteps d .bundles .bundle bundleNames ++
    removeDirAllSteps d .wasm .wasm wasmNames

/-- The manifest a `store` commits. -/
def storeManifest (waVersion : String) (bundles : List Bundle) : CacheManifest :=
  ⟨waVersion, true, bundles.map (entryOf rt), [], []⟩

/-- Replace the cache contents with `bundles`: clear, write, and commit last. -/
def storeSteps (d : CacheDisk) (bundleNames wasmNames : List String) (waVersion : String)
    (bundles : List Bundle) : List CacheStep :=
  clearSteps d bundleNames wasmNames ++
    writeSetSteps rt bundles .bundles .bundle ++
    writeManifestSteps rt (storeManifest rt waVersion bundles)

/-- The manifest `storeWasm` may attach to, or the message it refuses with. -/
def attachable (dir : String) (d : CacheDisk) (waVersion : String) :
    Except String CacheManifest :=
  match readManifest rt d with
  | none =>
      .error ("no cache manifest at " ++ dir ++ " — store the JS bundles before their wasm")
  | some manifest =>
      if !manifest.complete || manifest.waVersion ≠ waVersion then
        .error ("cache holds " ++ manifest.waVersion ++ " (complete: " ++
          toString manifest.complete ++ "), refusing to attach wasm for " ++ waVersion)
      else .ok manifest

/-- The manifest a `storeWasm` commits: the wasm half is replaced, and only the handles of
the payloads stored are kept. -/
def storeWasmManifest (manifest : CacheManifest) (wasm : List Bundle)
    (handles : List (String × String)) : CacheManifest :=
  { manifest with
    wasm := wasm.map (entryOf rt)
    wasmHandles := SortedMap.collect (wasm.filterMap fun b =>
      (SortedMap.get handles b.url).map fun id => (b.url, id)) }

/-- The steps of a `storeWasm` up to and including its commit. -/
def commitWasmSteps (manifest : CacheManifest) (wasm : List Bundle)
    (handles : List (String × String)) : List CacheStep :=
  writeSetSteps rt wasm .wasm .wasm ++
    writeManifestSteps rt (storeWasmManifest rt manifest wasm handles)

/-- All the steps of a `storeWasm`: after the commit it removes files, the names of which
are those of `pruned`. -/
def storeWasmSteps (manifest : CacheManifest) (wasm : List Bundle)
    (handles : List (String × String)) (pruned : List String) : List CacheStep :=
  commitWasmSteps rt manifest wasm handles ++ pruned.map fun n => .removeFile (.wasm n)

/-- What a listing of a directory returns names every file in it. -/
def Lists (d : CacheDisk) (place : String → CacheFile) (names : List String) : Prop :=
  ∀ n, d.file (place n) ≠ none → n ∈ names

/-- What the removal after a commit may remove: best effort, so any files of the wasm
directory except the ones just stored. -/
def Prunes (wasm : List Bundle) (pruned : List String) : Prop :=
  ∀ n ∈ pruned, ∀ b ∈ wasm, n ≠ cacheFileName rt b.url

/-! ### Reading -/

variable {rt}

theorem cacheFileName_injective (h : rt.Lawful) : Function.Injective (cacheFileName rt) :=
  (sha256Hex_injective h.digest_injective).comp utf8_injective

/-- A load succeeds exactly on the bytes the entry pins. -/
theorem loadOne_ok_iff {d : CacheDisk} {place : String → CacheFile} {entry : BundleEntry}
    {b : Bundle} :
    loadOne rt d place entry = .ok b ↔
      ∃ bytes, d.file (place (cacheFileName rt entry.url)) = some bytes ∧
        bytes.length = entry.size ∧ sha256Hex rt.digest bytes = entry.sha256 ∧
        b = ⟨entry.url, entry.fileName, bytes⟩ := by
  unfold loadOne
  cases hfile : d.file (place (cacheFileName rt entry.url)) with
  | none => simp
  | some bytes =>
      by_cases hsize : bytes.length = entry.size
      · by_cases hsum : sha256Hex rt.digest bytes = entry.sha256
        · simp [hsize, hsum, eq_comm]
        · simp [hsize, hsum]
      · simp [hsize]

/-- A load against the record of a stored file returns that file or nothing. -/
theorem loadOne_entryOf_iff (h : rt.Lawful) {d : CacheDisk} {place : String → CacheFile}
    {b b' : Bundle} :
    loadOne rt d place (entryOf rt b) = .ok b' ↔
      d.file (place (cacheFileName rt b.url)) = some b.bytes ∧ b' = b := by
  rw [loadOne_ok_iff]
  constructor
  · rintro ⟨bytes, hfile, _, hsum, rfl⟩
    have hbytes : bytes = b.bytes := sha256Hex_injective h.digest_injective hsum
    subst hbytes
    exact ⟨hfile, rfl⟩
  · rintro ⟨hfile, rfl⟩
    exact ⟨b'.bytes, hfile, rfl, rfl, rfl⟩

theorem usableManifest_ok_iff {d : CacheDisk} {v : String} {m : CacheManifest} :
    usableManifest rt d v = .ok m ↔
      readManifest rt d = some m ∧ m.complete = true ∧ m.waVersion = v := by
  unfold usableManifest
  cases readManifest rt d with
  | none => simp
  | some m' =>
      by_cases hc : m'.complete = true
      · by_cases hv : m'.waVersion = v
        · simp only [hc, hv, Bool.not_true, Bool.false_eq_true, if_false, not_true_eq_false,
            ne_eq, Except.ok.injEq, Option.some.injEq]
          constructor
          · rintro rfl; exact ⟨rfl, hc, hv⟩
          · rintro ⟨rfl, _, _⟩; rfl
        · simp only [hc, hv, Bool.not_true, Bool.false_eq_true, if_false, ne_eq,
            not_false_eq_true, if_true, reduceCtorEq, Option.some.injEq, false_iff]
          rintro ⟨rfl, _, hv'⟩
          exact hv hv'
      · simp only [hc, Bool.not_false, if_true, reduceCtorEq, Option.some.injEq, false_iff]
        rintro ⟨rfl, hc', _⟩
        exact hc hc'

theorem attachable_ok_iff {dir : String} {d : CacheDisk} {v : String} {m : CacheManifest} :
    attachable rt dir d v = .ok m ↔
      readManifest rt d = some m ∧ m.complete = true ∧ m.waVersion = v := by
  unfold attachable
  cases readManifest rt d with
  | none => simp
  | some m' =>
      by_cases hrefuse : (!m'.complete || m'.waVersion ≠ v) = true
      · simp only [hrefuse, if_true, reduceCtorEq, Option.some.injEq, false_iff]
        rintro ⟨rfl, hc, hv⟩
        simp [hc, hv] at hrefuse
      · simp only [hrefuse, Bool.false_eq_true, if_false, Except.ok.injEq, Option.some.injEq]
        constructor
        · rintro rfl
          simpa using hrefuse
        · rintro ⟨rfl, _, _⟩; rfl

/-- Loading the records of stored files hits exactly when every file is intact, and then
returns those files. -/
theorem loadSet_entryOf_iff (h : rt.Lawful) {d : CacheDisk} {place : String → CacheFile}
    {stored loaded : List Bundle} :
    loadSet rt d place (stored.map (entryOf rt)) = .hit loaded ↔
      (∀ b ∈ stored, d.file (place (cacheFileName rt b.url)) = some b.bytes) ∧
        loaded = stored := by
  unfold loadSet
  induction stored generalizing loaded with
  | nil => simp [pure, Except.pure, eq_comm]
  | cons b bs ih =>
      simp only [List.map_cons, List.mapM_cons, List.forall_mem_cons]
      cases hone : loadOne rt d place (entryOf rt b) with
      | error why =>
          simp only [bind, Except.bind, reduceCtorEq, false_iff]
          rintro ⟨⟨hfile, _⟩, _⟩
          have hload : loadOne rt d place (entryOf rt b) = .ok b :=
            (loadOne_entryOf_iff h).mpr ⟨hfile, rfl⟩
          rw [hone] at hload
          cases hload
      | ok b' =>
          obtain ⟨hfile, rfl⟩ := (loadOne_entryOf_iff h).mp hone
          cases hrest : (bs.map (entryOf rt)).mapM (loadOne rt d place) with
          | error why =>
              have hnot := (@ih bs).not.mp (by simp [hrest])
              simp only [bind, Except.bind, reduceCtorEq, false_iff]
              rintro ⟨⟨_, hfiles⟩, _⟩
              exact hnot ⟨hfiles, rfl⟩
          | ok rest =>
              have hrest' := (@ih rest).mp (by simp [hrest])
              obtain ⟨hfiles, rfl⟩ := hrest'
              simp only [bind, Except.bind, pure, Except.pure, CacheStatus.hit.injEq]
              constructor
              · rintro rfl; exact ⟨⟨hfile, hfiles⟩, rfl⟩
              · rintro ⟨_, rfl⟩; rfl

end Whatspec.Fetch

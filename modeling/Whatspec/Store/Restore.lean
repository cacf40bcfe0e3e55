import Whatspec.Fetch.Cache
import Whatspec.Fetch.Download
import Whatspec.Library.Action
import Whatspec.Library.Multimap
import Whatspec.Store.Lock

/-!
# Restoring a locked set

`restore` unpacks an archive, compares the digests of what it holds with the lock, pairs
the payloads with the lock's names or URLs, and writes them: into a flat directory, or
into the cache.  A run is an `Action`: the file-system steps it took and how it ended, so
that what a refused restore has already done can be read off.

The archive's decompression and its tar headers are read outside the repository; `restore`
is given the entries they yield.
-/

namespace Whatspec.Store

open Whatspec.Library Whatspec.Text Whatspec.Fetch

/-! ### Paths -/

/-- The normal components of a path: what is between slashes, less empty parts and dots. -/
def components (path : String) : List (List Char) :=
  (path.toList.splitOn '/').filter fun c => c ≠ [] && c ≠ ['.']

/-- `Path::file_name`: the last component, when it is not the parent directory. -/
def fileName (path : String) : Option String :=
  match (components path).getLast? with
  | none => none
  | some c => if c = ['.', '.'] then none else some (String.ofList c)

/-- `Path::extension` of a file name: what follows its last dot, unless that dot is the
first character. -/
def extension (name : String) : Option String :=
  if name = ".." then none
  else
    let cs := name.toList.reverse
    let after := cs.takeWhile (· ≠ '.')
    match cs.drop after.length with
    | [] => none
    | _ :: before => if before.isEmpty then none else some (String.ofList after.reverse)

/-- `Path::join`: an absolute second path replaces the first. -/
def joinPath (dir name : String) : String :=
  if name.toList.head? = some '/' then name else dir ++ "/" ++ name

/-! ### Locks, targets and steps -/

/-- The lock a run reads: `--wasm` says which. -/
inductive LockFile where
  | bundles (lock : BundleLock)
  | wasm (lock : WasmLock)

inductive RestoreTarget where
  /-- A flat directory of files. -/
  | bundles
  /-- The version-keyed cache. -/
  | cache
  deriving DecidableEq

/-- One entry of a tar archive. -/
structure TarEntry where
  isFile : Bool
  path : String
  bytes : Bytes

abbrev OutDisk := Disk String Unit
abbrev OutStep := DiskStep String Unit

/-- One file-system step of a restore, under the directory it was asked to fill. -/
inductive RestoreStep where
  | out (e : OutStep)
  | cache (e : CacheStep)

/-- The directory a restore may fill, as a flat directory and as a cache. -/
structure Targets where
  out : OutDisk
  cache : CacheDisk

def RestoreStep.applyTo : RestoreStep → Targets → Targets
  | .out e, t => { t with out := e.applyTo t.out }
  | .cache e, t => { t with cache := e.applyTo t.cache }

/-- What the directory listings of a run return. -/
structure Listings where
  out : List String
  cacheBundles : List String
  cacheWasm : List String

/-- Why a restore refuses. -/
inductive RestoreError where
  | inconsistent (why : String)
  | archive (why : String)
  /-- `every lock entry needs its origin URL`, with the entry's hash for a wasm lock. -/
  | noUrl (sha256 : Option String)
  | duplicateUrl (url : String)
  | tooManyFiles (maxFiles : ℕ)
  | noFileName
  | noFiles
  | setMismatch (label : String) (inArchive locked : ℕ) (missing extra : List String)
  | duplicateName (name : String)
  | unsafeName (name : String)
  | noNameInLock (archiveName sha256 : String)
  | hashCount (files hashes : ℕ)
  /-- `verified archive lost {label} {sha256}` -/
  | lost (label sha256 : String)
  | sizeMismatch (sha256 : String) (locked inArchive : ℕ)
  | attach (why : String)
  deriving DecidableEq

abbrev RestoreM := Action RestoreStep RestoreError

variable (rt : Runtime)

/-! ### Unpacking -/

/-- The regular files of an archive after those in `out`, each under its basename. -/
def readTarFrom (maxFiles : ℕ) :
    List TarEntry → List (String × Bytes) → Except RestoreError (List (String × Bytes))
  | [], out => .ok out
  | entry :: entries, out =>
      if !entry.isFile then readTarFrom maxFiles entries out
      else if maxFiles ≤ out.length then .error (.tooManyFiles maxFiles)
      else
        match (fileName entry.path).filter (· ≠ "") with
        | none => .error .noFileName
        | some name => readTarFrom maxFiles entries (out ++ [(name, entry.bytes)])

def readTar (entries : List TarEntry) (maxFiles : ℕ) :
    Except RestoreError (List (String × Bytes)) :=
  match readTarFrom maxFiles entries [] with
  | .error e => .error e
  | .ok out => if out.isEmpty then .error .noFiles else .ok out

/-! ### Verifying -/

/-- The digests of the files when, with their multiplicities, they are the locked ones. -/
def verifyMultiset (files : List (String × Bytes)) (locked : List String) (lockedCount : ℕ)
    (label : String) : Except RestoreError (List String) :=
  let got := files.map fun f => sha256Hex rt.digest f.2
  if (locked ++ got).all fun h => locked.count h == got.count h then .ok got
  else
    let missing := locked.dedup.filter fun h => got.count h < locked.count h
    let extra := got.dedup.filter fun h => locked.count h < got.count h
    .error (.setMismatch label files.length lockedCount missing extra)

/-- Refuse a repeated name. -/
def checkNames (seen : List String) : List (String × Bytes) → Except RestoreError Unit
  | [] => .ok ()
  | (name, _) :: files =>
      if name ∈ seen then .error (.duplicateName name) else checkNames (name :: seen) files

/-- Refuse a missing or a repeated URL.  `entries` gives each URL with what the message
about a missing one names. -/
def checkUrls (seen : List String) :
    List (Option String × Option String) → Except RestoreError Unit
  | [] => .ok ()
  | (url, sha256) :: entries =>
      match url.filter (· ≠ "") with
      | none => .error (.noUrl sha256)
      | some u =>
          if u ∈ seen then .error (.duplicateUrl u) else checkUrls (u :: seen) entries

def preflightCacheLockUrls (lock : BundleLock) : Except RestoreError Unit :=
  checkUrls [] (lock.bundles.map fun e => (e.url, none))

/-- Accept only a single `*.wasm` file name. -/
def safePayloadName (name : String) : Except RestoreError Unit :=
  if name = "" || name = "." || name = ".." || name.toList.contains '/' ||
      name.toList.contains '\\' || name.toList.contains '\x00' || fileName name ≠ some name ||
      !".wasm".toList.isSuffixOf name.toList then
    .error (.unsafeName name)
  else .ok ()

/-! ### Pairing payloads with the lock -/

/-- The locked names under their hashes, every name checked as it is taken. -/
def namesByHash (m : List (String × String)) :
    List WasmLockEntry → Except RestoreError (List (String × String))
  | [] => .ok m
  | entry :: entries =>
      match safePayloadName entry.fileName with
      | .error e => .error e
      | .ok () => namesByHash (Multimap.push m entry.sha256 entry.fileName) entries

/-- Each file under a name the lock has for its hash, no name given twice. -/
def nameFiles (names : List (String × String)) :
    List ((String × Bytes) × String) → Except RestoreError (List (String × Bytes))
  | [] => .ok []
  | ((archiveName, bytes), sha256) :: rest =>
      match Multimap.pop names sha256 with
      | none => .error (.noNameInLock archiveName sha256)
      | some (name, names') =>
          match nameFiles names' rest with
          | .error e => .error e
          | .ok out => .ok ((name, bytes) :: out)

def nameFromLock (files : List (String × Bytes)) (hashes : List String) (lock : WasmLock) :
    Except RestoreError (List (String × Bytes)) :=
  match namesByHash [] lock.wasm with
  | .error e => .error e
  | .ok names => nameFiles names (files.zip hashes)

/-- One bundle for each locked `(url, sha256, size)`, from the payloads under its hash. -/
def takePayloads (label : String) (byHash : List (String × Bytes)) :
    List (String × String × ℕ) → Except RestoreError (List Bundle)
  | [] => .ok []
  | (url, sha256, size) :: entries =>
      match Multimap.pop byHash sha256 with
      | none => .error (.lost label sha256)
      | some (bytes, byHash') =>
          if bytes.length ≠ size then .error (.sizeMismatch sha256 size bytes.length)
          else
            match takePayloads label byHash' entries with
            | .error e => .error e
            | .ok bundles => .ok (⟨url, bundleFileName url, bytes⟩ :: bundles)

/-- The payloads of a cache: paired with the locked URLs, sizes checked, in URL order. -/
def payloadsInOrder (label : String) (files : List (String × Bytes)) (hashes : List String)
    (wanted : List (String × String × ℕ)) : Except RestoreError (List Bundle) :=
  if files.length ≠ hashes.length then .error (.hashCount files.length hashes.length)
  else
    let byHash := Multimap.collect ((files.zip hashes).map fun p => (p.2, p.1.2))
    match takePayloads label byHash wanted with
    | .error e => .error e
    | .ok bundles => .ok (bundles.insertionSort fun a b => a.url ≤ b.url)

/-- The payloads a bundle lock puts in a cache. -/
def bundlesForCache (files : List (String × Bytes)) (hashes : List String)
    (lock : BundleLock) : Except RestoreError (List Bundle) :=
  match preflightCacheLockUrls lock with
  | .error e => .error e
  | .ok () => payloadsInOrder "bundle" files hashes
      (lock.bundles.map fun e => (e.url.getD "", e.sha256, e.size))

/-- The payloads a wasm lock puts in a cache. -/
def payloadsForCache (files : List (String × Bytes)) (hashes : List String)
    (lock : WasmLock) : Except RestoreError (List Bundle) :=
  match checkUrls [] (lock.wasm.map fun e => (some e.url, some e.sha256)) with
  | .error e => .error e
  | .ok () => payloadsInOrder "wasm payload" files hashes
      (lock.wasm.map fun e => (e.url, e.sha256, e.size))

/-! ### Writing -/

/-- Write the files into the directory, first removing the stale ones of the extension. -/
def writeBundles (listing : List String) (files : List (String × Bytes)) (ext : String) :
    RestoreM ℕ := do
  Action.check (checkNames [] files)
  Action.emit [.out (.makeDir ())]
  Action.emit ((listing.filter fun n => extension n = some ext).map fun n =>
    .out (.removeFile n))
  Action.emit ((writeFiles files).map .out)
  pure files.length

/-- Replace the cache with the locked bundles. -/
def writeCache (d : CacheDisk) (l : Listings) (files : List (String × Bytes))
    (verifiedHashes : List String) (lock : BundleLock) : RestoreM ℕ := do
  let bundles ← Action.check (bundlesForCache files verifiedHashes lock)
  Action.emit ((storeSteps rt d l.cacheBundles l.cacheWasm lock.waVersion bundles).map .cache)
  pure bundles.length

/-- The handle of each locked URL that has one. -/
def lockHandles (lock : WasmLock) : List (String × String) :=
  SortedMap.collect (lock.wasm.filterMap fun e => e.bxId.map fun id => (e.url, id))

/-- Attach the locked payloads to the cache.  After its commit it removes the listed files
of the wasm directory that it did not store. -/
def attachWasm (dir : String) (d : CacheDisk) (l : Listings) (payloads : List Bundle)
    (lock : WasmLock) : RestoreM ℕ := do
  let manifest ← Action.check ((attachable rt dir d lock.waVersion).mapError .attach)
  let pruned := l.cacheWasm.filter fun n =>
    payloads.all fun b => n ≠ cacheFileName rt b.url
  Action.emit ((storeWasmSteps rt manifest payloads (lockHandles lock) pruned).map .cache)
  pure payloads.length

/-- `restore` with a wasm lock. -/
def restoreWasm (dir : String) (t : Targets) (l : Listings) (lock : WasmLock)
    (target : RestoreTarget) (archive : Except String (List TarEntry)) : RestoreM ℕ := do
  Action.check ((lock.verifySelfConsistent rt.digest).mapError .inconsistent)
  let entries ← Action.check (archive.mapError .archive)
  let files ← Action.check (readTar entries lock.wasmCount)
  let hashes ← Action.check
    (verifyMultiset rt files (lock.wasm.map (·.sha256)) lock.wasmCount "wasm payload")
  match target with
  | .bundles => do
      let named ← Action.check (nameFromLock files hashes lock)
      writeBundles l.out named "wasm"
  | .cache => do
      let payloads ← Action.check (payloadsForCache files hashes lock)
      attachWasm rt dir t.cache l payloads lock

/-- `whatspec restore` into the directory `dir`. -/
def restore (dir : String) (t : Targets) (l : Listings) (lock : LockFile)
    (target : RestoreTarget) (archive : Except String (List TarEntry)) : RestoreM ℕ :=
  match lock with
  | .wasm lock => restoreWasm rt dir t l lock target archive
  | .bundles lock => do
      Action.check ((lock.verifySelfConsistent rt.digest).mapError .inconsistent)
      Action.check (if target = .cache then preflightCacheLockUrls lock else .ok ())
      let entries ← Action.check (archive.mapError .archive)
      let files ← Action.check (readTar entries lock.bundleCount)
      let verifiedHashes ← Action.check
        (verifyMultiset rt files (lock.bundles.map (·.sha256)) lock.bundleCount "bundle")
      match target with
      | .bundles => writeBundles l.out files "js"
      | .cache => writeCache rt t.cache l files verifiedHashes lock

end Whatspec.Store

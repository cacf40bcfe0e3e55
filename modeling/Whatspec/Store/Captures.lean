import Whatspec.Fetch.Hosts
import Whatspec.Library.Action
import Whatspec.Store.Restore

/-!
# Restoring locked captures

A capture is one historical wasm payload, pinned by name, digest and, when known, size.
`restoreCapturesWith` fills a directory with the captures a lock names: what is there and
verifies is kept, a capture with a URL is asked for there, and what is still missing is taken
from the archives of the configured releases, newest first.

* `Client` answers a call from all the calls made so far, so that it may answer anything;
* `Session` is the state of a restore: the captures still missing, the calls made and the
  file-system steps taken;
* `Outside` gathers what is read outside the repository: the digest, the decoders, the archive
  reader, the URL parser and the two metadata decoders.

Every failure of a source is passed over, so that the errors of one carry no text here.
-/

namespace Whatspec.Store

open Whatspec.Library Whatspec.Text Whatspec.Fetch

/-- One immutable wasm payload. -/
structure WasmCapture where
  fileName : String
  sha256 : String
  size : Option ℕ
  url : Option String
  deriving DecidableEq

/-- A GitHub release whose wasm archives may contain payloads. -/
structure ReleaseSource where
  repo : String
  release : String

/-- What is read of one asset of a release. -/
structure Asset where
  name : String
  url : String
  browserDownloadUrl : String
  createdAt : String

/-- A parsed URL: the parts that are checked, and its text. -/
structure ParsedUrl where
  scheme : String
  host : Option String
  username : String
  password : Option String
  text : String

/-- One member of a tar archive.  Its base name is missing when the path cannot be read, and
absent when the path has none or it is no text; its body is missing when it cannot be read. -/
structure TarMember where
  isFile : Bool
  baseName : Option (Option String)
  body : Option Bytes

/-- What a restore takes from its dependencies. -/
structure Outside where
  digest : Bytes → Bytes
  unxz : Bytes → Option Bytes
  gunzip : Bytes → Option Bytes
  /-- The members of a tar archive; a member is missing when its header cannot be read. -/
  members : Bytes → Option (List (Option TarMember))
  /-- The `assets_url` of a release's metadata. -/
  parseRelease : Bytes → Option String
  parseAssets : Bytes → Option (List Asset)
  parseUrl : String → Option ParsedUrl
  /-- The GitHub API URL with these path segments. -/
  apiUrl : List String → Option String
  /-- A URL with the query of one page of a hundred. -/
  withPage : ParsedUrl → ℕ → String

def maxArchiveBytes : ℕ := 256 * 1024 * 1024
def maxUnpackedBytes : ℕ := 1024 * 1024 * 1024
def maxArchiveFiles : ℕ := 4096
def maxWasmBytes : ℕ := 64 * 1024 * 1024
def maxMetadataBytes : ℕ := 8 * 1024 * 1024
def maxAssetPages : ℕ := 100

/-! ### A capture -/

/-- Why a restore of captures refuses. -/
inductive CaptureError where
  /-- `capture fileName must be a .wasm basename` -/
  | badFileName
  | badSha256 (fileName : String)
  | tooLarge (fileName : String) (limit : ℕ)
  | badUrl (fileName : String)
  | duplicate (fileName : String)
  /-- `pinned captures unavailable`, with their names. -/
  | unavailable (fileNames : List String)
  deriving DecidableEq

/-- An ASCII hexadecimal digit that is not an uppercase letter. -/
def isLowerHex (b : UInt8) : Bool := (48 ≤ b && b ≤ 57) || (97 ≤ b && b ≤ 102)

def wasmMagic : Bytes := [0x00, 0x61, 0x73, 0x6d]

namespace WasmCapture

def validate (c : WasmCapture) : Except CaptureError Unit :=
  if !(Store.fileName c.fileName = some c.fileName && ".wasm".toList.isSuffixOf c.fileName.toList) then
    .error .badFileName
  else if !((utf8 c.sha256).length = 64 && (utf8 c.sha256).all isLowerHex) then
    .error (.badSha256 c.fileName)
  else if !c.size.all (· ≤ maxWasmBytes) then
    .error (.tooLarge c.fileName maxWasmBytes)
  else if !c.url.all (isCdnPayload ·.toList) then
    .error (.badUrl c.fileName)
  else .ok ()

/-- Whether some bytes are the payload: its size, its magic and its digest. -/
def «matches» (digest : Bytes → Bytes) (c : WasmCapture) (bytes : Bytes) : Bool :=
  bytes.length ≤ maxWasmBytes && wasmMagic.isPrefixOf bytes && c.size.all (· = bytes.length)
    && sha256Hex digest bytes = c.sha256

end WasmCapture

/-! ### Calls -/

abbrev Headers := List (String × String)

/-- One call of the HTTP client; the last number bounds the body. -/
inductive HttpCall where
  | get (url : String) (headers : Headers) (maxBytes : ℕ)
  | getRedirect (url : String) (headers : Headers) (maxBytes : ℕ)

structure HttpResponse where
  status : ℕ
  body : Bytes

structure RedirectResponse where
  status : ℕ
  location : Option String
  body : Bytes

/-- An HTTP client, as its answer to the last of the calls made so far. -/
structure Client where
  get : List HttpCall → Option HttpResponse
  getRedirect : List HttpCall → Option RedirectResponse

/-- A fallible exchange with the client, which remembers the calls. -/
abbrev Exchange := OptionT (StateM (List HttpCall))

/-- What needs no call. -/
def given {α : Type} (x : Option α) : Exchange α := OptionT.mk (pure x)

def callGet (client : Client) (call : HttpCall) : Exchange HttpResponse := do
  modify (· ++ [call])
  given (client.get (← get))

def callGetRedirect (client : Client) (call : HttpCall) : Exchange RedirectResponse := do
  modify (· ++ [call])
  given (client.getRedirect (← get))

/-- The first of the two variables that holds a token. -/
def token (env : String → Option String) : Option String :=
  ["GH_TOKEN", "GITHUB_TOKEN"].findSome? fun name => (env name).filter (· ≠ "")

def agentHeader : String × String := ("User-Agent", "wa-store")

def bearer (token : String) : String × String := ("Authorization", "Bearer " ++ token)

def githubHeaders (token : Option String) : Headers :=
  [agentHeader, ("Accept", "application/vnd.github+json")] ++ (token.map bearer).toList

def getWith (client : Client) (url : String) (headers : Headers) (max : ℕ) : Exchange Bytes := do
  let response ← callGet client (.get url headers max)
  if response.status = 200 then return response.body else failure

section Releases

variable (out : Outside) (client : Client)

/-- A byte of the owner or the name of a repository. -/
def isRepoByte (b : UInt8) : Bool :=
  (48 ≤ b && b ≤ 57) || (65 ≤ b && b ≤ 90) || (97 ≤ b && b ≤ 122)
    || b = 45 || b = 95 || b = 46

/-- The two halves of a repository's name. -/
def splitRepo (repo : String) : Option (String × String) :=
  (Urls.cutAt '/' repo.toList).map fun p => (String.ofList p.1, String.ofList p.2)

/-- A control character, which no release tag contains. -/
def isControl (c : Char) : Bool := c.val < 32 || (127 ≤ c.val && c.val < 160)

def releaseUrl (repo tag : String) : Option String := do
  let (owner, name) ← splitRepo repo
  guard (owner ≠ "" ∧ name ≠ "" ∧ (utf8 owner ++ utf8 name).all isRepoByte)
  guard (tag ≠ "" ∧ !tag.toList.any isControl)
  out.apiUrl ["repos", owner, name, "releases", "tags", tag]

/-- The assets URL of a release. -/
def releaseWith (repo tag : String) (token : Option String) : Exchange String := do
  let endpoint ← given (releaseUrl out repo tag)
  let body ← getWith client endpoint (githubHeaders token) maxMetadataBytes
  given (out.parseRelease body)

/-- The assets from page `page` on, when at most `left` pages more end the list. -/
def assetPages (endpoint : ParsedUrl) (token : Option String) :
    ℕ → ℕ → List Asset → Exchange (List Asset)
  | 0, _, _ => failure
  | left + 1, page, assets => do
      let body ← getWith client (out.withPage endpoint page) (githubHeaders token)
        maxMetadataBytes
      let batch ← given (out.parseAssets body)
      if batch.length < 100 then return assets ++ batch
      else assetPages endpoint token left (page + 1) (assets ++ batch)

def releaseAssetsWith (repo tag : String) (token : Option String) : Exchange (List Asset) := do
  let assetsUrl ← releaseWith out client repo tag token
  let endpoint ← given (out.parseUrl assetsUrl)
  guard (endpoint.scheme = "https" ∧ endpoint.host = some "api.github.com"
    ∧ endpoint.username = "" ∧ endpoint.password = none)
  assetPages out client endpoint token maxAssetPages 1 []

def redirectHosts : List String :=
  ["github.com", "objects.githubusercontent.com", "release-assets.githubusercontent.com"]

def trustedAssetRedirect (location : String) : Bool :=
  match out.parseUrl location with
  | none => false
  | some redirect =>
      redirect.scheme = "https" && redirect.username = "" && redirect.password = none
        && redirectHosts.any (redirect.host = some ·)

/-- An asset's bytes through the GitHub API: sent at once, or behind one trusted redirect. -/
def privateAssetBytes (asset : Asset) (token : String) : Exchange Bytes := do
  guard ("https://api.github.com/".toList.isPrefixOf asset.url.toList)
  let response ← callGetRedirect client (.getRedirect asset.url
    [agentHeader, ("Accept", "application/octet-stream"), bearer token] maxArchiveBytes)
  if response.status = 200 then return response.body
  guard (300 ≤ response.status ∧ response.status < 400)
  let location ← given response.location
  guard (trustedAssetRedirect out location)
  getWith client location [agentHeader] maxArchiveBytes

def assetBytesWith (asset : Asset) (token : Option String) : Exchange Bytes :=
  getWith client asset.browserDownloadUrl [agentHeader] maxArchiveBytes
    <|> match token with
      | none => failure
      | some token => privateAssetBytes out client asset token

end Releases

/-! ### Archives -/

def xzMagic : Bytes := [0xfd, 0x37, 0x7a, 0x58, 0x5a, 0x00]

def gzipMagic : Bytes := [0x1f, 0x8b]

/-- A whole archive unpacked, the decoder chosen by its magic. -/
def decompress (out : Outside) (archive : Bytes) (maxUnpacked : ℕ) : Option Bytes :=
  if xzMagic.isPrefixOf archive then (out.unxz archive).filter (·.length ≤ maxUnpacked)
  else if gzipMagic.isPrefixOf archive then (out.gunzip archive).filter (·.length ≤ maxUnpacked)
  else none

/-- The captures that are missing, by their names. -/
abbrev Missing := List (String × WasmCapture)

/-- The captures still missing after an archive, and the files it gave. -/
structure ArchiveSelection where
  remaining : Missing
  files : List (String × Bytes)

/-- The members of an archive in turn, after `count` files. -/
def takeMembers (digest : Bytes → Bytes) :
    List (Option TarMember) → ℕ → ArchiveSelection → Option ArchiveSelection
  | [], _, selection => some selection
  | none :: _, _, _ => none
  | some entry :: rest, count, selection =>
      if !entry.isFile then takeMembers digest rest count selection
      else if maxArchiveFiles < count + 1 then none
      else
        match entry.baseName with
        | none => none
        | some none => takeMembers digest rest (count + 1) selection
        | some (some name) =>
            match SortedMap.get selection.remaining name with
            | none => takeMembers digest rest (count + 1) selection
            | some capture =>
                match entry.body with
                | none => none
                | some bytes =>
                    if capture.matches digest bytes then
                      takeMembers digest rest (count + 1)
                        ⟨SortedMap.remove name selection.remaining,
                          selection.files ++ [(name, bytes)]⟩
                    else takeMembers digest rest (count + 1) selection

def takeArchive (out : Outside) (archive : Bytes) (missing : Missing) :
    Option ArchiveSelection := do
  let tar ← decompress out archive maxUnpackedBytes
  let members ← out.members tar
  takeMembers out.digest members 0 ⟨missing, []⟩

/-- What an archive gives, from a copy of the captures that are missing. -/
def selectArchive (out : Outside) (archive : Bytes) (missing : Missing) :
    Option ArchiveSelection :=
  takeArchive out archive missing

/-! ### The directory -/

/-- A file of the captures directory: a capture's, or a temporary one. -/
inductive CaptureFile where
  | named (name : String)
  | temp (n : ℕ)
  deriving DecidableEq

abbrev CaptureDisk := Disk CaptureFile Unit
abbrev CaptureStep := DiskStep CaptureFile Unit

/-- One file written beside its place and renamed into it. -/
def persistFile (n : ℕ) (name : String) (bytes : Bytes) : List CaptureStep :=
  writeFile (.temp n) bytes ++ [.rename (.temp n) (.named name)]

/-- Files written from temporary number `n` on. -/
def persistFrom : ℕ → List (String × Bytes) → List CaptureStep
  | _, [] => []
  | n, (name, bytes) :: rest => persistFile n name bytes ++ persistFrom (n + 1) rest

/-! ### A restore -/

structure Session where
  asked : List HttpCall
  missing : Missing
  steps : List CaptureStep
  /-- How many temporary files have been made. -/
  temps : ℕ

namespace Session

/-- The directory is made and the files are put in it. -/
def persist (s : Session) (selected : List (String × Bytes)) : Session :=
  { s with
    steps := s.steps ++ .makeDir () :: persistFrom s.temps selected
    temps := s.temps + selected.length }

end Session

section Restore

variable (out : Outside) (client : Client)

/-- The lock as a map, when every capture is sound and no name is used twice. -/
def lockedFrom : List WasmCapture → Missing → Except CaptureError Missing
  | [], missing => .ok missing
  | capture :: rest, missing => do
      capture.validate
      if (SortedMap.get missing capture.fileName).isSome then
        .error (.duplicate capture.fileName)
      else lockedFrom rest (SortedMap.insert capture.fileName capture missing)

/-- The captures the directory does not already hold. -/
def retainMissing (disk : CaptureDisk) (missing : Missing) : Missing :=
  missing.filter fun e => !(disk.file (.named e.1)).any (e.2.matches out.digest)

/-- A missing capture is asked for at its URL. -/
def directStep (s : Session) (name : String) : Session :=
  match SortedMap.get s.missing name with
  | none => s
  | some capture =>
      match capture.url with
      | none => s
      | some url =>
          let (answer, asked) :=
            (getWith client url [agentHeader] (capture.size.getD maxWasmBytes + 1)).run s.asked
          match answer with
          | none => { s with asked := asked }
          | some bytes =>
              if capture.matches out.digest bytes then
                { ({ s with asked := asked }).persist [(name, bytes)] with
                  missing := SortedMap.remove name s.missing }
              else { s with asked := asked }

/-- One asset of a release. -/
def assetStep (token : Option String) (s : Session) (asset : Asset) : Session :=
  let (answer, asked) := (assetBytesWith out client asset token).run s.asked
  match answer with
  | none => { s with asked := asked }
  | some bytes =>
      match selectArchive out bytes s.missing with
      | none => { s with asked := asked }
      | some selection =>
          { ({ s with asked := asked }).persist selection.files with
            missing := selection.remaining }

/-- The assets of a release in turn, until nothing is missing. -/
def assetsFrom (token : Option String) : Session → List Asset → Session :=
  runUntil (·.missing = []) (assetStep out client token)

/-- The wasm archives of a release, newest first. -/
def wasmArchives (assets : List Asset) : List Asset :=
  (assets.filter fun asset =>
    "wasm-".toList.isPrefixOf asset.name.toList
      && (".tar.xz".toList.isSuffixOf asset.name.toList
        || ".tar.gz".toList.isSuffixOf asset.name.toList)).mergeSort
    fun left right => right.createdAt ≤ left.createdAt

/-- One release. -/
def sourceStep (token : Option String) (s : Session) (source : ReleaseSource) : Session :=
  let (answer, asked) :=
    (releaseAssetsWith out client source.repo source.release token).run s.asked
  match answer with
  | none => { s with asked := asked }
  | some assets => assetsFrom out client token { s with asked := asked } (wasmArchives assets)

/-- The releases in turn, until nothing is missing. -/
def sourcesFrom (token : Option String) : Session → List ReleaseSource → Session :=
  runUntil (·.missing = []) (sourceStep out client token)

/-- The session when the captures that are missing have been asked for at their URLs. -/
def directSession (disk : CaptureDisk) (locked : Missing) : Session :=
  let missing := retainMissing out disk locked
  (missing.map Prod.fst).foldl (directStep out client) ⟨[], missing, [], 0⟩

/-- The session at the end of a restore. -/
def restoreSession (env : String → Option String) (sources : List ReleaseSource)
    (disk : CaptureDisk) (locked : Missing) : Session :=
  sourcesFrom out client (token env) (directSession out client disk locked) sources

/-- Restore locked captures through a given HTTP client. -/
def restoreCapturesWith (env : String → Option String) (captures : List WasmCapture)
    (sources : List ReleaseSource) (disk : CaptureDisk) : Action CaptureStep CaptureError Unit :=
  do
    let locked ← Action.check (lockedFrom captures [])
    let s := restoreSession out client env sources disk locked
    Action.emit s.steps
    Action.check (if s.missing = [] then .ok () else .error (.unavailable (s.missing.map Prod.fst)))

end Restore

end Whatspec.Store

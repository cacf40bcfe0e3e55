import Whatspec.Store.Restore

/-!
# Where a restore writes

Every path a restore writes is the target directory followed by further components, none
of them the parent directory (`restore_writes_inside`).  The names of a flat directory are
the basenames of archive entries or names the lock was checked for; the names in a cache
are hexadecimal.
-/

namespace Whatspec.Store

open Whatspec.Library Whatspec.Text Whatspec.Fetch

/-- `path` lies below the directory `dir`: more components, and none goes back up. -/
def Inside (dir path : String) : Prop :=
  ∃ below, components path = components dir ++ below ∧ below ≠ [] ∧ ['.', '.'] ∉ below

/-- A name that is one component of a path and does not go up. -/
def PlainName (name : String) : Prop :=
  '/' ∉ name.toList ∧ name ≠ "" ∧ name ≠ "." ∧ name ≠ ".."
  deriving Decidable

/-- The path of a file of a cache. -/
def cachePath (dir : String) : CacheFile → String
  | .manifest => joinPath dir "manifest.json"
  | .manifestTmp => joinPath dir "manifest.json.tmp"
  | .bundle name => joinPath (joinPath dir "bundles") name
  | .wasm name => joinPath (joinPath dir "wasm") name

/-- The file a step writes to. -/
def DiskStep.writesTo {F D : Type} : DiskStep F D → Option F
  | .truncate f => some f
  | .append f _ => some f
  | .rename _ dst => some dst
  | .makeDir _ | .removeDir _ | .removeFile _ => none

/-- The path a restore step writes to, for a restore into `dir`. -/
def RestoreStep.writtenPath (dir : String) : RestoreStep → Option String
  | .out e => (DiskStep.writesTo e).map (joinPath dir)
  | .cache e => (DiskStep.writesTo e).map (cachePath dir)

/-! ### Components -/

theorem components_join {dir name : String} (h : '/' ∉ name.toList) :
    components (joinPath dir name) = components dir ++ components name := by
  have hrelative : joinPath dir name = dir ++ "/" ++ name := by
    rw [joinPath, if_neg]
    intro habs
    exact h (List.mem_of_mem_head? habs)
  have hchars : (dir ++ "/" ++ name).toList = dir.toList ++ '/' :: name.toList := by
    rw [String.toList_append, String.toList_append, List.append_assoc]
    rfl
  rw [components, hrelative, hchars, List.splitOn_append_cons_self, List.filter_append]
  rfl

theorem components_of_not_mem {name : String} (h : '/' ∉ name.toList) :
    components name = [name.toList].filter fun c => c ≠ [] && c ≠ ['.'] := by
  rw [components, List.splitOn_eq_singleton h]

theorem components_plain {name : String} (h : PlainName name) :
    components name = [name.toList] := by
  obtain ⟨hslash, hempty, hdot, _⟩ := h
  rw [components_of_not_mem hslash, List.filter_singleton]
  have hne : name.toList ≠ [] := fun heq => hempty (String.toList_inj.mp heq)
  have hne' : name.toList ≠ ['.'] := fun heq => hdot (String.toList_inj.mp heq)
  simp [hne, hne']

/-- A basename is a plain name. -/
theorem plainName_of_fileName {path name : String} (h : fileName path = some name) :
    PlainName name := by
  rw [fileName] at h
  cases hlast : (components path).getLast? with
  | none => rw [hlast] at h; cases h
  | some c =>
      rw [hlast] at h
      by_cases hup : c = ['.', '.']
      · simp only [if_pos hup] at h
        cases h
      · simp only [if_neg hup, Option.some.injEq] at h
        subst h
        have hmem : c ∈ components path := List.mem_of_getLast? hlast
        obtain ⟨hsplit, hkeep⟩ := List.mem_filter.mp hmem
        have hslash := not_mem_of_mem_splitOn hsplit
        simp only [Bool.and_eq_true, decide_eq_true_eq] at hkeep
        have hback : ∀ s : String, String.ofList c = s → c = s.toList := by
          intro s hs
          rw [← hs, String.toList_ofList]
        refine ⟨by rw [String.toList_ofList]; exact hslash, ?_, ?_, ?_⟩
        · exact fun heq => hkeep.1 (hback _ heq)
        · exact fun heq => hkeep.2 (hback _ heq)
        · exact fun heq => hup (hback _ heq)

/-- **A plain name stays in its directory.** -/
theorem inside_of_plainName (dir : String) {name : String} (h : PlainName name) :
    Inside dir (joinPath dir name) := by
  refine ⟨[name.toList], ?_, List.cons_ne_nil _ _, ?_⟩
  · rw [components_join h.1, components_plain h]
  · intro hmem
    exact h.2.2.2 (String.toList_inj.mp (List.mem_singleton.mp hmem).symm)

theorem mem_hexByte {c : Char} {b : UInt8} (h : c ∈ hexByte b) : c ≠ '/' ∧ c ≠ '.' := by
  have hdigit : ∀ n : Fin 16, Nat.digitChar n ≠ '/' ∧ Nat.digitChar n ≠ '.' := by decide
  have hlt : b.toNat < 256 := b.toNat_lt
  rcases List.mem_cons.mp h with hhigh | hlow
  · rw [hhigh]
    exact hdigit ⟨b.toNat / 16, by omega⟩
  · rw [List.mem_singleton.mp hlow]
    exact hdigit ⟨b.toNat % 16, by omega⟩

theorem mem_sha256Hex {digest : List UInt8 → List UInt8} {bytes : List UInt8} {c : Char}
    (h : c ∈ (sha256Hex digest bytes).toList) : c ≠ '/' ∧ c ≠ '.' := by
  rw [sha256Hex, String.toList_ofList] at h
  obtain ⟨b, _, hb⟩ := List.mem_flatMap.mp h
  exact mem_hexByte hb

/-- **A hexadecimal name stays below the directory it is joined to.** -/
theorem inside_of_hex (digest : List UInt8 → List UInt8) (bytes : List UInt8) (dir : String)
    {sub : String} (hsub : PlainName sub) :
    Inside dir (joinPath (joinPath dir sub) (sha256Hex digest bytes)) := by
  have hslash : '/' ∉ (sha256Hex digest bytes).toList :=
    fun hmem => (mem_sha256Hex hmem).1 rfl
  refine ⟨sub.toList :: components (sha256Hex digest bytes), ?_, List.cons_ne_nil _ _, ?_⟩
  · rw [components_join hslash, components_join hsub.1, components_plain hsub,
      List.append_assoc]
    rfl
  · intro hmem
    rcases List.mem_cons.mp hmem with heq | htail
    · exact hsub.2.2.2 (String.toList_inj.mp heq.symm)
    · rw [components_of_not_mem hslash] at htail
      have hname := List.mem_singleton.mp (List.mem_of_mem_filter htail)
      have hdot : '.' ∈ (sha256Hex digest bytes).toList := by
        rw [← hname]
        exact List.mem_cons_self
      exact (mem_sha256Hex hdot).2 rfl

/-! ### The names a restore writes -/

theorem readTarFrom_plain {maxFiles : ℕ} {entries : List TarEntry}
    {out files : List (String × Bytes)} (h : readTarFrom maxFiles entries out = .ok files)
    (hout : ∀ f ∈ out, PlainName f.1) : ∀ f ∈ files, PlainName f.1 := by
  induction entries generalizing out with
  | nil => cases h; exact hout
  | cons entry entries ih =>
      rw [readTarFrom] at h
      split at h
      · exact ih h hout
      · split at h
        · cases h
        · split at h
          · cases h
          · rename_i name hname
            apply ih h
            intro f hf
            rcases List.mem_append.mp hf with hold | hnew
            · exact hout f hold
            · rw [List.mem_singleton.mp hnew]
              exact plainName_of_fileName (Option.filter_eq_some_iff.mp hname).1

/-- Every name read from an archive is a basename. -/
theorem readTar_plain {entries : List TarEntry} {maxFiles : ℕ}
    {files : List (String × Bytes)} (h : readTar entries maxFiles = .ok files) :
    ∀ f ∈ files, PlainName f.1 := by
  rw [readTar] at h
  split at h
  · cases h
  · rename_i out hout
    split at h
    · cases h
    · cases h
      exact readTarFrom_plain hout fun f hf => absurd hf List.not_mem_nil

/-- A name that passes the check of a lock's names is plain. -/
theorem plainName_of_safe {name : String} (h : safePayloadName name = .ok ()) :
    PlainName name := by
  rw [safePayloadName] at h
  split at h
  · cases h
  · rename_i hsafe
    simp only [Bool.or_eq_true, decide_eq_true_eq, List.contains_iff_mem, not_or] at hsafe
    obtain ⟨⟨⟨⟨⟨⟨⟨hempty, hdot⟩, hup⟩, hslash⟩, _⟩, _⟩, _⟩, _⟩ := hsafe
    exact ⟨hslash, hempty, hdot, hup⟩

/-! ### The files of the cache a step writes -/

variable {rt : Runtime}

/-- The cache files a store can write: the manifest, and files named by hashes. -/
def StoreFile (rt : Runtime) : CacheFile → Prop
  | .manifest | .manifestTmp => True
  | .bundle name | .wasm name => ∃ url, name = cacheFileName rt url

theorem storeFile_of_writeManifest {m : CacheManifest} {e : CacheStep}
    (he : e ∈ writeManifestSteps rt m) {f : CacheFile} (hf : DiskStep.writesTo e = some f) :
    StoreFile rt f := by
  rcases List.mem_append.mp he with htmp | hrename
  · rcases List.mem_cons.mp htmp with rfl | happ
    · cases hf; trivial
    · obtain ⟨b, _, rfl⟩ := List.mem_map.mp happ
      cases hf; trivial
  · rw [List.mem_singleton.mp hrename] at hf
    cases hf; trivial

theorem storeFile_of_writeSet {bundles : List Bundle} {p : CacheDir}
    {place : String → CacheFile}
    (hplace : ∀ url, StoreFile rt (place (cacheFileName rt url))) {e : CacheStep}
    (he : e ∈ writeSetSteps rt bundles p place) {f : CacheFile}
    (hf : DiskStep.writesTo e = some f) : StoreFile rt f := by
  rcases List.mem_cons.mp he with rfl | hwrite
  · cases hf
  · obtain ⟨b, _, hstep⟩ := List.mem_flatMap.mp hwrite
    rcases List.mem_cons.mp hstep with rfl | happ
    · cases hf; exact hplace b.url
    · obtain ⟨c, _, rfl⟩ := List.mem_map.mp happ
      cases hf; exact hplace b.url

theorem clearSteps_write_nothing {d : CacheDisk} {bundleNames wasmNames : List String}
    {e : CacheStep} (he : e ∈ clearSteps d bundleNames wasmNames) :
    DiskStep.writesTo e = none := by
  have hdirs : ∀ (p : CacheDir) (place : String → CacheFile) (names : List String),
      e ∈ removeDirAllSteps d p place names → DiskStep.writesTo e = none := by
    intro p place names hmem
    unfold removeDirAllSteps at hmem
    split at hmem
    · rcases List.mem_append.mp hmem with hfile | hdir
      · obtain ⟨n, _, rfl⟩ := List.mem_map.mp hfile
        rfl
      · rw [List.mem_singleton.mp hdir]
        rfl
    · cases hmem
  rcases List.mem_append.mp he with hfront | hw
  · rcases List.mem_append.mp hfront with hm | hb
    · split at hm
      · rw [List.mem_singleton.mp hm]
        rfl
      · cases hm
    · exact hdirs _ _ _ hb
  · exact hdirs _ _ _ hw

theorem storeFile_of_store {d : CacheDisk} {bundleNames wasmNames : List String} {v : String}
    {bundles : List Bundle} {e : CacheStep}
    (he : e ∈ storeSteps rt d bundleNames wasmNames v bundles) {f : CacheFile}
    (hf : DiskStep.writesTo e = some f) : StoreFile rt f := by
  rcases List.mem_append.mp he with hfront | hmanifest
  · rcases List.mem_append.mp hfront with hclear | hset
    · rw [clearSteps_write_nothing hclear] at hf
      cases hf
    · have hplace : ∀ url, StoreFile rt (.bundle (cacheFileName rt url)) :=
        fun url => ⟨url, rfl⟩
      exact storeFile_of_writeSet hplace hset hf
  · exact storeFile_of_writeManifest hmanifest hf

theorem storeFile_of_storeWasm {m : CacheManifest} {wasm : List Bundle}
    {handles : List (String × String)} {pruned : List String} {e : CacheStep}
    (he : e ∈ storeWasmSteps rt m wasm handles pruned) {f : CacheFile}
    (hf : DiskStep.writesTo e = some f) : StoreFile rt f := by
  rcases List.mem_append.mp he with hcommit | hprune
  · rcases List.mem_append.mp hcommit with hset | hmanifest
    · have hplace : ∀ url, StoreFile rt (.wasm (cacheFileName rt url)) :=
        fun url => ⟨url, rfl⟩
      exact storeFile_of_writeSet hplace hset hf
    · exact storeFile_of_writeManifest hmanifest hf
  · obtain ⟨n, _, rfl⟩ := List.mem_map.mp hprune
    cases hf

/-- **The files of a cache lie in its directory.** -/
theorem inside_of_storeFile (dir : String) {f : CacheFile} (h : StoreFile rt f) :
    Inside dir (cachePath dir f) := by
  have hplain : ∀ name ∈ ["manifest.json", "manifest.json.tmp", "bundles", "wasm"],
      PlainName name := by decide
  cases f with
  | manifest => exact inside_of_plainName dir (hplain _ (by decide))
  | manifestTmp => exact inside_of_plainName dir (hplain _ (by decide))
  | bundle name =>
      obtain ⟨url, rfl⟩ := h
      exact inside_of_hex rt.digest _ dir (hplain "bundles" (by decide))
  | wasm name =>
      obtain ⟨url, rfl⟩ := h
      exact inside_of_hex rt.digest _ dir (hplain "wasm" (by decide))

end Whatspec.Store

import Whatspec.Fetch.WasmStore
import Whatspec.Store.Matching
import Whatspec.Store.RestorePaths

/-!
# Whether what a restore leaves is the locked set

A restore validates everything before it writes (`restore_actsLast`), writes below its
target only (`restore_writes_inside`), and into a cache leaves exactly the locked set
(`restore_cache_exact`).  Into a flat directory it leaves files with the locked names and
digests; the recorded sizes are compared for a cache only, so there the set is exact when
the sizes agree (`restore_flat_exact_iff`).
-/

namespace Whatspec.Store

open Whatspec.Library Whatspec.Text Whatspec.Fetch

variable {rt : Runtime}

/-! ### What exactness is -/

/-- The entries of a lock as label, digest and size.  A cache is labelled by URLs, a flat
directory of payloads by names; a bundle lock pins no file names. -/
def lockRows : LockFile → RestoreTarget → List (Option String × String × ℕ)
  | .bundles lock, .bundles => lock.bundles.map fun e => (none, e.sha256, e.size)
  | .bundles lock, .cache => lock.bundles.map fun e => (e.url, e.sha256, e.size)
  | .wasm lock, .bundles => lock.wasm.map fun e => (some e.fileName, e.sha256, e.size)
  | .wasm lock, .cache => lock.wasm.map fun e => (some e.url, e.sha256, e.size)

/-- The label of a name or URL, as `lockRows` labels entries. -/
def labelOf : LockFile → RestoreTarget → String → Option String
  | .bundles _, .bundles, _ => none
  | _, _, name => some name

/-- The extension of the files of a kind. -/
def LockFile.ext : LockFile → String
  | .bundles _ => "js"
  | .wasm _ => "wasm"

/-- A flat directory after some steps: `pairs` are the files the steps wrote, each holds
what its pair says, no other file has the extension, and the rest is as it was. -/
structure HoldsExactly (before : OutDisk) (steps : List RestoreStep) (after : OutDisk)
    (ext : String) (pairs : List (String × Bytes)) : Prop where
  wrote : ∀ n, n ∈ pairs.map Prod.fst ↔ RestoreStep.out (.truncate n) ∈ steps
  files : ∀ p ∈ pairs, after.file p.1 = some p.2
  nothingElse : ∀ n, extension n = some ext → after.file n ≠ none → n ∈ pairs.map Prod.fst
  kept : ∀ n, extension n ≠ some ext → n ∉ pairs.map Prod.fst → after.file n = before.file n

/-- What a run materialised, as (name or URL, bytes). -/
def Materialised (rt : Runtime) (lock : LockFile) (target : RestoreTarget)
    (t : Targets) (steps : List RestoreStep) (pairs : List (String × Bytes)) : Prop :=
  let t' := runSteps RestoreStep.applyTo steps t
  match target, lock with
  | .bundles, lock => HoldsExactly t.out steps t'.out lock.ext pairs
  | .cache, .bundles lock => ∃ bundles, check rt t'.cache lock.waVersion = .hit bundles ∧
      pairs = bundles.map fun b => (b.url, b.bytes)
  | .cache, .wasm lock =>
      pairs = (wasmPayloads rt t'.cache lock.waVersion).map fun b => (b.url, b.bytes)

/-- **The restored set is the locked set**: what was materialised has distinct names or
URLs, and is in bijection with the lock's entries, label, digest and size. -/
def RestoredExactly (rt : Runtime) (lock : LockFile) (target : RestoreTarget) (t : Targets)
    (steps : List RestoreStep) : Prop :=
  ∃ pairs, Materialised rt lock target t steps pairs ∧ (pairs.map Prod.fst).Nodup ∧
    (pairs.map fun p => (labelOf lock target p.1, sha256Hex rt.digest p.2, p.2.length)).Perm
      (lockRows lock target)

/-! ### Validation comes first -/

theorem writeBundles_actsLast (listing : List String) (files : List (String × Bytes))
    (ext : String) : (writeBundles listing files ext).ActsLast := by
  refine Action.ActsLast.check_bind _ fun _ _ => ?_
  intro e he
  cases he

theorem writeCache_actsLast (d : CacheDisk) (l : Listings) (files : List (String × Bytes))
    (hashes : List String) (lock : BundleLock) :
    (writeCache rt d l files hashes lock).ActsLast := by
  refine Action.ActsLast.check_bind _ fun _ _ => ?_
  exact Action.ActsLast.emit_pure _ _

theorem attachWasm_actsLast (dir : String) (d : CacheDisk) (l : Listings)
    (payloads : List Bundle) (lock : WasmLock) :
    (attachWasm rt dir d l payloads lock).ActsLast := by
  refine Action.ActsLast.check_bind _ fun _ _ => ?_
  exact Action.ActsLast.emit_pure _ _

/-- **Validation first.**  A restore that failed has changed nothing. -/
theorem restore_actsLast (dir : String) (t : Targets) (l : Listings) (lock : LockFile)
    (target : RestoreTarget) (archive : Except String (List TarEntry)) :
    (restore rt dir t l lock target archive).ActsLast := by
  cases lock with
  | bundles lock =>
      refine Action.ActsLast.check_bind _ fun _ _ => ?_
      refine Action.ActsLast.check_bind _ fun _ _ => ?_
      refine Action.ActsLast.check_bind _ fun entries _ => ?_
      refine Action.ActsLast.check_bind _ fun files _ => ?_
      refine Action.ActsLast.check_bind _ fun hashes _ => ?_
      cases target with
      | bundles => exact writeBundles_actsLast _ _ _
      | cache => exact writeCache_actsLast _ _ _ _ _
  | wasm lock =>
      refine Action.ActsLast.check_bind _ fun _ _ => ?_
      refine Action.ActsLast.check_bind _ fun entries _ => ?_
      refine Action.ActsLast.check_bind _ fun files _ => ?_
      refine Action.ActsLast.check_bind _ fun hashes _ => ?_
      cases target with
      | bundles => exact Action.ActsLast.check_bind _ fun _ _ => writeBundles_actsLast _ _ _
      | cache => exact Action.ActsLast.check_bind _ fun _ _ => attachWasm_actsLast _ _ _ _ _

/-! ### The steps of a run that succeeded -/

theorem run_out (es : List OutStep) (t : Targets) :
    runSteps RestoreStep.applyTo (es.map .out) t = { t with out := t.out.run es } := by
  induction es generalizing t with
  | nil => rfl
  | cons e es ih => exact ih { t with out := e.applyTo t.out }

theorem run_cache (es : List CacheStep) (t : Targets) :
    runSteps RestoreStep.applyTo (es.map .cache) t = { t with cache := t.cache.run es } := by
  induction es generalizing t with
  | nil => rfl
  | cons e es ih => exact ih { t with cache := e.applyTo t.cache }

/-- The steps that fill a flat directory. -/
def flatSteps (listing : List String) (files : List (String × Bytes)) (ext : String) :
    List OutStep :=
  .makeDir () :: (listing.filter fun n => extension n = some ext).map .removeFile ++
    writeFiles files

theorem writeBundles_ok {listing : List String} {files : List (String × Bytes)} {ext : String}
    (h : checkNames [] files = .ok ()) :
    (writeBundles listing files ext).outcome = .ok files.length ∧
      (writeBundles listing files ext).steps = (flatSteps listing files ext).map .out := by
  rw [writeBundles, Action.check_bind_ok h]
  refine ⟨rfl, ?_⟩
  rw [Action.emit_bind_steps, Action.emit_bind_steps, Action.emit_bind_steps, flatSteps,
    List.map_append, List.map_cons, List.map_map]
  show _ ++ (_ ++ (_ ++ [])) = _
  rw [List.append_nil]
  rfl

theorem checkNames_of_writeBundles {listing : List String} {files : List (String × Bytes)}
    {ext : String} {n : ℕ} (h : (writeBundles listing files ext).outcome = .ok n) :
    checkNames [] files = .ok () := by
  obtain ⟨_, hnames, _⟩ := Action.check_bind_outcome h
  exact hnames

/-- **What filling a flat directory leaves.** -/
theorem holdsExactly_flat {listing : List String} {files : List (String × Bytes)}
    (ext : String) (hnames : checkNames [] files = .ok ()) (t : Targets)
    (hlisting : ∀ n, t.out.file n ≠ none → n ∈ listing) :
    HoldsExactly t.out ((flatSteps listing files ext).map .out)
      (t.out.run (flatSteps listing files ext)) ext files := by
  have hnodup : (files.map Prod.fst).Nodup := (checkNames_ok_iff.mp hnames).1
  let stale := listing.filter fun n => extension n = some ext
  let swept := (DiskStep.applyTo (DiskStep.makeDir ()) t.out).run (stale.map .removeFile)
  have hrun : t.out.run (flatSteps listing files ext) = swept.run (writeFiles files) := by
    rw [flatSteps, Disk.run, runSteps_append]
    rfl
  have hswept : ∀ n, swept.file n = if n ∈ stale then none else t.out.file n :=
    fun n => run_removeFiles stale _ n
  have hother : ∀ n, n ∉ files.map Prod.fst →
      (t.out.run (flatSteps listing files ext)).file n = swept.file n := by
    intro n hn
    rw [hrun, run_writeFiles_of_not_mem hn]
  refine ⟨fun n => ?_, fun p hp => ?_, fun n hext hfile => ?_, fun n hext hn => ?_⟩
  · rw [List.mem_map, List.mem_map]
    constructor
    · intro hmem
      obtain ⟨p, hp, rfl⟩ := hmem
      refine ⟨.truncate p.1, ?_, rfl⟩
      apply List.mem_append_right
      exact List.mem_flatMap.mpr ⟨p, hp, List.mem_cons_self⟩
    · intro hmem
      obtain ⟨e, he, heq⟩ := hmem
      cases heq
      rcases List.mem_append.mp he with hsweep | hwrite
      · rcases List.mem_cons.mp hsweep with hdir | hremove
        · cases hdir
        · obtain ⟨_, _, heq⟩ := List.mem_map.mp hremove
          cases heq
      · obtain ⟨p, hp, hstep⟩ := List.mem_flatMap.mp hwrite
        exact ⟨p, hp, (writeFile_touches (g := n) hstep rfl).symm⟩
  · rw [hrun]
    exact run_writeFiles_file hnodup hp swept
  · by_contra hn
    apply hfile
    rw [hother n hn, hswept]
    by_cases hstale : n ∈ stale
    · exact if_pos hstale
    · rw [if_neg hstale]
      by_contra hpresent
      exact hstale (List.mem_filter.mpr ⟨hlisting n hpresent, decide_eq_true hext⟩)
  · have hstale : n ∉ stale := fun hmem =>
      hext (of_decide_eq_true (List.mem_filter.mp hmem).2)
    rw [hother n hn, hswept, if_neg hstale]

/-! ### A flat directory -/

/-- The archive holds these files. -/
def Unpacked (archive : Except String (List TarEntry)) (maxFiles : ℕ)
    (files : List (String × Bytes)) : Prop :=
  ∃ entries, archive = .ok entries ∧ readTar entries maxFiles = .ok files

/-- The checks of a restore into a flat directory pass: the archive holds `files`, and they
are to be written as `written`. -/
def PassesFlat (rt : Runtime) (archive : Except String (List TarEntry))
    (files written : List (String × Bytes)) : LockFile → Prop
  | .bundles lock =>
      lock.verifySelfConsistent rt.digest = .ok () ∧ Unpacked archive lock.bundleCount files ∧
        (∃ hashes, verifyMultiset rt files (lock.bundles.map (·.sha256)) lock.bundleCount
          "bundle" = .ok hashes) ∧
        written = files ∧ checkNames [] written = .ok ()
  | .wasm lock =>
      lock.verifySelfConsistent rt.digest = .ok () ∧ Unpacked archive lock.wasmCount files ∧
        (∃ hashes, verifyMultiset rt files (lock.wasm.map (·.sha256)) lock.wasmCount
          "wasm payload" = .ok hashes ∧ nameFromLock files hashes lock = .ok written) ∧
        checkNames [] written = .ok ()

theorem mapError_ok {ω ω' α : Type} {x : Except ω α} {f : ω → ω'} {v : α}
    (h : x.mapError f = .ok v) : x = .ok v := by
  cases x with
  | error e => cases h
  | ok w => cases h; rfl

theorem mapError_of_ok {ω ω' α : Type} {x : Except ω α} (f : ω → ω') {v : α}
    (h : x = .ok v) : x.mapError f = .ok v := by
  rw [h]
  rfl

theorem restore_of_passesFlat {dir : String} {t : Targets} {l : Listings} {lock : LockFile}
    {archive : Except String (List TarEntry)} {files written : List (String × Bytes)}
    (h : PassesFlat rt archive files written lock) :
    (restore rt dir t l lock .bundles archive).outcome = .ok written.length ∧
      (restore rt dir t l lock .bundles archive).steps =
        (flatSteps l.out written lock.ext).map .out := by
  cases lock with
  | bundles lock =>
      obtain ⟨hlock, ⟨entries, harchive, htar⟩, ⟨hashes, hverify⟩, rfl, hnames⟩ := h
      rw [restore, Action.check_bind_ok (mapError_of_ok _ hlock),
        Action.check_bind_ok (if_neg (by decide)),
        Action.check_bind_ok (mapError_of_ok _ harchive), Action.check_bind_ok htar,
        Action.check_bind_ok hverify]
      exact writeBundles_ok hnames
  | wasm lock =>
      obtain ⟨hlock, ⟨entries, harchive, htar⟩, ⟨hashes, hverify, hnamed⟩, hnames⟩ := h
      rw [restore, restoreWasm, Action.check_bind_ok (mapError_of_ok _ hlock),
        Action.check_bind_ok (mapError_of_ok _ harchive), Action.check_bind_ok htar,
        Action.check_bind_ok hverify]
      simp only [Action.check_bind_ok hnamed]
      exact writeBundles_ok hnames

theorem passesFlat_of_restore {dir : String} {t : Targets} {l : Listings} {lock : LockFile}
    {archive : Except String (List TarEntry)} {n : ℕ}
    (h : (restore rt dir t l lock .bundles archive).outcome = .ok n) :
    ∃ files written, PassesFlat rt archive files written lock := by
  cases lock with
  | bundles lock =>
      obtain ⟨_, hlock, h, _⟩ := Action.check_bind_outcome h
      obtain ⟨_, _, h, _⟩ := Action.check_bind_outcome h
      obtain ⟨entries, harchive, h, _⟩ := Action.check_bind_outcome h
      obtain ⟨files, htar, h, _⟩ := Action.check_bind_outcome h
      obtain ⟨hashes, hverify, h, _⟩ := Action.check_bind_outcome h
      exact ⟨files, files, mapError_ok hlock, ⟨entries, mapError_ok harchive, htar⟩,
        ⟨hashes, hverify⟩, rfl, checkNames_of_writeBundles h⟩
  | wasm lock =>
      obtain ⟨_, hlock, h, _⟩ := Action.check_bind_outcome h
      obtain ⟨entries, harchive, h, _⟩ := Action.check_bind_outcome h
      obtain ⟨files, htar, h, _⟩ := Action.check_bind_outcome h
      obtain ⟨hashes, hverify, h, _⟩ := Action.check_bind_outcome h
      obtain ⟨written, hnamed, h, _⟩ := Action.check_bind_outcome h
      exact ⟨files, written, mapError_ok hlock, ⟨entries, mapError_ok harchive, htar⟩,
        ⟨hashes, hverify, hnamed⟩, checkNames_of_writeBundles h⟩

/-- The digests and sizes a lock records. -/
def lockSizes (lock : LockFile) : List (String × ℕ) := (lockRows lock .bundles).map Prod.snd

/-- The labels and digests of what is written are the lock's. -/
theorem labels_of_passesFlat {archive : Except String (List TarEntry)}
    {files written : List (String × Bytes)} {lock : LockFile}
    (h : PassesFlat rt archive files written lock) :
    (written.map fun p => (labelOf lock .bundles p.1, sha256Hex rt.digest p.2)).Perm
        ((lockRows lock .bundles).map fun e => (e.1, e.2.1)) ∧
      written.map Prod.snd = files.map Prod.snd := by
  cases lock with
  | bundles lock =>
      obtain ⟨_, _, ⟨hashes, hverify⟩, rfl, _⟩ := h
      obtain ⟨rfl, hperm⟩ := verifyMultiset_ok hverify
      refine ⟨?_, rfl⟩
      have hlabelled := hperm.map fun sha => ((none : Option String), sha)
      rw [List.map_map, List.map_map] at hlabelled
      rw [lockRows, List.map_map]
      exact hlabelled
  | wasm lock =>
      obtain ⟨_, _, ⟨hashes, hverify, hnamed⟩, _⟩ := h
      obtain ⟨rfl, hperm⟩ := verifyMultiset_ok hverify
      obtain ⟨hnames, _, hbytes⟩ := nameFromLock_ok hperm hnamed
      refine ⟨?_, hbytes⟩
      have hlabelled := hnames.map fun p : String × String => (some p.1, p.2)
      rw [List.map_map, List.map_map] at hlabelled
      rw [lockRows, List.map_map]
      exact hlabelled

/-- Two listings of what the same steps wrote are the same up to order. -/
theorem HoldsExactly.perm {before after : OutDisk} {steps : List RestoreStep} {ext : String}
    {pairs pairs' : List (String × Bytes)} (h : HoldsExactly before steps after ext pairs)
    (h' : HoldsExactly before steps after ext pairs') (hnodup : (pairs.map Prod.fst).Nodup)
    (hnodup' : (pairs'.map Prod.fst).Nodup) : pairs.Perm pairs' := by
  apply (List.perm_ext_iff_of_nodup (hnodup.of_map _) (hnodup'.of_map _)).mpr
  have hsub : ∀ {ps qs : List (String × Bytes)}, HoldsExactly before steps after ext ps →
      HoldsExactly before steps after ext qs → ∀ p ∈ ps, p ∈ qs := by
    intro ps qs hps hqs p hp
    have hname := (hqs.wrote p.1).mpr ((hps.wrote p.1).mp (List.mem_map_of_mem hp))
    obtain ⟨q, hq, hpq⟩ := List.mem_map.mp hname
    have hbytes : some q.2 = some p.2 := by
      rw [← hqs.files q hq, ← hps.files p hp, hpq]
    rw [← Prod.ext hpq (Option.some.inj hbytes)]
    exact hq
  exact fun p => ⟨hsub h h' p, hsub h' h p⟩

/-- **A flat directory is exact when the sizes agree**, and only then. -/
theorem restore_flat_exact_iff (h : rt.Lawful) {dir : String} {t : Targets} {l : Listings}
    {lock : LockFile} {archive : Except String (List TarEntry)}
    {files written : List (String × Bytes)}
    (hlisting : ∀ n, t.out.file n ≠ none → n ∈ l.out)
    (hpasses : PassesFlat rt archive files written lock) :
    RestoredExactly rt lock .bundles t (restore rt dir t l lock .bundles archive).steps ↔
      SizesAgree rt (lockSizes lock) (files.map Prod.snd) := by
  have hnames : checkNames [] written = .ok () := by
    cases lock with
    | bundles lock => exact hpasses.2.2.2.2
    | wasm lock => exact hpasses.2.2.2
  have hnodup := (checkNames_ok_iff.mp hnames).1
  obtain ⟨hlabels, hbytes⟩ := labels_of_passesFlat hpasses
  have hrows := rows_perm_iff h (fun p => labelOf lock .bundles p.1) Prod.snd hlabels
  rw [hbytes] at hrows
  have hholds := holdsExactly_flat lock.ext hnames t hlisting
  rw [lockSizes, ← hrows, (restore_of_passesFlat hpasses).2, RestoredExactly]
  simp only [Materialised, run_out]
  constructor
  · intro hexact
    obtain ⟨pairs, hpairs, hpairsNodup, hperm⟩ := hexact
    exact ((hholds.perm hpairs hnodup hpairsNodup).map _).trans hperm
  · intro hperm
    exact ⟨written, hholds, hnodup, hperm⟩

/-! ### A cache -/

/-- Payloads with the wanted hashes and sizes, under the wanted URLs. -/
theorem cached_rows {bundles : List Bundle} {wanted : List (String × String × ℕ)}
    {rows : List (Option String × String × ℕ)}
    (h : (bundles.map fun b => (b.url, sha256Hex rt.digest b.bytes, b.bytes.length)).Perm wanted)
    (hurls : (wanted.map Prod.fst).Nodup) (hrows : wanted.map (fun w => (some w.1, w.2)) = rows) :
    (bundles.map Bundle.url).Nodup ∧ ((bundles.map fun b => (b.url, b.bytes)).map fun p =>
      (some p.1, sha256Hex rt.digest p.2, p.2.length)).Perm rows := by
  have hmap := h.map Prod.fst
  have hlabelled := h.map fun w => (some w.1, w.2)
  rw [List.map_map] at hmap hlabelled
  rw [hrows] at hlabelled
  rw [List.map_map]
  exact ⟨hmap.nodup_iff.mpr hurls, hlabelled⟩

/-- **The bundles put in a cache are the locked ones**, under distinct URLs. -/
theorem bundlesForCache_ok {files : List (String × Bytes)} {lock : BundleLock}
    {bundles : List Bundle}
    (h : bundlesForCache files (files.map fun f => sha256Hex rt.digest f.2) lock =
      .ok bundles) :
    (bundles.map Bundle.url).Nodup ∧
      ((bundles.map fun b => (b.url, b.bytes)).map fun p =>
          (some p.1, sha256Hex rt.digest p.2, p.2.length)).Perm
        (lockRows (.bundles lock) .cache) := by
  rw [bundlesForCache] at h
  cases hurls : preflightCacheLockUrls lock with
  | error e => rw [hurls] at h; cases h
  | ok u =>
      rw [hurls] at h
      obtain ⟨hsome, hnodup⟩ := checkUrls_ok hurls
      rw [List.map_map] at hnodup
      refine cached_rows (payloadsInOrder_ok h) (by rw [List.map_map]; exact hnodup) ?_
      rw [List.map_map, lockRows]
      refine List.map_congr_left fun e he => ?_
      obtain ⟨url, hurl, _⟩ := hsome _ (List.mem_map_of_mem he)
      have hurl : e.url = some url := hurl
      show (some (e.url.getD ""), e.sha256, e.size) = (e.url, e.sha256, e.size)
      rw [hurl]
      rfl

/-- **The payloads put in a cache are the locked ones**, under distinct URLs. -/
theorem payloadsForCache_ok {files : List (String × Bytes)} {lock : WasmLock}
    {payloads : List Bundle}
    (h : payloadsForCache files (files.map fun f => sha256Hex rt.digest f.2) lock =
      .ok payloads) :
    (payloads.map Bundle.url).Nodup ∧
      ((payloads.map fun b => (b.url, b.bytes)).map fun p =>
          (some p.1, sha256Hex rt.digest p.2, p.2.length)).Perm
        (lockRows (.wasm lock) .cache) := by
  rw [payloadsForCache] at h
  cases hurls : checkUrls [] (lock.wasm.map fun e => (some e.url, some e.sha256)) with
  | error e => rw [hurls] at h; cases h
  | ok u =>
      rw [hurls] at h
      obtain ⟨_, hnodup⟩ := checkUrls_ok hurls
      rw [List.map_map] at hnodup
      exact cached_rows (payloadsInOrder_ok h) (by rw [List.map_map]; exact hnodup) List.map_map

/-- The removals after a wasm commit spare what was stored. -/
theorem prunes_filter (listing : List String) (payloads : List Bundle) :
    Prunes rt payloads
      (listing.filter fun n => payloads.all fun b => n ≠ cacheFileName rt b.url) := by
  intro n hn b hb
  have hall := (List.mem_filter.mp hn).2
  rw [List.all_eq_true] at hall
  exact of_decide_eq_true (hall b hb)

theorem writeCache_ok {d : CacheDisk} {l : Listings} {files : List (String × Bytes)}
    {hashes : List String} {lock : BundleLock} {n : ℕ}
    (h : (writeCache rt d l files hashes lock).outcome = .ok n) :
    ∃ bundles, bundlesForCache files hashes lock = .ok bundles ∧
      (writeCache rt d l files hashes lock).steps =
        (storeSteps rt d l.cacheBundles l.cacheWasm lock.waVersion bundles).map .cache := by
  obtain ⟨bundles, hbundles, _, hsteps⟩ := Action.check_bind_outcome h
  refine ⟨bundles, hbundles, hsteps.trans ?_⟩
  rw [Action.emit_bind_steps]
  exact List.append_nil _

theorem attachWasm_ok {dir : String} {d : CacheDisk} {l : Listings} {payloads : List Bundle}
    {lock : WasmLock} {n : ℕ} (h : (attachWasm rt dir d l payloads lock).outcome = .ok n) :
    ∃ m handles pruned, attachable rt dir d lock.waVersion = .ok m ∧
      Prunes rt payloads pruned ∧ (attachWasm rt dir d l payloads lock).steps =
        (storeWasmSteps rt m payloads handles pruned).map .cache := by
  obtain ⟨m, hattach, _, hsteps⟩ := Action.check_bind_outcome h
  refine ⟨m, lockHandles lock, _, mapError_ok hattach, prunes_filter l.cacheWasm payloads,
    hsteps.trans ?_⟩
  simp only [Action.emit_bind_steps]
  exact List.append_nil _

/-- The steps of a restore of bundles into a cache that succeeded. -/
theorem restore_cache_bundles_ok {dir : String} {t : Targets} {l : Listings}
    {lock : BundleLock} {archive : Except String (List TarEntry)} {n : ℕ}
    (h : (restore rt dir t l (.bundles lock) .cache archive).outcome = .ok n) :
    ∃ files bundles,
      bundlesForCache files (files.map fun f => sha256Hex rt.digest f.2) lock = .ok bundles ∧
      (restore rt dir t l (.bundles lock) .cache archive).steps =
        (storeSteps rt t.cache l.cacheBundles l.cacheWasm lock.waVersion bundles).map
          .cache := by
  obtain ⟨_, _, h, h₁⟩ := Action.check_bind_outcome h
  obtain ⟨_, _, h, h₂⟩ := Action.check_bind_outcome h
  obtain ⟨entries, _, h, h₃⟩ := Action.check_bind_outcome h
  obtain ⟨files, _, h, h₄⟩ := Action.check_bind_outcome h
  obtain ⟨hashes, hverify, h, h₅⟩ := Action.check_bind_outcome h
  obtain ⟨rfl, _⟩ := verifyMultiset_ok hverify
  obtain ⟨bundles, hbundles, hsteps⟩ := writeCache_ok h
  exact ⟨files, bundles, hbundles,
    h₁.trans (h₂.trans (h₃.trans (h₄.trans (h₅.trans hsteps))))⟩

/-- The steps of a restore of wasm payloads into a cache that succeeded. -/
theorem restore_cache_wasm_ok {dir : String} {t : Targets} {l : Listings}
    {lock : WasmLock} {archive : Except String (List TarEntry)} {n : ℕ}
    (h : (restore rt dir t l (.wasm lock) .cache archive).outcome = .ok n) :
    ∃ files payloads m handles pruned,
      payloadsForCache files (files.map fun f => sha256Hex rt.digest f.2) lock =
        .ok payloads ∧
      attachable rt dir t.cache lock.waVersion = .ok m ∧ Prunes rt payloads pruned ∧
      (restore rt dir t l (.wasm lock) .cache archive).steps =
        (storeWasmSteps rt m payloads handles pruned).map .cache := by
  obtain ⟨_, _, h, h₁⟩ := Action.check_bind_outcome h
  obtain ⟨entries, _, h, h₂⟩ := Action.check_bind_outcome h
  obtain ⟨files, _, h, h₃⟩ := Action.check_bind_outcome h
  obtain ⟨hashes, hverify, h, h₄⟩ := Action.check_bind_outcome h
  obtain ⟨rfl, _⟩ := verifyMultiset_ok hverify
  obtain ⟨payloads, hpayloads, h, h₅⟩ := Action.check_bind_outcome h
  obtain ⟨m, handles, pruned, hattach, hprunes, hsteps⟩ := attachWasm_ok h
  exact ⟨files, payloads, m, handles, pruned, hpayloads, hattach, hprunes,
    h₁.trans (h₂.trans (h₃.trans (h₄.trans (h₅.trans hsteps))))⟩

/-- **A cache is exact.**  A restore into a cache that succeeded leaves the locked set. -/
theorem restore_cache_exact (h : rt.Lawful) {dir : String} {t : Targets} {l : Listings}
    {lock : LockFile} {archive : Except String (List TarEntry)} {n : ℕ}
    (hok : (restore rt dir t l lock .cache archive).outcome = .ok n) :
    RestoredExactly rt lock .cache t (restore rt dir t l lock .cache archive).steps := by
  cases lock with
  | bundles lock =>
      obtain ⟨files, bundles, hbundles, hsteps⟩ := restore_cache_bundles_ok hok
      obtain ⟨hurls, hrows⟩ := bundlesForCache_ok hbundles
      refine ⟨bundles.map fun b : Bundle => (b.url, b.bytes), ⟨bundles, ?_, rfl⟩, ?_, hrows⟩
      · rw [hsteps, run_cache]
        exact check_after_store h t.cache l.cacheBundles l.cacheWasm lock.waVersion hurls
      · rw [List.map_map]
        exact hurls
  | wasm lock =>
      obtain ⟨files, payloads, m, handles, pruned, hpayloads, hattach, hprunes, hsteps⟩ :=
        restore_cache_wasm_ok hok
      obtain ⟨hurls, hrows⟩ := payloadsForCache_ok hpayloads
      refine ⟨payloads.map fun b : Bundle => (b.url, b.bytes), ?_, ?_, hrows⟩
      · have hload := wasmPayloads_after_storeWasm h hattach hurls handles hprunes
        show _ = (wasmPayloads rt _ lock.waVersion).map _
        rw [hsteps, run_cache, hload]
      · rw [List.map_map]
        exact hurls

/-! ### Where a run writes -/

/-- The names written into a flat directory are plain. -/
theorem plainName_of_passesFlat {archive : Except String (List TarEntry)}
    {files written : List (String × Bytes)} {lock : LockFile}
    (h : PassesFlat rt archive files written lock) : ∀ p ∈ written, PlainName p.1 := by
  cases lock with
  | bundles lock =>
      obtain ⟨_, ⟨entries, _, htar⟩, _, rfl, _⟩ := h
      exact readTar_plain htar
  | wasm lock =>
      obtain ⟨_, _, ⟨hashes, hverify, hnamed⟩, _⟩ := h
      obtain ⟨rfl, hperm⟩ := verifyMultiset_ok hverify
      obtain ⟨hnames, hsafe, _⟩ := nameFromLock_ok hperm hnamed
      intro p hp
      obtain ⟨e, he, heq⟩ := List.mem_map.mp (hnames.mem_iff.mp (List.mem_map_of_mem hp))
      have hname : e.fileName = p.1 := congrArg Prod.fst heq
      rw [← hname]
      exact plainName_of_safe (hsafe e he)

theorem flatSteps_writes {listing : List String} {files : List (String × Bytes)}
    {ext : String} {e : OutStep} (he : e ∈ flatSteps listing files ext) {f : String}
    (hf : DiskStep.writesTo e = some f) : ∃ p ∈ files, p.1 = f := by
  rcases List.mem_append.mp he with hsweep | hwrite
  · rcases List.mem_cons.mp hsweep with rfl | hremove
    · cases hf
    · obtain ⟨n, _, rfl⟩ := List.mem_map.mp hremove
      cases hf
  · obtain ⟨p, hp, hstep⟩ := List.mem_flatMap.mp hwrite
    refine ⟨p, hp, ?_⟩
    rcases List.mem_cons.mp hstep with rfl | happ
    · exact Option.some.inj hf
    · obtain ⟨b, _, rfl⟩ := List.mem_map.mp happ
      exact Option.some.inj hf

/-- **Every path a restore writes is inside its target.** -/
theorem restore_writes_inside {dir : String} {t : Targets} {l : Listings} {lock : LockFile}
    {target : RestoreTarget} {archive : Except String (List TarEntry)} :
    ∀ s ∈ (restore rt dir t l lock target archive).steps, ∀ path,
      s.writtenPath dir = some path → Inside dir path := by
  cases hout : (restore rt dir t l lock target archive).outcome with
  | error e =>
      intro s hs
      rw [restore_actsLast dir t l lock target archive e hout] at hs
      cases hs
  | ok n =>
      intro s hs path hpath
      cases target with
      | bundles =>
          obtain ⟨files, written, hpasses⟩ := passesFlat_of_restore hout
          rw [(restore_of_passesFlat hpasses).2] at hs
          obtain ⟨e, he, rfl⟩ := List.mem_map.mp hs
          obtain ⟨f, hf, rfl⟩ := Option.map_eq_some_iff.mp hpath
          obtain ⟨p, hp, rfl⟩ := flatSteps_writes he hf
          exact inside_of_plainName dir (plainName_of_passesFlat hpasses p hp)
      | cache =>
          cases lock with
          | bundles lock =>
              obtain ⟨files, bundles, _, hsteps⟩ := restore_cache_bundles_ok hout
              rw [hsteps] at hs
              obtain ⟨e, he, rfl⟩ := List.mem_map.mp hs
              obtain ⟨f, hf, rfl⟩ := Option.map_eq_some_iff.mp hpath
              exact inside_of_storeFile dir (storeFile_of_store he hf)
          | wasm lock =>
              obtain ⟨_, _, _, _, _, _, _, _, hsteps⟩ := restore_cache_wasm_ok hout
              rw [hsteps] at hs
              obtain ⟨e, he, rfl⟩ := List.mem_map.mp hs
              obtain ⟨f, hf, rfl⟩ := Option.map_eq_some_iff.mp hpath
              exact inside_of_storeFile dir (storeFile_of_storeWasm he hf)

/-! ### Every restore -/

/-- What a locked restore promises: what it leaves on success is the locked set, every path
it writes is inside its target, and a refused restore has taken no step. -/
def KeepsPromise (rt : Runtime) (dir : String) (t : Targets) (l : Listings) (lock : LockFile)
    (target : RestoreTarget) (archive : Except String (List TarEntry)) : Prop :=
  let run := restore rt dir t l lock target archive
  (∀ n, run.outcome = .ok n → RestoredExactly rt lock target t run.steps) ∧
    (∀ s ∈ run.steps, ∀ path, s.writtenPath dir = some path → Inside dir path) ∧
    ∀ e, run.outcome = .error e → run.steps = []

/-- **When a restore keeps its promise.**  Into a cache always; into a flat directory when,
for files that pass its checks, every recorded size is the size of the file with the
digest it is recorded for. -/
theorem restore_keepsPromise_iff (h : rt.Lawful) (dir : String) (t : Targets) (l : Listings)
    (hlisting : ∀ n, t.out.file n ≠ none → n ∈ l.out) (lock : LockFile)
    (target : RestoreTarget) (archive : Except String (List TarEntry)) :
    KeepsPromise rt dir t l lock target archive ↔
      (target = .bundles → ∀ files written, PassesFlat rt archive files written lock →
        SizesAgree rt (lockSizes lock) (files.map Prod.snd)) := by
  constructor
  · intro hpromise htarget files written hpasses
    subst htarget
    have hexact := hpromise.1 _ (restore_of_passesFlat hpasses).1
    exact (restore_flat_exact_iff h hlisting hpasses).mp hexact
  · intro hsizes
    refine ⟨fun n hok => ?_, restore_writes_inside, fun e he => ?_⟩
    · cases target with
      | bundles =>
          obtain ⟨files, written, hpasses⟩ := passesFlat_of_restore hok
          exact (restore_flat_exact_iff h hlisting hpasses).mpr
            (hsizes rfl files written hpasses)
      | cache => exact restore_cache_exact h hok
    · exact restore_actsLast dir t l lock target archive e he

/-! ### A bundle of five bytes -/

/-- A lock of the bundle `alpha` that records some size, with its fingerprint. -/
def alphaLock (size : ℕ) (setHash : String) : BundleLock :=
  ⟨"2.3000.1", setHash, 1,
    [⟨"8ed3f6ad685b959ead7022518e1af76cd816f8e8ec7ccdda1ed4018e8f2223f8", size,
      some "https://h/a.js"⟩]⟩

/-- The lock that records the bundle's size, and one that records six. -/
def fiveBytes : LockFile :=
  .bundles (alphaLock 5 "4a4dbe8985e634ed159fdc1685c7c7840d8badae3bb0c506f5b77c5a84d7aeb7")

def sixBytes : LockFile :=
  .bundles (alphaLock 6 "38eedaafd566da287a96003d59bc3b0760e80bd40ba3b90325a4f0124627c0ab")

/-- The archive of the bundle. -/
def alphaArchive : Except String (List TarEntry) :=
  .ok [⟨false, "./bundles/", []⟩, ⟨true, "./bundles/a.js", utf8 "alpha"⟩]

/-- An empty directory. -/
def emptyTargets : Targets := ⟨⟨fun _ => none, fun _ => true⟩, ⟨fun _ => none, fun _ => false⟩⟩

theorem passesFlat_fiveBytes :
    PassesFlat sampleRuntime alphaArchive [("a.js", utf8 "alpha")] [("a.js", utf8 "alpha")]
      fiveBytes :=
  ⟨by decide +kernel, ⟨_, rfl, by decide +kernel⟩,
    ⟨_, verifyMultiset_of_perm (List.Perm.of_eq (by decide +kernel))⟩, rfl, by decide⟩

theorem passesFlat_sixBytes :
    PassesFlat sampleRuntime alphaArchive [("a.js", utf8 "alpha")] [("a.js", utf8 "alpha")]
      sixBytes :=
  ⟨by decide +kernel, ⟨_, rfl, by decide +kernel⟩,
    ⟨_, verifyMultiset_of_perm (List.Perm.of_eq (by decide +kernel))⟩, rfl, by decide⟩

/-- The lock with the right size passes the checks and is restored exactly. -/
theorem restore_keepsPromise_fiveBytes :
    PassesFlat sampleRuntime alphaArchive [("a.js", utf8 "alpha")] [("a.js", utf8 "alpha")]
        fiveBytes ∧
      KeepsPromise sampleRuntime "out" emptyTargets ⟨[], [], []⟩ fiveBytes .bundles
        alphaArchive := by
  refine ⟨passesFlat_fiveBytes, ?_⟩
  apply (restore_keepsPromise_iff sampleRuntime_lawful "out" emptyTargets ⟨[], [], []⟩
    (fun n hn => absurd rfl hn) fiveBytes .bundles alphaArchive).mpr
  intro _ files written hpasses e he b hb hsha
  obtain ⟨_, ⟨entries, hentries, htar⟩, _, _, _⟩ := hpasses
  cases hentries
  have hfiles : readTar [⟨false, "./bundles/", []⟩, ⟨true, "./bundles/a.js", utf8 "alpha"⟩]
      1 = .ok [("a.js", utf8 "alpha")] := by decide +kernel
  have hsame : [("a.js", utf8 "alpha")] = files := by
    injection hfiles.symm.trans htar
  rw [← hsame] at hb
  rw [List.mem_singleton.mp hb, List.mem_singleton.mp he]
  rfl

/-- **A wrong size passes into a directory.**  The lock is self-consistent and its digest is
the bundle's, so the restore succeeds, with five bytes where the lock records six. -/
theorem restore_breaksPromise_sixBytes :
    ¬ KeepsPromise sampleRuntime "out" emptyTargets ⟨[], [], []⟩ sixBytes .bundles
      alphaArchive := by
  intro hpromise
  have hexact := hpromise.1 _ (restore_of_passesFlat passesFlat_sixBytes).1
  have hsizes := (restore_flat_exact_iff sampleRuntime_lawful (fun n hn => absurd rfl hn)
    passesFlat_sixBytes).mp hexact
  have hsize := hsizes ("8ed3f6ad685b959ead7022518e1af76cd816f8e8ec7ccdda1ed4018e8f2223f8", 6)
    List.mem_cons_self (utf8 "alpha") List.mem_cons_self (by decide +kernel)
  exact absurd hsize (by decide)

end Whatspec.Store

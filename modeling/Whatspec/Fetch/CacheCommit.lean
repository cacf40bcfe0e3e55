import Whatspec.Fetch.KnownAnswers

/-!
# What a cache directory can claim after any history of interrupted operations

A history is any sequence of `store`, `storeWasm` and `clear`, each cut after any number of
its file-system steps.  The ghost state of `World` records, for each version, the bundle
list of the last `store` that ran to its commit.

The argument is one invariant, `RecordsLast`: whenever a manifest is in place, its bundle
list is the record of the last committed `store` of the version it names.  Only the rename
that ends a commit puts a manifest in place, and every other step leaves the one that is
there or takes it away.  A hit then compares bytes with that record by size and digest.
-/

namespace Whatspec.Fetch

open Whatspec.Library Whatspec.Text

/-- A cache directory, and for each version what its last committed `store` was given. -/
structure World where
  disk : CacheDisk
  last : String → Option (List Bundle)

variable {rt : Runtime} {dir : String}

/-- One operation on the directory, cut after `k` of its steps or run to its end. -/
inductive Attempt (rt : Runtime) (dir : String) : World → World → Prop
  | storeCut (w : World) (v : String) (bundles : List Bundle) (bundleNames wasmNames : List String)
      (k : ℕ) (hb : Lists w.disk .bundle bundleNames) (hw : Lists w.disk .wasm wasmNames)
      (hcut : k < (storeSteps rt w.disk bundleNames wasmNames v bundles).length) :
      Attempt rt dir w
        ⟨w.disk.run ((storeSteps rt w.disk bundleNames wasmNames v bundles).take k), w.last⟩
  | storeCommitted (w : World) (v : String) (bundles : List Bundle)
      (bundleNames wasmNames : List String)
      (hb : Lists w.disk .bundle bundleNames) (hw : Lists w.disk .wasm wasmNames) :
      Attempt rt dir w
        ⟨w.disk.run (storeSteps rt w.disk bundleNames wasmNames v bundles),
          Function.update w.last v (some bundles)⟩
  | storeWasm (w : World) (v : String) (wasm : List Bundle) (handles : List (String × String))
      (m : CacheManifest) (pruned : List String) (k : ℕ)
      (hattach : attachable rt dir w.disk v = .ok m) (hprunes : Prunes rt wasm pruned) :
      Attempt rt dir w
        ⟨w.disk.run ((storeWasmSteps rt m wasm handles pruned).take k), w.last⟩
  | storeWasmRefused (w : World) (v why : String)
      (hattach : attachable rt dir w.disk v = .error why) : Attempt rt dir w w
  | clear (w : World) (bundleNames wasmNames : List String) (k : ℕ)
      (hb : Lists w.disk .bundle bundleNames) (hw : Lists w.disk .wasm wasmNames) :
      Attempt rt dir w
        ⟨w.disk.run ((clearSteps w.disk bundleNames wasmNames).take k), w.last⟩

/-- The worlds a directory with no manifest can reach. -/
inductive Run (rt : Runtime) (dir : String) : World → Prop
  | fresh (d : CacheDisk) (h : d.file .manifest = none) : Run rt dir ⟨d, fun _ => none⟩
  | attempt {w w' : World} : Run rt dir w → Attempt rt dir w w' → Run rt dir w'

/-! ### The manifest through a list of steps -/

/-- A step that can only take the manifest away. -/
def SparesManifest (e : CacheStep) : Prop := e.touches .manifest → e = .removeFile .manifest

theorem manifest_kept_or_gone {es : List CacheStep} (h : ∀ e ∈ es, SparesManifest e)
    (d : CacheDisk) :
    (d.run es).file .manifest = d.file .manifest ∨ (d.run es).file .manifest = none := by
  apply runSteps_invariant DiskStep.applyTo
    (fun t : CacheDisk => t.file .manifest = d.file .manifest ∨ t.file .manifest = none)
  · intro e he t ht
    by_cases htouch : e.touches .manifest
    · rw [h e he htouch]
      exact Or.inr (by simp [DiskStep.applyTo])
    · rw [DiskStep.applyTo_file_of_not_touches htouch]
      exact ht
  · exact Or.inl rfl

theorem sparesManifest_removeDirAll {d : CacheDisk} {p : CacheDir} {place : String → CacheFile}
    {names : List String} (hplace : ∀ n, place n ≠ .manifest) :
    ∀ e ∈ removeDirAllSteps d p place names, SparesManifest e := by
  intro e he htouch
  unfold removeDirAllSteps at he
  split at he
  · rcases List.mem_append.mp he with hfile | hdir
    · obtain ⟨n, _, rfl⟩ := List.mem_map.mp hfile
      exact absurd htouch.symm (hplace n)
    · rw [List.mem_singleton.mp hdir] at htouch
      exact htouch.elim
  · cases he

theorem sparesManifest_clear {d : CacheDisk} {bundleNames wasmNames : List String} :
    ∀ e ∈ clearSteps d bundleNames wasmNames, SparesManifest e := by
  intro e he
  rw [clearSteps, List.append_assoc] at he
  rcases List.mem_append.mp he with hm | hdirs
  · intro _
    split at hm
    · exact List.mem_singleton.mp hm
    · cases hm
  · rcases List.mem_append.mp hdirs with hb | hw
    · exact sparesManifest_removeDirAll (fun _ => by simp) e hb
    · exact sparesManifest_removeDirAll (fun _ => by simp) e hw

theorem writeSet_touches {bundles : List Bundle} {p : CacheDir} {place : String → CacheFile}
    {e : CacheStep} (he : e ∈ writeSetSteps rt bundles p place) {f : CacheFile}
    (h : e.touches f) : ∃ b ∈ bundles, f = place (cacheFileName rt b.url) := by
  rcases List.mem_cons.mp he with rfl | hwrite
  · exact h.elim
  · obtain ⟨b, hb, hstep⟩ := List.mem_flatMap.mp hwrite
    exact ⟨b, hb, writeFile_touches hstep h⟩

/-- Everything a `store` does before the rename that commits it. -/
def storePrelude (rt : Runtime) (d : CacheDisk) (bundleNames wasmNames : List String)
    (v : String) (bundles : List Bundle) : List CacheStep :=
  clearSteps d bundleNames wasmNames ++ writeSetSteps rt bundles .bundles .bundle ++
    writeFile .manifestTmp (utf8 (rt.toStringPretty (storeManifest rt v bundles) ++ "\n"))

theorem storeSteps_eq (d : CacheDisk) (bundleNames wasmNames : List String) (v : String)
    (bundles : List Bundle) :
    storeSteps rt d bundleNames wasmNames v bundles =
      storePrelude rt d bundleNames wasmNames v bundles ++ [.rename .manifestTmp .manifest] := by
  simp only [storeSteps, storePrelude, writeManifestSteps, List.append_assoc]

theorem sparesManifest_storePrelude {d : CacheDisk} {bundleNames wasmNames : List String}
    {v : String} {bundles : List Bundle} :
    ∀ e ∈ storePrelude rt d bundleNames wasmNames v bundles, SparesManifest e := by
  intro e he
  rcases List.mem_append.mp he with hfront | htmp
  · rcases List.mem_append.mp hfront with hclear | hset
    · exact sparesManifest_clear e hclear
    · intro htouch
      obtain ⟨b, _, hname⟩ := writeSet_touches hset htouch
      cases hname
  · intro htouch
    cases writeFile_touches htmp htouch

/-- Everything a `storeWasm` does before the rename that commits it. -/
def storeWasmPrelude (rt : Runtime) (m : CacheManifest) (wasm : List Bundle)
    (handles : List (String × String)) : List CacheStep :=
  writeSetSteps rt wasm .wasm .wasm ++
    writeFile .manifestTmp
      (utf8 (rt.toStringPretty (storeWasmManifest rt m wasm handles) ++ "\n"))

theorem commitWasmSteps_eq (m : CacheManifest) (wasm : List Bundle)
    (handles : List (String × String)) :
    commitWasmSteps rt m wasm handles =
      storeWasmPrelude rt m wasm handles ++ [.rename .manifestTmp .manifest] := by
  simp only [commitWasmSteps, storeWasmPrelude, writeManifestSteps, List.append_assoc]

theorem storeWasmPrelude_untouched {m : CacheManifest} {wasm : List Bundle}
    {handles : List (String × String)} :
    ∀ e ∈ storeWasmPrelude rt m wasm handles, ¬ e.touches .manifest := by
  intro e he htouch
  rcases List.mem_append.mp he with hset | htmp
  · obtain ⟨b, _, hname⟩ := writeSet_touches hset htouch
    cases hname
  · cases writeFile_touches htmp htouch

/-- A manifest's text, once it is in place, is read back as that manifest. -/
theorem readManifest_of_text (h : rt.Lawful) {d : CacheDisk} {m : CacheManifest}
    (hfile : d.file .manifest = some (utf8 (rt.toStringPretty m ++ "\n"))) :
    readManifest rt d = some m := by
  rw [readManifest, hfile, Option.bind_some, readUtf8_utf8, Option.bind_some]
  exact h.fromStr_toStringPretty m

/-- **The commit.**  After a write of the temporary file and its rename, the manifest in
place is the one that was written. -/
theorem readManifest_commit (h : rt.Lawful) (d : CacheDisk) (m : CacheManifest)
    (es : List CacheStep) :
    readManifest rt (d.run (es ++
      writeFile .manifestTmp (utf8 (rt.toStringPretty m ++ "\n")) ++
        [.rename .manifestTmp .manifest])) = some m := by
  apply readManifest_of_text h
  rw [Disk.run, runSteps_append, runSteps_append]
  have htmp := run_writeFile (D := CacheDir) CacheFile.manifestTmp
    (utf8 (rt.toStringPretty m ++ "\n")) (d.run es)
  exact applyTo_rename_dst (by simp) htmp

/-! ### The invariant -/

/-- A manifest in place records what the last committed `store` of its version was given. -/
def RecordsLast (rt : Runtime) (w : World) : Prop :=
  ∀ m, readManifest rt w.disk = some m →
    ∃ bundles, w.last m.waVersion = some bundles ∧ m.bundles = bundles.map (entryOf rt)

theorem readManifest_congr {d d' : CacheDisk} (h : d'.file .manifest = d.file .manifest) :
    readManifest rt d' = readManifest rt d := by
  rw [readManifest, readManifest, h]

/-- Steps that at most remove the manifest keep the invariant. -/
theorem recordsLast_of_spares {w : World} (hinv : RecordsLast rt w) {es : List CacheStep}
    (h : ∀ e ∈ es, SparesManifest e) : RecordsLast rt ⟨w.disk.run es, w.last⟩ := by
  intro m hm
  rcases manifest_kept_or_gone h w.disk with hkept | hgone
  · exact hinv m ((readManifest_congr hkept).symm.trans hm)
  · simp [readManifest, hgone] at hm

theorem recordsLast_storeCommitted (h : rt.Lawful) (w : World) (v : String)
    (bundles : List Bundle) (bundleNames wasmNames : List String) :
    RecordsLast rt ⟨w.disk.run (storeSteps rt w.disk bundleNames wasmNames v bundles),
      Function.update w.last v (some bundles)⟩ := by
  intro m hm
  have hcommit := readManifest_commit h w.disk (storeManifest rt v bundles)
    (clearSteps w.disk bundleNames wasmNames ++ writeSetSteps rt bundles .bundles .bundle)
  rw [storeSteps_eq, storePrelude] at hm
  have heq : storeManifest rt v bundles = m := Option.some.inj (hcommit.symm.trans hm)
  subst heq
  exact ⟨bundles, Function.update_self _ _ _, rfl⟩

/-- After a `storeWasm` cut anywhere, the manifest in place is the one before it, or the
one it commits. -/
theorem readManifest_storeWasm_cut (h : rt.Lawful) (d : CacheDisk) (m : CacheManifest)
    (wasm : List Bundle) (handles : List (String × String)) (pruned : List String) (k : ℕ) :
    (k < (commitWasmSteps rt m wasm handles).length →
      readManifest rt (d.run ((storeWasmSteps rt m wasm handles pruned).take k)) =
        readManifest rt d) ∧
    ((commitWasmSteps rt m wasm handles).length ≤ k →
      readManifest rt (d.run ((storeWasmSteps rt m wasm handles pruned).take k)) =
        some (storeWasmManifest rt m wasm handles)) := by
  constructor
  · intro hlt
    have htake : (storeWasmSteps rt m wasm handles pruned).take k =
        (storeWasmPrelude rt m wasm handles).take k := by
      rw [storeWasmSteps, commitWasmSteps_eq] at *
      simp only [List.length_append, List.length_singleton] at hlt
      rw [List.append_assoc, List.take_append_of_le_length (by omega)]
    rw [htake]
    apply readManifest_congr
    apply run_file_of_untouched
    exact fun e he => storeWasmPrelude_untouched e (List.mem_of_mem_take he)
  · intro hle
    rw [storeWasmSteps, List.take_append, List.take_of_length_le hle, Disk.run, runSteps_append]
    have hcommit := readManifest_commit h d (storeWasmManifest rt m wasm handles)
      (writeSetSteps rt wasm .wasm .wasm)
    rw [← hcommit, commitWasmSteps_eq, storeWasmPrelude]
    apply readManifest_congr
    apply run_file_of_untouched
    intro e he htouch
    obtain ⟨n, _, rfl⟩ := List.mem_map.mp (List.mem_of_mem_take he)
    cases htouch

theorem recordsLast_storeWasm (h : rt.Lawful) {w : World} (hinv : RecordsLast rt w) {v : String}
    {m : CacheManifest} (hattach : attachable rt dir w.disk v = .ok m) (wasm : List Bundle)
    (handles : List (String × String)) (pruned : List String) (k : ℕ) :
    RecordsLast rt ⟨w.disk.run ((storeWasmSteps rt m wasm handles pruned).take k), w.last⟩ := by
  obtain ⟨hbefore, hafter⟩ := readManifest_storeWasm_cut h w.disk m wasm handles pruned k
  intro m' hm'
  rcases Nat.lt_or_ge k (commitWasmSteps rt m wasm handles).length with hlt | hge
  · exact hinv m' ((hbefore hlt).symm.trans hm')
  · have heq : storeWasmManifest rt m wasm handles = m' :=
      Option.some.inj ((hafter hge).symm.trans hm')
    subst heq
    exact hinv m (attachable_ok_iff.mp hattach).1

/-- **One step.**  Every operation, cut anywhere, keeps the invariant. -/
theorem attempt_recordsLast (h : rt.Lawful) {w w' : World} (ha : Attempt rt dir w w')
    (hinv : RecordsLast rt w) : RecordsLast rt w' := by
  cases ha with
  | storeCut v bundles bundleNames wasmNames k hb hw hcut =>
      rw [storeSteps_eq, List.length_append, List.length_singleton] at hcut
      rw [storeSteps_eq, List.take_append_of_le_length (by omega)]
      exact recordsLast_of_spares hinv
        fun e he => sparesManifest_storePrelude e (List.mem_of_mem_take he)
  | storeCommitted v bundles bundleNames wasmNames hb hw =>
      exact recordsLast_storeCommitted h w v bundles bundleNames wasmNames
  | storeWasm v wasm handles m pruned k hattach hprunes =>
      exact recordsLast_storeWasm h hinv hattach wasm handles pruned k
  | storeWasmRefused v why hattach => exact hinv
  | clear bundleNames wasmNames k hb hw =>
      exact recordsLast_of_spares hinv
        fun e he => sparesManifest_clear e (List.mem_of_mem_take he)

/-- **Every run.**  The invariant holds of every world a directory can reach. -/
theorem run_recordsLast (h : rt.Lawful) {w : World} (hrun : Run rt dir w) :
    RecordsLast rt w := by
  induction hrun with
  | fresh d hd =>
      intro m hm
      simp [readManifest, hd] at hm
  | attempt _ ha ih => exact attempt_recordsLast h ha ih

/-! ### What a hit is -/

/-- **A hit is the last committed store.**  After any history of interrupted operations,
`check v` hits only with exactly the bundle list the last committed `store` of `v` was
given: the same files, in order, with the same bytes. -/
theorem check_hit_last_store (h : rt.Lawful) {w : World} (hrun : Run rt dir w) {v : String}
    {bundles : List Bundle} (hit : check rt w.disk v = .hit bundles) :
    w.last v = some bundles := by
  unfold check at hit
  cases hm : usableManifest rt w.disk v with
  | error miss =>
      rw [hm] at hit
      simp only at hit
      subst hit
      unfold usableManifest at hm
      split at hm
      · cases hm
      · split at hm
        · cases hm
        · split at hm <;> cases hm
  | ok m =>
      rw [hm] at hit
      obtain ⟨hread, _, hversion⟩ := usableManifest_ok_iff.mp hm
      obtain ⟨stored, hlast, hentries⟩ := run_recordsLast h hrun m hread
      simp only [hentries] at hit
      obtain ⟨_, rfl⟩ := (loadSet_entryOf_iff h).mp hit
      rw [← hversion]
      exact hlast

/-! ### A store that is not interrupted -/

/-- The writes of a set, as the list of file and contents that `writeFiles` takes. -/
def setWrites (rt : Runtime) (bundles : List Bundle) (place : String → CacheFile) :
    List (CacheFile × Bytes) :=
  bundles.map fun b => (place (cacheFileName rt b.url), b.bytes)

theorem writeSetSteps_eq (bundles : List Bundle) (p : CacheDir) (place : String → CacheFile) :
    writeSetSteps rt bundles p place = .makeDir p :: writeFiles (setWrites rt bundles place) := by
  rw [writeSetSteps, writeFiles, setWrites, List.flatMap_map]

/-- After a set with distinct URLs is written, every file of it is there, whole. -/
theorem run_writeSet_file (h : rt.Lawful) {bundles : List Bundle}
    (hurls : (bundles.map Bundle.url).Nodup) (p : CacheDir) {place : String → CacheFile}
    (hplace : Function.Injective place) (d : CacheDisk) {b : Bundle} (hb : b ∈ bundles) :
    (d.run (writeSetSteps rt bundles p place)).file (place (cacheFileName rt b.url)) =
      some b.bytes := by
  have hmem : (place (cacheFileName rt b.url), b.bytes) ∈ setWrites rt bundles place :=
    List.mem_map.mpr ⟨b, hb, rfl⟩
  have hnames : ((setWrites rt bundles place).map Prod.fst).Nodup := by
    have hfiles : (setWrites rt bundles place).map Prod.fst =
        (bundles.map Bundle.url).map fun url => place (cacheFileName rt url) := by
      rw [setWrites, List.map_map, List.map_map]
      rfl
    rw [hfiles]
    exact hurls.map (hplace.comp (cacheFileName_injective h))
  rw [writeSetSteps_eq]
  exact run_writeFiles_file hnames hmem (DiskStep.applyTo (.makeDir p) d)

/-- **A store that runs to its end is hit.** -/
theorem check_after_store (h : rt.Lawful) (d : CacheDisk) (bundleNames wasmNames : List String)
    (v : String) {bundles : List Bundle} (hurls : (bundles.map Bundle.url).Nodup) :
    check rt (d.run (storeSteps rt d bundleNames wasmNames v bundles)) v = .hit bundles := by
  have hcommit := readManifest_commit h d (storeManifest rt v bundles)
    (clearSteps d bundleNames wasmNames ++ writeSetSteps rt bundles .bundles .bundle)
  have husable : usableManifest rt (d.run (storeSteps rt d bundleNames wasmNames v bundles)) v =
      .ok (storeManifest rt v bundles) := by
    rw [storeSteps_eq, storePrelude]
    exact usableManifest_ok_iff.mpr ⟨hcommit, rfl, rfl⟩
  simp only [check, husable]
  apply (loadSet_entryOf_iff h).mpr
  refine ⟨fun b hb => ?_, rfl⟩
  have hplace : Function.Injective CacheFile.bundle := fun _ _ heq => by injection heq
  have hset := run_writeSet_file h hurls .bundles hplace
    (d.run (clearSteps d bundleNames wasmNames)) hb
  rw [storeSteps, Disk.run, runSteps_append, runSteps_append, ← hset]
  apply run_file_of_untouched
  intro e he htouch
  rcases List.mem_append.mp he with htmp | hrename
  · cases writeFile_touches htmp htouch
  · rw [List.mem_singleton.mp hrename] at htouch
    rcases htouch with heq | heq <;> cases heq

/-- A first store of one bundle into an empty directory, and the hit that follows it. -/
theorem check_hit_last_store_first :
    ∃ w : World, check sampleRuntime w.disk "2.3000.1" =
        .hit [⟨"https://h/a.js", "a.js", utf8 "alpha"⟩] ∧
      w.last "2.3000.1" = some [⟨"https://h/a.js", "a.js", utf8 "alpha"⟩] := by
  generalize hbundle : (⟨"https://h/a.js", "a.js", utf8 "alpha"⟩ : Bundle) = alpha
  generalize hempty : (⟨fun _ => none, fun _ => false⟩ : CacheDisk) = empty
  have hlists : ∀ place, Lists empty place [] := by
    subst hempty
    exact fun place n hn => absurd rfl hn
  have hfresh : Run sampleRuntime "cache" ⟨empty, fun _ => none⟩ :=
    Run.fresh empty (by rw [← hempty])
  have hrun := hfresh.attempt
    (.storeCommitted _ "2.3000.1" [alpha] [] [] (hlists _) (hlists _))
  have hurls : ([alpha].map Bundle.url).Nodup := List.nodup_singleton _
  have hhit := check_after_store sampleRuntime_lawful empty [] [] "2.3000.1" hurls
  exact ⟨_, hhit, check_hit_last_store sampleRuntime_lawful hrun hhit⟩

end Whatspec.Fetch

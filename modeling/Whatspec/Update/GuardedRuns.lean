import Whatspec.Update.Manifest

/-!
# Updates under the regression guard

An update writes its artifacts one after another, the manifest behind them and the locks last; it
can be killed at any file-system step.  Before it writes anything it compares its counts with the
manifest that it finds.

* `checkFloor_manifest`: against the manifest of a build, the guard finds nothing exactly when no
  guarded count fell and no operation lost its id to its name: every key the guard asks for is one
  that the manifest has, at the same place, with the same count;
* **`guarded_run`**: without `--allow-shrink`, no run of updates loses a guarded count, whichever
  of them are refused or killed on the way.
-/

namespace Whatspec.Update

open Whatspec.Library

variable {ν : Type}

/-! ### What the guard reads -/

/-- Counts under the same keys, none of them lower. -/
def AllLe (old new : List (String × ℕ)) : Prop :=
  List.Forall₂ (fun o n => o.1 = n.1 ∧ o.2 ≤ n.2) old new

theorem AllLe.refl (l : List (String × ℕ)) : AllLe l l :=
  List.forall₂_same.mpr fun _ _ => ⟨rfl, le_rfl⟩

theorem AllLe.trans {a b c : List (String × ℕ)} (h : AllLe a b) (h' : AllLe b c) : AllLe a c := by
  induction h generalizing c with
  | nil => exact h'
  | cons hab _ ih =>
    cases h' with
    | cons hbc hrest => exact .cons ⟨hab.1.trans hbc.1, hab.2.trans hbc.2⟩ (ih hrest)

/-- No guarded count is below the one before. -/
structure NotBelow (old new : Counts) : Prop where
  totals : AllLe (totals old) (totals new)
  wam : AllLe (wamChecks old) (wamChecks new)
  presenceAlways : old.mexPresenceAlways ≤ new.mexPresenceAlways
  docIdsExtracted : old.mexDocIdsExtracted ≤ new.mexDocIdsExtracted
  docIdsFromName : new.mexDocIdsFromName ≤ old.mexDocIdsFromName
  iq : AllLe (iqChecks old) (iqChecks new)
  targets : AllLe (targetChecks old) (targetChecks new)
  constraints : AllLe (constraintChecks old) (constraintChecks new)
  builder : AllLe (builderChecks old) (builderChecks new)
  notif : AllLe (notifChecks old) (notifChecks new)

theorem NotBelow.trans {a b c : Counts} (h : NotBelow a b) (h' : NotBelow b c) : NotBelow a c where
  totals := h.totals.trans h'.totals
  wam := h.wam.trans h'.wam
  presenceAlways := h.presenceAlways.trans h'.presenceAlways
  docIdsExtracted := h.docIdsExtracted.trans h'.docIdsExtracted
  docIdsFromName := h'.docIdsFromName.trans h.docIdsFromName
  iq := h.iq.trans h'.iq
  targets := h.targets.trans h'.targets
  constraints := h.constraints.trans h'.constraints
  builder := h.builder.trans h'.builder
  notif := h.notif.trans h'.notif

theorem NotBelow.refl (c : Counts) : NotBelow c c :=
  ⟨.refl _, .refl _, le_rfl, le_rfl, le_rfl, .refl _, .refl _, .refl _, .refl _, .refl _⟩

section Floor

variable (S : Serde ν)

theorem get_object {fields : List (String × Value ν)} (hnodup : (fields.map Prod.fst).Nodup)
    {key : String} {v : Value ν} (h : (key, v) ∈ fields) :
    get (object fields).val key = some v.val := by
  refine (SortedMap.get_collect ?_ key v.val).mpr (List.mem_map.mpr ⟨_, h, rfl⟩)
  rwa [List.map_map]

/-- A count that was written is read. -/
theorem prev_object {fields : List (String × Value ν)} (hnodup : (fields.map Prod.fst).Nodup)
    {key : String} {n : ℕ} (h : (key, S.count n) ∈ fields) :
    prev S (object fields).val key = some n := by
  rw [prev, get_object hnodup h]
  exact S.asU64_ofCount n

theorem dropped_cons (label : String) {prior : Json ν} {check : String × ℕ} {was : ℕ}
    (h : prev S prior check.1 = some was) (checks : List (String × ℕ)) :
    dropped S label prior (check :: checks) =
      (if check.2 < was then [regression (label ++ check.1) was check.2] else []) ++
        dropped S label prior checks := by
  rw [dropped, List.filterMap_cons, h]
  dsimp only
  split_ifs
  · rfl
  · rfl

/-- **The counts of one object**: none dropped exactly when none is lower. -/
theorem dropped_eq_nil_iff (label : String) {fields : List (String × Value ν)}
    (hnodup : (fields.map Prod.fst).Nodup) {old new : List (String × ℕ)}
    (hkeys : old.map Prod.fst = new.map Prod.fst)
    (hold : ∀ e ∈ old, (e.1, S.count e.2) ∈ fields) :
    dropped S label (object fields).val new = [] ↔ AllLe old new := by
  induction old generalizing new with
  | nil =>
    cases new with
    | nil => exact ⟨fun _ => .nil, fun _ => rfl⟩
    | cons n new => cases hkeys
  | cons o old ih =>
    cases new with
    | nil => cases hkeys
    | cons n new =>
      obtain ⟨hkey, hrest⟩ := List.cons.inj hkeys
      obtain ⟨hfirst, hmore⟩ := List.forall_mem_cons.mp hold
      have htail := ih hrest hmore
      have hprev : prev S (object fields).val n.1 = some o.2 := by
        rw [← hkey]
        exact prev_object S hnodup hfirst
      rw [AllLe, List.forall₂_cons, ← AllLe, ← htail, dropped_cons S label hprev,
        List.append_eq_nil_iff]
      have hhead : (if n.2 < o.2 then [regression (label ++ n.1) o.2 n.2] else []) = [] ↔
          o.1 = n.1 ∧ o.2 ≤ n.2 := by
        by_cases hlt : n.2 < o.2
        · simp [hlt, not_le.mpr hlt]
        · simp [hlt, not_lt.mp hlt, hkey]
      rw [hhead]

end Floor

/-! ### The manifest of a build, read by the guard -/

section Manifest

variable (S : Serde ν) (sha256 : Bytes → String)

theorem wam_dropped (b : Build) (c : Counts) :
    dropped S "wam." (b.wamJson S).val (wamChecks c) = [] ↔
      AllLe (wamChecks b.counts) (wamChecks c) :=
  dropped_eq_nil_iff S "wam." (by simp) rfl (by simp [wamChecks, Build.counts])

theorem notif_dropped (b : Build) (c : Counts) :
    dropped S "notif." (b.notifJson S).val (notifChecks c) = [] ↔
      AllLe (notifChecks b.counts) (notifChecks c) :=
  dropped_eq_nil_iff S "notif." (by simp) rfl (by simp [notifChecks, Build.counts])

theorem iq_dropped (b : Build) (c : Counts) :
    dropped S "iq." (iqJson S b.iqDiag).val (iqChecks c) = [] ↔
      AllLe (iqChecks b.counts) (iqChecks c) :=
  dropped_eq_nil_iff S "iq." (by simp) rfl (by simp [iqChecks, Build.counts])

theorem targets_dropped (b : Build) (c : Counts) :
    dropped S "iq.targets." (targetsJson S b.iqDiag.targets).val (targetChecks c) = [] ↔
      AllLe (targetChecks b.counts) (targetChecks c) :=
  dropped_eq_nil_iff S "iq.targets." (by simp) rfl (by simp [targetChecks, Build.counts])

theorem constraints_dropped (b : Build) (c : Counts) :
    dropped S "iq.constraints." (constraintsJson S b.iqDiag.constraints).val (constraintChecks c) =
      [] ↔ AllLe (constraintChecks b.counts) (constraintChecks c) :=
  dropped_eq_nil_iff S "iq.constraints." (by simp) rfl (by simp [constraintChecks, Build.counts])

theorem builder_dropped (b : Build) (c : Counts) :
    dropped S "iq.builder." (iqBuilderDiagnostics S b.iqDiag.builder).val (builderChecks c) = [] ↔
      AllLe (builderChecks b.counts) (builderChecks c) :=
  dropped_eq_nil_iff S "iq.builder." (by simp) rfl (by simp [builderChecks, Build.counts])

theorem iqDropped_eq_nil_iff (b : Build) (c : Counts) :
    iqDropped S (iqJson S b.iqDiag).val c = [] ↔
    AllLe (iqChecks b.counts) (iqChecks c) ∧ AllLe (targetChecks b.counts) (targetChecks c) ∧
      AllLe (constraintChecks b.counts) (constraintChecks c) ∧
      AllLe (builderChecks b.counts) (builderChecks c) := by
  have htargets : get (iqJson S b.iqDiag).val "targets" =
      some (targetsJson S b.iqDiag.targets).val := get_object (by simp) (by simp)
  have hconstraints : get (iqJson S b.iqDiag).val "constraints" =
      some (constraintsJson S b.iqDiag.constraints).val := get_object (by simp) (by simp)
  have hbuilder : get (iqJson S b.iqDiag).val "builder" =
      some (iqBuilderDiagnostics S b.iqDiag.builder).val := get_object (by simp) (by simp)
  rw [iqDropped, htargets, hconstraints, hbuilder]
  simp only [within, List.append_eq_nil_iff, iq_dropped S b c, targets_dropped S b c,
    constraints_dropped S b c, builder_dropped S b c, and_assoc]

theorem presence_dropped (b : Build) (c : Counts) :
    dropped S "mex." (mexJson S b.mexDiag).val [("presenceAlways", c.mexPresenceAlways)] = [] ↔
      b.counts.mexPresenceAlways ≤ c.mexPresenceAlways := by
  have hdropped : dropped S "mex." (mexJson S b.mexDiag).val
      [("presenceAlways", c.mexPresenceAlways)] = [] ↔
        AllLe [("presenceAlways", b.mexDiag.presenceAlways)]
          [("presenceAlways", c.mexPresenceAlways)] :=
    dropped_eq_nil_iff S "mex." (by simp) rfl (by simp)
  rw [hdropped]
  simp [AllLe, Build.counts]

theorem mexDropped_eq_nil_iff (b : Build) (c : Counts) :
    mexDropped S (mexJson S b.mexDiag).val c = [] ↔
      b.counts.mexPresenceAlways ≤ c.mexPresenceAlways ∧
        b.counts.mexDocIdsExtracted ≤ c.mexDocIdsExtracted ∧
        c.mexDocIdsFromName ≤ b.counts.mexDocIdsFromName := by
  have hinline : prev S (mexJson S b.mexDiag).val "docIdsInline" = some b.mexDiag.docIdsInline :=
    prev_object S (by simp) (by simp)
  have hsibling : prev S (mexJson S b.mexDiag).val "docIdsFromSibling" =
      some b.mexDiag.docIdsFromSibling := prev_object S (by simp) (by simp)
  have hname : prev S (mexJson S b.mexDiag).val "docIdsFromName" = some b.mexDiag.docIdsFromName :=
    prev_object S (by simp) (by simp)
  have hids : ["docIdsInline", "docIdsFromSibling"].filterMap (prev S (mexJson S b.mexDiag).val) =
      [b.mexDiag.docIdsInline, b.mexDiag.docIdsFromSibling] := by
    simp [hinline, hsibling]
  rw [mexDropped, hids, hname, List.append_eq_nil_iff, List.append_eq_nil_iff, and_assoc]
  refine and_congr (presence_dropped S b c) (and_congr ?_ ?_)
  · simp [Build.counts]
  · simp [Build.counts]

theorem nodup_manifestFields (b : Build) (domains : Value ν) :
    ((b.manifestFields S domains).map Prod.fst).Nodup := by
  simp [Build.manifestFields]

theorem totals_dropped (b : Build) (domains : Value ν) (c : Counts) :
    dropped S "" (object (b.manifestFields S domains)).val (totals c) = [] ↔
      AllLe (totals b.counts) (totals c) :=
  dropped_eq_nil_iff S "" (nodup_manifestFields S b domains) rfl
    (by simp [totals, Build.manifestFields])

/-- The object of a domain in a manifest. -/
theorem diagnosed_manifest (b : Build) (domains : Value ν) {d : String} {v : Json ν}
    (h : get (b.diagnostics S).val d = some v) :
    diagnosed (object (b.manifestFields S domains)).val d = some v := by
  have hget : get (object (b.manifestFields S domains)).val "diagnostics" =
      some (b.diagnostics S).val :=
    get_object (nodup_manifestFields S b domains) (by simp [Build.manifestFields])
  rw [diagnosed, hget]
  exact h

/-- **The guard against a manifest**: it finds nothing exactly when no guarded count fell. -/
theorem floorOf_manifest (b : Build) (c : Counts) {m : Value ν}
    (hm : b.manifest S sha256 = some m) : floorOf S m.val c = [] ↔ NotBelow b.counts c := by
  obtain ⟨domains, -, rfl⟩ := Option.map_eq_some_iff.mp hm
  have hwam := diagnosed_manifest S b domains (d := "wam") (v := (b.wamJson S).val)
    (get_object (by simp) (by simp))
  have hmex := diagnosed_manifest S b domains (d := "mex") (v := (mexJson S b.mexDiag).val)
    (get_object (by simp) (by simp))
  have hiq := diagnosed_manifest S b domains (d := "iq") (v := (iqJson S b.iqDiag).val)
    (get_object (by simp) (by simp))
  have hnotif := diagnosed_manifest S b domains (d := "notif") (v := (b.notifJson S).val)
    (get_object (by simp) (by simp))
  rw [floorOf, hwam, hmex, hiq, hnotif, List.append_eq_nil_iff, List.append_eq_nil_iff,
    List.append_eq_nil_iff, List.append_eq_nil_iff, totals_dropped S b domains c]
  simp only [within, wam_dropped S b c, mexDropped_eq_nil_iff S b c, iqDropped_eq_nil_iff S b c,
    notif_dropped S b c]
  constructor
  · intro h
    obtain ⟨⟨⟨⟨htotals, hwam⟩, hmex⟩, hiq⟩, hnotif⟩ := h
    exact ⟨htotals, hwam, hmex.1, hmex.2.1, hmex.2.2, hiq.1, hiq.2.1, hiq.2.2.1, hiq.2.2.2, hnotif⟩
  · intro h
    exact ⟨⟨⟨⟨h.totals, h.wam⟩, h.presenceAlways, h.docIdsExtracted, h.docIdsFromName⟩, h.iq,
      h.targets, h.constraints, h.builder⟩, h.notif⟩

/-- **The guard on a disk with a manifest.** -/
theorem checkFloor_manifest (b : Build) (c : Counts) (m : Value ν)
    (hm : b.manifest S sha256 = some m) :
    checkFloor S (some (S.toStringPretty m ++ [10])) c = [] ↔ NotBelow b.counts c := by
  have hfloor := floorOf_manifest S sha256 b c hm
  rw [checkFloor, Option.bind_some, S.fromStr_pretty]
  exact hfloor

end Manifest

/-! ### A build for the examples -/

/-- The compact text of a value, as bytes. -/
def compactText (v : Value ℕ) : Bytes := (String.ofList v.val.text).toUTF8.data.toList

theorem compactText_injective : Function.Injective compactText := by
  intro v w h
  have htext := congrArg (fun bytes : Bytes => (⟨bytes.toArray⟩ : ByteArray)) h
  exact Subtype.ext (Json.text_injective (String.ofList_injective (String.toByteArray_inj.mp htext)))

open Classical in
/-- A JSON library that prints compact texts and reads them back. -/
noncomputable def compactSerde : Serde ℕ where
  ofCount := id
  asU64 := some
  asU64_ofCount _ := rfl
  toStringPretty := compactText
  fromStr bytes := if h : ∃ v, compactText v ++ [10] = bytes then some h.choose else none
  fromStr_pretty v := by
    have hex : ∃ w, compactText w ++ [10] = compactText v ++ [10] := ⟨v, rfl⟩
    rw [dif_pos hex, compactText_injective (List.append_cancel_right hex.choose_spec)]

/-- A build that counts the same number everywhere, and no operation without an id. -/
def evenBuild (n : ℕ) : Build :=
  ⟨"2.3000.1", "0.1.0", "4.5.0",
    (neutral.map fun e => (e.2.1, [])) ++ validations.map fun e => (e.2.1, []), by decide,
    n, n, n, n, n, n, n, n, n, n, n, n, n, n, n, n, n, n, n, n,
    ⟨n, n, n, n, n, n, [], ⟨n, n, n⟩, ⟨n, n, n, n, n, n⟩, ⟨n, n, n, n, n, n, n, n, n, n⟩,
      ⟨n, n, n, n, n⟩⟩,
    ⟨n, n, n, n, n, n, n, n, n, n, []⟩, ⟨n, n, n, 0, n, n, n, n, n, ⟨n, n, n, n, n⟩⟩, [], []⟩

/-- A directory with the manifest of a build. -/
noncomputable def manifestDisk (b : Build) : OutDir where
  file f :=
    if f = manifestName then
      (b.manifest compactSerde fun _ => "").map fun m => compactSerde.toStringPretty m ++ [10]
    else none
  dir _ := false

theorem exists_manifest_evenBuild (n : ℕ) :
    ∃ m, (evenBuild n).manifest compactSerde (fun _ => "") = some m := by
  have hdomains : ∀ n, ((evenBuild n).domains (ν := ℕ) fun _ => "").isSome = true := fun _ => rfl
  obtain ⟨domains, h⟩ := Option.isSome_iff_exists.mp (hdomains n)
  exact ⟨_, congrArg _ h⟩

theorem checkFloor_evenBuild : ∃ m, (evenBuild 3).manifest compactSerde (fun _ => "") = some m ∧
    (checkFloor compactSerde (some (compactSerde.toStringPretty m ++ [10])) (evenBuild 2).counts =
      [] ↔ NotBelow (evenBuild 3).counts (evenBuild 2).counts) := by
  obtain ⟨m, hm⟩ := exists_manifest_evenBuild 3
  exact ⟨m, hm, checkFloor_manifest compactSerde _ (evenBuild 3) (evenBuild 2).counts m hm⟩

/-! ### Runs of updates -/

section Runs

variable (S : Serde ν) (sha256 : Bytes → String)

/-- A call that is not told to accept a reduction, and not killed while it writes the manifest. -/
structure Call.KeepsGuard (u : Call) : Prop where
  noShrink : u.allowShrink = false
  whole : ∀ k, u.cut = some k → k ≤ (writeFiles (D := Empty) u.build.artifacts).length ∨
    ∀ artifacts, buildArtifacts S sha256 u.build = some artifacts →
      (writeFiles (D := Empty) artifacts).length ≤ k

/-- The directory holds the manifest of a build. -/
def Holds (d : OutDir) (b : Build) : Prop :=
  ∃ m, b.manifest S sha256 = some m ∧ d.file manifestName = some (S.toStringPretty m ++ [10])

/-! #### What a call leaves -/

theorem writeFiles_append {F D : Type} (ws ws' : List (F × Bytes)) :
    (writeFiles (ws ++ ws') : List (DiskStep F D)) = writeFiles ws ++ writeFiles ws' :=
  List.flatMap_append

theorem Build.manifestName_not_mem (b : Build) : ∀ w ∈ b.artifacts, w.1 ≠ manifestName := by
  intro w hw heq
  have hslash := b.inDirectory w hw
  rw [heq] at hslash
  exact absurd hslash (by decide)

theorem LockFile.path_ne (l : LockFile) : l.path ≠ manifestName := by
  cases l <;> decide

/-- A call that is killed before the manifest leaves the one that was there. -/
theorem file_of_cut_early (u : Call) {artifacts : List (String × Bytes)} {bytes : Bytes}
    (hartifacts : artifacts = u.build.artifacts ++ [(manifestName, bytes)]) {k : ℕ}
    (hk : k ≤ (writeFiles (D := Empty) u.build.artifacts).length) (d : OutDir) :
    (d.run ((writeFiles (u.writes artifacts)).take k)).file manifestName =
      d.file manifestName := by
  rw [Call.writes, hartifacts, List.append_assoc, writeFiles_append,
    List.take_append_of_le_length hk, run_take_writeFiles,
    written_eq_none u.build.manifestName_not_mem, Option.none_or]

/-- A call that came past the manifest leaves its own. -/
theorem file_of_cut_late (u : Call) {artifacts : List (String × Bytes)} {bytes : Bytes}
    (hartifacts : artifacts = u.build.artifacts ++ [(manifestName, bytes)]) {k : ℕ}
    (hk : (writeFiles (D := Empty) artifacts).length ≤ k) (d : OutDir) :
    (d.run ((writeFiles (u.writes artifacts)).take k)).file manifestName = some bytes := by
  have hlocks : ∀ w ∈ u.locks.map (fun l => (l.1.path, l.2)), w.1 ≠ manifestName := by
    intro w hw
    obtain ⟨l, -, rfl⟩ := List.mem_map.mp hw
    exact l.1.path_ne
  have hmem : (manifestName, bytes) ∈ artifacts := by simp [hartifacts]
  obtain ⟨w, hw, hname, hwritten⟩ := written_all (D := Empty)
    (Nat.le_refl (writeFiles (D := Empty) artifacts).length) ⟨_, hmem, rfl⟩
  have hbytes : w.2 = bytes := by
    rw [hartifacts, List.mem_append, List.mem_singleton] at hw
    rcases hw with hw | rfl
    · exact absurd hname (u.build.manifestName_not_mem w hw)
    · rfl
  have hwhole := run_take_writeFiles artifacts (writeFiles (D := Empty) artifacts).length
    manifestName d
  rw [List.take_length, hwritten, Option.some_or, hbytes] at hwhole
  rw [Call.writes, writeFiles_append, List.take_append, List.take_of_length_le hk, Disk.run,
    runSteps_append]
  refine (run_take_writeFiles _ _ manifestName _).trans ?_
  rw [written_eq_none hlocks, Option.none_or]
  exact hwhole

/-- What a build writes, with the manifest last. -/
theorem exists_manifest {b : Build} {artifacts : List (String × Bytes)}
    (h : buildArtifacts S sha256 b = some artifacts) : ∃ m, b.manifest S sha256 = some m ∧
      artifacts = b.artifacts ++ [(manifestName, S.toStringPretty m ++ [10])] := by
  rw [buildArtifacts] at h
  split_ifs at h
  obtain ⟨m, hm, heq⟩ := Option.map_eq_some_iff.mp h
  exact ⟨m, hm, heq.symm⟩

theorem Call.after_eq {u : Call} {artifacts : List (String × Bytes)}
    (hbuild : buildArtifacts S sha256 u.build = some artifacts) {d : OutDir}
    (h : u.accepted S d) :
    u.after S sha256 d = d.run (cutAt u.cut (writeFiles (u.writes artifacts))) := by
  rw [Call.after, hbuild]
  exact if_pos h

theorem length_writes (u : Call) (artifacts : List (String × Bytes)) :
    (writeFiles (D := Empty) artifacts).length ≤
      (writeFiles (D := Empty) (u.writes artifacts)).length := by
  rw [Call.writes, writeFiles_append, List.length_append]
  exact Nat.le_add_right _ _

/-- **One call** keeps a manifest on the disk, of counts that are not below. -/
theorem Call.KeepsGuard.holds {u : Call} (hu : u.KeepsGuard S sha256) {d : OutDir} {b : Build}
    (h : Holds S sha256 d b) :
    ∃ b', Holds S sha256 (u.after S sha256 d) b' ∧ NotBelow b.counts b'.counts := by
  have hsame : ∃ b', Holds S sha256 d b' ∧ NotBelow b.counts b'.counts := ⟨b, h, .refl _⟩
  cases hbuild : buildArtifacts S sha256 u.build with
  | none =>
    rw [Call.after, hbuild]
    exact hsame
  | some artifacts =>
    by_cases haccepted : u.accepted S d
    · obtain ⟨m, hm, hfile⟩ := h
      obtain ⟨m', hm', hlist⟩ := exists_manifest S sha256 hbuild
      have hnot : NotBelow b.counts u.build.counts := by
        have hfloor := haccepted
        rw [Call.accepted, hu.noShrink, hfile, checkFloor, Option.bind_some,
          S.fromStr_pretty] at hfloor
        exact (floorOf_manifest S sha256 b u.build.counts hm).mp (by simpa using hfloor)
      have hnew : ∀ k, (writeFiles (D := Empty) artifacts).length ≤ k →
          Holds S sha256 (d.run ((writeFiles (u.writes artifacts)).take k)) u.build :=
        fun k hk => ⟨m', hm', file_of_cut_late u hlist hk d⟩
      rw [Call.after_eq S sha256 hbuild haccepted]
      cases hcut : u.cut with
      | none =>
        have hwhole := hnew _ (length_writes u artifacts)
        rw [List.take_length] at hwhole
        exact ⟨u.build, hwhole, hnot⟩
      | some k =>
        rcases hu.whole k hcut with hearly | hlate
        · refine ⟨b, ⟨m, hm, ?_⟩, .refl _⟩
          exact (file_of_cut_early u hlist hearly d).trans hfile
        · exact ⟨u.build, hnew k (hlate artifacts hbuild), hnot⟩
    · rw [Call.after, hbuild]
      dsimp only
      rw [if_neg haccepted]
      exact hsame

/-- **No run of updates loses a guarded count**, whichever calls are refused or killed. -/
theorem guarded_run (calls : List Call) (hcalls : ∀ u ∈ calls, u.KeepsGuard S sha256)
    (d : OutDir) (b : Build) (h : Holds S sha256 d b) :
    ∃ b', Holds S sha256 (runSteps (Call.after S sha256) calls d) b' ∧
      NotBelow b.counts b'.counts := by
  have hinvariant := runSteps_invariant (Call.after S sha256)
    (fun d => ∃ b', Holds S sha256 d b' ∧ NotBelow b.counts b'.counts) calls d
    (fun u hu d hd => by
      obtain ⟨b', hb', hnot⟩ := hd
      obtain ⟨b'', hb'', hnot'⟩ := (hcalls u hu).holds S sha256 hb'
      exact ⟨b'', hb'', hnot.trans hnot'⟩)
    ⟨b, h, .refl _⟩
  exact hinvariant

theorem holds_manifestDisk (n : ℕ) :
    Holds compactSerde (fun _ => "") (manifestDisk (evenBuild n)) (evenBuild n) := by
  obtain ⟨m, hm⟩ := exists_manifest_evenBuild n
  refine ⟨m, hm, ?_⟩
  rw [manifestDisk]
  dsimp only
  rw [if_pos rfl, hm, Option.map_some]

/-- A call that is completed, and one that is killed among its artifacts. -/
theorem guarded_run_killed : ∃ b', Holds compactSerde (fun _ => "")
    (runSteps (Call.after compactSerde fun _ => "")
      [⟨evenBuild 3, false, [(.bundles, [1])], none⟩, ⟨evenBuild 2, false, [], some 4⟩]
      (manifestDisk (evenBuild 2))) b' ∧ NotBelow (evenBuild 2).counts b'.counts := by
  refine guarded_run compactSerde _ _ ?_ _ (evenBuild 2) (holds_manifestDisk 2)
  refine List.forall_mem_cons.mpr ⟨⟨rfl, fun k hk => ?_⟩, List.forall_mem_singleton.mpr
    ⟨rfl, fun k hk => ?_⟩⟩
  · cases hk
  · cases hk
    exact Or.inl (by decide)

end Runs

end Whatspec.Update

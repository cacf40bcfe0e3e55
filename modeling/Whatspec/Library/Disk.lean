import Mathlib.Data.List.Nodup
import Whatspec.Library.Interruption

/-!
# A disk of files and directories, one file-system step at a time

Files and directories are named by arbitrary types.  The steps are the ones a program's
calls decompose into, at the grain a crash can see: a file is written by truncating it and
then appending its bytes, so a cut leaves a prefix of them, while a rename replaces its
destination in one step.

* `DiskStep.applyTo` is the effect of a step, `DiskStep.touches` the files it can change;
* `run_file_of_untouched` is the frame rule for a file;
* `run_writeFile` and `run_take_writeFile` say what a write leaves, whole and cut;
* `written` is what a cut sequence of writes has put in a file, and `run_take_writeFiles`
  reads every file after such a cut.
-/

namespace Whatspec.Library

/-- The contents of a file. -/
abbrev Bytes := List UInt8

variable {F D : Type} [DecidableEq F] [DecidableEq D]

/-- Which files exist and what they hold, and which directories exist. -/
structure Disk (F D : Type) where
  file : F → Option Bytes
  dir : D → Bool

/-- One file-system step. -/
inductive DiskStep (F D : Type) where
  | makeDir : D → DiskStep F D
  | removeDir : D → DiskStep F D
  | truncate : F → DiskStep F D
  | append : F → UInt8 → DiskStep F D
  | rename : F → F → DiskStep F D
  | removeFile : F → DiskStep F D
  deriving DecidableEq

namespace DiskStep

/-- The effect of a step.  Appending to a file nothing created, and renaming one, leave the
disk alone: no program here does either. -/
def applyTo : DiskStep F D → Disk F D → Disk F D
  | .makeDir p, d => { d with dir := Function.update d.dir p true }
  | .removeDir p, d => { d with dir := Function.update d.dir p false }
  | .truncate f, d => { d with file := Function.update d.file f (some []) }
  | .append f b, d => { d with file := Function.update d.file f ((d.file f).map (· ++ [b])) }
  | .rename src dst, d =>
      match d.file src with
      | some bytes =>
          { d with file := Function.update (Function.update d.file dst (some bytes)) src none }
      | none => d
  | .removeFile f, d => { d with file := Function.update d.file f none }

/-- The files a step can change. -/
def touches : DiskStep F D → F → Prop
  | .makeDir _, _ => False
  | .removeDir _, _ => False
  | .truncate f, g => g = f
  | .append f _, g => g = f
  | .rename src dst, g => g = src ∨ g = dst
  | .removeFile f, g => g = f

theorem applyTo_file_of_not_touches {e : DiskStep F D} {g : F} (h : ¬ e.touches g)
    (d : Disk F D) : (e.applyTo d).file g = d.file g := by
  cases e with
  | makeDir p => rfl
  | removeDir p => rfl
  | truncate f => exact Function.update_of_ne h _ _
  | append f b => exact Function.update_of_ne h _ _
  | removeFile f => exact Function.update_of_ne h _ _
  | rename src dst =>
      obtain ⟨hsrc, hdst⟩ := not_or.mp h
      simp only [applyTo]
      cases d.file src with
      | none => rfl
      | some bytes =>
          exact (Function.update_of_ne hsrc _ _).trans (Function.update_of_ne hdst _ _)

end DiskStep

/-- The disk a list of steps leaves. -/
abbrev Disk.run (d : Disk F D) (es : List (DiskStep F D)) : Disk F D :=
  runSteps DiskStep.applyTo es d

/-- **Frame.**  A file no step touches keeps its contents. -/
theorem run_file_of_untouched {es : List (DiskStep F D)} {g : F}
    (h : ∀ e ∈ es, ¬ e.touches g) (d : Disk F D) : (d.run es).file g = d.file g :=
  runSteps_frame DiskStep.applyTo (fun t : Disk F D => t.file g) es d
    (fun e he t => DiskStep.applyTo_file_of_not_touches (h e he) t)

/-- The steps that write `bytes` to a file: truncate it, then append. -/
def writeFile (f : F) (bytes : Bytes) : List (DiskStep F D) :=
  .truncate f :: bytes.map (.append f)

omit [DecidableEq F] [DecidableEq D] in
theorem writeFile_touches {f g : F} {bytes : Bytes} {e : DiskStep F D}
    (he : e ∈ writeFile f bytes) (h : e.touches g) : g = f := by
  rcases List.mem_cons.mp he with rfl | happ
  · exact h
  · obtain ⟨b, _, rfl⟩ := List.mem_map.mp happ
    exact h

omit [DecidableEq F] [DecidableEq D] in
theorem writeFile_length (f : F) (bytes : Bytes) :
    (writeFile (D := D) f bytes).length = bytes.length + 1 := by
  simp [writeFile]

/-- Appending to a file that holds `pre` leaves `pre` followed by what was appended. -/
theorem run_appends (f : F) (bytes pre : Bytes) (d : Disk F D) (h : d.file f = some pre) :
    (d.run (bytes.map (.append f))).file f = some (pre ++ bytes) := by
  induction bytes generalizing pre d with
  | nil => simpa using h
  | cons b bs ih =>
      have hstep : ((DiskStep.append f b).applyTo d).file f = some (pre ++ [b]) := by
        simp [DiskStep.applyTo, h]
      have htail := ih (pre ++ [b]) _ hstep
      rw [List.append_assoc] at htail
      exact htail

/-- A write that was begun leaves the prefix of its bytes that it reached. -/
theorem run_take_writeFile (f : F) (bytes : Bytes) (k : ℕ) (d : Disk F D) :
    (d.run ((writeFile f bytes).take (k + 1))).file f = some (bytes.take k) := by
  have htrunc : ((DiskStep.truncate f).applyTo d).file f = some [] := by
    simp [DiskStep.applyTo]
  have happ := run_appends f (bytes.take k) [] _ htrunc
  rw [List.map_take, List.nil_append] at happ
  exact happ

theorem run_writeFile (f : F) (bytes : Bytes) (d : Disk F D) :
    (d.run (writeFile f bytes)).file f = some bytes := by
  have h := run_take_writeFile f bytes bytes.length d
  rwa [← writeFile_length (D := D) f bytes, List.take_length, List.take_length] at h

/-! ### Writing several files in turn -/

/-- The steps that write several files, one after another. -/
def writeFiles (ws : List (F × Bytes)) : List (DiskStep F D) :=
  ws.flatMap fun w => writeFile w.1 w.2

omit [DecidableEq D] in
/-- What the first `k` steps of `writeFiles ws` have put in a file, when they reached it.
The last write of the file that was begun is the one that shows. -/
def written : List (F × Bytes) → ℕ → F → Option Bytes
  | [], _, _ => none
  | _ :: _, 0, _ => none
  | (g, bytes) :: ws, k + 1, f =>
      match written ws (k - bytes.length) f with
      | some out => some out
      | none => if f = g then some (bytes.take k) else none

/-- **Every file after a cut of several writes.** -/
theorem run_take_writeFiles (ws : List (F × Bytes)) (k : ℕ) (f : F) (d : Disk F D) :
    (d.run ((writeFiles ws).take k)).file f = (written ws k f).or (d.file f) := by
  induction ws generalizing k d with
  | nil => simp [writeFiles, written]
  | cons w ws ih =>
      obtain ⟨g, bytes⟩ := w
      cases k with
      | zero => simp [written]
      | succ k =>
          have hsplit : (writeFiles ((g, bytes) :: ws) : List (DiskStep F D)).take (k + 1) =
              (writeFile g bytes).take (k + 1) ++ (writeFiles ws).take (k - bytes.length) := by
            rw [writeFiles, List.flatMap_cons, List.take_append, writeFile_length,
              Nat.succ_sub_succ]
            rfl
          rw [Disk.run, hsplit, runSteps_append]
          have hrest := ih (k - bytes.length) (d.run ((writeFile g bytes).take (k + 1)))
          rw [Disk.run] at hrest
          rw [hrest, written]
          cases hw : written ws (k - bytes.length) f with
          | some out => rfl
          | none =>
              rw [Option.none_or]
              by_cases hfg : f = g
              · subst hfg
                have hfile := run_take_writeFile f bytes k d
                rw [if_pos rfl, Option.some_or]
                exact hfile
              · rw [if_neg hfg, Option.none_or]
                apply run_file_of_untouched
                intro e he htouch
                exact hfg (writeFile_touches (List.mem_of_mem_take he) htouch)

omit [DecidableEq D] in
/-- A file none of the writes names is not reached by them. -/
theorem written_eq_none {ws : List (F × Bytes)} {f : F} (h : ∀ w ∈ ws, w.1 ≠ f) (k : ℕ) :
    written ws k f = none := by
  induction ws generalizing k with
  | nil => rfl
  | cons w ws ih =>
      obtain ⟨g, bytes⟩ := w
      obtain ⟨hg, hws⟩ := List.forall_mem_cons.mp h
      cases k with
      | zero => rfl
      | succ k => rw [written, ih hws, if_neg (Ne.symm hg)]

omit [DecidableEq D] in
/-- What a cut sequence of writes shows in a file is the start of one of its writes. -/
theorem written_prefix {ws : List (F × Bytes)} {k : ℕ} {f : F} {out : Bytes}
    (h : written ws k f = some out) : ∃ w ∈ ws, w.1 = f ∧ ∃ j, out = w.2.take j := by
  induction ws generalizing k with
  | nil => cases h
  | cons w ws ih =>
      obtain ⟨g, bytes⟩ := w
      cases k with
      | zero => cases h
      | succ k =>
          rw [written] at h
          cases hw : written ws (k - bytes.length) f with
          | some out' =>
              rw [hw] at h
              cases h
              obtain ⟨w', hmem, hrest⟩ := ih hw
              exact ⟨w', List.mem_cons_of_mem _ hmem, hrest⟩
          | none =>
              rw [hw] at h
              by_cases hfg : f = g
              · rw [if_pos hfg] at h
                cases h
                exact ⟨(g, bytes), List.mem_cons_self, hfg.symm, k, rfl⟩
              · rw [if_neg hfg] at h
                cases h

omit [DecidableEq F] [DecidableEq D] in
theorem writeFiles_cons_length (w : F × Bytes) (ws : List (F × Bytes)) :
    (writeFiles (D := D) (w :: ws)).length = w.2.length + 1 + (writeFiles (D := D) ws).length := by
  rw [writeFiles, List.flatMap_cons, List.length_append, writeFile_length]
  rfl

omit [DecidableEq D] in
/-- Once all the writes are done, a file they name holds the whole of its last write. -/
theorem written_all {ws : List (F × Bytes)} {f : F} {k : ℕ}
    (hk : (writeFiles (D := D) ws).length ≤ k) (hf : ∃ w ∈ ws, w.1 = f) :
    ∃ w ∈ ws, w.1 = f ∧ written ws k f = some w.2 := by
  induction ws generalizing k with
  | nil => obtain ⟨w, hw, _⟩ := hf; cases hw
  | cons w ws ih =>
      obtain ⟨g, bytes⟩ := w
      rw [writeFiles_cons_length] at hk
      obtain ⟨j, rfl⟩ : ∃ j, k = j + 1 := ⟨k - 1, by omega⟩
      have htail : (writeFiles (D := D) ws).length ≤ j - bytes.length := by
        simp only at hk; omega
      by_cases hlater : ∃ w ∈ ws, w.1 = f
      · obtain ⟨w', hmem, hname, hwritten⟩ := ih htail hlater
        exact ⟨w', List.mem_cons_of_mem _ hmem, hname, by rw [written, hwritten]⟩
      · have hfg : g = f := by
          obtain ⟨w', hmem, hname⟩ := hf
          rcases List.mem_cons.mp hmem with rfl | hmem'
          · exact hname
          · exact absurd ⟨w', hmem', hname⟩ hlater
        have hnone : written ws (j - bytes.length) f = none :=
          written_eq_none (fun w' hw' hname => hlater ⟨w', hw', hname⟩) _
        refine ⟨(g, bytes), List.mem_cons_self, hfg, ?_⟩
        rw [written, hnone, if_pos hfg.symm, List.take_of_length_le (by simp only at hk; omega)]

/-- **Writes to different files.**  Each file of the list ends up with its contents. -/
theorem run_writeFiles_file {ws : List (F × Bytes)} (hnames : (ws.map Prod.fst).Nodup)
    {w : F × Bytes} (hw : w ∈ ws) (d : Disk F D) :
    (d.run (writeFiles ws)).file w.1 = some w.2 := by
  obtain ⟨w', hw', hname, hwritten⟩ :=
    written_all (D := D) (Nat.le_refl (writeFiles (D := D) ws).length) ⟨w, hw, rfl⟩
  have hrun := run_take_writeFiles ws (writeFiles (D := D) ws).length w.1 d
  rw [List.take_length, hwritten, Option.some_or] at hrun
  rw [hrun, List.inj_on_of_nodup_map hnames hw' hw hname]

/-- A file the writes do not name is left as it was. -/
theorem run_writeFiles_of_not_mem {ws : List (F × Bytes)} {f : F} (hf : f ∉ ws.map Prod.fst)
    (d : Disk F D) : (d.run (writeFiles ws)).file f = d.file f := by
  have hrun := run_take_writeFiles ws (writeFiles (D := D) ws).length f d
  rw [List.take_length, written_eq_none, Option.none_or] at hrun
  · exact hrun
  · exact fun w hw heq => hf (heq ▸ List.mem_map_of_mem hw)

/-- After a list of files is removed, exactly those are gone. -/
theorem run_removeFiles (fs : List F) (d : Disk F D) (f : F) :
    (d.run (fs.map .removeFile)).file f = if f ∈ fs then none else d.file f := by
  induction fs generalizing d with
  | nil => rfl
  | cons g fs ih =>
      rw [List.map_cons, Disk.run, runSteps_cons]
      refine (ih (DiskStep.applyTo (.removeFile g) d)).trans ?_
      by_cases hmem : f ∈ fs
      · rw [if_pos hmem, if_pos (List.mem_cons_of_mem g hmem)]
      · rw [if_neg hmem]
        by_cases hg : f = g
        · rw [if_pos (List.mem_cons.mpr (Or.inl hg)), hg]
          exact Function.update_self _ _ _
        · rw [if_neg (List.not_mem_cons_of_ne_of_not_mem hg hmem)]
          exact Function.update_of_ne hg _ _

omit [DecidableEq D] in
/-- Every prefix of every write shows in its file after some cut. -/
theorem exists_written_take {ws : List (F × Bytes)} {w : F × Bytes} (hw : w ∈ ws) {j : ℕ}
    (hj : j ≤ w.2.length) :
    ∃ k ≤ (writeFiles (D := D) ws).length, written ws k w.1 = some (w.2.take j) := by
  induction ws with
  | nil => cases hw
  | cons w' ws ih =>
      obtain ⟨g, bytes⟩ := w'
      rw [writeFiles_cons_length]
      rcases List.mem_cons.mp hw with rfl | hmem
      · refine ⟨j + 1, by simp only at hj ⊢; omega, ?_⟩
        have hrest : written ws (j - bytes.length) g = none := by
          rw [Nat.sub_eq_zero_of_le hj]
          cases ws <;> rfl
        rw [written, hrest, if_pos rfl]
      · obtain ⟨k, hk, hwritten⟩ := ih hmem
        refine ⟨k + bytes.length + 1, by simp only; omega, ?_⟩
        rw [written, Nat.add_sub_cancel, hwritten]

/-- A rename of a file that exists puts its contents at the destination. -/
theorem applyTo_rename_dst {src dst : F} (hne : src ≠ dst) {bytes : Bytes} {d : Disk F D}
    (h : d.file src = some bytes) :
    ((DiskStep.rename src dst).applyTo d).file dst = some bytes := by
  simp only [DiskStep.applyTo, h]
  rw [Function.update_of_ne hne.symm, Function.update_self]

end Whatspec.Library

import Whatspec.Store.Captures

/-!
# A restore of captures leaves only verified files

Three facts about every run of `restoreCapturesWith`, whatever the client answers.

* `Clean`: wherever the run is cut, a capture's file is as it was or holds a verified payload,
  and a temporary file holds no more than the start of one.
* `Session.Sound`: at every point a capture is missing exactly when the directory holds no
  verified payload for it, so that no answer consumes a capture it does not bring.
* `Offers`: a release that has a readable archive with a capture in it leaves that capture
  verified, whatever was answered before it and after it.
-/

namespace Whatspec.Store

open Whatspec.Library Whatspec.Text Whatspec.Fetch

/-- The directory holds a verified payload for a capture. -/
def Verified (digest : Bytes → Bytes) (disk : CaptureDisk) (c : WasmCapture) : Prop :=
  ∃ bytes, disk.file (.named c.fileName) = some bytes ∧ c.matches digest bytes = true

/-- What a restore that began on one disk may have left by another. -/
structure Clean (digest : Bytes → Bytes) (captures : List WasmCapture)
    (disk disk' : CaptureDisk) : Prop where
  named : ∀ name, disk'.file (.named name) = disk.file (.named name) ∨
    ∃ c ∈ captures, c.fileName = name ∧ Verified digest disk' c
  temp : ∀ n, disk'.file (.temp n) = disk.file (.temp n) ∨ disk'.file (.temp n) = none ∨
    ∃ c ∈ captures, ∃ bytes, c.matches digest bytes = true ∧
      ∃ j, disk'.file (.temp n) = some (bytes.take j)

variable {digest : Bytes → Bytes} {captures : List WasmCapture}

/-! ### Putting one file in place -/

/-- A cut of `persistFile` before its rename has touched one temporary file. -/
theorem run_take_persistFile (n : ℕ) (name : String) (bytes : Bytes) {k : ℕ}
    (hk : k ≤ bytes.length + 1) (d : CaptureDisk) :
    (∀ f, f ≠ .temp n → (d.run ((persistFile n name bytes).take k)).file f = d.file f) ∧
      (k = 0 ∨ ∃ j, (d.run ((persistFile n name bytes).take k)).file (.temp n) =
        some (bytes.take j)) := by
  have htake : (persistFile n name bytes).take k = (writeFile (.temp n) bytes).take k :=
    List.take_append_of_le_length (by rw [writeFile_length]; exact hk)
  rw [htake]
  constructor
  · intro f hf
    apply run_file_of_untouched
    intro e he htouch
    exact hf (writeFile_touches (List.mem_of_mem_take he) htouch)
  · cases k with
    | zero => exact Or.inl rfl
    | succ k => exact Or.inr ⟨k, run_take_writeFile (.temp n) bytes k d⟩

/-- The whole of `persistFile` changes its destination, and its temporary file is gone. -/
theorem run_persistFile (n : ℕ) (name : String) (bytes : Bytes) (d : CaptureDisk)
    (f : CaptureFile) :
    (d.run (persistFile n name bytes)).file f =
      if f = .temp n then none else if f = .named name then some bytes else d.file f := by
  rw [persistFile, Disk.run, runSteps_append, runSteps_cons, runSteps_nil]
  have hwritten : (d.run (writeFile (.temp n) bytes)).file (.temp n) = some bytes :=
    run_writeFile (.temp n) bytes d
  have hframe : f ≠ .temp n → (d.run (writeFile (.temp n) bytes)).file f = d.file f := by
    intro hf
    apply run_file_of_untouched
    intro e he htouch
    exact hf (writeFile_touches he htouch)
  rw [Disk.run] at hwritten hframe
  simp only [DiskStep.applyTo, hwritten]
  by_cases htemp : f = .temp n
  · rw [if_pos htemp, htemp]
    exact Function.update_self _ _ _
  · rw [if_neg htemp, Function.update_of_ne htemp]
    by_cases hname : f = .named name
    · rw [if_pos hname, hname]
      exact Function.update_self _ _ _
    · rw [if_neg hname, Function.update_of_ne hname]
      exact hframe htemp

theorem Clean.refl (digest : Bytes → Bytes) (captures : List WasmCapture) (d : CaptureDisk) :
    Clean digest captures d d :=
  ⟨fun _ => Or.inl rfl, fun _ => Or.inl rfl⟩

/-- A capture's file that did not change is as clean as it was. -/
theorem Clean.named_frame {d₀ d d' : CaptureDisk} (h : Clean digest captures d₀ d)
    {name : String} (hfile : d'.file (.named name) = d.file (.named name)) :
    d'.file (.named name) = d₀.file (.named name) ∨
      ∃ c ∈ captures, c.fileName = name ∧ Verified digest d' c := by
  rcases h.named name with hsame | ⟨c, hc, hname, bytes, hbytes, hmatch⟩
  · exact Or.inl (hfile.trans hsame)
  · refine Or.inr ⟨c, hc, hname, bytes, ?_, hmatch⟩
    rw [hname, hfile, ← hname, hbytes]

/-- A disk that shows the same files is as clean. -/
theorem Clean.congr {d₀ d d' : CaptureDisk} (h : Clean digest captures d₀ d)
    (hfile : d'.file = d.file) : Clean digest captures d₀ d' :=
  ⟨fun name => h.named_frame (congrFun hfile (.named name)), fun n => hfile ▸ h.temp n⟩

/-- Every cut of putting a capture's payload in place is clean. -/
theorem Clean.persistFile {d₀ d : CaptureDisk} (h : Clean digest captures d₀ d)
    {c : WasmCapture} (hc : c ∈ captures) {bytes : Bytes}
    (hmatch : c.matches digest bytes = true) (n k : ℕ) :
    Clean digest captures d₀ (d.run ((persistFile n c.fileName bytes).take k)) := by
  rcases Nat.lt_or_ge (bytes.length + 1) k with hwhole | hpart
  · have htake : (Store.persistFile n c.fileName bytes).take k =
        Store.persistFile n c.fileName bytes := by
      apply List.take_of_length_le
      rw [Store.persistFile, List.length_append, writeFile_length]
      exact hwhole
    have hrun := run_persistFile n c.fileName bytes d
    rw [htake]
    refine ⟨fun name => ?_, fun m => ?_⟩
    · have hname := hrun (.named name)
      rw [if_neg (by simp)] at hname
      by_cases heq : name = c.fileName
      · subst heq
        rw [if_pos rfl] at hname
        exact Or.inr ⟨c, hc, rfl, bytes, hname, hmatch⟩
      · rw [if_neg (by simpa using heq)] at hname
        exact h.named_frame hname
    · have htemp := hrun (.temp m)
      by_cases heq : m = n
      · exact Or.inr (Or.inl (htemp.trans (if_pos (congrArg _ heq))))
      · rw [if_neg (by simpa using heq), if_neg (by simp)] at htemp
        rw [htemp]
        exact h.temp m
  · obtain ⟨hframe, hown⟩ := run_take_persistFile n c.fileName bytes hpart d
    refine ⟨fun name => ?_, fun m => ?_⟩
    · exact h.named_frame (hframe (.named name) (by simp))
    · by_cases heq : m = n
      · subst heq
        rcases hown with rfl | ⟨j, hj⟩
        · exact h.temp m
        · exact Or.inr (Or.inr ⟨c, hc, bytes, hmatch, j, hj⟩)
      · rw [hframe (.temp m) (by simpa using heq)]
        exact h.temp m

/-! ### Putting several files in place -/

/-- Some files are verified payloads of captures. -/
def AllMatch (digest : Bytes → Bytes) (captures : List WasmCapture)
    (files : List (String × Bytes)) : Prop :=
  ∀ p ∈ files, ∃ c ∈ captures, c.fileName = p.1 ∧ c.matches digest p.2 = true

/-- Every cut of putting verified payloads in place is clean. -/
theorem Clean.persistFrom {d₀ d : CaptureDisk} (h : Clean digest captures d₀ d)
    {files : List (String × Bytes)} (hfiles : AllMatch digest captures files) (n k : ℕ) :
    Clean digest captures d₀ (d.run ((persistFrom n files).take k)) := by
  induction files generalizing n k d with
  | nil => simpa [Store.persistFrom] using h
  | cons p rest ih =>
      obtain ⟨⟨c, hc, hname, hmatch⟩, hrest⟩ := List.forall_mem_cons.mp hfiles
      obtain ⟨name, bytes⟩ := p
      obtain rfl : c.fileName = name := hname
      rw [Store.persistFrom]
      rcases take_append_cases (Store.persistFile n c.fileName bytes)
          (Store.persistFrom (n + 1) rest) k with ⟨-, htake⟩ | ⟨-, htake⟩
      · rw [htake]
        exact h.persistFile hc hmatch n k
      · rw [htake, Disk.run, runSteps_append]
        have hwhole := h.persistFile hc hmatch n (Store.persistFile n c.fileName bytes).length
        rw [List.take_length] at hwhole
        exact ih hwhole hrest (n + 1) _

/-- What the captures' files hold when files of different names have been put in place. -/
theorem run_persistFrom_named {files : List (String × Bytes)}
    (hnodup : (files.map Prod.fst).Nodup) (n : ℕ) (d : CaptureDisk) (name : String) :
    (∀ bytes, (name, bytes) ∈ files →
      (d.run (persistFrom n files)).file (.named name) = some bytes) ∧
    (name ∉ files.map Prod.fst →
      (d.run (persistFrom n files)).file (.named name) = d.file (.named name)) := by
  induction files generalizing n d with
  | nil => exact ⟨fun _ h => (nomatch h), fun _ => rfl⟩
  | cons p rest ih =>
      obtain ⟨name', bytes'⟩ := p
      obtain ⟨hnew, hrest⟩ := List.nodup_cons.mp hnodup
      obtain ⟨hin, hout⟩ := ih hrest (n + 1) (d.run (persistFile n name' bytes'))
      have hsplit : d.run (persistFrom n ((name', bytes') :: rest)) =
          (d.run (persistFile n name' bytes')).run (persistFrom (n + 1) rest) :=
        runSteps_append _ _ _ _
      have hfile := run_persistFile n name' bytes' d (.named name)
      rw [if_neg (by simp)] at hfile
      rw [hsplit]
      refine ⟨fun bytes hmem => ?_, fun hnot => ?_⟩
      · rcases List.mem_cons.mp hmem with heq | htail
        · cases heq
          rw [hout hnew, hfile, if_pos rfl]
        · exact hin bytes htail
      · obtain ⟨hne, htail⟩ := not_or.mp (fun h => hnot (List.mem_cons.mpr h))
        rw [hout htail, hfile, if_neg (by simpa using hne)]

/-! ### What an archive gives -/

/-- An archive gives payloads of captures that were missing, at most one each, and takes
those captures off the missing ones. -/
theorem takeMembers_spec {members : List (Option TarMember)} {count : ℕ}
    {before after : ArchiveSelection} (h : takeMembers digest members count before = some after) :
    ∃ taken, after.files = before.files ++ taken ∧ (taken.map Prod.fst).Nodup ∧
      (∀ p ∈ taken, ∃ c, SortedMap.get before.remaining p.1 = some c ∧
        c.matches digest p.2 = true) ∧
      ∀ name, SortedMap.get after.remaining name =
        if name ∈ taken.map Prod.fst then none else SortedMap.get before.remaining name := by
  fun_induction takeMembers digest members count before with
  | case1 count selection =>
      cases h
      exact ⟨[], by simp⟩
  | case2 => cases h
  | case3 _ _ _ _ _ ih => exact ih h
  | case4 => cases h
  | case5 => cases h
  | case6 _ _ _ _ _ _ _ ih => exact ih h
  | case7 _ _ _ _ _ _ _ _ _ ih => exact ih h
  | case8 => cases h
  | case9 entry rest count selection _ _ name _ capture hget bytes _ hmatch ih =>
      -- the capture is off the list for the members that follow
      obtain ⟨taken, hfiles, hnodup, hpinned, hremaining⟩ := ih h
      have hlater : ∀ p ∈ taken, p.1 ≠ name ∧ ∃ c,
          SortedMap.get selection.remaining p.1 = some c ∧ c.matches digest p.2 = true := by
        intro p hp
        obtain ⟨c, hc, hm⟩ := hpinned p hp
        rw [SortedMap.get_remove] at hc
        by_cases hname : p.1 = name
        · rw [if_pos hname] at hc
          cases hc
        · rw [if_neg hname] at hc
          exact ⟨hname, c, hc, hm⟩
      refine ⟨(name, bytes) :: taken, ?_, ?_, ?_, fun name' => ?_⟩
      · rw [hfiles, List.append_assoc]
        rfl
      · refine List.nodup_cons.mpr ⟨fun hmem => ?_, hnodup⟩
        obtain ⟨p, hp, heq⟩ := List.mem_map.mp hmem
        exact (hlater p hp).1 heq
      · exact List.forall_mem_cons.mpr ⟨⟨capture, hget, hmatch⟩, fun p hp => (hlater p hp).2⟩
      · rw [hremaining, SortedMap.get_remove]
        by_cases hname : name' = name
        · simp only [hname, if_true, ite_self, List.map_cons, List.mem_cons, true_or]
        · simp only [hname, if_false, List.map_cons, List.mem_cons, false_or]
  | case10 _ _ _ _ _ _ _ _ _ _ _ _ _ ih => exact ih h

theorem takeMembers_remaining_none {members : List (Option TarMember)} {count : ℕ}
    {before after : ArchiveSelection} (h : takeMembers digest members count before = some after)
    {name : String} (hnone : SortedMap.get before.remaining name = none) :
    SortedMap.get after.remaining name = none := by
  obtain ⟨taken, -, -, -, hremaining⟩ := takeMembers_spec h
  rw [hremaining, hnone, ite_self]

/-- A member that is a capture's payload takes that capture off. -/
theorem takeMembers_served {members : List (Option TarMember)} {count : ℕ}
    {before after : ArchiveSelection} (h : takeMembers digest members count before = some after)
    {c : WasmCapture} (hc : SortedMap.get before.remaining c.fileName = some c) {bytes : Bytes}
    (hmatch : c.matches digest bytes = true)
    (hmem : some ⟨true, some (some c.fileName), some bytes⟩ ∈ members) :
    SortedMap.get after.remaining c.fileName = none := by
  fun_induction takeMembers digest members count before with
  | case1 => cases hmem
  | case2 => cases h
  | case3 entry _ _ _ hfile ih =>
      rcases List.mem_cons.mp hmem with heq | htail
      · cases heq
        cases hfile
      · exact ih h hc htail
  | case4 => cases h
  | case5 => cases h
  | case6 entry _ _ _ _ _ hname ih =>
      rcases List.mem_cons.mp hmem with heq | htail
      · cases heq
        cases hname
      · exact ih h hc htail
  | case7 entry _ _ _ _ _ name hname hnone ih =>
      rcases List.mem_cons.mp hmem with heq | htail
      · cases heq
        cases hname
        rw [hc] at hnone
        cases hnone
      · exact ih h hc htail
  | case8 => cases h
  | case9 entry rest count selection _ _ name hname capture hget bytes' hbody hmatch' ih =>
      by_cases heq : c.fileName = name
      · apply takeMembers_remaining_none h
        rw [SortedMap.get_remove, if_pos heq]
      · rcases List.mem_cons.mp hmem with hhead | htail
        · cases hhead
          cases hname
          exact absurd rfl heq
        · exact ih h (by rw [SortedMap.get_remove, if_neg heq, hc]) htail
  | case10 entry rest count selection _ _ name hname capture hget bytes' hbody hmiss ih =>
      rcases List.mem_cons.mp hmem with hhead | htail
      · cases hhead
        cases hname
        cases hbody
        rw [hc] at hget
        cases hget
        exact absurd hmatch hmiss
      · exact ih h hc htail

/-- A member that counts against the number of files. -/
def isFileMember : Option TarMember → Bool
  | some entry => entry.isFile
  | none => false

/-- An archive that can be read to its end. -/
structure Readable (members : List (Option TarMember)) : Prop where
  read : ∀ m ∈ members, ∃ entry, m = some entry ∧
    (entry.isFile = true → entry.baseName ≠ none ∧ entry.body ≠ none)
  few : members.countP isFileMember ≤ maxArchiveFiles

/-- A file counts for one. -/
theorem countP_file {entry : TarMember} (hfile : ¬ (!entry.isFile) = true) {count : ℕ}
    {rest : List (Option TarMember)}
    (hfew : count + (some entry :: rest).countP isFileMember ≤ maxArchiveFiles) :
    count + 1 + rest.countP isFileMember ≤ maxArchiveFiles := by
  have hone : isFileMember (some entry) = true := by simpa [isFileMember] using hfile
  rw [List.countP_cons_of_pos hone] at hfew
  omega

/-- A readable archive is taken to its end, whatever is missing. -/
theorem takeMembers_isSome {members : List (Option TarMember)} {count : ℕ}
    {before : ArchiveSelection}
    (hread : ∀ m ∈ members, ∃ entry, m = some entry ∧
      (entry.isFile = true → entry.baseName ≠ none ∧ entry.body ≠ none))
    (hfew : count + members.countP isFileMember ≤ maxArchiveFiles) :
    ∃ after, takeMembers digest members count before = some after := by
  fun_induction takeMembers digest members count before with
  | case1 => exact ⟨_, rfl⟩
  | case2 =>
      obtain ⟨entry, hentry, -⟩ := hread none List.mem_cons_self
      cases hentry
  | case3 entry rest count selection hfile ih =>
      have hnot : ¬ isFileMember (some entry) = true := by simpa [isFileMember] using hfile
      rw [List.countP_cons_of_neg hnot] at hfew
      exact ih (List.forall_mem_cons.mp hread).2 hfew
  | case4 entry rest count selection hfile htoo =>
      have := countP_file hfile hfew
      omega
  | case5 entry rest count selection hfile _ hname =>
      obtain ⟨entry', heq, hentry⟩ := hread _ List.mem_cons_self
      cases heq
      exact absurd hname (hentry (by simpa using hfile)).1
  | case8 entry rest count selection hfile _ name _ capture _ hbody =>
      obtain ⟨entry', heq, hentry⟩ := hread _ List.mem_cons_self
      cases heq
      exact absurd hbody (hentry (by simpa using hfile)).2
  | case6 entry rest count selection hfile _ _ ih =>
      exact ih (List.forall_mem_cons.mp hread).2 (countP_file hfile hfew)
  | case7 entry rest count selection hfile _ _ _ _ ih =>
      exact ih (List.forall_mem_cons.mp hread).2 (countP_file hfile hfew)
  | case9 entry rest count selection hfile _ _ _ _ _ _ _ _ ih =>
      exact ih (List.forall_mem_cons.mp hread).2 (countP_file hfile hfew)
  | case10 entry rest count selection hfile _ _ _ _ _ _ _ _ ih =>
      exact ih (List.forall_mem_cons.mp hread).2 (countP_file hfile hfew)

/-- What an archive gives comes from a reading of its members. -/
theorem selectArchive_eq_some {out : Outside} {archive : Bytes} {missing : Missing}
    {selection : ArchiveSelection} (h : selectArchive out archive missing = some selection) :
    ∃ tar members, decompress out archive maxUnpackedBytes = some tar ∧
      out.members tar = some members ∧
      takeMembers out.digest members 0 ⟨missing, []⟩ = some selection := by
  rw [selectArchive, takeArchive, Option.bind_eq_bind, Option.bind_eq_some_iff] at h
  obtain ⟨tar, htar, h⟩ := h
  rw [Option.bind_eq_bind, Option.bind_eq_some_iff] at h
  obtain ⟨members, hmembers, htake⟩ := h
  exact ⟨tar, members, htar, hmembers, htake⟩

/-! ### The state of a restore -/

/-- What holds of a session at every point: every cut of its steps is clean, and the missing
captures are those the directory holds no verified payload for. -/
structure Session.Sound (digest : Bytes → Bytes) (captures : List WasmCapture)
    (disk : CaptureDisk) (s : Session) : Prop where
  cut : ∀ k, Clean digest captures disk (disk.run (s.steps.take k))
  locked : ∀ name c, SortedMap.get s.missing name = some c → c ∈ captures ∧ c.fileName = name
  pending : ∀ c ∈ captures,
    SortedMap.get s.missing c.fileName = none ↔ Verified digest (disk.run s.steps) c

/-- The calls of a session do not matter to it. -/
theorem Session.Sound.ask {disk : CaptureDisk} {s : Session}
    (h : s.Sound digest captures disk) (asked : List HttpCall) :
    ({ s with asked := asked }).Sound digest captures disk :=
  ⟨h.cut, h.locked, h.pending⟩

/-- **The step.**  Putting payloads of missing captures in place and taking those captures off
keeps a session sound. -/
theorem Session.Sound.persist (hnames : (captures.map WasmCapture.fileName).Nodup)
    {disk : CaptureDisk} {s : Session} (h : s.Sound digest captures disk)
    {files : List (String × Bytes)} (hnodup : (files.map Prod.fst).Nodup)
    (hfiles : ∀ p ∈ files, ∃ c, SortedMap.get s.missing p.1 = some c ∧
      c.matches digest p.2 = true)
    {remaining : Missing} (hremaining : ∀ name, SortedMap.get remaining name =
      if name ∈ files.map Prod.fst then none else SortedMap.get s.missing name) :
    ({ s.persist files with missing := remaining }).Sound digest captures disk := by
  have hall : AllMatch digest captures files := by
    intro p hp
    obtain ⟨c, hget, hmatch⟩ := hfiles p hp
    obtain ⟨hc, hname⟩ := h.locked _ _ hget
    exact ⟨c, hc, hname, hmatch⟩
  refine ⟨fun k => ?_, fun name c hget => ?_, fun c hc => ?_⟩
  · rcases take_append_cases s.steps (.makeDir () :: persistFrom s.temps files) k with
      ⟨-, htake⟩ | ⟨-, htake⟩
    · exact htake ▸ h.cut k
    · have hwhole := h.cut s.steps.length
      rw [List.take_length] at hwhole
      show Clean digest captures disk (disk.run ((s.steps ++ _).take k))
      rw [htake, Disk.run, runSteps_append]
      cases k - s.steps.length with
      | zero => exact hwhole
      | succ j =>
          have hdir : Clean digest captures disk
              ((DiskStep.makeDir ()).applyTo (disk.run s.steps)) := hwhole.congr rfl
          exact hdir.persistFrom hall s.temps j
  · have hget' : SortedMap.get remaining name = some c := hget
    rw [hremaining] at hget'
    by_cases hname : name ∈ files.map Prod.fst
    · rw [if_pos hname] at hget'
      cases hget'
    · rw [if_neg hname] at hget'
      exact h.locked name c hget'
  · have hrun : disk.run (s.persist files).steps =
        ((DiskStep.makeDir ()).applyTo (disk.run s.steps)).run (persistFrom s.temps files) :=
      runSteps_append _ _ _ _
    obtain ⟨hin, hout⟩ := run_persistFrom_named hnodup s.temps
      ((DiskStep.makeDir ()).applyTo (disk.run s.steps)) c.fileName
    show SortedMap.get remaining c.fileName = none ↔ _
    rw [hremaining]
    show _ ↔ Verified digest (disk.run (s.persist files).steps) c
    rw [hrun]
    by_cases hname : c.fileName ∈ files.map Prod.fst
    · rw [if_pos hname]
      obtain ⟨⟨name, bytes⟩, hp, rfl⟩ := List.mem_map.mp hname
      obtain ⟨c', hget, hmatch⟩ := hfiles _ hp
      obtain ⟨hc', hname'⟩ := h.locked _ _ hget
      obtain rfl : c' = c := List.inj_on_of_nodup_map hnames hc' hc hname'
      exact iff_of_true rfl ⟨bytes, hin bytes hp, hmatch⟩
    · rw [if_neg hname, h.pending c hc]
      refine exists_congr fun bytes => ?_
      rw [hout hname]
      rfl

/-! ### Every step is sound -/

section Steps

variable {out : Outside} (client : Client) {disk : CaptureDisk}
variable (hnames : (captures.map WasmCapture.fileName).Nodup)

include hnames

theorem directStep_sound {s : Session} (h : s.Sound out.digest captures disk) (name : String) :
    (directStep out client s name).Sound out.digest captures disk := by
  rw [directStep]
  split
  · exact h
  · rename_i capture hget
    split
    · exact h
    · split
      rename_i answer asked _
      split
      · exact h.ask asked
      · rename_i bytes _
        split
        · rename_i hmatch
          have hone : ([(name, bytes)].map Prod.fst).Nodup := List.nodup_singleton name
          refine (h.ask asked).persist hnames hone ?_ fun name' => ?_
          · exact List.forall_mem_singleton.mpr ⟨capture, hget, hmatch⟩
          · rw [SortedMap.get_remove]
            simp only [List.map_cons, List.map_nil, List.mem_singleton]
        · exact h.ask asked

theorem assetStep_sound (token : Option String) {s : Session}
    (h : s.Sound out.digest captures disk) (asset : Asset) :
    (assetStep out client token s asset).Sound out.digest captures disk := by
  rw [assetStep]
  split
  rename_i answer asked _
  split
  · exact h.ask asked
  · split
    · exact h.ask asked
    · rename_i selection hselect
      obtain ⟨tar, members, -, -, htake⟩ := selectArchive_eq_some hselect
      obtain ⟨taken, hfiles, hnodup, hpinned, hremaining⟩ := takeMembers_spec htake
      rw [List.nil_append] at hfiles
      subst hfiles
      exact (h.ask asked).persist hnames hnodup hpinned hremaining

theorem assetsFrom_sound (token : Option String) (assets : List Asset) {s : Session}
    (h : s.Sound out.digest captures disk) :
    (assetsFrom out client token s assets).Sound out.digest captures disk :=
  runUntil_invariant _ _ (Session.Sound out.digest captures disk)
    (fun _ asset hs => assetStep_sound client hnames token hs asset) assets h

theorem sourceStep_sound (token : Option String) {s : Session}
    (h : s.Sound out.digest captures disk) (source : ReleaseSource) :
    (sourceStep out client token s source).Sound out.digest captures disk := by
  rw [sourceStep]
  split
  rename_i answer asked _
  split
  · exact h.ask asked
  · exact assetsFrom_sound client hnames token _ (h.ask asked)

/-- **The run.** -/
theorem sourcesFrom_sound (token : Option String) (sources : List ReleaseSource) {s : Session}
    (h : s.Sound out.digest captures disk) :
    (sourcesFrom out client token s sources).Sound out.digest captures disk :=
  runUntil_invariant _ _ (Session.Sound out.digest captures disk)
    (fun _ source hs => sourceStep_sound client hnames token hs source) sources h

theorem foldl_directStep_sound (names : List String) {s : Session}
    (h : s.Sound out.digest captures disk) :
    (names.foldl (directStep out client) s).Sound out.digest captures disk := by
  induction names generalizing s with
  | nil => exact h
  | cons name rest ih => exact ih (directStep_sound client hnames h name)

end Steps

/-! ### The lock -/

/-- A lock that is accepted names every capture once, and looks each up. -/
theorem lockedFrom_spec {rest : List WasmCapture} {before locked : Missing}
    (h : lockedFrom rest before = .ok locked) (hsorted : SortedMap.Sorted before) :
    SortedMap.Sorted locked ∧ (rest.map WasmCapture.fileName).Nodup ∧
      (∀ c ∈ rest, SortedMap.get before c.fileName = none) ∧
      ∀ name c, SortedMap.get locked name = some c ↔
        SortedMap.get before name = some c ∨ c ∈ rest ∧ c.fileName = name := by
  induction rest generalizing before with
  | nil =>
      cases h
      exact ⟨hsorted, List.nodup_nil, fun _ hc => (nomatch hc), by simp⟩
  | cons capture rest ih =>
      rw [lockedFrom] at h
      cases hvalid : capture.validate with
      | error e =>
          rw [hvalid] at h
          cases h
      | ok _ =>
          rw [hvalid] at h
          change (if (SortedMap.get before capture.fileName).isSome then _ else _) = _ at h
          cases hget : SortedMap.get before capture.fileName with
          | some c' =>
              rw [hget] at h
              cases h
          | none =>
              rw [hget, if_neg (by simp)] at h
              obtain ⟨hlocked, hnodup, hfresh, hlookup⟩ :=
                ih h (SortedMap.sorted_insert capture.fileName capture hsorted)
              have hother : ∀ c ∈ rest, c.fileName ≠ capture.fileName ∧
                  SortedMap.get before c.fileName = none := by
                intro c hc
                have hnone := hfresh c hc
                rw [SortedMap.get_insert] at hnone
                by_cases hname : c.fileName = capture.fileName
                · rw [if_pos hname] at hnone
                  cases hnone
                · rw [if_neg hname] at hnone
                  exact ⟨hname, hnone⟩
              refine ⟨hlocked, ?_, ?_, fun name c => ?_⟩
              · refine List.nodup_cons.mpr ⟨fun hmem => ?_, hnodup⟩
                obtain ⟨c, hc, hname⟩ := List.mem_map.mp hmem
                exact (hother c hc).1 hname
              · exact List.forall_mem_cons.mpr ⟨hget, fun c hc => (hother c hc).2⟩
              · rw [hlookup, SortedMap.get_insert]
                by_cases hname : name = capture.fileName
                · subst hname
                  rw [if_pos rfl, hget]
                  constructor
                  · rintro (heq | ⟨hc, hname⟩)
                    · cases heq
                      exact Or.inr ⟨List.mem_cons_self, rfl⟩
                    · exact Or.inr ⟨List.mem_cons_of_mem _ hc, hname⟩
                  · rintro (heq | ⟨hc, hname⟩)
                    · cases heq
                    · rcases List.mem_cons.mp hc with rfl | hrest
                      · exact Or.inl rfl
                      · exact Or.inr ⟨hrest, hname⟩
                · rw [if_neg hname]
                  refine or_congr_right (and_congr_left fun hc => ?_)
                  rw [List.mem_cons, or_iff_right]
                  rintro rfl
                  exact hname hc.symm

/-- The session a restore begins with is sound. -/
theorem directSession_sound {out : Outside} (client : Client) {disk : CaptureDisk}
    {locked : Missing} (h : lockedFrom captures [] = .ok locked) :
    (directSession out client disk locked).Sound out.digest captures disk := by
  obtain ⟨hsorted, hnodup, -, hlookup⟩ := lockedFrom_spec h List.Pairwise.nil
  apply foldl_directStep_sound client hnodup
  refine ⟨fun k => ?_, fun name c hget => ?_, fun c hc => ?_⟩
  · rw [List.take_nil]
    exact Clean.refl _ _ _
  · rw [retainMissing, SortedMap.get_filter hsorted, Option.filter_eq_some_iff, hlookup] at hget
    rcases hget.1 with hnil | hmem
    · cases hnil
    · exact hmem
  · have hget : SortedMap.get locked c.fileName = some c := (hlookup _ c).mpr (Or.inr ⟨hc, rfl⟩)
    rw [retainMissing, SortedMap.get_filter hsorted, hget, Option.filter_some, Verified]
    show _ ↔ ∃ bytes, disk.file (.named c.fileName) = some bytes ∧ _
    cases disk.file (.named c.fileName) with
    | none => simp
    | some bytes => simp

/-! ### What a release offers -/

/-- An archive that can be read to its end and holds a capture's payload under its name. -/
def HoldsCapture (out : Outside) (archive : Bytes) (c : WasmCapture) : Prop :=
  ∃ tar members bytes, decompress out archive maxUnpackedBytes = some tar ∧
    out.members tar = some members ∧ Readable members ∧
    some ⟨true, some (some c.fileName), some bytes⟩ ∈ members ∧
    c.matches out.digest bytes = true

/-- From some session on, one of the archives a release lists is answered with one that holds
a capture. -/
def Offers (out : Outside) (client : Client) (token : Option String) (s : Session)
    (source : ReleaseSource) (c : WasmCapture) : Prop :=
  ∃ assets asked before asset after archive,
    (releaseAssetsWith out client source.repo source.release token).run s.asked =
      (some assets, asked) ∧
    wasmArchives assets = before ++ asset :: after ∧
    ((assetBytesWith out client asset token).run
      (assetsFrom out client token { s with asked := asked } before).asked).1 = some archive ∧
    HoldsCapture out archive c

section Offered

variable {out : Outside} {client : Client} {token : Option String}

/-- A capture that is not missing does not become missing. -/
theorem assetStep_missing_none {s : Session} {name : String}
    (h : SortedMap.get s.missing name = none) (asset : Asset) :
    SortedMap.get (assetStep out client token s asset).missing name = none := by
  rw [assetStep]
  split
  split
  · exact h
  · split
    · exact h
    · rename_i hselect
      obtain ⟨tar, members, -, -, htake⟩ := selectArchive_eq_some hselect
      exact takeMembers_remaining_none htake h

theorem assetsFrom_missing_none {s : Session} {name : String}
    (h : SortedMap.get s.missing name = none) (assets : List Asset) :
    SortedMap.get (assetsFrom out client token s assets).missing name = none :=
  runUntil_invariant _ _ (fun s : Session => SortedMap.get s.missing name = none)
    (fun _ asset hs => assetStep_missing_none hs asset) assets h

theorem sourceStep_missing_none {s : Session} {name : String}
    (h : SortedMap.get s.missing name = none) (source : ReleaseSource) :
    SortedMap.get (sourceStep out client token s source).missing name = none := by
  rw [sourceStep]
  split
  rename_i answer asked _
  split
  · exact h
  · exact @assetsFrom_missing_none out client token { s with asked := asked } name h _

variable (hnames : (captures.map WasmCapture.fileName).Nodup)
variable {disk : CaptureDisk} {s : Session} {c : WasmCapture}

include hnames

/-- An archive that holds a capture takes it off, when it was still missing. -/
theorem assetStep_served (h : s.Sound out.digest captures disk) (hc : c ∈ captures)
    {asset : Asset} {archive : Bytes}
    (hanswer : ((assetBytesWith out client asset token).run s.asked).1 = some archive)
    (hholds : HoldsCapture out archive c) :
    SortedMap.get (assetStep out client token s asset).missing c.fileName = none := by
  cases hget : SortedMap.get s.missing c.fileName with
  | none => exact assetStep_missing_none hget asset
  | some c' =>
      obtain ⟨hc', hname⟩ := h.locked _ _ hget
      obtain rfl : c' = c := List.inj_on_of_nodup_map hnames hc' hc hname
      obtain ⟨tar, members, bytes, htar, hmembers, hreadable, hmem, hmatch⟩ := hholds
      have hfew : 0 + members.countP isFileMember ≤ maxArchiveFiles := by
        rw [Nat.zero_add]
        exact hreadable.few
      obtain ⟨selection, htake⟩ :=
        @takeMembers_isSome out.digest members 0 ⟨s.missing, []⟩ hreadable.read hfew
      have hselect : selectArchive out archive s.missing = some selection := by
        rw [selectArchive, takeArchive, htar, Option.bind_eq_bind, Option.bind_some, hmembers]
        exact htake
      have hserved := takeMembers_served htake hget hmatch hmem
      rw [assetStep]
      split
      rename_i answer asked hrun
      rw [hrun] at hanswer
      obtain rfl : answer = some archive := hanswer
      dsimp only
      rw [hselect]
      exact hserved

/-- A release that offers a capture takes it off. -/
theorem sourceStep_served (h : s.Sound out.digest captures disk) (hc : c ∈ captures)
    {source : ReleaseSource} (hoffers : Offers out client token s source c) :
    SortedMap.get (sourceStep out client token s source).missing c.fileName = none := by
  obtain ⟨assets, asked, before, asset, after, archive, hassets, hsplit, hanswer, hholds⟩ :=
    hoffers
  rw [sourceStep, hassets]
  dsimp only
  rw [hsplit]
  apply runUntil_through _ _ (fun s : Session => SortedMap.get s.missing c.fileName = none)
  · exact fun s hdone => hdone ▸ rfl
  · exact fun s asset hs => assetStep_missing_none hs asset
  · have hbefore := assetsFrom_sound client hnames token before (h.ask asked)
    exact assetStep_served hnames hbefore hc hanswer hholds

/-- A release among the sources that offers a capture when its turn comes takes it off. -/
theorem sourcesFrom_served (h : s.Sound out.digest captures disk) (hc : c ∈ captures)
    {before after : List ReleaseSource} {source : ReleaseSource}
    (hoffers : Offers out client token (sourcesFrom out client token s before) source c) :
    SortedMap.get (sourcesFrom out client token s (before ++ source :: after)).missing c.fileName =
      none := by
  apply runUntil_through _ _ (fun s : Session => SortedMap.get s.missing c.fileName = none)
  · exact fun s hdone => hdone ▸ rfl
  · exact fun s source hs => sourceStep_missing_none hs source
  · exact sourceStep_served hnames (sourcesFrom_sound client hnames token before h) hc hoffers

end Offered

/-! ### The run -/

/-- A refused lock does not name captures as unavailable. -/
theorem lockedFrom_ne_unavailable (rest : List WasmCapture) (before : Missing)
    (names : List String) : lockedFrom rest before ≠ .error (.unavailable names) := by
  induction rest generalizing before with
  | nil => exact fun h => nomatch h
  | cons capture rest ih =>
      intro h
      rw [lockedFrom] at h
      cases hvalid : capture.validate with
      | error e =>
          rw [hvalid] at h
          cases h
          revert hvalid
          rw [WasmCapture.validate]
          split_ifs <;> exact fun h => nomatch h
      | ok _ =>
          rw [hvalid] at h
          change (if (SortedMap.get before capture.fileName).isSome then _ else _) = _ at h
          by_cases hdup : (SortedMap.get before capture.fileName).isSome = true
          · rw [if_pos hdup] at h
            cases h
          · rw [if_neg hdup] at h
            exact ih _ h

/-- A restore whose lock is accepted takes the steps of its session, and ends well when
nothing is missing from it. -/
theorem restoreCapturesWith_of_locked (out : Outside) (client : Client)
    (env : String → Option String) (sources : List ReleaseSource) (disk : CaptureDisk)
    {locked : Missing} (h : lockedFrom captures [] = .ok locked) :
    restoreCapturesWith out client env captures sources disk =
      ⟨(restoreSession out client env sources disk locked).steps,
        if (restoreSession out client env sources disk locked).missing = [] then .ok ()
        else .error (.unavailable
          ((restoreSession out client env sources disk locked).missing.map Prod.fst))⟩ := by
  rw [restoreCapturesWith, Action.check_bind_ok h]
  show Action.bind _ _ = _
  rw [Action.bind]
  exact congrArg (Whatspec.Library.Action.mk · _) (List.append_nil _)

end Whatspec.Store

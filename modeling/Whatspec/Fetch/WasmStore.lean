import Whatspec.Fetch.CacheCommit

/-!
# What an interrupted wasm store leaves of the payloads already cached

`storeWasm` writes the new payloads over the old ones in place and commits a manifest that
names only the new set.  A file is named by its URL, so a payload of the call lands on the
file of a cached payload exactly when their URLs agree, and a write truncates first.

`storeWasm_cut_keeps_iff` says, for a cut after any number of steps, exactly when every
payload that loaded before still loads with its bytes.  Before the commit this fails on a
URL the call has begun to write with other bytes, and `storeWasm_before_commit_iff` gives
the calls for which no cut before the commit can do harm.
-/

namespace Whatspec.Fetch

open Whatspec.Library Whatspec.Text

variable {rt : Runtime} {dir : String}

/-- Every wasm payload that loads from `d` loads from `d'` with the same bytes. -/
def KeepsWasm (rt : Runtime) (d d' : CacheDisk) : Prop :=
  ∀ v, ∀ b ∈ wasmPayloads rt d v, ∃ b' ∈ wasmPayloads rt d' v, b'.url = b.url ∧ b'.bytes = b.bytes

/-- What the first `k` steps of a wasm store have put in the file of a URL. -/
def overwritten (rt : Runtime) (wasm : List Bundle) (k : ℕ) (url : String) : Option Bytes :=
  written (setWrites rt wasm .wasm) (k - 1) (.wasm (cacheFileName rt url))

/-- The steps of a `storeWasm` call: none when it is refused. -/
def storeWasmProgram (rt : Runtime) (dir : String) (d : CacheDisk) (v : String)
    (wasm : List Bundle) (handles : List (String × String)) (pruned : List String) :
    List CacheStep :=
  match attachable rt dir d v with
  | .error _ => []
  | .ok m => storeWasmSteps rt m wasm handles pruned

/-! ### Which payloads load -/

theorem mem_wasmPayloads_iff {d : CacheDisk} {v : String} {b : Bundle} :
    b ∈ wasmPayloads rt d v ↔
      ∃ m, readManifest rt d = some m ∧ m.complete = true ∧ m.waVersion = v ∧
        ∃ entry ∈ m.wasm, loadOne rt d .wasm entry = .ok b := by
  unfold wasmPayloads
  cases hm : usableManifest rt d v with
  | error miss =>
      simp only [List.not_mem_nil, false_iff]
      rintro ⟨m, hread, hc, hv, _⟩
      have hok := usableManifest_ok_iff.mpr ⟨hread, hc, hv⟩
      rw [hm] at hok
      cases hok
  | ok m =>
      have hfacts := usableManifest_ok_iff.mp hm
      have htoOption : ∀ entry, (loadOne rt d .wasm entry).toOption = some b ↔
          loadOne rt d .wasm entry = .ok b := by
        intro entry
        cases loadOne rt d .wasm entry <;> simp [Except.toOption]
      simp only [List.mem_filterMap, htoOption]
      constructor
      · intro hentry
        exact ⟨m, hfacts.1, hfacts.2.1, hfacts.2.2, hentry⟩
      · rintro ⟨m', hread, _, _, hentry⟩
        have heq : m = m' := Option.some.inj (hfacts.1.symm.trans hread)
        subst heq
        exact hentry

/-- A payload that loads is the content of the file of its URL. -/
theorem file_of_mem_wasmPayloads {d : CacheDisk} {v : String} {b : Bundle}
    (hb : b ∈ wasmPayloads rt d v) : d.file (.wasm (cacheFileName rt b.url)) = some b.bytes := by
  obtain ⟨_, _, _, _, entry, _, hload⟩ := mem_wasmPayloads_iff.mp hb
  obtain ⟨bytes, hfile, _, _, rfl⟩ := loadOne_ok_iff.mp hload
  exact hfile

/-! ### The wasm files after a cut -/

/-- The file of a URL after a cut: what the call has written there, and otherwise what was
there.  Nothing after the writes of the set touches a file the call stored. -/
theorem run_storeWasm_file {m : CacheManifest} {wasm : List Bundle}
    {handles : List (String × String)} {pruned : List String} (hprunes : Prunes rt wasm pruned)
    (d : CacheDisk) (k : ℕ) (url : String)
    (h : k < (commitWasmSteps rt m wasm handles).length ∨ ∃ b ∈ wasm, b.url = url) :
    (d.run ((storeWasmSteps rt m wasm handles pruned).take k)).file
        (.wasm (cacheFileName rt url)) =
      (overwritten rt wasm k url).or (d.file (.wasm (cacheFileName rt url))) := by
  -- the tail of the call: the temporary manifest, its rename, and the removals
  let manifestSteps := writeManifestSteps rt (storeWasmManifest rt m wasm handles)
  let removals : List CacheStep := pruned.map fun n => .removeFile (.wasm n)
  have hsteps : storeWasmSteps rt m wasm handles pruned =
      (.makeDir .wasm :: writeFiles (setWrites rt wasm .wasm)) ++ (manifestSteps ++ removals) := by
    rw [storeWasmSteps, commitWasmSteps, writeSetSteps_eq, List.append_assoc]
  have hmanifest : ∀ e ∈ manifestSteps, ¬ e.touches (.wasm (cacheFileName rt url)) := by
    intro e he htouch
    rcases List.mem_append.mp he with htmp | hrename
    · cases writeFile_touches htmp htouch
    · rw [List.mem_singleton.mp hrename] at htouch
      rcases htouch with heq | heq <;> cases heq
  have hcommit : (commitWasmSteps rt m wasm handles).length =
      (writeFiles (D := CacheDir) (setWrites rt wasm .wasm)).length + 1 +
        manifestSteps.length := by
    rw [commitWasmSteps, writeSetSteps_eq, List.length_append, List.length_cons]
  have htail : ∀ e ∈ (manifestSteps ++ removals).take
      (k - ((writeFiles (D := CacheDir) (setWrites rt wasm .wasm)).length + 1)),
      ¬ e.touches (.wasm (cacheFileName rt url)) := by
    intro e he htouch
    rcases h with hlt | ⟨b, hb, rfl⟩
    · -- a cut before the commit takes nothing of the removals
      rw [List.take_append_of_le_length (by omega)] at he
      exact hmanifest e (List.mem_of_mem_take he) htouch
    · rcases List.mem_append.mp (List.mem_of_mem_take he) with hm | hr
      · exact hmanifest e hm htouch
      · obtain ⟨n, hn, rfl⟩ := List.mem_map.mp hr
        have hname : cacheFileName rt b.url = n := by injection htouch
        exact hprunes n hn b hb hname.symm
  rw [hsteps, List.take_append, Disk.run, runSteps_append, List.length_cons]
  have hframe := run_file_of_untouched htail
    (d.run ((.makeDir .wasm :: writeFiles (setWrites rt wasm .wasm)).take k))
  rw [Disk.run, Disk.run] at hframe
  rw [hframe]
  cases k with
  | zero =>
      have hnone : overwritten rt wasm 0 url = none := by
        rw [overwritten]
        cases setWrites rt wasm CacheFile.wasm <;> rfl
      rw [hnone, List.take_zero, runSteps_nil, Option.none_or]
  | succ k =>
      rw [List.take_succ_cons, runSteps_cons]
      exact run_take_writeFiles (setWrites rt wasm .wasm) k _ (DiskStep.applyTo (.makeDir .wasm) d)

/-- Once the call has committed, each file it stored has been written. -/
theorem overwritten_committed {m : CacheManifest} {wasm : List Bundle}
    {handles : List (String × String)} {k : ℕ}
    (hk : (commitWasmSteps rt m wasm handles).length ≤ k) {url : String}
    (hurl : ∃ b ∈ wasm, b.url = url) : ∃ bytes, overwritten rt wasm k url = some bytes := by
  obtain ⟨b, hb, rfl⟩ := hurl
  rw [commitWasmSteps, writeSetSteps_eq, List.length_append, List.length_cons] at hk
  have hlen : (writeFiles (D := CacheDir) (setWrites rt wasm .wasm)).length ≤ k - 1 := by omega
  obtain ⟨w, _, _, hw⟩ := written_all hlen
    ⟨(.wasm (cacheFileName rt b.url), b.bytes), List.mem_map.mpr ⟨b, hb, rfl⟩, rfl⟩
  exact ⟨w.2, hw⟩

/-- What a call writes in the file of a URL comes from a payload of that URL. -/
theorem overwritten_source (h : rt.Lawful) {wasm : List Bundle} {k : ℕ} {url : String}
    {bytes : Bytes} (hw : overwritten rt wasm k url = some bytes) :
    ∃ b ∈ wasm, b.url = url ∧ ∃ j, bytes = b.bytes.take j := by
  obtain ⟨w, hmem, hname, hprefix⟩ := written_prefix hw
  obtain ⟨b, hb, rfl⟩ := List.mem_map.mp hmem
  have hinj : cacheFileName rt b.url = cacheFileName rt url := by injection hname
  exact ⟨b, hb, cacheFileName_injective h hinj, hprefix⟩

/-- Once the call has committed, a file it stored holds the whole of a payload of its URL. -/
theorem overwritten_whole (h : rt.Lawful) {m : CacheManifest} {wasm : List Bundle}
    {handles : List (String × String)} {k : ℕ}
    (hk : (commitWasmSteps rt m wasm handles).length ≤ k) {url : String} {bytes : Bytes}
    (hw : overwritten rt wasm k url = some bytes) :
    ∃ b ∈ wasm, b.url = url ∧ b.bytes = bytes := by
  obtain ⟨b, hb, hurl, _⟩ := overwritten_source h hw
  rw [commitWasmSteps, writeSetSteps_eq, List.length_append, List.length_cons] at hk
  have hlen : (writeFiles (D := CacheDir) (setWrites rt wasm .wasm)).length ≤ k - 1 := by omega
  obtain ⟨w, hmem, hname, hall⟩ := written_all hlen
    ⟨(.wasm (cacheFileName rt url), b.bytes), List.mem_map.mpr ⟨b, hb, by rw [hurl]⟩, rfl⟩
  obtain ⟨b', hb', rfl⟩ := List.mem_map.mp hmem
  have hinj : cacheFileName rt b'.url = cacheFileName rt url := by injection hname
  refine ⟨b', hb', cacheFileName_injective h hinj, ?_⟩
  rw [overwritten, hall] at hw
  exact Option.some.inj hw

/-! ### The cuts that do no harm -/

/-- A cut after `k` steps of a call that is attached to manifest `m`: before the commit,
the call has put in the file of a loadable payload nothing or the payload's own bytes;
from the commit on, it has put there the payload's own bytes. -/
def SafeCut (rt : Runtime) (d : CacheDisk) (m : CacheManifest) (wasm : List Bundle)
    (handles : List (String × String)) (k : ℕ) : Prop :=
  ∀ b ∈ wasmPayloads rt d m.waVersion,
    overwritten rt wasm k b.url = some b.bytes ∨
      (overwritten rt wasm k b.url = none ∧ k < (commitWasmSteps rt m wasm handles).length)

theorem keeps_of_safeCut (h : rt.Lawful) {d : CacheDisk} {m : CacheManifest}
    (hread : readManifest rt d = some m) {wasm : List Bundle}
    {handles : List (String × String)} {pruned : List String} (hprunes : Prunes rt wasm pruned)
    {k : ℕ} (hsafe : SafeCut rt d m wasm handles k) :
    KeepsWasm rt d (d.run ((storeWasmSteps rt m wasm handles pruned).take k)) := by
  intro v b hb
  obtain ⟨m', hread', hcomplete, hversion, entry, hentry, hload⟩ := mem_wasmPayloads_iff.mp hb
  have hm : m = m' := Option.some.inj (hread.symm.trans hread')
  subst hm
  have hcut := hsafe b (by rw [hversion]; exact hb)
  obtain ⟨hbefore, hafter⟩ := readManifest_storeWasm_cut h d m wasm handles pruned k
  have hold := file_of_mem_wasmPayloads hb
  rcases Nat.lt_or_ge k (commitWasmSteps rt m wasm handles).length with hlt | hge
  · -- the old manifest still stands, and the file of `b` still holds its bytes
    have hfile : (d.run ((storeWasmSteps rt m wasm handles pruned).take k)).file
        (.wasm (cacheFileName rt b.url)) = some b.bytes := by
      rw [run_storeWasm_file hprunes d k b.url (Or.inl hlt), hold]
      rcases hcut with hsame | ⟨hnone, _⟩
      · rw [hsame, Option.some_or]
      · rw [hnone, Option.none_or]
    refine ⟨b, mem_wasmPayloads_iff.mpr ?_, rfl, rfl⟩
    refine ⟨m, (hbefore hlt).trans hread, hcomplete, hversion, entry, hentry, ?_⟩
    obtain ⟨bytes, _, hsize, hsum, rfl⟩ := loadOne_ok_iff.mp hload
    exact loadOne_ok_iff.mpr ⟨bytes, hfile, hsize, hsum, rfl⟩
  · -- the new manifest stands, and the call stored `b`'s bytes under `b`'s URL
    have hsame : overwritten rt wasm k b.url = some b.bytes := by
      rcases hcut with hsame | ⟨_, hlt⟩
      · exact hsame
      · omega
    obtain ⟨p, hp, hurl, hbytes⟩ := overwritten_whole h hge hsame
    refine ⟨p, mem_wasmPayloads_iff.mpr ?_, hurl, hbytes⟩
    refine ⟨_, hafter hge, hcomplete, hversion, entryOf rt p, List.mem_map_of_mem hp, ?_⟩
    apply (loadOne_entryOf_iff h).mpr
    refine ⟨?_, rfl⟩
    rw [run_storeWasm_file hprunes d k p.url (Or.inr ⟨p, hp, rfl⟩), hurl, hsame, hbytes,
      Option.some_or]

theorem safeCut_of_keeps (h : rt.Lawful) {d : CacheDisk} {m : CacheManifest}
    {wasm : List Bundle} {handles : List (String × String)} {pruned : List String}
    (hprunes : Prunes rt wasm pruned) {k : ℕ}
    (hkeeps : KeepsWasm rt d (d.run ((storeWasmSteps rt m wasm handles pruned).take k))) :
    SafeCut rt d m wasm handles k := by
  intro b hb
  obtain ⟨b', hb', hurl, hbytes⟩ := hkeeps m.waVersion b hb
  have hfile := file_of_mem_wasmPayloads hb'
  rw [hurl, hbytes] at hfile
  obtain ⟨_, hafter⟩ := readManifest_storeWasm_cut h d m wasm handles pruned k
  rcases Nat.lt_or_ge k (commitWasmSteps rt m wasm handles).length with hlt | hge
  · rw [run_storeWasm_file hprunes d k b.url (Or.inl hlt)] at hfile
    cases hw : overwritten rt wasm k b.url with
    | none => exact Or.inr ⟨rfl, hlt⟩
    | some bytes =>
        rw [hw, Option.some_or] at hfile
        exact Or.inl hfile
  · -- what loads under the new manifest is a payload of the call
    obtain ⟨m', hread', _, _, entry, hentry, hload⟩ := mem_wasmPayloads_iff.mp hb'
    have hm : storeWasmManifest rt m wasm handles = m' :=
      Option.some.inj ((hafter hge).symm.trans hread')
    subst hm
    obtain ⟨p, hp, rfl⟩ := List.mem_map.mp hentry
    obtain ⟨_, hpb⟩ := (loadOne_entryOf_iff h).mp hload
    have hpurl : p.url = b.url := by rw [← hpb, hurl]
    obtain ⟨bytes, hw⟩ := overwritten_committed hge ⟨p, hp, hpurl⟩
    rw [run_storeWasm_file hprunes d k b.url (Or.inr ⟨p, hp, hpurl⟩), hw, Option.some_or]
      at hfile
    exact Or.inl (hw.trans hfile)

/-- **Which cuts keep the payloads.** -/
theorem storeWasm_cut_keeps_iff (h : rt.Lawful) {d : CacheDisk} {m : CacheManifest}
    (hread : readManifest rt d = some m) {wasm : List Bundle}
    {handles : List (String × String)} {pruned : List String} (hprunes : Prunes rt wasm pruned)
    (k : ℕ) :
    KeepsWasm rt d (d.run ((storeWasmSteps rt m wasm handles pruned).take k)) ↔
      SafeCut rt d m wasm handles k :=
  ⟨safeCut_of_keeps h hprunes, keeps_of_safeCut h hread hprunes⟩

/-- The call writes no URL a loadable payload has, two empty payloads apart. -/
def NoOverlap (rt : Runtime) (d : CacheDisk) (v : String) (wasm : List Bundle) : Prop :=
  ∀ b ∈ wasmPayloads rt d v, ∀ p ∈ wasm, p.url = b.url → b.bytes = [] ∧ p.bytes = []

/-- Every prefix of every payload of the call is what some cut before the commit shows. -/
theorem exists_overwritten_take (rt : Runtime) (m : CacheManifest) {wasm : List Bundle}
    (handles : List (String × String)) {p : Bundle} (hp : p ∈ wasm) {j : ℕ}
    (hj : j ≤ p.bytes.length) :
    ∃ k < (commitWasmSteps rt m wasm handles).length,
      overwritten rt wasm k p.url = some (p.bytes.take j) := by
  have hmem : (CacheFile.wasm (cacheFileName rt p.url), p.bytes) ∈ setWrites rt wasm .wasm :=
    List.mem_map.mpr ⟨p, hp, rfl⟩
  obtain ⟨k, hk, hwritten⟩ := exists_written_take (D := CacheDir) hmem hj
  refine ⟨k + 1, ?_, hwritten⟩
  rw [commitWasmSteps, writeSetSteps_eq, List.length_append, List.length_cons,
    writeManifestSteps, List.length_append, List.length_singleton]
  omega

/-- **Which calls are harmless before their commit.** -/
theorem storeWasm_before_commit_iff (h : rt.Lawful) {d : CacheDisk} {m : CacheManifest}
    (hread : readManifest rt d = some m) {wasm : List Bundle}
    {handles : List (String × String)} {pruned : List String}
    (hprunes : Prunes rt wasm pruned) :
    (∀ k < (commitWasmSteps rt m wasm handles).length,
      KeepsWasm rt d (d.run ((storeWasmSteps rt m wasm handles pruned).take k))) ↔
      NoOverlap rt d m.waVersion wasm := by
  constructor
  · intro hall b hb p hp hurl
    -- a cut that has written the first `j` bytes of `p` leaves `b` only if they are `b`
    have hbytes : ∀ j ≤ p.bytes.length, p.bytes.take j = b.bytes := by
      intro j hj
      obtain ⟨k, hk, hover⟩ := exists_overwritten_take rt m handles hp hj
      rw [hurl] at hover
      rcases safeCut_of_keeps h hprunes (hall k hk) b hb with hsame | ⟨hnone, _⟩
      · exact Option.some.inj (hover.symm.trans hsame)
      · rw [hover] at hnone
        cases hnone
    have hempty : b.bytes = [] := by rw [← hbytes 0 (Nat.zero_le _), List.take_zero]
    have hwhole := hbytes p.bytes.length le_rfl
    rw [List.take_length, hempty] at hwhole
    exact ⟨hempty, hwhole⟩
  · intro hno k hk
    apply keeps_of_safeCut h hread hprunes
    intro b hb
    cases hover : overwritten rt wasm k b.url with
    | none => exact Or.inr ⟨rfl, hk⟩
    | some bytes =>
        obtain ⟨p, hp, hurl, j, rfl⟩ := overwritten_source h hover
        obtain ⟨hb', hp'⟩ := hno b hb p hp hurl
        rw [hb', hp', List.take_nil]
        exact Or.inl rfl

/-- **A failed wasm store is harmless exactly when it overwrites nothing.**  No cut of a
call before its commit loses a payload that loaded, if and only if the call is refused or
writes no URL such a payload has (two empty payloads apart).  And for every cut, before or
after the commit, what loaded still loads exactly when the cut is a `SafeCut`. -/
theorem failed_storeWasm_harmless_iff (h : rt.Lawful) (d : CacheDisk) (v : String)
    (wasm : List Bundle) (handles : List (String × String)) (pruned : List String)
    (hprunes : Prunes rt wasm pruned) :
    ((∀ k, (∀ m, attachable rt dir d v = .ok m →
          k < (commitWasmSteps rt m wasm handles).length) →
        KeepsWasm rt d (d.run ((storeWasmProgram rt dir d v wasm handles pruned).take k))) ↔
      (∃ why, attachable rt dir d v = .error why) ∨ NoOverlap rt d v wasm) ∧
    ∀ m, attachable rt dir d v = .ok m → ∀ k,
      (KeepsWasm rt d (d.run ((storeWasmProgram rt dir d v wasm handles pruned).take k)) ↔
        SafeCut rt d m wasm handles k) := by
  cases hattach : attachable rt dir d v with
  | error why =>
      have hprogram : storeWasmProgram rt dir d v wasm handles pruned = [] := by
        rw [storeWasmProgram, hattach]
      refine ⟨⟨fun _ => Or.inl ⟨why, rfl⟩, fun _ k _ => ?_⟩, fun m hm => by cases hm⟩
      rw [hprogram, List.take_nil]
      exact fun v b hb => ⟨b, hb, rfl, rfl⟩
  | ok m =>
      have hprogram : storeWasmProgram rt dir d v wasm handles pruned =
          storeWasmSteps rt m wasm handles pruned := by
        rw [storeWasmProgram, hattach]
      obtain ⟨hread, _, hversion⟩ := attachable_ok_iff.mp hattach
      have hbefore := @storeWasm_before_commit_iff rt h d m hread wasm handles pruned hprunes
      rw [hversion] at hbefore
      rw [hprogram]
      constructor
      · constructor
        · intro hall
          exact Or.inr (hbefore.mp fun k hk => hall k fun m' hm' => by cases hm'; exact hk)
        · rintro (⟨why, hwhy⟩ | hno) k hk
          · cases hwhy
          · exact hbefore.mpr hno k (hk m rfl)
      · intro m' hm' k
        cases hm'
        exact storeWasm_cut_keeps_iff h hread hprunes k

/-! ### A store that is not interrupted -/

/-- **A wasm store that runs to its end loads back**, when its URLs are distinct. -/
theorem wasmPayloads_after_storeWasm (h : rt.Lawful) {d : CacheDisk} {m : CacheManifest}
    {v : String} (hattach : attachable rt dir d v = .ok m) {wasm : List Bundle}
    (hurls : (wasm.map Bundle.url).Nodup) (handles : List (String × String))
    {pruned : List String} (hprunes : Prunes rt wasm pruned) :
    wasmPayloads rt (d.run (storeWasmSteps rt m wasm handles pruned)) v = wasm := by
  obtain ⟨_, hcomplete, hversion⟩ := attachable_ok_iff.mp hattach
  let k := (storeWasmSteps rt m wasm handles pruned).length
  have hk : (commitWasmSteps rt m wasm handles).length ≤ k := by
    show _ ≤ (storeWasmSteps rt m wasm handles pruned).length
    rw [storeWasmSteps, List.length_append]
    omega
  have hread := (readManifest_storeWasm_cut h d m wasm handles pruned k).2 hk
  have hfile : ∀ b ∈ wasm, (d.run ((storeWasmSteps rt m wasm handles pruned).take k)).file
      (.wasm (cacheFileName rt b.url)) = some b.bytes := by
    intro b hb
    obtain ⟨bytes, hw⟩ := overwritten_committed hk ⟨b, hb, rfl⟩
    obtain ⟨b', hb', hurl, rfl⟩ := overwritten_whole h hk hw
    rw [run_storeWasm_file hprunes d k b.url (Or.inr ⟨b, hb, rfl⟩), hw, Option.some_or,
      List.inj_on_of_nodup_map hurls hb' hb hurl]
  rw [List.take_length] at hread hfile
  have husable : usableManifest rt (d.run (storeWasmSteps rt m wasm handles pruned)) v =
      .ok (storeWasmManifest rt m wasm handles) :=
    usableManifest_ok_iff.mpr ⟨hread, hcomplete, hversion⟩
  simp only [wasmPayloads, husable, storeWasmManifest, List.filterMap_map]
  refine (List.filterMap_congr fun b hb => ?_).trans List.filterMap_some
  show (loadOne rt _ .wasm (entryOf rt b)).toOption = some b
  rw [(loadOne_entryOf_iff h).mpr ⟨hfile b hb, rfl⟩]
  rfl

/-! ### A cached payload and a call that overwrites it -/

/-- A payload in the cache. -/
def cachedPayload : Bundle := ⟨"https://h/e.wasm", "e.wasm", utf8 "hello"⟩

/-- The disk of a cache that holds it. -/
def cachedDisk : CacheDisk where
  file
    | .manifest =>
        some (utf8 (sampleRuntime.toStringPretty withWasm ++ "\n"))
    | .manifestTmp => none
    | .bundle name =>
        if name = cacheFileName sampleRuntime "https://h/a.js" then some (utf8 "alpha") else none
    | .wasm name =>
        if name = cacheFileName sampleRuntime "https://h/e.wasm" then some (utf8 "hello")
        else none
  dir _ := true

theorem readManifest_cachedDisk : readManifest sampleRuntime cachedDisk = some withWasm :=
  readManifest_of_text sampleRuntime_lawful rfl

theorem wasmPayloads_cachedDisk :
    wasmPayloads sampleRuntime cachedDisk "2.3000.1" = [cachedPayload] := by
  have husable : usableManifest sampleRuntime cachedDisk "2.3000.1" = .ok withWasm :=
    usableManifest_ok_iff.mpr ⟨readManifest_cachedDisk, rfl, rfl⟩
  have hentry : withWasm.wasm = [entryOf sampleRuntime cachedPayload] := by decide +kernel
  have hfile : cachedDisk.file (.wasm (cacheFileName sampleRuntime cachedPayload.url)) =
      some cachedPayload.bytes := by
    show (if cacheFileName sampleRuntime "https://h/e.wasm" =
      cacheFileName sampleRuntime "https://h/e.wasm" then some (utf8 "hello") else none) = _
    exact if_pos rfl
  have hload : loadOne sampleRuntime cachedDisk .wasm (entryOf sampleRuntime cachedPayload) =
      .ok cachedPayload :=
    (loadOne_entryOf_iff sampleRuntime_lawful).mpr ⟨hfile, rfl⟩
  rw [wasmPayloads, husable]
  show withWasm.wasm.filterMap _ = _
  rw [hentry, List.filterMap_cons, hload]
  rfl

theorem attachable_cachedDisk :
    attachable sampleRuntime "cache" cachedDisk "2.3000.1" = .ok withWasm :=
  attachable_ok_iff.mpr ⟨readManifest_cachedDisk, rfl, rfl⟩

/-- A call for another URL harms nothing, wherever it is cut before its commit. -/
theorem failed_storeWasm_harmless_other_url :
    NoOverlap sampleRuntime cachedDisk "2.3000.1" [⟨"https://h/f.wasm", "f.wasm", utf8 "world"⟩] ∧
      ∀ k, (∀ m, attachable sampleRuntime "cache" cachedDisk "2.3000.1" = .ok m →
          k < (commitWasmSteps sampleRuntime m [⟨"https://h/f.wasm", "f.wasm", utf8 "world"⟩]
            []).length) →
        KeepsWasm sampleRuntime cachedDisk
          (cachedDisk.run ((storeWasmProgram sampleRuntime "cache" cachedDisk "2.3000.1"
            [⟨"https://h/f.wasm", "f.wasm", utf8 "world"⟩] [] []).take k)) := by
  have hno : NoOverlap sampleRuntime cachedDisk "2.3000.1"
      [⟨"https://h/f.wasm", "f.wasm", utf8 "world"⟩] := by
    intro b hb p hp hurl
    rw [wasmPayloads_cachedDisk] at hb
    rw [List.mem_singleton.mp hb, List.mem_singleton.mp hp] at hurl
    exact absurd hurl (by decide)
  exact ⟨hno, (failed_storeWasm_harmless_iff sampleRuntime_lawful cachedDisk "2.3000.1"
    [⟨"https://h/f.wasm", "f.wasm", utf8 "world"⟩] [] [] (fun n hn => by cases hn)).1.mpr
    (Or.inr hno)⟩

/-- **A failed store loses a cached payload.**  The call brings other bytes for the cached
URL and is cut after it has written them, before the manifest: the directory is made, the
file truncated and five bytes written. -/
theorem failed_storeWasm_loses_payload :
    wasmPayloads sampleRuntime cachedDisk "2.3000.1" = [cachedPayload] ∧
      ¬ KeepsWasm sampleRuntime cachedDisk
        (cachedDisk.run ((storeWasmProgram sampleRuntime "cache" cachedDisk "2.3000.1"
          [⟨"https://h/e.wasm", "e.wasm", utf8 "world"⟩] [] []).take 7)) := by
  refine ⟨wasmPayloads_cachedDisk, fun hkeeps => ?_⟩
  rw [storeWasmProgram, attachable_cachedDisk] at hkeeps
  have hsafe := safeCut_of_keeps sampleRuntime_lawful (fun n hn => by cases hn) hkeeps
  have hmem : cachedPayload ∈ wasmPayloads sampleRuntime cachedDisk "2.3000.1" := by
    rw [wasmPayloads_cachedDisk]
    exact List.mem_singleton.mpr rfl
  have hover : overwritten sampleRuntime [⟨"https://h/e.wasm", "e.wasm", utf8 "world"⟩] 7
      cachedPayload.url = some (utf8 "world") := by decide +kernel
  rcases hsafe cachedPayload hmem with hsame | ⟨hnone, _⟩
  · rw [hover] at hsame
    exact absurd hsame (by decide +kernel)
  · rw [hover] at hnone
    cases hnone

end Whatspec.Fetch

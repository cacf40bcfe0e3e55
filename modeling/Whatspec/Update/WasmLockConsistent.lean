import Whatspec.Update.WasmRun

/-!
# Does the wasm lock contradict itself?

A lock is consistent when the handle of each of its entries resolves to the URL of the entry, and
no two entries have one handle.

* `GoodHandles` is what the cache keeps of its handles, and `goodHandles_handles` what a run makes
  of them;
* `get_pins_of_bound` and `get_pins_of_unbound` say what a run pins for a handle: what the page and
  the answers bind, or else what the cache has;
* a run that finds no payloads keeps the entries of the lock and rewrites its handles.

**`reached_iff`**: over any history, the lock that a run writes is consistent and current exactly
when such a run binds no handle of an entry to another URL.
-/

namespace Whatspec.Update

open Whatspec.Library Whatspec.Text Whatspec.Fetch Whatspec.Store

variable {rt : Runtime} {ν : Type}

/-! ### Locks and handles -/

/-- The entries of a lock and its handles agree. -/
structure PinnedLock.Consistent (l : PinnedLock) : Prop where
  resolved : ∀ e ∈ l.lock.wasm, ∀ id, e.bxId = some id →
    SortedMap.get l.handles id = some e.url
  distinct : l.lock.wasm.Pairwise fun a b => ∀ id, a.bxId = some id → b.bxId ≠ some id

/-- The handles that the page and the answers of a run bind. -/
def FetchRun.bound (run : FetchRun ν) : List (String × String) :=
  (askEndpoint run.discovered run.answers).bx

/-- What a lock says of a handle that the run saw is what the run bound. -/
structure PinnedLock.Current (l : PinnedLock) (run : FetchRun ν) : Prop where
  entries : ∀ e ∈ l.lock.wasm, ∀ id, e.bxId = some id → id ∈ run.resolution.observedIds →
    SortedMap.get run.bound id = some e.url
  handles : ∀ id url, SortedMap.get l.handles id = some url → id ∈ run.resolution.observedIds →
    SortedMap.get run.bound id = some url

/-- Every URL is that of a payload, and no two have one handle. -/
structure GoodHandles (m : List (String × String)) : Prop where
  sorted : SortedMap.Sorted m
  payload : ∀ {url id}, SortedMap.get m url = some id → isWasmPayload url = true
  unique : ∀ {url url' id}, SortedMap.get m url = some id → SortedMap.get m url' = some id →
    url = url'

theorem goodHandles_nil : GoodHandles [] := ⟨List.Pairwise.nil, nofun, nofun⟩

/-- Some of the pairs of good handles are good. -/
theorem GoodHandles.collect {m entries : List (String × String)} (h : GoodHandles m)
    (hentries : ∀ p ∈ entries, SortedMap.get m p.1 = some p.2) :
    GoodHandles (SortedMap.collect entries) := by
  have hget : ∀ {url id}, SortedMap.get (SortedMap.collect entries) url = some id →
      SortedMap.get m url = some id := fun hget => hentries _ (SortedMap.mem_of_get_collect hget)
  exact ⟨SortedMap.sorted_collect entries, fun h' => h.payload (hget h'),
    fun h' h'' => h.unique (hget h') (hget h'')⟩

theorem goodHandles_storeWasmManifest {handles : List (String × String)} (h : GoodHandles handles)
    (m : CacheManifest) (wasm : List Bundle) :
    GoodHandles (storeWasmManifest rt m wasm handles).wasmHandles := by
  refine h.collect fun p hp => ?_
  obtain ⟨b, -, hb⟩ := List.mem_filterMap.mp hp
  obtain ⟨id, hid, rfl⟩ := Option.map_eq_some_iff.mp hb
  exact hid

theorem goodHandles_attached {manifest : Option CacheManifest} {handles : List (String × String)}
    (hmanifest : ∀ m, manifest = some m → GoodHandles m.wasmHandles) (h : GoodHandles handles)
    {waVersion : String} {wasm : List Bundle} {m : CacheManifest}
    (hm : attached rt manifest waVersion wasm handles = some m) : GoodHandles m.wasmHandles := by
  obtain ⟨m', hm', rfl⟩ := Option.map_eq_some_iff.mp hm
  split_ifs
  · exact goodHandles_storeWasmManifest h m' wasm
  · exact hmanifest m' hm'

/-! ### What a run binds -/

section Run

variable {run : FetchRun ν} {manifest : Option CacheManifest}

theorem get_byId_run (id url : String) : SortedMap.get run.resolution.byId id = some url ↔
    SortedMap.get run.bound id = some url ∧ isWasmPayload url = true :=
  get_byId run.discovered run.answers id url

theorem mem_observedIds_iff (id : String) : id ∈ run.resolution.observedIds ↔
    ∃ url, SortedMap.get run.bound id = some url := by
  rw [← not_iff_not, show id ∉ run.resolution.observedIds ↔ _ from
    not_mem_observedIds_iff run.discovered run.answers id]
  cases h : SortedMap.get run.bound id with
  | none => simp [show (askEndpoint run.discovered run.answers).bx = run.bound from rfl, h]
  | some url => simp [show (askEndpoint run.discovered run.answers).bx = run.bound from rfl, h]

theorem get_page {id url : String} (h : SortedMap.get run.discovered.bxData id = some url) :
    SortedMap.get run.bound id = some url :=
  get_askEndpoint run.discovered run.answers h

/-- The handle that a run has for a URL is the one it binds to the URL, or else one that it did
not see and the cache has. -/
theorem get_handles (hcache : GoodHandles (cachedHandles manifest run)) {url id : String}
    (h : SortedMap.get (handles manifest run) url = some id) :
    SortedMap.get run.bound id = some url ∧ isWasmPayload url = true ∨
      SortedMap.get run.bound id = none ∧
        SortedMap.get (cachedHandles manifest run) url = some id := by
  have hlive : SortedMap.Sorted run.resolution.handleByUrl :=
    SortedMap.sorted_complete List.Pairwise.nil _
  have hall : SortedMap.Sorted (SortedMap.extend (SortedMap.extend (invert run.discovered.bxData)
      (cachedHandles manifest run)) run.resolution.handleByUrl) :=
    SortedMap.sorted_extend (SortedMap.sorted_extend
      (SortedMap.sorted_complete List.Pairwise.nil _) _) _
  rw [handles, dropStaleAliases, SortedMap.get_filter hall, Option.filter_eq_some_iff] at h
  obtain ⟨hget, hkeep⟩ := h
  cases hbyId : SortedMap.get run.resolution.byId id with
  | some live =>
    simp only [hbyId, decide_eq_true_eq] at hkeep
    subst hkeep
    exact Or.inl ((get_byId_run id live).mp hbyId)
  | none =>
    simp only [hbyId, decide_eq_true_eq] at hkeep
    have hbound : SortedMap.get run.bound id = none := by
      rw [Option.eq_none_iff_forall_ne_some]
      intro url' h'
      exact hkeep ((mem_observedIds_iff id).mpr ⟨url', h'⟩)
    rw [SortedMap.get_extend hlive, SortedMap.get_extend hcache.sorted, Option.or_eq_some_iff,
      Option.or_eq_some_iff] at hget
    refine Or.inr ⟨hbound, ?_⟩
    obtain hget | ⟨-, hget | ⟨-, hget⟩⟩ := hget
    · have hsorted : SortedMap.Sorted run.resolution.byId :=
        sorted_byId run.discovered run.answers
      rw [get_invert hsorted hget] at hbyId
      cases hbyId
    · exact hget
    · rw [get_page (get_invert run.discovered.sorted hget)] at hbound
      cases hbound

theorem goodHandles_handles (hcache : GoodHandles (cachedHandles manifest run)) :
    GoodHandles (handles manifest run) := by
  refine ⟨(SortedMap.sorted_extend (SortedMap.sorted_extend
    (SortedMap.sorted_complete List.Pairwise.nil _) _) _).filter _, fun h => ?_, fun h h' => ?_⟩
  · obtain ⟨-, hpayload⟩ | ⟨-, hget⟩ := get_handles hcache h
    · exact hpayload
    · exact hcache.payload hget
  · obtain ⟨hbound, -⟩ | ⟨hnone, hget⟩ := get_handles hcache h
    · obtain ⟨hbound', -⟩ | ⟨hnone', -⟩ := get_handles hcache h'
      · exact Option.some.inj (hbound.symm.trans hbound')
      · rw [hbound] at hnone'
        cases hnone'
    · obtain ⟨hbound', -⟩ | ⟨-, hget'⟩ := get_handles hcache h'
      · rw [hbound'] at hnone
        cases hnone
      · exact hcache.unique hget hget'

/-! ### What a run pins -/

theorem sorted_ids : SortedMap.Sorted (ids manifest run) :=
  SortedMap.sorted_complete (SortedMap.sorted_extend run.discovered.sorted _) _

/-- The handles of the cache that a run did not see, by handle. -/
def unseenHandles (manifest : Option CacheManifest) (run : FetchRun ν) : List (String × String) :=
  ((cachedHandles manifest run).filter fun p => p.2 ∉ run.resolution.observedIds).map Prod.swap

theorem get_ids (id : String) : SortedMap.get (ids manifest run) id =
    ((SortedMap.get run.resolution.byId id).or (SortedMap.get run.discovered.bxData id)).or
      (SortedMap.get (unseenHandles manifest run) id) := by
  have hbyId : SortedMap.Sorted run.resolution.byId := sorted_byId run.discovered run.answers
  rw [ids, SortedMap.get_complete, SortedMap.get_extend hbyId]
  rfl

theorem get_pins (id : String) : SortedMap.get (pins manifest run).wasmHandles id =
    (SortedMap.get (ids manifest run) id).filter isWasmPayload :=
  SortedMap.get_filter sorted_ids _ id

theorem mem_unseenHandles {id url : String} : (id, url) ∈ unseenHandles manifest run ↔
    (url, id) ∈ cachedHandles manifest run ∧ id ∉ run.resolution.observedIds := by
  rw [unseenHandles, List.mem_map]
  constructor
  · rintro ⟨⟨url', id'⟩, hmem, heq⟩
    cases heq
    simpa using List.mem_filter.mp hmem
  · rintro ⟨hmem, hunseen⟩
    exact ⟨(url, id), List.mem_filter.mpr ⟨hmem, by simpa using hunseen⟩, rfl⟩

/-- For a handle that it saw, a run pins what it bound, if that is a payload. -/
theorem get_pins_of_bound {id url : String} (h : SortedMap.get run.bound id = some url) :
    SortedMap.get (pins manifest run).wasmHandles id =
      if isWasmPayload url then some url else none := by
  rw [get_pins, get_ids]
  split_ifs with hpayload
  · rw [(get_byId_run id url).mpr ⟨h, hpayload⟩, Option.some_or, Option.some_or, Option.filter_some,
      if_pos hpayload]
  · have hnone : SortedMap.get run.resolution.byId id = none := by
      rw [Option.eq_none_iff_forall_ne_some]
      intro url' h'
      obtain ⟨hbound, hpayload'⟩ := (get_byId_run id url').mp h'
      rw [Option.some.inj (h.symm.trans hbound)] at hpayload
      exact hpayload hpayload'
    rw [hnone, Option.none_or]
    cases hpage : SortedMap.get run.discovered.bxData id with
    | some url' =>
      rw [Option.some.inj ((get_page hpage).symm.trans h), Option.some_or, Option.filter_some,
        if_neg hpayload]
    | none =>
      have hseen : id ∈ run.resolution.observedIds := (mem_observedIds_iff id).mpr ⟨url, h⟩
      rw [Option.none_or]
      cases hunseen : SortedMap.get (unseenHandles manifest run) id with
      | none => rfl
      | some url' => exact absurd hseen (mem_unseenHandles.mp (SortedMap.mem_of_get hunseen)).2

/-- For a handle that it did not see, a run pins what the cache has. -/
theorem get_pins_of_unbound (hcache : GoodHandles (cachedHandles manifest run)) {id : String}
    (h : SortedMap.get run.bound id = none) (url : String) :
    SortedMap.get (pins manifest run).wasmHandles id = some url ↔
      SortedMap.get (cachedHandles manifest run) url = some id := by
  have hbyId : SortedMap.get run.resolution.byId id = none := by
    rw [Option.eq_none_iff_forall_ne_some]
    intro url' h'
    rw [((get_byId_run id url').mp h').1] at h
    cases h
  have hpage : SortedMap.get run.discovered.bxData id = none := by
    rw [Option.eq_none_iff_forall_ne_some]
    intro url' h'
    rw [get_page h'] at h
    cases h
  have hunseen : id ∉ run.resolution.observedIds := by
    rw [mem_observedIds_iff, h]
    rintro ⟨url', h'⟩
    cases h'
  have hmem : ∀ {url'}, SortedMap.get (unseenHandles manifest run) id = some url' →
      SortedMap.get (cachedHandles manifest run) url' = some id := fun hget =>
    SortedMap.get_of_mem hcache.sorted (mem_unseenHandles.mp (SortedMap.mem_of_get hget)).1
  rw [get_pins, get_ids, hbyId, hpage, Option.none_or, Option.none_or, Option.filter_eq_some_iff]
  constructor
  · rintro ⟨hget, -⟩
    exact hmem hget
  · intro hget
    refine ⟨?_, hcache.payload hget⟩
    cases hfirst : SortedMap.get (unseenHandles manifest run) id with
    | some url' => rw [hcache.unique (hmem hfirst) hget]
    | none =>
      refine absurd ?_ ((SortedMap.get_eq_none_iff _ id).mp hfirst)
      exact List.mem_map.mpr
        ⟨(id, url), mem_unseenHandles.mpr ⟨SortedMap.mem_of_get hget, hunseen⟩, rfl⟩

theorem payload_of_get_pins {id url : String}
    (h : SortedMap.get (pins manifest run).wasmHandles id = some url) :
    isWasmPayload url = true := by
  rw [get_pins, Option.filter_eq_some_iff] at h
  exact h.2

/-- The handle that a run has for a URL is pinned to the URL. -/
theorem get_pins_of_get_handles (hcache : GoodHandles (cachedHandles manifest run))
    {url id : String} (h : SortedMap.get (handles manifest run) url = some id) :
    SortedMap.get (pins manifest run).wasmHandles id = some url := by
  obtain ⟨hbound, hpayload⟩ | ⟨hnone, hget⟩ := get_handles hcache h
  · rw [get_pins_of_bound hbound, if_pos hpayload]
  · exact (get_pins_of_unbound hcache hnone url).mpr hget

/-! ### Merging with a lock -/

/-- The handles of a bootloader section. -/
def pinned (prior : Option BootloaderPins) : List (String × String) :=
  match prior with
  | some pins => pins.wasmHandles
  | none => []

theorem get_mergePriorHandles (p : BootloaderPins) (prior : Option BootloaderPins)
    (seen : List String) (id : String) :
    SortedMap.get (mergePriorHandles p prior seen).wasmHandles id =
      (SortedMap.get p.wasmHandles id).or
        (if id ∈ seen then none else SortedMap.get (pinned prior) id) := by
  cases prior with
  | none =>
    rw [pinned, SortedMap.get_nil, ite_self, Option.or_none]
    rfl
  | some prior =>
    rw [mergePriorHandles, SortedMap.get_complete,
      SortedMap.get_filter_key prior.wasmHandles (fun id => id ∉ seen)]
    by_cases hseen : id ∈ seen
    · rw [if_pos hseen, if_neg (by simpa using hseen)]
    · rw [if_neg hseen, if_pos (by simpa using hseen)]
      rfl

/-- What a merged section says of a handle that the run saw is what the run bound. -/
theorem bound_of_get_merged {prior : Option BootloaderPins} {id url : String}
    (h : SortedMap.get (mergePriorHandles (pins manifest run) prior
      run.resolution.observedIds).wasmHandles id = some url)
    (hseen : id ∈ run.resolution.observedIds) : SortedMap.get run.bound id = some url := by
  obtain ⟨url', hbound⟩ := (mem_observedIds_iff id).mp hseen
  rw [get_mergePriorHandles, if_pos hseen, Option.or_none, get_pins_of_bound hbound] at h
  split_ifs at h
  rw [hbound]
  exact h

theorem payload_of_get_merged {prior : Option BootloaderPins}
    (hprior : ∀ id url, SortedMap.get (pinned prior) id = some url → isWasmPayload url = true)
    {id url : String}
    (h : SortedMap.get (mergePriorHandles (pins manifest run) prior
      run.resolution.observedIds).wasmHandles id = some url) : isWasmPayload url = true := by
  rw [get_mergePriorHandles, Option.or_eq_some_iff] at h
  obtain h | ⟨-, h⟩ := h
  · exact payload_of_get_pins h
  · split_ifs at h
    exact hprior id url h

end Run

/-! ### The payloads of a run -/

theorem map_url_nameFrom : ∀ (taken : List String) (bs : List Bundle),
    (nameFrom rt taken bs).map Bundle.url = bs.map Bundle.url
  | _, [] => rfl
  | _, b :: bs => congrArg (b.url :: ·) (map_url_nameFrom _ bs)

theorem fst_eq_url_of_mem_merged {run : FetchRun ν} :
    ∀ p ∈ merged run, p.1 = p.2.url := by
  have hbyUrl : ∀ (bs : List Bundle), ∀ p ∈ byUrl bs, p.1 = p.2.url := by
    intro bs p hp
    obtain ⟨b, -, rfl⟩ := List.mem_map.mp hp
    rfl
  intro p hp
  obtain hp | hp := SortedMap.mem_of_mem_extend hp
  · obtain hp | hp := SortedMap.mem_of_mem_extend hp
    · cases hp
    · exact hbyUrl _ p hp
  · exact hbyUrl _ p hp

/-- No two payloads of a run have one URL. -/
theorem nodup_url_payloads (run : FetchRun ν) : ((payloads rt run).map Bundle.url).Nodup := by
  have hkeys : (merged run).map (fun p => p.2.url) = (merged run).map Prod.fst :=
    List.map_congr_left fun p hp => (fst_eq_url_of_mem_merged p hp).symm
  rw [payloads, withLockSafeFileNames, map_url_nameFrom, List.map_map,
    show Bundle.url ∘ Prod.snd = fun p : String × Bundle => p.2.url from rfl, hkeys]
  have hsorted : SortedMap.Sorted (merged run) :=
    SortedMap.sorted_extend (SortedMap.sorted_collect _) _
  exact List.pairwise_map.mpr (hsorted.imp ne_of_lt)

/-- A run finds a payload: in the cache, or by a download of what is not in the cache. -/
def FetchRun.FindsPayload (run : FetchRun ν) : Prop :=
  let cached := SortedMap.collect (byUrl run.cachedPayloads)
  (∃ url b, SortedMap.get cached url = some b ∧ keep b = true) ∨
    ∃ url ∈ run.resolution.urls, SortedMap.get cached url = none ∧
      ∃ bytes, run.download url = some bytes ∧ wasmMagic.isPrefixOf bytes = true

theorem payloads_ne_nil_iff (run : FetchRun ν) : payloads rt run ≠ [] ↔ run.FindsPayload := by
  have hnil : payloads rt run = [] ↔ merged run = [] := by
    have hmap : (nameFrom rt [] ((merged run).map Prod.snd)).map Bundle.url =
        ((merged run).map Prod.snd).map Bundle.url := map_url_nameFrom _ _
    rw [payloads, withLockSafeFileNames, ← List.map_eq_nil_iff (f := Bundle.url), hmap,
      List.map_eq_nil_iff, List.map_eq_nil_iff]
  have hcached : SortedMap.collect (byUrl (reused run)) = [] ↔ reused run = [] := by
    rw [SortedMap.collect, ← SortedMap.extend, SortedMap.extend_eq_nil_iff, byUrl,
      List.map_eq_nil_iff]
    exact and_iff_right rfl
  rw [ne_eq, hnil, merged, SortedMap.extend_eq_nil_iff, hcached, byUrl, List.map_eq_nil_iff,
    not_and_or, FetchRun.FindsPayload]
  refine or_congr ?_ ?_
  · rw [reused, List.filter_eq_nil_iff]
    push Not
    constructor
    · rintro ⟨b, hb, hkeep⟩
      obtain ⟨⟨url, b'⟩, hmem, rfl⟩ := List.mem_map.mp hb
      exact ⟨url, b', SortedMap.get_of_mem (SortedMap.sorted_collect _) hmem, hkeep⟩
    · rintro ⟨url, b, hget, hkeep⟩
      exact ⟨b, List.mem_map.mpr ⟨_, SortedMap.mem_of_get hget, rfl⟩, hkeep⟩
  · rw [downloaded, List.filter_eq_nil_iff]
    push Not
    constructor
    · rintro ⟨b, hb, hkeep⟩
      obtain ⟨url, hurl, hmap⟩ := List.mem_filterMap.mp hb
      obtain ⟨bytes, hbytes, rfl⟩ := Option.map_eq_some_iff.mp hmap
      obtain ⟨hurl, hnone⟩ := List.mem_filter.mp hurl
      exact ⟨url, hurl, Option.isNone_iff_eq_none.mp hnone, bytes, hbytes, hkeep⟩
    · rintro ⟨url, hurl, hnone, bytes, hbytes, hkeep⟩
      refine ⟨⟨url, bundleFileName url, bytes⟩, List.mem_filterMap.mpr ⟨url, ?_, ?_⟩, hkeep⟩
      · exact List.mem_filter.mpr ⟨hurl, Option.isNone_iff_eq_none.mpr hnone⟩
      · rw [hbytes, Option.map_some]

/-! ### The entries of a run -/

theorem mem_withBootloader {waVersion : String} {wasm : List WasmLockEntry}
    {bootloader : Option BootloaderPins} {e : WasmLockEntry} :
    e ∈ (withBootloader rt waVersion wasm bootloader).lock.wasm ↔ e ∈ wasm :=
  List.mem_insertionSort entryLe

theorem handles_withBootloader {waVersion : String} {wasm : List WasmLockEntry}
    {bootloader : Option BootloaderPins} :
    (withBootloader rt waVersion wasm bootloader).handles = pinned bootloader := rfl

/-- The handle of an entry is that of its URL. -/
theorem bxId_of_mem_wasmEntries {found : List Bundle} {handleByUrl : List (String × String)}
    {e : WasmLockEntry} (he : e ∈ wasmEntries rt found handleByUrl) :
    e.bxId = SortedMap.get handleByUrl e.url := by
  obtain ⟨b, -, rfl⟩ := List.mem_map.mp he
  rfl

/-- Payloads of different URLs have different handles. -/
theorem pairwise_wasmEntries {found : List Bundle} {handleByUrl : List (String × String)}
    (hgood : GoodHandles handleByUrl) (hnodup : (found.map Bundle.url).Nodup) :
    (wasmEntries rt found handleByUrl).Pairwise fun a b =>
      ∀ id, a.bxId = some id → b.bxId ≠ some id := by
  refine List.pairwise_map.mpr ((List.pairwise_map.mp hnodup).imp ?_)
  intro a b hne id ha hb
  exact hne (hgood.unique ha hb)

theorem pairwise_withBootloader {waVersion : String} {wasm : List WasmLockEntry}
    {bootloader : Option BootloaderPins}
    (h : wasm.Pairwise fun a b => ∀ id, a.bxId = some id → b.bxId ≠ some id) :
    (withBootloader rt waVersion wasm bootloader).lock.wasm.Pairwise fun a b =>
      ∀ id, a.bxId = some id → b.bxId ≠ some id := by
  refine ((List.perm_insertionSort entryLe wasm).pairwise_iff ?_).mpr h
  intro a b hab id hb ha
  exact hab id ha hb

/-! ### One step -/

/-- What holds of the cache and of the lock. -/
structure UpdateState.Sound (s : UpdateState) : Prop where
  handles : ∀ m, s.manifest = some m → GoodHandles m.wasmHandles
  consistent : ∀ l, s.lock = some l → l.Consistent
  payload : ∀ l, s.lock = some l →
    ∀ id url, SortedMap.get l.handles id = some url → isWasmPayload url = true

theorem UpdateState.Sound.goodHandles_cached {s : UpdateState} (h : s.Sound) (run : FetchRun ν) :
    GoodHandles (cachedHandles s.manifest run) := by
  unfold cachedHandles
  split
  · next _ m _ hm =>
    split_ifs
    · exact h.handles m hm
    · exact goodHandles_nil
  · exact goodHandles_nil

theorem UpdateState.Sound.payload_pinned {s : UpdateState} (h : s.Sound) {l : PinnedLock}
    (hl : s.lock = some l) :
    ∀ id url, SortedMap.get (pinned l.bootloader) id = some url → isWasmPayload url = true :=
  h.payload l hl

/-- Where a run finds no payloads and the lock is of its version, it binds no handle of an entry to
another URL, and the cache has none of those that it did not see under another URL. -/
def Agrees (s : UpdateState) (run : FetchRun ν) : Prop :=
  run.wasm = true → ¬ run.FindsPayload → ∀ l, s.lock = some l → l.lock.waVersion = run.waVersion →
    ∀ e ∈ l.lock.wasm, ∀ id, e.bxId = some id →
      (∀ url, SortedMap.get run.bound id = some url → url = e.url) ∧
      (SortedMap.get run.bound id = none →
        ∀ url, SortedMap.get (cachedHandles s.manifest run) url = some id → url = e.url)

/-- The bootloader section of the lock that a run merges its pins with. -/
def priorOf (lock : Option PinnedLock) (run : FetchRun ν) : Option BootloaderPins :=
  match lock with
  | some l => if l.lock.waVersion = run.waVersion then l.bootloader else none
  | none => none

theorem pinsWithPrior_eq (s : UpdateState) (run : FetchRun ν) :
    pinsWithPrior s.lock (pins s.manifest run) run.waVersion run.resolution.observedIds =
      mergePriorHandles (pins s.manifest run) (priorOf s.lock run) run.resolution.observedIds := by
  unfold pinsWithPrior priorOf
  cases s.lock <;> rfl

theorem UpdateState.Sound.payload_priorOf {s : UpdateState} (h : s.Sound) (run : FetchRun ν) :
    ∀ id url, SortedMap.get (pinned (priorOf s.lock run)) id = some url →
      isWasmPayload url = true := by
  unfold priorOf
  split
  · next l hl =>
    split_ifs
    · exact h.payload_pinned hl
    · exact nofun
  · exact nofun

/-- What a run writes: a lock of its own payloads, or the lock that was there with its handles. -/
theorem lockWritten_cases {s : UpdateState} {run : FetchRun ν} {l : PinnedLock}
    (h : lockWritten rt s run = some l) : run.wasm = true ∧
      l.handles = (mergePriorHandles (pins s.manifest run) (priorOf s.lock run)
        run.resolution.observedIds).wasmHandles ∧
      ((run.FindsPayload ∧ ∃ bootloader, l = withBootloader rt run.waVersion
          (wasmEntries rt (payloads rt run) (handles s.manifest run)) bootloader) ∨
        ¬ run.FindsPayload ∧ ∃ prior, s.lock = some prior ∧ prior.lock.waVersion = run.waVersion ∧
          priorOf s.lock run = prior.bootloader ∧ l.lock = prior.lock) := by
  unfold lockWritten at h
  dsimp only at h
  split_ifs at h with hwasm hnil
  · have hnone : ¬ run.FindsPayload := fun hfinds => (payloads_ne_nil_iff run).mpr hfinds hnil
    unfold updateLockBootloader at h
    split at h
    · cases h
    · next prior hprior =>
      split_ifs at h with hversion
      cases h
      have hsection : priorOf s.lock run = prior.bootloader := by
        rw [hprior]
        exact if_pos hversion
      refine ⟨hwasm, ?_, Or.inr ⟨hnone, prior, hprior, hversion, hsection, rfl⟩⟩
      rw [hsection]
      rfl
  · cases h
    have hfinds := (payloads_ne_nil_iff run).mp hnil
    refine ⟨hwasm, ?_, Or.inl ⟨hfinds, _, rfl⟩⟩
    rw [handles_withBootloader, pinsWithPrior_eq]
    rfl

/-- An entry that stays is consistent with the new handles exactly when the run agrees with it. -/
theorem get_merged_iff {s : UpdateState} (h : s.Sound) {run : FetchRun ν} {prior : PinnedLock}
    (hprior : s.lock = some prior) {e : WasmLockEntry} (he : e ∈ prior.lock.wasm) {id : String}
    (hid : e.bxId = some id) :
    SortedMap.get (mergePriorHandles (pins s.manifest run) prior.bootloader
        run.resolution.observedIds).wasmHandles id = some e.url ↔
      (∀ url, SortedMap.get run.bound id = some url → url = e.url) ∧
      (SortedMap.get run.bound id = none →
        ∀ url, SortedMap.get (cachedHandles s.manifest run) url = some id → url = e.url) := by
  have hpriorGet : SortedMap.get (pinned prior.bootloader) id = some e.url :=
    (h.consistent prior hprior).resolved e he id hid
  have hpayload : isWasmPayload e.url = true := h.payload prior hprior id e.url hpriorGet
  rw [get_mergePriorHandles]
  cases hbound : SortedMap.get run.bound id with
  | some url =>
    have hseen : id ∈ run.resolution.observedIds := (mem_observedIds_iff id).mpr ⟨url, hbound⟩
    rw [if_pos hseen, Option.or_none, get_pins_of_bound hbound]
    constructor
    · intro hget
      split_ifs at hget
      exact ⟨fun url' h' => (Option.some.inj h').symm.trans (Option.some.inj hget), by simp⟩
    · rintro ⟨heq, -⟩
      rw [heq url rfl, if_pos hpayload]
  | none =>
    have hunseen : id ∉ run.resolution.observedIds := by
      rw [mem_observedIds_iff, hbound]
      rintro ⟨url, h'⟩
      cases h'
    have hpins := get_pins_of_unbound (h.goodHandles_cached run) hbound
    rw [if_neg hunseen, hpriorGet]
    constructor
    · intro hget
      refine ⟨by simp, fun _ url hcached => ?_⟩
      rw [(hpins url).mpr hcached, Option.some_or] at hget
      exact Option.some.inj hget
    · rintro ⟨-, heq⟩
      cases hget : SortedMap.get (pins s.manifest run).wasmHandles id with
      | none => rw [Option.none_or]
      | some url => rw [heq rfl url ((hpins url).mp hget), Option.some_or]

/-- The lock of the payloads of a run is consistent. -/
theorem consistent_withBootloader {s : UpdateState} (h : s.Sound) {run : FetchRun ν}
    {l : PinnedLock} {bootloader : Option BootloaderPins}
    (hl : l = withBootloader rt run.waVersion
      (wasmEntries rt (payloads rt run) (handles s.manifest run)) bootloader)
    (hhandles : l.handles = (mergePriorHandles (pins s.manifest run) (priorOf s.lock run)
      run.resolution.observedIds).wasmHandles) : l.Consistent := by
  have hgood := h.goodHandles_cached run
  refine ⟨fun e he id hid => ?_, ?_⟩
  · rw [hl, mem_withBootloader] at he
    rw [bxId_of_mem_wasmEntries he] at hid
    rw [hhandles, get_mergePriorHandles, get_pins_of_get_handles hgood hid, Option.some_or]
  · rw [hl]
    exact pairwise_withBootloader
      (pairwise_wasmEntries (goodHandles_handles hgood) (nodup_url_payloads run))

/-- **The lock that a run writes is consistent and current exactly when the run agrees.** -/
theorem lockWritten_iff {s : UpdateState} (h : s.Sound) {run : FetchRun ν} {l : PinnedLock}
    (hl : lockWritten rt s run = some l) : l.Consistent ∧ l.Current run ↔ Agrees s run := by
  obtain ⟨-, hhandles, hcases⟩ := lockWritten_cases hl
  have hcurrent : l.Consistent → l.Current run := by
    intro hconsistent
    have hget : ∀ id url, SortedMap.get l.handles id = some url →
        id ∈ run.resolution.observedIds → SortedMap.get run.bound id = some url := by
      intro id url hget hseen
      rw [hhandles] at hget
      exact bound_of_get_merged hget hseen
    exact ⟨fun e he id hid => hget id e.url (hconsistent.resolved e he id hid), hget⟩
  have hiff : l.Consistent ↔ Agrees s run := by
    obtain ⟨hfinds, bootloader, hl'⟩ | ⟨hnone, prior, hprior, hversion, hsection, hsame⟩ := hcases
    · exact ⟨fun _ _ hnone => absurd hfinds hnone,
        fun _ => consistent_withBootloader h hl' hhandles⟩
    · constructor
      · intro hconsistent _ _ l' hl' _ e he id hid
        obtain rfl : prior = l' := Option.some.inj (hprior.symm.trans hl')
        have hget := hconsistent.resolved e (hsame ▸ he) id hid
        rw [hhandles, hsection] at hget
        exact (get_merged_iff h hprior he hid).mp hget
      · intro hagrees
        have hwasm := (lockWritten_cases hl).1
        refine ⟨fun e he id hid => ?_, hsame ▸ (h.consistent prior hprior).distinct⟩
        rw [hsame] at he
        rw [hhandles, hsection]
        exact (get_merged_iff h hprior he hid).mpr
          (hagrees hwasm hnone prior hprior hversion e he id hid)
  exact ⟨fun ⟨hconsistent, _⟩ => hiff.mp hconsistent,
    fun hagrees => ⟨hiff.mpr hagrees, hcurrent (hiff.mpr hagrees)⟩⟩

/-! ### Histories -/

/-- What a step has to meet: an update has to agree. -/
def Meets (s : UpdateState) : Step ν → Prop
  | .update run => Agrees s run
  | .store _ _ | .restore _ | .clearCache | .removeLock => True

/-- The states that are reached when every step meets its condition. -/
inductive Reached (rt : Runtime) (ν : Type) : UpdateState → Prop
  | start : Reached rt ν ⟨none, none⟩
  | step {s : UpdateState} (h : Reached rt ν s) (step : Step ν) (hmeets : Meets s step) :
      Reached rt ν (s.after rt step)

theorem goodHandles_manifestAfter {s : UpdateState} (h : s.Sound) (run : FetchRun ν)
    {m : CacheManifest} (hm : manifestAfter rt s run = some m) : GoodHandles m.wasmHandles := by
  unfold manifestAfter at hm
  split at hm
  · split_ifs at hm
    · exact goodHandles_attached h.handles (goodHandles_handles (h.goodHandles_cached run)) hm
    · exact h.handles m hm
  · exact h.handles m hm

theorem payload_lockWritten {s : UpdateState} (h : s.Sound) {run : FetchRun ν} {l : PinnedLock}
    (hl : lockWritten rt s run = some l) :
    ∀ id url, SortedMap.get l.handles id = some url → isWasmPayload url = true := by
  obtain ⟨-, hhandles, -⟩ := lockWritten_cases hl
  intro id url hget
  rw [hhandles] at hget
  exact payload_of_get_merged (h.payload_priorOf run) hget

/-- The handles of a consistent lock are good. -/
theorem goodHandles_lockHandles {s : UpdateState} (h : s.Sound) {l : PinnedLock}
    (hl : s.lock = some l) : GoodHandles (lockHandles l.lock) := by
  have hget : ∀ {url id}, SortedMap.get (lockHandles l.lock) url = some id →
      SortedMap.get l.handles id = some url := by
    intro url id hget
    obtain ⟨e, he, hpair⟩ := List.mem_filterMap.mp (SortedMap.mem_of_get_collect hget)
    obtain ⟨id', hid, heq⟩ := Option.map_eq_some_iff.mp hpair
    cases heq
    exact (h.consistent l hl).resolved e he id hid
  exact ⟨SortedMap.sorted_collect _, fun h' => h.payload l hl _ _ (hget h'),
    fun h' h'' => Option.some.inj ((hget h').symm.trans (hget h''))⟩

theorem UpdateState.Sound.step {s : UpdateState} (h : s.Sound) {step : Step ν}
    (hmeets : Meets s step) : (s.after rt step).Sound := by
  cases step with
  | update run =>
    refine ⟨fun m hm => goodHandles_manifestAfter h run hm, fun l hl => ?_, fun l hl => ?_⟩
    · obtain hl | ⟨-, hl⟩ := Option.or_eq_some_iff.mp hl
      · exact ((lockWritten_iff h hl).mpr hmeets).1
      · exact h.consistent l hl
    · obtain hl | ⟨-, hl⟩ := Option.or_eq_some_iff.mp hl
      · exact payload_lockWritten h hl
      · exact h.payload l hl
  | store waVersion bundles =>
    refine ⟨fun m hm => ?_, h.consistent, h.payload⟩
    cases hm
    exact goodHandles_nil
  | restore found =>
    cases hl : s.lock with
    | some l =>
      have hafter : s.after rt (.restore (ν := ν) found) =
          ⟨attached rt s.manifest l.lock.waVersion found (lockHandles l.lock), s.lock⟩ := by
        simp only [UpdateState.after, hl]
      rw [hafter]
      exact ⟨fun m hm => goodHandles_attached h.handles (goodHandles_lockHandles h hl) hm,
        h.consistent, h.payload⟩
    | none =>
      have hafter : s.after rt (.restore (ν := ν) found) = s := by
        simp only [UpdateState.after, hl]
      rw [hafter]
      exact h
  | clearCache => exact ⟨nofun, h.consistent, h.payload⟩
  | removeLock => exact ⟨h.handles, nofun, nofun⟩

theorem Reached.sound {s : UpdateState} (h : Reached rt ν s) : s.Sound := by
  induction h with
  | start => exact ⟨nofun, nofun, nofun⟩
  | step _ _ hmeets ih => exact ih.step hmeets

/-- **Over any history of runs that agree, the lock is consistent.**  The lock that the next run
writes is consistent, and says of the handles the run saw what the run bound, exactly when that run
agrees too. -/
theorem reached_iff {s : UpdateState} (h : Reached rt ν s) :
    (∀ l, s.lock = some l → l.Consistent) ∧
    ∀ (run : FetchRun ν) (l : PinnedLock), lockWritten rt s run = some l →
      (l.Consistent ∧ l.Current run ↔ Agrees s run) :=
  ⟨h.sound.consistent, fun _ _ hl => lockWritten_iff h.sound hl⟩

/-! ### A handle that is rebound -/

/-- A digest and a manifest text that do nothing. -/
def plainRuntime : Runtime := ⟨id, fun _ => "", fun _ => none⟩

/-- A page that has the handle 11 for a URL, and a network that yields some payloads. -/
def pageRun (url : String) (download : String → Option Bytes) : FetchRun ℕ where
  wasm := true
  waVersion := "2.3000.1"
  discovered := ⟨some "2.3000.1", [], [("11", url)], List.pairwise_singleton _ _, none, []⟩
  answers := fun _ _ => .error ""
  cache := none
  download
  commits := true

/-- A run that downloads a payload. -/
def firstRun : FetchRun ℕ :=
  pageRun "https://static.whatsapp.net/a.wasm" fun _ => some wasmMagic

/-- A run of a page that has rebound the handle, whose downloads fail. -/
def secondRun : FetchRun ℕ := pageRun "https://static.whatsapp.net/b.wasm" fun _ => none

def afterFirst : UpdateState := UpdateState.after plainRuntime ⟨none, none⟩ (.update firstRun)

theorem reached_iff_firstRun : ∃ l, afterFirst.lock = some l ∧ l.Consistent := by
  have hsome : afterFirst.lock.isSome := by decide +kernel
  obtain ⟨l, hl⟩ := Option.isSome_iff_exists.mp hsome
  have hreached : Reached plainRuntime ℕ afterFirst :=
    .step .start (.update firstRun) fun _ _ _ h => nomatch h
  exact ⟨l, hl, (reached_iff hreached).1 l hl⟩

/-- The second run keeps the entry of the first, and its handles say otherwise. -/
theorem secondRun_contradicts : ∃ l,
    (afterFirst.after plainRuntime (.update secondRun)).lock = some l ∧ ¬ l.Consistent := by
  have hlock : (afterFirst.after plainRuntime (.update secondRun)).lock.map
      (fun l => (l.lock.wasm.map fun e => (e.bxId, e.url), l.handles)) =
      some ([(some "11", "https://static.whatsapp.net/a.wasm")],
        [("11", "https://static.whatsapp.net/b.wasm")]) := by decide +kernel
  obtain ⟨l, hl, heq⟩ := Option.map_eq_some_iff.mp hlock
  obtain ⟨hentries, hhandles⟩ := Prod.mk.inj heq
  refine ⟨l, hl, fun hconsistent => ?_⟩
  have hmem : (some "11", "https://static.whatsapp.net/a.wasm") ∈
      l.lock.wasm.map fun e => (e.bxId, e.url) := by
    rw [hentries]
    exact List.mem_singleton_self _
  obtain ⟨e, he, hpair⟩ := List.mem_map.mp hmem
  obtain ⟨hid, hurl⟩ := Prod.mk.inj hpair
  have hget := hconsistent.resolved e he "11" hid
  rw [hhandles, hurl] at hget
  exact absurd hget (by decide)

end Whatspec.Update

import Whatspec.Store.Restore

/-!
# What the checks of a restore establish

One theorem for each check and each pairing: what the lock and the files are known to
satisfy once it has passed.  `rows_perm_iff` then says what is left between the multiset of
digests, which every restore compares, and the multiset of digests and sizes, which the
lock records.
-/

namespace Whatspec.Store

open Whatspec.Library Whatspec.Text Whatspec.Fetch

variable {rt : Runtime}

/-- The digests agree as multisets. -/
theorem verifyMultiset_ok {files : List (String × Bytes)} {locked hashes : List String}
    {n : ℕ} {label : String} (h : verifyMultiset rt files locked n label = .ok hashes) :
    hashes = files.map (fun f => sha256Hex rt.digest f.2) ∧ hashes.Perm locked := by
  rw [verifyMultiset] at h
  split at h
  · rename_i hall
    cases h
    refine ⟨rfl, List.perm_iff_count.mpr fun sha => ?_⟩
    rw [List.all_eq_true] at hall
    by_cases hmem : sha ∈ locked ++ files.map fun f => sha256Hex rt.digest f.2
    · exact (beq_iff_eq.mp (hall sha hmem)).symm
    · rw [List.mem_append, not_or] at hmem
      rw [List.count_eq_zero_of_not_mem hmem.1, List.count_eq_zero_of_not_mem hmem.2]
  · cases h

theorem verifyMultiset_of_perm {files : List (String × Bytes)} {locked : List String} {n : ℕ}
    {label : String} (h : (files.map fun f => sha256Hex rt.digest f.2).Perm locked) :
    verifyMultiset rt files locked n label =
      .ok (files.map fun f => sha256Hex rt.digest f.2) := by
  rw [verifyMultiset, if_pos]
  rw [List.all_eq_true]
  exact fun sha _ => beq_iff_eq.mpr (h.count_eq sha).symm

theorem checkNames_ok_iff {seen : List String} {files : List (String × Bytes)} :
    checkNames seen files = .ok () ↔
      (files.map Prod.fst).Nodup ∧ ∀ n ∈ files.map Prod.fst, n ∉ seen := by
  induction files generalizing seen with
  | nil => simp [checkNames]
  | cons f files ih =>
      obtain ⟨name, bytes⟩ := f
      rw [checkNames]
      by_cases hmem : name ∈ seen
      · simp [hmem]
      · rw [if_neg hmem, ih, List.map_cons, List.nodup_cons, List.forall_mem_cons]
        constructor
        · rintro ⟨hnodup, hseen⟩
          refine ⟨⟨fun hin => hseen name hin List.mem_cons_self, hnodup⟩, hmem, ?_⟩
          exact fun n hn hs => hseen n hn (List.mem_cons_of_mem _ hs)
        · rintro ⟨⟨hnot, hnodup⟩, _, hseen⟩
          refine ⟨hnodup, fun n hn hs => ?_⟩
          rcases List.mem_cons.mp hs with heq | htail
          · exact hnot (heq ▸ hn)
          · exact hseen n hn htail

/-- The URLs are there, and no two are the same. -/
theorem checkUrls_ok {seen : List String} {entries : List (Option String × Option String)}
    (h : checkUrls seen entries = .ok ()) :
    (∀ e ∈ entries, ∃ u, e.1 = some u ∧ u ∉ seen) ∧
      (entries.map fun e => e.1.getD "").Nodup := by
  induction entries generalizing seen with
  | nil => exact ⟨fun e he => absurd he List.not_mem_nil, List.nodup_nil⟩
  | cons e entries ih =>
      obtain ⟨url, sha256⟩ := e
      rw [checkUrls] at h
      cases hurl : url.filter (· ≠ "") with
      | none => rw [hurl] at h; cases h
      | some u =>
          rw [hurl] at h
          have hsome : url = some u := (Option.filter_eq_some_iff.mp hurl).1
          by_cases hmem : u ∈ seen
          · simp only [if_pos hmem] at h
            cases h
          · simp only [if_neg hmem] at h
            obtain ⟨hall, hnodup⟩ := ih h
            have hlater : ∀ e ∈ entries, ∃ v, e.1 = some v ∧ v ∉ seen := by
              intro e he
              obtain ⟨v, hv, hv'⟩ := hall e he
              exact ⟨v, hv, fun hin => hv' (List.mem_cons_of_mem _ hin)⟩
            refine ⟨List.forall_mem_cons.mpr ⟨⟨u, hsome, hmem⟩, hlater⟩, ?_⟩
            rw [List.map_cons, List.nodup_cons]
            refine ⟨fun hin => ?_, hnodup⟩
            obtain ⟨e, he, heq⟩ := List.mem_map.mp hin
            obtain ⟨v, hv, hv'⟩ := hall e he
            rw [hv, hsome] at heq
            exact hv' (List.mem_cons.mpr (Or.inl heq))

theorem zip_map_self {α β : Type} (f : α → β) (l : List α) :
    l.zip (l.map f) = l.map fun a => (a, f a) := by
  calc l.zip (l.map f) = (l.map id).zip (l.map f) := by rw [List.map_id]
    _ = l.map fun a => (a, f a) := List.zip_map'

/-! ### Names from a wasm lock -/

theorem namesByHash_ok {m names : List (String × String)} {entries : List WasmLockEntry}
    (h : namesByHash m entries = .ok names) :
    names = m ++ entries.map (fun e => (e.sha256, e.fileName)) ∧
      ∀ e ∈ entries, safePayloadName e.fileName = .ok () := by
  induction entries generalizing m with
  | nil => cases h; exact ⟨(List.append_nil _).symm, fun e he => absurd he List.not_mem_nil⟩
  | cons e entries ih =>
      rw [namesByHash] at h
      cases hsafe : safePayloadName e.fileName with
      | error why => rw [hsafe] at h; cases h
      | ok u =>
          rw [hsafe] at h
          obtain ⟨hnames, hall⟩ := ih h
          refine ⟨?_, List.forall_mem_cons.mpr ⟨hsafe, hall⟩⟩
          rw [hnames, Multimap.push, List.append_assoc]
          rfl

/-- Naming hands out one name of a file's hash for each file, in the order of the files. -/
theorem nameFiles_ok {names : List (String × String)}
    {items : List ((String × Bytes) × String)} {out : List (String × Bytes)}
    (h : nameFiles names items = .ok out) :
    (∃ rest, Multimap.drain names (items.map Prod.snd) = some (out.map Prod.fst, rest)) ∧
      out.map Prod.snd = items.map fun i => i.1.2 := by
  induction items generalizing names out with
  | nil => cases h; exact ⟨⟨names, rfl⟩, rfl⟩
  | cons item items ih =>
      obtain ⟨⟨archiveName, bytes⟩, sha256⟩ := item
      rw [nameFiles] at h
      cases hpop : Multimap.pop names sha256 with
      | none => rw [hpop] at h; cases h
      | some p =>
          obtain ⟨name, names'⟩ := p
          rw [hpop] at h
          simp only at h
          cases hrest : nameFiles names' items with
          | error e => rw [hrest] at h; cases h
          | ok out' =>
              rw [hrest] at h
              cases h
              obtain ⟨⟨rest, hdrain⟩, hbytes⟩ := ih hrest
              refine ⟨⟨rest, ?_⟩, congrArg (bytes :: ·) hbytes⟩
              rw [List.map_cons, Multimap.drain, hpop]
              simp only [hdrain, List.map_cons]

/-- **Names from the lock.**  The names and hashes of what is written are those of the
lock's entries, and every name is safe. -/
theorem nameFromLock_ok {files out : List (String × Bytes)} {lock : WasmLock}
    (hhashes : (files.map fun f => sha256Hex rt.digest f.2).Perm (lock.wasm.map (·.sha256)))
    (h : nameFromLock files (files.map fun f => sha256Hex rt.digest f.2) lock = .ok out) :
    (out.map fun w => (w.1, sha256Hex rt.digest w.2)).Perm
        (lock.wasm.map fun e => (e.fileName, e.sha256)) ∧
      (∀ e ∈ lock.wasm, safePayloadName e.fileName = .ok ()) ∧
      out.map Prod.snd = files.map Prod.snd := by
  rw [nameFromLock] at h
  cases hnames : namesByHash [] lock.wasm with
  | error e => rw [hnames] at h; cases h
  | ok names =>
      rw [hnames] at h
      obtain ⟨rfl, hsafe⟩ := namesByHash_ok hnames
      obtain ⟨⟨rest, hdrain⟩, hbytes⟩ := nameFiles_ok h
      rw [zip_map_self, List.map_map] at hdrain hbytes
      have hbytes : out.map Prod.snd = files.map Prod.snd := hbytes
      have hdrain : Multimap.drain (lock.wasm.map fun e => (e.sha256, e.fileName))
          (files.map fun f => sha256Hex rt.digest f.2) = some (out.map Prod.fst, rest) := hdrain
      refine ⟨?_, hsafe, hbytes⟩
      have hlen : (files.map fun f => sha256Hex rt.digest f.2).length =
          (lock.wasm.map fun e => (e.sha256, e.fileName)).length := by
        rw [hhashes.length_eq, List.length_map, List.length_map]
      have hperm := (Multimap.drain_exhausts hdrain hlen).map Prod.swap
      have hout : ((files.map fun f => sha256Hex rt.digest f.2).zip (out.map Prod.fst)).map
          Prod.swap = out.map fun w => (w.1, sha256Hex rt.digest w.2) := by
        have hdigests : (files.map fun f => sha256Hex rt.digest f.2) =
            out.map fun w => sha256Hex rt.digest w.2 := by
          have hmap := congrArg (List.map (sha256Hex rt.digest)) hbytes
          rw [List.map_map, List.map_map] at hmap
          exact hmap.symm
        rw [hdigests, List.zip_map', List.map_map]
        rfl
      rw [hout, List.map_map] at hperm
      exact hperm.symm

/-! ### Payloads for a cache -/

/-- Each bundle handed out has the URL, the hash and the size that were asked for. -/
theorem takePayloads_ok {label : String} {byHash : List (String × Bytes)}
    {wanted : List (String × String × ℕ)} {bundles : List Bundle}
    (hkeys : ∀ e ∈ byHash, sha256Hex rt.digest e.2 = e.1)
    (h : takePayloads label byHash wanted = .ok bundles) :
    bundles.map (fun b => (b.url, sha256Hex rt.digest b.bytes, b.bytes.length)) = wanted := by
  induction wanted generalizing byHash bundles with
  | nil => cases h; rfl
  | cons entry wanted ih =>
      obtain ⟨url, sha256, size⟩ := entry
      rw [takePayloads] at h
      cases hpop : Multimap.pop byHash sha256 with
      | none => rw [hpop] at h; cases h
      | some p =>
          obtain ⟨bytes, byHash'⟩ := p
          rw [hpop] at h
          have hperm := Multimap.pop_perm hpop
          have hsha : sha256Hex rt.digest bytes = sha256 :=
            hkeys _ (hperm.mem_iff.mpr List.mem_cons_self)
          have hkeys' : ∀ e ∈ byHash', sha256Hex rt.digest e.2 = e.1 :=
            fun e he => hkeys e (hperm.mem_iff.mpr (List.mem_cons_of_mem _ he))
          by_cases hsize : bytes.length = size
          · simp only [hsize, ne_eq, not_true_eq_false, if_false] at h
            cases hrest : takePayloads label byHash' wanted with
            | error e => rw [hrest] at h; cases h
            | ok bundles' =>
                rw [hrest] at h
                cases h
                rw [List.map_cons, ih hkeys' hrest, hsha, hsize]
          · simp only [ne_eq, hsize, not_false_eq_true, if_true] at h
            cases h

/-- **Payloads in URL order.**  They are what was asked for, in some order. -/
theorem payloadsInOrder_ok {label : String} {files : List (String × Bytes)}
    {wanted : List (String × String × ℕ)} {bundles : List Bundle}
    (h : payloadsInOrder label files (files.map fun f => sha256Hex rt.digest f.2) wanted =
      .ok bundles) :
    (bundles.map fun b => (b.url, sha256Hex rt.digest b.bytes, b.bytes.length)).Perm
      wanted := by
  rw [payloadsInOrder, if_neg (by rw [List.length_map]; exact fun hne => hne rfl)] at h
  rw [Multimap.collect_eq] at h
  simp only at h
  split at h
  · cases h
  · rename_i taken htake
    cases h
    have hkeys : ∀ e ∈ (files.zip (files.map fun f => sha256Hex rt.digest f.2)).map
        fun p => (p.2, p.1.2), sha256Hex rt.digest e.2 = e.1 := by
      intro e he
      obtain ⟨p, hp, rfl⟩ := List.mem_map.mp he
      rw [zip_map_self] at hp
      obtain ⟨f, _, rfl⟩ := List.mem_map.mp hp
      rfl
    rw [← takePayloads_ok hkeys htake]
    exact (List.perm_insertionSort _ _).map _

/-! ### Sizes -/

/-- The recorded size of an entry is the size of the file with its hash. -/
def SizesAgree (rt : Runtime) (entries : List (String × ℕ)) (files : List Bytes) : Prop :=
  ∀ e ∈ entries, ∀ b ∈ files, sha256Hex rt.digest b = e.1 → b.length = e.2

/-- **Digests and sizes.**  Where labels and digests agree as multisets, labels, digests
and sizes agree exactly when each recorded size is that of the file with the digest. -/
theorem rows_perm_iff (h : rt.Lawful) {α ι : Type} (label : α → ι) (bytes : α → Bytes)
    {files : List α} {entries : List (ι × String × ℕ)}
    (hperm : (files.map fun f => (label f, sha256Hex rt.digest (bytes f))).Perm
      (entries.map fun e => (e.1, e.2.1))) :
    (files.map fun f => (label f, sha256Hex rt.digest (bytes f), (bytes f).length)).Perm
        entries ↔
      SizesAgree rt (entries.map Prod.snd) (files.map bytes) := by
  constructor
  · intro hrows e he b hb hsha
    obtain ⟨entry, hentry, rfl⟩ := List.mem_map.mp he
    obtain ⟨f, _, rfl⟩ := List.mem_map.mp (hrows.mem_iff.mpr hentry)
    obtain ⟨g, _, rfl⟩ := List.mem_map.mp hb
    have hbytes : bytes g = bytes f := sha256Hex_injective h.digest_injective hsha
    rw [hbytes]
  · intro hsizes
    -- the size belongs to the digest: that of the one file that has it
    let sizeOf : String → ℕ := fun sha =>
      (Function.invFun (sha256Hex rt.digest) sha).length
    have hsizeOf : ∀ b, sizeOf (sha256Hex rt.digest b) = b.length := fun b =>
      congrArg List.length (Function.leftInverse_invFun (sha256Hex_injective h.digest_injective) b)
    have hfiles : (files.map fun f => (label f, sha256Hex rt.digest (bytes f))).map
        (fun p => (p.1, p.2, sizeOf p.2)) =
        files.map fun f => (label f, sha256Hex rt.digest (bytes f), (bytes f).length) := by
      rw [List.map_map]
      exact List.map_congr_left fun f _ => by
        show (label f, sha256Hex rt.digest (bytes f), sizeOf (sha256Hex rt.digest (bytes f))) = _
        rw [hsizeOf]
    have hentries : (entries.map fun e => (e.1, e.2.1)).map (fun p => (p.1, p.2, sizeOf p.2)) =
        entries := by
      rw [List.map_map]
      refine (List.map_congr_left fun e he => ?_).trans (List.map_id entries)
      obtain ⟨f, hf, hlabel⟩ := List.mem_map.mp
        (hperm.mem_iff.mpr (List.mem_map_of_mem (f := fun e => (e.1, e.2.1)) he))
      have hsha : sha256Hex rt.digest (bytes f) = e.2.1 := congrArg Prod.snd hlabel
      have hsize : (bytes f).length = e.2.2 :=
        hsizes e.2 (List.mem_map_of_mem he) (bytes f) (List.mem_map_of_mem hf) hsha
      show (e.1, e.2.1, sizeOf e.2.1) = e
      rw [← hsha, hsizeOf, hsize, hsha]
    have hsized := hperm.map fun p => (p.1, p.2, sizeOf p.2)
    rwa [hfiles, hentries] at hsized

end Whatspec.Store

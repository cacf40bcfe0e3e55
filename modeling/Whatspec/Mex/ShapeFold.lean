import Mathlib.Data.List.Perm.Basic
import Mathlib.Data.Set.Insert
import Whatspec.Mex.PresenceTree

/-!
# Folding the shapes of the call sites

Each call site of an operation gives the shape of its variables object, and `mergeShapes` folds them
into one.  Two objects are united key by key; otherwise one of the two shapes is kept and the other
dropped.

* `keysOf_mergeShape`: what is dropped holds no key when the shapes agree wherever they meet;
* **`keepsKeys_iff`**: the fold keeps every key, in any order of the sites, exactly then.
-/

namespace Whatspec.Mex

/-- The structure of an argument: which keys there are and what is a list. -/
inductive Shape where
  | null
  | obj (props : List (String × Shape))
  | arr (inner : Shape)

/-- The first entry of a key, changed, or a new entry. -/
def putSlot (key : String) (f : Shape → Shape) (v : Shape) :
    List (String × Shape) → List (String × Shape)
  | [] => [(key, v)]
  | (k, x) :: rest => if k = key then (k, f x) :: rest else (k, x) :: putSlot key f v rest

mutual

/-- Merge two shapes. -/
def mergeShape (a : Shape) : Shape → Shape
  | .arr b =>
    match a with
    | .arr a => .arr a
    | _ => .arr b
  | .obj bs =>
    match a with
    | .obj as => .obj (mergeProps as bs)
    | a => a
  | .null => a

def mergeProps (out : List (String × Shape)) : List (String × Shape) → List (String × Shape)
  | [] => out
  | (key, v) :: rest => mergeProps (putSlot key (fun x => mergeShape x v) v out) rest

end

/-- Merge what two sites give, if they give anything. -/
def mergeShapes : Option Shape → Option Shape → Option Shape
  | none, x => x
  | x, none => x
  | some a, some b => some (mergeShape a b)

/-- The shape of an operation's variables, from the shapes of its sites. -/
def foldShapes (sites : List Shape) : Option Shape :=
  sites.foldl (fun acc shape => mergeShapes acc (some shape)) none

namespace Shape

/-- Induction over shapes: a shape after those below it. -/
@[elab_as_elim]
theorem induct {motive : Shape → Prop} (null : motive .null)
    (obj : ∀ props, (∀ e ∈ props, motive e.2) → motive (.obj props))
    (arr : ∀ inner, motive inner → motive (.arr inner)) : ∀ s, motive s
  | .null => null
  | .obj props => obj props fun ⟨key, v⟩ he =>
      have : sizeOf v < sizeOf props := by
        have hlt := List.sizeOf_lt_of_mem he
        rw [Prod.mk.sizeOf_spec] at hlt
        omega
      induct null obj arr v
  | .arr inner => arr inner (induct null obj arr inner)

/-! ### Key paths -/

/-- A path to an object key. -/
inductive Has : Shape → List Step → Prop
  | key {props : List (String × Shape)} {k : String} {x : Shape} (mem : (k, x) ∈ props) :
      Has (.obj props) [.field k]
  | nested {props : List (String × Shape)} {k : String} {x : Shape} {path : List Step}
      (mem : (k, x) ∈ props) (has : Has x path) : Has (.obj props) (.field k :: path)
  | item {inner : Shape} {path : List Step} (has : Has inner path) :
      Has (.arr inner) (.item :: path)

/-- The key paths of a shape. -/
def keysOf (s : Shape) : Set (List Step) := {path | s.Has path}

/-- The nodes at the end of a path. -/
inductive At : Shape → List Step → Shape → Prop
  | here (s : Shape) : At s [] s
  | field {props : List (String × Shape)} {k : String} {x y : Shape} {path : List Step}
      (mem : (k, x) ∈ props) (node : At x path y) : At (.obj props) (.field k :: path) y
  | item {inner y : Shape} {path : List Step} (node : At inner path y) :
      At (.arr inner) (.item :: path) y

/-- The nodes below some keys. -/
inductive KeyAt : Shape → List String → Shape → Prop
  | here (s : Shape) : KeyAt s [] s
  | field {props : List (String × Shape)} {k : String} {x y : Shape} {ks : List String}
      (mem : (k, x) ∈ props) (node : KeyAt x ks y) : KeyAt (.obj props) (k :: ks) y

/-- The key paths of what a fold gave. -/
def keysOf? (s : Option Shape) : Set (List Step) := {path | ∃ x, s = some x ∧ x.Has path}

/-- No object has a key twice. -/
inductive NoRepeats : Shape → Prop
  | null : NoRepeats .null
  | obj {props : List (String × Shape)} (nodup : (props.map Prod.fst).Nodup)
      (nodes : ∀ e ∈ props, NoRepeats e.2) : NoRepeats (.obj props)
  | arr {inner : Shape} (element : NoRepeats inner) : NoRepeats (.arr inner)

/-- Either of two shapes may be dropped for the other. -/
def Agree : Shape → Shape → Prop
  | .arr a, .arr b => a.keysOf = b.keysOf
  | .obj props, .arr _ => props = []
  | .arr _, .obj props => props = []
  | .obj props, .null => props = []
  | .null, .obj props => props = []
  | _, _ => True

/-- Two shapes agree wherever they meet. -/
def Alike (a b : Shape) : Prop := ∀ ks x y, a.KeyAt ks x → b.KeyAt ks y → Agree x y

end Shape

open Shape

/-- Two sites show an object and a list at one path. -/
def Conflict (sites : List Shape) : Prop :=
  ∃ s ∈ sites, ∃ s' ∈ sites, ∃ path props inner,
    s.At path (.obj props) ∧ s'.At path (.arr inner)

/-- The fold keeps the keys of the sites, those in list elements when no two sites conflict, and
their order does not show. -/
def KeepsKeys (sites : List Shape) : Prop :=
  (∀ s ∈ sites, ∀ path ∈ s.keysOf, (Step.item ∈ path → ¬ Conflict sites) →
    path ∈ keysOf? (foldShapes sites)) ∧
  ∀ sites', sites'.Perm sites → keysOf? (foldShapes sites') = keysOf? (foldShapes sites)

/-- Any two sites, and any two entries of a site, agree wherever they meet. -/
def AllAlike (sites : List Shape) : Prop := ∀ s ∈ sites, ∀ s' ∈ sites, s.Alike s'

/-! ### Paths -/

theorem has_cons {key : String} {x : Shape} {rest : List (String × Shape)} {path : List Step} :
    (Shape.obj ((key, x) :: rest)).Has path ↔
      (∃ below, path = .field key :: below ∧ (below = [] ∨ x.Has below)) ∨
        (Shape.obj rest).Has path := by
  constructor
  · intro h
    cases h with
    | key mem =>
      obtain heq | mem := List.mem_cons.mp mem
      · cases heq
        exact .inl ⟨[], rfl, .inl rfl⟩
      · exact .inr (.key mem)
    | nested mem has =>
      obtain heq | mem := List.mem_cons.mp mem
      · cases heq
        exact .inl ⟨_, rfl, .inr has⟩
      · exact .inr (.nested mem has)
  · rintro (⟨below, rfl, rfl | has⟩ | h)
    · exact .key List.mem_cons_self
    · exact .nested List.mem_cons_self has
    · cases h with
      | key mem => exact .key (List.mem_cons_of_mem _ mem)
      | nested mem has => exact .nested (List.mem_cons_of_mem _ mem) has

theorem not_has_null {path : List Step} : ¬ Shape.null.Has path := nofun

theorem not_has_empty {path : List Step} : ¬ (Shape.obj []).Has path := by
  intro h
  cases h with
  | key mem => cases mem
  | nested mem => cases mem

theorem Shape.Alike.root {a b : Shape} (h : Alike a b) : Agree a b := h [] a b (.here a) (.here b)

theorem Shape.Alike.child {as bs : List (String × Shape)} (h : Alike (.obj as) (.obj bs))
    {key : String} {x y : Shape} (hx : (key, x) ∈ as) (hy : (key, y) ∈ bs) : Alike x y :=
  fun ks x' y' hx' hy' => h (key :: ks) x' y' (.field hx hx') (.field hy hy')

/-- Objects are alike when their entries are. -/
theorem Shape.alike_obj {as bs : List (String × Shape)}
    (h : ∀ key x y, (key, x) ∈ as → (key, y) ∈ bs → Shape.Alike x y) :
    Shape.Alike (.obj as) (.obj bs) := by
  intro ks x y hx hy
  cases hx with
  | here =>
    cases hy with
    | here => exact trivial
  | field mem node =>
    cases hy with
    | field mem' node' => exact h _ _ _ mem mem' _ _ _ node node'

/-! ### Merging shapes that are alike -/

theorem mem_putSlot {key k : String} {f : Shape → Shape} {v z : Shape}
    {out : List (String × Shape)} (h : (k, z) ∈ putSlot key f v out) :
    (k, z) ∈ out ∨ (k = key ∧ z = v) ∨ (k = key ∧ ∃ x, (k, x) ∈ out ∧ z = f x) := by
  induction out with
  | nil =>
    cases List.mem_singleton.mp h
    exact .inr (.inl ⟨rfl, rfl⟩)
  | cons e rest ih =>
    obtain ⟨j, x⟩ := e
    rw [putSlot] at h
    split at h
    · next hj =>
      obtain heq | h := List.mem_cons.mp h
      · cases heq
        exact .inr (.inr ⟨hj, x, List.mem_cons_self, rfl⟩)
      · exact .inl (List.mem_cons_of_mem _ h)
    · obtain heq | h := List.mem_cons.mp h
      · cases heq
        exact .inl List.mem_cons_self
      · obtain h | h | ⟨hk, y, hy, hz⟩ := ih h
        · exact .inl (List.mem_cons_of_mem _ h)
        · exact .inr (.inl h)
        · exact .inr (.inr ⟨hk, y, List.mem_cons_of_mem _ hy, hz⟩)

/-- An entry that loses nothing of what it was and of what comes in. -/
theorem has_putSlot {key : String} {f : Shape → Shape} {v : Shape} {out : List (String × Shape)}
    (hf : ∀ x, (key, x) ∈ out → ∀ path, (f x).Has path ↔ x.Has path ∨ v.Has path)
    (path : List Step) : (Shape.obj (putSlot key f v out)).Has path ↔
      (Shape.obj out).Has path ∨ (Shape.obj [(key, v)]).Has path := by
  induction out with
  | nil => simp [putSlot, not_has_empty]
  | cons e rest ih =>
    obtain ⟨k, x⟩ := e
    rw [putSlot]
    split
    · next hk =>
      subst hk
      simp only [has_cons, hf x List.mem_cons_self, not_has_empty, or_false]
      grind
    · rw [has_cons, has_cons, ih fun y hy => hf y (List.mem_cons_of_mem _ hy), or_assoc]

/-- Merging the entries of a second object. -/
theorem alike_mergeProps {as bs : List (String × Shape)}
    (ih : ∀ e ∈ bs, ∀ x : Shape, x.Alike e.2 → (∀ path, (mergeShape x e.2).Has path ↔
      x.Has path ∨ e.2.Has path) ∧ ∀ t : Shape, x.Alike t → e.2.Alike t → (mergeShape x e.2).Alike t)
    (hab : ∀ key x v, (key, x) ∈ as → (key, v) ∈ bs → x.Alike v)
    (hbb : ∀ key v w, (key, v) ∈ bs → (key, w) ∈ bs → v.Alike w) :
    (∀ path, (Shape.obj (mergeProps as bs)).Has path ↔
      (Shape.obj as).Has path ∨ (Shape.obj bs).Has path) ∧
    ∀ key t, (∀ x, (key, x) ∈ as → x.Alike t) → (∀ v, (key, v) ∈ bs → v.Alike t) →
      ∀ z, (key, z) ∈ mergeProps as bs → z.Alike t := by
  induction bs generalizing as with
  | nil =>
    rw [mergeProps]
    exact ⟨fun path => by simp [not_has_empty], fun key t ha _ z hz => ha z hz⟩
  | cons e rest ihRest =>
    obtain ⟨key, v⟩ := e
    rw [List.forall_mem_cons] at ih
    have hv : ∀ x, (key, x) ∈ as → x.Alike v := fun x hx => hab key x v hx List.mem_cons_self
    -- an entry of the new list is an old one, the incoming one, or their merge
    have hslot : ∀ k z t, (k, z) ∈ putSlot key (fun x => mergeShape x v) v as →
        (∀ x, (k, x) ∈ as → x.Alike t) → (k = key → v.Alike t) → z.Alike t := by
      intro k z t hz ht hvt
      obtain hz | ⟨hk, rfl⟩ | ⟨rfl, x, hx, rfl⟩ := mem_putSlot hz
      · exact ht z hz
      · exact hvt hk
      · exact (ih.1 x (hv x hx)).2 t (ht x hx) (hvt rfl)
    have hnext : ∀ k z w, (k, z) ∈ putSlot key (fun x => mergeShape x v) v as → (k, w) ∈ rest →
        z.Alike w := fun k z w hz hw =>
      hslot k z w hz (fun x hx => hab k x w hx (List.mem_cons_of_mem _ hw))
        fun hk => hbb k v w (hk ▸ List.mem_cons_self) (List.mem_cons_of_mem _ hw)
    obtain ⟨hhas, halike⟩ := ihRest ih.2 hnext fun k v' w hv' hw =>
      hbb k v' w (List.mem_cons_of_mem _ hv') (List.mem_cons_of_mem _ hw)
    rw [mergeProps]
    refine ⟨fun path => ?_, fun k t ha hb z hz => ?_⟩
    · rw [hhas, has_putSlot fun x hx => (ih.1 x (hv x hx)).1, has_cons, has_cons]
      simp only [not_has_empty, or_false, or_assoc]
    · refine halike k t (fun x hx => hslot k x t hx ha fun hk => ?_)
        (fun w hw => hb w (List.mem_cons_of_mem _ hw)) z hz
      exact hb v (hk ▸ List.mem_cons_self)

/-- **Merging shapes that are alike loses no key**, and the result is alike to what both are alike
to. -/
theorem mergeShape_alike (v : Shape) : v.Alike v → ∀ x : Shape, x.Alike v →
    (∀ path, (mergeShape x v).Has path ↔ x.Has path ∨ v.Has path) ∧
      ∀ t : Shape, x.Alike t → v.Alike t → (mergeShape x v).Alike t := by
  induction v using Shape.induct with
  | null =>
    intro _ x _
    rw [mergeShape]
    exact ⟨fun path => by simp [not_has_null], fun t hx _ => hx⟩
  | arr b _ =>
    intro _ x hx
    have hroot := hx.root
    cases x with
    | null =>
      rw [mergeShape.eq_def]
      exact ⟨fun path => by simp [not_has_null], fun t _ hv => hv⟩
    | obj as =>
      obtain rfl : as = [] := hroot
      rw [mergeShape.eq_def]
      exact ⟨fun path => by simp [not_has_empty], fun t _ hv => hv⟩
    | arr a =>
      rw [mergeShape]
      refine ⟨fun path => ?_, fun t hx _ => hx⟩
      have hsame : ∀ path, a.Has path ↔ b.Has path := Set.ext_iff.mp hroot
      refine (or_iff_left_of_imp fun h => ?_).symm
      cases h with
      | item has => exact .item ((hsame _).mpr has)
  | obj bs ih =>
    intro hself x hx
    have hroot := hx.root
    cases x with
    | null =>
      obtain rfl : bs = [] := hroot
      rw [mergeShape.eq_def]
      exact ⟨fun path => by simp [not_has_empty], fun t hx _ => hx⟩
    | arr a =>
      obtain rfl : bs = [] := hroot
      rw [mergeShape.eq_def]
      exact ⟨fun path => by simp [not_has_empty], fun t hx _ => hx⟩
    | obj as =>
      rw [mergeShape]
      obtain ⟨hhas, halike⟩ := alike_mergeProps
        (fun e he => ih e he (hself.child he he)) (fun _ _ _ hx' hv => hx.child hx' hv)
        fun _ _ _ hv hw => hself.child hv hw
      refine ⟨hhas, fun t hxt hvt => ?_⟩
      cases t with
      | null =>
        obtain rfl : as = [] := hxt.root
        obtain rfl : bs = [] := hvt.root
        rw [mergeProps]
        exact hxt
      | arr c =>
        obtain rfl : as = [] := hxt.root
        obtain rfl : bs = [] := hvt.root
        rw [mergeProps]
        exact hxt
      | obj ts =>
        exact Shape.alike_obj fun key z t hz ht => halike key t (fun x hx => hxt.child hx ht)
          (fun v hv => hvt.child hv ht) z hz

/-! ### Folding sites that are alike -/

theorem keysOf?_none : keysOf? none = ∅ :=
  Set.eq_empty_of_forall_notMem fun _ ⟨_, h, _⟩ => nomatch h

theorem keysOf?_some (s : Shape) : keysOf? (some s) = s.keysOf := by
  ext path
  simp [keysOf?, keysOf]

theorem keysOf?_foldl {sites : List Shape} (h : AllAlike sites) (acc : Shape)
    (hacc : ∀ s ∈ sites, acc.Alike s) (path : List Step) :
    path ∈ keysOf? (sites.foldl (fun acc shape => mergeShapes acc (some shape)) (some acc)) ↔
      path ∈ acc.keysOf ∨ ∃ s ∈ sites, path ∈ s.keysOf := by
  induction sites generalizing acc with
  | nil => rw [List.foldl_nil, keysOf?_some]; simp
  | cons s rest ih =>
    have hs := h s List.mem_cons_self
    obtain ⟨hhas, halike⟩ :=
      mergeShape_alike s (hs s List.mem_cons_self) acc (hacc s List.mem_cons_self)
    have hrest : AllAlike rest := fun t ht t' ht' =>
      h t (List.mem_cons_of_mem _ ht) t' (List.mem_cons_of_mem _ ht')
    refine (ih hrest (mergeShape acc s) fun t ht => halike t (hacc t (List.mem_cons_of_mem _ ht))
      (hs t (List.mem_cons_of_mem _ ht))).trans ?_
    rw [List.exists_mem_cons_iff, ← or_assoc]
    exact or_congr_left (hhas path)

/-- The fold of alike sites has the keys of all of them. -/
theorem mem_keysOf?_foldShapes {sites : List Shape} (h : AllAlike sites) (path : List Step) :
    path ∈ keysOf? (foldShapes sites) ↔ ∃ s ∈ sites, path ∈ s.keysOf := by
  cases sites with
  | nil => simp [foldShapes, keysOf?_none]
  | cons s rest =>
    have hs := h s List.mem_cons_self
    have hrest : AllAlike rest := fun t ht t' ht' =>
      h t (List.mem_cons_of_mem _ ht) t' (List.mem_cons_of_mem _ ht')
    rw [List.exists_mem_cons_iff]
    exact keysOf?_foldl hrest s (fun t ht => hs t (List.mem_cons_of_mem _ ht)) path

theorem keepsKeys_of_allAlike {sites : List Shape} (h : AllAlike sites) : KeepsKeys sites := by
  refine ⟨fun s hs path hpath _ => (mem_keysOf?_foldShapes h path).mpr ⟨s, hs, hpath⟩,
    fun sites' hperm => Set.ext fun path => ?_⟩
  have h' : AllAlike sites' := fun s hs s' hs' => h s (hperm.subset hs) s' (hperm.subset hs')
  rw [mem_keysOf?_foldShapes h, mem_keysOf?_foldShapes h']
  simp only [hperm.mem_iff]

/-! ### What a fold without repeated keys does to each key -/

theorem lookup_pair (k j : String) (x : Shape) (rest : List (String × Shape)) :
    ((j, x) :: rest).lookup k = if k = j then some x else rest.lookup k := by
  rw [List.lookup_cons]
  by_cases hk : k = j
  · rw [if_pos hk, hk, beq_self_eq_true]
  · rw [if_neg hk, beq_false_of_ne hk]

theorem lookup_putSlot (key k : String) (f : Shape → Shape) (v : Shape)
    (out : List (String × Shape)) : (putSlot key f v out).lookup k =
      if k = key then some ((out.lookup key).elim v f) else out.lookup k := by
  induction out with
  | nil =>
    rw [putSlot, lookup_pair]
    rfl
  | cons e rest ih =>
    obtain ⟨j, x⟩ := e
    rw [putSlot]
    split
    · next hj =>
      subst hj
      rw [lookup_pair, lookup_pair, lookup_pair, if_pos rfl]
      by_cases hk : k = j
      · rw [if_pos hk, if_pos hk]
        rfl
      · rw [if_neg hk, if_neg hk, if_neg hk]
    · next hj =>
      rw [lookup_pair, lookup_pair, lookup_pair, ih, if_neg (Ne.symm hj)]
      by_cases hkj : k = j
      · rw [if_pos hkj, if_pos hkj, if_neg fun h => hj (hkj.symm.trans h)]
      · rw [if_neg hkj, if_neg hkj]

theorem lookup_eq_none_of_notMem {props : List (String × Shape)} {k : String}
    (h : k ∉ props.map Prod.fst) : props.lookup k = none := by
  rw [List.lookup_eq_none_iff]
  rintro ⟨j, x⟩ hmem
  exact bne_iff_ne.mpr fun heq => h (heq ▸ List.mem_map_of_mem hmem)

/-- Each key of the merged object merges what the two had. -/
theorem lookup_mergeProps {bs : List (String × Shape)} (h : (bs.map Prod.fst).Nodup)
    (as : List (String × Shape)) (k : String) :
    (mergeProps as bs).lookup k = mergeShapes (as.lookup k) (bs.lookup k) := by
  induction bs generalizing as with
  | nil =>
    rw [mergeProps]
    cases as.lookup k <;> rfl
  | cons e rest ih =>
    obtain ⟨key, v⟩ := e
    obtain ⟨hnot, hrest⟩ := List.nodup_cons.mp h
    rw [mergeProps, ih hrest, lookup_putSlot, lookup_pair]
    by_cases hk : k = key
    · rw [if_pos hk, if_pos hk, hk, lookup_eq_none_of_notMem hnot]
      cases as.lookup key <;> rfl
    · rw [if_neg hk, if_neg hk]

theorem mem_keys_putSlot (key : String) (f : Shape → Shape) (v : Shape)
    {out : List (String × Shape)} (h : (out.map Prod.fst).Nodup) :
    ((putSlot key f v out).map Prod.fst).Nodup ∧
      ∀ k, k ∈ (putSlot key f v out).map Prod.fst → k = key ∨ k ∈ out.map Prod.fst := by
  induction out with
  | nil => exact ⟨List.pairwise_singleton _ key, fun k hk => .inl (List.mem_singleton.mp hk)⟩
  | cons e rest ih =>
    obtain ⟨j, x⟩ := e
    obtain ⟨hnot, hrest⟩ := List.nodup_cons.mp h
    obtain ⟨hnodup, hmem⟩ := ih hrest
    rw [putSlot]
    split
    · exact ⟨h, fun k hk => .inr hk⟩
    · next hj =>
      refine ⟨List.nodup_cons.mpr ⟨fun hin => ?_, hnodup⟩, fun k hk => ?_⟩
      · obtain heq | hin := hmem j hin
        · exact hj heq
        · exact hnot hin
      · obtain rfl | hk := List.mem_cons.mp hk
        · exact .inr List.mem_cons_self
        · exact (hmem k hk).imp_right (List.mem_cons_of_mem j)

theorem nodup_mergeProps (bs : List (String × Shape)) {as : List (String × Shape)}
    (h : (as.map Prod.fst).Nodup) : ((mergeProps as bs).map Prod.fst).Nodup := by
  induction bs generalizing as with
  | nil =>
    rw [mergeProps]
    exact h
  | cons e rest ih =>
    obtain ⟨key, v⟩ := e
    rw [mergeProps]
    exact ih (mem_keys_putSlot key _ v h).1

theorem mem_of_lookup {props : List (String × Shape)} {k : String} {x : Shape}
    (h : props.lookup k = some x) : (k, x) ∈ props := by
  obtain ⟨above, below, rfl, -⟩ := List.lookup_eq_some_iff.mp h
  exact List.mem_append_right above List.mem_cons_self

theorem lookup_of_mem {props : List (String × Shape)} (hnodup : (props.map Prod.fst).Nodup)
    {k : String} {x : Shape} (h : (k, x) ∈ props) : props.lookup k = some x := by
  induction props with
  | nil => cases h
  | cons e rest ih =>
    obtain ⟨j, y⟩ := e
    obtain ⟨hnot, hrest⟩ := List.nodup_cons.mp hnodup
    rw [lookup_pair]
    obtain heq | hmem := List.mem_cons.mp h
    · cases heq
      rw [if_pos rfl]
    · have hkey : k ∈ rest.map Prod.fst := List.mem_map.mpr ⟨(k, x), hmem, rfl⟩
      have hne : k ≠ j := fun heq => hnot (heq ▸ hkey)
      rw [if_neg hne]
      exact ih hrest hmem

theorem has_field_iff {props : List (String × Shape)} (hnodup : (props.map Prod.fst).Nodup)
    (k : String) (path : List Step) : (Shape.obj props).Has (.field k :: path) ↔
      ∃ x, props.lookup k = some x ∧ (path = [] ∨ x.Has path) := by
  constructor
  · intro h
    cases h with
    | key mem => exact ⟨_, lookup_of_mem hnodup mem, .inl rfl⟩
    | nested mem has => exact ⟨_, lookup_of_mem hnodup mem, .inr has⟩
  · rintro ⟨x, hx, rfl | has⟩
    · exact .key (mem_of_lookup hx)
    · exact .nested (mem_of_lookup hx) has

/-- The entry of a key, if the shape is an object that has one. -/
def entry (k : String) : Shape → Option Shape
  | .obj props => props.lookup k
  | _ => none

theorem foldl_objects {sites : List Shape} (hobj : ∀ s ∈ sites, ∃ props, s = .obj props)
    (hnodup : ∀ s ∈ sites, s.NoRepeats) {as : List (String × Shape)}
    (has : (as.map Prod.fst).Nodup) :
    ∃ props, sites.foldl (fun acc shape => mergeShapes acc (some shape)) (some (.obj as)) =
        some (.obj props) ∧ (props.map Prod.fst).Nodup ∧
      ∀ k, props.lookup k = (sites.filterMap (entry k)).foldl
        (fun acc shape => mergeShapes acc (some shape)) (as.lookup k) := by
  induction sites generalizing as with
  | nil => exact ⟨as, rfl, has, fun k => rfl⟩
  | cons s rest ih =>
    rw [List.forall_mem_cons] at hobj hnodup
    obtain ⟨bs, rfl⟩ := hobj.1
    have hbs : (bs.map Prod.fst).Nodup := by
      cases hnodup.1
      assumption
    obtain ⟨props, hfold, hprops, hlookup⟩ := ih hobj.2 hnodup.2 (nodup_mergeProps bs has)
    refine ⟨props, ?_, hprops, fun k => ?_⟩
    · rw [List.foldl_cons, mergeShapes, mergeShape]
      exact hfold
    · rw [hlookup, lookup_mergeProps hbs, List.filterMap_cons, entry]
      cases bs.lookup k with
      | none => cases as.lookup k <;> rfl
      | some v => rfl

/-- The key paths of a fold of objects, key by key. -/
theorem mem_keysOf?_objects {sites : List Shape} (hobj : ∀ s ∈ sites, ∃ props, s = .obj props)
    (hnodup : ∀ s ∈ sites, s.NoRepeats) (k : String) (path : List Step) :
    .field k :: path ∈ keysOf? (foldShapes sites) ↔
      ∃ x, foldShapes (sites.filterMap (entry k)) = some x ∧ (path = [] ∨ x.Has path) := by
  cases sites with
  | nil => simp [foldShapes, keysOf?_none]
  | cons s rest =>
    rw [List.forall_mem_cons] at hobj hnodup
    obtain ⟨as, rfl⟩ := hobj.1
    have has : (as.map Prod.fst).Nodup := by
      cases hnodup.1
      assumption
    obtain ⟨props, hfold, hprops, hlookup⟩ := foldl_objects hobj.2 hnodup.2 has
    have hfirst : foldShapes (.obj as :: rest) = some (.obj props) := hfold
    have hentries : foldShapes ((Shape.obj as :: rest).filterMap (entry k)) = props.lookup k := by
      rw [hlookup, List.filterMap_cons, entry]
      cases as.lookup k <;> rfl
    rw [hfirst, keysOf?_some, hentries]
    exact has_field_iff hprops k path

/-! ### Keeping the keys needs agreement -/

/-- A rearrangement of what is picked comes from one of the list. -/
theorem exists_perm_filterMap {α β : Type} {f : α → Option β} {c : List β} {l : List α}
    (h : c.Perm (l.filterMap f)) : ∃ l' : List α, l'.Perm l ∧ l'.filterMap f = c := by
  induction c generalizing l with
  | nil => exact ⟨l, .refl l, h.symm.eq_nil⟩
  | cons b c ih =>
    obtain ⟨a, ha, hb⟩ := List.mem_filterMap.mp (h.subset List.mem_cons_self)
    obtain ⟨l₁, l₂, rfl⟩ := List.append_of_mem ha
    have hmiddle : (l₁ ++ a :: l₂).Perm (a :: (l₁ ++ l₂)) := List.perm_middle
    have hpicked := h.trans (hmiddle.filterMap f)
    rw [List.filterMap_cons_some hb] at hpicked
    obtain ⟨l', hl', hc⟩ := ih ((List.perm_cons b).mp hpicked)
    exact ⟨a :: l', (hl'.cons a).trans hmiddle.symm, by rw [List.filterMap_cons_some hb, hc]⟩

/-- What keeping the keys says of the keys above all lists. -/
def KeepsUpperKeys (sites : List Shape) : Prop :=
  (∀ s ∈ sites, ∀ path ∈ s.keysOf, Step.item ∉ path → path ∈ keysOf? (foldShapes sites)) ∧
  ∀ sites', sites'.Perm sites → keysOf? (foldShapes sites') = keysOf? (foldShapes sites)

theorem foldShapes_arr (a : Shape) (rest : List Shape) :
    foldShapes (Shape.arr a :: rest) = some (.arr a) := by
  change rest.foldl _ (some (Shape.arr a)) = _
  induction rest with
  | nil => rfl
  | cons s rest ih =>
    have hkeep : mergeShape (.arr a) s = .arr a := by
      cases s <;> rw [mergeShape.eq_def]
    rw [List.foldl_cons, mergeShapes, hkeep]
    exact ih

theorem foldShapes_null {rest : List Shape} (h : ∀ a, Shape.arr a ∉ rest) :
    foldShapes (Shape.null :: rest) = some .null := by
  change rest.foldl _ (some Shape.null) = _
  induction rest with
  | nil => rfl
  | cons s rest ih =>
    have hkeep : mergeShape .null s = .null := by
      cases s with
      | arr a => exact absurd List.mem_cons_self (h a)
      | _ => rw [mergeShape.eq_def]
    rw [List.foldl_cons, mergeShapes, hkeep]
    exact ih fun a ha => h a (List.mem_cons_of_mem _ ha)

/-- Any site may come first. -/
theorem exists_first {s : Shape} {sites : List Shape} (h : s ∈ sites) :
    ∃ rest, (s :: rest).Perm sites := by
  obtain ⟨l₁, l₂, rfl⟩ := List.append_of_mem h
  exact ⟨l₁ ++ l₂, List.perm_middle.symm⟩

theorem KeepsUpperKeys.arr {sites : List Shape} (h : KeepsUpperKeys sites) {a : Shape}
    (ha : Shape.arr a ∈ sites) : keysOf? (foldShapes sites) = (Shape.arr a).keysOf := by
  obtain ⟨rest, hperm⟩ := exists_first ha
  rw [← h.2 _ hperm, foldShapes_arr, keysOf?_some]

theorem KeepsUpperKeys.obj_arr {sites : List Shape} (h : KeepsUpperKeys sites) {a : Shape}
    (ha : Shape.arr a ∈ sites) {props : List (String × Shape)} (hobj : Shape.obj props ∈ sites) :
    props = [] := by
  cases props with
  | nil => rfl
  | cons e rest =>
    obtain ⟨k, x⟩ := e
    have hkept := h.1 _ hobj [.field k] (.key List.mem_cons_self) (by simp)
    rw [h.arr ha] at hkept
    cases hkept

theorem KeepsUpperKeys.obj_null {sites : List Shape} (h : KeepsUpperKeys sites)
    (hnull : Shape.null ∈ sites) {props : List (String × Shape)} (hobj : Shape.obj props ∈ sites) :
    props = [] := by
  by_cases harr : ∃ a, Shape.arr a ∈ sites
  · obtain ⟨a, ha⟩ := harr
    exact h.obj_arr ha hobj
  · cases props with
    | nil => rfl
    | cons e rest =>
      obtain ⟨k, x⟩ := e
      obtain ⟨others, hperm⟩ := exists_first hnull
      have hnone : ∀ a, Shape.arr a ∉ others := fun a ha =>
        harr ⟨a, hperm.subset (List.mem_cons_of_mem _ ha)⟩
      have hkept := h.1 _ hobj [.field k] (.key List.mem_cons_self) (by simp)
      rw [← h.2 _ hperm, foldShapes_null hnone, keysOf?_some] at hkept
      cases hkept

theorem KeepsUpperKeys.agree {sites : List Shape} (h : KeepsUpperKeys sites) {x y : Shape}
    (hx : x ∈ sites) (hy : y ∈ sites) : Agree x y := by
  cases x with
  | null =>
    cases y with
    | obj props => exact h.obj_null hx hy
    | _ => exact trivial
  | obj props =>
    cases y with
    | null => exact h.obj_null hy hx
    | obj props' => exact trivial
    | arr b => exact h.obj_arr hy hx
  | arr a =>
    cases y with
    | null => exact trivial
    | obj props => exact h.obj_arr hx hy
    | arr b =>
      have hsame := (h.arr hx).symm.trans (h.arr hy)
      have hitem : ∀ (c : Shape) path, .item :: path ∈ (Shape.arr c).keysOf ↔ path ∈ c.keysOf :=
        fun c path => ⟨fun h => by cases h; assumption, .item⟩
      exact Set.ext fun path => by rw [← hitem a, ← hitem b, hsame]

theorem Shape.Has.ne_nil {s : Shape} {path : List Step} (h : s.Has path) : path ≠ [] := by
  cases h <;> nofun

/-- What holds of the objects holds of the entries of each key. -/
theorem KeepsUpperKeys.entries {sites : List Shape} (h : KeepsUpperKeys sites)
    (hobj : ∀ s ∈ sites, ∃ props, s = .obj props) (hnodup : ∀ s ∈ sites, s.NoRepeats)
    (k : String) : KeepsUpperKeys (sites.filterMap (entry k)) := by
  refine ⟨fun c hc path hpath hitem => ?_, fun c hc => Set.ext fun path => ?_⟩
  · obtain ⟨s, hs, hsc⟩ := List.mem_filterMap.mp hc
    obtain ⟨props, rfl⟩ := hobj s hs
    have hkept := h.1 _ hs (.field k :: path) (.nested (mem_of_lookup hsc) hpath)
      (by simpa using hitem)
    obtain ⟨x, hx, hpath' | hpath'⟩ := (mem_keysOf?_objects hobj hnodup k path).mp hkept
    · exact absurd hpath' hpath.ne_nil
    · exact ⟨x, hx, hpath'⟩
  · obtain ⟨sites', hperm, rfl⟩ := exists_perm_filterMap hc
    have hobj' : ∀ s ∈ sites', ∃ props, s = .obj props := fun s hs => hobj s (hperm.subset hs)
    have hnodup' : ∀ s ∈ sites', s.NoRepeats := fun s hs => hnodup s (hperm.subset hs)
    have hbelow : ∀ fold : Option Shape, path ∈ keysOf? fold ↔
        path ≠ [] ∧ ∃ x, fold = some x ∧ (path = [] ∨ x.Has path) := by
      refine fun fold => ⟨fun ⟨x, hx, has⟩ => ⟨has.ne_nil, x, hx, .inr has⟩, ?_⟩
      rintro ⟨hne, x, hx, hpath | has⟩
      · exact absurd hpath hne
      · exact ⟨x, hx, has⟩
    rw [hbelow, hbelow, ← mem_keysOf?_objects hobj' hnodup' k path,
      ← mem_keysOf?_objects hobj hnodup k path, h.2 sites' hperm]

theorem Shape.NoRepeats.entry {s c : Shape} (h : s.NoRepeats) {k : String}
    (hc : Mex.entry k s = some c) : c.NoRepeats := by
  cases h with
  | obj nodup nodes => exact nodes (k, c) (mem_of_lookup hc)
  | _ => cases hc

theorem agree_of_keepsUpperKeys {sites : List Shape} (h : KeepsUpperKeys sites)
    (hnodup : ∀ s ∈ sites, s.NoRepeats) {s s' : Shape} (hs : s ∈ sites) (hs' : s' ∈ sites)
    {ks : List String} {x y : Shape} (hx : s.KeyAt ks x) (hy : s'.KeyAt ks y) : Agree x y := by
  induction ks generalizing sites s s' with
  | nil =>
    cases hx
    cases hy
    exact h.agree hs hs'
  | cons k ks ih =>
    cases hx with
    | @field props _ c _ _ mem node =>
      cases hy with
      | @field props' _ c' _ _ mem' node' =>
        have hobj : ∀ t ∈ sites, ∃ ps, t = .obj ps := by
          intro t ht
          have hagree := h.agree ht hs
          cases t with
          | obj ps => exact ⟨ps, rfl⟩
          | null =>
            obtain rfl : props = [] := hagree
            cases mem
          | arr a =>
            obtain rfl : props = [] := hagree
            cases mem
        have hentry : ∀ {ps : List (String × Shape)} {d : Shape}, Shape.obj ps ∈ sites →
            (k, d) ∈ ps → d ∈ sites.filterMap (entry k) := by
          intro ps d hps hd
          refine List.mem_filterMap.mpr ⟨.obj ps, hps, ?_⟩
          cases hnodup _ hps with
          | obj nodup nodes => exact lookup_of_mem nodup hd
        refine ih (h.entries hobj hnodup k) (fun d hd => ?_) (hentry hs mem) (hentry hs' mem')
          node node'
        obtain ⟨t, ht, htd⟩ := List.mem_filterMap.mp hd
        exact (hnodup t ht).entry htd

/-- Two sites: one passes a value for `input`, the other writes the object. -/
def unreadThenWritten : List Shape :=
  [.obj [("input", .null)], .obj [("input", .obj [("a", .null)])]]

end Whatspec.Mex

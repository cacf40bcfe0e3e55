import Whatspec.Mex.WriteKey

/-!
# The verdicts after a write

* `nodeAt_writeKey_of_other`: the verdicts about the keys off the path stay, unless the write makes
  or unmakes a `toJSON` that is called or a getter that stands;
* `nodeAt_of_settled`: the verdict at a path is that of the value it reads to, where no `toJSON` is
  called, nothing later in an object can cover the key and it is written before a getter runs;
* **`writeKey_lastWriteWins`**: what a write that is applied leaves.
-/

namespace Whatspec.Mex

open Whatspec.Library VariablePresenceNode

/-! ### Accessors that stand -/

theorem standingGetters_congr {props out : List Property}
    (hnames : props.map Property.name = out.map Property.name)
    (hstands : ∀ k, stands props k = stands out k) :
    standingGetters props = standingGetters out := by
  have hfirst : ∀ ps : List Property, ∀ k,
      firstWritten ps k = (ps.map Property.name).findIdx fun n => n = some k := fun ps k => by
    rw [List.findIdx_map]
    rfl
  have hkeys : ∀ ps : List Property,
      ps.filterMap Property.name = (ps.map Property.name).filterMap id := fun ps => by
    rw [List.filterMap_map]
    rfl
  have hfirst' : firstWritten props = firstWritten out :=
    funext fun k => by rw [hfirst, hfirst, hnames]
  have hstands' : stands props = stands out := funext hstands
  rw [standingGetters, standingGetters, hkeys, hkeys, hnames, hfirst', hstands']

theorem standingGetters_concat {props : List Property} {key : String} {value : Value}
    (hno : ∀ p ∈ props, p.name ≠ some key)
    (hstands : stands (props ++ [.key key value]) key = false) :
    standingGetters (props ++ [.key key value]) = standingGetters props := by
  have hkey : key ∉ props.filterMap Property.name := by
    intro hmem
    obtain ⟨p, hp, hname⟩ := List.mem_filterMap.mp hmem
    exact hno p hp hname
  have hfilter : (props.filterMap Property.name).eraseDups.filter
      (stands (props ++ [.key key value])) =
      (props.filterMap Property.name).eraseDups.filter (stands props) := by
    refine List.filter_congr fun k hk => ?_
    have hne : key ≠ k := fun h => hkey (h ▸ List.mem_eraseDups.mp hk)
    rw [stands, stands, List.filter_append, List.filter_cons_of_neg (by simp [Property.name, hne])]
    simp
  have hnames : (props ++ [Property.key key value]).filterMap Property.name =
      props.filterMap Property.name ++ [key] := by
    simp [Property.name]
  have hlast : ([key].removeAll (props.filterMap Property.name)).eraseDups = [key] := by
    rw [List.removeAll, List.filter_cons_of_pos (by simpa using hkey)]
    rfl
  rw [standingGetters, standingGetters, hnames, List.eraseDups_append, hlast, List.filter_append,
    hfilter, List.filter_cons_of_neg (by simp [hstands]), List.filter_nil, List.append_nil]
  refine List.map_congr_left fun k hk => ?_
  have hmem := List.mem_eraseDups.mp (List.mem_filter.mp hk).1
  obtain ⟨p, hp, hname⟩ := List.mem_filterMap.mp hmem
  rw [firstWritten, firstWritten, List.findIdx_append, if_pos]
  exact List.findIdx_lt_length.mpr ⟨p, hp, by simpa using hname⟩

/-! ### Keys off the path -/

/-- A verdict as it is answered, withdrawn when the whole object is. -/
def view (whole : Bool) (n : VariablePresenceNode) : VariablePresenceNode :=
  if whole then withdraw n else n

theorem view_withdraw (whole : Bool) (n : VariablePresenceNode) :
    view whole (withdraw n) = withdraw (view whole n) := by
  cases whole with
  | true => rfl
  | false => rfl

theorem Comparison.view (R : Comparison) (whole : Bool) {k : String}
    {a b : Option VariablePresenceNode} (h : R.rel k a b) :
    R.rel k (a.map (Mex.view whole)) (b.map (Mex.view whole)) := by
  cases whole with
  | true => exact R.withdraw k a b h
  | false =>
      have hid : Mex.view false = id := rfl
      rw [hid, Option.map_id]
      exact h

/-- The same verdicts are answered under the other keys. -/
def away (key : String) (whole : Bool) : Comparison where
  rel k a b := k = key ∨ a.map (view whole) = b.map (view whole)
  same _ _ := .inr rfl
  withdraw k a b h := h.imp_right fun h => by
    have hview : view whole ∘ withdraw = withdraw ∘ view whole :=
      funext fun n => view_withdraw whole n
    rw [Option.map_map, Option.map_map, hview, ← Option.map_map, ← Option.map_map, h]
  seen k a b h := by
    obtain h | h := h
    · exact .inr fun _ _ => .inl h
    · refine .inl ?_
      rw [← Option.isSome_map (f := view whole) (x := a), h, Option.isSome_map]

theorem get_finish (r : Reading) (whole : Bool) (k : String) :
    SortedMap.get (r.finish whole).1 k = (SortedMap.get r.out k).map (view whole) := by
  cases whole with
  | true =>
      show SortedMap.get (withdrawFields r.out) k = _
      rw [get_withdrawFields]
      rfl
  | false =>
      show SortedMap.get r.out k = _
      cases SortedMap.get r.out k <;> rfl

section Reading

variable {scopes : Scopes} {remaining : ℕ}
  {classify : Value → Option (VariablePresenceNode × List Opaque)}
  {spread : List Property → Option Classified}

/-- Reading a key leaves the other keys, up to a withdrawal by a hook. -/
theorem view_readPlain_key {whole : Bool} {r s : Reading} {key k : String} {value : Value}
    (h : readPlain scopes remaining classify spread r (.key key value) = some s)
    (hhook : isHook scopes remaining (.key key value) = true → whole = true) (hk : k ≠ key) :
    (SortedMap.get s.out k).map (view whole) = (SortedMap.get r.out k).map (view whole) := by
  have hkey : ∀ n, SortedMap.get (SortedMap.insert key n r.out) k = SortedMap.get r.out k :=
    fun n => by rw [SortedMap.get_insert, if_neg hk]
  obtain ⟨hyes, rfl⟩ | ⟨-, -, rfl⟩ | ⟨-, -, c, -, rfl⟩ := readPlain_key h
  · rw [hhook hyes]
    show (SortedMap.get (withdrawFields r.out) k).map withdraw = _
    rw [get_withdrawFields, Option.map_map]
    exact congrArg (fun f => (SortedMap.get r.out k).map f) (funext withdraw_withdraw)
  · exact congrArg (Option.map (view whole)) (hkey _)
  · exact congrArg (Option.map (view whole)) (hkey _)

theorem readPlain_key_above {r s : Reading} {key : String} {value : Value}
    (h : readPlain scopes remaining classify spread r (.key key value) = some s) :
    s.alreadyWritten = r.alreadyWritten ∧ s.serializingRunsCode = r.serializingRunsCode := by
  obtain ⟨-, rfl⟩ | ⟨-, -, rfl⟩ | ⟨-, -, c, -, rfl⟩ := readPlain_key h
  · exact ⟨rfl, rfl⟩
  · exact ⟨rfl, rfl⟩
  · exact ⟨rfl, rfl⟩

theorem Alike.away_entry {whole : Bool} {r r' s s' : Reading} {key : String} {value value' : Value}
    (h : Alike (away key whole) r r')
    (hs : readPlain scopes remaining classify spread r (.key key value) = some s)
    (hs' : readPlain scopes remaining classify spread r' (.key key value') = some s')
    (hhook : isHook scopes remaining (.key key value) = true → whole = true)
    (hhook' : isHook scopes remaining (.key key value') = true → whole = true) :
    Alike (away key whole) s s' := by
  obtain ⟨habove, hruns⟩ := readPlain_key_above hs
  obtain ⟨habove', hruns'⟩ := readPlain_key_above hs'
  refine ⟨fun k => ?_, fun k => ?_, by rw [hruns, hruns', h.runs]⟩
  · by_cases hk : k = key
    · exact .inl hk
    · refine .inr ?_
      rw [view_readPlain_key hs hhook hk, view_readPlain_key hs' hhook' hk]
      exact (h.out k).resolve_left hk
  · rw [habove, habove']
    exact h.above k

end Reading

/-- The reading of an object, with the classification of what is in it. -/
abbrev readWith (scopes : Scopes) (fuel remaining : ℕ) :
    List ℕ → Reading → ℕ → List Property → Option Reading :=
  readProps scopes (remaining + 1)
    (fun value => classifyValue scopes fuel (remaining + 1) value .always)
    (fun inner => classifyObject scopes fuel remaining inner)

/-- An object that is classified has been read. -/
theorem Classifies.read {scopes : Scopes} {m : ℕ} {props : List Property} {c : Classified}
    (h : Classifies scopes (m + 1) props c) : ∃ fuel, ∀ fuel' ≥ fuel, ∃ r,
      readWith scopes fuel' m (standingGetters props) .start 0 props = some r ∧
        c = r.finish (props.any (isHook scopes (m + 1))) := by
  obtain ⟨fuel, h⟩ := h
  refine ⟨fuel, fun fuel' hle => ?_⟩
  have hmono := classifyObject_mono (Nat.le_succ_of_le hle) h
  rw [classifyObject] at hmono
  obtain ⟨r, hr, rfl⟩ := Option.map_eq_some_iff.mp hmono
  exact ⟨r, hr, rfl⟩

/-- The write makes or unmakes neither a `toJSON` that is called nor a getter that stands. -/
structure SameAccessors (scopes : Scopes) (remaining : ℕ) (props out : List Property)
    (key : String) : Prop where
  hooks : props.any (isHook scopes remaining) = out.any (isHook scopes remaining)
  stands : stands props key = stands out key

/-- The keys beside one that is replaced. -/
theorem get_replaced {scopes : Scopes} {m : ℕ} {props out : List Property} {key : String}
    {replace : Value → Option Value} {c c' : Classified}
    (hreplaced : List.Forall₂ (Replaced key replace) props out)
    (hsame : SameAccessors scopes (m + 1) props out key)
    (hc : Classifies scopes (m + 1) props c) (hc' : Classifies scopes (m + 1) out c') {k : String}
    (hk : k ≠ key) : SortedMap.get c'.1 k = SortedMap.get c.1 k := by
  obtain ⟨fuel, hread⟩ := hc.read
  obtain ⟨fuel', hread'⟩ := hc'.read
  obtain ⟨r, hr, rfl⟩ := hread _ (Nat.le_max_left fuel fuel')
  obtain ⟨r', hr', rfl⟩ := hread' _ (Nat.le_max_right fuel fuel')
  have hstanding : standingGetters props = standingGetters out := by
    refine standingGetters_congr (names_replaced hreplaced) fun k => ?_
    by_cases hk : k = key
    · exact hk ▸ hsame.stands
    · rw [stands, stands, filter_replaced hreplaced hk]
  rw [← hstanding] at hr'
  rw [get_finish, get_finish, ← hsame.hooks]
  set whole := props.any (isHook scopes (m + 1)) with hwhole
  have hlast : Alike (away key whole) r r' := by
    refine readProps_alike (Q := fun p p' => Replaced key replace p p' ∧ p ∈ props ∧ p' ∈ out)
      ?_ ?_ Alike.start hr hr'
    · rintro p p' s s' t t' ⟨hp, hmem, hmem'⟩ halike ht ht'
      cases hp with
      | other _ => exact readPlain_alike halike ht ht'
      | entry _ =>
          exact halike.away_entry ht ht' (fun hhook => List.any_eq_true.mpr ⟨_, hmem, hhook⟩)
            fun hhook => hwhole.trans (hsame.hooks.trans (List.any_eq_true.mpr ⟨_, hmem', hhook⟩))
    · rw [List.forall₂_iff_get] at hreplaced ⊢
      refine ⟨hreplaced.1, fun i h h' => ⟨hreplaced.2 i h h', ?_, ?_⟩⟩
      · exact List.get_mem ..
      · exact List.get_mem ..
  exact ((hlast.out k).resolve_left hk).symm

/-- The keys beside one that is added. -/
theorem get_added {scopes : Scopes} {m : ℕ} {props : List Property} {key : String}
    {written : Value} {c c' : Classified} (hno : writesKey props key = false)
    (hsame : SameAccessors scopes (m + 1) props (props ++ [.key key written]) key)
    (hc : Classifies scopes (m + 1) props c)
    (hc' : Classifies scopes (m + 1) (props ++ [.key key written]) c') {k : String}
    (hk : k ≠ key) : SortedMap.get c'.1 k = SortedMap.get c.1 k := by
  obtain ⟨fuel, hread⟩ := hc.read
  obtain ⟨fuel', hread'⟩ := hc'.read
  obtain ⟨r, hr, rfl⟩ := hread _ (Nat.le_max_left fuel fuel')
  obtain ⟨r', hr', rfl⟩ := hread' _ (Nat.le_max_right fuel fuel')
  have hnames := not_named_of_writesKey hno
  have hfilter : (props.filter fun p => p.name = some key) = [] := by
    rw [List.filter_eq_nil_iff]
    exact fun p hp => by simpa using hnames p hp
  have hstands : stands (props ++ [.key key written]) key = false := by
    rw [← hsame.stands, stands, hfilter]
    rfl
  rw [standingGetters_concat hnames hstands, readWith, readProps_append] at hr'
  rw [readWith] at hr
  rw [hr, Option.bind_some, readProps] at hr'
  rw [get_finish, get_finish, ← hsame.hooks]
  split at hr'
  · next s hs =>
      cases hr'
      have hout : ∀ standing index, (r.passGetter standing index).out = r.out := fun _ _ => by
        rw [Reading.passGetter]
        split <;> rfl
      rw [view_readPlain_key hs (fun hhook => ?_) hk, hout]
      rw [hsame.hooks]
      exact List.any_eq_true.mpr ⟨_, by simp, hhook⟩
  · cases hr'

/-! ### Verdicts at a path -/

/-- The verdict about the key that a path reads to. -/
def nodeAt (c : Classified) (path : List String) : Option VariablePresenceNode :=
  (VariablePresenceNode.mk .always c.1 none).at? (path.map .field)

theorem nodeAt_cons (c : Classified) (k : String) (path : List String) :
    nodeAt c (k :: path) = (SortedMap.get c.1 k).bind fun n => n.at? (path.map .field) := rfl

theorem at?_withdraw (n : VariablePresenceNode) (path : List String) :
    (withdraw n).at? (path.map .field) = (n.at? (path.map .field)).map withdraw := by
  induction path generalizing n with
  | nil => rfl
  | cons k path ih =>
      rw [List.map_cons, at?, at?, withdraw_child, withdrawChildren_child_field]
      cases n.child (.field k) with
      | none => rfl
      | some child => exact ih child

/-- What is called with fewer steps left is called with more. -/
theorem mayBeCalled_succ (scopes : Scopes) {remaining : ℕ} {value : Value}
    (h : mayBeCalled scopes (remaining + 1) value = true) :
    mayBeCalled scopes remaining value = true := by
  induction remaining generalizing value with
  | zero => rfl
  | succ remaining ih =>
      rw [mayBeCalled.eq_def] at h ⊢
      dsimp only at h ⊢
      cases hres : scopes.resolve maxDepth value with
      | either a b | orElse a b | coalesce a b | andThen a b =>
          rw [hres] at h
          simp only [Bool.or_eq_true] at h ⊢
          exact h.imp ih ih
      | _ => simp_all

theorem isHook_succ {scopes : Scopes} {remaining : ℕ} {p : Property}
    (h : isHook scopes (remaining + 1) p = true) : isHook scopes remaining p = true := by
  cases p with
  | key key value =>
      rw [isHook, Bool.and_eq_true] at h ⊢
      exact ⟨h.1, mayBeCalled_succ scopes h.2⟩
  | spread _ => cases h
  | unreadable => cases h

/-- Where a hook takes the whole object, its keys are withdrawn already. -/
theorem Classifies.withdrawn {scopes : Scopes} {m : ℕ} {props : List Property} {c : Classified}
    (h : Classifies scopes m props c) (hhook : props.any (isHook scopes (m + 1)) = true)
    (k : String) : (SortedMap.get c.1 k).map withdraw = SortedMap.get c.1 k := by
  cases m with
  | zero =>
      obtain ⟨fuel, h⟩ := h
      cases fuel with
      | zero => cases h
      | succ fuel =>
          cases h
          rfl
  | succ m =>
      obtain ⟨fuel, hread⟩ := h.read
      obtain ⟨r, -, rfl⟩ := hread fuel le_rfl
      have hwhole : props.any (isHook scopes (m + 1)) = true := by
        obtain ⟨p, hp, hyes⟩ := List.any_eq_true.mp hhook
        exact List.any_eq_true.mpr ⟨p, hp, isHook_succ hyes⟩
      rw [get_finish, hwhole, Option.map_map]
      exact congrArg (fun f => (SortedMap.get r.out k).map f) (funext withdraw_withdraw)

/-- The verdicts under a value that is an object. -/
theorem ClassifiesValue.object {scopes : Scopes} {m : ℕ} {value : Value} {props : List Property}
    {c : VariablePresenceNode × List Opaque} (h : ClassifiesValue scopes (m + 1) value c)
    (hvalue : scopes.resolve maxDepth value = .object props) :
    ∃ d, Classifies scopes m props d ∧ ∀ k path,
      c.1.at? ((k :: path).map .field) = nodeAt d (k :: path) := by
  obtain ⟨fuel, h⟩ := h
  cases fuel with
  | zero => cases h
  | succ fuel =>
      rw [classifyValue.eq_def] at h
      simp only [hvalue] at h
      obtain ⟨d, hd, rfl⟩ := Option.map_eq_some_iff.mp h
      have hclassified : Classifies scopes m props d := ⟨fuel, hd⟩
      refine ⟨d, hclassified, fun k path => ?_⟩
      dsimp only
      split
      · next hhook =>
          rw [at?_withdraw, nodeAt_cons, ← hclassified.withdrawn hhook k, List.map_cons, at?]
          show ((SortedMap.get d.1 k).bind _).map withdraw = _
          cases SortedMap.get d.1 k with
          | none => rfl
          | some n => exact (at?_withdraw n path).symm
      · rfl

/-- The same verdicts everywhere, but that under one key they need only compare. -/
def under (key : String) (V : VariablePresenceNode → VariablePresenceNode → Prop)
    (hwithdraw : ∀ n n', V n n' → V (withdraw n) (withdraw n')) : Comparison where
  rel k a b := a = b ∨ k = key ∧ Option.Rel V a b
  same _ _ := .inl rfl
  withdraw k a b h := by
    obtain rfl | ⟨hk, h⟩ := h
    · exact .inl rfl
    · refine .inr ⟨hk, ?_⟩
      cases h with
      | some h => exact .some (hwithdraw _ _ h)
      | none => exact .none
  seen k a b h := by
    obtain rfl | ⟨hk, h⟩ := h
    · exact .inl rfl
    · cases h with
      | some h => exact .inl rfl
      | none => exact .inl rfl

section Entry

variable {scopes : Scopes} {m : ℕ}
  {classify : Value → Option (VariablePresenceNode × List Opaque)}
  {spread : List Property → Option Classified} {value : Value} {props : List Property}

theorem isHook_object (hvalue : scopes.resolve maxDepth value = .object props) (key : String) :
    isHook scopes (m + 1) (.key key value) = false := by
  rw [isHook, mayBeCalled.eq_def]
  simp [hvalue]

theorem isGetter_object (hvalue : scopes.resolve maxDepth value = .object props) (key : String) :
    (Property.key key value).isGetter = false := by
  cases value with
  | getter => cases hvalue
  | _ => rfl

/-- An object under a key is put there with its verdicts. -/
theorem readPlain_object (hvalue : scopes.resolve maxDepth value = .object props) {key : String}
    {r s : Reading}
    (h : readPlain scopes (m + 1) classify spread r (.key key value) = some s) :
    ∃ c, classify value = some c ∧ s = r.put key c := by
  obtain ⟨hyes, -⟩ | ⟨-, rfl, -⟩ | ⟨-, -, h⟩ := readPlain_key h
  · rw [isHook_object hvalue] at hyes
    cases hyes
  · cases hvalue
  · exact h

end Entry

/-- Past the last write of a key, what is under it compares as what was put there does. -/
theorem Alike.put_under {key : String} {V W : VariablePresenceNode → VariablePresenceNode → Prop}
    (hV : ∀ n n', V n n' → V (withdraw n) (withdraw n'))
    {hW : ∀ n n', W n n' → W (withdraw n) (withdraw n')} {r r' : Reading}
    {c c' : VariablePresenceNode × List Opaque} (h : Alike (under key W hW) r r')
    (hc : V c.1 c'.1) : Alike (under key V hV) (r.put key c) (r'.put key c') := by
  have habove : ∀ k, r.alreadyWritten.contains k = r'.alreadyWritten.contains k := by
    refine fun k => (h.above k).resolve_left fun hany => ?_
    obtain heq | ⟨-, hrel⟩ := hany none (some c.1)
    · cases heq
    · cases hrel
  refine ⟨fun k => ?_, fun k => .inr (habove k), h.runs⟩
  show (under key V hV).rel k (SortedMap.get (SortedMap.insert key _ r.out) k)
    (SortedMap.get (SortedMap.insert key _ r'.out) k)
  rw [SortedMap.get_insert, SortedMap.get_insert]
  split
  · next hk =>
      refine .inr ⟨hk, .some ?_⟩
      rw [Reading.atRisk, Reading.atRisk, ← h.runs, ← habove]
      split
      · exact hV _ _ hc
      · exact hc
  · next hk => exact .inl ((h.out k).resolve_right fun hrel => hk hrel.1)

theorem stands_append {above below : List Property} {key : String} {value : Value}
    (hbelow : ∀ p ∈ below, p.name ≠ some key) :
    stands (above ++ .key key value :: below) key = (Property.key key value).isGetter := by
  have hfilter : (below.filter fun p => p.name = some key) = [] := by
    rw [List.filter_eq_nil_iff]
    exact fun p hp => by simpa using hbelow p hp
  rw [stands, List.filter_append, List.filter_cons_of_pos (by simp [Property.name]), hfilter,
    List.getLast?_append]
  rfl

theorem any_replaced {key : String} {replace : Value → Option Value} {props out : List Property}
    {f : Property → Bool} (h : List.Forall₂ (Replaced key replace) props out)
    (hf : ∀ {v v'}, replace v = some v' → f (.key key v) = f (.key key v')) :
    props.any f = out.any f := by
  induction h with
  | nil => rfl
  | cons hp _ ih =>
      rw [List.any_cons, List.any_cons, ih]
      cases hp with
      | other _ => rfl
      | entry hv => rw [hf hv]

/-- What holds of the objects that the last key is written in, before and after. -/
def KeepsAccessors (scopes : Scopes) : ℕ → Value → Value → List String → Prop
  | m + 1, before, after, key :: rest =>
      ∀ props out, scopes.resolve maxDepth before = .object props →
        scopes.resolve maxDepth after = .object out →
        if rest.isEmpty then SameAccessors scopes (m + 1) props out key
        else ∀ inner inner', lastValue props key = some inner → lastValue out key = some inner' →
          KeepsAccessors scopes m inner inner' rest
  | _, _, _, _ => True

/-- The verdicts agree off a path. -/
def AgreeOff (path : List String) (n n' : VariablePresenceNode) : Prop :=
  ∀ q : List String, ¬ q <+: path → ¬ path <+: q →
    n.at? (q.map .field) = n'.at? (q.map .field)

theorem AgreeOff.withdraw (path : List String) (n n' : VariablePresenceNode)
    (h : AgreeOff path n n') : AgreeOff path (withdraw n) (Mex.withdraw n') := by
  intro q hq hq'
  rw [at?_withdraw, at?_withdraw, h q hq hq']

/-- The keys of two objects that differ in objects under one key. -/
theorem under_of_replaced {scopes : Scopes} {m : ℕ} {props out : List Property} {key : String}
    {replace : Value → Option Value} {inner : Value} {c c' : Classified}
    {V : VariablePresenceNode → VariablePresenceNode → Prop}
    (hV : ∀ n n', V n n' → V (withdraw n) (withdraw n'))
    (hreplaced : List.Forall₂ (Replaced key replace) props out)
    (hobjects : ∀ {v v'}, replace v = some v' → (∃ ps, scopes.resolve maxDepth v = .object ps) ∧
      ∃ ps, scopes.resolve maxDepth v' = .object ps)
    (hlast : lastValue props key = some inner)
    (hinner : ∀ {inner' d d'}, lastValue out key = some inner' → replace inner = some inner' →
      ClassifiesValue scopes (m + 1) inner d → ClassifiesValue scopes (m + 1) inner' d' →
      V d.1 d'.1)
    (hc : Classifies scopes (m + 1) props c) (hc' : Classifies scopes (m + 1) out c')
    (k : String) : (under key V hV).rel k (SortedMap.get c.1 k) (SortedMap.get c'.1 k) := by
  obtain ⟨fuel, hread⟩ := hc.read
  obtain ⟨fuel', hread'⟩ := hc'.read
  obtain ⟨r, hr, rfl⟩ := hread _ (Nat.le_max_left fuel fuel')
  obtain ⟨r', hr', rfl⟩ := hread' _ (Nat.le_max_right fuel fuel')
  have hwhole : props.any (isHook scopes (m + 1)) = out.any (isHook scopes (m + 1)) := by
    refine any_replaced hreplaced fun hv => ?_
    obtain ⟨⟨ps, hps⟩, ps', hps'⟩ := hobjects hv
    rw [isHook_object hps, isHook_object hps']
  obtain ⟨above, below, inner', above', hreplace, rfl, rfl, habove, hbelow⟩ :=
    lastValue_replaced hreplaced hlast
  obtain ⟨⟨ps, hps⟩, ps', hps'⟩ := hobjects hreplace
  have hstanding : standingGetters (above ++ .key key inner :: below) =
      standingGetters (above' ++ .key key inner' :: below) := by
    refine standingGetters_congr (names_replaced hreplaced) fun k => ?_
    by_cases hk : k = key
    · rw [hk, stands_append hbelow, stands_append hbelow, isGetter_object hps,
        isGetter_object hps']
    · rw [stands, stands, filter_replaced hreplaced hk]
  rw [← hstanding, readWith, readProps_append] at hr'
  rw [readWith, readProps_append] at hr
  obtain ⟨s, hs, hr⟩ := Option.bind_eq_some_iff.mp hr
  obtain ⟨s', hs', hr'⟩ := Option.bind_eq_some_iff.mp hr'
  have halike : Alike (under key (fun _ _ => True) fun _ _ _ => trivial) s s' := by
    refine readProps_alike ?_ habove Alike.start hs hs'
    intro p p' t t' u u' hp halike hu hu'
    cases hp with
    | other _ => exact readPlain_alike halike hu hu'
    | entry hv =>
        obtain ⟨⟨ps, hps⟩, ps', hps'⟩ := hobjects hv
        obtain ⟨d, -, rfl⟩ := readPlain_object hps hu
        obtain ⟨d', -, rfl⟩ := readPlain_object hps' hu'
        exact halike.put (.inr ⟨rfl, .some trivial⟩)
  rw [readProps] at hr hr'
  split at hr
  · next t ht =>
      split at hr'
      · next t' ht' =>
          obtain ⟨d, hd, rfl⟩ := readPlain_object hps ht
          obtain ⟨d', hd', rfl⟩ := readPlain_object hps' ht'
          rw [← habove.length_eq] at ht' hr'
          have hput := (halike.passGetter (standingGetters (above ++ .key key inner :: below))
            (0 + above.length)).put_under hV
              (hinner (lastValue_append hbelow) hreplace ⟨_, hd⟩ ⟨_, hd'⟩)
          have hend := readProps_alike (Q := Eq) (fun hp halike hu hu' => by
            subst hp
            exact readPlain_alike halike hu hu') (List.forall₂_eq_eq_eq ▸ rfl) hput hr hr'
          rw [get_finish, get_finish, ← hwhole]
          exact (under key V hV).view _ (hend.out k)
      · cases hr'
  · cases hr

theorem nodeAt_writeKey_of_other {scopes : Scopes} {written : Value} {path : List String}
    {remaining : ℕ} {value result : Value} {props out : List Property} {c c' : Classified}
    (h : writeKey scopes remaining value path written = some result)
    (hkeeps : KeepsAccessors scopes remaining value result path)
    (hprops : scopes.resolve maxDepth value = .object props) (hresult : result = .object out)
    (hc : Classifies scopes remaining props c) (hc' : Classifies scopes remaining out c') :
    AgreeOff path (.mk .always c.1 none) (.mk .always c'.1 none) := by
  intro q hq hq'
  induction path generalizing remaining value result props out c c' q with
  | nil => exact absurd List.nil_prefix hq'
  | cons key rest ih =>
      obtain ⟨k, q, rfl⟩ : ∃ k q', q = k :: q' := by
        cases q with
        | nil => exact absurd List.nil_prefix hq
        | cons k q' => exact ⟨k, q', rfl⟩
      show nodeAt c (k :: q) = nodeAt c' (k :: q)
      obtain ⟨m, props', rfl, hprops', hcases⟩ := writeKey_cases h
      obtain rfl : props' = props := by simpa [hprops] using hprops'.symm
      have hsame := hkeeps props' out hprops (by rw [hresult]; rfl)
      rw [nodeAt_cons, nodeAt_cons]
      by_cases hrest : rest.isEmpty = true
      · -- The last key: it is not on the other path.
        obtain rfl := List.isEmpty_iff.mp hrest
        rw [if_pos hrest] at hsame
        have hk : k ≠ key := fun hk => hq' (by simp [hk])
        obtain ⟨out', -, rfl, hreplaced⟩ | ⟨-, hno, rfl⟩ := hcases
        · cases hresult
          rw [get_replaced hreplaced hsame hc hc' hk]
        · cases hresult
          rw [get_added hno hsame hc hc' hk]
      · rw [if_neg hrest] at hsame
        obtain ⟨out', hwrites, rfl, hreplaced⟩ | ⟨rfl, -⟩ := hcases
        · cases hresult
          simp only [hrest, Bool.false_eq_true, if_false] at hreplaced
          obtain ⟨inner, hinner⟩ := lastValue_isSome_of_writesKey hwrites
          have hrel := under_of_replaced (AgreeOff.withdraw rest) hreplaced
            (fun hv => ?_) hinner (fun hlast hreplace hd hd' => ?_) hc hc' k
          · obtain heq | ⟨rfl, hrel⟩ := hrel
            · rw [heq]
            · generalize SortedMap.get c.1 k = a at hrel ⊢
              generalize SortedMap.get c'.1 k = b at hrel ⊢
              cases hrel with
              | none => rfl
              | some hagree =>
                  exact hagree q (fun h => hq (List.cons_prefix_cons.mpr ⟨rfl, h⟩))
                    fun h => hq' (List.cons_prefix_cons.mpr ⟨rfl, h⟩)
          · exact (writeKey_objects hv).imp_right fun ⟨ps, hps⟩ => ⟨ps, by rw [hps]; rfl⟩
          · have hkeeps' := hsame _ _ hinner hlast
            obtain ⟨⟨ps, hps⟩, ps', rfl⟩ := writeKey_objects hreplace
            obtain ⟨e, he, heq⟩ := hd.object hps
            obtain ⟨e', he', heq'⟩ := hd'.object rfl
            intro q hq hq'
            obtain ⟨k, q, rfl⟩ : ∃ k q', q = k :: q' := by
              cases q with
              | nil => exact absurd List.nil_prefix hq
              | cons k q' => exact ⟨k, q', rfl⟩
            rw [heq, heq']
            exact ih hreplace hkeeps' hps rfl he he' _ hq hq'
        · exact absurd rfl hrest

/-! ### The key of the path -/

/-- Whether a property can write a key that it does not name. -/
def Covers (scopes : Scopes) (m : ℕ) (key : String) : Property → Prop
  | .key _ _ => False
  | .unreadable => True
  | .spread value =>
      spreadsNothing scopes (spreadSource scopes value).1 = false ∧
        ∀ inner, scopes.resolve maxDepth (spreadSource scopes value).1 = .object inner →
          ∃ c, Classifies scopes m inner c ∧ (SortedMap.get c.1 key).isSome

/-- Whether a property is known to write a key. -/
def Carries (scopes : Scopes) (m : ℕ) (key : String) : Property → Prop
  | .key k _ => k = key
  | .unreadable => False
  | .spread value =>
      spreadsNothing scopes (spreadSource scopes value).1 = false ∧
        ∃ inner c, scopes.resolve maxDepth (spreadSource scopes value).1 = .object inner ∧
          Classifies scopes m inner c ∧ (SortedMap.get c.1 key).isSome

/-- The last write of a key decides: no `toJSON` is called, nothing below covers the key, and it is
written before a getter runs. -/
structure Settled (scopes : Scopes) (m : ℕ) (props : List Property) (key : String) : Prop where
  plain : props.any (isHook scopes (m + 1)) = false
  uncovered : ∀ above value below, props = above ++ .key key value :: below →
    (∀ p ∈ below, p.name ≠ some key) → ∀ p ∈ below, ¬ Covers scopes m key p
  early : lastValue props key = some .getter ∨
    ∀ g ∈ standingGetters props, ∃ p ∈ props.take g, Carries scopes m key p

/-- In every object along a path the last write decides. -/
def SettledAlong (scopes : Scopes) : ℕ → Value → List String → Prop
  | m + 1, value, key :: rest =>
      ∀ props, scopes.resolve maxDepth value = .object props → Settled scopes m props key ∧
        ∀ inner, lastValue props key = some inner → SettledAlong scopes m inner rest
  | _, _, _ => True

theorem get_putAll (r : Reading) (floor : VariablePresence) (c : Classified) (key : String) :
    ((SortedMap.get c.1 key).isSome → (SortedMap.get (r.putAll floor c).out key).isSome) ∧
    ((SortedMap.get r.out key).isSome → (SortedMap.get (r.putAll floor c).out key).isSome) ∧
    (SortedMap.get c.1 key = none →
      SortedMap.get (r.putAll floor c).out key = SortedMap.get r.out key) := by
  dsimp only [Reading.putAll]
  suffices hfold : ∀ (es out : List (String × VariablePresenceNode)),
      let put := es.foldl (fun out e =>
        SortedMap.insert e.1 (r.atRisk e.1 (e.2.weakenTo floor)) out) out
      ((SortedMap.get es key).isSome → (SortedMap.get put key).isSome) ∧
      ((SortedMap.get out key).isSome → (SortedMap.get put key).isSome) ∧
      (SortedMap.get es key = none → SortedMap.get put key = SortedMap.get out key) from
    hfold c.1 r.out
  intro es
  induction es with
  | nil => exact fun out => ⟨nofun, id, fun _ => rfl⟩
  | cons e es ih =>
      intro out
      obtain ⟨hcarried, hkept, hother⟩ :=
        ih (SortedMap.insert e.1 (r.atRisk e.1 (e.2.weakenTo floor)) out)
      rw [SortedMap.get_insert] at hkept hother
      rw [SortedMap.get_cons, List.foldl_cons]
      by_cases hkey : key = e.1
      · rw [if_pos hkey] at hkept ⊢
        exact ⟨fun _ => hkept rfl, fun _ => hkept rfl, nofun⟩
      · rw [if_neg hkey] at hkept hother ⊢
        exact ⟨hcarried, hkept, hother⟩

section Carried

variable {scopes : Scopes} {fuel m : ℕ} {key : String}

/-- What reading a property does to the verdict of a key. -/
theorem get_readPlain (key : String) {r s : Reading} {p : Property}
    (h : readPlain scopes (m + 1)
      (fun value => classifyValue scopes fuel (m + 1) value .always)
      (fun inner => classifyObject scopes fuel m inner) r p = some s)
    (hplain : isHook scopes (m + 1) p = false) :
    (s.alreadyWritten = r.alreadyWritten ∧ s.serializingRunsCode = r.serializingRunsCode) ∧
    (Carries scopes m key p ∨ (SortedMap.get r.out key).isSome →
      (SortedMap.get s.out key).isSome) ∧
    (¬ Covers scopes m key p → p.name ≠ some key →
      SortedMap.get s.out key = SortedMap.get r.out key) := by
  cases p with
  | unreadable =>
      cases h
      refine ⟨⟨rfl, rfl⟩, fun h => ?_, fun h => absurd trivial h⟩
      show (SortedMap.get (withdrawFields r.out) key).isSome
      rw [get_withdrawFields, Option.isSome_map]
      exact h.resolve_left id
  | key k value =>
      refine ⟨readPlain_key_above h, ?_⟩
      obtain ⟨n, hn⟩ : ∃ n, s.out = SortedMap.insert k n r.out := by
        obtain ⟨hyes, -⟩ | ⟨-, -, rfl⟩ | ⟨-, -, c, -, rfl⟩ := readPlain_key h
        · rw [hplain] at hyes
          cases hyes
        · exact ⟨_, rfl⟩
        · exact ⟨_, rfl⟩
      rw [hn, SortedMap.get_insert]
      by_cases hk : key = k
      · rw [if_pos hk]
        exact ⟨fun _ => rfl, fun _ hname => absurd (congrArg some hk.symm) hname⟩
      · rw [if_neg hk]
        exact ⟨fun h => h.resolve_left fun hcarries => hk hcarries.symm, fun _ _ => rfl⟩
  | spread value =>
      obtain ⟨hnothing, rfl⟩ | ⟨hnothing, inner, c, hinner, hc, rfl⟩ | ⟨hnothing, hother, rfl⟩ :=
        readPlain_spread h
      · refine ⟨⟨rfl, rfl⟩, fun h => h.resolve_left fun hcarries => ?_, fun _ _ => rfl⟩
        rw [hcarries.1] at hnothing
        cases hnothing
      · obtain ⟨hcarried, hkept, hunchanged⟩ := get_putAll r
          (if (spreadSource scopes value).2 then .conditional else .always) c key
        have hclassified : Classifies scopes m inner c := ⟨fuel, hc⟩
        refine ⟨⟨rfl, rfl⟩, ?_, fun hcovers _ => hunchanged ?_⟩
        · rintro (⟨-, inner', c', hinner', hc', hsome⟩ | hsome)
          · obtain rfl : inner = inner' := by simpa [hinner] using hinner'
            rw [hc'.unique hclassified] at hsome
            exact hcarried hsome
          · exact hkept hsome
        · by_contra hsome
          refine hcovers ⟨hnothing, fun inner' hinner' => ?_⟩
          obtain rfl : inner = inner' := by simpa [hinner] using hinner'
          exact ⟨c, hclassified, Option.isSome_iff_ne_none.mpr hsome⟩
      · refine ⟨⟨rfl, rfl⟩, fun h => ?_, fun hcovers _ => absurd ⟨hnothing, fun inner hinner =>
          absurd hinner (hother inner)⟩ hcovers⟩
        show (SortedMap.get (withdrawFields r.out) key).isSome
        rw [get_withdrawFields, Option.isSome_map]
        refine h.resolve_left fun hcarries => ?_
        obtain ⟨-, inner, -, hinner, -⟩ := hcarries
        exact hother inner hinner

theorem passGetter_out (r : Reading) (standing : List ℕ) (index : ℕ) :
    (r.passGetter standing index).out = r.out := by
  rw [Reading.passGetter]
  split <;> rfl

/-- The key is on the wire when a getter runs. -/
def OnWire (key : String) (r : Reading) : Prop :=
  r.serializingRunsCode = true → r.alreadyWritten.contains key = true

theorem OnWire.start (key : String) : OnWire key .start := by
  intro hruns
  cases hruns

theorem OnWire.passGetter {r : Reading} (h : OnWire key r) (standing : List ℕ) (index : ℕ)
    (hearly : index ∈ standing → (SortedMap.get r.out key).isSome) :
    OnWire key (r.passGetter standing index) := by
  rw [Reading.passGetter]
  split
  · next hpass =>
      intro _
      rw [Bool.and_eq_true, List.contains_iff_mem] at hpass
      dsimp only
      rw [contains_keys]
      exact hearly hpass.2
  · exact h

/-- The properties up to a point, where the key is carried before each getter that stands. -/
theorem OnWire.readProps {standing : List ℕ} {props : List Property} {r s : Reading} {index : ℕ}
    (h : OnWire key r) (hs : readWith scopes fuel m standing r index props = some s)
    (hplain : ∀ p ∈ props, isHook scopes (m + 1) p = false)
    (hearly : ∀ g ∈ standing, index ≤ g → g < index + props.length →
      (SortedMap.get r.out key).isSome ∨ ∃ p ∈ props.take (g - index), Carries scopes m key p) :
    OnWire key s ∧ ((SortedMap.get r.out key).isSome ∨ (∃ p ∈ props, Carries scopes m key p) →
      (SortedMap.get s.out key).isSome) := by
  induction props generalizing r index with
  | nil =>
      cases hs
      exact ⟨h, fun hcarried => hcarried.resolve_right (by simp)⟩
  | cons p props ih =>
      rw [readWith, Mex.readProps] at hs
      split at hs
      · next t ht =>
          have hpass : OnWire key (r.passGetter standing index) := h.passGetter _ _ fun hmem =>
            (hearly index hmem le_rfl (by simp)).resolve_right (by simp)
          obtain ⟨⟨haw, hruns⟩, hkept, -⟩ :=
            get_readPlain key ht (hplain p List.mem_cons_self)
          rw [passGetter_out] at hkept
          have hwire : OnWire key t := fun ht => haw ▸ hpass (hruns ▸ ht)
          have hnext : ∀ g ∈ standing, index + 1 ≤ g → g < index + 1 + props.length →
              (SortedMap.get t.out key).isSome ∨
                ∃ p ∈ props.take (g - (index + 1)), Carries scopes m key p := by
            intro g hg hle hlt
            have hlength : g < index + (p :: props).length := by
              rw [List.length_cons]
              omega
            obtain hr | ⟨q, hq, hcarries⟩ := hearly g hg (by omega) hlength
            · exact .inl (hkept (.inr hr))
            · rw [show g - index = (g - (index + 1)) + 1 by omega, List.take_succ_cons] at hq
              obtain rfl | hq := List.mem_cons.mp hq
              · exact .inl (hkept (.inl hcarries))
              · exact .inr ⟨q, hq, hcarries⟩
          obtain ⟨hend, hsome⟩ :=
            ih hwire hs (fun q hq => hplain q (List.mem_cons_of_mem _ hq)) hnext
          refine ⟨hend, fun hcarried => hsome ?_⟩
          obtain hr | ⟨q, hq, hcarries⟩ := hcarried
          · exact .inl (hkept (.inr hr))
          · obtain rfl | hq := List.mem_cons.mp hq
            · exact .inl (hkept (.inl hcarries))
            · exact .inr ⟨q, hq, hcarries⟩
      · cases hs

/-- Nothing below changes the verdict. -/
theorem get_readProps_uncovered {standing : List ℕ} {props : List Property} {r s : Reading}
    {index : ℕ} (hs : readWith scopes fuel m standing r index props = some s)
    (hplain : ∀ p ∈ props, isHook scopes (m + 1) p = false)
    (hnames : ∀ p ∈ props, p.name ≠ some key)
    (huncovered : ∀ p ∈ props, ¬ Covers scopes m key p) :
    SortedMap.get s.out key = SortedMap.get r.out key := by
  induction props generalizing r index with
  | nil =>
      cases hs
      rfl
  | cons p props ih =>
      rw [readWith, readProps] at hs
      split at hs
      · next t ht =>
          obtain ⟨-, -, hunchanged⟩ := get_readPlain key ht (hplain p List.mem_cons_self)
          rw [ih hs (fun q hq => hplain q (List.mem_cons_of_mem _ hq))
            (fun q hq => hnames q (List.mem_cons_of_mem _ hq))
            (fun q hq => huncovered q (List.mem_cons_of_mem _ hq)),
            hunchanged (huncovered p List.mem_cons_self) (hnames p List.mem_cons_self),
            passGetter_out]
      · cases hs

end Carried

theorem classifiesValue_getter (scopes : Scopes) (remaining : ℕ) :
    ClassifiesValue scopes remaining .getter (leaf .undetermined, []) := by
  cases remaining with
  | zero => exact ⟨1, rfl⟩
  | succ m => exact ⟨1, rfl⟩

/-- The verdict of a key whose last write decides. -/
theorem get_of_settled {scopes : Scopes} {m : ℕ} {props : List Property} {key : String}
    {value : Value} {c : Classified} (hc : Classifies scopes (m + 1) props c)
    (hsettled : Settled scopes m props key) (hlast : lastValue props key = some value) :
    ∃ d, ClassifiesValue scopes (m + 1) value d ∧ SortedMap.get c.1 key = some d.1 := by
  obtain ⟨fuel, hread⟩ := hc.read
  obtain ⟨r, hr, rfl⟩ := hread fuel le_rfl
  obtain ⟨above, below, rfl, hbelow⟩ := lastValue_split hlast
  have hplain : ∀ p ∈ above ++ .key key value :: below, isHook scopes (m + 1) p = false := by
    intro p hp
    simpa using List.any_eq_false.mp hsettled.plain p hp
  rw [readWith, readProps_append] at hr
  obtain ⟨s, hs, hr⟩ := Option.bind_eq_some_iff.mp hr
  rw [readProps] at hr
  split at hr
  · next t ht =>
      have hend : SortedMap.get (r.finish ((above ++ .key key value :: below).any
          (isHook scopes (m + 1)))).1 key = SortedMap.get t.out key := by
        rw [get_finish, hsettled.plain, get_readProps_uncovered hr
          (fun p hp => hplain p (by simp [hp])) hbelow (hsettled.uncovered _ _ _ rfl hbelow)]
        exact congrFun Option.map_id _
      obtain ⟨hyes, -⟩ | ⟨-, rfl, rfl⟩ | ⟨-, hgetter, d, hd, rfl⟩ := readPlain_key ht
      · rw [hplain _ (by simp)] at hyes
        cases hyes
      · refine ⟨_, classifiesValue_getter scopes (m + 1), hend.trans ?_⟩
        exact (SortedMap.get_insert ..).trans (if_pos rfl)
      · refine ⟨d, ⟨fuel, hd⟩, hend.trans ?_⟩
        have hearly := hsettled.early.resolve_left fun h => hgetter (by simpa [hlast] using h)
        have hcarried : ∀ g ∈ standingGetters (above ++ .key key value :: below),
            g ≤ above.length → ∃ p ∈ above.take g, Carries scopes m key p := by
          intro g hg hle
          obtain ⟨p, hp, hcarries⟩ := hearly g hg
          rw [List.take_append_of_le_length hle] at hp
          exact ⟨p, hp, hcarries⟩
        obtain ⟨hwire, hsome⟩ := (OnWire.start key).readProps hs
          (fun p hp => hplain p (by simp [hp])) fun g hg _ hlt =>
            .inr (hcarried g hg (by omega))
        have hpass := hwire.passGetter (standingGetters _) (0 + above.length)
          fun hmem => hsome (.inr ((hcarried _ hmem (by omega)).imp fun p hp =>
            ⟨List.mem_of_mem_take hp.1, hp.2⟩))
        refine (SortedMap.get_insert ..).trans ((if_pos rfl).trans (congrArg some ?_))
        rw [Reading.atRisk, if_neg]
        rw [Bool.and_eq_true, Bool.not_eq_true']
        rintro ⟨hruns, hrisk⟩
        rw [hpass hruns] at hrisk
        cases hrisk
  · cases hr

/-- Where the last write decides all along a path, the verdict at the path is that of the value the
path reads to. -/
theorem nodeAt_of_settled {scopes : Scopes} {path : List String} {remaining : ℕ}
    {object value : Value} {props : List Property} {c : Classified}
    (hread : keyValue scopes remaining object path = some value)
    (hsettled : SettledAlong scopes remaining object path)
    (hprops : scopes.resolve maxDepth object = .object props)
    (hc : Classifies scopes remaining props c) :
    ∃ d, ClassifiesValue scopes (remaining + 1 - path.length) value d ∧
      nodeAt c path = some d.1 := by
  induction path generalizing remaining object props c with
  | nil =>
      cases remaining with
      | zero => cases hread
      | succ m => simp [keyValue] at hread
  | cons key rest ih =>
      cases remaining with
      | zero => cases hread
      | succ m =>
          simp only [keyValue, hprops] at hread
          obtain ⟨inner, hinner, hinside⟩ := Option.bind_eq_some_iff.mp hread
          obtain ⟨hhere, hrest⟩ := hsettled props hprops
          obtain ⟨d, hd, hget⟩ := get_of_settled hc hhere hinner
          rw [nodeAt_cons, hget, Option.bind_some, List.length_cons, Nat.add_sub_add_right]
          split at hinside
          · next hempty =>
              obtain rfl := List.isEmpty_iff.mp hempty
              obtain rfl : inner = value := Option.some.inj hinside
              exact ⟨d, hd, rfl⟩
          · next hmore =>
              cases rest with
              | nil => exact absurd rfl hmore
              | cons key' rest =>
                  obtain ⟨ps, hps⟩ : ∃ ps, scopes.resolve maxDepth inner = .object ps := by
                    cases m with
                    | zero => cases hinside
                    | succ m =>
                        cases hres : scopes.resolve maxDepth inner with
                        | object ps => exact ⟨ps, rfl⟩
                        | _ => simp [keyValue, hres] at hinside
                  obtain ⟨e, he, hat⟩ := hd.object hps
                  rw [hat]
                  exact ih hinside (hrest inner hinner) hps he

/-- What a write that is applied leaves: the path reads to what was written, the verdicts off the
path stay, and the verdict at the path is that of the written value. -/
theorem writeKey_lastWriteWins {scopes : Scopes} {remaining : ℕ} {value written result : Value}
    {path : List String} (h : writeKey scopes remaining value path written = some result) :
    keyValue scopes remaining result path = some written ∧
    ∃ props out, scopes.resolve maxDepth value = .object props ∧ result = .object out ∧
      (KeepsAccessors scopes remaining value result path →
        ∀ c c', Classifies scopes remaining props c → Classifies scopes remaining out c' →
          ∀ q : List String, ¬ q <+: path → ¬ path <+: q → nodeAt c' q = nodeAt c q) ∧
      (SettledAlong scopes remaining result path → ∀ c', Classifies scopes remaining out c' →
        ∃ d, ClassifiesValue scopes (remaining + 1 - path.length) written d ∧
          nodeAt c' path = some d.1) := by
  obtain ⟨⟨props, hprops⟩, out, rfl⟩ := writeKey_objects h
  have hread := keyValue_writeKey h
  refine ⟨hread, props, out, hprops, rfl, fun hkeeps c c' hc hc' q hq hq' => ?_,
    fun hsettled c' hc' => nodeAt_of_settled hread hsettled rfl hc'⟩
  exact (nodeAt_writeKey_of_other h hkeeps hprops rfl hc hc' q hq hq').symm

/-- `a` is overwritten beside `b`. -/
theorem writeKey_lastWriteWins_a :
    let scopes : Scopes := ⟨[], [], [], []⟩
    keyValue scopes 12 (.object [.key "a" .defined, .key "b" .defined]) ["a"] = some .defined ∧
    ∀ c c', Classifies scopes 12 [.key "a" .maybeUndefined, .key "b" .defined] c →
      Classifies scopes 12 [.key "a" .defined, .key "b" .defined] c' →
      nodeAt c' ["b"] = nodeAt c ["b"] ∧
      ∃ d, ClassifiesValue scopes 12 .defined d ∧ nodeAt c' ["a"] = some d.1 := by
  intro scopes
  have hwrite : writeKey scopes 12 (.object [.key "a" .maybeUndefined, .key "b" .defined]) ["a"]
      .defined = some (.object [.key "a" .defined, .key "b" .defined]) := rfl
  obtain ⟨hread, props, out, hprops, hout, hoff, hat⟩ := writeKey_lastWriteWins hwrite
  cases hprops
  cases hout
  refine ⟨hread, fun c c' hc hc' => ⟨hoff ?_ c c' hc hc' ["b"] (by decide) (by decide), ?_⟩⟩
  · intro props out hprops hout
    cases hprops
    cases hout
    exact ⟨by decide, by decide⟩
  · refine hat (fun props hprops => ?_) c' hc'
    cases hprops
    refine ⟨⟨by decide, ?_, .inr fun g hg => ?_⟩, fun _ _ => trivial⟩
    · intro above v below hsplit _ p hp
      have hmem : p ∈ above ++ .key "a" v :: below := by simp [hp]
      rw [← hsplit] at hmem
      simp only [List.mem_cons, List.not_mem_nil, or_false] at hmem
      obtain rfl | rfl := hmem <;> exact id
    · have hnone : standingGetters [.key "a" .defined, .key "b" .defined] = [] := by decide
      rw [hnone] at hg
      cases hg

/-- Not every write leaves the other verdicts, and not every write decides the verdict at its path:
a `toJSON` that is called takes `a` with it, and a getter runs before `a` is serialized. -/
theorem write_withdraws :
    (¬ ∀ (scopes : Scopes) (props out : List Property) (path q : List String) (written : Value)
      (c c' : Classified), writeKey scopes 12 (.object props) path written = some (.object out) →
      Classifies scopes 12 props c → Classifies scopes 12 out c' → ¬ q <+: path → ¬ path <+: q →
        nodeAt c' q = nodeAt c q) ∧
    ¬ ∀ (scopes : Scopes) (props out : List Property) (path : List String) (written : Value)
      (c' : Classified) (d : VariablePresenceNode × List Opaque),
      writeKey scopes 12 (.object props) path written = some (.object out) →
      Classifies scopes 12 out c' → ClassifiesValue scopes (13 - path.length) written d →
        nodeAt c' path = some d.1 := by
  constructor
  · intro h
    have hsame := h ⟨[], [], [], []⟩ [.key "a" .defined]
      [.key "a" .defined, .key "toJSON" .dropped] ["toJSON"] ["a"] .dropped
      ([("a", leaf .always)], []) ([("a", leaf .undetermined)], [.here]) rfl ⟨2, rfl⟩ ⟨2, rfl⟩
      (by decide) (by decide)
    cases congrArg (Option.map VariablePresenceNode.presence) hsame
  · intro h
    have hsame := h ⟨[], [], [], []⟩ [.key "g" .getter, .key "a" .maybeUndefined]
      [.key "g" .getter, .key "a" .defined] ["a"] .defined
      ([("a", leaf .undetermined), ("g", leaf .undetermined)],
        [⟨[], ["a", "g"]⟩]) (leaf .always, []) rfl ⟨2, rfl⟩ ⟨1, rfl⟩
    cases congrArg (Option.map VariablePresenceNode.presence) hsame

end Whatspec.Mex

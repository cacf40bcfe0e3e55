import Whatspec.Proto.ReferenceSites

/-!
# Which references the pass keeps

Each reference is looked up again in the tree after the pass.  A name that was not rewritten
either means what it meant (`lookupFrom_carried_iff`) or follows the enum into the only
message that references it (`lookupFrom_follows`); a rewritten one is read from the host it
names (`lookupFrom_qualified_iff`).  `refs_preserved_iff` puts the three together.
-/

namespace Whatspec.Proto

open Whatspec.Library Whatspec.Text

/-! ### Names that are not rewritten -/

section Kept

variable {es : List ProtoEntity} (hnodup : (es.map ProtoEntity.name).Nodup)

theorem declares_of_lookup {p : List String} {ds : List ProtoEntity} {x : String}
    {rest q : List String}
    (h : Scopes.lookup ProtoEntity.name ProtoEntity.nested ⟨p, ds⟩ x rest = some q) :
    Scopes.declares ProtoEntity.name ds x = true := by
  rw [Scopes.lookup, Option.map_eq_some_iff] at h
  obtain ⟨d, hd, _⟩ := h
  obtain ⟨e, he, _⟩ := Option.bind_eq_some_iff.mp hd
  exact Scopes.declares_of_declaredAs he

include hnodup in
/-- A name found in a top-level message is found there after the pass, unless one arrives. -/
theorem lookup_host_iff {p : List String} {n : String} {nested : List ProtoEntity} {x : String}
    {rest q : List String}
    (h : Scopes.lookup ProtoEntity.name ProtoEntity.nested ⟨p, nested⟩ x rest = some q) :
    Scopes.lookup ProtoEntity.name ProtoEntity.nested
      ⟨p, nested.map (requalify es) ++ arrivals es n⟩ x rest = some q ↔ ¬ MovesTo es x n := by
  obtain ⟨hsame, hcrowded, _⟩ := lookup_settled hnodup p n nested x rest
  by_cases hmoves : MovesTo es x n
  · rw [hcrowded hmoves (declares_of_lookup h)]
    exact iff_of_false (fun hno => nomatch hno) (not_not_intro hmoves)
  · rw [hsame hmoves]
    exact iff_of_true h hmoves

include hnodup in
/-- A name that a top-level message declares or receives. -/
theorem declares_settled (n : String) (nested : List ProtoEntity) (x : String) :
    Scopes.declares ProtoEntity.name (nested.map (requalify es) ++ arrivals es n) x = true ↔
      Scopes.declares ProtoEntity.name nested x = true ∨ MovesTo es x n := by
  rw [Scopes.declares_append, Scopes.declares_map (name_requalify es), Bool.or_eq_true,
    declares_arrivals hnodup]

theorem rooted_tail {m o : ProtoEntity} {outer : List ProtoEntity}
    (h : Rooted es (m :: o :: outer)) : Rooted es (o :: outer) := by
  obtain ⟨n, ms, nested, hlast, hmem⟩ := h
  exact ⟨n, ms, nested, by rw [← hlast, List.getLast?_cons_cons], hmem⟩

theorem rooted_singleton {m : ProtoEntity} (h : Rooted es [m]) :
    ∃ n ms nested, m = .message n ms nested ∧ .message n ms nested ∈ es := by
  obtain ⟨n, ms, nested, hlast, hmem⟩ := h
  exact ⟨n, ms, nested, Option.some.inj hlast, hmem⟩

/-- A scope below the top level gives names of three segments and more. -/
theorem length_of_inner {m o : ProtoEntity} {outer ds : List ProtoEntity} {x : String}
    {rest q : List String}
    (h : Scopes.lookup ProtoEntity.name ProtoEntity.nested
      ⟨((m :: o :: outer).map ProtoEntity.name).reverse, ds⟩ x rest = some q) :
    rest.length + 3 ≤ q.length := by
  rw [path_of_lookup h, List.length_append, List.length_reverse, List.length_map,
    List.length_cons, List.length_cons, List.length_cons]
  omega

/-- One scope below the top level looks up the same after the pass. -/
theorem lookupFrom_carried_cons (m o : ProtoEntity) (outer : List ProtoEntity) (x : String)
    (rest : List String) :
    lookupFrom (settledEntities es) (carried es (m :: o :: outer)) (x :: rest) =
      if Scopes.declares ProtoEntity.name m.nested x = true then
        Scopes.lookup ProtoEntity.name ProtoEntity.nested
          ⟨((m :: o :: outer).map ProtoEntity.name).reverse, m.nested⟩ x rest
      else lookupFrom (settledEntities es) (carried es (o :: outer)) (x :: rest) := by
  have hnames := names_carried es (m :: o :: outer)
  rw [carried] at hnames ⊢
  rw [lookupFrom_cons, hnames, nested_requalify, Scopes.declares_map (name_requalify es),
    lookup_requalify]

/-- The top-level message looks up among what it declares and what arrives. -/
theorem lookupFrom_carried_root (n : String) (ms : List ProtoMember) (nested : List ProtoEntity)
    (x : String) (rest : List String) :
    lookupFrom (settledEntities es) (carried es [.message n ms nested]) (x :: rest) =
      if Scopes.declares ProtoEntity.name (nested.map (requalify es) ++ arrivals es n) x = true then
        Scopes.lookup ProtoEntity.name ProtoEntity.nested
          ⟨[n], nested.map (requalify es) ++ arrivals es n⟩ x rest
      else Scopes.lookup ProtoEntity.name ProtoEntity.nested ⟨[], settledEntities es⟩ x rest := by
  rw [carried, settle_message, lookupFrom_cons, lookupFrom_nil]
  rfl

/-- An enum declares nothing, so it ends a lookup. -/
theorem rest_eq_nil_of_enum {p : List String} {y : ProtoEnum} {rest q : List String}
    (hy : ProtoEntity.enum y ∈ es)
    (h : Scopes.lookup ProtoEntity.name ProtoEntity.nested ⟨p, es⟩ y.name rest = some q) :
    rest = [] := by
  cases rest with
  | nil => rfl
  | cons z rest =>
      rw [lookup_step, Option.bind_eq_some_iff] at h
      obtain ⟨e, he, hrest⟩ := h
      rw [← (Scopes.mem_of_declaredAs he).2.2 _ hy rfl] at hrest
      cases hrest

include hnodup in
/-- **The package after the pass**: what stayed is found, and what was found in it unless a
name arrived there. -/
theorem lookup_package_iff {x : String} {rest q : List String}
    (h : Scopes.lookup ProtoEntity.name ProtoEntity.nested ⟨[], es⟩ x rest = some q)
    (hq : ∀ a h, q = [a] → ¬ MovesTo es a h) :
    Scopes.lookup ProtoEntity.name ProtoEntity.nested ⟨[], settledEntities es⟩ x rest = some q ↔
      ∀ y rest', rest = y :: rest' → ¬ MovesTo es y x := by
  have hpath : q = x :: rest := path_of_lookup h
  obtain ⟨e, he⟩ : ∃ e, Scopes.declaredAs ProtoEntity.name es x = some e := by
    rw [Scopes.lookup, Option.map_eq_some_iff] at h
    obtain ⟨d, hd, _⟩ := h
    obtain ⟨e, he, _⟩ := Option.bind_eq_some_iff.mp hd
    exact ⟨e, he⟩
  obtain ⟨hmem, rfl, _⟩ := Scopes.mem_of_declaredAs he
  have hstays : Stays es e := by
    cases e with
    | message n ms nested => exact trivial
    | enum y =>
        intro hst hmoves
        refine hq y.name hst ?_ hmoves
        rw [hpath, rest_eq_nil_of_enum hmem h]
        rfl
  have hnew := Scopes.declaredAs_of_mem (nodup_settledEntities hnodup)
    (mem_settledEntities hmem hstays)
  rw [name_settle] at hnew
  cases rest with
  | nil =>
      refine iff_of_true ?_ (by simp)
      rw [Scopes.lookup, hnew, hpath]
      rfl
  | cons y rest =>
      have hcons : (∀ z rest', y :: rest = z :: rest' → ¬ MovesTo es z e.name) ↔
          ¬ MovesTo es y e.name :=
        ⟨fun hall => hall y rest rfl, fun hno z rest' heq => (List.cons.inj heq).1 ▸ hno⟩
      rw [lookup_step, he, Option.bind_some] at h
      rw [lookup_step, hnew, Option.bind_some, hcons]
      cases e with
      | enum z => cases h
      | message n ms nested =>
          rw [settle_message]
          exact lookup_host_iff hnodup h

include hnodup in
/-- **A name that is not rewritten** means the same after the pass, unless it is read where an
enum of that name arrived. -/
theorem lookupFrom_carried_iff {chain : List ProtoEntity} (hroot : Rooted es chain) {x : String}
    {rest q : List String} (h : lookupFrom es chain (x :: rest) = some q)
    (hq : ∀ a h, q = [a] → ¬ MovesTo es a h) :
    lookupFrom (settledEntities es) (carried es chain) (x :: rest) = some q ↔
      ¬ ReadsCrowded es (x :: rest) q := by
  induction chain with
  | nil =>
      obtain ⟨n, ms, nested, hlast, _⟩ := hroot
      cases hlast
  | cons m outer ih =>
      rw [lookupFrom_cons] at h
      cases outer with
      | cons o outer =>
          rw [lookupFrom_carried_cons]
          by_cases hd : Scopes.declares ProtoEntity.name m.nested x = true
          · rw [if_pos hd] at h ⊢
            refine iff_of_true h fun hcrowded => ?_
            obtain ⟨_, _, _, _, hlen, _⟩ := hcrowded
            have hlong := length_of_inner h
            rw [List.length_cons] at hlen
            omega
          · rw [if_neg hd] at h ⊢
            exact ih (rooted_tail hroot) h
      | nil =>
          obtain ⟨n, ms, nested, rfl, hmsg⟩ := rooted_singleton hroot
          rw [lookupFrom_carried_root]
          have hdecl := declares_settled hnodup n nested x
          rw [ProtoEntity.nested] at h
          by_cases hd : Scopes.declares ProtoEntity.name nested x = true
          · rw [if_pos hd] at h
            rw [if_pos (hdecl.mpr (Or.inl hd))]
            refine (lookup_host_iff (n := n) hnodup h).trans (not_congr ?_)
            have hpath : q = n :: x :: rest := path_of_lookup h
            constructor
            · intro hmoves
              exact ⟨n, x, rest, hpath, by rw [hpath]; rfl, hmoves, ms, nested, hmsg, hd⟩
            · intro hcrowded
              obtain ⟨n', x', rest', hq', _, hmoves, _⟩ := hcrowded
              rw [hpath] at hq'
              cases hq'
              exact hmoves
          · rw [if_neg hd, lookupFrom_nil] at h
            have hpath : q = x :: rest := path_of_lookup h
            have hstays : ¬ MovesTo es x n := by
              intro hmoves
              obtain ⟨y, hy, rfl⟩ := hmoves.1.exists_enum
              rw [rest_eq_nil_of_enum hy h] at hpath
              exact hq y.name n hpath hmoves
            rw [if_neg fun hnew => (hdecl.mp hnew).elim hd hstays]
            refine (lookup_package_iff hnodup h hq).trans ?_
            constructor
            · intro hall hcrowded
              obtain ⟨n', x', rest', hq', _, hmoves, _⟩ := hcrowded
              rw [hpath] at hq'
              obtain ⟨rfl, hrest⟩ := List.cons.inj hq'
              exact hall x' rest' hrest hmoves
            · intro hno y rest' hrest hmoves
              subst hrest
              refine hno ⟨x, y, rest', hpath, by rw [hpath]; exact Nat.le_succ _, hmoves, ?_⟩
              rw [lookup_step, Option.bind_eq_some_iff] at h
              obtain ⟨e, he, hin⟩ := h
              obtain ⟨hmem, rfl, _⟩ := Scopes.mem_of_declaredAs he
              cases e with
              | enum z => cases hin
              | message n' ms' nested' =>
                  exact ⟨ms', nested', hmem, declares_of_lookup hin⟩

end Kept

/-! ### An enum that follows its only referencer -/

section Follows

variable {es : List ProtoEntity} (hnodup : (es.map ProtoEntity.name).Nodup)

theorem eq_of_components {r a : String} (h : components r = [a]) : r = a := by
  obtain ⟨w, hw, hwa⟩ := List.map_eq_singleton_iff.mp h
  have hjoin : List.intercalate ['.'] (r.toList.splitOn '.') = r.toList :=
    List.intercalate_splitOn _
  rw [hw, List.intercalate_singleton] at hjoin
  rw [← hwa, hjoin, String.ofList_toList]

theorem afterLast_eq_self {s : List Char} (h : '.' ∉ s) : afterLast '.' s = s := by
  have htake : s.reverse.takeWhile (· ≠ '.') = s.reverse := by
    refine List.takeWhile_eq_self_iff.mpr fun c hc => decide_eq_true fun heq => ?_
    exact h (heq ▸ List.mem_reverse.mp hc)
  rw [afterLast, htake, List.reverse_reverse]

/-- A bare name in a printed type is a name the type references. -/
theorem mem_typeRefBases {t r : String} (hr : r ∈ typeRefs t) (hident : isIdent r = true) :
    r ∈ typeRefBases t := by
  have hdot : '.' ∉ r.toList := not_mem_of_isIdent hident (by decide)
  rw [typeRefs] at hr
  rw [typeRefBases]
  cases hinner : mapInner t with
  | none =>
      rw [hinner] at hr
      obtain rfl := List.mem_singleton.mp hr
      refine List.mem_singleton.mpr ?_
      rw [baseName, (plainText_of_isIdent hident).trimmed, afterLast_eq_self hdot,
        String.ofList_toList]
  | some inner =>
      rw [hinner] at hr
      obtain ⟨w, hw, rfl⟩ := List.mem_map.mp hr
      rw [String.toList_ofList] at hdot
      refine List.mem_map.mpr ⟨w, hw, ?_⟩
      rw [baseName, afterLast_eq_self hdot]

theorem mem_collectNestedRefs {x : String} {ds : List ProtoEntity} {e : ProtoEntity} (he : e ∈ ds)
    (hx : x ∈ collectRefs e) : x ∈ collectNestedRefs ds := by
  induction ds with
  | nil => exact absurd he List.not_mem_nil
  | cons d ds ih =>
      rw [collectNestedRefs, List.mem_append]
      cases List.mem_cons.mp he with
      | inl heq => exact Or.inl (heq ▸ hx)
      | inr hrest => exact Or.inr (ih hrest)

/-- What a nested message references, its top-level message references. -/
theorem collectRefs_of_descend {m m' : ProtoEntity} {outer outer' : List ProtoEntity}
    {path : List ℕ} (h : descend m outer path = some (m' :: outer')) {x : String}
    (hx : x ∈ collectRefs m') : x ∈ collectRefs m := by
  induction path generalizing m outer with
  | nil =>
      rw [descend] at h
      rw [(List.cons.inj (Option.some.inj h)).1]
      exact hx
  | cons i path ih =>
      rw [descend, Option.bind_eq_some_iff] at h
      obtain ⟨e, he, hrest⟩ := h
      have hmem := List.mem_of_getElem? he
      cases m with
      | enum y => exact absurd hmem List.not_mem_nil
      | message n ms nested =>
          rw [collectRefs, List.mem_append]
          exact Or.inr (mem_collectNestedRefs hmem (ih hrest))

theorem collectRefs_of_field {m : ProtoEntity} {f : ProtoField} (hf : f ∈ fieldsOf m)
    {x : String} (hx : x ∈ typeRefBases f.typeName) : x ∈ collectRefs m := by
  cases m with
  | enum y => exact absurd hf List.not_mem_nil
  | message n ms nested =>
      rw [collectRefs, List.mem_append]
      exact Or.inl (List.mem_flatMap.mpr ⟨f, hf, hx⟩)

/-- An enum with one referencer moves to that one. -/
theorem host_of_only_reference {top : ProtoEntity} (htop : top ∈ es) {a h : String}
    (href : a ∈ collectRefs top) (hcount : refCount (referencers es) a ≤ 1)
    (hhost : hostOf (referencers es) a = some h) : h = top.name := by
  have hmem : top.name ∈ Grouping.members (referencers es) a := by
    rw [referencers, Grouping.mem_members_group, List.mem_flatMap]
    exact ⟨top, htop, List.mem_map.mpr ⟨a, SortedSet.mem_collect.mpr href, rfl⟩⟩
  rw [hostOf] at hhost
  rw [refCount] at hcount
  cases hmembers : Grouping.members (referencers es) a with
  | nil =>
      rw [hmembers] at hmem
      exact absurd hmem List.not_mem_nil
  | cons y ys =>
      rw [hmembers] at hmem hhost hcount
      have hys : ys = [] := by
        rw [List.length_cons] at hcount
        exact List.length_eq_zero_iff.mp (by omega)
      rw [hys, List.mem_singleton] at hmem
      rw [hmem]
      exact (Option.some.inj hhost).symm

include hnodup in
/-- **From inside its host** the bare name of a moved enum is still found. -/
theorem lookupFrom_follows {chain : List ProtoEntity} {n a : String} {ms : List ProtoMember}
    {nested : List ProtoEntity} (hroot : chain.getLast? = some (.message n ms nested))
    (hmoves : MovesTo es a n) (h : lookupFrom es chain [a] = some [a]) :
    lookupFrom (settledEntities es) (carried es chain) [a] = some [n, a] := by
  induction chain with
  | nil => cases hroot
  | cons m outer ih =>
      rw [lookupFrom_cons] at h
      cases outer with
      | cons o outer =>
          rw [lookupFrom_carried_cons]
          by_cases hd : Scopes.declares ProtoEntity.name m.nested a = true
          · rw [if_pos hd] at h
            have hlong := length_of_inner h
            simp only [List.length_cons, List.length_nil] at hlong
            omega
          · rw [if_neg hd] at h ⊢
            exact ih (by rw [← hroot, List.getLast?_cons_cons]) h
      | nil =>
          rw [List.getLast?_singleton] at hroot
          obtain rfl := Option.some.inj hroot
          rw [ProtoEntity.nested] at h
          rw [lookupFrom_carried_root,
            if_pos ((declares_settled hnodup n nested a).mpr (Or.inr hmoves))]
          by_cases hd : Scopes.declares ProtoEntity.name nested a = true
          · rw [if_pos hd] at h
            have hpath := path_of_lookup h
            cases hpath
          · exact (lookup_settled hnodup [n] n nested a []).2.2 hmoves (Bool.eq_false_iff.mpr hd)

end Follows

/-! ### Names that are rewritten -/

section Rewritten

variable {es : List ProtoEntity} (hnodup : (es.map ProtoEntity.name).Nodup)

/-- A bare name that led into a top-level message was declared by it. -/
theorem hostDeclares_of_lookupFrom {chain : List ProtoEntity} (hroot : Rooted es chain)
    {a h : String} (hlook : lookupFrom es chain [a] = some [h, a]) : HostDeclares es h a := by
  induction chain with
  | nil =>
      obtain ⟨n, ms, nested, hlast, _⟩ := hroot
      cases hlast
  | cons m outer ih =>
      rw [lookupFrom_cons] at hlook
      cases outer with
      | cons o outer =>
          by_cases hd : Scopes.declares ProtoEntity.name m.nested a = true
          · rw [if_pos hd] at hlook
            have hlong := length_of_inner hlook
            simp only [List.length_cons, List.length_nil] at hlong
            omega
          · rw [if_neg hd] at hlook
            exact ih (rooted_tail hroot) hlook
      | nil =>
          obtain ⟨n, ms, nested, rfl, hmsg⟩ := rooted_singleton hroot
          rw [ProtoEntity.nested] at hlook
          by_cases hd : Scopes.declares ProtoEntity.name nested a = true
          · rw [if_pos hd] at hlook
            have hpath := path_of_lookup hlook
            cases hpath
            exact ⟨ms, nested, hmsg, hd⟩
          · rw [if_neg hd, lookupFrom_nil] at hlook
            have hpath := path_of_lookup hlook
            cases hpath

include hnodup in
theorem not_movesTo_of_message {h n : String} {ms : List ProtoMember} {nested : List ProtoEntity}
    (hmsg : ProtoEntity.message h ms nested ∈ es) : ¬ MovesTo es h n := by
  intro hmoves
  obtain ⟨y, hy, hname⟩ := hmoves.1.exists_enum
  have heq := eq_of_name_eq hnodup hmsg hy hname.symm
  cases heq

include hnodup in
/-- **A qualified name** ends at the moved enum when its host is reached and has no such name of
its own; what it led to elsewhere, it leads to still. -/
theorem lookupFrom_qualified_iff {chain : List ProtoEntity} (hroot : Rooted es chain)
    {a h : String} (hmoves : MovesTo es a h) :
    (lookupFrom (settledEntities es) (carried es chain) [h, a] = some [h, a] ↔
      lookupFrom es chain [h] = some [h] ∧ ¬ HostDeclares es h a) ∧
    ∀ q, q ≠ [h, a] →
      (lookupFrom (settledEntities es) (carried es chain) [h, a] = some q ↔
        lookupFrom es chain [h, a] = some q) := by
  obtain ⟨ms, nested, hmsg⟩ := (isMessageNamed_of_hostOf hmoves.2).1
  have hshort : ∀ {p : List String} {ds : List ProtoEntity} {x : String} {rest : List String},
      p ≠ [] → Scopes.lookup ProtoEntity.name ProtoEntity.nested ⟨p, ds⟩ x rest ≠
        some (x :: rest) := by
    intro p ds x rest hp hsome
    have hpath : x :: rest = p ++ x :: rest := path_of_lookup hsome
    have hlen := congrArg List.length hpath
    rw [List.length_append] at hlen
    exact hp (List.length_eq_zero_iff.mp (by omega))
  induction chain with
  | nil =>
      obtain ⟨_, _, _, hlast, _⟩ := hroot
      cases hlast
  | cons m outer ih =>
      rw [lookupFrom_cons, lookupFrom_cons]
      have hscope : ((m :: outer).map ProtoEntity.name).reverse ≠ [] := by simp
      cases outer with
      | cons o outer =>
          rw [lookupFrom_carried_cons]
          by_cases hd : Scopes.declares ProtoEntity.name m.nested h = true
          · rw [if_pos hd, if_pos hd, if_pos hd]
            exact ⟨iff_of_false (hshort hscope) fun hno => hshort hscope hno.1, fun q _ => Iff.rfl⟩
          · rw [if_neg hd, if_neg hd, if_neg hd]
            exact ih (rooted_tail hroot)
      | nil =>
          obtain ⟨n, ms', nested', rfl, hroot'⟩ := rooted_singleton hroot
          rw [lookupFrom_carried_root]
          have hstays : ¬ MovesTo es h n := not_movesTo_of_message hnodup hmsg
          have hdecl := declares_settled hnodup n nested' h
          rw [ProtoEntity.nested]
          by_cases hd : Scopes.declares ProtoEntity.name nested' h = true
          · simp only [if_pos hd, if_pos (hdecl.mpr (Or.inl hd))]
            rw [(lookup_settled hnodup [n] n nested' h [a]).1 hstays]
            exact ⟨iff_of_false (hshort (List.cons_ne_nil n []))
              fun hno => hshort hscope hno.1, fun q _ => Iff.rfl⟩
          · simp only [if_neg hd, if_neg fun hnew => (hdecl.mp hnew).elim hd hstays]
            rw [lookupFrom_nil, lookupFrom_nil]
            -- The package: the host is found, before the pass and after it.
            have hold := Scopes.declaredAs_of_mem hnodup hmsg
            have hnew := Scopes.declaredAs_of_mem (nodup_settledEntities hnodup)
              (mem_settledEntities hmsg trivial)
            rw [name_settle] at hnew
            rw [ProtoEntity.name_message] at hold hnew
            have hfound : Scopes.lookup ProtoEntity.name ProtoEntity.nested ⟨[], es⟩ h [] =
                some [h] := by
              rw [Scopes.lookup, hold]
              rfl
            have hdeclares : HostDeclares es h a ↔
                Scopes.declares ProtoEntity.name nested a = true := by
              constructor
              · intro hhost
                obtain ⟨ms₂, nested₂, hmem, hdecl₂⟩ := hhost
                cases eq_of_name_eq hnodup hmem hmsg rfl
                exact hdecl₂
              · exact fun hdecl₂ => ⟨ms, nested, hmsg, hdecl₂⟩
            refine ⟨?_, fun q hq => iff_of_false ?_ ?_⟩
            · rw [lookup_step, hnew, Option.bind_some, settle_message, hdeclares]
              have hsettled := (lookup_settled hnodup ([] ++ [h]) h nested a []).2
              by_cases hown : Scopes.declares ProtoEntity.name nested a = true
              · refine iff_of_false ?_ fun hno => hno.2 hown
                rw [ProtoEntity.nested, hsettled.1 hmoves hown]
                intro hno
                cases hno
              · exact iff_of_true (hsettled.2 hmoves (Bool.eq_false_iff.mpr hown)) ⟨hfound, hown⟩
            · exact fun hsome => hq (path_of_lookup hsome)
            · exact fun hsome => hq (path_of_lookup hsome)

end Rewritten

/-! ### Every reference -/

section Every

variable {es : List ProtoEntity} (hnodup : (es.map ProtoEntity.name).Nodup)
  (hwell : ∀ e ∈ es, WellNamed e)

include hwell in
theorem isIdent_of_movesTo {a h : String} (hmoves : MovesTo es a h) :
    isIdent a = true ∧ isIdent h = true := by
  obtain ⟨x, hx, rfl⟩ := hmoves.1.exists_enum
  obtain ⟨ms, nested, hmsg⟩ := (isMessageNamed_of_hostOf hmoves.2).1
  constructor
  · cases hwell _ hx with
    | enum hname => exact hname
  · cases hwell _ hmsg with
    | message hname _ => exact hname

/-- A name is rewritten when it spells a qualified enum. -/
theorem renamed_of_qualifies {r h : String} (hq : Qualifies es r h) :
    renamed (qualifiedNames es) r = h ++ "." ++ r := by
  rw [renamed, get_qualifiedNames.mpr ⟨h, hq.1, hq.2, rfl⟩, Option.getD_some]

theorem renamed_of_not_qualifies {r : String} (hq : ∀ h, ¬ Qualifies es r h) :
    renamed (qualifiedNames es) r = r := by
  rw [renamed]
  cases hget : SortedMap.get (qualifiedNames es) r with
  | none => rfl
  | some s =>
      obtain ⟨h, hmoves, hcount, _⟩ := get_qualifiedNames.mp hget
      exact absurd ⟨hmoves, hcount⟩ (hq h)

/-- What has not moved is where it was. -/
theorem newPlace_iff {q q' : List String} (hq : ∀ a h, q = [a] → ¬ MovesTo es a h) :
    NewPlace es q q' ↔ q' = q := by
  constructor
  · intro hplace
    cases hplace with
    | inl hmoved =>
        obtain ⟨a, h, heq, hmoves, _⟩ := hmoved
        exact absurd hmoves (hq a h heq)
    | inr hstays => exact hstays.2
  · exact fun heq => Or.inr ⟨hq, heq⟩

theorem newPlace_moved_iff {a h : String} (hmoves : MovesTo es a h) {q' : List String} :
    NewPlace es [a] q' ↔ q' = [h, a] := by
  constructor
  · intro hplace
    cases hplace with
    | inl hmoved =>
        obtain ⟨a', h', heq, hmoves', rfl⟩ := hmoved
        cases heq
        rw [movesTo_unique hmoves hmoves']
    | inr hstays => exact absurd hmoves (hstays.1 a h rfl)
  · exact fun heq => Or.inl ⟨a, h, rfl, hmoves, heq⟩

include hnodup hwell in
/-- **A rewritten name is followed** exactly when its reference is safe. -/
theorem followed_rewritten {chain : List ProtoEntity} (hroot : Rooted es chain) {r h : String}
    {q : List String} (hqual : Qualifies es r h)
    (hlook : lookupFrom es chain (components r) = some q) :
    (∃ q', NewPlace es q q' ∧
      lookupFrom (settledEntities es) (carried es chain)
        (components (renamed (qualifiedNames es) r)) = some q') ↔ SafeReference es chain r q := by
  obtain ⟨hr, hh⟩ := isIdent_of_movesTo hwell hqual.1
  rw [components_of_isIdent hr] at hlook
  rw [renamed_of_qualifies hqual, components_qualified hh hr]
  obtain ⟨hmoved, helse⟩ := lookupFrom_qualified_iff hnodup hroot hqual.1
  have hsafe : SafeReference es chain r q ↔
      (q = [r] ∧ lookupFrom es chain [h] = some [h] ∧ ¬ HostDeclares es h r) ∨
        (q ≠ [r] ∧ q ≠ [h, r] ∧ lookupFrom es chain [h, r] = some q) := by
    constructor
    · exact fun hs => hs.rewritten h hqual
    · intro hcase
      refine ⟨fun hno => absurd hqual (hno h), fun h' hqual' => ?_⟩
      rw [← movesTo_unique hqual.1 hqual'.1]
      exact hcase
  rw [hsafe]
  by_cases hq : q = [r]
  · subst hq
    simp only [newPlace_moved_iff hqual.1, exists_eq_left]
    rw [hmoved]
    simp only [true_and, ne_eq, not_true_eq_false, false_and, or_false]
  · have hstays : ∀ a h', q = [a] → ¬ MovesTo es a h' := by
      intro a h' heq
      obtain ⟨p, hp⟩ := suffix_of_lookupFrom hlook
      rw [heq] at hp
      cases p with
      | nil =>
          cases hp
          exact absurd heq hq
      | cons y p =>
          have hlen := congrArg List.length hp
          simp only [List.length_append, List.length_cons, List.length_nil] at hlen
          omega
    simp only [newPlace_iff hstays, exists_eq_left, hq, false_and, false_or, ne_eq,
      not_false_eq_true, true_and]
    by_cases hown : q = [h, r]
    · subst hown
      simp only [not_true_eq_false, false_and, iff_false]
      rw [hmoved]
      exact fun hno => hno.2 (hostDeclares_of_lookupFrom hroot hlook)
    · rw [helse q hown]
      simp only [hown, not_false_eq_true, true_and]

include hnodup in
/-- **A name that is not rewritten is followed** exactly when its reference is safe. -/
theorem followed_kept {site : ReferenceSite} {chain : List ProtoEntity} {r : String}
    {q : List String} (hsite : referenceAt es site = some (chain, r))
    (hwell : ∀ e ∈ es, WellNamed e) (hkept : ∀ h, ¬ Qualifies es r h)
    (hlook : lookupFrom es chain (components r) = some q) :
    (∃ q', NewPlace es q q' ∧
      lookupFrom (settledEntities es) (carried es chain)
        (components (renamed (qualifiedNames es) r)) = some q') ↔ SafeReference es chain r q := by
  have hsafe : SafeReference es chain r q ↔ ¬ ReadsCrowded es (components r) q :=
    ⟨fun hs => hs.kept hkept, fun hno => ⟨fun _ => hno, fun h hqual => absurd hqual (hkept h)⟩⟩
  rw [hsafe, renamed_of_not_qualifies hkept]
  have hroot := rooted_of_referenceAt hsite
  by_cases hmoved : ∃ a h, q = [a] ∧ MovesTo es a h
  · obtain ⟨a, h, rfl, hmoves⟩ := hmoved
    -- The name is the bare name of the enum, and only the host references it.
    have hbare : components r = [a] := by
      obtain ⟨p, hp⟩ := suffix_of_lookupFrom hlook
      cases p with
      | nil => exact hp.symm
      | cons y p =>
          have hnil : components r = [] := by
            have hlen := congrArg List.length hp
            simp only [List.length_append, List.length_cons, List.length_nil] at hlen
            exact List.length_eq_zero_iff.mp (by omega)
          rw [hnil] at hlook
          cases hlook
    obtain rfl := eq_of_components hbare
    obtain ⟨n, ms, nested, m, outer, f, hmem, _, hchain, rfl, hf, hr⟩ := referenceAt_spec hsite
    have href : r ∈ collectRefs (.message n ms nested) :=
      collectRefs_of_descend hchain (collectRefs_of_field (List.mem_of_getElem? hf)
        (mem_typeRefBases (List.mem_of_getElem? hr) (isIdent_of_movesTo hwell hmoves).1))
    have hcount : refCount (referencers es) r ≤ 1 :=
      Nat.le_of_not_lt fun hlt => hkept h ⟨hmoves, hlt⟩
    obtain rfl : h = n := host_of_only_reference hmem href hcount hmoves.2
    rw [hbare] at hlook ⊢
    refine iff_of_true ⟨[h, r], (newPlace_moved_iff hmoves).mpr rfl, ?_⟩ ?_
    · exact lookupFrom_follows hnodup (getLast?_descend hchain) hmoves hlook
    · intro hcrowded
      obtain ⟨_, _, _, hq, _⟩ := hcrowded
      cases hq
  · have hstays : ∀ a h, q = [a] → ¬ MovesTo es a h := fun a h heq hm => hmoved ⟨a, h, heq, hm⟩
    simp only [newPlace_iff hstays, exists_eq_left]
    cases hcomp : components r with
    | nil =>
        rw [hcomp] at hlook
        cases hlook
    | cons x rest =>
        rw [hcomp] at hlook
        exact lookupFrom_carried_iff hnodup hroot hlook hstays

/-- Rewriting keeps the names of what an entity declares. -/
theorem wellNamed_requalify {e : ProtoEntity} (h : WellNamed e) : WellNamed (requalify es e) := by
  induction e with
  | enum x =>
      rw [requalify_enum]
      exact h
  | message n ms nested ih =>
      rw [requalify_message]
      cases h with
      | message hname hnested =>
          refine .message hname fun d hd => ?_
          obtain ⟨e, he, rfl⟩ := List.mem_map.mp hd
          exact ih e he (hnested e he)

include hnodup hwell in
theorem wellNamed_settled : ∀ e ∈ settledEntities es, WellNamed e := by
  intro e he
  obtain ⟨d, hd, rfl⟩ := List.mem_map.mp he
  have hd := hwell d (List.mem_filter.mp hd).1
  cases d with
  | enum x =>
      rw [settle_enum, prefixNamed]
      cases hd with
      | enum hname =>
          by_cases hp : x.name ∈ prefixes es
          · rw [if_pos hp]
            exact .enum hname
          · rw [if_neg hp]
            exact .enum hname
  | message n ms nested =>
      rw [settle_message]
      cases hd with
      | message hname hnested =>
          refine .message hname fun d hmem => ?_
          cases List.mem_append.mp hmem with
          | inl hold =>
              obtain ⟨e, he, rfl⟩ := List.mem_map.mp hold
              exact wellNamed_requalify (hnested e he)
          | inr hnew =>
              obtain ⟨x, rfl, hx, _⟩ := (mem_arrivals_iff hnodup).mp hnew
              exact hwell _ hx

end Every

/-- **The pass keeps exactly the safe references.** -/
theorem refs_preserved_iff (printable : Char → Bool) (order : HashOrder String)
    (es : List ProtoEntity) :
    RefsPreserved printable order es ↔
      ∀ site chain r q, referenceAt (dedupTopLevel printable es) site = some (chain, r) →
        ResolvesTo (dedupTopLevel printable es) chain r q →
          SafeReference (dedupTopLevel printable es) chain r q := by
  have hnodup := nodup_dedupTopLevel printable es
  have hafter : makeProtocValid printable order es =
      settledEntities (dedupTopLevel printable es) := relocate_eq order hnodup
  have hpoint : ∀ site chain r q, referenceAt (dedupTopLevel printable es) site = some (chain, r) →
      ResolvesTo (dedupTopLevel printable es) chain r q →
        ((∃ chain' r' q', referenceAt (makeProtocValid printable order es) site =
            some (chain', r') ∧ NewPlace (dedupTopLevel printable es) q q' ∧
              ResolvesTo (makeProtocValid printable order es) chain' r' q') ↔
          SafeReference (dedupTopLevel printable es) chain r q) := by
    intro site chain r q hsite hres
    obtain ⟨hwell, hlook⟩ := hres
    have hfollowed : (∃ q', NewPlace (dedupTopLevel printable es) q q' ∧
        lookupFrom (settledEntities (dedupTopLevel printable es))
          (carried (dedupTopLevel printable es) chain)
          (components (renamed (qualifiedNames (dedupTopLevel printable es)) r)) = some q') ↔
            SafeReference (dedupTopLevel printable es) chain r q := by
      by_cases hqual : ∃ h, Qualifies (dedupTopLevel printable es) r h
      · obtain ⟨h, hqual⟩ := hqual
        exact followed_rewritten hnodup hwell (rooted_of_referenceAt hsite) hqual hlook
      · exact followed_kept hnodup hsite hwell (fun h hq => hqual ⟨h, hq⟩) hlook
    rw [hafter, referenceAt_settled hnodup hwell hsite, ← hfollowed]
    constructor
    · intro h
      obtain ⟨chain', r', q', heq, hplace, hres⟩ := h
      cases heq
      exact ⟨q', hplace, hres.2⟩
    · intro h
      obtain ⟨q', hplace, hlook'⟩ := h
      exact ⟨_, _, q', rfl, hplace, wellNamed_settled hnodup hwell, hlook'⟩
  constructor
  · exact fun h site chain r q hsite hres =>
      (hpoint site chain r q hsite hres).mp (h site chain r q hsite hres)
  · exact fun h site chain r q hsite hres =>
      (hpoint site chain r q hsite hres).mpr (h site chain r q hsite hres)

/-- Two enums share a value name; the second message has an enum of its own named like the one
that moves, and a field of that type. -/
def shadowedKind : List ProtoEntity :=
  [.enum ⟨"Base", [⟨"S", 0⟩]⟩, .enum ⟨"Kind", [⟨"S", 0⟩]⟩,
    .message "M1" [.field ⟨"k", 1, "Kind", ["optional"], false, none⟩,
      .field ⟨"b", 2, "Base", ["optional"], false, none⟩] [],
    .message "M2" [.field ⟨"k", 1, "Kind", ["optional"], false, none⟩,
      .field ⟨"b", 2, "Base", ["optional"], false, none⟩] [.enum ⟨"Kind", [⟨"X", 0⟩]⟩]]

/-- The field of the second message named its own enum and is rewritten to the moved one. -/
theorem makeProtocValid_repoints_shadowed :
    ¬ RefsPreserved (fun _ => true) HashOrder.increasing shadowedKind := by
  intro hkept
  have hdedup : dedupTopLevel (fun _ => true) shadowedKind = shadowedKind := by decide +kernel
  rw [RefsPreserved, hdedup] at hkept
  have hwell : ∀ e ∈ shadowedKind, WellNamed e := by
    intro e he
    simp only [shadowedKind, List.mem_cons, List.not_mem_nil, or_false] at he
    rcases he with rfl | rfl | rfl | rfl
    · exact .enum (by decide +kernel)
    · exact .enum (by decide +kernel)
    · exact .message (by decide +kernel) (fun _ h => absurd h List.not_mem_nil)
    · refine .message (by decide +kernel) fun e h => ?_
      rw [List.mem_singleton.mp h]
      exact .enum (by decide +kernel)
  obtain ⟨chain, hsite, hlook⟩ : ∃ chain, referenceAt shadowedKind ⟨"M2", [], 0, 0⟩ =
      some (chain, "Kind") ∧
        lookupFrom shadowedKind chain (components "Kind") = some ["M2", "Kind"] :=
    ⟨[.message "M2" [.field ⟨"k", 1, "Kind", ["optional"], false, none⟩,
      .field ⟨"b", 2, "Base", ["optional"], false, none⟩] [.enum ⟨"Kind", [⟨"X", 0⟩]⟩]],
      by decide +kernel⟩
  obtain ⟨chain', r', q', hsite', hplace, _, hlook'⟩ := hkept _ _ _ _ hsite ⟨hwell, hlook⟩
  -- The enum of the second message has not moved.
  have hstayed : q' = ["M2", "Kind"] := by
    cases hplace with
    | inl hmoved =>
        obtain ⟨a, h, heq, _⟩ := hmoved
        cases heq
    | inr hstays => exact hstays.2
  have hnew : ∀ p, referenceAt (makeProtocValid (fun _ => true) HashOrder.increasing
      shadowedKind) ⟨"M2", [], 0, 0⟩ = some p →
        lookupFrom (makeProtocValid (fun _ => true) HashOrder.increasing shadowedKind) p.1
          (components p.2) = some ["M1", "Kind"] := by
    decide +kernel
  have hmoved := hnew _ hsite'
  rw [hlook', hstayed] at hmoved
  exact absurd hmoved (by decide)

end Whatspec.Proto

import PgMentat.ComponentExpansion

namespace PgMentat

open List

variable (scan : ScanOrder) (db : Db) (name : AttrName) (rename : Option String)

/-- The entities that one step leads to. -/
def AttrName.followed (e : Int64) : List Int64 :=
  match name.cardinality db with
  | .one => (name.refs scan db e).take 1
  | .many => name.refs scan db e

/-- The attributes of an entity, without the one that is followed. -/
def ownAttributes (e : Int64) : Except String JsonObject := do
  let rows ← pullRows scan db e
  return (rows.filter fun row => row.info.ident ≠ name.forwardIdent).foldl
    (fun m row => insertValue m row.info (plainValue row)) (idOnly e)

/-- Enter what is shown of the entities: a map for `one`, an array for `many`. -/
def enterSubs (m : JsonObject) (subs : List JsonObject) : JsonObject :=
  match name.cardinality db, subs with
  | _, [] => m
  | .one, sub :: _ => m.insert (rename.getD name.ident) (.object sub)
  | .many, subs => m.insert (rename.getD name.ident) (.array (subs.map .object))

def enterRefs (expand : Int64 → Except String JsonObject) (ids : List Int64) (m : JsonObject) :
    Except String JsonObject :=
  (ids.mapM expand).map (enterSubs db name rename m)

/-- Every entity at most `n` steps away is expanded, on every way that leads to it. -/
def expandSteps : Nat → Int64 → JsonObject → Except String JsonObject
  | 0, _, m => .ok m
  | n + 1, e, m =>
    enterRefs db name rename (fun id => do
      let own ← ownAttributes scan db name id
      expandSteps n id own) (name.followed scan db e) m

/-- No way is longer than `n` steps. -/
def EndsWithin : Nat → Int64 → Prop
  | 0, e => name.followed scan db e = []
  | n + 1, e => ∀ id ∈ name.followed scan db e, EndsWithin n id

/-- On the next `n` steps no entity is met that is on the way there, none has components, and no
default limit is exceeded. -/
def ClearSteps : Nat → List Int64 → Int64 → Prop
  | 0, _, _ => True
  | n + 1, path, e => (name.refs scan db e).length ≤ defaultManyLimit ∧
    ∀ id ∈ name.followed scan db e, id ∉ path ∧
      (∀ rows, pullRows scan db id = .ok rows → ∀ row ∈ rows, row.component = none) ∧
      ClearSteps n (id :: path) id

/-- The attributes of every entity can be shown, and none is shown under the key of the spec. -/
def KeyApart : Prop :=
  ∀ e, ∃ own, ownAttributes scan db name e = .ok own ∧
    own.lookup (rename.getD name.ident) = none

/-- What a spec of a pattern enters after the attributes, if it expands every step. -/
def PullAttrSpec.expand (e : Int64) (m : JsonObject) : PullAttrSpec → Except String JsonObject
  | .recursiveSpec name (.bounded n) rename => expandSteps scan db name rename n e m
  | _ => .ok m

/-- An attribute, or a bounded recursion on clear steps. -/
def PullAttrSpec.Clear (visited : List Int64) (e : Int64) : PullAttrSpec → Prop
  | .attribute _ => True
  | .recursiveSpec name (.bounded n) _ => ClearSteps scan db name n visited e
  | _ => False

variable {scan db name rename} {e : Int64} {m : JsonObject} {visited : List Int64} {n : Nat}

section Refs

variable {pull : List Int64 → Int64 → Except String PullState} {ids : List Int64}
  {expand expand' : Int64 → Except String JsonObject}

theorem enterRefs_congr (h : ∀ id ∈ ids, expand id = expand' id) :
    enterRefs db name rename expand ids m = enterRefs db name rename expand' ids m := by
  have hmap : ids.mapM expand = ids.mapM expand' := by
    induction ids with
    | nil => rfl
    | cons id ids ih =>
      rw [mapM_cons, mapM_cons, h id mem_cons_self,
        ih fun id hid => h id (mem_cons_of_mem _ hid)]
  rw [enterRefs, hmap, enterRefs]

theorem pullEach_eq (h : ∀ id ∈ ids, pull visited id = (expand id).map (·, visited)) :
    pullEach pull visited ids =
      (ids.mapM expand).map fun subs => (subs.map .object, visited) := by
  induction ids with
  | nil => rfl
  | cons id ids ih =>
    rw [pullEach, h id mem_cons_self, mapM_cons]
    cases expand id with
    | error err => rfl
    | ok sub =>
      have hrest := ih fun id hid => h id (mem_cons_of_mem _ hid)
      simp only [Except.map, bind, Except.bind, hrest]
      cases ids.mapM expand <;> rfl

theorem pullRefs_eq (hlimit : (name.refs scan db e).length ≤ defaultManyLimit)
    (h : ∀ id ∈ name.followed scan db e, pull visited id = (expand id).map (·, visited)) :
    pullRefs (name.cardinality db) (rename.getD name.ident) pull
        (limitedTo none (name.refs scan db e)) (m, visited) =
      (enterRefs db name rename expand (name.followed scan db e) m).map (·, visited) := by
  have hall : limitedTo none (name.refs scan db e) = name.refs scan db e :=
    take_of_length_le hlimit
  rw [hall]
  unfold AttrName.followed at h ⊢
  unfold enterRefs enterSubs
  cases hcard : name.cardinality db with
  | one =>
    rw [hcard] at h
    cases hrefs : name.refs scan db e with
    | nil => rfl
    | cons id ids =>
      have hid := h id (by rw [hrefs]; exact mem_cons_self)
      simp only [pullRefs, hid, take_succ_cons, take_zero, mapM_cons]
      cases expand id <;> rfl
  | many =>
    rw [hcard] at h
    cases hrefs : name.refs scan db e with
    | nil => rfl
    | cons id ids =>
      rw [hrefs] at h
      have heach := pullEach_eq h
      simp only [pullRefs, heach]
      cases hmap : (id :: ids).mapM expand with
      | error err => rfl
      | ok subs =>
        have hlength := (Unification.forall₂_of_mapM_ok hmap).length_eq
        cases subs with
        | nil => cases hlength
        | cons sub subs => rfl

end Refs

theorem pullAllAttributesForRecursive_eq {levels : Nat}
    (h : ∀ rows, pullRows scan db e = .ok rows → ∀ row ∈ rows, row.component = none) :
    pullAllAttributesForRecursive scan db levels name.forwardIdent e (idOnly e, visited) =
      (ownAttributes scan db name e).map (·, visited) := by
  unfold pullAllAttributesForRecursive ownAttributes
  cases hrows : pullRows scan db e with
  | error err => rfl
  | ok rows =>
    have hplain (rows : List PullRow) (hnone : ∀ row ∈ rows, row.component = none)
        (m : JsonObject) :
        rows.foldlM (fun (st : PullState) row =>
          if (decide (0 < levels) && row.waits st.2) = true then
            expandPending (pullComponent scan db levels) st row
          else .ok (insertValue st.1 row.info (plainValue row), st.2)) (m, visited) =
        .ok (rows.foldl (fun m row => insertValue m row.info (plainValue row)) m, visited) := by
      induction rows generalizing m with
      | nil => rfl
      | cons row rows ih =>
        have hwaits : row.waits visited = false := by
          simp [PullRow.waits, hnone row mem_cons_self]
        simp only [foldlM_cons, hwaits, Bool.and_false, Bool.false_eq_true, if_false]
        exact ih (fun row hrow => hnone row (mem_cons_of_mem _ hrow)) _
    exact hplain _ (fun row hrow => h rows hrows row (mem_filter.mp hrow).1) _

theorem pullRecursive_eq {depth : Nat} (h : ClearSteps scan db name n visited e) :
    pullRecursive scan db name rename n depth e (m, visited) =
      (expandSteps scan db name rename n e m).map (·, visited) := by
  induction n generalizing depth e m visited with
  | zero => rfl
  | succ n ih =>
    obtain ⟨hlimit, hids⟩ := h
    rw [pullRecursive, expandSteps]
    apply pullRefs_eq hlimit
    intro id hid
    obtain ⟨hnew, hplain, hrest⟩ := hids id hid
    rw [if_neg hnew, entering, pullAllAttributesForRecursive_eq hplain]
    cases ownAttributes scan db name id with
    | error err => rfl
    | ok own =>
      have hpull : pullRecursive scan db name rename n (depth + 1) id (own, id :: visited) =
          (expandSteps scan db name rename n id own).map (·, id :: visited) := ih hrest
      simp only [Except.map, bind, Except.bind, hpull]
      cases expandSteps scan db name rename n id own with
      | error err => rfl
      | ok sub =>
        have hleft : (id :: visited).filter (· ≠ id) = visited := by
          rw [filter_cons_of_neg (by simp), filter_eq_self]
          intro x hx
          simpa using fun heq : x = id => hnew (heq ▸ hx)
        simp only [if_neg hnew, hleft]
        rfl

theorem expandSteps_of_endsWithin (k : Nat) (h : EndsWithin scan db name n e) :
    expandSteps scan db name rename (n + k) e m = expandSteps scan db name rename n e m := by
  induction n generalizing e m with
  | zero =>
    cases k with
    | zero => rfl
    | succ k =>
      have hnone : name.followed scan db e = [] := h
      simp only [expandSteps, hnone]
      rfl
  | succ n ih =>
    rw [Nat.add_right_comm, expandSteps, expandSteps]
    apply enterRefs_congr
    intro id hid
    cases ownAttributes scan db name id with
    | error err => rfl
    | ok own => exact ih (h id hid)

section KeyApart

variable {ids : List Int64} {expand expand' : Int64 → Except String JsonObject}

theorem exists_mapM_ok (h : ∀ id ∈ ids, ∃ sub, expand id = .ok sub) :
    ∃ subs, ids.mapM expand = .ok subs ∧
      Forall₂ (fun id sub => expand id = .ok sub) ids subs := by
  obtain ⟨subs, hsubs, -⟩ := Depiction.mapM_ok h
  exact ⟨subs, hsubs, Unification.forall₂_of_mapM_ok hsubs⟩

theorem lookup_enterSubs (sub : JsonObject) (subs : List JsonObject) :
    (enterSubs db name rename m (sub :: subs)).lookup (rename.getD name.ident) =
      some (match name.cardinality db with
        | .one => .object sub
        | .many => .array ((sub :: subs).map .object)) := by
  unfold enterSubs
  cases name.cardinality db <;> exact (JsonObject.lookup_insert _ _ _ _).trans (if_pos rfl)

theorem enterSubs_inj {subs subs' : List JsonObject}
    (hone : name.cardinality db = .one → subs.length ≤ 1) (hlength : subs.length = subs'.length)
    (h : enterSubs db name rename m subs = enterSubs db name rename m subs') : subs = subs' := by
  cases subs with
  | nil => exact (length_eq_zero_iff.mp hlength.symm).symm
  | cons sub rest =>
    cases subs' with
    | nil => cases hlength
    | cons sub' rest' =>
      have hshown := congrArg (List.lookup (rename.getD name.ident)) h
      rw [lookup_enterSubs, lookup_enterSubs] at hshown
      cases hcard : name.cardinality db with
      | one =>
        have hle := hone hcard
        simp only [length_cons] at hle hlength
        have hrest : rest = [] := length_eq_zero_iff.mp (by omega)
        have hrest' : rest' = [] := length_eq_zero_iff.mp (by omega)
        rw [hcard] at hshown
        cases hshown
        rw [hrest, hrest']
      | many =>
        rw [hcard] at hshown
        exact map_injective_iff.mpr (fun _ _ => JsonValue.object.inj)
          (JsonValue.array.inj (Option.some.inj hshown))

theorem enterRefs_inj (hone : name.cardinality db = .one → ids.length ≤ 1)
    (h : ∀ id ∈ ids, ∃ sub, expand id = .ok sub) (h' : ∀ id ∈ ids, ∃ sub, expand' id = .ok sub)
    (heq : enterRefs db name rename expand ids m = enterRefs db name rename expand' ids m) :
    ∀ id ∈ ids, expand id = expand' id := by
  obtain ⟨subs, hsubs, hall⟩ := exists_mapM_ok h
  obtain ⟨subs', hsubs', hall'⟩ := exists_mapM_ok h'
  rw [enterRefs, hsubs, enterRefs, hsubs'] at heq
  have hsame : subs = subs' := by
    refine enterSubs_inj (fun hcard => ?_) (hall.length_eq.symm.trans hall'.length_eq)
      (Except.ok.inj heq)
    rw [← hall.length_eq]
    exact hone hcard
  subst hsame
  clear heq hsubs hsubs' hone h h'
  induction hall with
  | nil => exact fun id hid => nomatch hid
  | cons hid _ ih =>
    cases hall' with
    | cons hid' hrest =>
      intro id hmem
      rcases mem_cons.mp hmem with rfl | hmem
      · exact hid.trans hid'.symm
      · exact ih hrest id hmem

theorem KeyApart.expandSteps_ok (hkey : KeyApart scan db name rename) (n : Nat) (e : Int64)
    (m : JsonObject) : ∃ m', expandSteps scan db name rename n e m = .ok m' := by
  induction n generalizing e m with
  | zero => exact ⟨m, rfl⟩
  | succ n ih =>
    have hall : ∀ id ∈ name.followed scan db e, ∃ sub,
        (do let own ← ownAttributes scan db name id; expandSteps scan db name rename n id own) =
          .ok sub := by
      intro id _
      obtain ⟨own, hown, -⟩ := hkey id
      rw [hown]
      exact ih id own
    obtain ⟨subs, hsubs, -⟩ := exists_mapM_ok hall
    rw [expandSteps, enterRefs, hsubs]
    exact ⟨_, rfl⟩

theorem keyApart_of_extractable (hextract : ∀ x ∈ db.current, x.v.Extractable)
    (hid : rename.getD name.ident ≠ ":db/id")
    (hapart : ∀ row ∈ db.schema, row.ident = rename.getD name.ident →
      row.ident = name.forwardIdent) : KeyApart scan db name rename := by
  intro e
  obtain ⟨rows, hrows, hfrom, -⟩ := pullRows_ok scan e hextract
  refine ⟨_, by rw [ownAttributes, hrows]; rfl, ?_⟩
  have hfold (rows : List PullRow) (h : ∀ row ∈ rows, rename.getD name.ident ≠ row.info.ident)
      (m : JsonObject) : (rows.foldl (fun m row => insertValue m row.info (plainValue row))
        m).lookup (rename.getD name.ident) = m.lookup (rename.getD name.ident) := by
    induction rows generalizing m with
    | nil => rfl
    | cons row rows ih =>
      rw [foldl_cons, ih fun row hrow => h row (mem_cons_of_mem _ hrow)]
      exact lookup_insertValue_ne (h row mem_cons_self)
  rw [hfold, idOnly, JsonObject.lookup_cons, if_neg hid]
  · rfl
  · intro row hrow heq
    obtain ⟨hrow, hother⟩ := mem_filter.mp hrow
    obtain ⟨x, -, -, hattr, -⟩ := mem_wildcardRows.mp (hfrom row hrow).2
    have hsame := hapart row.info (SchemaCache.mem_of_getAttribute hattr).1 heq.symm
    exact absurd hsame (of_decide_eq_true hother)

theorem length_followed_le (h : name.cardinality db = .one) :
    (name.followed scan db e).length ≤ 1 := by
  simp [AttrName.followed, h]

theorem KeyApart.endsWithin (hkey : KeyApart scan db name rename) {k : Nat}
    (hm : m.lookup (rename.getD name.ident) = none)
    (h : expandSteps scan db name rename n e m =
      expandSteps scan db name rename (n + (k + 1)) e m) : EndsWithin scan db name n e := by
  have hok (n : Nat) (id : Int64) : ∃ sub, (do
      let own ← ownAttributes scan db name id
      expandSteps scan db name rename n id own) = .ok sub := by
    obtain ⟨own, hown, -⟩ := hkey id
    rw [hown]
    exact hkey.expandSteps_ok n id own
  induction n generalizing e m with
  | zero =>
    obtain ⟨subs, hsubs, hall⟩ := exists_mapM_ok fun id (_ : id ∈ name.followed scan db e) =>
      hok k id
    have hself : m = enterSubs db name rename m subs := by
      simp only [Nat.zero_add, expandSteps.eq_1, expandSteps.eq_2, enterRefs, hsubs] at h
      exact Except.ok.inj h
    cases subs with
    | nil => exact length_eq_zero_iff.mp hall.length_eq
    | cons sub subs =>
      rw [hself, lookup_enterSubs] at hm
      cases hm
  | succ n ih =>
    rw [Nat.add_right_comm, expandSteps, expandSteps] at h
    intro id hid
    have hid := enterRefs_inj length_followed_le (fun id _ => hok n id)
      (fun id _ => hok (n + (k + 1)) id) h id hid
    obtain ⟨own, hown, hfree⟩ := hkey id
    rw [hown] at hid
    exact ih hfree hid

end KeyApart

section Pattern

variable {spec : PullAttrSpec} {specs : List PullAttrSpec} {overrides : List String}

theorem pullSpec_clear (h : spec.Clear scan db visited e) :
    pullSpec scan db overrides 0 e (m, visited) spec =
      (spec.expand scan db e m).map (·, visited) := by
  match spec, h with
  | .attribute _, _ => rw [pullSpec]; rfl
  | .recursiveSpec name (.bounded n) rename, h =>
    rw [pullSpec, RecursionDepth.max, Nat.sub_zero, pullRecursive_eq h]
    rfl

theorem pullSpecs_clear (h : ∀ spec ∈ specs, spec.Clear scan db visited e) :
    pullSpecs scan db overrides 0 e (m, visited) specs =
      (specs.foldlM (PullAttrSpec.expand scan db e) m).map (·, visited) := by
  -- a spec leaves the visited entities as they were, so those behind it are as clear as before
  induction specs generalizing m with
  | nil => rw [pullSpecs]; rfl
  | cons spec specs ih =>
    rw [pullSpecs, pullSpec_clear (h spec mem_cons_self), foldlM_cons]
    cases spec.expand scan db e m with
    | error message => rfl
    | ok m' => exact ih fun spec hspec => h spec (mem_cons_of_mem _ hspec)

theorem pullParsed_clear
    (hattrs : pullAttributes scan db (pullComponent scan db maxRecursionDepth) maxRecursionDepth
      specs e (idOnly e, [e]) = .ok (m, visited))
    (h : ∀ spec ∈ specs, spec.Clear scan db visited e) :
    pullParsed scan db specs e = specs.foldlM (PullAttrSpec.expand scan db e) m := by
  unfold pullParsed executePull
  rw [Nat.sub_zero]
  dsimp only
  rw [hattrs]
  show (pullSpecs scan db _ 0 e (m, visited) specs >>= fun st => pure st.1) = _
  rw [pullSpecs_clear h]
  cases specs.foldlM (PullAttrSpec.expand scan db e) m <;> rfl

end Pattern

/-- A spec `{a n}` around which there are `depth` map specs, on steps that are clear and where what
is shown can be told apart: it expands what is `n` steps away if and only if it is in no map, or
its ways end before the levels that the maps take. A whole pattern of attributes and such specs
expands what each of them names. -/
theorem pullSpec_expandSteps_iff {depth : Nat} {overrides : List String} (hn : 0 < n)
    (hclear : ClearSteps scan db name (n - depth) visited e)
    (hkey : KeyApart scan db name rename) (hm : m.lookup (rename.getD name.ident) = none) :
    (pullSpec scan db overrides depth e (m, visited) (.recursiveSpec name (.bounded n) rename) =
        (expandSteps scan db name rename n e m).map (·, visited) ↔
      depth = 0 ∨ EndsWithin scan db name (n - depth) e) ∧
    ∀ specs root m visited, pullAttributes scan db (pullComponent scan db maxRecursionDepth)
        maxRecursionDepth specs root (idOnly root, [root]) = .ok (m, visited) →
      (∀ spec ∈ specs, spec.Clear scan db visited root) →
      pullParsed scan db specs root = specs.foldlM (PullAttrSpec.expand scan db root) m := by
  refine ⟨?_, fun _ _ _ _ => pullParsed_clear⟩
  rw [pullSpec, RecursionDepth.max, pullRecursive_eq hclear]
  constructor
  · intro h
    rcases Nat.eq_zero_or_pos depth with hzero | hpos
    · exact .inl hzero
    · obtain ⟨k, hk⟩ : ∃ k, n = n - depth + (k + 1) := ⟨n - (n - depth) - 1, by omega⟩
      obtain ⟨sub, hsub⟩ := hkey.expandSteps_ok (n - depth) e m
      obtain ⟨sub', hsub'⟩ := hkey.expandSteps_ok n e m
      rw [hsub, hsub'] at h
      obtain rfl := congrArg Prod.fst (Except.ok.inj h)
      refine .inr (hkey.endsWithin (k := k) hm ?_)
      rw [← hk, hsub, hsub']
  · rintro (rfl | hends)
    · rfl
    · have hn' : n - depth + (n - (n - depth)) = n := by omega
      rw [← expandSteps_of_endsWithin (n - (n - depth)) hends, hn']

def installName : AttrName := ⟨":db.install/attribute", false, ":db.install/attribute"⟩

/-- `61` is `:db.install/attribute`, a many-valued ref. -/
def installChain : Call :=
  plainCall 1000000000001 1735689600000000
    [addDatom 500 61 (.integer 501), addDatom 501 61 (.integer 502)]

/-- In one map, two steps where one is all there is; and `[{:db.install/attribute 2}]`. -/
theorem pullSpec_expandSteps_iff_chain :
    ∃ db ∈ stateAfter [installChain],
      pullSpec .heap db [] 1 501 (idOnly 501, [501, 500])
          (.recursiveSpec installName (.bounded 2) none) =
        (expandSteps .heap db installName none 2 501 (idOnly 501)).map (·, [501, 500]) ∧
      pullParsed .heap db [.recursiveSpec installName (.bounded 2) none] 500 =
        expandSteps .heap db installName none 2 500 (idOnly 500) := by
  have hstate : ∃ db ∈ stateAfter [installChain],
      installName.refs .heap db 500 = [501] ∧ installName.refs .heap db 501 = [502] ∧
      installName.refs .heap db 502 = [] ∧ installName.followed .heap db 500 = [501] ∧
      installName.followed .heap db 501 = [502] ∧
      (∀ rows, pullRows .heap db 501 = .ok rows → ∀ row ∈ rows, row.component = none) ∧
      (∀ rows, pullRows .heap db 502 = .ok rows → ∀ row ∈ rows, row.component = none) ∧
      (∀ x ∈ db.current, x.v.Extractable) ∧
      ∀ row ∈ db.schema, row.ident = installName.ident → row.ident = installName.forwardIdent := by
    decide +kernel
  obtain ⟨db, hdb, hroot, hrefs, hend, hfirst, hfollowed, hmid, hleaf, hextract, hapart⟩ := hstate
  have hkey : KeyApart .heap db installName none :=
    keyApart_of_extractable hextract (by decide) hapart
  have hclear : ClearSteps .heap db installName (2 - 1) [501, 500] 501 := by
    refine ⟨by rw [hrefs]; decide, fun id hid => ?_⟩
    rw [hfollowed] at hid
    obtain rfl := mem_singleton.mp hid
    exact ⟨by decide, hleaf, trivial⟩
  have hclear' : ClearSteps .heap db installName 2 [500] 500 := by
    refine ⟨by rw [hroot]; decide, fun id hid => ?_⟩
    rw [hfirst] at hid
    obtain rfl := mem_singleton.mp hid
    exact ⟨by decide, hmid, hclear⟩
  obtain ⟨rows, hrows, -⟩ := pullRows_ok .heap 500 hextract
  have hends : EndsWithin .heap db installName (2 - 1) 501 := by
    intro id hid
    rw [hfollowed] at hid
    obtain rfl := mem_singleton.mp hid
    change AttrName.followed .heap db installName 502 = []
    unfold AttrName.followed
    cases installName.cardinality db <;> simp [hend]
  have hspecs : ∀ spec ∈ [PullAttrSpec.recursiveSpec installName (.bounded 2) none],
      spec.Clear .heap db [500] 500 := by
    intro spec hspec
    obtain rfl := mem_singleton.mp hspec
    exact hclear'
  obtain ⟨hnested, hpattern⟩ :=
    @pullSpec_expandSteps_iff _ _ _ _ _ (idOnly 501) _ _ _ [] (by decide) hclear hkey rfl
  have hwhole := hpattern _ 500 _ _ (pullAttributes_of_no_attrs _ _ _ rfl hrows) hspecs
  rw [foldlM_cons] at hwhole
  exact ⟨db, hdb, hnested.mpr (.inr hends), hwhole.trans (bind_pure _)⟩

/-- The ids under `:db.install/attribute`, and those one level below. -/
def shownInstalls (m : JsonObject) : List (Option Int64 × Nat) :=
  (m.values installName.ident).map fun sub => ((sub.get? ":db/id").bind JsonValue.asI64,
    ((sub.get? installName.ident).bind JsonValue.asArray).elim 0 List.length)

/-- `[{:db.install/attribute [{:db.install/attribute 1}]}]`: the inner spec expands nothing,
although its entity refers to another one. -/
theorem not_expandSteps_nested :
    ∃ db m m', stateAfter [installChain] = some db ∧
      pullParsed .heap db
        [.mapSpec installName [.recursiveSpec installName (.bounded 1) none] none none] 500 =
          .ok m ∧ shownInstalls m = [(some 501, 0)] ∧
      expandSteps .heap db installName none 1 501 (idOnly 501) = .ok m' ∧
      shownInstalls m' = [(some 502, 0)] ∧
      pullSpec .heap db [] 1 501 (idOnly 501, [501, 500])
          (.recursiveSpec installName (.bounded 1) none) ≠ .ok (m', [501, 500]) := by
  have hstate : ∃ db, stateAfter [installChain] = some db ∧ ∃ m, pullParsed .heap db
        [.mapSpec installName [.recursiveSpec installName (.bounded 1) none] none none] 500 =
          .ok m ∧ shownInstalls m = [(some 501, 0)] ∧
      ∃ m', expandSteps .heap db installName none 1 501 (idOnly 501) = .ok m' ∧
        shownInstalls m' = [(some 502, 0)] := by
    decide +kernel
  obtain ⟨db, hdb, m, hm, hshown, m', hm', hshown'⟩ := hstate
  refine ⟨db, m, m', hdb, hm, hshown, hm', hshown', ?_⟩
  intro h
  rw [← (Prod.mk.inj (Except.ok.inj h)).1] at hshown'
  exact absurd hshown' (by decide)

end PgMentat

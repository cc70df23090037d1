import PgMentat.Read.PullPattern
import PgMentat.Lib.TreeExpansion
import PgMentat.ReadPaths
import PgMentat.RetractEntity

namespace PgMentat

open List TreeExpansion KeyedTable

/-- What a row is entered as, given the object of its component. -/
def rowValue (c : SchemaCache) (row : PullRow) : Option JsonObject → JsonValue
  | some sub => .object sub
  | none =>
    match row.v with
    | .ref id => refJson c id
    | _ => row.decoded

/-- The entities with their live rows, and the components that the rows refer to. -/
def pullGraph (scan : ScanOrder) (db : Db) : Graph Int64 PullRow JsonObject String where
  rows := pullRows scan db
  child := PullRow.component
  stub := idOnly
  assemble e ms := ms.foldl (fun m rm => insertValue m rm.1.info (rowValue db.cache rm.1 rm.2))
    (idOnly e)
  assemble_nil _ := rfl

section Walk

variable {scan : ScanOrder} {db : Db}

theorem pullRow_eq (scan : ScanOrder) (below : List Int64 → Int64 → Except String PullState)
    (st : PullState) (row : PullRow) :
    pullRow db.cache below st row =
      ((pullGraph scan db).visitRow below st.2 row).map fun out =>
        (insertValue st.1 row.info (rowValue db.cache row out.1), out.2) := by
  obtain ⟨info, v, decoded⟩ := row
  cases v with
  | ref id =>
    by_cases hcomp : info.component = true
    · simp only [pullRow, hcomp, if_true, Graph.visitRow, pullGraph, PullRow.component]
      by_cases hvisited : id ∈ st.2
      · simp only [if_pos hvisited]
        rfl
      · simp only [if_neg hvisited]
        cases below st.2 id with
        | error err | ok out => rfl
    · simp only [pullRow, hcomp, Graph.visitRow, pullGraph, PullRow.component]
      rfl
  | _ => rfl

theorem foldlM_pullRow (scan : ScanOrder)
    (below : List Int64 → Int64 → Except String PullState) (rows : List PullRow)
    (st : PullState) :
    rows.foldlM (pullRow db.cache below) st =
      ((pullGraph scan db).visitRows below st.2 rows).map fun out =>
        (out.1.foldl (fun m rm => insertValue m rm.1.info (rowValue db.cache rm.1 rm.2)) st.1,
          out.2) := by
  induction rows generalizing st with
  | nil => rfl
  | cons row rows ih =>
    rw [foldlM_cons, pullRow_eq scan below st row]
    unfold Graph.visitRows
    cases (pullGraph scan db).visitRow below st.2 row with
    | error err => rfl
    | ok out =>
      refine (ih _).trans ?_
      show _ = Except.map _ ((pullGraph scan db).visitRows below out.2 rows >>= _)
      cases (pullGraph scan db).visitRows below out.2 rows with
      | error err | ok rest => rfl

theorem pullEntity_eq (below : List Int64 → Int64 → Except String PullState)
    (visited : List Int64) (e : Int64) :
    pullEntity scan db below visited e = (pullGraph scan db).expandNode below visited e := by
  unfold pullEntity Graph.expandNode
  show (pullRows scan db e >>= _) = (pullRows scan db e >>= _)
  cases pullRows scan db e with
  | error err => rfl
  | ok rows =>
    refine (foldlM_pullRow scan below rows _).trans ?_
    show _ = ((pullGraph scan db).visitRows below visited rows >>= _)
    cases (pullGraph scan db).visitRows below visited rows with
    | error err | ok out => rfl

theorem pullWildcard_eq (levels : Nat) (visited : List Int64) (e : Int64) :
    pullWildcard scan db levels visited e =
      (pullGraph scan db).expandNode ((pullGraph scan db).descend levels) visited e := by
  induction levels generalizing visited e with
  | zero => exact pullEntity_eq _ visited e
  | succ levels ih =>
    have hbelow : (fun visited id => pullWildcard scan db levels (id :: visited) id) =
        (pullGraph scan db).descend (levels + 1) := by
      funext visited id
      exact ih (id :: visited) id
    unfold pullWildcard
    rw [hbelow]
    exact pullEntity_eq _ visited e

theorem pullComponent_eq (levels : Nat) :
    pullComponent scan db levels = (pullGraph scan db).descend levels := by
  cases levels with
  | zero => rfl
  | succ levels =>
    funext visited id
    exact pullWildcard_eq levels (id :: visited) id

end Walk

def PullAttrSpec.Flat (spec : PullAttrSpec) : Prop := spec.isAttribute = true ∨ spec = .wildcard

def PullAttrSpec.isWildcard : PullAttrSpec → Bool
  | wildcard => true
  | _ => false

def pullWildcards (scan : ScanOrder) (db : Db)
    (below : List Int64 → Int64 → Except String PullState) (overrides : List String) (e : Int64)
    (specs : List PullAttrSpec) (st : PullState) : Except String PullState :=
  specs.foldlM (fun st spec =>
    if spec.isWildcard then pullWildcardInto scan db below overrides e st else .ok st) st

/-- A pattern of attributes and wildcards, for a given way to expand a component. -/
def pullFlat (scan : ScanOrder) (db : Db)
    (below : List Int64 → Int64 → Except String PullState) (specs : List PullAttrSpec)
    (e : Int64) : Except String PullState := do
  let st ← pullAttributes scan db below maxRecursionDepth specs e (idOnly e, [e])
  pullWildcards scan db below (overrideIdents specs) e specs st

/-- Components are expanded unless they are on the way from the root. -/
def pullByPath (scan : ScanOrder) (db : Db) (specs : List PullAttrSpec) (e : Int64) :
    Except String JsonObject :=
  (pullFlat scan db ((pullGraph scan db).descendPath maxRecursionDepth) specs e).map Prod.fst

/-- In the result every component is shown by the way on which it is reached. -/
def ExpandsByPath (scan : ScanOrder) (db : Db) (specs : List PullAttrSpec) (e : Int64) : Prop :=
  ∀ m, pullParsed scan db specs e = .ok m → pullByPath scan db specs e = .ok m

/-- The rows of attributes whose components are expanded. -/
def waitingRows (attrs : List AttrSpec) (visited : List Int64) (asked : List PullRow) :
    List PullRow :=
  ((limitRows attrs [] asked).map (renamed attrs)).filter (PullRow.waits visited)

/-- The rows of the root under which components are expanded, in the order in which they are. -/
def rootRows (scan : ScanOrder) (db : Db) (specs : List PullAttrSpec) (e : Int64) :
    Except String (List PullRow) := do
  let asked ← askedRows scan db (forwardAttrs specs) e
  let rows ← pullRows scan db e
  return waitingRows (forwardAttrs specs) [e] asked ++
    (specs.filter PullAttrSpec.isWildcard).flatMap fun _ =>
      rows.filter fun row => row.info.ident ∉ overrideIdents specs

/-- No component with live attributes is reached from the root in two ways. -/
def UnsharedComponents (scan : ScanOrder) (db : Db) (specs : List PullAttrSpec) (e : Int64) :
    Prop :=
  ∀ rs, rootRows scan db specs e = .ok rs →
    (pullGraph scan db).Unshared maxRecursionDepth [e] rs

section Flat

variable {scan : ScanOrder} {db : Db} {specs : List PullAttrSpec} {e : Int64}

theorem pullSpecs_flat (hflat : ∀ spec ∈ specs, spec.Flat) (overrides : List String)
    (st : PullState) :
    pullSpecs scan db overrides 0 e st specs =
      pullWildcards scan db (pullComponent scan db maxRecursionDepth) overrides e specs st := by
  induction specs generalizing st with
  | nil => rfl
  | cons spec specs ih =>
    have ih := ih fun spec h => hflat spec (mem_cons_of_mem _ h)
    have hspec : pullSpec scan db overrides 0 e st spec =
        if spec.isWildcard then
          pullWildcardInto scan db (pullComponent scan db maxRecursionDepth) overrides e st
        else .ok st := by
      rcases hflat spec mem_cons_self with hattr | rfl
      · cases spec with
        | «attribute» attr | wildcard => rfl
        | _ => cases hattr
      · rfl
    unfold pullSpecs pullWildcards
    rw [hspec, foldlM_cons]
    exact bind_congr fun st => ih st

theorem pullParsed_flat (hflat : ∀ spec ∈ specs, spec.Flat) :
    pullParsed scan db specs e =
      (pullFlat scan db ((pullGraph scan db).descend maxRecursionDepth) specs e).map Prod.fst := by
  have hexecute : executePull scan db specs 0 e (idOnly e, [e]) =
      pullFlat scan db ((pullGraph scan db).descend maxRecursionDepth) specs e := by
    unfold executePull pullFlat
    rw [← pullComponent_eq]
    exact bind_congr fun st => pullSpecs_flat hflat _ st
  unfold pullParsed
  rw [hexecute]
  cases pullFlat scan db ((pullGraph scan db).descend maxRecursionDepth) specs e with
  | error err | ok st => rfl

end Flat

section Unshared

variable {scan : ScanOrder} {db : Db} {n : Nat} {anc visited : List Int64} {m : JsonObject}

variable {rows : List PullRow} {e : Int64} {overrides : List String}

open TreeExpansion.Graph in
theorem foldlM_pullRow_alike (h : (pullGraph scan db).Clear n anc rows visited) :
    Alike anc ((pullGraph scan db).Visits n anc rows visited)
      (rows.foldlM (pullRow db.cache ((pullGraph scan db).descend n)) (m, visited))
      (rows.foldlM (pullRow db.cache ((pullGraph scan db).descendPath n)) (m, anc)) := by
  rw [foldlM_pullRow scan, foldlM_pullRow scan]
  exact (visitRows_alike (descendsAlike n) h).map _

theorem foldlM_expandPending_alike (hwaits : ∀ row ∈ rows, row.waits anc = true)
    (h : (pullGraph scan db).Clear n anc rows visited) :
    Graph.Alike anc ((pullGraph scan db).Visits n anc rows visited)
      (rows.foldlM (expandPending ((pullGraph scan db).descend n)) (m, visited))
      (rows.foldlM (expandPending ((pullGraph scan db).descendPath n)) (m, anc)) := by
  induction rows generalizing m visited with
  | nil => exact ⟨rfl, Graph.Visits.refl⟩
  | cons row rows ih =>
    have h : (pullGraph scan db).Clear n anc ([row] ++ rows) visited := h
    obtain ⟨id, hid, hnot⟩ : ∃ id, row.component = some id ∧ id ∉ anc := by
      have hrow := hwaits row mem_cons_self
      simpa [PullRow.waits, Option.any_eq_true] using hrow
    have hbelow := Graph.descendsAlike n anc visited row id hid hnot h.left
    rw [foldlM_cons, foldlM_cons]
    simp only [expandPending, hid]
    refine Graph.Alike.bind (hbelow.bind fun sub mid hmid => ⟨rfl, hmid⟩) fun m' mid hmid => ?_
    have hrest := ih (m := m') (fun row h => hwaits row (mem_cons_of_mem _ h)) (h.right hmid)
    exact hrest.imp fun out hout => hmid.append hout

theorem pullForwardAttributes_alike {attrs : List AttrSpec} {asked : List PullRow} (hn : 0 < n)
    (hasked : askedRows scan db attrs e = .ok asked)
    (h : (pullGraph scan db).Clear n anc (waitingRows attrs anc asked) anc) :
    Graph.Alike anc ((pullGraph scan db).Visits n anc (waitingRows attrs anc asked) anc)
      (pullForwardAttributes scan db ((pullGraph scan db).descend n) n attrs e (m, anc))
      (pullForwardAttributes scan db ((pullGraph scan db).descendPath n) n attrs e (m, anc)) := by
  have hwaits : (fun row : PullRow => decide (0 < n) && row.waits anc) = PullRow.waits anc := by
    funext row
    rw [decide_eq_true hn, Bool.true_and]
  unfold pullForwardAttributes
  rw [hasked]
  simp only [hwaits]
  refine Graph.Alike.bind (foldlM_expandPending_alike ?_ h) fun m mid hmid => ⟨rfl, hmid⟩
  intro row hrow
  exact (mem_filter.mp hrow).2

theorem pullWildcardInto_alike (hrows : pullRows scan db e = .ok rows)
    (h : (pullGraph scan db).Clear n anc (rows.filter fun row => row.info.ident ∉ overrides)
      visited) :
    Graph.Alike anc ((pullGraph scan db).Visits n anc
        (rows.filter fun row => row.info.ident ∉ overrides) visited)
      (pullWildcardInto scan db ((pullGraph scan db).descend n) overrides e (m, visited))
      (pullWildcardInto scan db ((pullGraph scan db).descendPath n) overrides e (m, anc)) := by
  unfold pullWildcardInto
  rw [hrows]
  exact foldlM_pullRow_alike h

theorem pullWildcards_alike (hrows : pullRows scan db e = .ok rows) (specs : List PullAttrSpec)
    (h : (pullGraph scan db).Clear n anc ((specs.filter PullAttrSpec.isWildcard).flatMap fun _ =>
      rows.filter fun row => row.info.ident ∉ overrides) visited) :
    Graph.Alike anc (fun _ => True)
      (pullWildcards scan db ((pullGraph scan db).descend n) overrides e specs (m, visited))
      (pullWildcards scan db ((pullGraph scan db).descendPath n) overrides e specs (m, anc)) := by
  induction specs generalizing m visited with
  | nil => exact ⟨rfl, trivial⟩
  | cons spec specs ih =>
    unfold pullWildcards at ih ⊢
    rw [foldlM_cons, foldlM_cons]
    cases hspec : spec.isWildcard with
    | false =>
      rw [filter_cons_of_neg (by rw [hspec]; decide)] at h
      exact ih h
    | true =>
      rw [filter_cons_of_pos hspec, flatMap_cons] at h
      refine Graph.Alike.bind (pullWildcardInto_alike hrows h.left) fun m' mid hmid => ?_
      exact ih (h.right hmid)

theorem expandsByPath_of_unshared {specs : List PullAttrSpec} (hflat : ∀ spec ∈ specs, spec.Flat)
    (hunshared : UnsharedComponents scan db specs e) : ExpandsByPath scan db specs e := by
  intro m hm
  rw [pullParsed_flat hflat] at hm
  obtain ⟨st, hst, rfl⟩ := Unification.map_eq_ok hm
  obtain ⟨_, hattrs, -⟩ := Unification.bind_eq_ok hst
  obtain ⟨_, hforward, -⟩ := Unification.bind_eq_ok hattrs
  obtain ⟨asked, hasked, -⟩ := Unification.bind_eq_ok hforward
  obtain ⟨rows, hrows, -⟩ := Unification.bind_eq_ok hasked
  have hroot : rootRows scan db specs e = .ok (waitingRows (forwardAttrs specs) [e] asked ++
      (specs.filter PullAttrSpec.isWildcard).flatMap fun _ =>
        rows.filter fun row => row.info.ident ∉ overrideIdents specs) := by
    unfold rootRows
    rw [hasked, hrows]
    rfl
  have hclear : (pullGraph scan db).Clear maxRecursionDepth [e] _ [e] :=
    ⟨List.Subset.refl _, hunshared _ hroot, fun x hx p hp => absurd hx hp.notMem⟩
  have halike : Graph.Alike [e] (fun _ => True)
      (pullFlat scan db ((pullGraph scan db).descend maxRecursionDepth) specs e)
      (pullFlat scan db ((pullGraph scan db).descendPath maxRecursionDepth) specs e) := by
    have hforward := pullForwardAttributes_alike (m := idOnly e) (by decide) hasked hclear.left
    refine Graph.Alike.bind (hforward.bind fun m mid hmid => ⟨rfl, hmid⟩) fun m mid hmid => ?_
    exact pullWildcards_alike hrows specs (hclear.right hmid)
  rw [hst] at halike
  unfold pullByPath
  rw [halike.1]
  rfl

end Unshared

/-- An attribute has a key of its own, and under `one` a single live value. -/
structure Db.Legible (db : Db) : Prop where
  ident : KeyUnique SchemaRow.ident db.schema
  named : ∀ row ∈ db.schema, row.ident ≠ ":db/id"
  nodup : db.current.Nodup
  single : ∀ x ∈ db.current, ∀ y ∈ db.current, x.e = y.e ∧ x.a = y.a →
    (∃ info ∈ db.cache.getAttribute x.a, info.cardinality = .one) → x = y
  extractable : ∀ x ∈ db.current, x.v.Extractable

section Legible

variable {scan : ScanOrder} {db : Db} {e : Int64} {rows : List PullRow} {key : String}
  {ms ms' : List (PullRow × Option JsonObject)}

def enteredAt (c : SchemaCache) (key : String) (ms : List (PullRow × Option JsonObject)) :
    List JsonValue :=
  (ms.filter fun rm => rm.1.info.ident = key).map fun rm => rowValue c rm.1 rm.2

theorem enteredAt_cons (c : SchemaCache) (rm : PullRow × Option JsonObject) :
    enteredAt c key (rm :: ms) =
      if rm.1.info.ident = key then rowValue c rm.1 rm.2 :: enteredAt c key ms
      else enteredAt c key ms := by
  unfold enteredAt
  rw [filter_cons]
  by_cases h : rm.1.info.ident = key
  · simp [h]
  · simp [h]

def enterAll (c : SchemaCache) (m : JsonObject) (ms : List (PullRow × Option JsonObject)) :
    JsonObject :=
  ms.foldl (fun m rm => insertValue m rm.1.info (rowValue c rm.1 rm.2)) m

theorem values_enterAll (c : SchemaCache) (m : JsonObject)
    (hmany : ∀ rm ∈ ms, rm.1.info.ident = key → rm.1.info.cardinality = .many) :
    (enterAll c m ms).values key = m.values key ++ enteredAt c key ms := by
  induction ms generalizing m with
  | nil => exact (append_nil _).symm
  | cons rm ms ih =>
    refine (ih _ fun rm h => hmany rm (mem_cons_of_mem _ h)).trans ?_
    rw [enteredAt_cons]
    by_cases hkey : rm.1.info.ident = key
    · subst hkey
      rw [values_insertValue_many (hmany rm mem_cons_self rfl), if_pos rfl, append_assoc]
      rfl
    · rw [if_neg hkey, JsonObject.values, lookup_insertValue_ne (Ne.symm hkey)]
      rfl

theorem lookup_enterAll (c : SchemaCache) (m : JsonObject)
    (hone : ∀ rm ∈ ms, rm.1.info.ident = key → rm.1.info.cardinality = .one) :
    (enterAll c m ms).lookup key = (enteredAt c key ms).getLast?.or (m.lookup key) := by
  induction ms generalizing m with
  | nil => rfl
  | cons rm ms ih =>
    refine (ih (insertValue m rm.1.info (rowValue c rm.1 rm.2)) fun rm h =>
      hone rm (mem_cons_of_mem _ h)).trans ?_
    rw [enteredAt_cons]
    by_cases hkey : rm.1.info.ident = key
    · subst hkey
      have hinsert : insertValue m rm.1.info (rowValue c rm.1 rm.2) =
          m.insert rm.1.info.ident (rowValue c rm.1 rm.2) := by
        rw [insertValue, hone rm mem_cons_self rfl]
      rw [if_pos rfl, hinsert, JsonObject.lookup_insert, if_pos rfl, List.getLast?_cons]
      cases (enteredAt c rm.1.info.ident ms).getLast? with
      | none | some v => rfl
    · rw [if_neg hkey, lookup_insertValue_ne (Ne.symm hkey)]

theorem isSome_lookup_insertValue {m : JsonObject} {info : SchemaRow} {v : JsonValue}
    (h : info.ident = key ∨ (m.lookup key).isSome) :
    ((insertValue m info v).lookup key).isSome := by
  by_cases hkey : key = info.ident
  · subst hkey
    unfold insertValue
    split
    · split <;> rw [JsonObject.lookup_insert, if_pos rfl] <;> rfl
    · rw [JsonObject.lookup_insert, if_pos rfl]
      rfl
  · rw [lookup_insertValue_ne hkey]
    exact h.resolve_left (Ne.symm hkey)

theorem isSome_lookup_enterAll (c : SchemaCache) {m : JsonObject}
    (h : (∃ rm ∈ ms, rm.1.info.ident = key) ∨ (m.lookup key).isSome) :
    ((enterAll c m ms).lookup key).isSome := by
  induction ms generalizing m with
  | nil =>
    rcases h with ⟨rm, hrm, -⟩ | h
    · exact nomatch hrm
    · exact h
  | cons rm ms ih =>
    apply ih
    rcases h with ⟨rm', hrm', hkey⟩ | h
    · rcases mem_cons.mp hrm' with rfl | hrm'
      · exact .inr (isSome_lookup_insertValue (.inl hkey))
      · exact .inl ⟨rm', hrm', hkey⟩
    · exact .inr (isSome_lookup_insertValue (.inr h))

theorem rowValue_of_enteredAt (c : SchemaCache) (hsame : ms.map Prod.fst = ms'.map Prod.fst)
    (h : enteredAt c key ms = enteredAt c key ms') :
    Forall₂ (fun rm rm' => rm.1 = rm'.1 ∧
      (rm.1.info.ident = key → rowValue c rm.1 rm.2 = rowValue c rm'.1 rm'.2)) ms ms' := by
  induction ms generalizing ms' with
  | nil =>
    cases ms' with
    | nil => exact .nil
    | cons rm' ms' => cases hsame
  | cons rm ms ih =>
    cases ms' with
    | nil => cases hsame
    | cons rm' ms' =>
      have hfst : rm.1 = rm'.1 := (List.cons.inj hsame).1
      rw [enteredAt_cons, enteredAt_cons, ← hfst] at h
      by_cases hkey : rm.1.info.ident = key
      · rw [if_pos hkey, if_pos hkey] at h
        have hvalues := List.cons.inj h
        refine .cons ⟨hfst, fun _ => ?_⟩ (ih (List.cons.inj hsame).2 hvalues.2)
        rw [← hfst]
        exact hvalues.1
      · rw [if_neg hkey, if_neg hkey] at h
        exact .cons ⟨hfst, fun h => absurd h hkey⟩ (ih (List.cons.inj hsame).2 h)

theorem length_filterMap_le_one {α β : Type} {f : α → Option β} {l : List α} (hl : l.Nodup)
    (h : ∀ x ∈ l, ∀ y ∈ l, (f x).isSome → (f y).isSome → x = y) : (l.filterMap f).length ≤ 1 := by
  induction l with
  | nil => exact Nat.zero_le 1
  | cons a l ih =>
    obtain ⟨hnot, hl⟩ := nodup_cons.mp hl
    cases hf : f a with
    | none =>
      rw [filterMap_cons_none hf]
      exact ih hl fun x hx y hy => h x (mem_cons_of_mem _ hx) y (mem_cons_of_mem _ hy)
    | some b =>
      have hrest : l.filterMap f = [] := by
        rw [filterMap_eq_nil_iff]
        intro x hx
        by_contra hne
        have hxa := h x (mem_cons_of_mem _ hx) a mem_cons_self
          (Option.isSome_iff_ne_none.mpr hne) (by rw [hf]; rfl)
        exact hnot (hxa ▸ hx)
      rw [filterMap_cons_some hf, hrest]
      exact Nat.le_refl 1

theorem map_pullRows (h : pullRows scan db e = .ok rows) :
    rows.map (fun row => (row.info, row.v)) = wildcardRows scan db e := by
  have hrows := Unification.forall₂_of_mapM_ok h
  generalize wildcardRows scan db e = asked at hrows
  clear h
  induction hrows with
  | nil => rfl
  | cons hrow _ ih =>
    obtain ⟨_, -, hret⟩ := Unification.bind_eq_ok hrow
    cases hret
    rw [map_cons, ih]

theorem Db.Legible.length_le_one (h : db.Legible) (hrows : pullRows scan db e = .ok rows)
    (hone : ∀ row ∈ rows, row.info.ident = key → row.info.cardinality = .one) :
    (rows.filter fun row => row.info.ident = key).length ≤ 1 := by
  have hlength : (rows.filter fun row => row.info.ident = key).length =
      ((wildcardRows scan db e).filter fun w => w.1.ident = key).length := by
    rw [← map_pullRows hrows, filter_map, length_map]
    rfl
  have hcard : ∀ w ∈ wildcardRows scan db e, w.1.ident = key → w.1.cardinality = .one := by
    intro w hw hkey
    rw [← map_pullRows hrows] at hw
    obtain ⟨row, hrow, rfl⟩ := mem_map.mp hw
    exact hone row hrow hkey
  rw [hlength]
  unfold wildcardRows
  rw [((perm_insertionSort _ _).filter _).length_eq, filter_filterMap]
  apply length_filterMap_le_one
  · have hscan : (scan.current db.current).Nodup := (scan.current_perm _).nodup_iff.mpr h.nodup
    rw [nodup_flatMap]
    refine ⟨fun t _ => hscan.filter _, ?_⟩
    have hall : ValueType.all.Nodup := by decide
    refine hall.imp fun {t t'} hne r hr hr' => hne ?_
    have ht := (mem_filter.mp hr).2
    have ht' := (mem_filter.mp hr').2
    simp only [decide_eq_true_eq] at ht ht'
    rw [← ht.1, ht'.1]
  · intro x hx y hy hxs hys
    have hfound {x : CurrentRow} (hx : x ∈ ValueType.all.flatMap fun t =>
          (scan.current db.current).filter fun r => r.v.valueType = t ∧ r.e = e)
        (hxs : (Option.filter (fun w : SchemaRow × TypedValue => decide (w.1.ident = key))
          ((db.cache.getAttribute x.a).map fun info => (info, x.v))).isSome) :
        x ∈ db.current ∧ x.e = e ∧
          ∃ info, db.cache.getAttribute x.a = some info ∧ info.ident = key := by
      obtain ⟨t, -, hx⟩ := mem_flatMap.mp hx
      obtain ⟨hx, hxe⟩ := mem_filter.mp hx
      rw [decide_eq_true_eq] at hxe
      refine ⟨(scan.current_perm _).mem_iff.mp hx, hxe.2, ?_⟩
      cases hinfo : db.cache.getAttribute x.a with
      | none =>
        rw [hinfo] at hxs
        cases hxs
      | some info =>
        rw [hinfo] at hxs
        refine ⟨info, rfl, ?_⟩
        by_contra hne
        simp [Option.filter, hne] at hxs
    obtain ⟨hx, hxe, info, hinfo, hkey⟩ := hfound hx hxs
    obtain ⟨hy, hye, info', hinfo', hkey'⟩ := hfound hy hys
    obtain ⟨hmem, hentid⟩ := SchemaCache.mem_of_getAttribute hinfo
    obtain ⟨hmem', hentid'⟩ := SchemaCache.mem_of_getAttribute hinfo'
    have hsame : info = info' := h.ident _ hmem _ hmem' (hkey.trans hkey'.symm)
    subst hsame
    refine h.single x hx y hy ⟨hxe.trans hye.symm, hentid.symm.trans hentid'⟩ ⟨info, hinfo, ?_⟩
    exact hcard (info, x.v) (mem_wildcardRows.mpr ⟨x, hx, hxe, hinfo, rfl⟩) hkey

theorem info_mem (hrows : pullRows scan db e = .ok rows) {row : PullRow}
    (hrow : row ∈ rows) : row.info ∈ db.schema := by
  have hmem : (row.info, row.v) ∈ wildcardRows scan db e := by
    rw [← map_pullRows hrows]
    exact mem_map.mpr ⟨row, hrow, rfl⟩
  obtain ⟨x, -, -, hattr, -⟩ := mem_wildcardRows.mp hmem
  exact (SchemaCache.mem_of_getAttribute hattr).1

theorem rowValue_inj (c : SchemaCache) (row : PullRow) {sub sub' : Option JsonObject}
    (hsome : sub.isSome = sub'.isSome) (h : rowValue c row sub = rowValue c row sub') :
    sub = sub' := by
  cases sub with
  | none =>
    cases sub' with
    | none => rfl
    | some m => cases hsome
  | some m =>
    cases sub' with
    | none => cases hsome
    | some m' => rw [show m = m' from JsonValue.object.inj h]

theorem eq_of_getLast?_eq {α : Type} {l l' : List α} (hl : l.length ≤ 1) (hl' : l'.length ≤ 1)
    (h : l.getLast? = l'.getLast?) : l = l' := by
  match l, l' with
  | [], [] => rfl
  | [], [b] => cases h
  | [a], [] => cases h
  | [a], [b] => rw [show a = b from Option.some.inj h]
  | a :: a' :: l, _ => simp at hl
  | _, b :: b' :: l' => simp at hl'

theorem map_fst_of_fits (h : (pullGraph scan db).Fits rows ms) : ms.map Prod.fst = rows := by
  induction h with
  | nil => rfl
  | cons hrow _ ih => rw [map_cons, ih, hrow.1]

theorem Db.Legible.enteredAt_eq (h : db.Legible) (hrows : pullRows scan db e = .ok rows)
    (hms : ms.map Prod.fst = rows) (hms' : ms'.map Prod.fst = rows)
    (heq : enterAll db.cache (idOnly e) ms = enterAll db.cache (idOnly e) ms')
    {row : PullRow} (hrow : row ∈ rows) :
    enteredAt db.cache row.info.ident ms = enteredAt db.cache row.info.ident ms' := by
  have hcard {ms : List (PullRow × Option JsonObject)} (hms : ms.map Prod.fst = rows) :
      ∀ rm ∈ ms, rm.1.info.ident = row.info.ident →
        rm.1.info.cardinality = row.info.cardinality := by
    intro rm hrm hkey
    have hrm : rm.1 ∈ rows := hms ▸ mem_map.mpr ⟨rm, hrm, rfl⟩
    rw [h.ident _ (info_mem hrows hrm) _ (info_mem hrows hrow) hkey]
  have hnamed := h.named _ (info_mem hrows hrow)
  cases hkind : row.info.cardinality with
  | many =>
    rw [hkind] at hcard
    have hvalues := congrArg (JsonObject.values · row.info.ident) heq
    simp only [values_enterAll db.cache _ (hcard hms), values_enterAll db.cache _ (hcard hms')]
      at hvalues
    exact append_cancel_left hvalues
  | one =>
    rw [hkind] at hcard
    have hshort {ms : List (PullRow × Option JsonObject)} (hms : ms.map Prod.fst = rows) :
        (enteredAt db.cache row.info.ident ms).length ≤ 1 := by
      have hlength : (enteredAt db.cache row.info.ident ms).length =
          (rows.filter fun r => r.info.ident = row.info.ident).length := by
        rw [enteredAt, length_map, ← hms, filter_map, length_map]
        rfl
      rw [hlength]
      apply h.length_le_one hrows
      intro r hr hkey
      rw [h.ident _ (info_mem hrows hr) _ (info_mem hrows hrow) hkey, hkind]
    have hnone : (idOnly e).lookup row.info.ident = none := by
      rw [idOnly, JsonObject.lookup_cons, if_neg hnamed]
      rfl
    have hlookup := congrArg (fun m : JsonObject => m.lookup row.info.ident) heq
    simp only [lookup_enterAll db.cache _ (hcard hms), lookup_enterAll db.cache _ (hcard hms'),
      hnone, Option.or_none] at hlookup
    exact eq_of_getLast?_eq (hshort hms) (hshort hms') hlookup

theorem Db.Legible.discerning (h : db.Legible) : (pullGraph scan db).Discerning := by
  constructor
  · intro e rows ms ms' hrows hfits hfits' heq
    have hrows : pullRows scan db e = .ok rows := hrows
    have hms := map_fst_of_fits hfits
    have hms' := map_fst_of_fits hfits'
    have hlength : ms.length = ms'.length := hfits.length_eq.symm.trans hfits'.length_eq
    apply ext_get hlength
    intro k hk hk'
    -- at every row compare what is entered under its key
    have hrow : ms[k].1 ∈ rows := hms ▸ mem_map.mpr ⟨ms[k], getElem_mem hk, rfl⟩
    have hentered := h.enteredAt_eq hrows hms hms' heq hrow
    have hvalue := (rowValue_of_enteredAt db.cache (hms.trans hms'.symm) hentered).get hk hk'
    have hk0 : k < rows.length := by
      rw [hfits.length_eq]
      exact hk
    have hsome := hfits.get hk0 hk
    have hsome' := hfits'.get hk0 hk'
    refine Prod.ext hvalue.1 (rowValue_inj db.cache ms[k].1 ?_ ?_)
    · rw [hsome.2, hsome'.2]
    · refine (hvalue.2 rfl).trans ?_
      rw [← hvalue.1]
      rfl
  · intro e rows ms hrows hfits heq
    have hrows : pullRows scan db e = .ok rows := hrows
    have hms := map_fst_of_fits hfits
    by_contra hne
    obtain ⟨row, hrow⟩ := exists_mem_of_ne_nil rows hne
    obtain ⟨rm, hrm, rfl⟩ := mem_map.mp (hms ▸ hrow)
    have hlookup : ((enterAll db.cache (idOnly e) ms).lookup rm.1.info.ident).isSome :=
      isSome_lookup_enterAll db.cache (.inl ⟨rm, hrm, rfl⟩)
    have heq : enterAll db.cache (idOnly e) ms = idOnly e := heq
    rw [heq, idOnly, JsonObject.lookup_cons, if_neg (h.named _ (info_mem hrows hrow))] at hlookup
    cases hlookup

end Legible

section Wildcard

variable {scan : ScanOrder} {db : Db} {e : Int64}

variable {rows : List PullRow}

theorem askedRows_nil (hrows : pullRows scan db e = .ok rows) :
    askedRows scan db [] e = .ok [] := by
  unfold askedRows
  rw [hrows]
  exact congrArg Except.ok (filter_eq_nil_iff.mpr fun row _ => by simp)

theorem pullAttributes_of_no_attrs (below : List Int64 → Int64 → Except String PullState) (n : Nat)
    (st : PullState) {specs : List PullAttrSpec} (hspecs : specs.filterMap PullAttrSpec.attr? = [])
    (hrows : pullRows scan db e = .ok rows) :
    pullAttributes scan db below n specs e st = .ok st := by
  unfold pullAttributes pullForwardAttributes forwardAttrs reverseAttrs
  rw [hspecs, filter_nil, askedRows_nil hrows]
  rfl

theorem filter_noOverrides (rows : List PullRow) :
    (rows.filter fun row => row.info.ident ∉ overrideIdents [.wildcard]) = rows := by
  rw [filter_eq_self]
  intro row _
  simp [overrideIdents, PullAttrSpec.forwardIdent]

theorem pullFlat_wildcard (below : List Int64 → Int64 → Except String PullState)
    (hrows : pullRows scan db e = .ok rows) :
    pullFlat scan db below [.wildcard] e = (pullGraph scan db).expandNode below [e] e := by
  rw [← pullEntity_eq]
  unfold pullEntity pullFlat
  rw [pullAttributes_of_no_attrs below _ _ rfl hrows, hrows]
  show (pullWildcardInto scan db below (overrideIdents [.wildcard]) e (idOnly e, [e]) >>= _) = _
  unfold pullWildcardInto
  rw [hrows]
  show (List.foldlM _ _ (List.filter _ rows) >>= _) = List.foldlM _ _ rows
  rw [filter_noOverrides]
  exact bind_pure _

theorem rootRows_wildcard (hrows : pullRows scan db e = .ok rows) :
    rootRows scan db [.wildcard] e = .ok rows := by
  unfold rootRows
  rw [show forwardAttrs [.wildcard] = [] from rfl, askedRows_nil hrows, hrows]
  refine congrArg Except.ok ?_
  show List.filter _ rows ++ [] = rows
  rw [filter_noOverrides, append_nil]

theorem unshared_of_expandsByPath (hlegible : db.Legible)
    (h : ExpandsByPath scan db [.wildcard] e) : UnsharedComponents scan db [.wildcard] e := by
  intro rs hrs
  obtain ⟨rows, hrows, -⟩ := pullRows_ok scan e hlegible.extractable
  cases (rootRows_wildcard hrows).symm.trans hrs
  have hflat : ∀ spec ∈ [PullAttrSpec.wildcard], spec.Flat := by
    intro spec hspec
    exact .inr (mem_singleton.mp hspec)
  obtain ⟨m, hm, -⟩ := mentatPullAll_ok scan e hlegible.ident hlegible.named hlegible.extractable
  have hthreaded : ((pullGraph scan db).expandNode
      ((pullGraph scan db).descend maxRecursionDepth) [e] e).map Prod.fst = .ok m := by
    rw [← pullWildcard_eq, ← hm]
    unfold mentatPullAll
    cases pullWildcard scan db maxRecursionDepth [e] e with
    | error err | ok st => rfl
  have hpath : ((pullGraph scan db).expandNode
      ((pullGraph scan db).descendPath maxRecursionDepth) [e] e).map Prod.fst = .ok m := by
    rw [← pullFlat_wildcard _ hrows]
    apply h m
    rw [pullParsed_flat hflat, pullFlat_wildcard _ hrows]
    exact hthreaded
  exact (Graph.expandNode_eq_iff hrows).2 hlegible.discerning m hthreaded hpath

theorem descendPath_pulledEntity (hlegible : db.Legible) (n : Nat) (path : List Int64)
    (id : Int64) :
    ∃ m, (pullGraph scan db).descendPath (n + 1) path id = .ok (m, path) ∧
      PulledEntity db id m := by
  have hbelow : ∀ n path id, ∃ st, (pullGraph scan db).descendPath n path id = .ok st ∧
      st.1.lookup ":db/id" = some (.integer id) ∧ (0 < n → PulledEntity db id st.1) := by
    intro n
    induction n with
    | zero =>
      intro path id
      refine ⟨(idOnly id, path), rfl, ?_, fun h => absurd h (Nat.lt_irrefl 0)⟩
      rw [idOnly, JsonObject.lookup_cons, if_pos rfl]
    | succ n ih =>
      intro path id
      have hentity : ∃ st, pullEntity scan db ((pullGraph scan db).descendPath n) (id :: path) id =
          .ok st ∧ PulledEntity db id st.1 :=
        pullEntity_ok hlegible.ident hlegible.named hlegible.extractable
          (fun visited id => (ih visited id).imp fun st h => ⟨h.1, h.2.1⟩) (id :: path) id
      obtain ⟨st, hst, hpulled⟩ := hentity
      refine ⟨(st.1, path), ?_, hpulled.id, fun _ => hpulled⟩
      rw [pullEntity_eq] at hst
      unfold Graph.descendPath
      rw [hst]
      rfl
  obtain ⟨⟨m, path'⟩, hm, -, hpulled⟩ := hbelow (n + 1) path id
  cases Graph.descendPath_path hm
  exact ⟨m, hm, hpulled (Nat.succ_pos n)⟩

end Wildcard

/-- In a pull of attributes and wildcards every component is shown by the way on which it is reached
if none with live attributes is reached in two ways. For the wildcard alone this is necessary too,
where the values of an object can be told apart. A component that is expanded by its way has all
live values. -/
theorem expandsByPath_iff_unshared (scan : ScanOrder) (db : Db) {specs : List PullAttrSpec}
    (hflat : ∀ spec ∈ specs, spec.Flat) (e : Int64) :
    (UnsharedComponents scan db specs e → ExpandsByPath scan db specs e) ∧
    (db.Legible → specs = [.wildcard] → ExpandsByPath scan db specs e →
      UnsharedComponents scan db specs e) ∧
    (db.Legible → ∀ n path id, ∃ m,
      (pullGraph scan db).descendPath (n + 1) path id = .ok (m, path) ∧ PulledEntity db id m) := by
  refine ⟨expandsByPath_of_unshared hflat, ?_, fun h n path id => ?_⟩
  · rintro hlegible rfl h
    exact unshared_of_expandsByPath hlegible h
  · exact descendPath_pulledEntity h n path id

/-- An order and a line that refer to each other. -/
theorem expandsByPath_iff_unshared_cycle :
    ∃ db, stateAfter [defineLine, addLine] = some db ∧ ExpandsByPath .heap db [.wildcard] 500 := by
  have hstate : ∃ db, stateAfter [defineLine, addLine] = some db ∧
      (∃ rows, pullRows .heap db 500 = .ok rows ∧ rows.map PullRow.component = [some 600]) ∧
      ∀ lines, pullRows .heap db 600 = .ok lines → ∀ row ∈ lines, ∀ d ∈ row.component, d = 500 := by
    decide +kernel
  obtain ⟨db, hdb, ⟨rows, hrows, hcomponents⟩, hback⟩ := hstate
  have hflat : ∀ spec ∈ [PullAttrSpec.wildcard], spec.Flat := by
    intro spec hspec
    exact .inr (mem_singleton.mp hspec)
  refine ⟨db, hdb, (expandsByPath_iff_unshared .heap db hflat 500).1 fun rs hrs => ?_⟩
  obtain rfl : rows = rs := Except.ok.inj ((rootRows_wildcard hrows).symm.trans hrs)
  -- the only way leads to the line, from which only the order is reached
  have honly : ∀ p x, (pullGraph .heap db).LeadsFrom maxRecursionDepth [500] rows p x →
      p = [0] := by
    rintro (_ | ⟨i, p⟩) x hp
    · exact hp.elim
    · obtain ⟨row, id, hrow, hid, -, hp⟩ := hp
      have hget : (rows.map PullRow.component)[i]? = some (some id) := by
        rw [List.getElem?_map, hrow]
        exact congrArg some hid
      rw [hcomponents] at hget
      obtain rfl : i = 0 := by
        by_contra hi
        rw [List.getElem?_eq_none (by simp only [length_singleton]; omega)] at hget
        cases hget
      cases hget
      cases p with
      | nil => rfl
      | cons j p =>
        obtain ⟨lines, row', d, hlines, hrow', hd, hnot, -⟩ := hp
        rw [hback lines hlines row' (mem_of_getElem? hrow') d hd] at hnot
        exact absurd (by decide) hnot
  intro p q x hp hq _
  rw [honly p x hp, honly q x hq]

/-- A line that belongs to the order and to another line of it. -/
def shareLine : Call :=
  plainCall 1000000000002 1735689602000000
    [addDatom 500 1000001 (.integer 600), addDatom 500 1000001 (.integer 700),
     addDatom 600 1000001 (.integer 700), addDatom 700 Entids.dbDoc (.text "shared")]

def shownLines (m : JsonObject) : List (Option Int64 × Option String) :=
  (m.values ":order/line").map fun line =>
    ((line.get? ":db/id").bind JsonValue.asI64, (line.get? ":db/doc").bind JsonValue.asStr)

/-- The line is expanded below the other line, and not below the order. -/
theorem not_expandsByPath_shared :
    ∃ db m m', stateAfter [defineLine, shareLine] = some db ∧
      pullParsed .heap db [.wildcard] 500 = .ok m ∧
      shownLines m = [(some 600, none), (some 700, none)] ∧
      pullByPath .heap db [.wildcard] 500 = .ok m' ∧
      shownLines m' = [(some 600, none), (some 700, some "shared")] ∧
      ¬ ExpandsByPath .heap db [.wildcard] 500 := by
  have hstate : ∃ db, stateAfter [defineLine, shareLine] = some db ∧
      ∃ m, pullParsed .heap db [.wildcard] 500 = .ok m ∧
        shownLines m = [(some 600, none), (some 700, none)] ∧
      ∃ m', pullByPath .heap db [.wildcard] 500 = .ok m' ∧
        shownLines m' = [(some 600, none), (some 700, some "shared")] := by
    decide +kernel
  obtain ⟨db, hdb, m, hm, hlines, m', hm', hlines'⟩ := hstate
  refine ⟨db, m, m', hdb, hm, hlines, hm', hlines', fun h => ?_⟩
  cases (h m hm).symm.trans hm'
  rw [hlines] at hlines'
  exact absurd hlines' (by decide)

end PgMentat

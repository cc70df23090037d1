import PgMentat.Lib.Unification
import PgMentat.Read.Entity
import Mathlib.Data.List.Sort
import Mathlib.Data.String.Basic

namespace PgMentat

open List TextCodec Depiction KeyedTable

/-- `decode_row_typed_value`. -/
def decodeRowTypedValue : TypedValue → Except String JsonValue
  | .ref id => .ok (.integer id)
  | .boolean b => .ok (.scalar (.bool b))
  | .long n => .ok (.integer n)
  | .double f => .ok (.scalar (.ofF64 f))
  | .text s => .ok (.string s)
  | .keyword s => .ok (.string (":" ++ s))
  | .instant micros => do
    let n ← extractMicros micros
    return .integer n
  | .uuid u => .ok (.string (String.ofList u.chars))
  | .bytes bs => .ok (.string (String.ofList (hexEncode bs)))

/-- A row of the wildcard statement: the attribute it is joined with, the value, and its JSON. -/
structure PullRow where
  info : SchemaRow
  v : TypedValue
  decoded : JsonValue

/-- The live rows of the entity, ordered by ident. -/
def wildcardRows (scan : ScanOrder) (db : Db) (e : Int64) : List (SchemaRow × TypedValue) :=
  let rows := ValueType.all.flatMap fun t =>
    (scan.current db.current).filter fun r => r.v.valueType = t ∧ r.e = e
  (rows.filterMap fun r => (db.cache.getAttribute r.a).map fun info => (info, r.v)).insertionSort
    fun x y => x.1.ident ≤ y.1.ident

def pullRows (scan : ScanOrder) (db : Db) (e : Int64) : Except String (List PullRow) :=
  (wildcardRows scan db e).mapM fun row => do
    let decoded ← decodeRowTypedValue row.2
    return { info := row.1, v := row.2, decoded }

/-- `insert_value`: an array for `many`, the last value for `one`. -/
def insertValue (m : JsonObject) (info : SchemaRow) (v : JsonValue) : JsonObject :=
  match info.cardinality with
  | .many =>
    match m.lookup info.ident with
    | some (.array items) => m.insert info.ident (.array (items ++ [v]))
    | some existing => m.insert info.ident (.array [existing, v])
    | none => m.insert info.ident (.array [v])
  | .one => m.insert info.ident v

abbrev PullState := JsonObject × List Int64

/-- One row; `descend` pulls a component that has not been visited. -/
def pullRow (c : SchemaCache) (descend : List Int64 → Int64 → Except String PullState)
    (st : PullState) (row : PullRow) : Except String PullState :=
  match row.v with
  | .ref id =>
    if row.info.component then do
      let (sub, visited) ←
        if id ∈ st.2 then .ok ([(":db/id", .integer id)], st.2) else descend st.2 id
      return (insertValue st.1 row.info (.object sub), visited)
    else .ok (insertValue st.1 row.info (refJson c id), st.2)
  | _ => .ok (insertValue st.1 row.info row.decoded, st.2)

/-- The rows of one entity, entered into an object that has its id. -/
def pullEntity (scan : ScanOrder) (db : Db)
    (descend : List Int64 → Int64 → Except String PullState) (visited : List Int64) (e : Int64) :
    Except String PullState := do
  let rows ← pullRows scan db e
  rows.foldlM (pullRow db.cache descend) ([(":db/id", .integer e)], visited)

/-- `pull_wildcard`, by the number of levels that are left. -/
def pullWildcard (scan : ScanOrder) (db : Db) : Nat → List Int64 → Int64 → Except String PullState
  | 0 =>
    -- at the limit a component is shown by its id, and does not count as visited
    pullEntity scan db fun visited id => .ok ([(":db/id", .integer id)], visited)
  | levels + 1 =>
    pullEntity scan db fun visited id => pullWildcard scan db levels (id :: visited) id

/-- `MAX_RECURSION_DEPTH`. -/
def maxRecursionDepth : Nat := 100

def mentatPullAll (scan : ScanOrder) (db : Db) (e : Int64) : Except String JsonObject := do
  let (m, _) ← pullWildcard scan db maxRecursionDepth [e] e
  return m

variable {m : JsonObject} {info : SchemaRow} {v : JsonValue}

theorem values_insertValue_many (hmany : info.cardinality = .many) :
    (insertValue m info v).values info.ident = m.values info.ident ++ [v] := by
  simp only [insertValue, hmany]
  split
  · rename_i items hlookup
    rw [JsonObject.values_insert_array, JsonObject.values, hlookup]
  · rename_i existing hnot hlookup
    rw [JsonObject.values_insert_array, JsonObject.values, hlookup]
    cases existing with
    | array items => exact absurd rfl (hnot items)
    | _ => rfl
  · rename_i hlookup
    rw [JsonObject.values_insert_array, JsonObject.values, hlookup]
    rfl

theorem lookup_insertValue_ne {key : String} (h : key ≠ info.ident) :
    (insertValue m info v).lookup key = m.lookup key := by
  have hne (w : JsonValue) : (m.insert info.ident w).lookup key = m.lookup key := by
    rw [JsonObject.lookup_insert, if_neg h]
  unfold insertValue
  split
  · split <;> exact hne _
  · exact hne _

section Pull

variable {scan : ScanOrder} {db : Db} {e : Int64}

variable {v : TypedValue} {descend : List Int64 → Int64 → Except String PullState} {row : PullRow}

theorem mem_wildcardRows {info : SchemaRow} :
    (info, v) ∈ wildcardRows scan db e ↔
      ∃ x ∈ db.current, x.e = e ∧ db.cache.getAttribute x.a = some info ∧ x.v = v := by
  simp only [wildcardRows, mem_insertionSort, mem_filterMap, mem_flatMap,
    mem_filter, decide_eq_true_eq, Option.map_eq_some_iff, Prod.mk.injEq,
    (scan.current_perm _).mem_iff]
  constructor
  · rintro ⟨x, ⟨t, -, hx, -, he⟩, info', hattr, rfl, hv⟩
    exact ⟨x, hx, he, hattr, hv⟩
  · rintro ⟨x, hx, he, hattr, hv⟩
    exact ⟨x, ⟨x.v.valueType, ValueType.mem_all _, hx, rfl, he⟩, info, hattr, rfl, hv⟩

theorem decodeRowTypedValue_ok (h : v.Extractable) : ∃ j, decodeRowTypedValue v = .ok j := by
  cases v with
  | instant micros =>
    obtain ⟨n, hn, -⟩ := extractMicros_of_extractable h
    refine ⟨.integer n, ?_⟩
    simp only [decodeRowTypedValue, hn]
    rfl
  | _ => exact ⟨_, rfl⟩

theorem pullRows_ok (scan : ScanOrder) (e : Int64)
    (hextract : ∀ x ∈ db.current, x.v.Extractable) :
    ∃ rows, pullRows scan db e = .ok rows ∧
      (∀ row ∈ rows, decodeRowTypedValue row.v = .ok row.decoded ∧
        (row.info, row.v) ∈ wildcardRows scan db e) ∧
      ∀ w ∈ wildcardRows scan db e, ∃ row ∈ rows, row.info = w.1 ∧ row.v = w.2 := by
  have hok : ∀ w ∈ wildcardRows scan db e, ∃ row : PullRow,
      (do let decoded ← decodeRowTypedValue w.2
          return { info := w.1, v := w.2, decoded } : Except String PullRow) = .ok row := by
    intro w hw
    obtain ⟨x, hx, -, -, hv⟩ := mem_wildcardRows.mp hw
    obtain ⟨j, hj⟩ := decodeRowTypedValue_ok (hv ▸ hextract x hx)
    exact ⟨⟨w.1, w.2, j⟩, by rw [hj]; rfl⟩
  obtain ⟨rows, hrows, hfrom, hto⟩ := mapM_ok hok
  have hrow {w : SchemaRow × TypedValue} {row : PullRow}
      (h : (do let decoded ← decodeRowTypedValue w.2
               return { info := w.1, v := w.2, decoded } : Except String PullRow) = .ok row) :
      decodeRowTypedValue row.v = .ok row.decoded ∧ (row.info, row.v) = w := by
    obtain ⟨j, hj, hret⟩ := Unification.bind_eq_ok h
    cases hret
    exact ⟨hj, rfl⟩
  refine ⟨rows, hrows, fun row hmem => ?_, fun w hw => ?_⟩
  · obtain ⟨w, hw, h⟩ := hfrom row hmem
    exact ⟨(hrow h).1, (hrow h).2 ▸ hw⟩
  · obtain ⟨row, hmem, h⟩ := hto w hw
    exact ⟨row, hmem, congrArg Prod.fst (hrow h).2, congrArg Prod.snd (hrow h).2⟩

theorem pullRow_ok (c : SchemaCache)
    (hdescend : ∀ visited id, ∃ st, descend visited id = .ok st ∧
      st.1.lookup ":db/id" = some (.integer id))
    (st : PullState) (hrow : decodeRowTypedValue row.v = .ok row.decoded) :
    ∃ j visited, pullRow c descend st row = .ok (insertValue st.1 row.info j, visited) ∧
      j.Single ∧ (row.v.Exact → Shows c j row.v) := by
  obtain ⟨info, v, decoded⟩ := row
  unfold pullRow
  cases v with
  | ref id =>
    by_cases hcomp : info.component = true
    · simp only [hcomp, if_true]
      by_cases hvisited : id ∈ st.2
      · refine ⟨.object [(":db/id", .integer id)], st.2, ?_, trivial, fun _ => .inr ⟨_, rfl, ?_⟩⟩
        · rw [if_pos hvisited]
          rfl
        · rw [JsonObject.lookup_cons, if_pos rfl]
      · obtain ⟨⟨sub, visited⟩, hsub, hid⟩ := hdescend st.2 id
        refine ⟨.object sub, visited, ?_, trivial, fun _ => .inr ⟨sub, rfl, hid⟩⟩
        rw [if_neg hvisited, hsub]
        rfl
    · refine ⟨refJson c id, st.2, if_neg hcomp, refJson_single _ _, fun _ => .inl rfl⟩
  | instant micros =>
    simp only [decodeRowTypedValue] at hrow
    obtain ⟨n, hn, hret⟩ := Unification.bind_eq_ok hrow
    cases hret
    refine ⟨.integer n, st.2, rfl, trivial, fun hexact => ?_⟩
    change (extractMicros micros).toOption = some micros at hexact
    rw [hn] at hexact
    exact congrArg JsonValue.integer (Option.some.inj hexact)
  | double f =>
    cases hrow
    exact ⟨.scalar (.ofF64 f), st.2, rfl, trivial, fun hexact => congrArg JsonValue.scalar hexact⟩
  | _ =>
    cases hrow
    exact ⟨_, st.2, rfl, trivial, fun _ => rfl⟩

/-- What an object holds once some rows have been entered into it: values of a single-valued
attribute must be one for all of them to be there. -/
def Pulled (db : Db) (rows done : List PullRow) (m : JsonObject) : Prop :=
  ∀ info, info ∈ db.schema → (∀ r ∈ rows, r.info = info → r.v.Exact) →
    (info.cardinality = .one → ∀ r ∈ rows, ∀ r' ∈ rows, r.info = info → r'.info = info →
      r.v = r'.v) →
    Depicts (Shows db.cache) (m.values info.ident) fun v => ∃ r ∈ done, r.info = info ∧ r.v = v

theorem Pulled.step {rows done : List PullRow} {m : JsonObject} {j : JsonValue}
    (hident : KeyUnique SchemaRow.ident db.schema) (h : Pulled db rows done m)
    (hdone : ∀ r ∈ done, r ∈ rows) (hrow : row ∈ rows) (hmem : row.info ∈ db.schema)
    (hsingle : j.Single) (hshows : row.v.Exact → Shows db.cache j row.v) :
    Pulled db rows (done ++ [row]) (insertValue m row.info j) := by
  intro info hinfo hexact hone
  have hsnoc (v : TypedValue) : (∃ r ∈ done ++ [row], r.info = info ∧ r.v = v) ↔
      (∃ r ∈ done, r.info = info ∧ r.v = v) ∨ row.info = info ∧ row.v = v := by
    simp only [mem_append, mem_singleton, or_and_right, exists_or, exists_eq_left]
  by_cases heq : row.info = info
  · subst heq
    have hj := hshows (hexact row hrow rfl)
    cases hcard : row.info.cardinality with
    | many =>
      rw [values_insertValue_many hcard]
      refine ((h row.info hinfo hexact hone).snoc hj).congr fun v => ?_
      rw [hsnoc, eq_comm (a := v), and_iff_right rfl]
    | one =>
      -- the last value wins, and every row of the attribute has this value
      have hvalues : (insertValue m row.info j).values row.info.ident = [j] := by
        simp only [insertValue, hcard]
        exact JsonObject.values_insert hsingle
      rw [hvalues]
      refine (Depicts.single hj).congr fun v => ?_
      rw [hsnoc]
      constructor
      · intro hv
        exact .inr ⟨rfl, hv.symm⟩
      · rintro (⟨r, hr, hrinfo, rfl⟩ | ⟨-, rfl⟩)
        · exact hone hcard r (hdone r hr) row hrow hrinfo rfl
        · rfl
  · have hne : info.ident ≠ row.info.ident := fun hsame => heq (hident _ hmem _ hinfo hsame.symm)
    rw [JsonObject.values, lookup_insertValue_ne hne]
    refine (h info hinfo hexact hone).congr fun v => ?_
    rw [hsnoc, or_iff_left fun hv => heq hv.1]

/-- The object of one entity shows, under every attribute, what the projection holds. -/
structure PulledEntity (db : Db) (e : Int64) (m : JsonObject) : Prop where
  id : m.lookup ":db/id" = some (.integer e)
  values : ∀ a info, db.cache.getAttribute a = some info →
    (∀ x ∈ db.current, x.e = e → x.a = a → x.v.Exact) →
    (info.cardinality = .one → ∀ x ∈ db.current, ∀ y ∈ db.current, x.e = e → x.a = a →
      y.e = e → y.a = a → x.v = y.v) →
    Depicts (Shows db.cache) (m.values info.ident) fun v =>
      ∃ x ∈ db.current, x.e = e ∧ x.a = a ∧ x.v = v

theorem pullEntity_ok (hident : KeyUnique SchemaRow.ident db.schema)
    (hnamed : ∀ row ∈ db.schema, row.ident ≠ ":db/id")
    (hextract : ∀ x ∈ db.current, x.v.Extractable)
    (hdescend : ∀ visited id, ∃ st, descend visited id = .ok st ∧
      st.1.lookup ":db/id" = some (.integer id))
    (visited : List Int64) (e : Int64) :
    ∃ st, pullEntity scan db descend visited e = .ok st ∧ PulledEntity db e st.1 := by
  obtain ⟨rows, hrows, hfrom, hto⟩ := pullRows_ok scan e hextract
  have hschema : ∀ row ∈ rows, row.info ∈ db.schema := by
    intro row hrow
    obtain ⟨x, -, -, hattr, -⟩ := mem_wildcardRows.mp (hfrom row hrow).2
    exact (SchemaCache.mem_of_getAttribute hattr).1
  -- the invariant of the loop over the rows
  have hfold : ∃ st, rows.foldlM (pullRow db.cache descend) ([(":db/id", .integer e)], visited) =
      .ok st ∧ st.1.lookup ":db/id" = some (.integer e) ∧ Pulled db rows rows st.1 ∧
        ∀ r ∈ rows, r ∈ rows := by
    apply foldlM_ok (I := fun (done : List PullRow) (st : PullState) =>
      st.1.lookup ":db/id" = some (JsonValue.integer e) ∧ Pulled db rows done st.1 ∧
        ∀ r ∈ done, r ∈ rows)
    · refine ⟨by rw [JsonObject.lookup_cons, if_pos rfl], fun info hinfo _ _ => ?_, by simp⟩
      rw [values_idOnly (hnamed info hinfo)]
      apply Depicts.nil
      rintro v ⟨r, hr, -⟩
      exact nomatch hr
    · rintro done row st hrow ⟨hid, hpulled, hdone⟩
      obtain ⟨j, visited', hstep, hsingle, hshows⟩ :=
        pullRow_ok db.cache hdescend st (hfrom row hrow).1
      refine ⟨_, hstep, ?_, ?_, ?_⟩
      · rw [lookup_insertValue_ne (hnamed _ (hschema row hrow)).symm, hid]
      · exact hpulled.step hident hdone hrow (hschema row hrow) hsingle hshows
      · intro r hr
        rcases mem_append.mp hr with hr | hr
        · exact hdone r hr
        · exact mem_singleton.mp hr ▸ hrow
  obtain ⟨st, hst, hid, hpulled, -⟩ := hfold
  refine ⟨st, by rw [pullEntity, hrows]; exact hst, hid, fun a info ha hexact hone => ?_⟩
  -- the rows of an attribute are the live values of the entity
  have hrow (v : TypedValue) : (∃ r ∈ rows, r.info = info ∧ r.v = v) ↔
      ∃ x ∈ db.current, x.e = e ∧ x.a = a ∧ x.v = v := by
    obtain ⟨-, hentid⟩ := SchemaCache.mem_of_getAttribute ha
    constructor
    · rintro ⟨r, hr, rfl, rfl⟩
      obtain ⟨x, hx, he, hattr, hv⟩ := mem_wildcardRows.mp (hfrom r hr).2
      exact ⟨x, hx, he, (SchemaCache.mem_of_getAttribute hattr).2.symm.trans hentid, hv⟩
    · rintro ⟨x, hx, he, rfl, hv⟩
      exact hto (info, v) (mem_wildcardRows.mpr ⟨x, hx, he, ha, hv⟩)
  refine (hpulled info (SchemaCache.mem_of_getAttribute ha).1 ?_ ?_).congr hrow
  · intro r hr hrinfo
    obtain ⟨x, hx, he, hxa, hv⟩ := (hrow r.v).mp ⟨r, hr, hrinfo, rfl⟩
    exact hv ▸ hexact x hx he hxa
  · intro hcard r hr r' hr' hrinfo hrinfo'
    obtain ⟨x, hx, he, hxa, hv⟩ := (hrow r.v).mp ⟨r, hr, hrinfo, rfl⟩
    obtain ⟨y, hy, he', hya, hv'⟩ := (hrow r'.v).mp ⟨r', hr', hrinfo', rfl⟩
    rw [← hv, ← hv']
    exact hone hcard x hx y hy he hxa he' hya

theorem pullWildcard_ok (scan : ScanOrder) (hident : KeyUnique SchemaRow.ident db.schema)
    (hnamed : ∀ row ∈ db.schema, row.ident ≠ ":db/id")
    (hextract : ∀ x ∈ db.current, x.v.Extractable) (levels : Nat) (visited : List Int64)
    (e : Int64) :
    ∃ st, pullWildcard scan db levels visited e = .ok st ∧ PulledEntity db e st.1 := by
  induction levels generalizing visited e with
  | zero =>
    refine pullEntity_ok hident hnamed hextract (fun visited id => ⟨_, rfl, ?_⟩) visited e
    rw [JsonObject.lookup_cons, if_pos rfl]
  | succ levels ih =>
    refine pullEntity_ok hident hnamed hextract (fun visited id => ?_) visited e
    obtain ⟨st, hst, hpulled⟩ := ih (id :: visited) id
    exact ⟨st, hst, hpulled.id⟩

theorem mentatPullAll_ok (scan : ScanOrder) (e : Int64)
    (hident : KeyUnique SchemaRow.ident db.schema)
    (hnamed : ∀ row ∈ db.schema, row.ident ≠ ":db/id")
    (hextract : ∀ x ∈ db.current, x.v.Extractable) :
    ∃ m, mentatPullAll scan db e = .ok m ∧ PulledEntity db e m := by
  obtain ⟨st, hst, hpulled⟩ :=
    pullWildcard_ok scan hident hnamed hextract maxRecursionDepth [e] e
  exact ⟨st.1, by rw [mentatPullAll, hst]; rfl, hpulled⟩

end Pull

end PgMentat

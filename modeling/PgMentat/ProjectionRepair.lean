import PgMentat.Excision

namespace PgMentat

open List LatestWins

/-- The tables in the order of the loops. -/
def projectionTypes : List ValueType :=
  [.ref, .long, .string, .double, .instant, .keyword, .uuid, .bytes, .boolean]

def LogRow.current (r : LogRow) : CurrentRow := ⟨r.e, r.a, r.v, r.tx⟩

/-- `DISTINCT ON (store_id, e, a, v) .. ORDER BY .., tx DESC`, kept if `added`. The primary key
`(store_id, e, a, v, tx)` leaves one row of the greatest `tx` for each triple. -/
def resolvedRows (log : List LogRow) (type : ValueType) : List CurrentRow :=
  (log.filter fun r => r.v.valueType = type ∧ (∀ z ∈ log, z.triple = r.triple → z.tx ≤ r.tx) ∧
    r.added = true).map LogRow.current

/-- `EXCEPT`. -/
def exceptRows {ρ : Type} [DecidableEq ρ] (rows others : List ρ) : List ρ :=
  (rows.filter (· ∉ others)).dedup

namespace Database

variable (d : Database) (store : Int64)

def resolved (type : ValueType) : List CurrentRow := resolvedRows (rowsOf store d.log) type

/-- `DELETE` and `INSERT` in one of the tables. -/
def rebuildType (type : ValueType) : Database :=
  { d with current :=
      (d.current.filter fun r => ¬ (r.storeId = store ∧ r.row.v.valueType = type)) ++
        (d.resolved store type).map (Owned.mk store) }

def rebuildCurrentProjection : Nat × Database :=
  projectionTypes.foldl (fun st type =>
    (st.1 + (st.2.resolved store type).length, st.2.rebuildType store type)) (0, d)

def projected (type : ValueType) : List Triple :=
  ((rowsOf store d.current).filter fun r => r.v.valueType = type).map CurrentRow.triple

def mismatches (type : ValueType) : Nat :=
  let resolved := (d.resolved store type).map CurrentRow.triple
  let proj := d.projected store type
  (exceptRows resolved proj ++ exceptRows proj resolved).length

def verifyCurrentProjection : Nat :=
  projectionTypes.foldl (fun n type => n + d.mismatches store type) 0

end Database

/-- The row is an assertion of the log, and no row of its triple is later. -/
def NewestAsserted (log : List LogRow) (x : CurrentRow) : Prop :=
  ⟨x.e, x.a, x.v, x.tx, true⟩ ∈ log ∧ ∀ z ∈ log, z.triple = x.triple → z.tx ≤ x.tx

namespace Database

variable (d : Database) (store : Int64)

/-- The projection of the store holds exactly the triples whose latest log row asserts them. -/
def InSyncIn : Prop :=
  ∀ k, (∃ x ∈ rowsOf store d.current, x.triple = k) ↔
    Holds LogRow.triple (fun r => r.tx.toInt) LogRow.added (rowsOf store d.log) k

structure RepairsExactly : Prop where
  verifies : d.verifyCurrentProjection store = 0 ↔ d.InSyncIn store
  repairs : (d.rebuildCurrentProjection store).2.verifyCurrentProjection store = 0
  only_current : (d.rebuildCurrentProjection store).2 =
    { d with current := (d.rebuildCurrentProjection store).2.current }
  others : ∀ id, id ≠ store →
    rowsOf id (d.rebuildCurrentProjection store).2.current = rowsOf id d.current
  idempotent : ((d.rebuildCurrentProjection store).2.rebuildCurrentProjection store).2 =
    (d.rebuildCurrentProjection store).2

end Database

section Resolved

variable {log : List LogRow} {x : CurrentRow} {k : Triple}

theorem mem_resolvedRows {type : ValueType} :
    x ∈ resolvedRows log type ↔ x.v.valueType = type ∧ NewestAsserted log x := by
  simp only [resolvedRows, mem_map, mem_filter, decide_eq_true_eq]
  constructor
  · rintro ⟨⟨e, a, v, tx, added⟩, ⟨hr, htype, hmax, hadded⟩, rfl⟩
    cases hadded
    exact ⟨htype, hr, hmax⟩
  · rintro ⟨htype, hr, hmax⟩
    exact ⟨_, ⟨hr, htype, hmax, rfl⟩, rfl⟩

theorem holds_iff_newestAsserted :
    Holds LogRow.triple (fun r => r.tx.toInt) LogRow.added log k ↔
      ∃ x, NewestAsserted log x ∧ x.triple = k := by
  constructor
  · rintro ⟨⟨e, a, v, tx, added⟩, hr, rfl, hadded, hmax⟩
    cases hadded
    exact ⟨⟨e, a, v, tx⟩, ⟨hr, fun z hz hk => Int64.le_iff_toInt_le.mpr (hmax z hz hk)⟩, rfl⟩
  · rintro ⟨x, ⟨hr, hmax⟩, rfl⟩
    exact ⟨_, hr, rfl, rfl, fun z hz hk => Int64.le_iff_toInt_le.mp (hmax z hz hk)⟩

theorem NewestAsserted.unique {y : CurrentRow} (hx : NewestAsserted log x)
    (hy : NewestAsserted log y) (hk : x.triple = y.triple) : x = y := by
  have htx : x.tx = y.tx := Int64.le_antisymm (hy.2 _ hx.1 hk) (hx.2 _ hy.1 hk.symm)
  obtain ⟨e, a, v, tx⟩ := x
  obtain ⟨e', a', v', tx'⟩ := y
  cases hk
  cases htx
  rfl

end Resolved

namespace Database

variable {d : Database} {store : Int64} {x : CurrentRow}

theorem foldl_rebuildType {types : List ValueType} (hnodup : types.Nodup) :
    types.foldl (fun d type => d.rebuildType store type) d =
      { d with current :=
          (d.current.filter fun r => ¬ (r.storeId = store ∧ r.row.v.valueType ∈ types)) ++
            types.flatMap fun type => (d.resolved store type).map (Owned.mk store) } := by
  induction types generalizing d with
  | nil => simp
  | cons type types ih =>
    obtain ⟨hnew, hnodup⟩ := nodup_cons.mp hnodup
    -- the rows just inserted are of none of the tables that follow
    have hkept : ((d.resolved store type).map (Owned.mk store)).filter
        (fun r => ¬ (r.storeId = store ∧ r.row.v.valueType ∈ types)) =
          (d.resolved store type).map (Owned.mk store) := by
      apply filter_eq_self.mpr
      intro r hr
      obtain ⟨x, hx, rfl⟩ := mem_map.mp hr
      simp [(mem_resolvedRows.mp hx).1, hnew]
    rw [foldl_cons, ih hnodup]
    simp only [rebuildType, resolved, filter_append, filter_filter, flatMap_cons,
      ← append_assoc] at hkept ⊢
    rw [hkept]
    congr 3
    apply filter_congr
    intro r _
    simp only [mem_cons]
    grind

def inserted (d : Database) (store : Int64) : List (Owned CurrentRow) :=
  projectionTypes.flatMap fun type => (d.resolved store type).map (Owned.mk store)

theorem filter_inserted {p : Owned CurrentRow → Bool} (h : ∀ x, p ⟨store, x⟩ = false) :
    (d.inserted store).filter p = [] := by
  apply filter_eq_nil_iff.mpr
  intro r hr
  obtain ⟨type, -, hr⟩ := mem_flatMap.mp hr
  obtain ⟨x, -, rfl⟩ := mem_map.mp hr
  simp [h]

theorem rebuild_eq : (d.rebuildCurrentProjection store).2 =
    { d with current := (d.current.filter fun r => r.storeId ≠ store) ++ d.inserted store } := by
  have hall (type : ValueType) : type ∈ projectionTypes := by
    cases type <;> decide
  have hsnd (types : List ValueType) (st : Nat × Database) :
      (types.foldl (fun st type => (st.1 + (st.2.resolved store type).length,
        st.2.rebuildType store type)) st).2 =
      types.foldl (fun d type => d.rebuildType store type) st.2 := by
    induction types generalizing st with
    | nil => rfl
    | cons type types ih => exact ih _
  rw [rebuildCurrentProjection, hsnd, foldl_rebuildType (by decide)]
  simp [hall, inserted]

theorem mem_rebuild : x ∈ rowsOf store (d.rebuildCurrentProjection store).2.current ↔
    NewestAsserted (rowsOf store d.log) x := by
  have hall : x.v.valueType ∈ projectionTypes := by
    cases x.v.valueType <;> decide
  simp [rebuild_eq, mem_rowsOf, inserted, resolved, mem_resolvedRows, hall]

theorem rebuild_log : (d.rebuildCurrentProjection store).2.log = d.log := by
  rw [rebuild_eq]

theorem mem_projected {type : ValueType} {k : Triple} :
    k ∈ d.projected store type ↔
      k.2.2.valueType = type ∧ ∃ x ∈ rowsOf store d.current, x.triple = k := by
  simp only [projected, mem_map, mem_filter, decide_eq_true_eq]
  constructor
  · rintro ⟨x, ⟨hx, htype⟩, rfl⟩
    exact ⟨htype, x, hx, rfl⟩
  · rintro ⟨htype, x, hx, rfl⟩
    exact ⟨x, ⟨hx, htype⟩, rfl⟩

theorem mem_resolved_triples {type : ValueType} {k : Triple} :
    k ∈ (d.resolved store type).map CurrentRow.triple ↔ k.2.2.valueType = type ∧
      Holds LogRow.triple (fun r => r.tx.toInt) LogRow.added (rowsOf store d.log) k := by
  simp only [holds_iff_newestAsserted, mem_map, resolved, mem_resolvedRows]
  constructor
  · rintro ⟨x, ⟨htype, hx⟩, rfl⟩
    exact ⟨htype, x, hx, rfl⟩
  · rintro ⟨htype, x, hx, rfl⟩
    exact ⟨x, ⟨htype, hx⟩, rfl⟩

theorem mismatches_eq_zero_iff {type : ValueType} :
    d.mismatches store type = 0 ↔ ∀ k, k ∈ d.projected store type ↔
      k ∈ (d.resolved store type).map CurrentRow.triple := by
  simp only [mismatches, exceptRows, length_eq_zero_iff, append_eq_nil_iff, dedup_eq_nil,
    filter_eq_nil_iff, decide_eq_true_eq, not_not]
  constructor
  · intro h k
    exact ⟨h.2 k, h.1 k⟩
  · intro h
    exact ⟨fun k => (h k).mpr, fun k => (h k).mp⟩

theorem verify_eq_zero_iff : d.verifyCurrentProjection store = 0 ↔ d.InSyncIn store := by
  have hsum (types : List ValueType) (n : Nat) :
      types.foldl (fun n type => n + d.mismatches store type) n = 0 ↔
        n = 0 ∧ ∀ type ∈ types, d.mismatches store type = 0 := by
    induction types generalizing n with
    | nil => simp
    | cons type types ih => simp [ih, and_assoc]
  simp only [verifyCurrentProjection, hsum, mismatches_eq_zero_iff, mem_projected,
    mem_resolved_triples, true_and]
  constructor
  · intro h k
    have hall : k.2.2.valueType ∈ projectionTypes := by
      cases k.2.2.valueType <;> decide
    simpa using h _ hall k
  · intro h type _ k
    rw [h k]

theorem repairsExactly (d : Database) (store : Int64) : d.RepairsExactly store where
  verifies := verify_eq_zero_iff
  repairs := by
    rw [verify_eq_zero_iff]
    intro k
    simp only [mem_rebuild, rebuild_log, holds_iff_newestAsserted]
  only_current := by rw [rebuild_eq]
  others id hid := by
    rw [rebuild_eq, rowsOf, filter_append, filter_filter, rowsOf,
      filter_inserted fun _ => decide_eq_false hid.symm, append_nil]
    congr 1
    apply filter_congr
    intro r _
    by_cases hr : r.storeId = id <;> simp [hr, hid]
  idempotent := by
    have hinserted :
        (d.rebuildCurrentProjection store).2.inserted store = d.inserted store := by
      simp only [inserted, resolved, rebuild_log]
    rw [rebuild_eq (d := (d.rebuildCurrentProjection store).2), hinserted, rebuild_eq]
    simp [filter_inserted]

end Database

/-- Every row of the projection is the latest row of its triple in the log, with its `tx`. -/
def Db.Stamped (db : Db) : Prop := ∀ x ∈ db.current, NewestAsserted db.log x

section Run

variable {call : Call} {db mid loop db' : Db} {rows : List LogRow} {x : CurrentRow}

theorem NewestAsserted.of_eq {log log' : List LogRow} (hx : NewestAsserted log x)
    (h : ∀ z, z.triple = x.triple → (z ∈ log' ↔ z ∈ log)) : NewestAsserted log' x :=
  ⟨(h _ rfl).mpr hx.1, fun z hz hk => hx.2 z ((h z hk).mp hz) hk⟩

theorem Committed.mid_stamped (h : Committed call db mid loop db' rows)
    (hinc : TxIncreasing db call) (hdb : db.Stamped) : mid.Stamped := by
  intro x hx
  rcases h.mem_mid_current.mp hx with rfl | ⟨hx, hne⟩
  · refine ⟨h.mem_mid_log.mpr (.inr ⟨rfl, fun y hy hkey => ?_⟩), fun z hz _ => ?_⟩
    · have hlt := hinc y hy
      rw [(Prod.mk.inj hkey).2] at hlt
      exact Int64.lt_irrefl hlt
    · rcases h.mem_mid_log.mp hz with hz | ⟨rfl, -⟩
      · exact Int64.le_of_lt (hinc z hz)
      · exact Int64.le_refl _
  · refine (hdb x hx).of_eq fun z hz => ?_
    rw [h.mem_mid_log]
    exact ⟨fun hz' => hz'.resolve_right fun heq => hne (hz.symm.trans (congrArg _ heq.1)), .inl⟩

theorem QueueStep.stamped {c : SchemaCache} {all : List PendingDatom} {tx : Int64}
    {scan : ScanOrder} {rows' : List LogRow} {p : PendingDatom}
    (h : QueueStep c all tx scan db rows p db' rows') (hdb : db.Stamped) : db'.Stamped := by
  cases h with
  | pruneOne =>
    intro x hx
    obtain ⟨hx, hkeep⟩ := mem_filter.mp hx
    refine (hdb x hx).of_eq fun z hz => ?_
    have hsame : LogRow.isEa p z = CurrentRow.isEa p x := by
      simp only [LogRow.triple, CurrentRow.triple, Prod.mk.injEq] at hz
      simp only [LogRow.isEa, CurrentRow.isEa, hz]
    exact ⟨fun h => (mem_filter.mp h).1, fun h => mem_filter.mpr ⟨h, hsame ▸ hkeep⟩⟩
  | pruneMany _ _ _ hnew =>
    intro x hx
    refine (hdb x hx).of_eq fun z hz => ?_
    have hne : z.triple ≠ p.triple := fun heq => hnew ⟨x, hx, hz.symm.trans heq⟩
    have hkeep : (!LogRow.isEav p z) = true := by simpa [LogRow.isEav] using hne
    exact ⟨fun h => (mem_filter.mp h).1, fun h => mem_filter.mpr ⟨h, hkeep⟩⟩
  | _ => exact hdb

theorem QueueRun.stamped {c : SchemaCache} {all done : List PendingDatom} {tx : Int64}
    {scan : ScanOrder} (h : QueueRun c all tx scan db done db' rows) (hdb : db.Stamped) :
    db'.Stamped := by
  induction h with
  | nil => exact hdb
  | snoc _ hstep ih => exact hstep.stamped ih

theorem Committed.stamped (h : Committed call db mid loop db' rows) (hinc : TxIncreasing db call)
    (hcall : call.SpelledApart db) (hdb : db.Stamped) : db'.Stamped := by
  have hloop : loop.Stamped := h.run.stamped (h.mid_stamped hinc hdb)
  intro x hx
  rcases (h.projection x).mp hx with ⟨r, hlast, hadded, htx⟩ | ⟨hnone, hx⟩
  · obtain ⟨hr, hk⟩ := mem_of_lastRow hlast
    -- an assertion is never dropped from the log
    have hkept : r ∈ dedupRows rows := by
      by_contra hdrop
      rw [(h.of_dropped hcall hr hdrop).1] at hadded
      cases hadded
    have hrow : r = ⟨x.e, x.a, x.v, x.tx, true⟩ := by
      obtain ⟨e, a, v, tx, added⟩ := r
      cases hk
      cases htx
      cases hadded
      rfl
    refine ⟨hrow ▸ h.mem_log.mpr (.inl hkept), fun z hz _ => ?_⟩
    rw [htx, h.rows_tx r hr]
    rcases h.mem_log.mp hz with hz | ⟨hz, -⟩
    · exact Int64.le_of_eq (h.rows_tx z (mem_of_mem_dedupRows hz))
    · exact Int64.le_iff_toInt_le.mpr (h.loop_tx_le hinc hz)
  · have hno := lastRow_eq_none.mp hnone
    have hkey (z : LogRow) (hz : z.triple = x.triple) :
        ∀ y ∈ dedupRows rows, y.key ≠ z.key := fun y hy heq =>
      hno y (mem_of_mem_dedupRows hy) ((Prod.mk.inj heq).1.trans hz)
    refine (hloop x hx).of_eq fun z hz => ?_
    rw [h.mem_log]
    exact ⟨fun hz' => hz'.elim (fun hd => absurd rfl (hkey z hz z hd)) And.left,
      fun hz' => .inr ⟨hz', hkey z hz⟩⟩

end Run

/-- Both functions do what they should for every content of the tables. Where the rows of the store
were written by calls with increasing transaction ids that keep their retractions spelled apart, a
rebuild leaves every row of the projection as it is. -/
theorem rebuild_repairs_exactly (d : Database) (store : Int64) :
    d.RepairsExactly store ∧
      ∀ db, Reaches (fun db call _ => TxIncreasing db call ∧ call.SpelledApart db) bootstrapDb db →
        rowsOf store d.log = db.log → rowsOf store d.current = db.current →
        ∀ x, x ∈ rowsOf store (d.rebuildCurrentProjection store).2.current ↔
          x ∈ rowsOf store d.current := by
  refine ⟨d.repairsExactly store, fun db hrun hlog hcurrent x => ?_⟩
  rw [Database.mem_rebuild, hlog, hcurrent]
  have hinv : db.InSync ∧ db.Stamped := by
    refine hrun.invariant (I := fun db => db.InSync ∧ db.Stamped) ?_
      ⟨inSync_bootstrapDb, fun x hx => nomatch hx⟩
    intro mid db' call report hmid hcall ⟨hinc, hspelled⟩
    obtain ⟨_, _, _, h⟩ := mentatTransact_committed hcall
    exact ⟨h.inSync hinc hspelled hmid.1, h.stamped hinc hspelled hmid.2⟩
  constructor
  · intro hx
    obtain ⟨y, hy, hk⟩ := (hinv.1 x.triple).mpr (holds_iff_newestAsserted.mpr ⟨x, hx, rfl⟩)
    rw [hx.unique (hinv.2 y hy) hk.symm]
    exact hy
  · exact hinv.2 x

/-- Retracting a string and a keyword with another name. -/
theorem rebuild_repairs_exactly_bar :
    ∃ db, stateAfter [docCall, retractBoth (.keyword (.plain "bar")) (.text "foo")] = some db ∧
      ∀ x, x ∈ rowsOf 0 ((Database.ofDefault db []).rebuildCurrentProjection 0).2.current ↔
        x ∈ db.current := by
  have hmeets : RunMeets (fun d call _ => TxIncreasing d call ∧ call.SpelledApart d)
      [docCall, retractBoth (.keyword (.plain "bar")) (.text "foo")] bootstrapDb := by
    decide +kernel
  obtain ⟨db, hdb, hrun⟩ := Reaches.of_runMeets .refl hmeets
  have hrows {ρ : Type} (rows : List ρ) : rowsOf 0 (rows.map (Owned.mk 0)) = rows := by
    simp [rowsOf, filter_map, Function.comp_def]
  refine ⟨db, congrArg Except.toOption hdb, fun x => ?_⟩
  rw [(rebuild_repairs_exactly (.ofDefault db []) 0).2 db hrun (hrows _) (hrows _)]
  rw [Database.ofDefault, hrows]

/-- After the keyword `:foo` and the string `"foo"` are retracted together, the log still asserts
the string, and a rebuild brings it back. -/
theorem rebuild_revives_retracted :
    ∃ db, Reaches (fun d call _ => TxIncreasing d call) bootstrapDb db ∧
      ⟨500, Entids.dbDoc, .text "foo", 1000000000001⟩ ∉ db.current ∧
      ⟨500, Entids.dbDoc, .text "foo", 1000000000001⟩ ∈
        rowsOf 0 ((Database.ofDefault db []).rebuildCurrentProjection 0).2.current := by
  have hmeets : RunMeets (fun d call _ => TxIncreasing d call)
      [docCall, retractBoth (.keyword (.plain "foo")) (.text "foo")] bootstrapDb := by
    decide +kernel
  have hstate : ∃ db, stateAfter [docCall, retractBoth (.keyword (.plain "foo")) (.text "foo")] =
      some db ∧ ⟨500, Entids.dbDoc, .text "foo", 1000000000001⟩ ∉ db.current ∧
      ⟨500, Entids.dbDoc, .text "foo", 1000000000001⟩ ∈
        rowsOf 0 ((Database.ofDefault db []).rebuildCurrentProjection 0).2.current := by
    decide +kernel
  obtain ⟨db, -, hrun, hfacts⟩ := hmeets.exists_reaches hstate
  exact ⟨db, hrun, hfacts⟩

end PgMentat

import PgMentat.Transact.Frame

namespace PgMentat

open StatementProgram Program KeyedTable TypedValue Server

def PendingDatom.triple (d : PendingDatom) : Triple := (d.e, d.a, d.v)

/-- A triple is live if the projection has a row for it. -/
def Db.Live (db : Db) (k : Triple) : Prop := ∃ r ∈ db.current, r.triple = k

instance (db : Db) (k : Triple) : Decidable (db.Live k) :=
  inferInstanceAs (Decidable (∃ r ∈ db.current, r.triple = k))

/-- The projection row a scan for `(e, a)` in the table of a type returns first. -/
def firstCurrent (scan : ScanOrder) (db : Db) (type : ValueType) (e a : Int64) :
    Option CurrentRow :=
  (scan.current db.current).find? fun r => r.e = e ∧ r.a = a ∧ r.v.valueType = type

variable {scan : ScanOrder} {e a : Int64} {r : CurrentRow} {v : TypedValue}

variable {db : Db} {type : ValueType} {d : PendingDatom} {c : SchemaCache} {all : List PendingDatom}
  {tx : Int64}

theorem firstCurrent_eq_some (h : firstCurrent scan db type e a = some r) :
    r ∈ db.current ∧ r.e = e ∧ r.a = a ∧ r.v.valueType = type := by
  have hmem := List.mem_of_find?_eq_some h
  have hcond := List.find?_some h
  exact ⟨(scan.current_perm _).mem_iff.mp hmem, by simpa using hcond⟩

theorem firstCurrent_eq_none (h : firstCurrent scan db type e a = none) (hr : r ∈ db.current)
    (he : r.e = e) (ha : r.a = a) : r.v.valueType ≠ type := by
  intro htype
  have hnone := List.find?_eq_none.mp h r ((scan.current_perm _).mem_iff.mpr hr)
  exact hnone (by simp [he, ha, htype])

/-- The entity a scan of the log for an asserted `(a, v)` returns first. -/
def firstHolder (scan : ScanOrder) (db : Db) (a : Int64) (v : TypedValue) : Option Int64 :=
  ((scan.log db.log).find? fun r => r.a = a ∧ r.v = v ∧ r.added).map LogRow.e

theorem firstHolder_eq_some (h : firstHolder scan db a v = some e) :
    ∃ r ∈ db.log, r.e = e ∧ r.a = a ∧ r.v = v ∧ r.added = true := by
  obtain ⟨r, hfind, rfl⟩ := Option.map_eq_some_iff.mp h
  have hmem := List.mem_of_find?_eq_some hfind
  have hcond := List.find?_some hfind
  exact ⟨r, (scan.log_perm _).mem_iff.mp hmem, rfl, by simpa using hcond⟩

theorem firstHolder_eq_none (h : firstHolder scan db a v = none) {r : LogRow} (hr : r ∈ db.log)
    (ha : r.a = a) (hv : r.v = v) : r.added = false := by
  have hfind := Option.map_eq_none_iff.mp h
  have hnone := List.find?_eq_none.mp hfind r ((scan.log_perm _).mem_iff.mpr hr)
  simpa [ha, hv] using hnone

/-- The checks of `validate_datom_constraints` that the schema and the transaction decide. -/
structure Checked (c : SchemaCache) (all : List PendingDatom) (d : PendingDatom)
    (info : SchemaRow) : Prop where
  added : d.added = true
  attr : c.getAttribute d.a = some info
  type_eq : d.v.valueType = info.valueType
  single : info.cardinality = .one → countInTx d all ≤ 1
  no_duplicate : info.uniqueConstraint ≠ none → hasDuplicateInTx d all = false

/-- What `validate_datom_constraints` has checked of an assertion. -/
structure Validated (c : SchemaCache) (all : List PendingDatom) (scan : ScanOrder) (db : Db)
    (d : PendingDatom) (info : SchemaRow) : Prop extends Checked c all d info where
  holder : info.uniqueConstraint ≠ none → ∀ e, firstHolder scan db d.a d.v = some e → e = d.e

def Db.pruneLog (db : Db) (p : LogRow → Bool) : Db := { db with log := db.log.filter (!p ·) }

def Db.pruneCurrent (db : Db) (p : CurrentRow → Bool) : Db :=
  { db with current := db.current.filter (!p ·) }

def LogRow.isEa (d : PendingDatom) (r : LogRow) : Bool :=
  r.e = d.e ∧ r.a = d.a ∧ r.v.valueType = d.v.valueType

def CurrentRow.isEa (d : PendingDatom) (r : CurrentRow) : Bool :=
  r.e = d.e ∧ r.a = d.a ∧ r.v.valueType = d.v.valueType

def LogRow.isEav (d : PendingDatom) (r : LogRow) : Bool := r.triple = d.triple

def PendingDatom.row (d : PendingDatom) (tx : Int64) : LogRow := ⟨d.e, d.a, d.v, tx, d.added⟩

/-- The text of the value the projection has for an assertion's entity and attribute reads back
as `old`. -/
def ReadsBack (scan : ScanOrder) (db : Db) (d : PendingDatom) (old : TypedValue) : Prop :=
  ∃ r, firstCurrent scan db d.v.valueType d.e d.a = some r ∧
    parseFromTag d.v.valueType r.v.projectionText = .ok old

theorem ReadsBack.unique {w : TypedValue} (hv : ReadsBack scan db d v)
    (hw : ReadsBack scan db d w) :
    v = w := by
  obtain ⟨r, hr, hparse⟩ := hv
  obtain ⟨r', hr', hparse'⟩ := hw
  cases hr.symm.trans hr'
  exact Except.ok.inj (hparse.symm.trans hparse')

theorem not_readsBack (h : firstCurrent scan db d.v.valueType d.e d.a = none) :
    ¬ ReadsBack scan db d v := by
  rintro ⟨r, hr, -⟩
  cases h.symm.trans hr

/-- One round of the loop, from the tables and rows before to those after. -/
inductive QueueStep (c : SchemaCache) (all : List PendingDatom) (tx : Int64) (scan : ScanOrder)
    (db : Db) (rows : List LogRow) (d : PendingDatom) : Db → List LogRow → Prop
  | retract (h : d.added = false) : QueueStep c all tx scan db rows d db (rows ++ [d.row tx])
  | skipOne {info} (hv : Validated c all scan db d info) (hone : info.cardinality = .one)
      (hread : ReadsBack scan db d d.v) : QueueStep c all tx scan db rows d db rows
  | skipMany {info} (hv : Validated c all scan db d info) (hmany : info.cardinality = .many)
      (hlive : db.Live d.triple) : QueueStep c all tx scan db rows d db rows
  | assertOne {info} (hv : Validated c all scan db d info) (hone : info.cardinality = .one)
      (hhist : info.noHistory = false)
      (hnone : firstCurrent scan db d.v.valueType d.e d.a = none) :
      QueueStep c all tx scan db rows d db (rows ++ [d.row tx])
  | replaceOne {info old} (hv : Validated c all scan db d info) (hone : info.cardinality = .one)
      (hhist : info.noHistory = false) (hread : ReadsBack scan db d old)
      (hne : old.partialEq d.v = false) :
      QueueStep c all tx scan db rows d db (rows ++ [⟨d.e, d.a, old, tx, false⟩] ++ [d.row tx])
  | assertMany {info} (hv : Validated c all scan db d info) (hmany : info.cardinality = .many)
      (hhist : info.noHistory = false) (hnew : ¬ db.Live d.triple) :
      QueueStep c all tx scan db rows d db (rows ++ [d.row tx])
  | pruneOne {info} (hv : Validated c all scan db d info) (hone : info.cardinality = .one)
      (hhist : info.noHistory = true)
      (hne : ∀ old, ReadsBack scan db d old → old.partialEq d.v = false) :
      QueueStep c all tx scan db rows d
        ((db.pruneLog (LogRow.isEa d)).pruneCurrent (CurrentRow.isEa d)) (rows ++ [d.row tx])
  | pruneMany {info} (hv : Validated c all scan db d info) (hmany : info.cardinality = .many)
      (hhist : info.noHistory = true) (hnew : ¬ db.Live d.triple) :
      QueueStep c all tx scan db rows d (db.pruneLog (LogRow.isEav d)) (rows ++ [d.row tx])

theorem checkUniqueTypedValue_ensures (a : Int64) (v : TypedValue) (b : Backend) (db : Db) :
    server.Ensures (checkUniqueTypedValue a v) b db fun e b' db' =>
      e = firstHolder b.scan db a v ∧ b' = b ∧ db' = db := by
  refine (ensures_issue _).mpr fun e b' ops h => ?_
  cases h
  exact ⟨rfl, rfl, rfl⟩

theorem validateDatomConstraints_ensures {b : Backend} (hadded : d.added = true) :
    server.Ensures (validateDatomConstraints c d all) b db fun _ b' db' =>
      (∃ info, Validated c all b.scan db d info) ∧ b' = b ∧ db' = db := by
  unfold validateDatomConstraints
  split
  · exact ensures_fail _
  rename_i info hinfo
  split
  · exact ensures_fail _
  rename_i htype
  split
  · exact ensures_fail _
  rename_i hone
  have htype : d.v.valueType = info.valueType := ValueType.toTag_inj (not_not.mp htype)
  have hsingle : info.cardinality = .one → countInTx d all ≤ 1 :=
    fun h => Nat.not_lt.mp fun hlt => hone ⟨h, hlt⟩
  split
  · rename_i hunique
    rw [pure_eq_ret, ensures_ret]
    exact ⟨⟨info, ⟨hadded, hinfo, htype, hsingle, fun h => absurd hunique h⟩,
      fun h => absurd hunique h⟩, rfl, rfl⟩
  · unfold validateUnique
    split
    · exact ensures_fail _
    rename_i hdup
    simp only [ensures_bind]
    refine (ensures_issue _).mpr fun _ b1 ops h => ?_
    cases h
    refine (checkUniqueTypedValue_ensures _ _ _ _).mono fun e b2 db2 h => ?_
    obtain ⟨rfl, hb, hdb⟩ := h
    have hvalid (hholder : ∀ e, firstHolder b.scan db d.a d.v = some e → e = d.e) :
        ∃ info, Validated c all b.scan db d info :=
      ⟨info, ⟨hadded, hinfo, htype, hsingle, fun _ => Bool.eq_false_iff.mpr hdup⟩,
        fun _ => hholder⟩
    split
    · rename_i hnone
      rw [pure_eq_ret, ensures_ret]
      exact ⟨hvalid fun e he => absurd (hnone.symm.trans he) (Option.some_ne_none e).symm, hb, hdb⟩
    · rename_i e he
      split
      · rename_i heq
        rw [pure_eq_ret, ensures_ret]
        exact ⟨hvalid fun e' he' => (Option.some.inj (he'.symm.trans he)).trans heq, hb, hdb⟩
      · exact ensures_fail _

/-- What `retract_existing_cardinality_one` decides, from what the projection reads back. -/
def Decides (scan : ScanOrder) (db : Db) (d : PendingDatom) : CardinalityOneResult → Prop
  | .skip => ReadsBack scan db d d.v
  | .insert => firstCurrent scan db d.v.valueType d.e d.a = none
  | .replace old => ReadsBack scan db d old ∧ old.partialEq d.v = false

theorem retractExistingCardinalityOne_ensures (d : PendingDatom) (b : Backend) (db : Db) :
    server.Ensures (retractExistingCardinalityOne d.e d.a d.v) b db fun result b' db' =>
      Decides b.scan db d result ∧ b' = b ∧ db' = db := by
  unfold retractExistingCardinalityOne currentProjectionValueForEa
  simp only [ensures_bind]
  refine (ensures_issue _).mpr fun text b1 ops h => ?_
  cases h
  split
  · rename_i hnone
    rw [pure_eq_ret, ensures_ret, pure_eq_ret, ensures_ret]
    exact ⟨Option.map_eq_none_iff.mp hnone, rfl, rfl⟩
  · rename_i text hsome
    obtain ⟨r, hr, rfl⟩ := Option.map_eq_some_iff.mp hsome
    split
    · rename_i old hparse
      have hread : ReadsBack b.scan db d old := ⟨r, hr, hparse⟩
      rw [pure_eq_ret, ensures_ret]
      dsimp only
      split
      · rename_i heq
        rw [eq_of_partialEq heq] at hread
        rw [pure_eq_ret, ensures_ret]
        exact ⟨hread, rfl, rfl⟩
      · rename_i hne
        rw [pure_eq_ret, ensures_ret]
        exact ⟨⟨hread, Bool.eq_false_iff.mpr hne⟩, rfl, rfl⟩
    · exact ensures_fail _

@[simp] theorem InsertState.queue_rows (st : InsertState) (info : SchemaRow) (d : PendingDatom)
    (tx : Int64) : (st.queue info d tx).rows = st.rows ++ [⟨d.e, d.a, d.v, tx, true⟩] := by
  unfold InsertState.queue
  dsimp only
  split
  · split <;> rfl
  · rfl

@[simp] theorem InsertState.pushRow_rows (st : InsertState) (row : LogRow) :
    (st.pushRow row).rows = st.rows ++ [row] := rfl

theorem Validated.row_eq {info : SchemaRow} (h : Validated c all scan db d info) (tx : Int64) :
    d.row tx = ⟨d.e, d.a, d.v, tx, true⟩ := by
  simp only [PendingDatom.row, h.added]

section Prune

variable (d : PendingDatom) (b : Backend) (db : Db)

theorem pruneNoHistoryEa_ensures :
    server.Ensures (pruneNoHistoryEa d.e d.a d.v) b db fun _ b' db' =>
      b' = b ∧ db' = db.pruneLog (LogRow.isEa d) := by
  refine (ensures_issue _).mpr fun _ b' ops h => ?_
  cases h
  refine ⟨rfl, ?_⟩
  have hkey : ∀ x y : LogRow, x.key = y.key → LogRow.isEa d x = LogRow.isEa d y := by
    intro x y hxy
    simp only [LogRow.key, LogRow.triple, Prod.mk.injEq] at hxy
    simp only [LogRow.isEa, hxy]
  rw [writeAll_delLog]
  exact congrArg (fun log => { db with log }) (foldl_del_filter hkey db.log)

theorem pruneNoHistoryEav_ensures :
    server.Ensures (pruneNoHistoryEav d.e d.a d.v) b db fun _ b' db' =>
      b' = b ∧ db' = db.pruneLog (LogRow.isEav d) := by
  refine (ensures_issue _).mpr fun _ b' ops h => ?_
  cases h
  refine ⟨rfl, ?_⟩
  have hkey : ∀ x y : LogRow, x.key = y.key → LogRow.isEav d x = LogRow.isEav d y := by
    intro x y hxy
    simp only [LogRow.isEav, (Prod.mk.inj hxy).1]
  rw [writeAll_delLog]
  exact congrArg (fun log => { db with log }) (foldl_del_filter hkey db.log)

theorem pruneProjectionEa_ensures :
    server.Ensures (pruneProjectionEa d.e d.a d.v) b db fun _ b' db' =>
      b' = b ∧ db' = db.pruneCurrent (CurrentRow.isEa d) := by
  refine (ensures_issue _).mpr fun _ b' ops h => ?_
  cases h
  refine ⟨rfl, ?_⟩
  have hkey : ∀ x y : CurrentRow, x.triple = y.triple →
      CurrentRow.isEa d x = CurrentRow.isEa d y := by
    intro x y hxy
    simp only [CurrentRow.triple, Prod.mk.injEq] at hxy
    simp only [CurrentRow.isEa, hxy]
  rw [writeAll_delCurrent]
  exact congrArg (fun current => { db with current }) (foldl_del_filter hkey db.current)

end Prune

section Step

variable {c : SchemaCache} {all : List PendingDatom} {tx : Int64} {st : InsertState}
  {d : PendingDatom} {b : Backend} {db : Db} {info : SchemaRow}

theorem queueNoHistory_ensures (hv : Validated c all b.scan db d info)
    (hhist : info.noHistory = true) :
    server.Ensures (queueNoHistory info d tx st) b db fun st' b' db' =>
      b' = b ∧ QueueStep c all tx b.scan db st.rows d db' st'.rows := by
  unfold queueNoHistory
  split
  · rename_i hone
    rw [ensures_bind]
    refine (retractExistingCardinalityOne_ensures d b db).mono fun result b1 db1 h => ?_
    obtain ⟨hdecides, hb1, hdb1⟩ := h
    rw [hb1, hdb1]
    have hprune (hne : ∀ old, ReadsBack b.scan db d old → old.partialEq d.v = false) :
        server.Ensures (do
          pruneNoHistoryEa d.e d.a d.v
          pruneProjectionEa d.e d.a d.v
          return st.queue info d tx) b db fun st' b' db' =>
            b' = b ∧ QueueStep c all tx b.scan db st.rows d db' st'.rows := by
      simp only [ensures_bind]
      refine (pruneNoHistoryEa_ensures d b db).mono fun _ b2 db2 h2 => ?_
      refine (pruneProjectionEa_ensures d b2 db2).mono fun _ b3 db3 h3 => ?_
      rw [pure_eq_ret, ensures_ret, h3.1, h3.2, h2.1, h2.2,
        InsertState.queue_rows, ← hv.row_eq]
      exact ⟨rfl, .pruneOne hv hone hhist hne⟩
    cases result with
    | skip =>
      rw [pure_eq_ret, ensures_ret]
      exact ⟨rfl, .skipOne hv hone hdecides⟩
    | insert => exact hprune fun old hread => absurd hread (not_readsBack hdecides)
    | replace old => exact hprune fun old' hread => hread.unique hdecides.1 ▸ hdecides.2
  · rename_i hmany
    rw [ensures_bind]
    refine (ensures_issue _).mpr fun dup b1 ops h => ?_
    cases h
    split
    · rename_i hlive
      rw [pure_eq_ret, ensures_ret]
      exact ⟨rfl, .skipMany hv hmany (of_decide_eq_true hlive)⟩
    · rename_i hnew
      rw [ensures_bind]
      refine (pruneNoHistoryEav_ensures d b db).mono fun _ b2 db2 h2 => ?_
      rw [pure_eq_ret, ensures_ret, h2.1, h2.2, InsertState.queue_rows,
        ← hv.row_eq]
      exact ⟨rfl, .pruneMany hv hmany hhist fun hlive => hnew (decide_eq_true hlive)⟩

theorem queueAssertion_ensures (hv : Validated c all b.scan db d info)
    (hhist : info.noHistory = false) :
    server.Ensures (queueAssertion info d tx st) b db fun st' b' db' =>
      b' = b ∧ QueueStep c all tx b.scan db st.rows d db' st'.rows := by
  unfold queueAssertion
  split
  · rename_i hone
    rw [ensures_bind]
    refine (retractExistingCardinalityOne_ensures d b db).mono fun result b1 db1 h => ?_
    obtain ⟨hdecides, hb1, hdb1⟩ := h
    rw [hb1, hdb1]
    cases result with
    | skip =>
      rw [pure_eq_ret, ensures_ret]
      exact ⟨rfl, .skipOne hv hone hdecides⟩
    | insert =>
      refine (ensures_ret (st.queue info d tx)).mpr ?_
      rw [InsertState.queue_rows, ← hv.row_eq]
      exact ⟨rfl, .assertOne hv hone hhist hdecides⟩
    | replace old =>
      refine (ensures_ret ((st.pushRow _).queue info d tx)).mpr ?_
      rw [InsertState.queue_rows, InsertState.pushRow_rows, ← hv.row_eq]
      exact ⟨rfl, .replaceOne hv hone hhist hdecides.1 hdecides.2⟩
  · rename_i hmany
    rw [ensures_bind]
    refine (ensures_issue _).mpr fun dup b1 ops h => ?_
    cases h
    split
    · rename_i hlive
      rw [pure_eq_ret, ensures_ret]
      exact ⟨rfl, .skipMany hv hmany (of_decide_eq_true hlive)⟩
    · rename_i hnew
      rw [pure_eq_ret, ensures_ret, InsertState.queue_rows, ← hv.row_eq]
      exact ⟨rfl, .assertMany hv hmany hhist fun hlive => hnew (decide_eq_true hlive)⟩

theorem queueDatom_ensures :
    server.Ensures (queueDatom c all tx st d) b db fun st' b' db' =>
      b' = b ∧ QueueStep c all tx b.scan db st.rows d db' st'.rows := by
  unfold queueDatom
  split
  · rename_i hadded
    rw [ensures_bind]
    refine (validateDatomConstraints_ensures hadded).mono fun _ b1 db1 h => ?_
    obtain ⟨⟨info, hv⟩, hb1, hdb1⟩ := h
    rw [hb1, hdb1, hv.attr]
    dsimp only
    split
    · rename_i hhist
      exact queueNoHistory_ensures hv hhist
    · rename_i hhist
      exact queueAssertion_ensures hv (Bool.eq_false_iff.mpr hhist)
  · rename_i hretract
    have hretract : d.added = false := Bool.eq_false_iff.mpr hretract
    rw [pure_eq_ret, ensures_ret, InsertState.pushRow_rows, ← hretract]
    exact ⟨rfl, .retract hretract⟩

end Step

/-- The rounds of the loop over the datoms processed so far. -/
inductive QueueRun (c : SchemaCache) (all : List PendingDatom) (tx : Int64) (scan : ScanOrder)
    (start : Db) : List PendingDatom → Db → List LogRow → Prop
  | nil : QueueRun c all tx scan start [] start []
  | snoc {done db rows d db' rows'} (hrun : QueueRun c all tx scan start done db rows)
      (hstep : QueueStep c all tx scan db rows d db' rows') :
      QueueRun c all tx scan start (done ++ [d]) db' rows'

theorem QueueRun.nil_inv {start db : Db} {rows : List LogRow}
    (h : QueueRun c all tx scan start [] db rows) : db = start ∧ rows = [] := by
  generalize hxs : ([] : List PendingDatom) = xs at h
  cases h with
  | nil => exact ⟨rfl, rfl⟩
  | snoc => simp at hxs

theorem QueueRun.snoc_inv {all done : List PendingDatom} {start db' : Db} {rows' : List LogRow}
    (h : QueueRun c all tx scan start (done ++ [d]) db' rows') :
    ∃ db rows, QueueRun c all tx scan start done db rows ∧
      QueueStep c all tx scan db rows d db' rows' := by
  generalize hxs : done ++ [d] = xs at h
  cases h with
  | nil => simp at hxs
  | snoc hrun hstep =>
    obtain ⟨rfl, hd⟩ := List.append_inj' hxs rfl
    cases hd
    exact ⟨_, _, hrun, hstep⟩

theorem queueLoop_ensures (c : SchemaCache) (pending : List PendingDatom) (tx : Int64)
    (b : Backend) (db : Db) :
    server.Ensures (pending.foldlM (queueDatom c pending tx) {}) b db fun st b' db' =>
      b' = b ∧ QueueRun c pending tx b.scan db pending db' st.rows := by
  refine ensures_foldlM
    (fun done (st : InsertState) b' db' => b' = b ∧
      QueueRun c pending tx b.scan db done db' st.rows)
    ⟨rfl, .nil⟩ fun done d rest st b1 db1 _ h => ?_
  obtain ⟨rfl, hrun⟩ := h
  exact queueDatom_ensures.mono fun st' b2 db2 h2 => ⟨h2.1, hrun.snoc h2.2⟩

end PgMentat

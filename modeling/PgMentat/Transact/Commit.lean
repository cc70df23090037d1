import PgMentat.Transact.Flush

namespace PgMentat

open StatementProgram Program KeyedTable

variable {c : SchemaCache} {tx : Int64} {scan : ScanOrder} {db db' : Db} {call : Call}

theorem QueueStep.other_tables {all : List PendingDatom} {rows rows' : List LogRow}
    {d : PendingDatom} (h : QueueStep c all tx scan db rows d db' rows') :
    db'.schema = db.schema ∧ db'.idents = db.idents ∧ db'.transactions = db.transactions := by
  cases h <;> exact ⟨rfl, rfl, rfl⟩

theorem QueueRun.other_tables {all done : List PendingDatom} {rows : List LogRow}
    (h : QueueRun c all tx scan db done db' rows) :
    db'.schema = db.schema ∧ db'.idents = db.idents ∧ db'.transactions = db.transactions := by
  induction h with
  | nil => exact ⟨rfl, rfl, rfl⟩
  | snoc _ hstep ih =>
    obtain ⟨hs, hi, ht⟩ := hstep.other_tables
    exact ⟨hs.trans ih.1, hi.trans ih.2.1, ht.trans ih.2.2⟩

/-- A successful call on `db`: it begins in `mid`, its loop queues `rows` and leaves `loop`, and
the rows are written to give `db'`. -/
structure Committed (call : Call) (db mid loop db' : Db) (rows : List LogRow) : Prop where
  tx_new : ∀ r ∈ db.transactions, r.tx ≠ call.backend.txId
  mid_log : mid.log = insertNew LogRow.key db.log
    (txInstantRow call.backend.txId call.backend.now)
  mid_current : mid.current = put CurrentRow.triple db.current
    ⟨call.backend.txId, Entids.dbTxInstant, .instant call.backend.now, call.backend.txId⟩
  mid_transactions : mid.transactions = put TxRow.tx db.transactions
    ⟨call.backend.txId, call.backend.now⟩
  mid_schema : ∃ rows : List SchemaRow,
    mid.schema = rows.foldl (put SchemaRow.entid) db.schema
  cache_mid : call.cache db = mid.cache
  run : QueueRun mid.cache (call.pending db) call.backend.txId call.backend.scan mid
    (call.pending db) loop rows
  log : LogFlushed rows loop db'
  projection : ProjectionFlushed rows loop db'
  schema_eq : db'.schema = mid.schema
  idents_eq : db'.idents = mid.idents
  transactions_eq : db'.transactions = mid.transactions

theorem insertDatoms_ensures (c : SchemaCache) (pending : List PendingDatom) (tx : Int64)
    (b : Backend) (db : Db) :
    server.Ensures (insertDatoms c pending tx) b db fun _ _ db' =>
      ∃ loop rows, QueueRun c pending tx b.scan db pending loop rows ∧
        LogFlushed rows loop db' ∧ ProjectionFlushed rows loop db' ∧
        db'.schema = loop.schema ∧ db'.idents = loop.idents ∧
        db'.transactions = loop.transactions := by
  unfold insertDatoms
  simp only [Server.ensures_bind]
  refine (queueLoop_ensures c pending tx b db).mono fun st b1 loop h1 => ?_
  refine (batchInsertDatoms_ensures _ _ _).mono fun _ b2 db2 h2 => ?_
  refine (maintainCurrentProjection_ensures _ _ _).mono fun _ b3 db3 h3 => ?_
  have hfulltext : server.Ensures
      (st.fulltextValues.foldlM (fun _ text => spi (.insertFulltext text)) ()) b3 db3
      fun _ _ db' => db' = { db3 with fulltext := db'.fulltext } := by
    refine Server.ensures_foldlM
      (fun _ (_ : Unit) _ (db' : Db) => db' = { db3 with fulltext := db'.fulltext })
      rfl fun _ text _ _ _ db4 _ hdb => ?_
    refine (Server.ensures_issue _).mpr fun _ b5 ops h => ?_
    cases h
    rw [hdb]
    rfl
  refine hfulltext.mono fun _ b4 db' h4 => ⟨loop, st.rows, h1.2, ?_⟩
  have hlog : db'.log = db2.log := by rw [h4, h3.2]
  have hcur : db'.current = db3.current := by rw [h4]
  refine ⟨⟨h2.1.1, hlog ▸ h2.1.2⟩, fun x => ?_, ?_, ?_, ?_⟩
  · rw [hcur, h3.1 x, h2.2]
  · rw [h4, h3.2, h2.2]
  · rw [h4, h3.2, h2.2]
  · rw [h4, h3.2, h2.2]

theorem committed_of_begin {db mid db' : Db} {entities : List EdnValue} {ids : TxIds}
    {prepared : Prepared} {b b' : Backend} (hdoc : call.document = .vector entities)
    (hbegin : server.run (beginTransaction call.backend.stackDepth entities) call.backend db =
      .ok ((ids, prepared), b, mid))
    (hinsert : server.run (insertDatoms prepared.cache prepared.pending ids.tx) b mid =
      .ok ((), b', db')) :
    ∃ loop rows, Committed call db mid loop db' rows := by
  have hbegun := beginTransaction_ensures _ _ _ hbegin
  have hprepared := Call.prepared_eq hdoc hbegin
  obtain ⟨loop, rows, hqueue, hlog, hproj, hschema, hidents, htrans⟩ :=
    insertDatoms_ensures _ _ _ _ _ _ _ _ hinsert
  obtain ⟨hschema', hidents', htrans'⟩ := hqueue.other_tables
  rw [hbegun.session.2.2.1, hbegun.cache_eq, hbegun.tx_eq] at hqueue
  exact ⟨loop, rows, {
    tx_new := hbegun.tx_new
    mid_log := hbegun.log_eq
    mid_current := hbegun.current_eq
    mid_transactions := hbegun.transactions_eq
    mid_schema := hbegun.schema_eq
    cache_mid := by
      rw [Call.cache, hprepared]
      exact hbegun.cache_eq
    run := by
      rw [Call.pending, hprepared]
      exact hqueue
    log := hlog
    projection := hproj
    schema_eq := hschema.trans hschema'
    idents_eq := hidents.trans hidents'
    transactions_eq := htrans.trans htrans' }⟩

theorem mentatTransact_committed {report : TxReport}
    (h : mentatTransact call db = .ok (report, db')) :
    ∃ mid loop rows, Committed call db mid loop db' rows := by
  obtain ⟨entities, ids, prepared, b, mid, b', hdoc, hbegin, -, hinsert⟩ := mentatTransact_begin h
  obtain ⟨loop, rows, hcommitted⟩ := committed_of_begin hdoc hbegin hinsert
  exact ⟨mid, loop, rows, hcommitted⟩

end PgMentat

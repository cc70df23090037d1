import PgMentat.Transact.Commit

namespace PgMentat

open List StatementProgram Program KeyedTable TypedValue Server

def Completes {α : Type} (p : Tx α) (b : Backend) (db : Db) : Prop :=
  server.FailsWith p b db fun _ => False

section Rules

variable {α β : Type} {b : Backend} {db : Db}

theorem completes_ret (a : α) : Completes (.ret a) b db := failsWith_ret a

theorem completes_spi {s : Stmt} (h : ∀ e, s.answer b db ≠ .error e) : Completes (spi s) b db :=
  failsWith_issue fun e he => h e he

theorem Completes.bind {p : Tx α} {f : α → Tx β} (hp : Completes p b db)
    (hf : server.Ensures p b db fun a b' db' => Completes (f a) b' db') :
    Completes (p >>= f) b db :=
  Server.FailsWith.bind hp hf

theorem Completes.bind_all {p : Tx α} {f : α → Tx β} (hp : Completes p b db)
    (hf : ∀ a b' db', Completes (f a) b' db') : Completes (p >>= f) b db :=
  Server.FailsWith.bind_all hp hf

end Rules

section Queue

variable {c : SchemaCache} {all : List PendingDatom} {tx : Int64} {st : InsertState}
  {d : PendingDatom} {b : Backend} {db : Db} {info : SchemaRow}

/-- The projection's text for an assertion's entity and attribute, if any, can be read. -/
def Readable (scan : ScanOrder) (db : Db) (d : PendingDatom) : Prop :=
  ∀ r, firstCurrent scan db d.v.valueType d.e d.a = some r →
    ∃ old, parseFromTag d.v.valueType r.v.projectionText = .ok old

theorem validateDatomConstraints_completes (hv : Validated c all b.scan db d info) :
    Completes (validateDatomConstraints c d all) b db := by
  have htag : d.v.typeTag = info.valueType.toTag := congrArg ValueType.toTag hv.type_eq
  have hone : ¬ (info.cardinality = .one ∧ 1 < countInTx d all) := by
    intro h
    have hle := hv.single h.1
    omega
  unfold validateDatomConstraints
  rw [hv.attr]
  dsimp only
  rw [if_neg (not_not.mpr htag), if_neg hone]
  split
  · exact completes_ret _
  · rename_i unique hunique
    have hsome : info.uniqueConstraint ≠ none := by simp [hunique]
    unfold validateUnique
    rw [hv.no_duplicate hsome]
    apply (completes_spi (by intro e h; cases h)).bind
    refine (ensures_issue _).mpr fun _ b1 ops h => ?_
    cases h
    apply (completes_spi (by intro e h; cases h)).bind
    refine (checkUniqueTypedValue_ensures _ _ _ _).mono fun existing b2 db2 h2 => ?_
    split
    · exact completes_ret _
    · -- the holder the log has is the entity itself
      have hself := hv.holder hsome _ h2.1.symm
      rw [if_pos hself]
      exact completes_ret _

theorem retractExistingCardinalityOne_completes (hread : Readable b.scan db d) :
    Completes (retractExistingCardinalityOne d.e d.a d.v) b db := by
  unfold retractExistingCardinalityOne currentProjectionValueForEa
  apply Completes.bind_all
  · apply (completes_spi (by intro e h; cases h)).bind
    refine (ensures_issue _).mpr fun text b1 ops h => ?_
    cases h
    split
    · exact completes_ret _
    · rename_i text hsome
      obtain ⟨r, hr, rfl⟩ := Option.map_eq_some_iff.mp hsome
      obtain ⟨old, hold⟩ := hread r hr
      rw [hold]
      exact completes_ret _
  · intro old b1 db1
    split
    · exact completes_ret _
    · split <;> exact completes_ret _

theorem queueAssertion_completes (hread : info.cardinality = .one → Readable b.scan db d) :
    Completes (queueAssertion info d tx st) b db := by
  unfold queueAssertion
  split
  · rename_i hone
    apply (retractExistingCardinalityOne_completes (hread hone)).bind_all
    intro result b1 db1
    split <;> exact completes_ret _
  · apply (completes_spi (by intro e h; cases h)).bind_all
    intro duplicate b1 db1
    split <;> exact completes_ret _

theorem queueNoHistory_completes (hread : info.cardinality = .one → Readable b.scan db d) :
    Completes (queueNoHistory info d tx st) b db := by
  have hspi : ∀ {s : Stmt} {b db}, (∀ e, s.answer b db ≠ .error e) → Completes (spi s) b db :=
    completes_spi
  unfold queueNoHistory
  split
  · rename_i hone
    apply (retractExistingCardinalityOne_completes (hread hone)).bind_all
    intro result b1 db1
    split
    · exact completes_ret _
    · apply (hspi (by intro e h; cases h)).bind_all
      intro _ b2 db2
      apply (hspi (by intro e h; cases h)).bind_all
      intro _ b3 db3
      exact completes_ret _
  · apply (hspi (by intro e h; cases h)).bind_all
    intro duplicate b1 db1
    split
    · exact completes_ret _
    · apply (hspi (by intro e h; cases h)).bind_all
      intro _ b2 db2
      exact completes_ret _

/-- What one round needs: an assertion has to pass its checks and, on a single-valued attribute,
to read the value the projection has. -/
def Admitted (c : SchemaCache) (all : List PendingDatom) (scan : ScanOrder) (db : Db)
    (d : PendingDatom) : Prop :=
  d.added = true → ∃ info, Validated c all scan db d info ∧
    (info.cardinality = .one → Readable scan db d)

theorem queueDatom_completes (h : Admitted c all b.scan db d) :
    Completes (queueDatom c all tx st d) b db := by
  unfold queueDatom
  split
  · rename_i hadded
    obtain ⟨info, hv, hread⟩ := h hadded
    apply (validateDatomConstraints_completes hv).bind
    refine (validateDatomConstraints_ensures hadded).mono fun _ b1 db1 h1 => ?_
    obtain ⟨-, rfl, rfl⟩ := h1
    rw [hv.attr]
    dsimp only
    split
    · exact queueNoHistory_completes hread
    · exact queueAssertion_completes hread
  · exact completes_ret _

theorem queueLoop_completes {pending : List PendingDatom}
    (h : ∀ done loop rows, QueueRun c pending tx b.scan db done loop rows →
      ∀ d ∈ pending, Admitted c pending b.scan loop d) :
    Completes (pending.foldlM (queueDatom c pending tx) {}) b db := by
  refine Server.FailsWith.foldlM
    (fun done (st : InsertState) b' db' => b' = b ∧
      QueueRun c pending tx b.scan db done db' st.rows)
    ⟨rfl, .nil⟩ ?_
  intro done d rest st b1 db1 hsplit hI
  obtain ⟨rfl, hrun⟩ := hI
  have hd : d ∈ pending := by simp [hsplit]
  refine ⟨queueDatom_completes (h done db1 st.rows hrun d hd), ?_⟩
  exact queueDatom_ensures.mono fun st' b2 db2 h2 => ⟨h2.1, hrun.snoc h2.2⟩

end Queue

theorem nodup_dedupRows (rows : List LogRow) : (dedupRows rows).Nodup := by
  induction rows with
  | nil => exact nodup_nil
  | cons r rows ih =>
    refine nodup_cons.mpr ⟨fun hr => ?_, ih.filter _⟩
    simpa using (mem_filter.mp hr).2

variable {b : Backend} {db : Db} {entities : List EdnValue} {call : Call}

theorem flushTypes_completes {κ : Type} {rows : List κ} {type : κ → ValueType}
    {stmt : ValueType → List κ → Tx Unit}
    (h : ∀ t b db, Completes (stmt t (rows.filter fun r => type r = t)) b db) :
    Completes (flushTypes rows type stmt) b db := by
  refine failsWith_foldlM fun _ t b db => ?_
  have ht := h t b db
  split
  · exact completes_ret _
  · rename_i r rest hrows
    rwa [hrows] at ht

theorem batchInsertDatoms_completes {rows : List LogRow}
    (h : KeyUnique LogRow.key (dedupRows rows)) :
    Completes (batchInsertDatoms rows) b db := by
  apply flushTypes_completes
  intro t b db
  apply completes_spi
  intro e he
  have hnodup : (((dedupRows rows).filter fun r => r.v.valueType = t).map LogRow.key).Nodup := by
    refine ((nodup_dedupRows rows).filter _).map_on ?_
    intro x hx y hy hxy
    exact h x (mem_filter.mp hx).1 y (mem_filter.mp hy).1 hxy
  simp only [Stmt.answer, if_pos hnodup, reduceCtorEq] at he

theorem nodup_upserts (rows : List LogRow) :
    ((rows.foldl ProjectionBatch.add {}).upserts.map CurrentRow.triple).Nodup := by
  induction rows using List.reverseRecOn with
  | nil => exact nodup_nil
  | append_singleton rows x ih =>
    rw [foldl_append, foldl_cons, foldl_nil]
    generalize rows.foldl ProjectionBatch.add {} = batch at ih
    have hkept : ((batch.upserts.filter fun u =>
        projectionKey u.triple ≠ projectionKey x.triple).map CurrentRow.triple).Nodup :=
      ih.sublist (filter_sublist.map _)
    unfold ProjectionBatch.add
    dsimp only
    split
    · rw [map_append, nodup_append]
      refine ⟨hkept, nodup_singleton _, ?_⟩
      intro k hk k' hk' heq
      obtain ⟨u, hu, rfl⟩ := mem_map.mp hk
      rw [map_singleton, mem_singleton] at hk'
      have hne := (mem_filter.mp hu).2
      rw [heq, hk'] at hne
      exact absurd rfl (of_decide_eq_true hne)
    · exact hkept

theorem maintainCurrentProjection_completes (rows : List LogRow) (b : Backend) (db : Db) :
    Completes (maintainCurrentProjection rows) b db := by
  unfold maintainCurrentProjection
  dsimp only
  apply Completes.bind_all
  · exact flushTypes_completes fun t b db => completes_spi (by intro e h; cases h)
  · intro _ b1 db1
    apply flushTypes_completes
    intro t b db
    apply completes_spi
    intro e he
    have hnodup : (((rows.foldl ProjectionBatch.add {}).upserts.filter fun r =>
        r.v.valueType = t).map CurrentRow.triple).Nodup :=
      (nodup_upserts rows).sublist (filter_sublist.map _)
    simp only [Stmt.answer, if_pos hnodup, reduceCtorEq] at he

/-- `insert_datoms` ends if every round is admitted and the rows it queues have one flag each. -/
theorem insertDatoms_completes {c : SchemaCache} {pending : List PendingDatom} {tx : Int64}
    (hadmitted : ∀ done loop rows, QueueRun c pending tx b.scan db done loop rows →
      ∀ d ∈ pending, Admitted c pending b.scan loop d)
    (hkeys : ∀ loop rows, QueueRun c pending tx b.scan db pending loop rows →
      KeyUnique LogRow.key (dedupRows rows)) :
    Completes (insertDatoms c pending tx) b db := by
  unfold insertDatoms
  apply (queueLoop_completes hadmitted).bind
  refine (queueLoop_ensures c pending tx b db).mono fun st b1 loop h1 => ?_
  apply (batchInsertDatoms_completes (hkeys loop st.rows h1.2)).bind_all
  intro _ b2 db2
  apply (maintainCurrentProjection_completes st.rows b2 db2).bind_all
  intro _ b3 db3
  refine failsWith_foldlM fun _ text b db => ?_
  exact completes_spi (by intro e h; cases h)

/-- The state the passes start from: the transaction's own rows are there. -/
def Db.begun (db : Db) (b : Backend) : Db :=
  { db with
    log := insertNew LogRow.key db.log (txInstantRow b.txId b.now)
    current := put CurrentRow.triple db.current
      ⟨b.txId, Entids.dbTxInstant, .instant b.now, b.txId⟩
    transactions := put TxRow.tx db.transactions ⟨b.txId, b.now⟩ }

theorem allocateTxId_run (hnew : ∀ r ∈ db.transactions, r.tx ≠ b.txId) :
    server.run allocateTxId b db = .ok (⟨db.basisBelow b.txId, b.txId, b.now⟩, b,
      { db with transactions := put TxRow.tx db.transactions ⟨b.txId, b.now⟩ }) := by
  have hfree : ¬ ∃ r ∈ db.transactions, r.tx = b.txId := by
    rintro ⟨r, hr, heq⟩
    exact hnew r hr heq
  have htx : server.run (spi .nextvalTx) b db = .ok (b.txId, b, db) := rfl
  have hbasis : server.run (spi (.selectBasis b.txId)) b db =
      .ok (db.basisBelow b.txId, b, db) := rfl
  have hinsert : server.run (spi (.insertTransaction b.txId)) b db = .ok (b.now, b,
      { db with transactions := put TxRow.tx db.transactions ⟨b.txId, b.now⟩ }) := by
    have hanswer : server.answer (.insertTransaction b.txId) b db =
        .ok (b.now, b, [.putTransaction ⟨b.txId, b.now⟩]) := if_neg hfree
    simp only [Program.issue, Server.run, hanswer]
    rfl
  unfold allocateTxId
  simp only [run_bind, htx, hbasis, hinsert]
  rfl

theorem recordTxInstant_run (tx instant : Int64) (b : Backend) (db : Db) :
    server.run (recordTxInstant tx instant) b db = .ok ((), b, { db with
      log := insertNew LogRow.key db.log (txInstantRow tx instant)
      current := put CurrentRow.triple db.current
        ⟨tx, Entids.dbTxInstant, .instant instant, tx⟩ }) := by
  have hcompletes : Completes (recordTxInstant tx instant) b db := by
    apply (completes_spi (by intro e h; cases h)).bind_all
    intro _ b1 db1
    apply completes_spi
    intro e he
    cases he
  obtain ⟨_, b', db', hrun⟩ := exists_run hcompletes
  have hb : b' = b := by
    obtain ⟨_, b1, db1, h1, h2⟩ := run_bind_eq_ok _ hrun
    cases h1
    cases h2
    rfl
  rw [hrun, hb, recordTxInstant_ensures _ _ _ _ _ _ _ hrun]

theorem beginTransaction_run {depth : Nat} (hnew : ∀ r ∈ db.transactions, r.tx ≠ b.txId) :
    server.run (beginTransaction depth entities) b db =
      match server.run (prepareDatoms depth entities) b (db.begun b) with
      | .ok (prepared, b', mid) => .ok ((⟨db.basisBelow b.txId, b.txId, b.now⟩, prepared), b', mid)
      | .error e => .error e := by
  unfold beginTransaction
  simp only [run_bind, allocateTxId_run hnew, recordTxInstant_run]
  rw [← Db.begun]
  cases server.run (prepareDatoms depth entities) b (db.begun b) <;> rfl

theorem mentatTransact_of_begin {db mid : Db} {ids : TxIds} {prepared : Prepared}
    (hdoc : call.document = .vector entities)
    (hbegin : server.run (beginTransaction call.backend.stackDepth entities) call.backend db =
      .ok ((ids, prepared), b, mid))
    (hinsert : Completes (insertDatoms prepared.cache prepared.pending ids.tx) b mid) :
    ∃ report db', mentatTransact call db = .ok (report, db') := by
  obtain ⟨_, b', db', hrun⟩ := exists_run hinsert
  refine ⟨.of ids prepared, db', ?_⟩
  simp only [mentatTransact, hdoc, executeTransactionInner, run_bind, hbegin, hrun]
  rfl

theorem mentatTransact_of_begin_error {e : MentatError} (hdoc : call.document = .vector entities)
    (hbegin : server.run (beginTransaction call.backend.stackDepth entities) call.backend db =
      .error e) :
    mentatTransact call db = .error e := by
  simp only [mentatTransact, hdoc, executeTransactionInner, run_bind, hbegin]

/-- The projection after one row: an assertion puts its triple with its transaction, a retraction
takes the triple away. -/
def projectRow (current : List CurrentRow) (r : LogRow) : List CurrentRow :=
  if r.added then put CurrentRow.triple current ⟨r.e, r.a, r.v, r.tx⟩
  else del CurrentRow.triple current r.triple

theorem mem_projectRow {current : List CurrentRow} {r : LogRow} {u : CurrentRow} :
    u ∈ projectRow current r ↔ r.added = true ∧ u.triple = r.triple ∧ u.tx = r.tx ∨
      u.triple ≠ r.triple ∧ u ∈ current := by
  have hrow : u = ⟨r.e, r.a, r.v, r.tx⟩ ↔ u.triple = r.triple ∧ u.tx = r.tx := CurrentRow.eq_iff
  unfold projectRow
  cases hr : r.added with
  | false => simp [mem_del, and_comm]
  | true => simp [mem_put, hrow, and_comm, CurrentRow.triple, LogRow.triple]

theorem mem_foldl_projectRow {rows : List LogRow} {current : List CurrentRow} {u : CurrentRow} :
    u ∈ rows.foldl projectRow current ↔
      (∃ r, lastRow rows u.triple = some r ∧ r.added = true ∧ u.tx = r.tx) ∨
        (lastRow rows u.triple = none ∧ u ∈ current) := by
  induction rows using List.reverseRecOn with
  | nil => simp [lastRow]
  | append_singleton rows x ih =>
    rw [foldl_append, foldl_cons, foldl_nil, mem_projectRow, ih, lastRow_append]
    by_cases hu : u.triple = x.triple
    · simp [hu]
    · simp [hu, Ne.symm hu]

/-- The batch succeeds and leaves what the rows leave one by one. -/
theorem maintainCurrentProjection_eq_foldl (rows : List LogRow) (b : Backend) (db : Db) :
    ∃ b' db', server.run (maintainCurrentProjection rows) b db = .ok ((), b', db') ∧
      db' = { db with current := db'.current } ∧
      ∀ u, u ∈ db'.current ↔ u ∈ rows.foldl projectRow db.current := by
  cases hrun : server.run (maintainCurrentProjection rows) b db with
  | error e => exact (maintainCurrentProjection_completes rows b db e hrun).elim
  | ok result =>
    obtain ⟨_, b', db'⟩ := result
    obtain ⟨hflushed, hdb⟩ := maintainCurrentProjection_ensures rows b db _ _ _ hrun
    exact ⟨b', db', rfl, hdb, fun u => (hflushed u).trans mem_foldl_projectRow.symm⟩

end PgMentat

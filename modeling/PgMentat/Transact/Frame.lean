import PgMentat.Transact.Body

namespace PgMentat

open StatementProgram Program KeyedTable Server

/-- Statements after the allocation of the transaction id that write no row. -/
def Stmt.ReadOnly : Stmt → Prop
  | .nextvalUser | .selectSchema | .selectIdent _ | .selectDatomsOf _ | .selectCurrentOf _ _
  | .selectUnique _ _ | .advisoryXactLock _ _ | .selectCurrentText _ _ _
  | .existsCurrent _ _ _ => True
  | _ => False

/-- Statements that write no row but those of `schema` and `idents`. -/
def Stmt.SchemaOnly : Stmt → Prop
  | .upsertIdent _ | .upsertSchema _ => True
  | s => s.ReadOnly

variable {s : Stmt} {b' : Backend} {x : s.Reply} {ops : List RowWrite}

theorem Stmt.ReadOnly.schemaOnly (h : s.ReadOnly) : s.SchemaOnly := by
  cases s <;> trivial

/-- The part of a session that statements do not change: all but the ids left to draw. -/
def Backend.SameSession (b b' : Backend) : Prop :=
  b'.now = b.now ∧ b'.txId = b.txId ∧ b'.scan = b.scan ∧ b'.stackDepth = b.stackDepth

theorem Backend.SameSession.refl (b : Backend) : b.SameSession b := ⟨rfl, rfl, rfl, rfl⟩

theorem Backend.SameSession.trans {b1 b2 b3 : Backend} (h : b1.SameSession b2)
    (h' : b2.SameSession b3) : b1.SameSession b3 :=
  ⟨h'.1.trans h.1, h'.2.1.trans h.2.1, h'.2.2.1.trans h.2.2.1, h'.2.2.2.trans h.2.2.2⟩

variable {b : Backend} {db : Db} {call : Call} {entities : List EdnValue}

theorem sameSession_of_answer (h : s.answer b db = .ok (x, b', ops)) : b.SameSession b' := by
  cases s <;> simp only [Stmt.answer] at h <;> first
    | (cases h; exact .refl _)
    | (split at h <;> cases h; exact .refl _)

theorem writes_of_readOnly (hs : s.ReadOnly) (h : s.answer b db = .ok (x, b', ops)) : ops = [] := by
  cases s <;> simp only [Stmt.ReadOnly] at hs <;> simp only [Stmt.answer] at h <;> first
    | (cases h; rfl)
    | (split at h <;> cases h; rfl)

/-- Only `schema` and `idents` differ, the former by upserts. -/
structure Db.SchemaChange (db db' : Db) : Prop where
  log_eq : db'.log = db.log
  current_eq : db'.current = db.current
  transactions_eq : db'.transactions = db.transactions
  fulltext_eq : db'.fulltext = db.fulltext
  schema_eq : ∃ rows : List SchemaRow,
    db'.schema = rows.foldl (KeyedTable.put SchemaRow.entid) db.schema

theorem Db.SchemaChange.refl (db : Db) : db.SchemaChange db := ⟨rfl, rfl, rfl, rfl, [], rfl⟩

theorem Db.SchemaChange.trans {db1 db2 db3 : Db} (h : db1.SchemaChange db2)
    (h' : db2.SchemaChange db3) : db1.SchemaChange db3 := by
  obtain ⟨rows, hrows⟩ := h.schema_eq
  obtain ⟨rows', hrows'⟩ := h'.schema_eq
  refine ⟨h'.log_eq.trans h.log_eq, h'.current_eq.trans h.current_eq,
    h'.transactions_eq.trans h.transactions_eq, h'.fulltext_eq.trans h.fulltext_eq,
    rows ++ rows', ?_⟩
  rw [hrows', hrows, List.foldl_append]

theorem schemaChange_of_answer (hs : s.SchemaOnly) (h : s.answer b db = .ok (x, b', ops)) :
    db.SchemaChange (server.writeAll db ops) := by
  by_cases hro : s.ReadOnly
  · rw [writes_of_readOnly hro h]
    exact .refl db
  · cases s <;> simp only [Stmt.SchemaOnly] at hs <;> try exact absurd hs hro
    case upsertIdent row =>
      simp only [Stmt.answer] at h
      split at h <;> cases h
      exact ⟨rfl, rfl, rfl, rfl, [], rfl⟩
    case upsertSchema row =>
      simp only [Stmt.answer] at h
      split at h <;> cases h
      exact ⟨rfl, rfl, rfl, rfl, [row], rfl⟩

section Rules

variable {α : Type} {p : Tx α} {b : Backend} {db : Db}

theorem ensures_sameSession : server.Ensures p b db fun _ b' _ => b.SameSession b' :=
  ensures_of_answer (fun _ _ _ _ _ _ hb h => hb.trans (sameSession_of_answer h)) (.refl b)

theorem ensures_readOnly (hp : p.Only Stmt.ReadOnly) :
    server.Ensures p b db fun _ _ db' => db' = db :=
  ensures_of_only (I := fun _ db' => db' = db)
    (fun s b1 db1 x b2 ops hs hdb h => by
      rw [writes_of_readOnly hs h]
      exact hdb) hp rfl

theorem ensures_schemaChange (hp : p.Only Stmt.SchemaOnly) :
    server.Ensures p b db fun _ _ db' => db.SchemaChange db' :=
  ensures_of_only (I := fun _ db' => db.SchemaChange db')
    (fun _ _ _ _ _ _ hs hdb h => hdb.trans (schemaChange_of_answer hs h)) hp (.refl db)

end Rules

section

variable (c : SchemaCache)

theorem resolveLookupRef_only (attr value : EdnValue) :
    (resolveLookupRef c attr value).Only Stmt.ReadOnly := by
  refine (only_ofExcept _).bind fun a => ?_
  split
  · trivial
  · split
    · trivial
    · refine (only_ofExcept _).bind fun v => ((only_issue _).mpr trivial).bind fun e => ?_
      split <;> trivial

theorem resolveEntityPlace_only (tempids : Tempids) (place : EdnValue) :
    (resolveEntityPlace c tempids place).Only Stmt.ReadOnly := by
  unfold resolveEntityPlace
  split
  · trivial
  · split
    · trivial
    · exact ((only_issue _).mpr trivial).bind fun _ => trivial
  · split
    · trivial
    · refine ((only_issue _).mpr trivial).bind fun id => ?_
      split <;> trivial
  · exact (resolveLookupRef_only c _ _).bind fun _ => trivial
  · trivial
  · trivial

theorem encodeForAttribute_only (tempids : Tempids) (a : Int64) (value : EdnValue) :
    (encodeForAttribute c tempids a value).Only Stmt.ReadOnly := by
  unfold encodeForAttribute
  split
  · exact (resolveEntityPlace_only c tempids value).bind fun _ => trivial
  · exact (only_ofExcept _).bind fun _ => trivial

theorem scanMapId_only (st : ScanState) (entries : List (EdnValue × EdnValue)) (index : Nat) :
    (scanMapId c st entries index).Only Stmt.ReadOnly := by
  unfold scanMapId
  split
  · exact (resolveEntityPlace_only c _ _).bind fun _ => trivial
  · exact ((only_issue _).mpr trivial).bind fun _ => trivial

theorem scanEntity_only (st : ScanState) (entity : EdnValue × Nat) :
    (scanEntity c st entity).Only Stmt.ReadOnly := by
  unfold scanEntity
  split
  · split
    · refine (resolveEntityPlace_only c _ _).bind fun _ => ?_
      dsimp only
      split <;> trivial
    · trivial
  · exact (scanMapId_only c st _ _).bind fun _ => trivial
  · trivial

theorem scanEntities_only (entities : List EdnValue) :
    (scanEntities c entities).Only Stmt.ReadOnly :=
  Only.foldlM _ _ fun st entity _ => scanEntity_only c st entity

theorem executeRetractEntityRecursive_only (depth : Nat) (st : RetractState) (e : Int64) :
    (executeRetractEntityRecursive c depth st e).Only Stmt.ReadOnly := by
  induction depth generalizing st e with
  | zero => trivial
  | succ depth ih =>
    unfold executeRetractEntityRecursive
    split
    · trivial
    · exact ((only_issue _).mpr trivial).bind fun rows => Only.foldlM _ _ fun st e _ => ih st e

theorem executeCasFn_only (e a : Int64) (old new : EdnValue) (st : ExpandState) :
    (executeCasFn c e a old new st).Only Stmt.ReadOnly := by
  refine ((only_issue _).mpr trivial).bind fun current => ?_
  split
  · trivial
  · split
    · split
      · refine (encodeForAttribute_only c _ _ _).bind fun _ => ?_
        trivial
      · trivial
    · refine (encodeForAttribute_only c _ _ _).bind fun _ => ?_
      dsimp only
      split
      · split
        · exact (encodeForAttribute_only c _ _ _).bind fun _ => trivial
        · trivial
      · trivial

theorem expandTxFn_only (depth : Nat) (st : ExpandState) (f : BuiltinTxFn) (args : List EdnValue) :
    (expandTxFn c depth st f args).Only Stmt.ReadOnly := by
  unfold expandTxFn
  split
  · refine (resolveEntityPlace_only c _ _).bind fun _ => Only.bind ?_ fun _ => trivial
    exact (executeRetractEntityRecursive_only c depth _ _).bind fun _ => trivial
  · trivial
  · refine (resolveEntityPlace_only c _ _).bind fun _ => (only_ofExcept _).bind fun a => ?_
    exact executeCasFn_only c _ a _ _ _
  · trivial

theorem expandDatom_only (st : ExpandState) (place attr value : EdnValue) (added : Bool) :
    (expandDatom c st place attr value added).Only Stmt.ReadOnly :=
  (resolveEntityPlace_only c _ _).bind fun _ => (only_ofExcept _).bind fun _ =>
    (encodeForAttribute_only c _ _ _).bind fun _ => trivial

theorem expandOperation_only (depth : Nat) (st : ExpandState) (k : Keyword) (args : List EdnValue) :
    (expandOperation c depth st k args).Only Stmt.ReadOnly := by
  unfold expandOperation
  split
  · exact expandTxFn_only c depth st _ _
  · split
    · exact expandDatom_only c st _ _ _ true
    · split
      · exact expandDatom_only c st _ _ _ false
      · trivial
  · trivial

theorem expandMapId_only (ids : List (Nat × Int64)) (st : ExpandState)
    (entries : List (EdnValue × EdnValue)) (index : Nat) :
    (expandMapId c ids st entries index).Only Stmt.ReadOnly := by
  unfold expandMapId
  split
  · exact (resolveEntityPlace_only c _ _).bind fun _ => trivial
  · trivial
  · exact ((only_issue _).mpr trivial).bind fun _ => trivial

theorem expandMapEntry_only (e : Int64) (st : ExpandState) (entry : EdnValue × EdnValue) :
    (expandMapEntry c e st entry).Only Stmt.ReadOnly := by
  unfold expandMapEntry
  split
  · trivial
  · exact (only_ofExcept _).bind fun _ => (encodeForAttribute_only c _ _ _).bind fun _ => trivial

theorem expandEntity_only (depth : Nat) (ids : List (Nat × Int64)) (st : ExpandState)
    (entity : EdnValue × Nat) : (expandEntity c depth ids st entity).Only Stmt.ReadOnly := by
  unfold expandEntity
  split
  · exact expandOperation_only c depth st _ _
  · refine (expandMapId_only c ids st _ _).bind fun _ => ?_
    exact Only.foldlM _ _ fun st entry _ => expandMapEntry_only c _ st entry
  · trivial

theorem expandEntities_only (depth : Nat) (scan : ScanState) (entities : List EdnValue) :
    (expandEntities c depth scan entities).Only Stmt.ReadOnly :=
  Only.foldlM _ _ fun st entity _ => expandEntity_only c depth _ st entity

theorem resolveAgainstLog_only (remaps : Remaps) (d : PendingDatom) :
    (resolveAgainstLog c remaps d).Only Stmt.ReadOnly := by
  unfold resolveAgainstLog
  split
  · refine ((only_issue _).mpr trivial).bind fun existing => ?_
    split
    · trivial
    · split
      · trivial
      · split
        · trivial
        · split <;> trivial
  · trivial

theorem resolveUpserts_only (st : ExpandState) : (resolveUpserts c st).Only Stmt.ReadOnly := by
  refine (Only.foldlM _ _ fun remaps d _ => resolveAgainstLog_only c remaps d).bind fun _ => ?_
  dsimp only
  split <;> trivial

end

theorem installSchemaAttributes_only (builders : EntidMap SchemaBuilder) :
    (installSchemaAttributes builders).Only Stmt.SchemaOnly := by
  refine Only.foldlM _ _ fun _ entry _ => (only_ofExcept _).bind fun plan => ?_
  unfold install
  split
  · trivial
  · exact (only_issue _).mpr trivial
  · exact ((only_issue _).mpr trivial).bind fun _ => (only_issue _).mpr trivial

/-- What holds when `insert_datoms` starts. -/
structure Begun (call : Call) (db : Db) (ids : TxIds) (prepared : Prepared) (b : Backend)
    (mid : Db) : Prop where
  session : call.backend.SameSession b
  tx_eq : ids.tx = call.backend.txId
  instant_eq : ids.instant = call.backend.now
  basis_eq : ids.basis = db.basisBelow call.backend.txId
  tx_new : ∀ r ∈ db.transactions, r.tx ≠ call.backend.txId
  log_eq : mid.log = insertNew LogRow.key db.log
    (txInstantRow call.backend.txId call.backend.now)
  current_eq : mid.current = put CurrentRow.triple db.current
    ⟨call.backend.txId, Entids.dbTxInstant, .instant call.backend.now, call.backend.txId⟩
  transactions_eq : mid.transactions = put TxRow.tx db.transactions
    ⟨call.backend.txId, call.backend.now⟩
  fulltext_eq : mid.fulltext = db.fulltext
  schema_eq : ∃ rows : List SchemaRow,
    mid.schema = rows.foldl (put SchemaRow.entid) db.schema
  cache_eq : prepared.cache = mid.cache

theorem prepareDatoms_ensures (depth : Nat) (entities : List EdnValue) (b : Backend) (db : Db) :
    server.Ensures (prepareDatoms depth entities) b db fun prepared _ mid =>
      db.SchemaChange mid ∧ prepared.cache = mid.cache := by
  unfold prepareDatoms
  simp only [ensures_bind]
  have hread : ∀ {α : Type} {p : Tx α} {b db}, p.Only Stmt.ReadOnly →
      server.Ensures p b db fun _ _ db' => db' = db := fun hp => ensures_readOnly hp
  refine (hread ((only_issue Stmt.selectSchema).mpr trivial)).mono fun before b1 db1 h1 => ?_
  refine (hread (scanEntities_only _ _)).mono fun scan b2 db2 h2 => ?_
  refine (ensures_schemaChange (installSchemaAttributes_only _)).mono fun _ b3 db3 h3 => ?_
  rw [h2, h1] at h3
  refine (ensures_issue _).mpr fun cache b4 ops hans => ?_
  cases hans
  rw [writeAll_nil]
  refine (hread (expandEntities_only _ _ _ _)).mono fun expanded b5 db5 h5 => ?_
  refine (hread (resolveUpserts_only _ _)).mono fun resolved b6 db6 h6 => ?_
  rw [pure_eq_ret, ensures_ret, h6, h5]
  exact ⟨h3, rfl⟩

theorem allocateTxId_ensures (b : Backend) (db : Db) :
    server.Ensures allocateTxId b db fun ids _ mid =>
      ids.tx = b.txId ∧ ids.instant = b.now ∧ ids.basis = db.basisBelow b.txId ∧
      (∀ r ∈ db.transactions, r.tx ≠ b.txId) ∧
      mid = { db with transactions := put TxRow.tx db.transactions ⟨b.txId, b.now⟩ } := by
  unfold allocateTxId
  simp only [ensures_bind, ensures_issue, pure_eq_ret, ensures_ret]
  intro tx b1 ops1 h1 basis b2 ops2 h2 instant b3 ops3 h3
  cases h1
  cases h2
  simp only [server, Stmt.answer, writeAll_nil] at h3
  split at h3
  · cases h3
  · rename_i hnew
    cases h3
    push Not at hnew
    exact ⟨rfl, rfl, rfl, hnew, rfl⟩

theorem recordTxInstant_ensures (tx instant : Int64) (b : Backend) (db : Db) :
    server.Ensures (recordTxInstant tx instant) b db fun _ _ mid =>
      mid = { db with
        log := insertNew LogRow.key db.log (txInstantRow tx instant)
        current := put CurrentRow.triple db.current
          ⟨tx, Entids.dbTxInstant, .instant instant, tx⟩ } := by
  unfold recordTxInstant
  simp only [ensures_bind, ensures_issue]
  intro _ b1 ops1 h1 _ b2 ops2 h2
  have hlog : server.writeAll db ops1 =
      { db with log := insertNew LogRow.key db.log (txInstantRow tx instant) } := by
    cases h1
    unfold insertNew
    split
    · rfl
    · rename_i hnew
      push Not at hnew
      rw [← put_of_new hnew]
      rfl
  rw [hlog] at h2 ⊢
  cases h2
  rfl

theorem beginTransaction_ensures :
    server.Ensures (beginTransaction call.backend.stackDepth entities) call.backend db
      fun out b mid => Begun call db out.1 out.2 b mid := by
  suffices h : server.Ensures (beginTransaction call.backend.stackDepth entities) call.backend db
      fun out b mid => call.backend.SameSession b → Begun call db out.1 out.2 b mid from
    (ensures_sameSession.and h).mono fun out b mid h => h.2 h.1
  unfold beginTransaction
  simp only [ensures_bind]
  refine (ensures_sameSession.and (allocateTxId_ensures _ _)).mono fun ids b1 db1 h1 => ?_
  obtain ⟨hsession1, htx, hinstant, hbasis, hnew, hdb1⟩ := h1
  refine (recordTxInstant_ensures _ _ _ _).mono fun _ b2 db2 hdb2 => ?_
  refine (prepareDatoms_ensures _ _ _ _).mono fun prepared b3 mid h3 => ?_
  rw [pure_eq_ret, ensures_ret]
  intro hsession
  obtain ⟨hchange, hcache⟩ := h3
  rw [htx, hinstant, hdb1] at hdb2
  subst hdb2
  exact {
    session := hsession
    tx_eq := htx
    instant_eq := hinstant
    basis_eq := hbasis
    tx_new := hnew
    log_eq := hchange.log_eq
    current_eq := hchange.current_eq
    transactions_eq := hchange.transactions_eq
    fulltext_eq := hchange.fulltext_eq
    schema_eq := hchange.schema_eq
    cache_eq := hcache }

theorem mentatTransact_begin {db db' : Db} {report : TxReport}
    (h : mentatTransact call db = .ok (report, db')) :
    ∃ entities ids prepared b mid b', call.document = .vector entities ∧
      server.run (beginTransaction call.backend.stackDepth entities) call.backend db =
        .ok ((ids, prepared), b, mid) ∧
      report = .of ids prepared ∧
      server.run (insertDatoms prepared.cache prepared.pending ids.tx) b mid =
        .ok ((), b', db') := by
  unfold mentatTransact at h
  cases hrun : server.run (executeTransactionInner call.backend.stackDepth call.document)
      call.backend db with
  | error e => simp only [hrun, reduceCtorEq] at h
  | ok out =>
    simp only [hrun, Except.ok.injEq, Prod.mk.injEq] at h
    obtain ⟨rfl, rfl⟩ := h
    obtain ⟨report, b', db'⟩ := out
    unfold executeTransactionInner at hrun
    split at hrun
    · rename_i entities hdoc
      obtain ⟨⟨ids, prepared⟩, b, mid, hbegin, hrest⟩ := run_bind_eq_ok _ hrun
      obtain ⟨_, b2, db2, hinsert, hret⟩ := run_bind_eq_ok _ hrest
      cases hret
      exact ⟨entities, ids, prepared, b, mid, b', hdoc, hbegin, rfl, hinsert⟩
    · cases hrun

theorem Call.prepared_eq {db mid : Db} {ids : TxIds} {prepared : Prepared}
    (hdoc : call.document = .vector entities)
    (hbegin : server.run (beginTransaction call.backend.stackDepth entities) call.backend db =
      .ok ((ids, prepared), b, mid)) :
    call.prepared db = some prepared := by
  simp only [Call.prepared, hdoc, hbegin]

end PgMentat

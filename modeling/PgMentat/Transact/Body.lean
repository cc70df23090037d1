import PgMentat.Transact.Insert

namespace PgMentat

open StatementProgram

structure TxIds where
  basis : Int64
  tx : Int64
  instant : Int64

def allocateTxId : Tx TxIds := do
  let tx ← spi .nextvalTx
  let basis ← spi (.selectBasis tx)
  let instant ← spi (.insertTransaction tx)
  return { basis, tx, instant }

def txInstantRow (tx instant : Int64) : LogRow :=
  ⟨tx, Entids.dbTxInstant, .instant instant, tx, true⟩

/-- The `:db/txInstant` datom, in the log through the `datoms` view and in the projection. -/
def recordTxInstant (tx instant : Int64) : Tx Unit := do
  spi (.insertDatomsView (txInstantRow tx instant))
  spi (.upsertCurrent .instant [⟨tx, Entids.dbTxInstant, .instant instant, tx⟩])

/-- `tx-data` lists the `:db/txInstant` datom first. -/
structure TxReport where
  dbBefore : Int64
  dbAfter : Int64
  txData : List LogRow
  tempids : Tempids
  schemaChanged : Bool

/-- What the two passes hand to `insert_datoms`. -/
structure Prepared where
  cache : SchemaCache
  tempids : Tempids
  pending : List PendingDatom
  schemaChanged : Bool

/-- The cache is loaded before the first pass and again after the schema was installed. -/
def prepareDatoms (depth : Nat) (entities : List EdnValue) : Tx Prepared := do
  let before ← spi .selectSchema
  let scan ← scanEntities before entities
  installSchemaAttributes scan.builders
  let cache ← spi .selectSchema
  let expanded ← expandEntities cache depth scan entities
  let resolved ← resolveUpserts cache expanded
  return {
    cache
    tempids := resolved.tempids
    pending := resolved.pending
    schemaChanged := scan.builders ≠ [] }

/-- The transaction up to the point where its datoms are written. -/
def beginTransaction (depth : Nat) (entities : List EdnValue) : Tx (TxIds × Prepared) := do
  let ids ← allocateTxId
  recordTxInstant ids.tx ids.instant
  let prepared ← prepareDatoms depth entities
  return (ids, prepared)

def TxReport.of (ids : TxIds) (prepared : Prepared) : TxReport where
  dbBefore := ids.basis
  dbAfter := ids.tx
  txData := txInstantRow ids.tx ids.instant ::
    prepared.pending.map fun d => ⟨d.e, d.a, d.v, ids.tx, d.added⟩
  tempids := prepared.tempids
  schemaChanged := prepared.schemaChanged

def executeTransactionInner (depth : Nat) (document : EdnValue) : Tx TxReport :=
  match document with
  | .vector entities => do
    let (ids, prepared) ← beginTransaction depth entities
    insertDatoms prepared.cache prepared.pending ids.tx
    return .of ids prepared
  | other => .fail (.invalidTransaction ("Transaction must be a vector of entities, got " ++
      other.typeName ++ ". Expected EDN like: [[:db/add \"tempid\" :attr \"value\"]]"))

/-- One call: the parsed document and what PostgreSQL hands the call. A failed call is rolled
back, so it leaves no state. -/
structure Call where
  backend : Backend
  document : EdnValue

def mentatTransact (call : Call) (db : Db) : Except MentatError (TxReport × Db) :=
  match server.run (executeTransactionInner call.backend.stackDepth call.document)
      call.backend db with
  | .ok (report, _, db') => .ok (report, db')
  | .error e => .error e

/-- What a call asks to write in a given state, with tempids, lookup refs, transaction functions
and upserts resolved. -/
def Call.prepared (call : Call) (db : Db) : Option Prepared :=
  match call.document with
  | .vector entities =>
    match server.run (beginTransaction call.backend.stackDepth entities) call.backend db with
    | .ok ((_, prepared), _, _) => some prepared
    | .error _ => none
  | _ => none

def Call.pending (call : Call) (db : Db) : List PendingDatom :=
  match call.prepared db with
  | some prepared => prepared.pending
  | none => []

/-- The schema the datoms of a call are checked against: that of the state, with the
definitions of the call itself. -/
def Call.cache (call : Call) (db : Db) : SchemaCache :=
  match call.prepared db with
  | some prepared => prepared.cache
  | none => db.cache

end PgMentat

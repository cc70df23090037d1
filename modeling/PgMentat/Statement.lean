import PgMentat.Store

namespace PgMentat

open StatementProgram KeyedTable

/-- `COALESCE(MAX(tx), 0)` over the transactions below `tx`. -/
def Db.basisBelow (db : Db) (tx : Int64) : Int64 :=
  ((db.transactions.map TxRow.tx).filter fun t => t < tx).foldl
    (fun best t => if best < t then t else best) 0

namespace Stmt

def cannotAffectTwice : MentatError :=
  .postgres "ON CONFLICT DO UPDATE command cannot affect row a second time"

/-- A statement's reply and the row writes it makes, on the snapshot it sees. -/
def answer (s : Stmt) (b : Backend) (db : Db) :
    Except MentatError (s.Reply × Backend × List RowWrite) :=
  match s with
  | nextvalTx => .ok (b.txId, b, [])
  | nextvalUser =>
    match b.userIds with
    | [] => .error (.allocationFailed "db.part/user")
    | id :: rest => .ok (id, { b with userIds := rest }, [])
  | selectBasis tx => .ok (db.basisBelow tx, b, [])
  | insertTransaction tx =>
    if ∃ r ∈ db.transactions, r.tx = tx then
      .error (.transactionFailed ("Failed to create transaction record. " ++
        "The mentat.transactions table may be missing or the insert failed."))
    else .ok (b.now, b, [.putTransaction ⟨tx, b.now⟩])
  | insertDatomsView row =>
    .ok ((), b, if ∃ r ∈ db.log, r.key = row.key then [] else [.putLog row])
  | selectSchema => .ok (db.cache, b, [])
  | selectIdent ident =>
    .ok ((db.idents.find? fun r => r.ident = ident).map IdentRow.entid, b, [])
  | upsertIdent row =>
    if ∃ r ∈ db.idents, r.entid = row.entid ∧ r.ident ≠ row.ident then
      .error (.postgres "duplicate key value violates unique constraint on idents.entid")
    else .ok ((), b, [.putIdent row])
  | upsertSchema row =>
    if ∃ r ∈ db.schema, r.ident = row.ident ∧ r.entid ≠ row.entid then
      .error (.postgres "duplicate key value violates unique constraint on schema.ident")
    else .ok ((), b, [.putSchema row])
  | selectDatomsOf e =>
    .ok (((b.scan.log db.log).filter fun r => r.e = e ∧ r.added).map fun r => (r.a, r.v), b, [])
  | selectCurrentOf e a =>
    .ok (((b.scan.current db.current).filter fun r => r.e = e ∧ r.a = a).map CurrentRow.v, b, [])
  | selectUnique a v =>
    .ok (((b.scan.log db.log).find? fun r => r.a = a ∧ r.v = v ∧ r.added).map LogRow.e, b, [])
  | advisoryXactLock _ _ => .ok ((), b, [])
  | selectCurrentText type e a =>
    .ok (((b.scan.current db.current).find? fun r =>
      r.e = e ∧ r.a = a ∧ r.v.valueType = type).map fun r => r.v.projectionText, b, [])
  | existsCurrent e a v => .ok (decide (∃ r ∈ db.current, r.triple = (e, a, v)), b, [])
  | deleteLogEa type e a =>
    .ok ((), b, ((db.log.filter fun r =>
      r.e = e ∧ r.a = a ∧ r.v.valueType = type).map LogRow.key).map .delLog)
  | deleteLogEav e a v =>
    .ok ((), b, ((db.log.filter fun r => r.triple = (e, a, v)).map LogRow.key).map .delLog)
  | deleteCurrentEa type e a =>
    .ok ((), b, ((db.current.filter fun r =>
      r.e = e ∧ r.a = a ∧ r.v.valueType = type).map CurrentRow.triple).map .delCurrent)
  | insertLog _ rows =>
    if (rows.map LogRow.key).Nodup then .ok ((), b, rows.map .putLog)
    else .error cannotAffectTwice
  | deleteCurrent _ triples =>
    .ok ((), b, ((db.current.filter fun r =>
      r.triple ∈ triples).map CurrentRow.triple).map .delCurrent)
  | upsertCurrent _ rows =>
    if (rows.map CurrentRow.triple).Nodup then .ok ((), b, rows.map .putCurrent)
    else .error cannotAffectTwice
  | insertFulltext text => .ok ((), b, [.addFulltext text])

end Stmt

def server : Server Stmt Stmt.Reply MentatError Backend Db RowWrite where
  answer := Stmt.answer
  write := Db.write

abbrev Tx (α : Type) : Type := Program Stmt Stmt.Reply MentatError α

abbrev spi (s : Stmt) : Tx s.Reply := .issue s

theorem writeAll_putLog (db : Db) (rows : List LogRow) :
    server.writeAll db (rows.map .putLog) =
      { db with log := rows.foldl (put LogRow.key) db.log } := by
  induction rows generalizing db with
  | nil => rfl
  | cons r rows ih => exact ih (db.write (.putLog r))

theorem writeAll_delLog (db : Db) (keys : List (Triple × Int64)) :
    server.writeAll db (keys.map .delLog) =
      { db with log := keys.foldl (del LogRow.key) db.log } := by
  induction keys generalizing db with
  | nil => rfl
  | cons k keys ih => exact ih (db.write (.delLog k))

theorem writeAll_putCurrent (db : Db) (rows : List CurrentRow) :
    server.writeAll db (rows.map .putCurrent) =
      { db with current := rows.foldl (put CurrentRow.triple) db.current } := by
  induction rows generalizing db with
  | nil => rfl
  | cons r rows ih => exact ih (db.write (.putCurrent r))

theorem writeAll_delCurrent (db : Db) (triples : List Triple) :
    server.writeAll db (triples.map .delCurrent) =
      { db with current := triples.foldl (del CurrentRow.triple) db.current } := by
  induction triples generalizing db with
  | nil => rfl
  | cons k triples ih => exact ih (db.write (.delCurrent k))

end PgMentat

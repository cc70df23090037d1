import PgMentat.Edn
import PgMentat.Lib.KeyedTable
import PgMentat.Lib.Program

namespace PgMentat

open StatementProgram KeyedTable

namespace Entids

def dbIdent : Int64 := 10
def dbValueType : Int64 := 11
def dbCardinality : Int64 := 12
def dbUnique : Int64 := 13
def dbIndex : Int64 := 14
def dbFulltext : Int64 := 15
def dbComponent : Int64 := 16
def dbNoHistory : Int64 := 17
def dbIsComponent : Int64 := 18
def dbDoc : Int64 := 19
def dbTxInstant : Int64 := 50

end Entids

/-- A row of `datoms_<type>_new`; the primary key is every column but `added`. -/
structure LogRow where
  e : Int64
  a : Int64
  v : TypedValue
  tx : Int64
  added : Bool
  deriving DecidableEq, Repr

abbrev Triple := Int64 × Int64 × TypedValue

def LogRow.triple (r : LogRow) : Triple := (r.e, r.a, r.v)

def LogRow.key (r : LogRow) : Triple × Int64 := (r.triple, r.tx)

/-- A row of `current_<type>`; the primary key is every column but `tx`. -/
structure CurrentRow where
  e : Int64
  a : Int64
  v : TypedValue
  tx : Int64
  deriving DecidableEq, Repr

def CurrentRow.triple (r : CurrentRow) : Triple := (r.e, r.a, r.v)

structure SchemaRow where
  entid : Int64
  ident : String
  valueType : ValueType
  cardinality : Cardinality
  uniqueConstraint : Option UniqueType
  indexed : Bool
  fulltext : Bool
  component : Bool
  noHistory : Bool
  deriving DecidableEq, Repr

structure IdentRow where
  ident : String
  entid : Int64
  deriving DecidableEq, Repr

structure TxRow where
  tx : Int64
  txInstant : Int64
  deriving DecidableEq, Repr

structure Db where
  log : List LogRow
  current : List CurrentRow
  schema : List SchemaRow
  idents : List IdentRow
  transactions : List TxRow
  fulltext : List String
  deriving DecidableEq, Repr

/-- What `cache.rs` loads: the rows of `schema` and `idents`. -/
structure SchemaCache where
  schema : List SchemaRow
  idents : List IdentRow
  deriving DecidableEq, Repr

namespace SchemaCache

def getAttribute (c : SchemaCache) (entid : Int64) : Option SchemaRow :=
  c.schema.find? fun r => r.entid = entid

/-- Idents of `schema` take precedence over those of `idents`. -/
def resolveIdent (c : SchemaCache) (ident : String) : Option Int64 :=
  match c.schema.find? fun r => r.ident = ident with
  | some r => some r.entid
  | none => (c.idents.find? fun r => r.ident = ident).map IdentRow.entid

def getIdent (c : SchemaCache) (entid : Int64) : Option String :=
  match c.getAttribute entid with
  | some r => some r.ident
  | none => (c.idents.find? fun r => r.entid = entid).map IdentRow.ident

/-- The name an error message gives an attribute. -/
def display (c : SchemaCache) (a : Int64) : String :=
  (c.getIdent a).getD ("entid:" ++ toString a.toInt)

end SchemaCache

def Db.cache (db : Db) : SchemaCache := ⟨db.schema, db.idents⟩

/-- The order in which a scan without `ORDER BY` visits the rows: any permutation. -/
structure ScanOrder where
  log : List LogRow → List LogRow
  current : List CurrentRow → List CurrentRow
  log_perm : ∀ rows, (log rows).Perm rows
  current_perm : ∀ rows, (current rows).Perm rows

def ScanOrder.heap : ScanOrder where
  log := id
  current := id
  log_perm := fun rows => List.Perm.refl rows
  current_perm := fun rows => List.Perm.refl rows

/-- One call's view of its session: `CURRENT_TIMESTAMP` in microseconds, the transaction id the
call draws, the entity ids the sequence has for it, scan order and available stack depth. -/
structure Backend where
  now : Int64
  txId : Int64
  userIds : List Int64
  scan : ScanOrder
  stackDepth : Nat

inductive Stmt where
  | nextvalTx
  | nextvalUser
  | selectBasis (tx : Int64)
  | insertTransaction (tx : Int64)
  | insertDatomsView (row : LogRow)
  | selectSchema
  | selectIdent (ident : String)
  | upsertIdent (row : IdentRow)
  | upsertSchema (row : SchemaRow)
  | selectDatomsOf (e : Int64)
  | selectCurrentOf (e a : Int64)
  | selectUnique (a : Int64) (v : TypedValue)
  | advisoryXactLock (a : Int64) (v : TypedValue)
  | selectCurrentText (type : ValueType) (e a : Int64)
  | existsCurrent (e a : Int64) (v : TypedValue)
  | deleteLogEa (type : ValueType) (e a : Int64)
  | deleteLogEav (e a : Int64) (v : TypedValue)
  | deleteCurrentEa (type : ValueType) (e a : Int64)
  | insertLog (type : ValueType) (rows : List LogRow)
  | deleteCurrent (type : ValueType) (triples : List Triple)
  | upsertCurrent (type : ValueType) (rows : List CurrentRow)
  | insertFulltext (text : String)
  deriving DecidableEq

abbrev Stmt.Reply : Stmt → Type
  | nextvalTx => Int64
  | nextvalUser => Int64
  | selectBasis _ => Int64
  | insertTransaction _ => Int64
  | selectSchema => SchemaCache
  | selectIdent _ => Option Int64
  | selectDatomsOf _ => List (Int64 × TypedValue)
  | selectCurrentOf _ _ => List TypedValue
  | selectUnique _ _ => Option Int64
  | selectCurrentText _ _ _ => Option (List Char)
  | existsCurrent _ _ _ => Bool
  | _ => Unit

/-- A change to one row. -/
inductive RowWrite where
  | putLog (row : LogRow)
  | delLog (key : Triple × Int64)
  | putCurrent (row : CurrentRow)
  | delCurrent (triple : Triple)
  | putSchema (row : SchemaRow)
  | putIdent (row : IdentRow)
  | putTransaction (row : TxRow)
  | addFulltext (text : String)
  deriving DecidableEq, Repr

def Db.write (db : Db) : RowWrite → Db
  | .putLog row => { db with log := put LogRow.key db.log row }
  | .delLog key => { db with log := del LogRow.key db.log key }
  | .putCurrent row => { db with current := put CurrentRow.triple db.current row }
  | .delCurrent triple => { db with current := del CurrentRow.triple db.current triple }
  | .putSchema row => { db with schema := put SchemaRow.entid db.schema row }
  | .putIdent row => { db with idents := put IdentRow.ident db.idents row }
  | .putTransaction row => { db with transactions := put TxRow.tx db.transactions row }
  | .addFulltext text => { db with fulltext := db.fulltext ++ [text] }

end PgMentat

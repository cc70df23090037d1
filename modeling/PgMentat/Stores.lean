import PgMentat.Store

namespace PgMentat

structure Partition where
  name : String
  startEntid : Int64
  endEntid : Int64
  allowExcision : Bool
  deriving DecidableEq, Repr

structure SchemaTables where
  schema : List SchemaRow
  idents : List IdentRow
  partitions : List Partition
  transactions : List TxRow
  fulltext : List String
  deriving DecidableEq, Repr

/-- A row of a table that all stores share. -/
structure Owned (ρ : Type) where
  storeId : Int64
  row : ρ
  deriving DecidableEq, Repr

/-- A row of `mentat.stores`. -/
structure StoreRow where
  storeId : Int64
  storeName : String
  deriving DecidableEq, Repr

structure ExcisionRow where
  storeName : String
  entityIds : List Int64
  datomsRemoved : Nat
  txLogEntriesRemoved : Nat
  reason : Option String
  deriving DecidableEq, Repr

/-- `main` is the schema `mentat`, `named` the schemas that `create_store` made. -/
structure Database where
  stores : List StoreRow
  main : SchemaTables
  named : List (String × SchemaTables)
  log : List (Owned LogRow)
  current : List (Owned CurrentRow)
  excisionLog : List ExcisionRow
  deriving DecidableEq, Repr

section Rows

variable {ρ : Type}

/-- The rows of one store, `WHERE store_id = id`. -/
def rowsOf (id : Int64) (rows : List (Owned ρ)) : List ρ :=
  (rows.filter fun r => r.storeId = id).map Owned.row

theorem mem_rowsOf {id : Int64} {rows : List (Owned ρ)} {x : ρ} :
    x ∈ rowsOf id rows ↔ ⟨id, x⟩ ∈ rows := by
  simp only [rowsOf, List.mem_map, List.mem_filter, decide_eq_true_eq]
  constructor
  · rintro ⟨⟨i, y⟩, ⟨hy, rfl⟩, rfl⟩
    exact hy
  · intro hx
    exact ⟨⟨id, x⟩, ⟨hx, rfl⟩, rfl⟩

theorem rowsOf_filter (id : Int64) (p : ρ → Bool) (rows : List (Owned ρ)) :
    rowsOf id (rows.filter fun r => p r.row) = (rowsOf id rows).filter p := by
  simp only [rowsOf, List.filter_filter, List.filter_map]
  congr 1
  apply List.filter_congr
  intro r _
  simp [Bool.and_comm]

end Rows

namespace Database

/-- The default store has `store_id` 0. -/
def db (d : Database) : Db where
  log := rowsOf 0 d.log
  current := rowsOf 0 d.current
  schema := d.main.schema
  idents := d.main.idents
  transactions := d.main.transactions
  fulltext := d.main.fulltext

/-- The tables a schema-qualified name finds; without the schema the statement fails. -/
def tables (d : Database) (schemaName : String) : Option SchemaTables :=
  if schemaName = "mentat" then some d.main
  else (d.named.find? fun s => s.1 = schemaName).map Prod.snd

end Database

def getSchemaForStore (storeName : String) : String :=
  if storeName = "default" then "mentat" else "mentat_" ++ storeName

/-- `NAMEDATALEN - 1`: PostgreSQL cuts longer identifiers. -/
def truncateIdentifier (name : String) : String := String.ofList (name.toList.take 63)

def unquotedSchema (name : String) : String := truncateIdentifier name.toLower

/-- The schema that a name denotes after `quote_ident`. -/
def quotedSchema (name : String) : String := truncateIdentifier name

def bootstrapPartitions : List Partition :=
  [⟨"db.part/db", 0, 1000000, false⟩,
   ⟨"db.part/user", 1000001, 1000000000000, false⟩,
   ⟨"db.part/tx", 1000000000000, 2000000000000, false⟩]

end PgMentat

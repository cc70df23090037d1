import PgMentat.Transact.Upsert

namespace PgMentat

open StatementProgram

/-- Assertions of the transaction on the same entity and attribute. -/
def countInTx (d : PendingDatom) (all : List PendingDatom) : Nat :=
  (all.filter fun d' => d'.e = d.e ∧ d'.a = d.a ∧ d'.added).length

def hasDuplicateInTx (d : PendingDatom) (all : List PendingDatom) : Bool :=
  all.any fun d' => d'.a = d.a && d'.v.partialEq d.v && d'.e ≠ d.e && d'.added

def validateUnique (c : SchemaCache) (d : PendingDatom) (all : List PendingDatom)
    (unique : UniqueType) : Tx Unit :=
  if hasDuplicateInTx d all then
    .fail (.uniqueConstraintViolation (c.display d.a) unique d.e d.e)
  else do
    spi (.advisoryXactLock d.a d.v)
    match ← checkUniqueTypedValue d.a d.v with
    | none => return ()
    | some existing =>
      if existing = d.e then return ()
      else .fail (.uniqueConstraintViolation (c.display d.a) unique existing d.e)

def validateDatomConstraints (c : SchemaCache) (d : PendingDatom) (all : List PendingDatom) :
    Tx Unit :=
  match c.getAttribute d.a with
  | none => .fail (.attributeNotFound (c.display d.a))
  | some info =>
    if d.v.typeTag ≠ info.valueType.toTag then
      .fail (.typeMismatch (c.display d.a) info.valueType.name d.v.valueType.name
        info.valueType.toTag d.v.typeTag)
    else if info.cardinality = .one ∧ 1 < countInTx d all then
      .fail (.cardinalityViolation (c.display d.a) d.e (countInTx d all))
    else
      match info.uniqueConstraint with
      | none => return ()
      | some unique => validateUnique c d all unique

def currentProjectionValueForEa (e a : Int64) (typeHint : TypedValue) :
    Tx (Option TypedValue) := do
  match ← spi (.selectCurrentText typeHint.valueType e a) with
  | none => return none
  | some text =>
    match TypedValue.parseFromTag typeHint.valueType text with
    | .ok v => return some v
    | .error message => .fail (.internal message)

inductive CardinalityOneResult where
  | skip
  | insert
  | replace (old : TypedValue)

def retractExistingCardinalityOne (e a : Int64) (new : TypedValue) : Tx CardinalityOneResult := do
  match ← currentProjectionValueForEa e a new with
  | none => return .insert
  | some old => if old.partialEq new then return .skip else return .replace old

def isDuplicateCardinalityMany (e a : Int64) (v : TypedValue) : Tx Bool :=
  spi (.existsCurrent e a v)

def pruneNoHistoryEa (e a : Int64) (typeHint : TypedValue) : Tx Unit :=
  spi (.deleteLogEa typeHint.valueType e a)

def pruneProjectionEa (e a : Int64) (typeHint : TypedValue) : Tx Unit :=
  spi (.deleteCurrentEa typeHint.valueType e a)

def pruneNoHistoryEav (e a : Int64) (v : TypedValue) : Tx Unit :=
  spi (.deleteLogEav e a v)

structure InsertState where
  rows : List LogRow := []
  fulltextValues : List String := []

def InsertState.pushRow (st : InsertState) (row : LogRow) : InsertState :=
  { st with rows := st.rows ++ [row] }

/-- Queue an assertion, and its text if the attribute is indexed for fulltext search. -/
def InsertState.queue (st : InsertState) (info : SchemaRow) (d : PendingDatom) (tx : Int64) :
    InsertState :=
  let st := st.pushRow ⟨d.e, d.a, d.v, tx, true⟩
  match d.v with
  | .text s =>
    if info.fulltext then { st with fulltextValues := st.fulltextValues ++ [s] } else st
  | _ => st

/-- An assertion on a `:db/noHistory` attribute: earlier rows are pruned, not retracted. -/
def queueNoHistory (info : SchemaRow) (d : PendingDatom) (tx : Int64) (st : InsertState) :
    Tx InsertState :=
  match info.cardinality with
  | .one => do
    match ← retractExistingCardinalityOne d.e d.a d.v with
    | .skip => return st
    | _ => do
      pruneNoHistoryEa d.e d.a d.v
      pruneProjectionEa d.e d.a d.v
      return st.queue info d tx
  | .many => do
    if ← isDuplicateCardinalityMany d.e d.a d.v then return st
    else do
      pruneNoHistoryEav d.e d.a d.v
      return st.queue info d tx

def queueAssertion (info : SchemaRow) (d : PendingDatom) (tx : Int64) (st : InsertState) :
    Tx InsertState :=
  match info.cardinality with
  | .one => do
    match ← retractExistingCardinalityOne d.e d.a d.v with
    | .skip => return st
    | .insert => return st.queue info d tx
    | .replace old => return (st.pushRow ⟨d.e, d.a, old, tx, false⟩).queue info d tx
  | .many => do
    if ← isDuplicateCardinalityMany d.e d.a d.v then return st
    else return st.queue info d tx

/-- One round of the loop of `insert_datoms`. Only assertions are validated. -/
def queueDatom (c : SchemaCache) (all : List PendingDatom) (tx : Int64) (st : InsertState)
    (d : PendingDatom) : Tx InsertState :=
  if d.added then do
    validateDatomConstraints c d all
    match c.getAttribute d.a with
    | none => return st.pushRow ⟨d.e, d.a, d.v, tx, true⟩
    | some info =>
      if info.noHistory then queueNoHistory info d tx st else queueAssertion info d tx st
  else return st.pushRow ⟨d.e, d.a, d.v, tx, false⟩

/-- The deduplication key: the literal stands for the value, whatever its type. -/
def LogRow.literalKey (r : LogRow) : Int64 × Int64 × String × Int64 × Bool :=
  (r.e, r.a, r.v.sqlLiteral, r.tx, r.added)

/-- Keep the first row of every literal key. -/
def dedupRows : List LogRow → List LogRow
  | [] => []
  | r :: rest => r :: (dedupRows rest).filter fun r' => r'.literalKey ≠ r.literalKey

/-- `flush`: one statement for each type that has rows. -/
def flushTypes {ρ : Type} (rows : List ρ) (type : ρ → ValueType)
    (stmt : ValueType → List ρ → Tx Unit) : Tx Unit :=
  ValueType.all.foldlM (fun _ t =>
    match rows.filter fun r => type r = t with
    | [] => return ()
    | r :: rest => stmt t (r :: rest)) ()

def batchInsertDatoms (rows : List LogRow) : Tx Unit :=
  flushTypes (dedupRows rows) (fun r => r.v.valueType) fun t rows => spi (.insertLog t rows)

/-- The projection batch's key: the table and `(e, a, v_sql)`. -/
def projectionKey (k : Triple) : ValueType × Int64 × Int64 × String :=
  (k.2.2.valueType, k.1, k.2.1, k.2.2.sqlLiteral)

structure ProjectionBatch where
  upserts : List CurrentRow := []
  deletes : List Triple := []

/-- The last row of a key decides whether the batch upserts or deletes it. -/
def ProjectionBatch.add (batch : ProjectionBatch) (r : LogRow) : ProjectionBatch :=
  let upserts := batch.upserts.filter fun u => projectionKey u.triple ≠ projectionKey r.triple
  let deletes := batch.deletes.filter fun k => projectionKey k ≠ projectionKey r.triple
  if r.added then ⟨upserts ++ [⟨r.e, r.a, r.v, r.tx⟩], deletes⟩
  else ⟨upserts, deletes ++ [r.triple]⟩

def maintainCurrentProjection (rows : List LogRow) : Tx Unit := do
  let batch := rows.foldl ProjectionBatch.add {}
  flushTypes batch.deletes (fun k => k.2.2.valueType) fun t ks => spi (.deleteCurrent t ks)
  flushTypes batch.upserts (fun r => r.v.valueType) fun t rows => spi (.upsertCurrent t rows)

def insertDatoms (c : SchemaCache) (pending : List PendingDatom) (tx : Int64) : Tx Unit := do
  let st ← pending.foldlM (queueDatom c pending tx) {}
  batchInsertDatoms st.rows
  maintainCurrentProjection st.rows
  st.fulltextValues.foldlM (fun _ text => spi (.insertFulltext text)) ()

end PgMentat

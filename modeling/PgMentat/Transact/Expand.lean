import PgMentat.Transact.Resolve

namespace PgMentat

open StatementProgram

/-- `is_db_id`, on the keys of a map. -/
def isDbId : EdnValue → Bool
  | .keyword k => k.ns = some "db" ∧ k.name = "id"
  | _ => false

def mapId (entries : List (EdnValue × EdnValue)) : Option EdnValue :=
  (entries.find? fun entry => isDbId entry.1).map Prod.snd

structure ScanState where
  tempids : Tempids := []
  builders : EntidMap SchemaBuilder := []
  /-- Ids allocated for map entities without `:db/id`, by their index in the transaction. -/
  mapEntityIds : List (Nat × Int64) := []

/-- The entity of a map: its `:db/id`, or a fresh id that pass 2 reuses. -/
def scanMapId (c : SchemaCache) (st : ScanState) (entries : List (EdnValue × EdnValue))
    (index : Nat) : Tx (Int64 × ScanState) :=
  match mapId entries with
  | some place => do
    let (e, tempids) ← resolveEntityPlace c st.tempids place
    return (e, { st with tempids })
  | none => do
    let id ← spi .nextvalUser
    return (id, { st with mapEntityIds := st.mapEntityIds ++ [(index, id)] })

def scanEntity (c : SchemaCache) (st : ScanState) (entity : EdnValue × Nat) : Tx ScanState :=
  match entity.1 with
  | .vector (.keyword k :: place :: attr :: value :: _) =>
    if k.name = "add" then do
      let (e, tempids) ← resolveEntityPlace c st.tempids place
      match tryResolveAttribute c attr with
      | none => return { st with tempids }
      | some a =>
        let builders := collectSchemaAssertion e a value st.builders
        return { st with tempids, builders }
    else return st
  | .map entries => do
    let (e, st) ← scanMapId c st entries entity.2
    let builders := entries.foldl (fun builders entry =>
      if isDbId entry.1 then builders
      else
        match tryResolveAttribute c entry.1 with
        | none => builders
        | some a => collectSchemaAssertion e a entry.2 builders) st.builders
    return { st with builders }
  | _ => return st

def scanEntities (c : SchemaCache) (entities : List EdnValue) : Tx ScanState :=
  entities.zipIdx.foldlM (scanEntity c) {}

inductive BuiltinTxFn where
  | cas | retractEntity
  deriving DecidableEq, Repr

def recognizeTxFn (k : Keyword) : Option BuiltinTxFn :=
  match k.ns, k.name with
  | some "db.fn", "cas" => some .cas
  | some "db", "cas" => some .cas
  | some "db.fn", "retractEntity" => some .retractEntity
  | some "db", "retractEntity" => some .retractEntity
  | none, "retractEntity" => some .retractEntity
  | _, _ => none

structure RetractState where
  visited : List Int64 := []
  pending : List PendingDatom

/-- A ref value of a component attribute. -/
def componentTarget (c : SchemaCache) (row : Int64 × TypedValue) : Option Int64 :=
  match row.2, c.getAttribute row.1 with
  | .ref target, some info => if info.component then some target else none
  | _, _ => none

/-- Every asserted log row of the entity is retracted, then its components, each entity once. -/
def executeRetractEntityRecursive (c : SchemaCache) :
    Nat → RetractState → Int64 → Tx RetractState
  | 0, _, _ => .fail (.postgres "stack depth limit exceeded")
  | depth + 1, st, e =>
    if e ∈ st.visited then return st
    else do
      let rows ← spi (.selectDatomsOf e)
      let retractions := rows.map fun row => ⟨e, row.1, row.2, false⟩
      let st := { visited := e :: st.visited, pending := st.pending ++ retractions }
      (rows.filterMap (componentTarget c)).foldlM (executeRetractEntityRecursive c depth) st

def executeRetractEntityFn (c : SchemaCache) (depth : Nat) (e : Int64)
    (pending : List PendingDatom) : Tx (List PendingDatom) := do
  let st ← executeRetractEntityRecursive c depth { pending } e
  return st.pending

structure ExpandState where
  tempids : Tempids
  pending : List PendingDatom := []

def ExpandState.push (st : ExpandState) (d : PendingDatom) : ExpandState :=
  { st with pending := st.pending ++ [d] }

/-- `execute_cas_fn`: the live values of `(e, a)` must be exactly the old value. -/
def executeCasFn (c : SchemaCache) (e a : Int64) (oldEdn newEdn : EdnValue)
    (st : ExpandState) : Tx ExpandState := do
  let current ← spi (.selectCurrentOf e a)
  if (c.getAttribute a).map SchemaRow.cardinality = some .many ∧ 1 < current.length then
    .fail (.casManyValues e (c.display a) current.length)
  else
    match oldEdn with
    | .nil =>
      if current = [] then do
        let (v, tempids) ← encodeForAttribute c st.tempids a newEdn
        return { st with tempids }.push ⟨e, a, v, true⟩
      else .fail (.casFailed e (c.display a) oldEdn current)
    | _ => do
      let (old, tempids) ← encodeForAttribute c st.tempids a oldEdn
      match current with
      | [v] =>
        if v.partialEq old then do
          let (new, tempids) ← encodeForAttribute c tempids a newEdn
          return ({ st with tempids }.push ⟨e, a, old, false⟩).push ⟨e, a, new, true⟩
        else .fail (.casFailed e (c.display a) oldEdn current)
      | _ => .fail (.casFailed e (c.display a) oldEdn current)

def wrongArity (name arguments format : String) (got : Nat) : MentatError :=
  .invalidTransaction (name ++ " requires exactly " ++ arguments ++ ", got " ++
    toString got ++ ". Format: " ++ format)

def expandTxFn (c : SchemaCache) (depth : Nat) (st : ExpandState) (f : BuiltinTxFn)
    (args : List EdnValue) : Tx ExpandState :=
  match f, args with
  | .retractEntity, [place] => do
    let (e, tempids) ← resolveEntityPlace c st.tempids place
    let pending ← executeRetractEntityFn c depth e st.pending
    return { tempids, pending }
  | .retractEntity, _ =>
    .fail (wrongArity ":db.fn/retractEntity" "1 argument (entity-id)"
      "[:db.fn/retractEntity entity-id]" args.length)
  | .cas, [place, attr, old, new] => do
    let (e, tempids) ← resolveEntityPlace c st.tempids place
    let a ← .ofExcept (resolveAttribute c attr)
    executeCasFn c e a old new { st with tempids }
  | .cas, _ =>
    .fail (wrongArity ":db.fn/cas" "4 arguments (entity attr old-value new-value)"
      "[:db.fn/cas e a old-val new-val]" args.length)

/-- `[:db/add e a v]` and `[:db/retract e a v]`. -/
def expandDatom (c : SchemaCache) (st : ExpandState) (place attr value : EdnValue)
    (added : Bool) : Tx ExpandState := do
  let (e, tempids) ← resolveEntityPlace c st.tempids place
  let a ← .ofExcept (resolveAttribute c attr)
  let (v, tempids) ← encodeForAttribute c tempids a value
  return { st with tempids }.push ⟨e, a, v, added⟩

def unknownOperation (k : Keyword) : MentatError :=
  .invalidTransaction ("unknown transaction operation '" ++ k.display ++
    "'. Expected one of :db/add, :db/retract, :db/cas, :db.fn/cas, " ++
    ":db/retractEntity, :db.fn/retractEntity.")

def malformedAssertion (k : Keyword) (length : Nat) : MentatError :=
  .invalidTransaction ("malformed assertion starting with '" ++ k.display ++ "': got " ++
    toString length ++ " element(s). Expected [:db/add e a v] or [:db/retract e a v] " ++
    "(4 elements), [:db/cas e a old new] (5 elements), or [:db/retractEntity e] (2 elements).")

/-- A vector that starts with a keyword. -/
def expandOperation (c : SchemaCache) (depth : Nat) (st : ExpandState) (k : Keyword)
    (args : List EdnValue) : Tx ExpandState :=
  match recognizeTxFn k, args with
  | some f, _ :: _ => expandTxFn c depth st f args
  | _, place :: attr :: value :: _ =>
    if k.name = "add" then expandDatom c st place attr value true
    else if k.name = "retract" then expandDatom c st place attr value false
    else .fail (unknownOperation k)
  | _, _ => .fail (malformedAssertion k (args.length + 1))

def expandMapEntry (c : SchemaCache) (e : Int64) (st : ExpandState)
    (entry : EdnValue × EdnValue) : Tx ExpandState :=
  if isDbId entry.1 then return st
  else do
    let a ← .ofExcept (resolveAttribute c entry.1)
    let (v, tempids) ← encodeForAttribute c st.tempids a entry.2
    return { st with tempids }.push ⟨e, a, v, true⟩

def expandMapId (c : SchemaCache) (mapEntityIds : List (Nat × Int64)) (st : ExpandState)
    (entries : List (EdnValue × EdnValue)) (index : Nat) : Tx (Int64 × ExpandState) :=
  match mapId entries, mapEntityIds.lookup index with
  | some place, _ => do
    let (e, tempids) ← resolveEntityPlace c st.tempids place
    return (e, { st with tempids })
  | none, some id => return (id, st)
  | none, none => do
    let id ← spi .nextvalUser
    return (id, st)

def expandEntity (c : SchemaCache) (depth : Nat) (mapEntityIds : List (Nat × Int64))
    (st : ExpandState) (entity : EdnValue × Nat) : Tx ExpandState :=
  match entity.1 with
  | .vector (.keyword k :: args) => expandOperation c depth st k args
  | .map entries => do
    let (e, st) ← expandMapId c mapEntityIds st entries entity.2
    entries.foldlM (expandMapEntry c e) st
  | _ => return st

def expandEntities (c : SchemaCache) (depth : Nat) (scan : ScanState)
    (entities : List EdnValue) : Tx ExpandState :=
  entities.zipIdx.foldlM (expandEntity c depth scan.mapEntityIds) { tempids := scan.tempids }

end PgMentat

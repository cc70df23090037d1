import PgMentat.Mentatd.Protocol
import PgMentat.Query.Extended

namespace PgMentat

open KeyedTable QueryCache

structure DbSnapshot where
  dbId : String
  basisT : Int64
  createdAt : Nat
  deriving DecidableEq, Repr

structure DbValueCache where
  snapshots : List DbSnapshot
  ttl : Nat

namespace DbValueCache

def createSnapshot (c : DbValueCache) (now : Nat) (dbId : String) (basisT : Int64) :
    DbValueCache :=
  { c with snapshots := put DbSnapshot.dbId c.snapshots ⟨dbId, basisT, now⟩ }

/-- An expired snapshot is dropped. -/
def getBasisT (c : DbValueCache) (now : Nat) (dbId : String) : Option Int64 × DbValueCache :=
  match c.snapshots.find? fun snapshot => snapshot.dbId = dbId with
  | none => (none, c)
  | some snapshot =>
    if now - snapshot.createdAt < c.ttl then (some snapshot.basisT, c)
    else (none, { c with snapshots := del DbSnapshot.dbId c.snapshots dbId })

def cleanupExpired (c : DbValueCache) (now : Nat) : DbValueCache :=
  { c with snapshots := c.snapshots.filter fun snapshot => now - snapshot.createdAt < c.ttl }

end DbValueCache

/-- `COALESCE(MAX(tx), 0)` of `mentat.transactions`. -/
def Db.basisT (db : Db) : Int64 :=
  match db.transactions with
  | [] => 0
  | r :: rs => rs.foldl (fun best r => if best < r.tx then r.tx else best) r.tx

structure QueryInputs where
  args : List String
  asOf : Option Int64
  deriving DecidableEq, Repr

/-- What mentatd calls: `mentat_query` and `mentat_pull` on a text, and what `serde_json` reads
from the text of a transaction report and from the text that it has itself printed of an answer.
The latter need not be the answer: floats are not read back exactly. -/
structure Extension where
  floats : FloatFormat
  query : String → QueryInputs → Db → Except QueryError JsonValue
  pull : String → Int64 → Db → Except QueryError JsonValue
  readReport : TxReport → Option JsonValue
  reread : JsonValue → Option JsonValue

/-- The JSON of a relation: its rows stand under two keys. -/
def findRelJson (find : List String) (rows : List (List Json)) : JsonValue :=
  let results := JsonValue.array (rows.map fun row => .array (row.map .scalar))
  .object [("columns", .array (find.map .string)), ("results", results), ("result", results)]

/-- `mentat_query` on texts that parse to patterns, `not` clauses and predicates. Such a query has
no `:in` clause and does not read its arguments. -/
def mentatQueryJson (fmt : FloatFormat) (ops : SqlOperators) (maxRows : Nat)
    (parse : String → Except QueryError ExtendedQuery) (text : String) (inputs : QueryInputs)
    (db : Db) : Except QueryError JsonValue := do
  let q ← parse text
  let rows ← mentatExtendedQuery fmt ops maxRows { asOf := inputs.asOf } q db
  return findRelJson q.find rows

/-- A snapshot request carries the id that is drawn for it. -/
inductive Operation where
  | query (text : String) (args : List String) (dbId : Option String)
  | pull (pattern : String) (entityId : Int64)
  | transact (call : Call)
  | db (freshId : String)
  | dbSnapshot (freshId : String)
  | cleanupExpired

structure Mentatd where
  db : Db
  queryCache : QueryCache JsonValue
  dbCache : DbValueCache

abbrev Response := Except ServerError ResponseValue

namespace Mentatd

/-- The response to a hit; the entry stands for the text that was printed of it. -/
def respondCached (ext : Extension) (respond : JsonValue → Response) (json : JsonValue) :
    Response :=
  match ext.reread json with
  | some json => respond json
  | none => .error (.internal "Failed to parse cached result")

/-- Answer from the cache, or compute the answer and cache it with its dependencies. -/
def cachedAnswer (s : Mentatd) (ext : Extension) (now : Nat) (key : CacheKey)
    (compute : Db → Except QueryError JsonValue) (depsOf : JsonValue → List Int64)
    (respond : JsonValue → Response) : Response × Mentatd :=
  let (hit, queryCache) := s.queryCache.get now key
  match hit with
  | some json => (respondCached ext respond json, { s with queryCache })
  | none =>
    match compute s.db with
    | .error e => (.error (.query e), { s with queryCache })
    | .ok json =>
      (respond json, { s with queryCache := queryCache.insertWithDeps now key json (depsOf json) })

def basisOf (s : Mentatd) (now : Nat) (dbId : Option String) :
    Except ServerError (Option Int64) × Mentatd :=
  match dbId with
  | none => (.ok none, s)
  | some id =>
    let (basis, dbCache) := s.dbCache.getBasisT now id
    match basis with
    | some t => (.ok (some t), { s with dbCache })
    | none => (.error (.internal ("Invalid or expired db-id: " ++ id)), { s with dbCache })

def respondQuery (ext : Extension) (json : JsonValue) : Response :=
  (parseQueryResults ext.floats json).map .vector

def answerQuery (ext : Extension) (s : Mentatd) (now : Nat) (text : String) (args : List String)
    (basis : Option Int64) : Response × Mentatd :=
  s.cachedAnswer ext now (queryKey text args basis) (ext.query text ⟨args, basis⟩)
    extractResultEntities (respondQuery ext)

/-- A pull depends on the entity and on every integer of its result. -/
def pullDeps (entityId : Int64) (json : JsonValue) : List Int64 :=
  (entityId :: collectEntityIds json).dedup

def answerPull (ext : Extension) (s : Mentatd) (now : Nat) (pattern : String) (entityId : Int64) :
    Response × Mentatd :=
  s.cachedAnswer ext now (pullKey pattern entityId) (ext.pull pattern entityId) (pullDeps entityId)
    fun json => .ok (jsonToResponseValue ext.floats json)

/-- Drop what depends on a changed entity, or everything if no entity is known. -/
def invalidateChanged (qc : QueryCache JsonValue) (entities : List Int64) :
    QueryCache JsonValue :=
  if entities = [] then qc.invalidate else (qc.invalidateEntities entities).2

/-- A report that cannot be read is an error, though the transaction is committed. -/
def transact (ext : Extension) (s : Mentatd) (call : Call) : Response × Mentatd :=
  match mentatTransact call s.db with
  | .error e => (.error (.transact e), s)
  | .ok (report, db) =>
    match ext.readReport report with
    | none => (.error (.internal "Failed to parse tx report"), { s with db })
    | some json =>
      (.ok (txReportResponse ext.floats json), { s with
        db, queryCache := invalidateChanged s.queryCache (extractChangedEntities json) })

def createSnapshot (s : Mentatd) (now : Nat) (freshId : String) : Mentatd :=
  { s with dbCache := s.dbCache.createSnapshot now freshId s.db.basisT }

/-- The value that `:db` returns for a snapshot. -/
def dbValue (dbId : String) (basisT : Int64) : ResponseValue :=
  .map [(.keyword "db-id", .string dbId), (.keyword "basis-t", .integer basisT),
    (.keyword "db-name", .string "mentat"), (.keyword "t", .integer basisT),
    (.keyword "next-t", .integer (basisT + 1))]

def handle (ext : Extension) (s : Mentatd) (now : Nat) : Operation → Response × Mentatd
  | .query text args dbId =>
    match s.basisOf now dbId with
    | (.ok basis, s) => answerQuery ext s now text args basis
    | (.error e, s) => (.error e, s)
  | .pull pattern entityId => answerPull ext s now pattern entityId
  | .transact call => transact ext s call
  | .db freshId => (.ok (dbValue freshId s.db.basisT), s.createSnapshot now freshId)
  | .dbSnapshot freshId => (.ok (.dbSnapshot freshId s.db.basisT), s.createSnapshot now freshId)
  | .cleanupExpired => (.ok .nil, { s with dbCache := s.dbCache.cleanupExpired now })

end Mentatd

/-- The states that requests reach, when each meets a condition on its time, the request and the
state before it. -/
inductive MentatdRun (ext : Extension) (ok : Nat → Operation → Mentatd → Prop) (start : Mentatd) :
    Mentatd → Prop
  | refl : MentatdRun ext ok start start
  | step {s now op} (hrun : MentatdRun ext ok start s) (hok : ok now op s) :
      MentatdRun ext ok start (s.handle ext now op).2

theorem MentatdRun.invariant {ext : Extension} {ok : Nat → Operation → Mentatd → Prop}
    {I : Mentatd → Prop} {start s : Mentatd}
    (hstep : ∀ {s now op}, I s → ok now op s → I (s.handle ext now op).2)
    (h : MentatdRun ext ok start s) (hstart : I start) : I s := by
  induction h with
  | refl => exact hstart
  | step _ hok ih => exact hstep ih hok

def Mentatd.runAll (ext : Extension) : List (Nat × Operation) → Mentatd → Mentatd
  | [], s => s
  | (now, op) :: ops, s => Mentatd.runAll ext ops (s.handle ext now op).2

def Mentatd.start (db : Db) : Mentatd := ⟨db, .new 1000 60, ⟨[], 300⟩⟩

/-- An extension that parses every text to one query and reads every report as it is meant. -/
def Extension.ofQuery (fmt : FloatFormat) (ops : SqlOperators) (q : ExtendedQuery) : Extension where
  floats := fmt
  query := mentatQueryJson fmt ops 0 fun _ => .ok q
  pull := fun _ _ _ => .ok (.scalar .null)
  readReport := fun report => some (report.json fun _ => .scalar .null)
  reread := some

def Response.rowCount : Response → Option Nat
  | .ok (.vector rows) => some rows.length
  | _ => none

namespace Mentatd

section Cached

variable {ext : Extension} {s : Mentatd} {now : Nat} {key : CacheKey}
  {compute : Db → Except QueryError JsonValue}
  {depsOf : JsonValue → List Int64} {respond : JsonValue → Response}

def freshAnswer (result : Except QueryError JsonValue) (respond : JsonValue → Response) :
    Response :=
  match result with
  | .error e => .error (.query e)
  | .ok json => respond json

/-- What serving one answer can do to the server. -/
inductive Served (ext : Extension) (s : Mentatd) (now : Nat) (key : CacheKey)
    (compute : Db → Except QueryError JsonValue) (depsOf : JsonValue → List Int64)
    (respond : JsonValue → Response) : Response → Mentatd → Prop
  | hit {json deps} (hholds : s.queryCache.Holds key json deps) :
      Served ext s now key compute depsOf respond (respondCached ext respond json)
        { s with queryCache := (s.queryCache.get now key).2 }
  | failed {e} (hcompute : compute s.db = .error e) :
      Served ext s now key compute depsOf respond (.error (.query e))
        { s with queryCache := (s.queryCache.get now key).2 }
  | computed {json} (hcompute : compute s.db = .ok json) :
      Served ext s now key compute depsOf respond (respond json)
        { s with queryCache :=
            (s.queryCache.get now key).2.insertWithDeps now key json (depsOf json) }

theorem cachedAnswer_served (hcons : s.queryCache.Consistent) :
    Served ext s now key compute depsOf respond
      (s.cachedAnswer ext now key compute depsOf respond).1
      (s.cachedAnswer ext now key compute depsOf respond).2 := by
  unfold cachedAnswer
  cases hget : (s.queryCache.get now key).1 with
  | some json =>
    obtain ⟨deps, hholds⟩ := holds_of_get hcons hget
    simp only [hget]
    exact .hit hholds
  | none =>
    cases hcompute : compute s.db with
    | error e =>
      simp only [hget]
      exact .failed hcompute
    | ok json =>
      simp only [hget]
      exact .computed hcompute

variable {response : Response} {s' : Mentatd}

theorem Served.holds (hcons : s.queryCache.Consistent)
    (h : Served ext s now key compute depsOf respond response s') {k : CacheKey} {json : JsonValue}
    {deps : List Int64} (hholds : s'.queryCache.Holds k json deps) :
    s.queryCache.Holds k json deps ∨ (k = key ∧ compute s.db = .ok json ∧ deps = depsOf json) := by
  cases h with
  | hit | failed => exact .inl hholds.of_get
  | computed hcompute =>
    rcases hholds.of_insertWithDeps (get_consistent hcons now) with ⟨rfl, rfl, rfl⟩ | hold
    · exact .inr ⟨rfl, hcompute, rfl⟩
    · exact .inl hold.of_get

theorem Served.consistent (hcons : s.queryCache.Consistent)
    (h : Served ext s now key compute depsOf respond response s') : s'.queryCache.Consistent := by
  cases h with
  | hit | failed => exact get_consistent hcons now
  | computed => exact insertWithDeps_consistent (get_consistent hcons now) now _ _

theorem Served.db (h : Served ext s now key compute depsOf respond response s') : s'.db = s.db := by
  cases h <;> rfl

theorem Served.dbCache (h : Served ext s now key compute depsOf respond response s') :
    s'.dbCache = s.dbCache := by
  cases h <;> rfl

end Cached

/-- What a transaction can do to the server: nothing, or write the database and drop entries. -/
inductive Transacted (s : Mentatd) (call : Call) : Mentatd → Prop
  | failed : Transacted s call s
  | committed {report db queryCache} (hcall : mentatTransact call s.db = .ok (report, db))
      (hcons : queryCache.Consistent)
      (hkept : ∀ {key json deps}, queryCache.Holds key json deps →
        s.queryCache.Holds key json deps) :
      Transacted s call { s with db, queryCache }

theorem transact_transacted {s : Mentatd} (hcons : s.queryCache.Consistent) (ext : Extension)
    (call : Call) : Transacted s call (s.transact ext call).2 := by
  unfold transact
  cases hcall : mentatTransact call s.db with
  | error e => exact .failed
  | ok result =>
    obtain ⟨report, db⟩ := result
    cases hread : ext.readReport report with
    | none =>
      simp only [hread]
      exact .committed hcall hcons id
    | some json =>
      simp only [hread]
      refine .committed hcall ?_ ?_
      · unfold invalidateChanged
        split
        · exact invalidate_consistent s.queryCache
        · exact invalidateEntities_consistent hcons _
      · intro key json' deps hholds
        unfold invalidateChanged at hholds
        split at hholds
        · exact absurd hholds not_holds_invalidate
        · rename_i hne
          exact (hholds.of_invalidateEntities hcons hne).1

end Mentatd

end PgMentat

import PgMentat.Mentatd.Server
import PgMentat.Lib.Sections

namespace PgMentat

open KeyedTable Multimap QueryCache Sections StatementProgram

/-- The cache, and the numbers of the transactions that have begun to invalidate it. -/
structure SharedCache where
  cache : QueryCache JsonValue
  invalidated : List Nat

inductive Lookup where
  | miss
  | hit (json : JsonValue)
  | expired

/-- What is done under one lock, or under the two locks that are held together. -/
inductive CacheSection where
  /-- `enabled` is never written. -/
  | enabled
  | lookup (now : Nat) (key : CacheKey)
  | readDeps (key : CacheKey)
  | takeDeps (key : CacheKey)
  | dropIndex (key : CacheKey) (deps : List Int64)
  | put (now : Nat) (key : CacheKey) (json : JsonValue)
  | setDeps (key : CacheKey) (deps : List Int64)
  | addIndex (key : CacheKey) (deps : List Int64)
  /-- No lock: marks that a transaction begins to invalidate. -/
  | mark (tx : Nat)
  | collect (entities : List Int64)
  | pop (keys : List CacheKey)
  | forget (keys : List CacheKey)
  | clearCache
  | clearDeps
  | clearIndex

abbrev CacheSection.Reply : CacheSection → Type
  | enabled => Bool
  | lookup _ _ => Lookup
  | readDeps _ => Option (List Int64)
  | takeDeps _ => Option (List Int64)
  | put _ _ _ => Option CacheKey
  | collect _ => List CacheKey
  | _ => Unit

/-- The entry that a `put` of a new key drops. -/
def QueryCache.evictee {ρ : Type} (qc : QueryCache ρ) (key : CacheKey) : Option (CacheEntry ρ) :=
  if qc.cache.length = qc.capacity ∧ qc.entry? key = none then qc.cache.head? else none

def SharedCache.act (s : CacheSection) (c : SharedCache) : s.Reply × SharedCache :=
  let qc := c.cache
  match s with
  | .enabled => (qc.enabled, c)
  | .lookup now key =>
    match qc.entry? key with
    | none => (.miss, c)
    | some entry =>
      if qc.ttl < now - entry.insertedAt then
        (.expired, { c with cache := { qc with cache := del CacheEntry.key qc.cache key } })
      else
        (.hit entry.result,
          { c with cache := { qc with cache := put CacheEntry.key qc.cache entry } })
  | .readDeps key => (value? qc.dependencies key, c)
  | .takeDeps key => (value? qc.dependencies key,
      { c with cache := { qc with dependencies := del Prod.fst qc.dependencies key } })
  | .dropIndex key deps =>
    ((), { c with cache := { qc with
      entityToKeys := (bucketsOf deps).foldl (remove key) qc.entityToKeys } })
  | .put now key json =>
    match qc.evictee key with
    | some evicted => (some evicted.key, { c with cache := { qc with
        cache := put CacheEntry.key qc.cache.tail ⟨key, json, now⟩ } })
    | none => (none, { c with cache := { qc with
        cache := put CacheEntry.key qc.cache ⟨key, json, now⟩ } })
  | .setDeps key deps =>
    ((), { c with cache := { qc with dependencies := put Prod.fst qc.dependencies (key, deps) } })
  | .addIndex key deps =>
    ((), { c with cache := { qc with
      entityToKeys := (bucketsOf deps).foldl (add key) qc.entityToKeys } })
  | .mark tx => ((), { c with invalidated := tx :: c.invalidated })
  | .collect entities => (qc.keysToRemove entities, c)
  | .pop keys =>
    ((), { c with cache :=
      { qc with cache := qc.cache.filter fun entry => !keys.contains entry.key } })
  | .forget keys =>
    let tracking := keys.foldl QueryCache.forget (qc.dependencies, qc.entityToKeys)
    ((), { c with cache := { qc with
      dependencies := tracking.1, entityToKeys := compact tracking.2 } })
  | .clearCache => ((), { c with cache := { qc with cache := [] } })
  | .clearDeps => ((), { c with cache := { qc with dependencies := [] } })
  | .clearIndex => ((), { c with cache := { qc with entityToKeys := [] } })

abbrev Locked (α : Type) := Program CacheSection CacheSection.Reply Empty α

abbrev locked (s : CacheSection) : Locked s.Reply := .issue s

def removeDepsForKeyLocked (key : CacheKey) : Locked Unit := do
  match ← locked (.takeDeps key) with
  | none => return ()
  | some deps => locked (.dropIndex key deps)

def removeReverseIndexForKeyLocked (key : CacheKey) : Locked Unit := do
  match ← locked (.readDeps key) with
  | none => return ()
  | some deps => locked (.dropIndex key deps)

def addDepsForKeyLocked (key : CacheKey) (deps : List Int64) : Locked Unit := do
  locked (.setDeps key deps)
  locked (.addIndex key deps)

def getLocked (now : Nat) (key : CacheKey) : Locked (Option JsonValue) := do
  if ← locked .enabled then
    match ← locked (.lookup now key) with
    | .miss => return none
    | .hit json => return some json
    | .expired => do
      removeDepsForKeyLocked key
      return none
  else return none

def insertWithDepsLocked (now : Nat) (key : CacheKey) (json : JsonValue) (deps : List Int64) :
    Locked Unit := do
  if ← locked .enabled then do
    removeReverseIndexForKeyLocked key
    match ← locked (.put now key json) with
    | some evicted => do
      removeDepsForKeyLocked evicted
      addDepsForKeyLocked key deps
    | none => addDepsForKeyLocked key deps
  else return ()

/-- The changed entities are those of a transaction's report; without any the cache is cleared. -/
def invalidateLocked (entities : List Int64) (tx : Nat) : Locked Unit := do
  locked (.mark tx)
  if entities = [] then do
    locked .clearCache
    locked .clearDeps
    locked .clearIndex
  else if ← locked .enabled then do
    let keys ← locked (.collect entities)
    if 0 < keys.length then do
      locked (.pop keys)
      locked (.forget keys)
    else return ()
  else return ()

inductive CacheOp where
  | get (now : Nat) (key : CacheKey)
  /-- `readAt` is the number of transactions committed when the answer was read. -/
  | insert (now : Nat) (key : CacheKey) (json : JsonValue) (deps : List Int64) (readAt : Nat)
  | invalidate (entities : List Int64) (tx : Nat)

abbrev CacheOp.Reply : CacheOp → Type
  | get _ _ => Option JsonValue
  | _ => Unit

def CacheOp.body : (o : CacheOp) → Locked o.Reply
  | get now key => getLocked now key
  | insert now key json deps _ => insertWithDepsLocked now key json deps
  | invalidate entities tx => invalidateLocked entities tx

structure Commit where
  report : TxReport
  db : Db

/-- The committed states, in the order of commit. -/
structure Timeline where
  start : Db
  commits : List Commit

namespace Timeline

/-- The state after the first `n` transactions. -/
def after (w : Timeline) : Nat → Db
  | 0 => w.start
  | n + 1 => ((w.commits[n]?).map Commit.db).getD w.start

def db (w : Timeline) : Db := w.after w.commits.length

end Timeline

inductive DbStmt where
  | query (text : String) (inputs : QueryInputs)
  | transact (call : Call)

/-- The replies carry the number of transactions committed so far. -/
abbrev DbStmt.Reply : DbStmt → Type
  | query _ _ => Except QueryError JsonValue × Nat
  | transact _ => Except MentatError (TxReport × Nat)

def Timeline.answer (ext : Extension) (x : DbStmt) (w : Timeline) : x.Reply × Timeline :=
  match x with
  | .query text inputs => ((ext.query text inputs w.db, w.commits.length), w)
  | .transact call =>
    match mentatTransact call w.db with
    | .error e => (.error e, w)
    | .ok (report, db) =>
      (.ok (report, w.commits.length + 1), { w with commits := w.commits ++ [⟨report, db⟩] })

def mentatdProtocol (ext : Extension) :
    Protocol CacheSection CacheSection.Reply CacheOp CacheOp.Reply DbStmt DbStmt.Reply
      SharedCache Timeline where
  act := SharedCache.act
  body := CacheOp.body
  answer := Timeline.answer ext

/-- A query whose snapshot is resolved, with the times of its lookup and of its insertion. -/
structure QueryRequest where
  text : String
  args : List String
  basis : Option Int64
  lookupAt : Nat
  insertAt : Nat

inductive MentatdRequest where
  | query (q : QueryRequest)
  | transact (call : Call)

/-- A response, and the number of the transaction it acknowledges. -/
structure Outcome where
  response : Response
  commit : Option Nat

abbrev MentatdHandler := Client CacheOp.Reply DbStmt.Reply Outcome

def cacheOp (o : CacheOp) : Client CacheOp.Reply DbStmt.Reply o.Reply :=
  .call (Sum.inl o) .ret

def database (x : DbStmt) : Client CacheOp.Reply DbStmt.Reply x.Reply :=
  .call (Sum.inr x) .ret

namespace QueryRequest

def key (q : QueryRequest) : CacheKey := queryKey q.text q.args q.basis

def inputs (q : QueryRequest) : QueryInputs := ⟨q.args, q.basis⟩

/-- The part of the handler after the answer was read. -/
def store (ext : Extension) (q : QueryRequest) (json : JsonValue) (readAt : Nat) :
    MentatdHandler := do
  cacheOp (.insert q.insertAt q.key json (extractResultEntities json) readAt)
  return ⟨Mentatd.respondQuery ext json, none⟩

def compute (ext : Extension) (q : QueryRequest) : MentatdHandler := do
  match ← database (.query q.text q.inputs) with
  | (.error e, _) => return ⟨.error (.query e), none⟩
  | (.ok json, readAt) => q.store ext json readAt

def handle (ext : Extension) (q : QueryRequest) : MentatdHandler := do
  match ← cacheOp (.get q.lookupAt q.key) with
  | some json => return ⟨Mentatd.respondQuery ext json, none⟩
  | none => q.compute ext

end QueryRequest

/-- The part of the handler after the transaction was committed. -/
def acknowledge (ext : Extension) (json : JsonValue) (tx : Nat) : MentatdHandler := do
  cacheOp (.invalidate (extractChangedEntities json) tx)
  return ⟨.ok (txReportResponse ext.floats json), some tx⟩

def handleTransact (ext : Extension) (call : Call) : MentatdHandler := do
  match ← database (.transact call) with
  | .error e => return ⟨.error (.transact e), none⟩
  | .ok (report, tx) =>
    match ext.readReport report with
    | none => return ⟨.error (.internal "Failed to parse tx report"), some tx⟩
    | some json => acknowledge ext json tx

def MentatdRequest.handle (ext : Extension) : MentatdRequest → MentatdHandler
  | .query q => q.handle ext
  | .transact call => handleTransact ext call

section Alone

variable (ext : Extension) (qc : QueryCache JsonValue) (done : List Nat)

theorem alone_removeReverseIndexForKey {β : Type} (key : CacheKey) (k : Unit → Locked β) :
    (mentatdProtocol ext).alone (removeReverseIndexForKeyLocked key >>= k) ⟨qc, done⟩ =
      (mentatdProtocol ext).alone (k ()) ⟨qc.removeReverseIndexForKey key, done⟩ := by
  cases h : value? qc.dependencies key with
  | none => simp [removeReverseIndexForKeyLocked, Program.issue, Protocol.alone, mentatdProtocol,
      SharedCache.act, h, removeReverseIndexForKey, filedUnder]
  | some deps => simp [removeReverseIndexForKeyLocked, Program.issue, Protocol.alone,
      mentatdProtocol, SharedCache.act, h, removeReverseIndexForKey, filedUnder]

theorem alone_removeDepsForKey {β : Type} (key : CacheKey) (k : Unit → Locked β) :
    (mentatdProtocol ext).alone (removeDepsForKeyLocked key >>= k) ⟨qc, done⟩ =
      (mentatdProtocol ext).alone (k ()) ⟨qc.removeDepsForKey key, done⟩ := by
  cases h : value? qc.dependencies key with
  | none => simp [removeDepsForKeyLocked, Program.issue, Protocol.alone, mentatdProtocol,
      SharedCache.act, h, removeDepsForKey, removeReverseIndexForKey, filedUnder]
  | some deps => simp [removeDepsForKeyLocked, Program.issue, Protocol.alone,
      mentatdProtocol, SharedCache.act, h, removeDepsForKey, removeReverseIndexForKey, filedUnder]

theorem alone_addDepsForKey (key : CacheKey) (deps : List Int64) :
    (mentatdProtocol ext).alone (addDepsForKeyLocked key deps) ⟨qc, done⟩ =
      ((), ⟨qc.addDepsForKey key deps, done⟩) := rfl

theorem alone_get (now : Nat) (key : CacheKey) :
    (mentatdProtocol ext).alone ((mentatdProtocol ext).body (.get now key)) ⟨qc, done⟩ =
      ((qc.get now key).1, ⟨(qc.get now key).2, done⟩) := by
  have hbody : (mentatdProtocol ext).body (.get now key) = getLocked now key := rfl
  rw [hbody]
  unfold getLocked QueryCache.get
  cases hon : qc.enabled with
  | false => simp [Program.issue, Protocol.alone, mentatdProtocol, SharedCache.act, hon]
  | true =>
    cases hentry : qc.entry? key with
    | none => simp [Program.issue, Protocol.alone, mentatdProtocol, SharedCache.act, hon, hentry]
    | some entry =>
      by_cases hexpired : qc.ttl < now - entry.insertedAt
      · have hrest := alone_removeDepsForKey ext
          { qc with cache := del CacheEntry.key qc.cache key } done key fun _ =>
            (.ret none : Locked (Option JsonValue))
        simp [Program.issue, Protocol.alone, mentatdProtocol, SharedCache.act, hon, hentry,
          hexpired] at hrest ⊢
        exact hrest
      · simp [Program.issue, Protocol.alone, mentatdProtocol, SharedCache.act, hon, hentry,
          hexpired]

theorem alone_insert (now : Nat) (key : CacheKey) (json : JsonValue) (deps : List Int64)
    (readAt : Nat) :
    (mentatdProtocol ext).alone ((mentatdProtocol ext).body (.insert now key json deps readAt))
      ⟨qc, done⟩ = ((), ⟨qc.insertWithDeps now key json deps, done⟩) := by
  have hbody : (mentatdProtocol ext).body (.insert now key json deps readAt) =
      insertWithDepsLocked now key json deps := rfl
  rw [hbody]
  unfold insertWithDepsLocked QueryCache.insertWithDeps
  cases hon : qc.enabled with
  | false => simp [Program.issue, Protocol.alone, mentatdProtocol, SharedCache.act, hon]
  | true =>
    have hfirst : (mentatdProtocol ext).act .enabled ⟨qc, done⟩ = (true, ⟨qc, done⟩) := by
      simp [mentatdProtocol, SharedCache.act, hon]
    simp only [Program.issue, Program.call_bind, Protocol.alone, hfirst, Program.ret_bind, if_true]
    rw [alone_removeReverseIndexForKey]
    generalize qc.removeReverseIndexForKey key = qc'
    have hmatch : (if qc'.cache.length = qc'.capacity ∧ qc'.entry? key = none then qc'.cache.head?
        else none) = qc'.evictee key := rfl
    simp only [hmatch]
    cases hevictee : qc'.evictee key with
    | some evicted =>
      have hput : (mentatdProtocol ext).act (.put now key json) ⟨qc', done⟩ =
          (some evicted.key, ⟨{ qc' with
            cache := put CacheEntry.key qc'.cache.tail ⟨key, json, now⟩ }, done⟩) := by
        simp [mentatdProtocol, SharedCache.act, hevictee]
      simp only [Protocol.alone, hput]
      rw [alone_removeDepsForKey, alone_addDepsForKey]
    | none =>
      have hput : (mentatdProtocol ext).act (.put now key json) ⟨qc', done⟩ =
          (none, ⟨{ qc' with cache := put CacheEntry.key qc'.cache ⟨key, json, now⟩ }, done⟩) := by
        simp [mentatdProtocol, SharedCache.act, hevictee]
      simp only [Protocol.alone, hput]
      rw [alone_addDepsForKey]

theorem alone_invalidate (entities : List Int64) (tx : Nat) :
    (mentatdProtocol ext).alone ((mentatdProtocol ext).body (.invalidate entities tx)) ⟨qc, done⟩ =
      ((), ⟨Mentatd.invalidateChanged qc entities, tx :: done⟩) := by
  have hbody : (mentatdProtocol ext).body (.invalidate entities tx) =
      invalidateLocked entities tx := rfl
  rw [hbody]
  unfold invalidateLocked Mentatd.invalidateChanged
  by_cases hnil : entities = []
  · simp [hnil, Program.issue, Protocol.alone, mentatdProtocol, SharedCache.act, invalidate]
  · cases hon : qc.enabled with
    | false =>
      simp [hnil, Program.issue, Protocol.alone, mentatdProtocol, SharedCache.act, hon,
        invalidateEntities]
    | true =>
      by_cases hkeys : 0 < (qc.keysToRemove entities).length
      · simp [hnil, Program.issue, Protocol.alone, mentatdProtocol, SharedCache.act, hon,
          invalidateEntities, hkeys]
      · simp [hnil, Program.issue, Protocol.alone, mentatdProtocol, SharedCache.act, hon,
          invalidateEntities, hkeys]

end Alone

end PgMentat

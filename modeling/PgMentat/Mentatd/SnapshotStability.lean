import PgMentat.Mentatd.CacheCoherence
import PgMentat.AppendOnly

namespace PgMentat

open List KeyedTable QueryCache

section Basis

variable {call : Call} {db db' : Db} {report : TxReport} {t : Int64}

theorem mentatTransact_basisT (h : mentatTransact call db = .ok (report, db'))
    (hlt : db.basisT < call.backend.txId) : db'.basisT = call.backend.txId := by
  obtain ⟨mid, loop, rows, hcommitted⟩ := mentatTransact_committed h
  have htransactions : db'.transactions =
      db.transactions ++ [⟨call.backend.txId, call.backend.now⟩] := by
    rw [hcommitted.transactions_eq, hcommitted.mid_transactions]
    exact put_of_new hcommitted.tx_new
  unfold Db.basisT at hlt ⊢
  rw [htransactions]
  cases htable : db.transactions with
  | nil => rfl
  | cons r rs =>
    rw [htable] at hlt
    simp only [cons_append, foldl_append, foldl_cons, foldl_nil]
    exact if_pos hlt

theorem mentatTransact_sameUpTo (h : mentatTransact call db = .ok (report, db'))
    (htx : t < call.backend.txId) (hcache : db'.cache = db.cache)
    (hhist : ∀ a, ¬ db.NoHistory a) : Db.SameUpTo t db db' := by
  obtain ⟨mid, loop, rows, hcommitted⟩ := mentatTransact_committed h
  have hhist' : ∀ a, ¬ db'.NoHistory a := by
    unfold Db.NoHistory
    rw [hcache]
    exact hhist
  refine ⟨hcache, fun r hr => ⟨fun hnew => ?_, fun hold => ?_⟩⟩
  · by_contra hold
    have htxid := hcommitted.log_new hnew hold
    rw [htxid] at hr
    exact Int64.lt_irrefl (Int64.lt_of_lt_of_le htx hr)
  · have hlt : r.tx < call.backend.txId := Int64.lt_of_le_of_lt hr htx
    exact (hcommitted.log_kept_of_lt hold hlt).resolve_right (hhist' r.a)

end Basis

/-- Two results with the same rows, or the same error. -/
inductive SameJson : Except QueryError JsonValue → Except QueryError JsonValue → Prop
  | rows (find : List String) {rows rows' : List (List Json)} (h : rows.Perm rows') :
      SameJson (.ok (findRelJson find rows)) (.ok (findRelJson find rows'))
  | error (e : QueryError) : SameJson (.error e) (.error e)

inductive SameResponse : Response → Response → Prop
  | rows {rows rows' : List ResponseValue} (h : rows.Perm rows') :
      SameResponse (.ok (.vector rows)) (.ok (.vector rows'))
  | error (e : ServerError) : SameResponse (.error e) (.error e)

theorem SameResponse.symm {r r' : Response} (h : SameResponse r r') : SameResponse r' r := by
  cases h with
  | rows h => exact .rows h.symm
  | error e => exact .error e

theorem SameResponse.trans {r r' r'' : Response} (h : SameResponse r r')
    (h' : SameResponse r' r'') : SameResponse r r'' := by
  cases h with
  | error e => exact h'
  | rows h =>
    cases h' with
    | rows h' => exact .rows (h.trans h')

theorem SameResponse.rowCount {r r' : Response} (h : SameResponse r r') :
    Response.rowCount r = Response.rowCount r' := by
  cases h with
  | rows h => exact congrArg some h.length_eq
  | error e => rfl

/-- The extension on texts that parse to patterns, `not` clauses and predicates. -/
def mentatExtension (fmt : FloatFormat) (ops : SqlOperators) (maxRows : Nat)
    (parse : String → Except QueryError ExtendedQuery)
    (pull : String → Int64 → Db → Except QueryError JsonValue)
    (readReport : TxReport → Option JsonValue) (reread : JsonValue → Option JsonValue) :
    Extension where
  floats := fmt
  query := mentatQueryJson fmt ops maxRows parse
  pull := pull
  readReport := readReport
  reread := reread

section Answers

variable {fmt : FloatFormat} {ops : SqlOperators} {maxRows : Nat}
  {parse : String → Except QueryError ExtendedQuery} {t : Int64} {db db' : Db}

theorem mentatQueryJson_sameJson (hidents : db.PlainIdents) (hsame : Db.SameUpTo t db db')
    (text : String) (args : List String) :
    SameJson (mentatQueryJson fmt ops maxRows parse text ⟨args, some t⟩ db')
      (mentatQueryJson fmt ops maxRows parse text ⟨args, some t⟩ db) := by
  unfold mentatQueryJson
  cases parse text with
  | error e => exact .error e
  | ok q =>
    have hanswer : SameAnswer (mentatExtendedQuery fmt ops maxRows { asOf := some t } q db')
        (mentatExtendedQuery fmt ops maxRows { asOf := some t } q db) :=
      mentatExtendedQuery_sameAnswer rfl hidents hsame fmt ops maxRows q
    simp only [bind, Except.bind]
    generalize mentatExtendedQuery fmt ops maxRows { asOf := some t } q db' = answer' at hanswer
    generalize mentatExtendedQuery fmt ops maxRows { asOf := some t } q db = answer at hanswer
    cases hanswer with
    | rows hperm => exact .rows q.find hperm
    | error e => exact .error e

theorem mapM_rowResponse (rows : List (List Json)) :
    (rows.map fun row => JsonValue.array (row.map .scalar)).mapM (rowResponse fmt) =
      .ok (rows.map fun row => .vector (row.map scalarResponse)) := by
  have hrow : ∀ row : List Json, rowResponse fmt (.array (row.map .scalar)) =
      .ok (.vector (row.map scalarResponse)) := by
    intro row
    show Except.ok (ResponseValue.vector (itemsResponse fmt (row.map .scalar))) = _
    rw [itemsResponse_eq_map, map_map]
    rfl
  induction rows with
  | nil => rfl
  | cons row rows ih =>
    rw [map_cons, mapM_cons, ih, hrow]
    rfl

theorem respondQuery_findRelJson (ext : Extension) (find : List String) (rows : List (List Json)) :
    Mentatd.respondQuery ext (findRelJson find rows) =
      .ok (.vector (rows.map fun row => .vector (row.map scalarResponse))) := by
  have hresults : ((findRelJson find rows).get? "results").bind JsonValue.asArray =
      some (rows.map fun row => .array (row.map .scalar)) := rfl
  rw [Mentatd.respondQuery, parseQueryResults, hresults]
  simp only [mapM_rowResponse]
  rfl

theorem SameJson.response {result result' : Except QueryError JsonValue}
    (h : SameJson result result') (ext : Extension) :
    SameResponse (Mentatd.freshAnswer result (Mentatd.respondQuery ext))
      (Mentatd.freshAnswer result' (Mentatd.respondQuery ext)) := by
  unfold Mentatd.freshAnswer
  cases h with
  | rows find hperm =>
    simp only [respondQuery_findRelJson]
    exact .rows (hperm.map _)
  | error e => exact .error _

end Answers

/-- The answer to a query on a snapshot is read back from its text. -/
def LegibleStep (ext : Extension) (now : Nat) (op : Operation) (s : Mentatd) : Prop :=
  match op with
  | .query text args (some dbId) => ∀ t, (s.dbCache.getBasisT now dbId).1 = some t →
    ext.Legible (ext.query text ⟨args, some t⟩) s.db
  | _ => True

/-- A transaction gets an id above every committed one. -/
def IncreasingStep (ext : Extension) (now : Nat) (op : Operation) (s : Mentatd) : Prop :=
  LegibleStep ext now op s ∧
  match op with
  | .transact call => s.db.basisT < call.backend.txId
  | _ => True

/-- No snapshot is ahead of the database, and the entries of the latest basis are its answers. -/
structure Mentatd.UpToDate (ext : Extension) (s : Mentatd) : Prop where
  consistent : s.queryCache.Consistent
  unique : KeyUnique DbSnapshot.dbId s.dbCache.snapshots
  behind : ∀ snapshot ∈ s.dbCache.snapshots, snapshot.basisT ≤ s.db.basisT
  entries : ∀ {text args t json deps}, s.queryCache.Holds (queryKey text args (some t)) json deps →
    t ≤ s.db.basisT ∧ ext.reread json = some json ∧
      (t = s.db.basisT → ext.query text ⟨args, some t⟩ s.db = .ok json)

section UpToDate

variable {ext : Extension} {s s' : Mentatd} {now capacity ttl : Nat}

theorem DbValueCache.getBasisT_spec (c : DbValueCache) (now : Nat) (dbId : String) :
    (∀ snapshot ∈ (c.getBasisT now dbId).2.snapshots, snapshot ∈ c.snapshots) ∧
      (KeyUnique DbSnapshot.dbId c.snapshots →
        KeyUnique DbSnapshot.dbId (c.getBasisT now dbId).2.snapshots) ∧
      ∀ t, (c.getBasisT now dbId).1 = some t → ∃ snapshot ∈ c.snapshots, snapshot.basisT = t := by
  unfold DbValueCache.getBasisT
  split
  · refine ⟨fun _ h => h, id, fun t ht => ?_⟩
    cases ht
  · rename_i snapshot hfind
    split
    · refine ⟨fun _ h => h, id, fun t ht => ⟨snapshot, mem_of_find?_eq_some hfind, ?_⟩⟩
      exact Option.some.inj ht
    · refine ⟨fun _ h => (mem_del.mp h).1, fun h => h.del dbId, fun t ht => ?_⟩
      cases ht

namespace Mentatd.UpToDate

variable (h : s.UpToDate ext)

include h

theorem with_dbCache {dbCache : DbValueCache}
    (hunique : KeyUnique DbSnapshot.dbId dbCache.snapshots)
    (hbehind : ∀ snapshot ∈ dbCache.snapshots, snapshot.basisT ≤ s.db.basisT) :
    Mentatd.UpToDate ext { s with dbCache } :=
  ⟨h.consistent, hunique, hbehind, h.entries⟩

theorem served {key : CacheKey} {compute : Db → Except QueryError JsonValue}
    {depsOf : JsonValue → List Int64} {respond : JsonValue → Response} {response : Response}
    (hcomputes : ext.Computes key compute)
    (hbasis : ∀ text args t, key = queryKey text args (some t) →
      t ≤ s.db.basisT ∧ ext.Legible compute s.db)
    (hserved : Mentatd.Served ext s now key compute depsOf respond response s') :
    s'.UpToDate ext where
  consistent := hserved.consistent h.consistent
  unique := by
    rw [hserved.dbCache]
    exact h.unique
  behind := by
    rw [hserved.dbCache, hserved.db]
    exact h.behind
  entries := by
    intro text args t json deps hholds
    rw [hserved.db]
    rcases hserved.holds h.consistent hholds with hold | ⟨rfl, hjson, -⟩
    · exact h.entries hold
    · obtain ⟨hle, hlegible⟩ := hbasis text args t rfl
      refine ⟨hle, hlegible json hjson, fun _ => ?_⟩
      rw [(Extension.Computes.query text args (some t)).unique hcomputes]
      exact hjson

theorem transacted {call : Call} (hlt : s.db.basisT < call.backend.txId)
    (htransacted : Mentatd.Transacted s call s') : s'.UpToDate ext := by
  cases htransacted with
  | failed => exact h
  | @committed report db' queryCache hcall hcons hkept =>
    have hbasis : s.db.basisT < db'.basisT := by
      rw [mentatTransact_basisT hcall hlt]
      exact hlt
    refine ⟨hcons, h.unique, fun snapshot hs => ?_, fun {text args t json deps} hholds => ?_⟩
    · exact Int64.le_of_lt (Int64.lt_of_le_of_lt (h.behind snapshot hs) hbasis)
    · have ht : t < db'.basisT := Int64.lt_of_le_of_lt (h.entries (hkept hholds)).1 hbasis
      exact ⟨Int64.le_of_lt ht, (h.entries (hkept hholds)).2.1,
        fun heq => (Int64.lt_irrefl (heq ▸ ht)).elim⟩

theorem createSnapshot (freshId : String) : (s.createSnapshot now freshId).UpToDate ext := by
  refine h.with_dbCache (h.unique.put _) fun snapshot hs => ?_
  rcases mem_put.mp hs with rfl | ⟨hs, -⟩
  · exact Int64.le_refl _
  · exact h.behind snapshot hs

theorem query {text : String} {args : List String} {dbId : Option String}
    (hok : LegibleStep ext now (.query text args dbId) s) :
    (s.handle ext now (.query text args dbId)).2.UpToDate ext := by
  cases dbId with
  | none =>
    refine h.served (.query text args none) (fun text' args' t hkey => ?_)
      (Mentatd.cachedAnswer_served h.consistent)
    cases (queryKey_inj hkey).2.2
  | some id =>
    obtain ⟨hsubset, hunique, hbasis⟩ := s.dbCache.getBasisT_spec now id
    have hs := h.with_dbCache (hunique h.unique) fun snapshot hmem =>
      h.behind snapshot (hsubset snapshot hmem)
    simp only [Mentatd.handle, Mentatd.basisOf]
    cases hget : (s.dbCache.getBasisT now id).1 with
    | none => exact hs
    | some t =>
      refine hs.served (.query text args (some t)) (fun text' args' t' hkey => ?_)
        (Mentatd.cachedAnswer_served h.consistent)
      obtain ⟨snapshot, hmem, rfl⟩ := hbasis t hget
      cases (queryKey_inj hkey).2.2
      exact ⟨h.behind snapshot hmem, hok _ hget⟩

theorem handle {op : Operation} (hok : IncreasingStep ext now op s) :
    (s.handle ext now op).2.UpToDate ext := by
  cases op with
  | query text args dbId => exact h.query hok.1
  | pull pattern e =>
    exact h.served (.pull pattern e) (fun _ _ _ hkey => absurd hkey.symm queryKey_ne_pullKey)
      (Mentatd.cachedAnswer_served h.consistent)
  | transact call => exact h.transacted hok.2 (Mentatd.transact_transacted h.consistent ext call)
  | db freshId | dbSnapshot freshId => exact h.createSnapshot freshId
  | cleanupExpired =>
    exact h.with_dbCache (h.unique.filter _) fun snapshot hs =>
      h.behind snapshot (mem_filter.mp hs).1

end Mentatd.UpToDate

theorem Mentatd.UpToDate.of_empty (hcache : s.queryCache = .new capacity ttl)
    (hsnapshots : s.dbCache.snapshots = []) : s.UpToDate ext where
  consistent := hcache ▸ new_consistent _ _
  unique := by
    rw [hsnapshots]
    exact fun _ hx => nomatch hx
  behind := by
    rw [hsnapshots]
    exact fun _ hx => nomatch hx
  entries := by
    rw [hcache]
    exact fun hholds => absurd hholds not_holds_new

end UpToDate

/-- The snapshot has not expired; a transaction that succeeds is above its basis and leaves schema
and idents alone, and a further snapshot has another id. -/
def LaterStep (ext : Extension) (snapshot : DbSnapshot) (now : Nat) (op : Operation)
    (s : Mentatd) : Prop :=
  now - snapshot.createdAt < s.dbCache.ttl ∧ LegibleStep ext now op s ∧
  match op with
  | .transact call => ∀ report db', mentatTransact call s.db = .ok (report, db') →
    snapshot.basisT < call.backend.txId ∧ db'.cache = s.db.cache
  | .db freshId | .dbSnapshot freshId => freshId ≠ snapshot.dbId
  | _ => True

/-- As-of queries at `t` answer alike in every state that agrees with `db` up to `t`. -/
def Extension.StableAt (ext : Extension) (t : Int64) (db : Db) : Prop :=
  ∀ text args db', Db.SameUpTo t db db' →
    SameJson (ext.query text ⟨args, some t⟩ db') (ext.query text ⟨args, some t⟩ db)

/-- The snapshot is there, and its entries are answers of the state it was taken in. -/
structure Mentatd.Frozen (ext : Extension) (snapshot : DbSnapshot) (db : Db) (ttl : Nat)
    (s : Mentatd) : Prop where
  consistent : s.queryCache.Consistent
  unique : KeyUnique DbSnapshot.dbId s.dbCache.snapshots
  alive : snapshot ∈ s.dbCache.snapshots
  ttl_eq : s.dbCache.ttl = ttl
  same : Db.SameUpTo snapshot.basisT db s.db
  entries : ∀ {text args json deps},
    s.queryCache.Holds (queryKey text args (some snapshot.basisT)) json deps →
    SameJson (.ok json) (ext.query text ⟨args, some snapshot.basisT⟩ db) ∧
      ext.reread json = some json

section Frozen

variable {ext : Extension} {snapshot : DbSnapshot} {db : Db} {ttl : Nat} {s s' : Mentatd}
  {now : Nat}

theorem DbValueCache.getBasisT_alive {c : DbValueCache}
    (hunique : KeyUnique DbSnapshot.dbId c.snapshots) (halive : snapshot ∈ c.snapshots)
    (hlive : now - snapshot.createdAt < c.ttl) (dbId : String) :
    snapshot ∈ (c.getBasisT now dbId).2.snapshots ∧ (c.getBasisT now dbId).2.ttl = c.ttl := by
  unfold DbValueCache.getBasisT
  split
  · exact ⟨halive, rfl⟩
  · rename_i found hfind
    split
    · exact ⟨halive, rfl⟩
    · rename_i hexpired
      refine ⟨mem_del.mpr ⟨halive, fun heq => hexpired ?_⟩, rfl⟩
      -- the snapshot that is dropped is not this one
      have hfound : found.dbId = dbId := by simpa using List.find?_some hfind
      rw [hunique found (mem_of_find?_eq_some hfind) snapshot halive (hfound.trans heq.symm)]
      exact hlive

theorem DbValueCache.getBasisT_eq {c : DbValueCache}
    (hunique : KeyUnique DbSnapshot.dbId c.snapshots) (halive : snapshot ∈ c.snapshots)
    (hlive : now - snapshot.createdAt < c.ttl) :
    c.getBasisT now snapshot.dbId = (some snapshot.basisT, c) := by
  rw [DbValueCache.getBasisT, hunique.find?_eq halive]
  exact if_pos hlive

namespace Mentatd.Frozen

variable (h : s.Frozen ext snapshot db ttl)

include h

theorem with_dbCache {dbCache : DbValueCache}
    (hunique : KeyUnique DbSnapshot.dbId dbCache.snapshots) (halive : snapshot ∈ dbCache.snapshots)
    (httl : dbCache.ttl = s.dbCache.ttl) : Mentatd.Frozen ext snapshot db ttl { s with dbCache } :=
  ⟨h.consistent, hunique, halive, httl.trans h.ttl_eq, h.same, h.entries⟩

theorem served (hstable : ext.StableAt snapshot.basisT db) {key : CacheKey}
    {compute : Db → Except QueryError JsonValue} {depsOf : JsonValue → List Int64}
    {respond : JsonValue → Response} {response : Response} (hcomputes : ext.Computes key compute)
    (hlegible : ∀ text args t, key = queryKey text args (some t) → ext.Legible compute s.db)
    (hserved : Mentatd.Served ext s now key compute depsOf respond response s') :
    s'.Frozen ext snapshot db ttl where
  consistent := hserved.consistent h.consistent
  unique := by
    rw [hserved.dbCache]
    exact h.unique
  alive := by
    rw [hserved.dbCache]
    exact h.alive
  ttl_eq := by
    rw [hserved.dbCache]
    exact h.ttl_eq
  same := by
    rw [hserved.db]
    exact h.same
  entries := by
    intro text args json deps hholds
    rcases hserved.holds h.consistent hholds with hold | ⟨rfl, hjson, -⟩
    · exact h.entries hold
    · refine ⟨?_, hlegible text args _ rfl json hjson⟩
      rw [← hjson, ← (Extension.Computes.query text args _).unique hcomputes]
      exact hstable text args s.db h.same

theorem transacted (hhist : ∀ a, ¬ db.NoHistory a) {call : Call}
    (hok : LaterStep ext snapshot now (.transact call) s)
    (htransacted : Mentatd.Transacted s call s') :
    s'.Frozen ext snapshot db ttl := by
  cases htransacted with
  | failed => exact h
  | @committed report db' queryCache hcall hcons hkept =>
    obtain ⟨htx, hcache⟩ := hok.2.2 report db' hcall
    have hhist' : ∀ a, ¬ s.db.NoHistory a := by
      unfold Db.NoHistory
      rw [h.same.cache]
      exact hhist
    exact ⟨hcons, h.unique, h.alive, h.ttl_eq,
      h.same.trans (mentatTransact_sameUpTo hcall htx hcache hhist'),
      fun hholds => h.entries (hkept hholds)⟩

theorem createSnapshot {freshId : String} (hfresh : freshId ≠ snapshot.dbId) :
    (s.createSnapshot now freshId).Frozen ext snapshot db ttl :=
  h.with_dbCache (h.unique.put _) (mem_put.mpr (.inr ⟨h.alive, Ne.symm hfresh⟩)) rfl

theorem handle (hstable : ext.StableAt snapshot.basisT db) (hhist : ∀ a, ¬ db.NoHistory a)
    {op : Operation} (hok : LaterStep ext snapshot now op s) :
    (s.handle ext now op).2.Frozen ext snapshot db ttl := by
  cases op with
  | query text args dbId =>
    cases dbId with
    | none =>
      refine h.served hstable (.query text args none) (fun text' args' t hkey => ?_)
        (Mentatd.cachedAnswer_served h.consistent)
      cases (queryKey_inj hkey).2.2
    | some id =>
      obtain ⟨-, hunique, -⟩ := s.dbCache.getBasisT_spec now id
      obtain ⟨halive, httl⟩ := DbValueCache.getBasisT_alive h.unique h.alive hok.1 id
      have hs := h.with_dbCache (hunique h.unique) halive httl
      simp only [Mentatd.handle, Mentatd.basisOf]
      cases hget : (s.dbCache.getBasisT now id).1 with
      | none => exact hs
      | some t =>
        exact hs.served hstable (.query text args (some t)) (fun _ _ _ _ => hok.2.1 t hget)
          (Mentatd.cachedAnswer_served h.consistent)
  | pull pattern e =>
    exact h.served hstable (.pull pattern e)
      (fun _ _ _ hkey => absurd hkey.symm queryKey_ne_pullKey)
      (Mentatd.cachedAnswer_served h.consistent)
  | transact call =>
    exact h.transacted hhist hok (Mentatd.transact_transacted h.consistent ext call)
  | db freshId | dbSnapshot freshId => exact h.createSnapshot hok.2.2
  | cleanupExpired =>
    refine h.with_dbCache (h.unique.filter _) (mem_filter.mpr ⟨h.alive, ?_⟩) rfl
    exact decide_eq_true hok.1

theorem query_response (hstable : ext.StableAt snapshot.basisT db)
    (hlive : now - snapshot.createdAt < s.dbCache.ttl) (text : String) (args : List String) :
    SameResponse (s.handle ext now (.query text args (some snapshot.dbId))).1
      (Mentatd.freshAnswer (ext.query text ⟨args, some snapshot.basisT⟩ db)
        (Mentatd.respondQuery ext)) := by
  have hbasis : s.basisOf now (some snapshot.dbId) = (.ok (some snapshot.basisT), s) := by
    rw [Mentatd.basisOf, DbValueCache.getBasisT_eq h.unique h.alive hlive]
  rw [Mentatd.handle, hbasis]
  have hserved : Mentatd.Served ext s now (queryKey text args (some snapshot.basisT))
      (ext.query text ⟨args, some snapshot.basisT⟩) extractResultEntities
      (Mentatd.respondQuery ext) _ _ := Mentatd.cachedAnswer_served h.consistent
  have hfresh := (hstable text args s.db h.same).response ext
  show SameResponse (s.cachedAnswer ext now (queryKey text args (some snapshot.basisT))
    (ext.query text ⟨args, some snapshot.basisT⟩) extractResultEntities
    (Mentatd.respondQuery ext)).1 _
  generalize (s.cachedAnswer ext now (queryKey text args (some snapshot.basisT))
    (ext.query text ⟨args, some snapshot.basisT⟩) extractResultEntities
    (Mentatd.respondQuery ext)) = answer at hserved
  obtain ⟨response, s'⟩ := answer
  cases hserved with
  | hit hholds =>
    obtain ⟨hsame, hreread⟩ := h.entries hholds
    simp only [hreread]
    exact hsame.response ext
  | failed hcompute =>
    rw [hcompute] at hfresh
    exact hfresh
  | computed hcompute =>
    rw [hcompute] at hfresh
    exact hfresh

end Mentatd.Frozen

end Frozen

/-- A server with one described entity. -/
def firstServer : Mentatd :=
  ((Mentatd.start bootstrapDb).handle staleExtension 0
    (.transact (addDoc 1000000000001 500 "first"))).2

def snapshotServer : Mentatd := (firstServer.handle staleExtension 1 (.dbSnapshot "snapshot")).2

def laterServer : Mentatd :=
  (snapshotServer.handle staleExtension 2 (.transact (addDoc 1000000000002 501 "second"))).2

/-- The answer of a first snapshot is cached, a transaction with a smaller id is committed, and a
second snapshot of the same basis is taken. -/
def overtakenServer : Mentatd :=
  Mentatd.runAll staleExtension
    [(0, .transact (addDoc 1000000000101 100 "x")), (1, .dbSnapshot "first"),
      (2, .query "described" [] (some "first")),
      (3, .transact (addDoc 1000000000002 200 "y")), (4, .dbSnapshot "second")]
    (.start bootstrapDb)

/-- A transaction on the entity of the cached answer, above the basis. -/
def droppedServer : Mentatd :=
  (overtakenServer.handle staleExtension 5 (.transact (addDoc 1000000000102 100 "z"))).2

end PgMentat

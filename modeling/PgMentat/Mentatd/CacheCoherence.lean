import PgMentat.Mentatd.Server
import PgMentat.PatternQuery
import PgMentat.Query.Pinned

namespace PgMentat

open List QueryCache

section Touched

variable {c : SchemaCache} {all done : List PendingDatom} {tx : Int64} {scan : ScanOrder}
  {db db' mid loop : Db} {rows rows' : List LogRow} {d : PendingDatom} {call : Call}

theorem QueueStep.kept_of_ne (h : QueueStep c all tx scan db rows d db' rows') :
    (∀ r : LogRow, r.e ≠ d.e → (r ∈ db'.log ↔ r ∈ db.log)) ∧
      ∀ r : CurrentRow, r.e ≠ d.e → (r ∈ db'.current ↔ r ∈ db.current) := by
  cases h with
  | pruneOne =>
    constructor
    · intro r hr
      simp [Db.pruneLog, Db.pruneCurrent, LogRow.isEa, hr]
    · intro r hr
      simp [Db.pruneLog, Db.pruneCurrent, CurrentRow.isEa, hr]
  | pruneMany =>
    constructor
    · intro r hr
      simp [Db.pruneLog, LogRow.isEav, LogRow.triple, PendingDatom.triple, hr]
    · exact fun _ _ => Iff.rfl
  | _ => exact ⟨fun _ _ => Iff.rfl, fun _ _ => Iff.rfl⟩

theorem QueueRun.kept_of_ne (h : QueueRun c all tx scan db done db' rows) :
    (∀ r : LogRow, (∀ d ∈ done, r.e ≠ d.e) → (r ∈ db'.log ↔ r ∈ db.log)) ∧
      ∀ r : CurrentRow, (∀ d ∈ done, r.e ≠ d.e) → (r ∈ db'.current ↔ r ∈ db.current) := by
  induction h with
  | nil => exact ⟨fun _ _ => Iff.rfl, fun _ _ => Iff.rfl⟩
  | snoc _ hstep ih =>
    constructor
    · intro r hr
      rw [hstep.kept_of_ne.1 r (hr _ (mem_append_right _ mem_cons_self))]
      exact ih.1 r fun d hd => hr d (mem_append_left _ hd)
    · intro r hr
      rw [hstep.kept_of_ne.2 r (hr _ (mem_append_right _ mem_cons_self))]
      exact ih.2 r fun d hd => hr d (mem_append_left _ hd)

theorem RowOrigin.exists_entity {start : Db} {r : LogRow} (h : RowOrigin c all tx start done r) :
    ∃ d ∈ done, d.e = r.e := by
  cases h with
  | retracted hd _ | asserted hd _ | replaced hd _ _ _ _ _ _ _ _ _ => exact ⟨_, hd, rfl⟩

namespace Committed

variable (h : Committed call db mid loop db' rows)

include h

theorem row_entity {r : LogRow} (hr : r ∈ rows) : ∃ d ∈ call.pending db, d.e = r.e :=
  (h.origin r hr).exists_entity

theorem log_iff_of_ne {r : LogRow} (htx : r.e ≠ call.backend.txId)
    (hpending : ∀ d ∈ call.pending db, r.e ≠ d.e) : r ∈ db'.log ↔ r ∈ db.log := by
  have hne : ∀ y ∈ dedupRows rows, y.e ≠ r.e := by
    intro y hy heq
    obtain ⟨d, hd, hde⟩ := h.row_entity (mem_of_mem_dedupRows hy)
    exact hpending d hd (heq.symm.trans hde.symm)
  have hmid : r ∈ mid.log ↔ r ∈ db.log := by
    rw [h.mem_mid_log]
    refine or_iff_left fun hr => htx ?_
    rw [hr.1]
    rfl
  rw [h.mem_log, ← hmid, ← h.run.kept_of_ne.1 r hpending]
  constructor
  · rintro (hr | hr)
    · exact absurd rfl (hne r hr)
    · exact hr.1
  · intro hr
    exact .inr ⟨hr, fun y hy hkey => hne y hy (congrArg (fun k => k.1.1) hkey)⟩

theorem current_iff_of_ne {x : CurrentRow} (htx : x.e ≠ call.backend.txId)
    (hpending : ∀ d ∈ call.pending db, x.e ≠ d.e) : x ∈ db'.current ↔ x ∈ db.current := by
  have hlast : lastRow rows x.triple = none := by
    rw [lastRow_eq_none]
    intro r hr htriple
    obtain ⟨d, hd, hde⟩ := h.row_entity hr
    exact hpending d hd (hde.trans (congrArg Prod.fst htriple)).symm
  have hmid : x ∈ mid.current ↔ x ∈ db.current := by
    rw [h.mem_mid_current]
    constructor
    · rintro (rfl | hx)
      · exact absurd rfl htx
      · exact hx.1
    · exact fun hx => .inr ⟨hx, fun htriple => htx (congrArg Prod.fst htriple)⟩
  rw [h.projection x, ← hmid, ← h.run.kept_of_ne.2 x hpending]
  simp [hlast]

end Committed

theorem mentatTransact_agreeOn {report : TxReport}
    (h : mentatTransact call db = .ok (report, db')) (hcache : db'.cache = db.cache)
    {entities : List Int64} (hdisjoint : ∀ r ∈ report.txData, r.e ∉ entities) :
    Db.AgreeOn entities db db' := by
  obtain ⟨es, ids, prepared, b, mid, b', hdoc, hbegin, rfl, hinsert⟩ := mentatTransact_begin h
  obtain ⟨loop, rows, hcommitted⟩ := committed_of_begin hdoc hbegin hinsert
  have htx : call.backend.txId ∉ entities := by
    rw [← (beginTransaction_ensures _ _ _ hbegin).tx_eq]
    exact hdisjoint _ mem_cons_self
  have hpending : ∀ d ∈ call.pending db, d.e ∉ entities := by
    intro d hd
    rw [Call.pending, Call.prepared_eq hdoc hbegin] at hd
    exact hdisjoint _ (mem_cons_of_mem _ (mem_map.mpr ⟨d, hd, rfl⟩))
  refine ⟨hcache, fun r hr => ?_, fun r hr => ?_⟩
  · apply hcommitted.log_iff_of_ne
    · rintro heq
      exact htx (heq ▸ hr)
    · intro d hd heq
      exact hpending d hd (heq ▸ hr)
  · apply hcommitted.current_iff_of_ne
    · rintro heq
      exact htx (heq ▸ hr)
    · intro d hd heq
      exact hpending d hd (heq ▸ hr)

theorem mentatTransact_txData_ne_nil {report : TxReport}
    (h : mentatTransact call db = .ok (report, db')) : report.txData ≠ [] := by
  obtain ⟨es, ids, prepared, b, mid, b', -, -, rfl, -⟩ := mentatTransact_begin h
  exact cons_ne_nil _ _

end Touched

/-- An answer with dependencies is determined by the schema and by the rows of these entities. -/
def Covered (compute : Db → Except QueryError JsonValue) (depsOf : JsonValue → List Int64)
    (db : Db) : Prop :=
  ∀ json, compute db = .ok json → depsOf json ≠ [] →
    ∀ db', Db.AgreeOn (depsOf json) db db' → compute db' = .ok json

/-- The text of the answer is read back as the answer. -/
def Extension.Legible (ext : Extension) (compute : Db → Except QueryError JsonValue) (db : Db) :
    Prop :=
  ∀ json, compute db = .ok json → ext.reread json = some json

/-- Answers are covered by their dependencies, and their texts are read back. A transaction leaves
schema and idents alone, and its report is read back as the value it spells. -/
def CoveredStep (ext : Extension) (now : Nat) (op : Operation) (s : Mentatd) : Prop :=
  match op with
  | .query text args dbId => ∀ basis, (s.basisOf now dbId).1 = .ok basis →
    Covered (ext.query text ⟨args, basis⟩) extractResultEntities s.db ∧
      ext.Legible (ext.query text ⟨args, basis⟩) s.db
  | .pull pattern entityId =>
    Covered (ext.pull pattern entityId) (Mentatd.pullDeps entityId) s.db ∧
      ext.Legible (ext.pull pattern entityId) s.db
  | .transact call => ∀ report db', mentatTransact call s.db = .ok (report, db') →
    db'.cache = s.db.cache ∧ ∃ spelled, ext.readReport report = some (report.json spelled)
  | _ => True

inductive Extension.Computes (ext : Extension) :
    CacheKey → (Db → Except QueryError JsonValue) → Prop
  | query (text : String) (args : List String) (basis : Option Int64) :
      Computes ext (queryKey text args basis) (ext.query text ⟨args, basis⟩)
  | pull (pattern : String) (entityId : Int64) :
      Computes ext (pullKey pattern entityId) (ext.pull pattern entityId)

section Coherence

variable {ext : Extension} {key : CacheKey} {compute compute' : Db → Except QueryError JsonValue}
  {depsOf : JsonValue → List Int64} {respond : JsonValue → Response} {response : Response}
  {s s' : Mentatd} {now : Nat}

theorem Extension.Computes.unique (h : ext.Computes key compute)
    (h' : ext.Computes key compute') : compute = compute' := by
  cases h with
  | query text args basis =>
    generalize hkey : queryKey text args basis = key at h'
    cases h' with
    | query text' args' basis' =>
      obtain ⟨rfl, rfl, rfl⟩ := queryKey_inj hkey
      rfl
    | pull pattern e => exact absurd hkey queryKey_ne_pullKey
  | pull pattern e =>
    generalize hkey : pullKey pattern e = key at h'
    cases h' with
    | query text args basis => exact absurd hkey.symm queryKey_ne_pullKey
    | pull pattern' e' =>
      obtain ⟨rfl, rfl⟩ := pullKey_inj hkey
      rfl

/-- Every entry is the answer now, and stays the answer while its dependencies are untouched. -/
structure Mentatd.Coherent (ext : Extension) (s : Mentatd) : Prop where
  consistent : s.queryCache.Consistent
  current : ∀ {key compute json deps}, ext.Computes key compute →
    s.queryCache.Holds key json deps → compute s.db = .ok json
  legible : ∀ {key compute json deps}, ext.Computes key compute →
    s.queryCache.Holds key json deps → ext.reread json = some json
  covered : ∀ {key compute json deps}, ext.Computes key compute →
    s.queryCache.Holds key json deps → deps ≠ [] →
    ∀ db', Db.AgreeOn deps s.db db' → compute db' = .ok json

theorem Mentatd.Coherent.served (h : s.Coherent ext) (hcomputes : ext.Computes key compute)
    (hcovered : Covered compute depsOf s.db) (hlegible : ext.Legible compute s.db)
    (hserved : Mentatd.Served ext s now key compute depsOf respond response s') :
    s'.Coherent ext where
  consistent := hserved.consistent h.consistent
  current := by
    intro k compute' json deps hk hholds
    rw [hserved.db]
    rcases hserved.holds h.consistent hholds with hold | ⟨rfl, hjson, -⟩
    · exact h.current hk hold
    · exact hk.unique hcomputes ▸ hjson
  legible := by
    intro k compute' json deps hk hholds
    rcases hserved.holds h.consistent hholds with hold | ⟨-, hjson, -⟩
    · exact h.legible hk hold
    · exact hlegible json hjson
  covered := by
    intro k compute' json deps hk hholds hdeps db' hagree
    rw [hserved.db] at hagree
    rcases hserved.holds h.consistent hholds with hold | ⟨rfl, hjson, rfl⟩
    · exact h.covered hk hold hdeps db' hagree
    · exact hk.unique hcomputes ▸ hcovered json hjson hdeps db' hagree

theorem Mentatd.Coherent.transacted (h : s.Coherent ext) {call : Call} {report : TxReport}
    {db' : Db} (hcall : mentatTransact call s.db = .ok (report, db'))
    (hcache : db'.cache = s.db.cache) (spelled : F64 → JsonValue) :
    Mentatd.Coherent ext { s with
      db := db'
      queryCache := Mentatd.invalidateChanged s.queryCache
        (extractChangedEntities (report.json spelled)) } := by
  obtain ⟨r, hr⟩ := exists_mem_of_ne_nil _ (mentatTransact_txData_ne_nil hcall)
  have hne : extractChangedEntities (report.json spelled) ≠ [] :=
    ne_nil_of_mem (mem_extractChangedEntities.mpr ⟨r, hr, rfl⟩)
  rw [Mentatd.invalidateChanged, if_neg hne]
  -- an entry that is kept has dependencies, and the transaction touched none of them
  have hkept : ∀ {key json deps},
      (s.queryCache.invalidateEntities (extractChangedEntities (report.json spelled))).2.Holds
        key json deps →
      s.queryCache.Holds key json deps ∧ deps ≠ [] ∧ Db.AgreeOn deps s.db db' := by
    intro key json deps hholds
    obtain ⟨hold, hdeps, hdisjoint⟩ := hholds.of_invalidateEntities h.consistent hne
    refine ⟨hold, hdeps, mentatTransact_agreeOn hcall hcache fun r hr hmem => ?_⟩
    exact hdisjoint r.e hmem (mem_extractChangedEntities.mpr ⟨r, hr, rfl⟩)
  refine ⟨invalidateEntities_consistent h.consistent _, ?_, ?_, ?_⟩
  · intro key compute json deps hk hholds
    obtain ⟨hold, hdeps, hagree⟩ := hkept hholds
    exact h.covered hk hold hdeps db' hagree
  · exact fun hk hholds => h.legible hk (hkept hholds).1
  · intro key compute json deps hk hholds hdeps db'' hagree'
    obtain ⟨hold, -, hagree⟩ := hkept hholds
    exact h.covered hk hold hdeps db'' (hagree.trans hagree')

theorem Mentatd.Coherent.with_dbCache (h : s.Coherent ext) (dbCache : DbValueCache) :
    Mentatd.Coherent ext { s with dbCache } :=
  ⟨h.consistent, h.current, h.legible, h.covered⟩

theorem Mentatd.basisOf_eq (s : Mentatd) (now : Nat) (dbId : Option String) :
    ∃ basis dbCache, ∀ queryCache, { s with queryCache }.basisOf now dbId =
      (basis, { s with queryCache, dbCache }) := by
  cases dbId with
  | none => exact ⟨.ok none, s.dbCache, fun _ => rfl⟩
  | some id =>
    simp only [Mentatd.basisOf]
    cases (s.dbCache.getBasisT now id).1 with
    | none | some t => exact ⟨_, _, fun _ => rfl⟩

theorem Mentatd.Coherent.handle (h : s.Coherent ext) {op : Operation}
    (hok : CoveredStep ext now op s) : (s.handle ext now op).2.Coherent ext := by
  cases op with
  | query text args dbId =>
    obtain ⟨basis, dbCache, hbasis⟩ := s.basisOf_eq now dbId
    have hbasis := hbasis s.queryCache
    cases basis with
    | error e =>
      rw [Mentatd.handle, hbasis]
      exact h.with_dbCache dbCache
    | ok basis =>
      obtain ⟨hcovered, hlegible⟩ := hok basis (congrArg Prod.fst hbasis)
      rw [Mentatd.handle, hbasis]
      exact (h.with_dbCache dbCache).served (.query text args basis) hcovered hlegible
        (cachedAnswer_served h.consistent)
  | pull pattern e =>
    exact h.served (.pull pattern e) hok.1 hok.2 (cachedAnswer_served h.consistent)
  | transact call =>
    simp only [Mentatd.handle, Mentatd.transact]
    cases hcall : mentatTransact call s.db with
    | error e => exact h
    | ok result =>
      obtain ⟨hcache, spelled, hread⟩ := hok result.1 result.2 hcall
      simp only [hread]
      exact h.transacted hcall hcache spelled
  | db freshId | dbSnapshot freshId | cleanupExpired => exact h.with_dbCache _

theorem Mentatd.Coherent.of_new (s : Mentatd) (capacity ttl : Nat) :
    Mentatd.Coherent ext { s with queryCache := .new capacity ttl } where
  consistent := new_consistent capacity ttl
  current := fun _ hholds => absurd hholds not_holds_new
  legible := fun _ hholds => absurd hholds not_holds_new
  covered := fun _ hholds => absurd hholds not_holds_new

theorem Mentatd.Coherent.response_eq (h : s.Coherent ext) (hcomputes : ext.Computes key compute)
    (hserved : Mentatd.Served ext s now key compute depsOf respond response s') :
    response = Mentatd.freshAnswer (compute s.db) respond := by
  cases hserved with
  | hit hholds =>
    rw [h.current hcomputes hholds, Mentatd.freshAnswer, Mentatd.respondCached,
      h.legible hcomputes hholds]
  | failed hcompute | computed hcompute => rw [hcompute, Mentatd.freshAnswer]

theorem Mentatd.Coherent.handle_response (h : s.Coherent ext) {queryCache : QueryCache JsonValue}
    (h' : Mentatd.Coherent ext { s with queryCache }) (op : Operation) :
    (s.handle ext now op).1 = ({ s with queryCache }.handle ext now op).1 := by
  cases op with
  | query text args dbId =>
    obtain ⟨basis, dbCache, hbasis⟩ := s.basisOf_eq now dbId
    rw [Mentatd.handle, Mentatd.handle, hbasis s.queryCache, hbasis queryCache]
    cases basis with
    | error e => rfl
    | ok basis =>
      have hcomputes : ext.Computes _ _ := .query text args basis
      refine ((h.with_dbCache dbCache).response_eq hcomputes
        (cachedAnswer_served h.consistent)).trans ?_
      exact ((h'.with_dbCache dbCache).response_eq hcomputes
        (cachedAnswer_served h'.consistent)).symm
  | pull pattern e =>
    have hcomputes : ext.Computes _ _ := .pull pattern e
    refine (h.response_eq hcomputes (cachedAnswer_served h.consistent)).trans ?_
    exact (h'.response_eq hcomputes (cachedAnswer_served h'.consistent)).symm
  | transact call =>
    simp only [Mentatd.handle, Mentatd.transact]
    cases mentatTransact call s.db with
    | error e => rfl
    | ok result =>
      obtain ⟨report, db'⟩ := result
      cases hread : ext.readReport report <;> simp only [hread]
  | db freshId | dbSnapshot freshId | cleanupExpired => rfl

end Coherence

/-- In a run in which every answer is covered by its dependencies and read back from its text, no
transaction changes the schema and every report is read back, each response is that of a server
with an empty cache. -/
theorem response_eq_fresh_of_covered {ext : Extension} {start s : Mentatd} {capacity ttl : Nat}
    (hstart : start.queryCache = .new capacity ttl)
    (hrun : MentatdRun ext (CoveredStep ext) start s) (now : Nat) (op : Operation) :
    (s.handle ext now op).1 =
      ({ s with queryCache := .new capacity ttl }.handle ext now op).1 := by
  have hcoherent : s.Coherent ext := by
    refine hrun.invariant (I := fun s => s.Coherent ext) (fun h hok => h.handle hok) ?_
    have hnew : Mentatd.Coherent ext { start with queryCache := .new capacity ttl } :=
      .of_new start capacity ttl
    rw [← hstart] at hnew
    exact hnew
  exact hcoherent.handle_response (.of_new s capacity ttl) op

/-- Operators that are not used on integers. -/
def integersOnly : SqlOperators :=
  ⟨fun _ _ _ => false, fun _ _ _ => false, fun _ => .zero, fun _ => "", fun _ => ""⟩

def addDoc (txId e : Int64) (doc : String) : Call :=
  plainCall txId 1735689600000000 [addDatom e Entids.dbDoc (.text doc)]

theorem covered_of_pinned {fmt : FloatFormat} {ops : SqlOperators} {q : ExtendedQuery}
    {select : ExtendedSelect} {db : Db} {inputs : QueryInputs} {row : List (Option String)}
    {entities : List Int64} (text : String)
    (hbuild : buildExtendedQuery db.cache { asOf := inputs.asOf } q = .ok select)
    (hnots : select.nots = []) (hofRow : ∀ c ∈ select.conditions, c.OfRow)
    (hpinned : PinnedTo entities select) (hrows : select.rows fmt ops db = [row])
    (hnamed : ∀ json, (Extension.ofQuery fmt ops q).query text inputs db = .ok json →
      entities ⊆ extractResultEntities json) :
    Covered ((Extension.ofQuery fmt ops q).query text inputs) extractResultEntities db := by
  intro json hjson _ db' hagree
  have hperm : (select.rows fmt ops db').Perm (select.rows fmt ops db) :=
    hpinned.rows_perm hnots hofRow (hagree.mono (hnamed json hjson)) fmt
  have hsame : mentatExtendedQuery fmt ops 0 { asOf := inputs.asOf } q db' =
      mentatExtendedQuery fmt ops 0 { asOf := inputs.asOf } q db := by
    refine mentatExtendedQuery_congr hagree.cache fun s hs => ?_
    cases hbuild.symm.trans hs
    rw [hrows] at hperm ⊢
    exact perm_singleton.mp hperm
  rw [← hjson]
  simp only [Extension.ofQuery, mentatQueryJson, bind, Except.bind, hsame]

/-- `[:find ?e ?v :where [?e :db/doc ?v] [(= ?e 500)]]`. -/
def docOf500 : ExtendedQuery where
  find := ["?e", "?v"]
  patterns := [{
    entity := .variable "?e", attr := .ident (.namespaced "db" "doc"), value := .variable "?v" }]
  predicates := [⟨"=", [.variable "?e", .entidOrInteger 500]⟩]

def docExtension : Extension := .ofQuery noDoubles integersOnly docOf500

def DescribedOnce (db : Db) : Prop :=
  (∃ select, buildExtendedQuery db.cache {} docOf500 = .ok select ∧
    select.nots = [] ∧ (∀ c ∈ select.conditions, c.OfRow) ∧ PinnedTo [500] select ∧
    select.rows noDoubles integersOnly db = [[some "500", some "first"]]) ∧
  ∀ json, docExtension.query "doc" ⟨[], none⟩ db = .ok json → [500] ⊆ extractResultEntities json

instance (db : Db) : Decidable (DescribedOnce db) := inferInstanceAs (Decidable (_ ∧ ∀ _, _ → _))

theorem DescribedOnce.covered {db : Db} (h : DescribedOnce db) :
    Covered (docExtension.query "doc" ⟨[], none⟩) extractResultEntities db := by
  obtain ⟨⟨select, hbuild, hnots, hofRow, hpinned, hrows⟩, hnamed⟩ := h
  exact covered_of_pinned "doc" hbuild hnots hofRow hpinned hrows hnamed

/-- The answer `[[500 "first"]]` stays in the cache while another entity is described. -/
theorem response_eq_fresh_doc :
    ∃ s, MentatdRun docExtension (CoveredStep docExtension) (.start bootstrapDb) s ∧
      s.queryCache.cache.length = 1 ∧
      (s.handle docExtension 3 (.query "doc" [] none)).1 =
        ({ s with queryCache := .new 1000 60 }.handle docExtension 3 (.query "doc" [] none)).1 := by
  have htransact {now call s} (h : ∀ r, mentatTransact call s.db = .ok r → r.2.cache = s.db.cache) :
      CoveredStep docExtension now (.transact call) s := by
    intro report db' hcall
    exact ⟨h (report, db') hcall, _, rfl⟩
  let s1 := ((Mentatd.start bootstrapDb).handle docExtension 0
    (.transact (addDoc 1000000000001 500 "first"))).2
  let s2 := (s1.handle docExtension 1 (.query "doc" [] none)).2
  have hquery : CoveredStep docExtension 1 (.query "doc" [] none) s1 := by
    intro basis hbasis
    cases hbasis
    have honce : DescribedOnce s1.db := by decide +kernel
    exact ⟨honce.covered, fun _ _ => rfl⟩
  have hfirst : CoveredStep docExtension 0 (.transact (addDoc 1000000000001 500 "first"))
      (.start bootstrapDb) := htransact (by decide +kernel)
  have hsecond : CoveredStep docExtension 2 (.transact (addDoc 1000000000002 501 "second")) s2 :=
    htransact (by decide +kernel)
  have hrun := ((MentatdRun.refl.step hfirst).step hquery).step hsecond
  exact ⟨_, hrun, by decide +kernel, response_eq_fresh_of_covered rfl hrun 3 _⟩

/-- `[:find ?e :where [?e :db/doc _]]`. -/
def described : ExtendedQuery where
  find := ["?e"]
  patterns := [{ entity := .variable "?e", attr := .ident (.namespaced "db" "doc") }]

def staleExtension : Extension := .ofQuery noDoubles integersOnly described

/-- After the answer `[[500]]` is cached, a second entity is described. -/
def staleServer : Mentatd :=
  Mentatd.runAll staleExtension
    [(0, .transact (addDoc 1000000000001 500 "first")), (1, .query "described" [] none),
      (2, .transact (addDoc 1000000000002 501 "second"))] (.start bootstrapDb)

/-- The answer from the cache lacks the entity that the transaction has described. -/
theorem cached_answer_misses_new_entity :
    (staleServer.handle staleExtension 3 (.query "described" [] none)).1 ≠
      ({ staleServer with queryCache := .new 1000 60 }.handle staleExtension 3
        (.query "described" [] none)).1 := by
  have hcached : (staleServer.handle staleExtension 3
      (.query "described" [] none)).1.rowCount = some 1 := by decide +kernel
  have hfresh : ({ staleServer with queryCache := .new 1000 60 }.handle staleExtension 3
      (.query "described" [] none)).1.rowCount = some 2 := by decide +kernel
  intro heq
  rw [heq, hfresh] at hcached
  cases hcached

end PgMentat

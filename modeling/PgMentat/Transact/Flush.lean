import PgMentat.Transact.Queue
import PgMentat.ValueCodec
import Mathlib.Data.List.Induction

namespace PgMentat

open List StatementProgram Program KeyedTable TypedValue

variable {r : LogRow} {k : Triple} {u : CurrentRow} {batch : ProjectionBatch}

variable {rows : List LogRow} {k' : Triple}

theorem mem_of_mem_dedupRows (h : r ∈ dedupRows rows) : r ∈ rows := by
  induction rows with
  | nil => exact h
  | cons x rows ih =>
    rcases mem_cons.mp h with rfl | h
    · exact mem_cons_self
    · exact mem_cons_of_mem x (ih (mem_filter.mp h).1)

theorem exists_mem_dedupRows (h : r ∈ rows) :
    ∃ r' ∈ dedupRows rows, r'.literalKey = r.literalKey := by
  induction rows with
  | nil => cases h
  | cons x rows ih =>
    by_cases hx : x.literalKey = r.literalKey
    · exact ⟨x, mem_cons_self, hx⟩
    · have hr : r ∈ rows := (mem_cons.mp h).resolve_left fun heq => hx (heq ▸ rfl)
      obtain ⟨r', hr', heq⟩ := ih hr
      refine ⟨r', mem_cons_of_mem x (mem_filter.mpr ⟨hr', ?_⟩), heq⟩
      exact decide_eq_true fun hx' => hx (hx'.symm.trans heq)

theorem flushTypes_ensures {ρ : Type} {rows : List ρ} {type : ρ → ValueType}
    {stmt : ValueType → List ρ → Tx Unit} {b : Backend} {db : Db}
    (I : (ρ → Prop) → Db → Prop) (hinit : I (fun _ => False) db)
    (hcongr : ∀ P Q db, (∀ r ∈ rows, P r ↔ Q r) → I P db → I Q db)
    (hstep : ∀ t P b db, I P db →
      server.Ensures (stmt t (rows.filter fun r => type r = t)) b db
        fun _ _ db' => I (fun r => P r ∨ type r = t) db') :
    server.Ensures (flushTypes rows type stmt) b db fun _ _ db' => I (fun _ => True) db' := by
  refine Server.Ensures.mono (Server.ensures_foldlM
    (fun done (_ : Unit) _ db' => I (fun r => type r ∈ done) db')
    (hcongr _ _ _ (fun r _ => by simp) hinit) ?_) fun _ _ db' h =>
      hcongr _ _ _ (fun r _ => iff_of_true (ValueType.mem_all _) trivial) h
  intro done t rest _ b1 db1 _ hI
  have hdone : ∀ r ∈ rows, type r ∈ done ∨ type r = t ↔ type r ∈ done ++ [t] :=
    fun r _ => by simp
  cases hrows : rows.filter fun r => type r = t with
  | nil =>
    refine (Server.ensures_ret ()).mpr (hcongr _ _ _ (fun r hr => ?_) hI)
    have hne : type r ≠ t := by
      simpa using filter_eq_nil_iff.mp hrows r hr
    simp [hne]
  | cons r rs =>
    have h := hstep t (fun r => type r ∈ done) b1 db1 hI
    rw [hrows] at h
    exact h.mono fun _ _ db' h' => hcongr _ _ _ hdone h'

/-- The log after the batch: the deduplicated rows, whose keys are distinct, over the old log. -/
def LogFlushed (rows : List LogRow) (db db' : Db) : Prop :=
  KeyUnique LogRow.key (dedupRows rows) ∧
    Upserted LogRow.key (dedupRows rows) (fun _ => True) db.log db'.log

theorem valueType_eq_of_key_eq {x y : LogRow} (h : x.key = y.key) :
    x.v.valueType = y.v.valueType := by
  simp only [LogRow.key, LogRow.triple, Prod.mk.injEq] at h
  rw [h.1.2.2]

theorem batchInsertDatoms_ensures (rows : List LogRow) (b : Backend) (db : Db) :
    server.Ensures (batchInsertDatoms rows) b db fun _ _ db' =>
      LogFlushed rows db db' ∧ db' = { db with log := db'.log } := by
  refine (flushTypes_ensures
    (fun P db' => (∀ x ∈ dedupRows rows, ∀ y ∈ dedupRows rows, P x → x.key = y.key → x = y) ∧
      Upserted LogRow.key (dedupRows rows) P db.log db'.log ∧ db' = { db with log := db'.log })
    ⟨fun _ _ _ _ h => h.elim, .refl _ _, rfl⟩ ?_ ?_).mono fun _ _ db' h =>
      ⟨⟨fun x hx y hy => h.1 x hx y hy trivial, h.2.1⟩, h.2.2⟩
  · rintro P Q db' hPQ ⟨hkeys, hlog, hdb⟩
    exact ⟨fun x hx y hy hQ => hkeys x hx y hy ((hPQ x hx).mpr hQ), hlog.congr hPQ, hdb⟩
  · rintro t P b1 db1 ⟨hkeys, hlog, hdb⟩
    refine (Server.ensures_issue _).mpr fun _ b2 ops h => ?_
    simp only [server, Stmt.answer] at h
    split at h
    · rename_i hnodup
      cases h
      rw [writeAll_putLog]
      refine ⟨fun x hx y hy hP hxy => ?_, ?_, ?_⟩
      · rcases hP with hP | hP
        · exact hkeys x hx y hy hP hxy
        · have hy' : y.v.valueType = t := (valueType_eq_of_key_eq hxy).symm.trans hP
          exact inj_on_of_nodup_map hnodup
            (mem_filter.mpr ⟨hx, decide_eq_true hP⟩)
            (mem_filter.mpr ⟨hy, decide_eq_true hy'⟩) hxy
      · have htype : ∀ x y : LogRow, x.key = y.key →
            decide (x.v.valueType = t) = decide (y.v.valueType = t) :=
          fun x y hxy => by rw [valueType_eq_of_key_eq hxy]
        simpa using hlog.step htype hnodup
      · rw [hdb]
    · cases h

/-- The last row of a batch for a triple: it decides whether the triple is live afterwards. -/
def lastRow (rows : List LogRow) (k : Triple) : Option LogRow :=
  rows.foldl (fun last r => if r.triple = k then some r else last) none

theorem lastRow_append (rows : List LogRow) (r : LogRow) (k : Triple) :
    lastRow (rows ++ [r]) k = if r.triple = k then some r else lastRow rows k := by
  simp only [lastRow, foldl_append, foldl_cons, foldl_nil]

theorem mem_of_lastRow (h : lastRow rows k = some r) : r ∈ rows ∧ r.triple = k := by
  induction rows using List.reverseRecOn with
  | nil => cases h
  | append_singleton rows x ih =>
    rw [lastRow_append] at h
    split at h
    · cases h
      exact ⟨mem_append_right rows mem_cons_self, ‹_›⟩
    · exact ⟨mem_append_left [x] (ih h).1, (ih h).2⟩

theorem lastRow_eq_none : lastRow rows k = none ↔ ∀ r ∈ rows, r.triple ≠ k := by
  induction rows using List.reverseRecOn with
  | nil => simp [lastRow]
  | append_singleton rows x ih =>
    rw [lastRow_append]
    split
    · rename_i hx
      simp [hx]
    · rename_i hx
      simp only [ih, mem_append, mem_singleton, or_imp, forall_and, forall_eq]
      exact ⟨fun h => ⟨h, hx⟩, And.left⟩

theorem projectionKey_inj (h : projectionKey k = projectionKey k') : k = k' := by
  obtain ⟨e, a, v⟩ := k
  obtain ⟨e', a', v'⟩ := k'
  simp only [projectionKey, Prod.mk.injEq] at h
  obtain ⟨htype, rfl, rfl, hlit⟩ := h
  rw [eq_of_sqlLiteral_eq htype hlit]

theorem projectionKey_ne : projectionKey k ≠ projectionKey k' ↔ k ≠ k' :=
  ⟨fun h heq => h (heq ▸ rfl), fun h heq => h (projectionKey_inj heq)⟩

theorem CurrentRow.eq_iff {w : CurrentRow} : u = w ↔ u.triple = w.triple ∧ u.tx = w.tx := by
  cases u
  cases w
  simp [CurrentRow.triple, and_assoc]

theorem mem_add_upserts :
    u ∈ (batch.add r).upserts ↔ (u ∈ batch.upserts ∧ u.triple ≠ r.triple) ∨
      (r.added = true ∧ u.triple = r.triple ∧ u.tx = r.tx) := by
  have hrow : u = ⟨r.e, r.a, r.v, r.tx⟩ ↔ u.triple = r.triple ∧ u.tx = r.tx := CurrentRow.eq_iff
  cases hr : r.added <;>
    simp [ProjectionBatch.add, hr, projectionKey_ne, hrow]

theorem mem_add_deletes :
    k ∈ (batch.add r).deletes ↔ (k ∈ batch.deletes ∧ k ≠ r.triple) ∨
      (r.added = false ∧ k = r.triple) := by
  cases hr : r.added <;>
    simp [ProjectionBatch.add, hr, projectionKey_ne]

theorem mem_upserts :
    u ∈ (rows.foldl ProjectionBatch.add {}).upserts ↔
      ∃ r, lastRow rows u.triple = some r ∧ r.added = true ∧ u.tx = r.tx := by
  induction rows using List.reverseRecOn with
  | nil => simp [lastRow]
  | append_singleton rows x ih =>
    simp only [foldl_append, foldl_cons, foldl_nil, lastRow_append,
      mem_add_upserts, ih]
    by_cases hu : u.triple = x.triple
    · simp [hu]
    · simp [hu, Ne.symm hu]

theorem mem_deletes :
    k ∈ (rows.foldl ProjectionBatch.add {}).deletes ↔
      ∃ r, lastRow rows k = some r ∧ r.added = false := by
  induction rows using List.reverseRecOn with
  | nil => simp [lastRow]
  | append_singleton rows x ih =>
    simp only [foldl_append, foldl_cons, foldl_nil, lastRow_append,
      mem_add_deletes, ih]
    by_cases hk : k = x.triple
    · simp [hk]
    · simp [hk, Ne.symm hk]

def ProjectionFlushed (rows : List LogRow) (db db' : Db) : Prop :=
  ∀ x, x ∈ db'.current ↔
    (∃ r, lastRow rows x.triple = some r ∧ r.added = true ∧ x.tx = r.tx) ∨
      (lastRow rows x.triple = none ∧ x ∈ db.current)

theorem deleteBatch_ensures (triples : List Triple) (b : Backend) (db : Db) :
    server.Ensures (flushTypes triples (fun k => k.2.2.valueType)
        fun t ks => spi (.deleteCurrent t ks)) b db fun _ _ db' =>
      (∀ x, x ∈ db'.current ↔ x ∈ db.current ∧ x.triple ∉ triples) ∧
        db' = { db with current := db'.current } := by
  refine (flushTypes_ensures
    (fun P db' => (∀ x, x ∈ db'.current ↔ x ∈ db.current ∧ ¬ (x.triple ∈ triples ∧ P x.triple)) ∧
      db' = { db with current := db'.current })
    ⟨by simp, rfl⟩ ?_ ?_).mono fun _ _ db' h => by simpa using h
  · rintro P Q db' hPQ ⟨hcur, hdb⟩
    refine ⟨fun x => ?_, hdb⟩
    rw [hcur x]
    exact and_congr_right fun _ => not_congr (and_congr_right fun hx => hPQ _ hx)
  · rintro t P b1 db1 ⟨hcur, hdb⟩
    refine (Server.ensures_issue _).mpr fun _ b2 ops h => ?_
    cases h
    rw [writeAll_delCurrent, foldl_del_filter (fun x y hxy => by rw [hxy])]
    refine ⟨fun x => ?_, by rw [hdb]⟩
    simp only [mem_filter, hcur x, Bool.not_eq_true', decide_eq_false_iff_not,
      decide_eq_true_eq]
    tauto

theorem upsertBatch_ensures (rows : List CurrentRow) (b : Backend) (db : Db) :
    server.Ensures (flushTypes rows (fun r => r.v.valueType)
        fun t rows => spi (.upsertCurrent t rows)) b db fun _ _ db' =>
      Upserted CurrentRow.triple rows (fun _ => True) db.current db'.current ∧
        db' = { db with current := db'.current } := by
  refine (flushTypes_ensures
    (fun P db' => Upserted CurrentRow.triple rows P db.current db'.current ∧
      db' = { db with current := db'.current })
    ⟨.refl _ _, rfl⟩ ?_ ?_)
  · rintro P Q db' hPQ ⟨hcur, hdb⟩
    exact ⟨hcur.congr hPQ, hdb⟩
  · rintro t P b1 db1 ⟨hcur, hdb⟩
    refine (Server.ensures_issue _).mpr fun _ b2 ops h => ?_
    simp only [server, Stmt.answer] at h
    split at h
    · rename_i hnodup
      cases h
      rw [writeAll_putCurrent]
      refine ⟨?_, by rw [hdb]⟩
      have htype : ∀ x y : CurrentRow, x.triple = y.triple →
          decide (x.v.valueType = t) = decide (y.v.valueType = t) := by
        intro x y hxy
        simp only [CurrentRow.triple, Prod.mk.injEq] at hxy
        rw [hxy.2.2]
      simpa using hcur.step htype hnodup
    · cases h

theorem maintainCurrentProjection_ensures (rows : List LogRow) (b : Backend) (db : Db) :
    server.Ensures (maintainCurrentProjection rows) b db fun _ _ db' =>
      ProjectionFlushed rows db db' ∧ db' = { db with current := db'.current } := by
  unfold maintainCurrentProjection
  simp only [Server.ensures_bind]
  refine (deleteBatch_ensures _ _ _).mono fun _ b1 db1 h1 => ?_
  refine (upsertBatch_ensures _ _ _).mono fun _ b2 db2 h2 => ?_
  refine ⟨fun x => ?_, by rw [h2.2, h1.2]⟩
  rw [h2.1 x, h1.1 x, and_iff_left trivial, mem_upserts]
  refine or_congr Iff.rfl ?_
  rw [mem_deletes]
  constructor
  · rintro ⟨⟨hx, hdel⟩, hup⟩
    refine ⟨?_, hx⟩
    cases hlast : lastRow rows x.triple with
    | none => rfl
    | some r =>
      cases hr : r.added with
      | false => exact absurd ⟨r, hlast, hr⟩ hdel
      | true =>
        refine absurd rfl (hup ⟨x.e, x.a, x.v, r.tx⟩ ?_ trivial)
        exact mem_upserts.mpr ⟨r, hlast, hr, rfl⟩
  · rintro ⟨hnone, hx⟩
    refine ⟨⟨hx, ?_⟩, fun y hy _ hyx => ?_⟩
    · rintro ⟨r, hr, -⟩
      cases hnone.symm.trans hr
    · obtain ⟨r, hr, -⟩ := mem_upserts.mp hy
      rw [hyx] at hr
      cases hnone.symm.trans hr

end PgMentat

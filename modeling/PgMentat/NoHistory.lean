import PgMentat.Run

namespace PgMentat

open List KeyedTable

/-- The log rows of the attribute are its live triples, each once and as an assertion. -/
structure Db.Unhistoried (db : Db) (a : Int64) : Prop where
  live : ∀ r ∈ db.log, r.a = a → r.added = true ∧ db.Live r.triple
  logged : ∀ k, k.2.1 = a → db.Live k → ∃ r ∈ db.log, r.triple = k
  once : ∀ r ∈ db.log, ∀ r' ∈ db.log, r.a = a → r'.triple = r.triple → r' = r

/-- Wherever the schema has the attribute, it is `:db/noHistory`. -/
def Db.DeclaresNoHistory (db : Db) (a : Int64) : Prop :=
  ∀ info, db.cache.getAttribute a = some info → info.noHistory = true

instance (db : Db) (a : Int64) : Decidable (db.DeclaresNoHistory a) :=
  inferInstanceAs (Decidable (∀ info ∈ db.cache.getAttribute a, info.noHistory = true))

/-- No datom of the call retracts a value of the attribute: not by `:db/retract`, not by
`:db.fn/cas`, not by `:db/retractEntity`. -/
def Call.OnlyAsserts (call : Call) (db : Db) (a : Int64) : Prop :=
  ∀ d ∈ call.pending db, d.a = a → d.added = true

instance (call : Call) (db : Db) (a : Int64) : Decidable (call.OnlyAsserts db a) :=
  inferInstanceAs (Decidable (∀ d ∈ call.pending db, d.a = a → d.added = true))

/-- The queued rows of the attribute are assertions of triples that have no log row. -/
structure QueuesNew (a : Int64) (db : Db) (rows : List LogRow) : Prop where
  added : ∀ r ∈ rows, r.a = a → r.added = true
  new : ∀ r ∈ rows, r.a = a → ¬ db.Live r.triple

section Queue

variable {c : SchemaCache} {all done : List PendingDatom} {tx a : Int64} {scan : ScanOrder}
  {db db' : Db} {rows rows' : List LogRow} {d : PendingDatom}

theorem QueuesNew.snoc {r : LogRow} (h : QueuesNew a db rows)
    (hr : r.a = a → r.added = true ∧ ¬ db.Live r.triple) : QueuesNew a db (rows ++ [r]) := by
  constructor
  · intro x hx ha
    rcases mem_append.mp hx with hx | hx
    · exact h.added x hx ha
    · rw [mem_singleton.mp hx] at ha ⊢
      exact (hr ha).1
  · intro x hx ha
    rcases mem_append.mp hx with hx | hx
    · exact h.new x hx ha
    · rw [mem_singleton.mp hx] at ha ⊢
      exact (hr ha).2

theorem QueuesNew.snoc_other {r : LogRow} (h : QueuesNew a db rows) (hr : r.a ≠ a) :
    QueuesNew a db (rows ++ [r]) :=
  h.snoc fun ha => absurd ha hr

theorem Db.Unhistoried.pruneEa (h : db.Unhistoried a) :
    ((db.pruneLog (LogRow.isEa d)).pruneCurrent (CurrentRow.isEa d)).Unhistoried a where
  live := by
    intro r hr ha
    obtain ⟨hr, hne⟩ := mem_pruneLog_isEa.mp hr
    exact ⟨(h.live r hr ha).1, live_pruneCurrent.mpr ⟨(h.live r hr ha).2, hne⟩⟩
  logged := by
    intro k hk hlive
    obtain ⟨hlive, hne⟩ := live_pruneCurrent.mp hlive
    obtain ⟨r, hr, rfl⟩ := h.logged k hk hlive
    exact ⟨r, mem_pruneLog_isEa.mpr ⟨hr, hne⟩, rfl⟩
  once := by
    intro r hr r' hr'
    exact h.once r (mem_pruneLog_isEa.mp hr).1 r' (mem_pruneLog_isEa.mp hr').1

theorem Db.Unhistoried.pruneEav (h : db.Unhistoried a) (hnew : ¬ db.Live d.triple) :
    (db.pruneLog (LogRow.isEav d)).Unhistoried a where
  live := by
    intro r hr ha
    exact h.live r (mem_pruneLog_isEav.mp hr).1 ha
  logged := by
    intro k hk hlive
    obtain ⟨r, hr, rfl⟩ := h.logged k hk hlive
    refine ⟨r, mem_pruneLog_isEav.mpr ⟨hr, fun heq => hnew ?_⟩, rfl⟩
    exact heq ▸ hlive
  once := by
    intro r hr r' hr'
    exact h.once r (mem_pruneLog_isEav.mp hr).1 r' (mem_pruneLog_isEav.mp hr').1

theorem QueuesNew.mono (h : QueuesNew a db rows) (hlive : ∀ k, db'.Live k → db.Live k) :
    QueuesNew a db' rows :=
  ⟨h.added, fun r hr ha hl => h.new r hr ha (hlive _ hl)⟩

theorem QueueStep.unhistoried (h : QueueStep c all tx scan db rows d db' rows')
    (hdeclared : ∀ info, c.getAttribute a = some info → info.noHistory = true)
    (honly : d.a = a → d.added = true) (hdb : db.Unhistoried a) (hrows : QueuesNew a db rows) :
    db'.Unhistoried a ∧ QueuesNew a db' rows' := by
  -- an attribute that keeps its history is another one
  have hother {info : SchemaRow} (hinfo : c.getAttribute d.a = some info)
      (hhist : info.noHistory = false) : d.a ≠ a := by
    intro ha
    rw [ha] at hinfo
    rw [hdeclared info hinfo] at hhist
    cases hhist
  cases h with
  | retract hadded =>
    refine ⟨hdb, hrows.snoc_other fun ha => ?_⟩
    exact absurd (honly ha) (Bool.eq_false_iff.mp hadded)
  | skipOne | skipMany => exact ⟨hdb, hrows⟩
  | assertOne hv _ hhist => exact ⟨hdb, hrows.snoc_other (hother hv.attr hhist)⟩
  | replaceOne hv _ hhist =>
    have hne := hother hv.attr hhist
    exact ⟨hdb, (hrows.snoc_other hne).snoc_other hne⟩
  | assertMany hv _ hhist => exact ⟨hdb, hrows.snoc_other (hother hv.attr hhist)⟩
  | pruneOne hv =>
    refine ⟨hdb.pruneEa, QueuesNew.snoc (hrows.mono fun k hk => ?_) fun _ => ⟨hv.added, ?_⟩⟩
    · exact (live_pruneCurrent.mp hk).1
    · intro hlive
      exact (live_pruneCurrent.mp hlive).2 ⟨rfl, rfl, rfl⟩
  | pruneMany hv _ _ hnew =>
    exact ⟨hdb.pruneEav hnew, QueuesNew.snoc (hrows.mono fun _ hk => hk) fun _ => ⟨hv.added, hnew⟩⟩

theorem QueueRun.unhistoried (h : QueueRun c all tx scan db done db' rows)
    (hdeclared : ∀ info, c.getAttribute a = some info → info.noHistory = true)
    (honly : ∀ d ∈ done, d.a = a → d.added = true) (hdb : db.Unhistoried a) :
    db'.Unhistoried a ∧ QueuesNew a db' rows := by
  induction h with
  | nil => exact ⟨hdb, fun _ hr => absurd hr List.not_mem_nil,
      fun _ hr => absurd hr List.not_mem_nil⟩
  | @snoc done mid rows d db' rows' _ hstep ih =>
    obtain ⟨hmid, hrows⟩ := ih fun d' hd' => honly d' (List.mem_append_left [d] hd')
    exact hstep.unhistoried hdeclared (honly d (List.mem_append_right done List.mem_cons_self))
      hmid hrows

end Queue

section Commit

variable {call : Call} {db mid loop db' : Db} {rows : List LogRow} {a : Int64}

theorem Committed.mid_unhistoried (h : Committed call db mid loop db' rows)
    (ha : a ≠ Entids.dbTxInstant) (hdb : db.Unhistoried a) : mid.Unhistoried a where
  live := by
    intro r hr hra
    rcases h.mem_mid_log.mp hr with hr | ⟨rfl, -⟩
    · exact ⟨(hdb.live r hr hra).1, h.mid_live_iff.mpr (.inl (hdb.live r hr hra).2)⟩
    · exact absurd hra.symm ha
  logged := by
    intro k hk hlive
    rcases h.mid_live_iff.mp hlive with hlive | rfl
    · obtain ⟨r, hr, hrk⟩ := hdb.logged k hk hlive
      exact ⟨r, h.mem_mid_log.mpr (.inl hr), hrk⟩
    · exact absurd hk.symm ha
  once := by
    intro r hr r' hr' hra htriple
    have hra' : r'.a = a := (congrArg (fun k => k.2.1) htriple).trans hra
    rcases h.mem_mid_log.mp hr with hr | ⟨rfl, -⟩
    · rcases h.mem_mid_log.mp hr' with hr' | ⟨rfl, -⟩
      · exact hdb.once r hr r' hr' hra htriple
      · exact absurd hra'.symm ha
    · exact absurd hra.symm ha

section Flush

variable (h : Committed call db mid loop db' rows) (hloop : loop.Unhistoried a)
  (hrows : QueuesNew a loop rows)

include h hrows

theorem Committed.live_of_queued {r : LogRow} (hr : r ∈ rows) (ha : r.a = a) :
    db'.Live r.triple := by
  cases hlast : lastRow rows r.triple with
  | none => exact absurd rfl (lastRow_eq_none.mp hlast r hr)
  | some x =>
    obtain ⟨hx, htriple⟩ := mem_of_lastRow hlast
    have hxa : x.a = a := (congrArg (fun k => k.2.1) htriple).trans ha
    exact (h.live_iff_of_lastRow hlast).mpr (hrows.added x hx hxa)

include hloop

theorem Committed.queued_or_kept {r : LogRow} (hr : r ∈ db'.log) (ha : r.a = a) :
    r ∈ rows ∨ (r ∈ loop.log ∧ lastRow rows r.triple = none) := by
  rcases h.mem_log.mp hr with hr | ⟨hr, -⟩
  · exact .inl (mem_of_mem_dedupRows hr)
  · refine .inr ⟨hr, lastRow_eq_none.mpr fun x hx htriple => ?_⟩
    have hxa : x.a = a := (congrArg (fun k => k.2.1) htriple).trans ha
    exact hrows.new x hx hxa (htriple ▸ (hloop.live r hr ha).2)

theorem Committed.unhistoried : db'.Unhistoried a where
  live := by
    intro r hr ha
    rcases h.queued_or_kept hloop hrows hr ha with hr | ⟨hr, hnone⟩
    · exact ⟨hrows.added r hr ha, h.live_of_queued hrows hr ha⟩
    · obtain ⟨hadded, hlive⟩ := hloop.live r hr ha
      exact ⟨hadded, (h.live_iff_of_no_row hnone).mpr hlive⟩
  logged := by
    intro k hk hlive
    cases hlast : lastRow rows k with
    | none =>
      obtain ⟨r, hr, rfl⟩ := hloop.logged k hk ((h.live_iff_of_no_row hlast).mp hlive)
      refine ⟨r, h.mem_log.mpr (.inr ⟨hr, fun y hy hkey => ?_⟩), rfl⟩
      exact lastRow_eq_none.mp hlast y (mem_of_mem_dedupRows hy) (Prod.mk.inj hkey).1
    | some x =>
      obtain ⟨hx, htriple⟩ := mem_of_lastRow hlast
      have hadded := hrows.added x hx ((congrArg (fun k => k.2.1) htriple).trans hk)
      exact ⟨x, h.mem_log.mpr (.inl (h.mem_dedupRows_of_added hx hadded)), htriple⟩
  once := by
    intro r hr r' hr' ha htriple
    have ha' : r'.a = a := (congrArg (fun k => k.2.1) htriple).trans ha
    rcases h.queued_or_kept hloop hrows hr ha with hr | ⟨hr, hnone⟩
    · rcases h.queued_or_kept hloop hrows hr' ha' with hr' | ⟨-, hnone'⟩
      · -- both carry the id of the transaction
        obtain ⟨e, a, v, tx, added⟩ := r
        obtain ⟨e', a', v', tx', added'⟩ := r'
        cases htriple
        cases h.rows_tx _ hr
        cases h.rows_tx _ hr'
        cases hrows.added _ hr ha
        cases hrows.added _ hr' ha'
        rfl
      · exact absurd htriple.symm (lastRow_eq_none.mp hnone' r hr)
    · rcases h.queued_or_kept hloop hrows hr' ha' with hr' | ⟨hr', -⟩
      · exact absurd htriple (lastRow_eq_none.mp hnone r' hr')
      · exact hloop.once r hr r' hr' ha htriple

end Flush

end Commit

theorem unhistoried_of_transact {call : Call} {db db' : Db} {report : TxReport} {a : Int64}
    (h : mentatTransact call db = .ok (report, db')) (ha : a ≠ Entids.dbTxInstant)
    (hdeclared : db'.DeclaresNoHistory a) (honly : call.OnlyAsserts db a)
    (hdb : db.Unhistoried a) : db'.Unhistoried a := by
  obtain ⟨mid, loop, rows, hc⟩ := mentatTransact_committed h
  have hinfo : ∀ info, mid.cache.getAttribute a = some info → info.noHistory = true := by
    rw [← hc.cache_eq]
    exact hdeclared
  obtain ⟨hloop, hrows⟩ := hc.run.unhistoried hinfo honly (hc.mid_unhistoried ha hdb)
  exact hc.unhistoried hloop hrows

theorem bootstrapDb_unhistoried (a : Int64) : bootstrapDb.Unhistoried a where
  live := fun _ hr => nomatch hr
  logged := fun _ _ ⟨_, hx, _⟩ => nomatch hx
  once := fun _ hr => nomatch hr

/-- An attribute that every call of a run declares `:db/noHistory`, if it declares it at all, and
of which no call retracts a value, has no history in any state of the run. -/
theorem unhistoried_of_onlyAsserts {a : Int64} {db : Db}
    (hstart : bootstrapDb.DeclaresNoHistory a)
    (h : Reaches (fun db call db' => db'.DeclaresNoHistory a ∧ call.OnlyAsserts db a)
      bootstrapDb db) : db.Unhistoried a := by
  have ha : a ≠ Entids.dbTxInstant := by
    rintro rfl
    have hinfo : ∀ info ∈ bootstrapDb.cache.getAttribute Entids.dbTxInstant,
        info.noHistory = false := by decide +kernel
    have hsome : (bootstrapDb.cache.getAttribute Entids.dbTxInstant).isSome = true := by
      decide +kernel
    obtain ⟨info, hinfo'⟩ := Option.isSome_iff_exists.mp hsome
    have hyes := hstart info hinfo'
    rw [hinfo info hinfo'] at hyes
    cases hyes
  refine h.invariant (I := fun db => db.Unhistoried a) ?_ (bootstrapDb_unhistoried a)
  intro mid db' call report hmid hcall hok
  exact unhistoried_of_transact hcall ha hok.1 hok.2 hmid

/-- `:page/hits`, a single number without history. -/
def defineHits : Call :=
  ⟨⟨1735689601000000, 1000000000001, [1000001], .heap, 8⟩, .vector [.map
    [(.keyword (.namespaced "db" "id"), .text "hits"),
     (.keyword (.namespaced "db" "ident"), .keyword (.namespaced "page" "hits")),
     (.keyword (.namespaced "db" "valueType"), .keyword (.namespaced "db.type" "long")),
     (.keyword (.namespaced "db" "cardinality"), .keyword (.namespaced "db.cardinality" "one")),
     (.keyword (.namespaced "db" "noHistory"), .boolean true)]]⟩

def setHits (tx : Int64) (n : Int64) : Call :=
  plainCall tx 1735689602000000 [addDatom 500 1000001 (.integer n)]

/-- Two assertions, the second of which takes the place of the first. -/
theorem unhistoried_of_onlyAsserts_hits :
    ∃ db, stateAfter [defineHits, setHits 1000000000002 5, setHits 1000000000003 6] = some db ∧
      db.Unhistoried 1000001 := by
  have hstart : bootstrapDb.DeclaresNoHistory 1000001 := by decide +kernel
  have hmeets : RunMeets (fun db call db' => db'.DeclaresNoHistory 1000001 ∧
      call.OnlyAsserts db 1000001)
      [defineHits, setHits 1000000000002 5, setHits 1000000000003 6] bootstrapDb := by
    decide +kernel
  obtain ⟨db, hrun, hreach⟩ := Reaches.of_runMeets .refl hmeets
  exact ⟨db, congrArg Except.toOption hrun, unhistoried_of_onlyAsserts hstart hreach⟩

def clearHits : Call :=
  plainCall 1000000000003 1735689603000000 [retractDatom 500 1000001 (.integer 5)]

def swapHits : Call :=
  plainCall 1000000000003 1735689603000000 [.vector [.keyword (.namespaced "db.fn" "cas"),
    .integer 500, .integer 1000001, .integer 5, .integer 6]]

/-- A retraction, explicit or by `:db.fn/cas`, leaves its row and the row it retracts. -/
theorem not_unhistoried_retracted :
    (∃ db, stateAfter [defineHits, setHits 1000000000002 5, clearHits] = some db ∧
      db.DeclaresNoHistory 1000001 ∧ ¬ db.Unhistoried 1000001) ∧
    ∃ db, stateAfter [defineHits, setHits 1000000000002 5, swapHits] = some db ∧
      db.DeclaresNoHistory 1000001 ∧ ¬ db.Unhistoried 1000001 := by
  have hclear : ∃ db ∈ stateAfter [defineHits, setHits 1000000000002 5, clearHits],
      db.DeclaresNoHistory 1000001 ∧ ∃ r ∈ db.log, r.a = 1000001 ∧ r.added = false := by
    decide +kernel
  have hswap : ∃ db ∈ stateAfter [defineHits, setHits 1000000000002 5, swapHits],
      db.DeclaresNoHistory 1000001 ∧ ∃ r ∈ db.log, r.a = 1000001 ∧ r.added = false := by
    decide +kernel
  have hbroken {db : Db} (h : ∃ r ∈ db.log, r.a = 1000001 ∧ r.added = false) :
      ¬ db.Unhistoried 1000001 := by
    intro hdb
    obtain ⟨r, hr, ha, hadded⟩ := h
    exact absurd (hdb.live r hr ha).1 (Bool.eq_false_iff.mp hadded)
  obtain ⟨db, hdb, hdeclared, hrow⟩ := hclear
  obtain ⟨db2, hdb2, hdeclared2, hrow2⟩ := hswap
  exact ⟨⟨db, hdb, hdeclared, hbroken hrow⟩, db2, hdb2, hdeclared2, hbroken hrow2⟩

end PgMentat

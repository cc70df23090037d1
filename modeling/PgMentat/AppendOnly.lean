import PgMentat.Run

namespace PgMentat

open KeyedTable

variable {call : Call} {db mid loop db' : Db} {rows : List LogRow}

namespace Committed

variable (h : Committed call db mid loop db' rows)

include h

theorem log_kept_of_lt {r : LogRow} (hr : r ∈ db.log) (hlt : r.tx < call.backend.txId) :
    r ∈ db'.log ∨ db'.NoHistory r.a := by
  rcases h.run.log_kept.2 r (h.mem_mid_log.mpr (.inl hr)) with hloop | ⟨info, hinfo, hhist⟩
  · refine .inl (h.mem_log.mpr (.inr ⟨hloop, fun y hy hkey => ?_⟩))
    have htx : y.tx = call.backend.txId := h.rows_tx y (mem_of_mem_dedupRows hy)
    rw [← (Prod.mk.inj hkey).2, htx] at hlt
    exact (Int64.lt_irrefl hlt).elim
  · exact .inr ⟨info, h.cache_eq ▸ hinfo, hhist⟩

theorem log_kept (hinc : TxIncreasing db call) {r : LogRow} (hr : r ∈ db.log) :
    r ∈ db'.log ∨ db'.NoHistory r.a :=
  h.log_kept_of_lt hr (hinc r hr)

theorem log_new {r : LogRow} (hr : r ∈ db'.log) (hnew : r ∉ db.log) : r.tx = call.backend.txId := by
  rcases h.mem_log.mp hr with hrow | ⟨hloop, -⟩
  · exact h.rows_tx r (mem_of_mem_dedupRows hrow)
  · rcases h.mem_mid_log.mp (h.run.log_kept.1 r hloop) with hold | ⟨rfl, -⟩
    · exact absurd hold hnew
    · rfl

theorem exists_log_tx (hinc : TxIncreasing db call) (hhist : ∀ a, ¬ db'.NoHistory a) :
    ∃ r ∈ db'.log, r.tx = call.backend.txId := by
  have hmid : txInstantRow call.backend.txId call.backend.now ∈ mid.log := by
    refine h.mem_mid_log.mpr (.inr ⟨rfl, fun y hy hkey => ?_⟩)
    have hlt := hinc y hy
    rw [(Prod.mk.inj hkey).2] at hlt
    exact (Int64.lt_irrefl hlt).elim
  rcases h.run.log_kept.2 _ hmid with hloop | ⟨info, hinfo, hno⟩
  · by_cases hkey : ∀ y ∈ dedupRows rows,
        y.key ≠ (txInstantRow call.backend.txId call.backend.now).key
    · exact ⟨_, h.mem_log.mpr (.inr ⟨hloop, hkey⟩), rfl⟩
    · push Not at hkey
      obtain ⟨y, hy, -⟩ := hkey
      exact ⟨y, h.mem_log.mpr (.inl hy), h.rows_tx y (mem_of_mem_dedupRows hy)⟩
  · exact absurd ⟨info, h.cache_eq ▸ hinfo, hno⟩ (hhist _)

end Committed

/-- A later run without `:db/noHistory` attributes leaves the log up to a committed transaction
as it is. -/
theorem log_prefix_stable {T : Int64} {start db'' : Db} (hT : ∃ r ∈ start.log, r.tx = T)
    (hrun : Reaches (fun d call d' => TxIncreasing d call ∧ ∀ a, ¬ d'.NoHistory a) start db'')
    {r : LogRow} (hr : r.tx ≤ T) : r ∈ db''.log ↔ r ∈ start.log := by
  suffices hinv : (∃ r ∈ db''.log, r.tx = T) ∧ (r ∈ db''.log ↔ r ∈ start.log) from hinv.2
  refine hrun.invariant (I := fun d => (∃ r ∈ d.log, r.tx = T) ∧ (r ∈ d.log ↔ r ∈ start.log))
    ?_ ⟨hT, Iff.rfl⟩
  rintro d d' call report ⟨⟨x, hx, rfl⟩, hiff⟩ hcall ⟨hinc, hhist⟩
  obtain ⟨mid, loop, rows, h⟩ := mentatTransact_committed hcall
  have hkept {y : LogRow} (hy : y ∈ d.log) : y ∈ d'.log :=
    (h.log_kept hinc hy).resolve_right (hhist y.a)
  refine ⟨⟨x, hkept hx, rfl⟩, hiff.symm.trans ⟨hkept, fun hr' => ?_⟩ |>.symm⟩
  by_contra hnew
  have htx := h.log_new hr' hnew
  have hlt := hinc x hx
  rw [← htx] at hlt
  exact Int64.lt_irrefl (Int64.lt_of_lt_of_le hlt hr)

/-- A successful call whose id is above the log's keeps every row of an attribute that is not
`:db/noHistory` and only adds rows of its own transaction; hence later calls never change the log
up to that transaction. -/
theorem mentatTransact_appendOnly {call : Call} {db db' : Db} {report : TxReport}
    (hinc : TxIncreasing db call) (h : mentatTransact call db = .ok (report, db')) :
    (∀ r ∈ db.log, r ∈ db'.log ∨ db'.NoHistory r.a) ∧
    (∀ r ∈ db'.log, r ∉ db.log → r.tx = call.backend.txId) ∧
    ((∀ a, ¬ db'.NoHistory a) → ∀ db'',
      Reaches (fun d call d' => TxIncreasing d call ∧ ∀ a, ¬ d'.NoHistory a) db' db'' →
      ∀ r, r.tx ≤ call.backend.txId → (r ∈ db''.log ↔ r ∈ db'.log)) := by
  obtain ⟨mid, loop, rows, hc⟩ := mentatTransact_committed h
  refine ⟨fun r hr => hc.log_kept hinc hr, fun r hr hnew => hc.log_new hr hnew, ?_⟩
  intro hhist db'' hrun r hr
  exact log_prefix_stable (hc.exists_log_tx hinc hhist) hrun hr

def firstDoc : Call :=
  plainCall 1000000000001 1735689600000000 [addDatom 500 Entids.dbDoc (.text "first")]

def secondDoc : Call :=
  plainCall 1000000000002 1735689601000000 [addDatom 500 Entids.dbDoc (.text "second")]

/-- Replacing the `:db/doc` of an entity. -/
theorem mentatTransact_appendOnly_doc :
    ∃ db report db', stateAfter [firstDoc] = some db ∧
      mentatTransact secondDoc db = .ok (report, db') ∧
      (∀ r ∈ db.log, r ∈ db'.log ∨ db'.NoHistory r.a) ∧
      ∀ r ∈ db'.log, r ∉ db.log → r.tx = 1000000000002 := by
  have hstate : ∃ db, stateAfter [firstDoc] = some db ∧ ∃ report db',
      mentatTransact secondDoc db = .ok (report, db') ∧ TxIncreasing db secondDoc := by
    decide +kernel
  obtain ⟨db, hdb, report, db', h, hincreasing⟩ := hstate
  have hlog := mentatTransact_appendOnly hincreasing h
  exact ⟨db, report, db', hdb, h, hlog.1, hlog.2.1⟩

/-- A call changes only what its datoms name: for every other attribute of every entity the current
values and the whole log are as before, pruning and replaced values included. -/
theorem mentatTransact_sameFacts {e a : Int64} {report : TxReport}
    (h : mentatTransact call db = .ok (report, db'))
    (hpending : ∀ d ∈ call.pending db, d.e = e → d.a ≠ a)
    (hinstant : e = call.backend.txId → a ≠ Entids.dbTxInstant) : SameFacts e a db db' := by
  obtain ⟨mid, loop, rows, hc⟩ := mentatTransact_committed h
  have hrows : ∀ r ∈ rows, r.e = e → r.a ≠ a := fun r hr => by
    cases hc.origin r hr with
    | retracted hd | asserted hd | replaced hd => exact hpending _ hd
  have hmid : SameFacts e a db mid := by
    refine ⟨fun v => hc.mid_live_iff.trans (or_iff_left ?_),
      fun r he ha => hc.mem_mid_log.trans (or_iff_left ?_)⟩
    · intro hk
      cases hk
      exact hinstant rfl rfl
    · rintro ⟨rfl, -⟩
      exact hinstant he.symm ha.symm
  refine (hmid.trans (hc.run.sameFacts hpending)).trans ⟨fun v => ?_, fun r he ha => ?_⟩
  · refine hc.live_iff_of_no_row (lastRow_eq_none.mpr fun r hr hk => ?_)
    cases hk
    exact hrows r hr rfl rfl
  · have hne : ∀ y ∈ dedupRows rows, y.key ≠ r.key := fun y hy hk =>
      have hkey := Prod.mk.inj (Prod.mk.inj hk).1
      hrows y (mem_of_mem_dedupRows hy) (hkey.1.trans he) ((Prod.mk.inj hkey.2).1.trans ha)
    rw [hc.mem_log, and_iff_left hne]
    exact or_iff_right fun hr => hne r hr rfl

def otherDoc : Call :=
  plainCall 1000000000002 1735689601000000 [addDatom 501 Entids.dbDoc (.text "other")]

/-- The doc string of entity 500 and its log row stay as they are when 501 is given one. -/
theorem mentatTransact_sameFacts_doc :
    ∃ db report db', stateAfter [firstDoc] = some db ∧
      db.Live (500, Entids.dbDoc, .text "first") ∧
      mentatTransact otherDoc db = .ok (report, db') ∧ SameFacts 500 Entids.dbDoc db db' := by
  have hstate : ∃ db, stateAfter [firstDoc] = some db ∧
      db.Live (500, Entids.dbDoc, .text "first") ∧ ∃ report db',
      mentatTransact otherDoc db = .ok (report, db') ∧
      ∀ d ∈ otherDoc.pending db, d.e = 500 → d.a ≠ Entids.dbDoc := by
    decide +kernel
  obtain ⟨db, hdb, hlive, report, db', h, hpending⟩ := hstate
  exact ⟨db, report, db', hdb, hlive, h, mentatTransact_sameFacts h hpending (by decide)⟩

end PgMentat

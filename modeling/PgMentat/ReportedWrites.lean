import PgMentat.AppendOnly
import PgMentat.Transact.Success

namespace PgMentat

open List TypedValue

/-- The assertion is there already: the projection is asked, not the transaction. -/
def Skips (c : SchemaCache) (scan : ScanOrder) (db : Db) (d : PendingDatom) : Prop :=
  ∃ info, c.getAttribute d.a = some info ∧
    match info.cardinality with
    | .one => ReadsBack scan db d d.v
    | .many => db.Live d.triple

/-- The assertion takes the place of a value that the projection has for a single-valued
attribute. -/
def Replaces (c : SchemaCache) (scan : ScanOrder) (db : Db) (d : PendingDatom)
    (old : TypedValue) : Prop :=
  d.added = true ∧ ReadsBack scan db d old ∧ old ≠ d.v ∧
    ∃ info, c.getAttribute d.a = some info ∧ info.cardinality = .one

inductive Queues (c : SchemaCache) (tx : Int64) (scan : ScanOrder) (db : Db) (d : PendingDatom) :
    LogRow → Prop
  | retraction (h : d.added = false) : Queues c tx scan db d (d.row tx)
  | assertion (h : d.added = true) (hnew : ¬ Skips c scan db d) : Queues c tx scan db d (d.row tx)
  | replaced {old} (h : Replaces c scan db d old) :
      Queues c tx scan db d ⟨d.e, d.a, old, tx, false⟩

section Queue

variable {c : SchemaCache} {all done : List PendingDatom} {tx : Int64} {scan : ScanOrder}
  {db db' : Db} {rows rows' : List LogRow} {d : PendingDatom}

variable {info : SchemaRow} {old : TypedValue}

theorem skips_one (hinfo : c.getAttribute d.a = some info) (hone : info.cardinality = .one) :
    Skips c scan db d ↔ ReadsBack scan db d d.v := by
  constructor
  · intro ⟨info', hinfo', h⟩
    cases hinfo.symm.trans hinfo'
    rwa [hone] at h
  · intro h
    exact ⟨info, hinfo, by rwa [hone]⟩

theorem skips_many (hinfo : c.getAttribute d.a = some info) (hmany : info.cardinality = .many) :
    Skips c scan db d ↔ db.Live d.triple := by
  constructor
  · intro ⟨info', hinfo', h⟩
    cases hinfo.symm.trans hinfo'
    rwa [hmany] at h
  · intro h
    exact ⟨info, hinfo, by rwa [hmany]⟩

theorem not_replaces_of_many (hinfo : c.getAttribute d.a = some info)
    (hmany : info.cardinality = .many) : ¬ Replaces c scan db d old := by
  intro ⟨_, _, _, info', hinfo', hone⟩
  cases hinfo.symm.trans hinfo'
  cases hmany.symm.trans hone

theorem queues_iff_row (hadded : d.added = true) (hnew : ¬ Skips c scan db d)
    (hnone : ∀ old, ¬ Replaces c scan db d old) (r : LogRow) :
    Queues c tx scan db d r ↔ r = d.row tx := by
  constructor
  · intro h
    cases h with
    | retraction _ | assertion _ _ => rfl
    | replaced h => exact absurd h (hnone _)
  · intro h
    rw [h]
    exact .assertion hadded hnew

theorem not_queues_of_skips (hadded : d.added = true) (hskip : Skips c scan db d)
    (hnone : ∀ old, ¬ Replaces c scan db d old) (r : LogRow) : ¬ Queues c tx scan db d r := by
  intro h
  cases h with
  | retraction h => exact absurd hadded (Bool.eq_false_iff.mp h)
  | assertion _ hnew => exact hnew hskip
  | replaced h => exact hnone _ h

theorem skips_congr (h : db'.current = db.current) :
    Skips c scan db' d ↔ Skips c scan db d := by
  simp only [Skips, ReadsBack, firstCurrent, Db.Live, h]

theorem replaces_congr (h : db'.current = db.current) :
    Replaces c scan db' d old ↔ Replaces c scan db d old := by
  simp only [Replaces, ReadsBack, firstCurrent, h]

theorem Queues.congr {r : LogRow} (hq : Queues c tx scan db d r)
    (h : db'.current = db.current) : Queues c tx scan db' d r := by
  cases hq with
  | retraction hadded => exact .retraction hadded
  | assertion hadded hnew => exact .assertion hadded (mt (skips_congr h).mp hnew)
  | replaced hold => exact .replaced ((replaces_congr h).mpr hold)

/-- A `NaN` is queued with one flag only. -/
def NanOnce (tx : Int64) (rows : List LogRow) (d : PendingDatom) : Prop :=
  d.v = .double .nan → d.row tx ∈ rows → ⟨d.e, d.a, d.v, tx, false⟩ ∈ rows → d.added = false

theorem QueueStep.mem_rows (h : QueueStep c all tx scan db rows d db' rows')
    (hhist : ∀ info, c.getAttribute d.a = some info → info.noHistory = false)
    (hnan : NanOnce tx rows' d) :
    db' = db ∧ ∀ r, r ∈ rows' ↔ r ∈ rows ∨ Queues c tx scan db d r := by
  have hpush (hadded : d.added = true) (hnew : ¬ Skips c scan db d)
      (hnone : ∀ old, ¬ Replaces c scan db d old) (r : LogRow) :
      r ∈ rows ++ [d.row tx] ↔ r ∈ rows ∨ Queues c tx scan db d r := by
    rw [mem_append, mem_singleton, queues_iff_row hadded hnew hnone]
  have hskip (hadded : d.added = true) (h : Skips c scan db d)
      (hnone : ∀ old, ¬ Replaces c scan db d old) (r : LogRow) :
      r ∈ rows ↔ r ∈ rows ∨ Queues c tx scan db d r := by
    rw [or_iff_left (not_queues_of_skips hadded h hnone r)]
  cases h with
  | retract hadded =>
    refine ⟨rfl, fun r => ?_⟩
    rw [mem_append, mem_singleton]
    refine or_congr Iff.rfl ⟨fun h => h ▸ .retraction hadded, fun h => ?_⟩
    cases h with
    | retraction _ | assertion _ _ => rfl
    | replaced h => exact absurd h.1 (Bool.eq_false_iff.mp hadded)
  | skipOne hv hone hread =>
    refine ⟨rfl, hskip hv.added ((skips_one hv.attr hone).mpr hread) ?_⟩
    intro old ⟨_, hold, hne, _⟩
    exact hne (hold.unique hread)
  | skipMany hv hmany hlive =>
    exact ⟨rfl, hskip hv.added ((skips_many hv.attr hmany).mpr hlive)
      fun _ => not_replaces_of_many hv.attr hmany⟩
  | assertOne hv hone _ hnone =>
    refine ⟨rfl, hpush hv.added (mt (skips_one hv.attr hone).mp (not_readsBack hnone)) ?_⟩
    intro old ⟨_, hold, _⟩
    exact not_readsBack hnone hold
  | assertMany hv hmany _ hnew =>
    exact ⟨rfl, hpush hv.added (mt (skips_many hv.attr hmany).mp hnew)
      fun _ => not_replaces_of_many hv.attr hmany⟩
  | pruneOne hv _ hhist' | pruneMany hv _ hhist' => exact absurd hhist' (by simp [hhist _ hv.attr])
  | @replaceOne info old hv hone _ hread hne =>
    have hold : old ≠ d.v := by
      intro heq
      have hdouble : d.v = .double .nan := by simpa [partialEq, heq] using hne
      have hflag := hnan hdouble (by simp) (by simp [heq])
      rw [hv.added] at hflag
      cases hflag
    have hreplaces : Replaces c scan db d old := ⟨hv.added, hread, hold, info, hv.attr, hone⟩
    refine ⟨rfl, fun r => ?_⟩
    rw [append_assoc, mem_append]
    refine or_congr Iff.rfl ⟨fun h => ?_, fun h => ?_⟩
    · rcases mem_cons.mp h with rfl | h
      · exact .replaced hreplaces
      · rw [mem_singleton.mp h]
        refine .assertion hv.added fun hskip => ?_
        exact hold (hread.unique ((skips_one hv.attr hone).mp hskip))
    · cases h with
      | retraction _ | assertion _ _ => simp
      | replaced h => simp [h.2.1.unique hread]

theorem QueueRun.mem_rows (h : QueueRun c all tx scan db done db' rows)
    (hhist : ∀ a info, c.getAttribute a = some info → info.noHistory = false)
    (hnan : ∀ d ∈ done, NanOnce tx rows d) :
    db' = db ∧ ∀ r, r ∈ rows ↔ ∃ d ∈ done, Queues c tx scan db d r := by
  induction h with
  | nil => simp
  | @snoc done mid rows d db' rows' hrun hstep ih =>
    have hsub := hstep.rows_subset
    obtain ⟨rfl, hrows⟩ := ih fun d' hd' hv hr hx =>
      hnan d' (mem_append_left [d] hd') hv (hsub _ hr) (hsub _ hx)
    obtain ⟨hdb, hstep⟩ := hstep.mem_rows (hhist d.a)
      (hnan d (mem_append_right done mem_cons_self))
    refine ⟨hdb, fun r => ?_⟩
    rw [hstep, hrows]
    simp only [mem_append, mem_singleton, or_and_right, exists_or, exists_eq_left]

theorem QueueRun.of_append {rest : List PendingDatom}
    (h : QueueRun c all tx scan db (done ++ rest) db' rows) :
    ∃ mid rows1, QueueRun c all tx scan db done mid rows1 ∧ rows1 <+: rows := by
  induction rest using List.reverseRecOn generalizing db' rows with
  | nil => exact ⟨db', rows, by simpa using h, prefix_refl rows⟩
  | append_singleton rest d ih =>
    rw [← append_assoc] at h
    obtain ⟨mid, rows2, hrun, hstep⟩ := h.snoc_inv
    obtain ⟨mid1, rows1, hrun1, hprefix⟩ := ih hrun
    refine ⟨mid1, rows1, hrun1, hprefix.trans ?_⟩
    cases hstep with
    | skipOne | skipMany => exact prefix_refl _
    | replaceOne => exact (prefix_append _ _).trans (prefix_append _ _)
    | _ => exact prefix_append _ _

end Queue

theorem mem_dedupRows_append {xs ys : List LogRow} {x r : LogRow}
    (h : r ∈ dedupRows (xs ++ x :: ys)) (hkey : r.literalKey = x.literalKey) :
    r ∈ xs ∨ r = x := by
  induction xs with
  | nil =>
    rcases mem_cons.mp h with h | h
    · exact .inr h
    · have hne := (mem_filter.mp h).2
      exact absurd hkey (of_decide_eq_true hne)
  | cons z xs ih =>
    rcases mem_cons.mp h with h | h
    · exact .inl (mem_cons.mpr (.inl h))
    · exact (ih (mem_filter.mp h).1).imp_left (mem_cons_of_mem z)

theorem eq_of_mem_dedupRows {rows : List LogRow} {x y : LogRow} (hx : x ∈ dedupRows rows)
    (hy : y ∈ dedupRows rows) (hkey : x.literalKey = y.literalKey) : x = y := by
  induction rows with
  | nil => cases hx
  | cons z rows ih =>
    rcases mem_cons.mp hx with rfl | hx
    · rcases mem_cons.mp hy with rfl | hy
      · rfl
      · exact absurd hkey.symm (of_decide_eq_true (mem_filter.mp hy).2)
    · rcases mem_cons.mp hy with rfl | hy
      · exact absurd hkey (of_decide_eq_true (mem_filter.mp hx).2)
      · exact ih (mem_filter.mp hx).1 (mem_filter.mp hy).1

namespace Call

/-- The loop runs in the state that has the transaction's own `:db/txInstant`. -/
def Skips (call : Call) (db : Db) (d : PendingDatom) : Prop :=
  PgMentat.Skips (call.cache db) call.backend.scan (db.begun call.backend) d

def ReplacesValue (call : Call) (db : Db) (d : PendingDatom) (old : TypedValue) : Prop :=
  PgMentat.Replaces (call.cache db) call.backend.scan (db.begun call.backend) d old

def Retracts (call : Call) (db : Db) (d : PendingDatom) (v : TypedValue) : Prop :=
  (d.added = false ∧ d.v = v) ∨ call.ReplacesValue db d v

/-- Nothing is skipped, every replaced value is retracted by the call itself, and no retraction
is taken for an earlier one of another value. -/
structure ReportsWrites (call : Call) (db : Db) : Prop where
  written : ∀ d ∈ call.pending db, d.added = true → d.triple ≠ call.instantRow.triple →
    ¬ call.Skips db d
  own : ∀ d ∈ call.pending db, d.added = false → d.triple ≠ call.instantRow.triple
  listed : ∀ d ∈ call.pending db, ∀ old, call.ReplacesValue db d old →
    ∃ d' ∈ call.pending db, d'.added = false ∧ d'.e = d.e ∧ d'.a = d.a ∧
      d'.v.sqlLiteral = old.sqlLiteral
  first : ∀ earlier d later, call.pending db = earlier ++ d :: later → d.added = false →
    d ∉ earlier → ∀ d' ∈ earlier, ∀ v, call.Retracts db d' v → d'.e = d.e → d'.a = d.a →
      v.sqlLiteral = d.v.sqlLiteral → v = d.v

end Call

section Report

variable {call : Call} {db mid loop db' : Db} {rows : List LogRow}

variable {r : LogRow} {d : PendingDatom} {tx : Int64}

theorem Committed.mem_own_rows (h : Committed call db mid mid db' rows)
    (hnew : ∀ r ∈ db.log, r.tx ≠ call.backend.txId) :
    (r ∈ db'.log ∧ r.tx = call.backend.txId) ↔ r ∈ dedupRows rows ∨
      (r = txInstantRow call.backend.txId call.backend.now ∧
        ∀ y ∈ dedupRows rows, y.key ≠ r.key) := by
  rw [h.mem_log, h.mem_mid_log]
  constructor
  · rintro ⟨hr | ⟨hold | ⟨hown, -⟩, hkeys⟩, htx⟩
    · exact .inl hr
    · exact absurd htx (hnew r hold)
    · exact .inr ⟨hown, hkeys⟩
  · rintro (hr | ⟨rfl, hkeys⟩)
    · exact ⟨.inl hr, h.rows_tx r (mem_of_mem_dedupRows hr)⟩
    · refine ⟨.inr ⟨.inr ⟨rfl, fun y hy hkey => ?_⟩, hkeys⟩, rfl⟩
      exact hnew y hy (Prod.mk.inj hkey).2

theorem eq_of_literal {v w : TypedValue} (h : v.sqlLiteral = w.sqlLiteral)
    (hinteger : w.literalClass ≠ .integer) (hquoted : w.literalClass ≠ .quoted) : v = w := by
  by_contra hne
  rcases literalClass_of_sqlLiteral_eq h.symm (Ne.symm hne) with h | h
  · exact hinteger h
  · exact hquoted h

namespace Committed

variable (h : Committed call db mid loop db' rows)

include h

theorem nanOnce (d : PendingDatom) : NanOnce call.backend.txId rows d := by
  intro hv hrow hfalse
  by_contra hadded
  have hadded : d.added = true := by simpa using hadded
  have hkept : d.row call.backend.txId ∈ dedupRows rows := h.mem_dedupRows_of_added hrow hadded
  have hkept' : ⟨d.e, d.a, d.v, call.backend.txId, false⟩ ∈ dedupRows rows := by
    by_contra hdrop
    obtain ⟨y, -, hkey, hne⟩ := exists_of_not_mem_dedupRows hfalse hdrop
    simp only [LogRow.literalKey, Prod.mk.injEq] at hkey
    refine hne (eq_of_literal hkey.2.2.1 ?_ ?_).symm
    · rw [hv]
      decide
    · rw [hv]
      decide
  have heq := h.log.1 _ hkept _ hkept' rfl
  rw [PendingDatom.row, LogRow.mk.injEq] at heq
  rw [heq.2.2.2.2] at hadded
  cases hadded

theorem mem_rows_of_run (hhist : ∀ a, ¬ db'.NoHistory a) {done : List PendingDatom} {db1 : Db}
    {rows1 : List LogRow}
    (hrun : QueueRun mid.cache (call.pending db) call.backend.txId call.backend.scan mid
      done db1 rows1)
    (hsub : ∀ r ∈ rows1, r ∈ rows) : db1 = mid ∧
      ∀ r, r ∈ rows1 ↔ ∃ d ∈ done,
        Queues (call.cache db) call.backend.txId call.backend.scan (db.begun call.backend) d r := by
  have hkeeps : ∀ a info, mid.cache.getAttribute a = some info → info.noHistory = false := by
    intro a info hinfo
    by_contra hno
    exact hhist a ⟨info, h.cache_eq ▸ hinfo, by simpa using hno⟩
  obtain ⟨hdb, hrows⟩ := hrun.mem_rows hkeeps fun d _ hv hr hx =>
    h.nanOnce d hv (hsub _ hr) (hsub _ hx)
  have hcurrent : mid.current = (db.begun call.backend).current := h.mid_current
  refine ⟨hdb, fun r => ?_⟩
  rw [hrows, h.cache_mid]
  exact exists_congr fun d => and_congr_right fun _ =>
    ⟨fun hq => hq.congr hcurrent.symm, fun hq => hq.congr hcurrent⟩

theorem rows_split (hhist : ∀ a, ¬ db'.NoHistory a) {earlier later : List PendingDatom}
    (hpending : call.pending db = earlier ++ d :: later) (hadded : d.added = false) :
    ∃ first rest, rows = first ++ d.row call.backend.txId :: rest ∧
      ∀ r, r ∈ first ↔ ∃ d' ∈ earlier, Queues (call.cache db) call.backend.txId
        call.backend.scan (db.begun call.backend) d' r := by
  have hall : call.pending db = (earlier ++ [d]) ++ later := by simp [hpending]
  have hrun := h.run
  nth_rewrite 2 [hall] at hrun
  obtain ⟨mid2, rows2, hrun2, rest, hrest⟩ := hrun.of_append
  obtain ⟨mid1, rows1, hrun1, hstep⟩ := hrun2.snoc_inv
  have hrows2 : rows2 = rows1 ++ [d.row call.backend.txId] := by
    cases hstep with
    | retract => rfl
    | _ => exact absurd (‹Validated _ _ _ _ _ _›).added (Bool.eq_false_iff.mp hadded)
  have hrows : rows = rows1 ++ d.row call.backend.txId :: rest := by
    rw [← hrest, hrows2, append_assoc, singleton_append]
  refine ⟨rows1, rest, hrows, (h.mem_rows_of_run hhist hrun1 fun r hr => ?_).2⟩
  rw [hrows]
  exact mem_append_left _ hr

end Committed

theorem Queues.retracts (h : Queues (call.cache db) tx
    call.backend.scan (db.begun call.backend) d r) (hadded : r.added = false) :
    call.Retracts db d r.v ∧ r = ⟨d.e, d.a, r.v, tx, false⟩ := by
  cases h with
  | retraction h => exact ⟨.inl ⟨h, rfl⟩, by rw [PendingDatom.row, h]⟩
  | assertion h => exact absurd h (Bool.eq_false_iff.mp hadded)
  | replaced h => exact ⟨.inr h, rfl⟩

theorem Queues.not_skips {d' : PendingDatom} (h : Queues (call.cache db) tx
    call.backend.scan (db.begun call.backend) d' (d.row tx)) (hadded : d.added = true) :
    ¬ call.Skips db d := by
  generalize hr : d.row tx = r at h
  have hflag : r.added = true := hr ▸ hadded
  cases h with
  | retraction h => exact absurd hflag (Bool.eq_false_iff.mp h)
  | assertion h hnew =>
    have hsame : d' = d := by
      obtain ⟨e, a, v, added⟩ := d
      cases hr
      rfl
    exact hsame ▸ hnew
  | replaced h => cases hflag

section Sufficient

variable (hw : call.ReportsWrites db) (h : Committed call db mid mid db' rows)
  (hhist : ∀ a, ¬ db'.NoHistory a)

include hw h hhist

variable {d : PendingDatom}

theorem Call.ReportsWrites.retraction_written {d : PendingDatom} (hd : d ∈ call.pending db)
    (hadded : d.added = false) : d.row call.backend.txId ∈ dedupRows rows := by
  obtain ⟨earlier, later, hpending, hfresh⟩ := eq_append_cons_of_mem hd
  obtain ⟨first, rest, hrows, hfirst⟩ := h.rows_split hhist hpending hadded
  have hmem : d.row call.backend.txId ∈ rows := by simp [hrows]
  obtain ⟨r, hr, hkey⟩ := exists_mem_dedupRows hmem
  have hkept := hr
  rw [hrows] at hr
  rcases mem_dedupRows_append hr hkey with hearlier | rfl
  · -- the first row with this literal belongs to an earlier datom, so it is the same row
    obtain ⟨d', hd', hq⟩ := (hfirst r).mp hearlier
    simp only [LogRow.literalKey, PendingDatom.row, Prod.mk.injEq, hadded] at hkey
    obtain ⟨he, ha, hlit, -, hflag⟩ := hkey
    obtain ⟨hretracts, hr'⟩ := hq.retracts hflag
    rw [hr'] at he ha
    dsimp only at he ha
    have hv := hw.first earlier d later hpending hadded hfresh d' hd' _ hretracts he ha hlit
    have hrow : r = d.row call.backend.txId := by
      rw [hr', PendingDatom.row, hadded, hv, he, ha]
    exact hrow ▸ hkept
  · exact hkept

theorem Call.ReportsWrites.listed_of_retracts {v : TypedValue} (hd : d ∈ call.pending db)
    (hretracts : call.Retracts db d v)
    (hkept : ⟨d.e, d.a, v, call.backend.txId, false⟩ ∈ dedupRows rows) :
    ∃ d' ∈ call.pending db, d'.added = false ∧ d'.triple = (d.e, d.a, v) := by
  rcases hretracts with ⟨hadded, rfl⟩ | hreplaces
  · exact ⟨d, hd, hadded, rfl⟩
  · obtain ⟨d', hd', hadded', he, ha, hlit⟩ := hw.listed d hd v hreplaces
    have hrow' := hw.retraction_written h hhist hd' hadded'
    have heq := eq_of_mem_dedupRows hrow' hkept (by
      simp only [LogRow.literalKey, PendingDatom.row, he, ha, hlit, hadded'])
    refine ⟨d', hd', hadded', ?_⟩
    rw [PendingDatom.row, LogRow.mk.injEq] at heq
    rw [PendingDatom.triple, heq.1, heq.2.1, heq.2.2.1]

theorem Call.ReportsWrites.own_written
    (hrows : ∀ r, r ∈ rows ↔ ∃ d ∈ call.pending db, Queues (call.cache db) call.backend.txId
      call.backend.scan (db.begun call.backend) d r) :
    txInstantRow call.backend.txId call.backend.now ∈ dedupRows rows ∨
      ∀ y ∈ dedupRows rows, y.key ≠ (txInstantRow call.backend.txId call.backend.now).key := by
  by_cases hkey : ∀ y ∈ dedupRows rows,
      y.key ≠ (txInstantRow call.backend.txId call.backend.now).key
  · exact .inr hkey
  · push Not at hkey
    obtain ⟨y, hy, hkey⟩ := hkey
    have htriple : y.triple = call.instantRow.triple := (Prod.mk.inj hkey).1
    have htx : y.tx = call.backend.txId := (Prod.mk.inj hkey).2
    obtain ⟨d, hd, hq⟩ := (hrows y).mp (mem_of_mem_dedupRows hy)
    cases hadded : y.added with
    | true =>
      have hown : y = txInstantRow call.backend.txId call.backend.now := by
        obtain ⟨e, a, v, tx, added⟩ := y
        cases htriple
        cases htx
        cases hadded
        rfl
      exact .inl (hown ▸ hy)
    | false =>
      obtain ⟨hretracts, hrow⟩ := hq.retracts hadded
      obtain ⟨d', hd', hadded', htriple'⟩ :=
        hw.listed_of_retracts h hhist hd hretracts (hrow ▸ hy)
      refine absurd ?_ (hw.own d' hd' hadded')
      rw [htriple', ← htriple, hrow]
      rfl

end Sufficient

theorem mem_txData {report : TxReport} (h : mentatTransact call db = .ok (report, db')) :
    r ∈ report.txData ↔ r = txInstantRow call.backend.txId call.backend.now ∨
      ∃ d ∈ call.pending db, r = d.row call.backend.txId := by
  obtain ⟨entities, ids, prepared, b, mid, b', hdoc, hbegin, rfl, -⟩ := mentatTransact_begin h
  have hbegun := beginTransaction_ensures _ _ _ hbegin
  rw [TxReport.of, mem_cons, hbegun.tx_eq, hbegun.instant_eq, Call.pending,
    Call.prepared_eq hdoc hbegin, mem_map]
  refine or_congr Iff.rfl (exists_congr fun d => and_congr_right fun _ => ?_)
  exact ⟨Eq.symm, Eq.symm⟩

section Necessary

variable (h : Committed call db mid mid db' rows) (hhist : ∀ a, ¬ db'.NoHistory a)
  (heq : ∀ r, (r = txInstantRow call.backend.txId call.backend.now ∨
      ∃ d ∈ call.pending db, r = d.row call.backend.txId) ↔ r ∈ dedupRows rows ∨
      (r = txInstantRow call.backend.txId call.backend.now ∧ ∀ y ∈ dedupRows rows, y.key ≠ r.key))

include heq

variable {d : PendingDatom}

theorem retraction_written_of_reports (hd : d ∈ call.pending db) (hadded : d.added = false) :
    d.row call.backend.txId ∈ dedupRows rows := by
  rcases (heq _).mp (.inr ⟨d, hd, rfl⟩) with hrow | ⟨hown, -⟩
  · exact hrow
  · have hflag : d.added = true := congrArg LogRow.added hown
    exact absurd hflag (Bool.eq_false_iff.mp hadded)

include h

theorem not_own_of_reports (hd : d ∈ call.pending db) (hadded : d.added = false) :
    d.triple ≠ call.instantRow.triple := by
  intro htriple
  have hrow := retraction_written_of_reports heq hd hadded
  have hkey : (d.row call.backend.txId).key =
      (txInstantRow call.backend.txId call.backend.now).key :=
    congrArg (fun k => (k, call.backend.txId)) htriple
  rcases (heq _).mp (.inl rfl) with hown | ⟨-, hkeys⟩
  · have hflag : d.added = true := congrArg LogRow.added (h.log.1 _ hrow _ hown hkey)
    exact absurd hflag (Bool.eq_false_iff.mp hadded)
  · exact hkeys _ hrow hkey

include hhist

theorem first_of_reports {earlier later : List PendingDatom} {d' : PendingDatom} {v : TypedValue}
    (hpending : call.pending db = earlier ++ d :: later) (hadded : d.added = false)
    (hfresh : d ∉ earlier) (hd' : d' ∈ earlier) (hretracts : call.Retracts db d' v)
    (he : d'.e = d.e) (ha : d'.a = d.a) (hlit : v.sqlLiteral = d.v.sqlLiteral) : v = d.v := by
  have hsub : ∀ x ∈ earlier, x ∈ call.pending db := by
    intro x hx
    rw [hpending]
    exact mem_append_left _ hx
  have hd : d ∈ call.pending db := by simp [hpending]
  have hrow := retraction_written_of_reports heq hd hadded
  have hkey : (d.row call.backend.txId).literalKey =
      LogRow.literalKey ⟨d'.e, d'.a, v, call.backend.txId, false⟩ := by
    simp only [LogRow.literalKey, PendingDatom.row, he, ha, hlit, hadded]
  rcases hretracts with ⟨hadded', rfl⟩ | hreplaces
  · -- both are listed, so both are written
    have hrow' := retraction_written_of_reports heq (hsub d' hd') hadded'
    rw [PendingDatom.row, hadded'] at hrow'
    exact (congrArg LogRow.v (eq_of_mem_dedupRows hrow hrow' hkey)).symm
  · obtain ⟨first, rest, hsplit, hfirst⟩ := h.rows_split hhist hpending hadded
    have hmem : ⟨d'.e, d'.a, v, call.backend.txId, false⟩ ∈ first :=
      (hfirst _).mpr ⟨d', hd', .replaced hreplaces⟩
    obtain ⟨before, after, hbefore⟩ := append_of_mem hmem
    rw [hsplit, hbefore, append_assoc, cons_append] at hrow
    rcases mem_dedupRows_append hrow hkey with hagain | hsame
    · -- the row is queued earlier still, and not by a retraction of the call
      have hmem : d.row call.backend.txId ∈ first := by
        rw [hbefore]
        exact mem_append_left _ hagain
      obtain ⟨d2, hd2, hq⟩ := (hfirst _).mp hmem
      obtain ⟨hretracts2, hrow2⟩ := hq.retracts hadded
      rw [PendingDatom.row, LogRow.mk.injEq] at hrow2
      rcases hretracts2 with ⟨hadded2, hv2⟩ | hreplaces2
      · have hsame : d2 = d := by
          obtain ⟨e, a, w, added⟩ := d
          obtain ⟨e2, a2, w2, added2⟩ := d2
          cases hrow2.1
          cases hrow2.2.1
          cases hadded
          cases hadded2
          cases hv2
          rfl
        exact absurd (hsame ▸ hd2) hfresh
      · obtain ⟨info, hchecked⟩ := h.run.checked d2 (hsub d2 hd2) hreplaces2.1
        obtain ⟨_, _, _, info', hinfo', hone⟩ := hreplaces2
        rw [h.cache_mid] at hinfo'
        cases hinfo'.symm.trans hchecked.attr
        have hsame : d' = d2 := hchecked.eq_of_ea hone (hsub d2 hd2) (hsub d' hd') hreplaces.1
          (he.trans hrow2.1) (ha.trans hrow2.2.1)
        rw [hsame] at hreplaces
        exact hreplaces.2.1.unique ‹_›
    · exact (congrArg LogRow.v hsame).symm

end Necessary

end Report

/-- The same `:db/doc` again. -/
def repeatDoc : Call :=
  plainCall 1000000000002 1735689601000000 [addDatom 500 Entids.dbDoc (.text "first")]

end PgMentat

import PgMentat.Transact.Commit
import PgMentat.Bootstrap
import Mathlib.Data.Int.Order.Basic

namespace PgMentat

open List KeyedTable

/-- The states that successful calls reach from `db`, when every call meets a condition on the
state before it, the call and the state after it. -/
inductive Reaches (ok : Db → Call → Db → Prop) (db : Db) : Db → Prop
  | refl : Reaches ok db db
  | step {mid db' call report} (hmid : Reaches ok db mid)
      (hcall : mentatTransact call mid = .ok (report, db')) (hok : ok mid call db') :
      Reaches ok db db'

variable {ok : Db → Call → Db → Prop} {calls : List Call}

theorem Reaches.invariant {I : Db → Prop} {db db' : Db}
    (hstep : ∀ {mid db' call report}, I mid → mentatTransact call mid = .ok (report, db') →
      ok mid call db' → I db') (h : Reaches ok db db') (hinit : I db) : I db' := by
  induction h with
  | refl => exact hinit
  | step _ hcall hok ih => exact hstep ih hcall hok

/-- Run calls one after another, up to the first that fails. -/
def transactAll : List Call → Db → Except MentatError Db
  | [], db => .ok db
  | call :: calls, db =>
    match mentatTransact call db with
    | .ok (_, db') => transactAll calls db'
    | .error e => .error e

/-- The state after a run of calls that all succeed; a run that fails has no state. -/
def stateAfter (calls : List Call) : Option Db := (transactAll calls bootstrapDb).toOption

def RunMeets (ok : Db → Call → Db → Prop) : List Call → Db → Prop
  | [], _ => True
  | call :: calls, db =>
    match mentatTransact call db with
    | .ok (_, db') => ok db call db' ∧ RunMeets ok calls db'
    | .error _ => False

instance RunMeets.decidable (ok : Db → Call → Db → Prop)
    [∀ db call db', Decidable (ok db call db')] :
    ∀ calls db, Decidable (RunMeets ok calls db)
  | [], _ => isTrue trivial
  | call :: calls, db =>
    match h : mentatTransact call db with
    | .ok (_, db') =>
      have := RunMeets.decidable ok calls db'
      decidable_of_iff (ok db call db' ∧ RunMeets ok calls db') (by simp only [RunMeets, h])
    | .error _ => isFalse (by simp only [RunMeets, h, not_false_eq_true])

theorem RunMeets.head {call : Call} {db : Db} (h : RunMeets ok (call :: calls) db) :
    ∃ report db', mentatTransact call db = .ok (report, db') ∧ ok db call db' := by
  rw [RunMeets] at h
  split at h
  · exact ⟨_, _, ‹_›, h.1⟩
  · exact h.elim

theorem Reaches.of_runMeets {start db : Db} (hstart : Reaches ok start db)
    (h : RunMeets ok calls db) : ∃ db', transactAll calls db = .ok db' ∧ Reaches ok start db' := by
  induction calls generalizing db with
  | nil => exact ⟨db, rfl, hstart⟩
  | cons call calls ih =>
    rw [RunMeets] at h
    rw [transactAll]
    split at h
    · rename_i report db' hcall
      exact ih (.step hstart hcall h.1) h.2
    · exact h.elim

theorem RunMeets.exists_reaches {P : Db → Prop} (h : RunMeets ok calls bootstrapDb)
    (hstate : ∃ db, stateAfter calls = some db ∧ P db) :
    ∃ db, stateAfter calls = some db ∧ Reaches ok bootstrapDb db ∧ P db := by
  obtain ⟨db, hdb, hrun⟩ := Reaches.of_runMeets .refl h
  obtain ⟨db', hdb', hP⟩ := hstate
  cases (congrArg Except.toOption hdb).symm.trans hdb'
  exact ⟨db, hdb', hrun, hP⟩

/-- A call that finds the tables in insertion order and needs no fresh entity id. -/
def plainCall (txId now : Int64) (entities : List EdnValue) : Call :=
  ⟨⟨now, txId, [], .heap, 8⟩, .vector entities⟩

def addDatom (e a : Int64) (v : EdnValue) : EdnValue :=
  .vector [.keyword (.namespaced "db" "add"), .integer e, .integer a, v]

def retractDatom (e a : Int64) (v : EdnValue) : EdnValue :=
  .vector [.keyword (.namespaced "db" "retract"), .integer e, .integer a, v]

/-- A call that defines the attribute `entid` by a map of `:db/` keywords. -/
def defineCall (txId now entid : Int64) (facts : List (String × Keyword)) : Call :=
  ⟨⟨now, txId, [entid], .heap, 8⟩, .vector [.map
    ((.keyword (.namespaced "db" "id"), .text "attr") :: facts.map fun fact =>
      (.keyword (.namespaced "db" fact.1), .keyword fact.2))]⟩

/-- The call's transaction id is above every transaction in the log. -/
def TxIncreasing (db : Db) (call : Call) : Prop := ∀ r ∈ db.log, r.tx < call.backend.txId

instance (db : Db) (call : Call) : Decidable (TxIncreasing db call) :=
  inferInstanceAs (Decidable (∀ r ∈ db.log, r.tx < call.backend.txId))

/-- The attribute is declared `:db/noHistory`. -/
def Db.NoHistory (db : Db) (a : Int64) : Prop :=
  ∃ info, db.cache.getAttribute a = some info ∧ info.noHistory = true

theorem not_noHistory_of_schema {db : Db} (h : ∀ r ∈ db.schema, r.noHistory = false) (a : Int64) :
    ¬ db.NoHistory a := by
  intro ⟨info, hinfo, hno⟩
  have hkeeps := h info (mem_of_find?_eq_some hinfo)
  rw [hno] at hkeeps
  cases hkeeps

/-- The row of `:db/txInstant` that the call records for itself. -/
def Call.instantRow (call : Call) : CurrentRow :=
  ⟨call.backend.txId, Entids.dbTxInstant, .instant call.backend.now, call.backend.txId⟩

/-- Where a queued row comes from: an explicit retraction, a checked assertion, or the value that
an assertion on a single-valued attribute replaces. -/
inductive RowOrigin (c : SchemaCache) (all : List PendingDatom) (tx : Int64) (start : Db)
    (done : List PendingDatom) : LogRow → Prop
  | retracted {d} (hd : d ∈ done) (h : d.added = false) :
      RowOrigin c all tx start done (d.row tx)
  | asserted {d info} (hd : d ∈ done) (hc : Checked c all d info) :
      RowOrigin c all tx start done (d.row tx)
  | replaced {d info r old} (hd : d ∈ done) (hc : Checked c all d info)
      (hone : info.cardinality = .one) (hhist : info.noHistory = false)
      (hr : r ∈ start.current) (he : r.e = d.e) (ha : r.a = d.a)
      (htype : r.v.valueType = d.v.valueType)
      (hread : TypedValue.parseFromTag d.v.valueType r.v.projectionText = .ok old)
      (hne : old.partialEq d.v = false) :
      RowOrigin c all tx start done ⟨d.e, d.a, old, tx, false⟩

theorem RowOrigin.of_added {c : SchemaCache} {all done : List PendingDatom} {tx : Int64}
    {start : Db} {r : LogRow} (h : RowOrigin c all tx start done r) (hadded : r.added = true) :
    ∃ d ∈ done, ∃ info, Checked c all d info ∧ r = d.row tx := by
  cases h with
  | retracted hd hretract => exact absurd hadded (Bool.eq_false_iff.mp hretract)
  | asserted hd hc => exact ⟨_, hd, _, hc, rfl⟩
  | replaced => cases hadded

section Queue

variable {c : SchemaCache} {all done : List PendingDatom} {tx : Int64} {scan : ScanOrder}
  {db db' : Db} {rows rows' : List LogRow} {d : PendingDatom}

theorem QueueStep.rows_tx (h : QueueStep c all tx scan db rows d db' rows')
    (hrows : ∀ r ∈ rows, r.tx = tx) : ∀ r ∈ rows', r.tx = tx := by
  have hsnoc : ∀ {rs : List LogRow} {x : LogRow}, (∀ r ∈ rs, r.tx = tx) → x.tx = tx →
      ∀ r ∈ rs ++ [x], r.tx = tx := by
    intro rs x hrs hx r hr
    rcases mem_append.mp hr with hr | hr
    · exact hrs r hr
    · exact mem_singleton.mp hr ▸ hx
  cases h with
  | skipOne | skipMany => exact hrows
  | replaceOne => exact hsnoc (hsnoc hrows rfl) rfl
  | _ => exact hsnoc hrows rfl

theorem QueueRun.rows_tx (h : QueueRun c all tx scan db done db' rows) :
    ∀ r ∈ rows, r.tx = tx := by
  induction h with
  | nil => simp
  | snoc _ hstep ih => exact hstep.rows_tx ih

theorem QueueStep.rows_subset (h : QueueStep c all tx scan db rows d db' rows') :
    ∀ x ∈ rows, x ∈ rows' := by
  intro x hx
  cases h <;> simp [hx]

theorem QueueStep.eq_row_of_new (h : QueueStep c all tx scan db rows d db' rows') {x : LogRow}
    (hx : x ∈ rows') (hold : x ∉ rows) (hadded : x.added = true) : x = d.row tx := by
  cases h with
  | skipOne | skipMany => exact absurd hx hold
  | replaceOne =>
    simp only [append_assoc, mem_append, hold, false_or, mem_singleton] at hx
    rcases hx with rfl | rfl
    · cases hadded
    · rfl
  | _ => simpa [hold] using hx

theorem QueueStep.validated (h : QueueStep c all tx scan db rows d db' rows')
    (hadded : d.added = true) : ∃ info, Validated c all scan db d info := by
  cases h with
  | retract h => exact absurd hadded (Bool.eq_false_iff.mp h)
  | _ => exact ⟨_, ‹_›⟩

variable {r : LogRow}

theorem RowOrigin.mono {start : Db} {done' : List PendingDatom}
    (h : RowOrigin c all tx start done r) (hsub : ∀ d ∈ done, d ∈ done') :
    RowOrigin c all tx start done' r := by
  cases h with
  | retracted hd h => exact .retracted (hsub _ hd) h
  | asserted hd hc => exact .asserted (hsub _ hd) hc
  | replaced hd hc hone hhist hr he ha htype hread hne =>
    exact .replaced (hsub _ hd) hc hone hhist hr he ha htype hread hne

theorem QueueStep.current_subset (h : QueueStep c all tx scan db rows d db' rows') :
    ∀ r ∈ db'.current, r ∈ db.current := by
  cases h with
  | pruneOne => exact fun r hr => (mem_filter.mp hr).1
  | _ => exact fun _ hr => hr

theorem QueueRun.current_subset (h : QueueRun c all tx scan db done db' rows) :
    ∀ r ∈ db'.current, r ∈ db.current := by
  induction h with
  | nil => exact fun _ hr => hr
  | snoc _ hstep ih => exact fun r hr => ih r (hstep.current_subset r hr)

theorem QueueStep.origin {start : Db} (h : QueueStep c all tx scan db rows d db' rows')
    (hcur : ∀ r ∈ db.current, r ∈ start.current)
    (hrows : ∀ r ∈ rows, RowOrigin c all tx start done r) :
    ∀ r ∈ rows', RowOrigin c all tx start (done ++ [d]) r := by
  have hd : d ∈ done ++ [d] := mem_append_right done mem_cons_self
  have hold : ∀ r ∈ rows, RowOrigin c all tx start (done ++ [d]) r :=
    fun r hr => (hrows r hr).mono fun d' hd' => mem_append_left [d] hd'
  have hsnoc : ∀ {rs : List LogRow} {x : LogRow},
      (∀ r ∈ rs, RowOrigin c all tx start (done ++ [d]) r) →
      RowOrigin c all tx start (done ++ [d]) x →
      ∀ r ∈ rs ++ [x], RowOrigin c all tx start (done ++ [d]) r := by
    intro rs x hrs hx r hr
    rcases mem_append.mp hr with hr | hr
    · exact hrs r hr
    · exact mem_singleton.mp hr ▸ hx
  cases h with
  | retract h => exact hsnoc hold (.retracted hd h)
  | skipOne | skipMany => exact hold
  | assertOne hv => exact hsnoc hold (.asserted hd hv.toChecked)
  | replaceOne hv hone hhist hread hne =>
    obtain ⟨r, hr, hparse⟩ := hread
    obtain ⟨hmem, he, ha, htype⟩ := firstCurrent_eq_some hr
    refine hsnoc (hsnoc hold ?_) (.asserted hd hv.toChecked)
    exact .replaced hd hv.toChecked hone hhist (hcur r hmem) he ha htype hparse hne
  | assertMany hv | pruneOne hv | pruneMany hv => exact hsnoc hold (.asserted hd hv.toChecked)

theorem QueueRun.origin (h : QueueRun c all tx scan db done db' rows) :
    ∀ r ∈ rows, RowOrigin c all tx db done r := by
  induction h with
  | nil => exact fun _ hr => nomatch hr
  | snoc hrun hstep ih => exact hstep.origin hrun.current_subset ih

theorem QueueStep.log_kept (h : QueueStep c all tx scan db rows d db' rows') :
    (∀ r ∈ db'.log, r ∈ db.log) ∧ ∀ r ∈ db.log, r ∈ db'.log ∨
      ∃ info, c.getAttribute r.a = some info ∧ info.noHistory = true := by
  cases h with
  | pruneOne hv _ hhist =>
    refine ⟨fun r hr => (mem_filter.mp hr).1, fun r hr => ?_⟩
    by_cases hea : LogRow.isEa d r = true
    · have ha : r.a = d.a := by
        simp only [LogRow.isEa, decide_eq_true_eq] at hea
        exact hea.2.1
      exact .inr ⟨_, ha ▸ hv.attr, hhist⟩
    · exact .inl (mem_filter.mpr ⟨hr, by simpa using hea⟩)
  | pruneMany hv _ hhist =>
    refine ⟨fun r hr => (mem_filter.mp hr).1, fun r hr => ?_⟩
    by_cases heav : LogRow.isEav d r = true
    · have ha : r.a = d.a := by
        simp only [LogRow.isEav, decide_eq_true_eq, LogRow.triple, PendingDatom.triple,
          Prod.mk.injEq] at heav
        exact heav.2.1
      exact .inr ⟨_, ha ▸ hv.attr, hhist⟩
    · exact .inl (mem_filter.mpr ⟨hr, by simpa using heav⟩)
  | _ => exact ⟨fun _ hr => hr, fun _ hr => .inl hr⟩

theorem QueueRun.log_kept (h : QueueRun c all tx scan db done db' rows) :
    (∀ r ∈ db'.log, r ∈ db.log) ∧ ∀ r ∈ db.log, r ∈ db'.log ∨
      ∃ info, c.getAttribute r.a = some info ∧ info.noHistory = true := by
  induction h with
  | nil => exact ⟨fun _ hr => hr, fun _ hr => .inl hr⟩
  | snoc _ hstep ih =>
    refine ⟨fun r hr => ih.1 r (hstep.log_kept.1 r hr), fun r hr => ?_⟩
    exact (ih.2 r hr).elim (hstep.log_kept.2 r) .inr

theorem QueueStep.current_kept (h : QueueStep c all tx scan db rows d db' rows') :
    ∀ r ∈ db.current, r ∈ db'.current ∨
      ∃ info, c.getAttribute r.a = some info ∧ info.noHistory = true := by
  intro r hr
  cases h with
  | pruneOne hv _ hhist =>
    by_cases hea : CurrentRow.isEa d r = true
    · have ha : r.a = d.a := by
        simp only [CurrentRow.isEa, decide_eq_true_eq] at hea
        exact hea.2.1
      exact .inr ⟨_, ha ▸ hv.attr, hhist⟩
    · exact .inl (mem_filter.mpr ⟨hr, by simpa using hea⟩)
  | _ => exact .inl hr

theorem QueueRun.current_kept (h : QueueRun c all tx scan db done db' rows) :
    ∀ r ∈ db.current, r ∈ db'.current ∨
      ∃ info, c.getAttribute r.a = some info ∧ info.noHistory = true := by
  induction h with
  | nil => exact fun _ hr => .inl hr
  | snoc _ hstep ih => exact fun r hr => (ih r hr).elim (hstep.current_kept r) .inr

theorem live_pruneCurrent {k : Triple} : (db.pruneCurrent (CurrentRow.isEa d)).Live k ↔
    db.Live k ∧ ¬ (k.1 = d.e ∧ k.2.1 = d.a ∧ k.2.2.valueType = d.v.valueType) := by
  simp only [Db.Live, Db.pruneCurrent, mem_filter, Bool.not_eq_true', CurrentRow.isEa,
    decide_eq_false_iff_not]
  constructor
  · rintro ⟨x, ⟨hx, hp⟩, rfl⟩
    exact ⟨⟨x, hx, rfl⟩, hp⟩
  · rintro ⟨⟨x, hx, rfl⟩, hp⟩
    exact ⟨x, ⟨hx, hp⟩, rfl⟩

theorem mem_pruneLog_isEa : r ∈ (db.pruneLog (LogRow.isEa d)).log ↔
    r ∈ db.log ∧ ¬ (r.e = d.e ∧ r.a = d.a ∧ r.v.valueType = d.v.valueType) := by
  simp only [Db.pruneLog, LogRow.isEa, mem_filter, Bool.not_eq_true', decide_eq_false_iff_not]

theorem mem_pruneLog_isEav : r ∈ (db.pruneLog (LogRow.isEav d)).log ↔
    r ∈ db.log ∧ r.triple ≠ d.triple := by
  simp [Db.pruneLog, LogRow.isEav]

theorem QueueRun.checked (h : QueueRun c all tx scan db done db' rows) :
    ∀ d ∈ done, d.added = true → ∃ info, Checked c all d info := by
  induction h with
  | nil => exact fun _ hd => nomatch hd
  | snoc _ hstep ih =>
    intro d hd hadded
    rcases mem_append.mp hd with hd | hd
    · exact ih d hd hadded
    · obtain rfl := mem_singleton.mp hd
      obtain ⟨info, hv⟩ := hstep.validated hadded
      exact ⟨info, hv.toChecked⟩

/-- The two databases hold the same facts about attribute `a` of entity `e`. -/
structure SameFacts (e a : Int64) (db db' : Db) : Prop where
  live (v : TypedValue) : db'.Live (e, a, v) ↔ db.Live (e, a, v)
  log (r : LogRow) (he : r.e = e) (ha : r.a = a) : r ∈ db'.log ↔ r ∈ db.log

variable {e a : Int64}

theorem SameFacts.refl : SameFacts e a db db := ⟨fun _ => Iff.rfl, fun _ _ _ => Iff.rfl⟩

theorem SameFacts.trans {db₁ db₂ db₃ : Db} (h : SameFacts e a db₁ db₂)
    (h' : SameFacts e a db₂ db₃) : SameFacts e a db₁ db₃ :=
  ⟨fun v => (h'.live v).trans (h.live v), fun r he ha => (h'.log r he ha).trans (h.log r he ha)⟩

theorem QueueStep.sameFacts (h : QueueStep c all tx scan db rows d db' rows')
    (hd : d.e = e → d.a ≠ a) : SameFacts e a db db' := by
  cases h with
  | pruneOne =>
    refine ⟨fun v => ?_, fun r he ha => ?_⟩
    · exact live_pruneCurrent.trans (and_iff_left fun hk => hd hk.1.symm hk.2.1.symm)
    · exact mem_pruneLog_isEa.trans
        (and_iff_left fun hk => hd (hk.1.symm.trans he) (hk.2.1.symm.trans ha))
  | pruneMany =>
    refine ⟨fun v => Iff.rfl, fun r he ha => mem_pruneLog_isEav.trans (and_iff_left fun hk => ?_)⟩
    have hkey := Prod.mk.inj hk
    exact hd (hkey.1.symm.trans he) ((Prod.mk.inj hkey.2).1.symm.trans ha)
  | _ => exact .refl

theorem QueueRun.sameFacts (h : QueueRun c all tx scan db done db' rows)
    (hdone : ∀ d ∈ done, d.e = e → d.a ≠ a) : SameFacts e a db db' := by
  induction h with
  | nil => exact .refl
  | snoc _ hstep ih =>
    simp only [mem_append, mem_singleton] at hdone
    exact (ih fun d hd => hdone d (.inl hd)).trans (hstep.sameFacts (hdone _ (.inr rfl)))

end Queue

section Commit

variable {call : Call} {db mid loop db' : Db} {rows : List LogRow}

theorem Committed.rows_tx (h : Committed call db mid loop db' rows) :
    ∀ r ∈ rows, r.tx = call.backend.txId := h.run.rows_tx

theorem Committed.origin (h : Committed call db mid loop db' rows) :
    ∀ r ∈ rows, RowOrigin mid.cache (call.pending db) call.backend.txId mid
      (call.pending db) r := h.run.origin

variable {r : LogRow} {c : SchemaCache} {info : SchemaRow} {k : Triple}

theorem exists_of_not_mem_dedupRows {rows : List LogRow} (hr : r ∈ rows)
    (hdrop : r ∉ dedupRows rows) : ∃ y ∈ rows, y.literalKey = r.literalKey ∧ r.v ≠ y.v := by
  obtain ⟨y, hy, hkey⟩ := exists_mem_dedupRows hr
  refine ⟨y, mem_of_mem_dedupRows hy, hkey, fun hv => hdrop ?_⟩
  simp only [LogRow.literalKey, Prod.mk.injEq] at hkey
  have heq : y = r := by
    cases r
    cases y
    simp_all
  exact heq ▸ hy

theorem Checked.value_eq {all : List PendingDatom} {d d' : PendingDatom} {info' : SchemaRow}
    {v w : TypedValue} (hc : Checked c all d info) (hc' : Checked c all d' info') (ha : d'.a = d.a)
    (hv : v.valueType = d.v.valueType) (hw : w.valueType = d'.v.valueType)
    (hlit : w.sqlLiteral = v.sqlLiteral) : v = w := by
  refine TypedValue.eq_of_sqlLiteral_eq ?_ hlit.symm
  have hinfo : info' = info := Option.some.inj (hc'.attr.symm.trans (ha ▸ hc.attr))
  rw [hv, hw, hc.type_eq, hc'.type_eq, hinfo]

theorem Checked.eq_of_ea {all : List PendingDatom} {d d' : PendingDatom} (h : Checked c all d info)
    (hone : info.cardinality = .one) (hd : d ∈ all) (hd' : d' ∈ all) (hadded : d'.added = true)
    (he : d'.e = d.e) (ha : d'.a = d.a) : d' = d := by
  have hmem : d ∈ all.filter fun d' => d'.e = d.e ∧ d'.a = d.a ∧ d'.added :=
    mem_filter.mpr ⟨hd, by simp [h.added]⟩
  have hmem' : d' ∈ all.filter fun d' => d'.e = d.e ∧ d'.a = d.a ∧ d'.added :=
    mem_filter.mpr ⟨hd', by simp [hadded, he, ha]⟩
  have hcount := h.single hone
  rw [countInTx] at hcount
  obtain ⟨x, hx⟩ := length_eq_one_iff.mp
    (Nat.le_antisymm hcount (length_pos_of_mem hmem))
  rw [hx, mem_singleton] at hmem hmem'
  exact hmem'.trans hmem.symm

namespace Committed

variable (h : Committed call db mid loop db' rows)

include h

theorem mem_dedupRows_of_added (hr : r ∈ rows) (hadded : r.added = true) : r ∈ dedupRows rows := by
  by_contra hdrop
  obtain ⟨y, hy, hkey, hv⟩ := exists_of_not_mem_dedupRows hr hdrop
  simp only [LogRow.literalKey, Prod.mk.injEq] at hkey
  obtain ⟨-, ha, hlit, -, hflag⟩ := hkey
  rw [hadded] at hflag
  obtain ⟨d, -, info, hc, rfl⟩ := (h.origin r hr).of_added hadded
  obtain ⟨d', -, info', hc', rfl⟩ := (h.origin y hy).of_added hflag
  exact hv (hc.value_eq hc' ha rfl rfl hlit)

theorem cache_eq : db'.cache = mid.cache := by
  simp only [Db.cache, h.schema_eq, h.idents_eq]

theorem mem_log :
    r ∈ db'.log ↔ r ∈ dedupRows rows ∨
      (r ∈ loop.log ∧ ∀ y ∈ dedupRows rows, y.key ≠ r.key) := by
  simpa using h.log.2 r

theorem mem_mid_log :
    r ∈ mid.log ↔ r ∈ db.log ∨ (r = txInstantRow call.backend.txId call.backend.now ∧
      ∀ y ∈ db.log, y.key ≠ (txInstantRow call.backend.txId call.backend.now).key) := by
  rw [h.mid_log, mem_insertNew]

theorem mem_mid_current {r : CurrentRow} :
    r ∈ mid.current ↔
      r = call.instantRow ∨ (r ∈ db.current ∧ r.triple ≠ call.instantRow.triple) := by
  rw [h.mid_current, mem_put]
  rfl

theorem loop_tx_le (hinc : TxIncreasing db call) (hr : r ∈ loop.log) :
    r.tx.toInt ≤ call.backend.txId.toInt := by
  rcases h.mem_mid_log.mp (h.run.log_kept.1 r hr) with hr | ⟨rfl, -⟩
  · exact le_of_lt (Int64.lt_iff_toInt_lt.mp (hinc r hr))
  · exact le_refl _

theorem live_iff_of_lastRow (hlast : lastRow rows k = some r) : db'.Live k ↔ r.added = true := by
  constructor
  · rintro ⟨x, hx, rfl⟩
    rcases (h.projection x).mp hx with ⟨r', hr', hadded, -⟩ | ⟨hnone, -⟩
    · exact Option.some.inj (hlast.symm.trans hr') ▸ hadded
    · cases hlast.symm.trans hnone
  · intro hadded
    have hx : (⟨k.1, k.2.1, k.2.2, r.tx⟩ : CurrentRow).triple = k := rfl
    exact ⟨_, (h.projection _).mpr (.inl ⟨r, hx ▸ hlast, hadded, rfl⟩), hx⟩

theorem live_iff_of_no_row (hnone : lastRow rows k = none) : db'.Live k ↔ loop.Live k := by
  constructor
  · rintro ⟨x, hx, rfl⟩
    rcases (h.projection x).mp hx with ⟨r, hr, -⟩ | ⟨-, hx⟩
    · cases hnone.symm.trans hr
    · exact ⟨x, hx, rfl⟩
  · rintro ⟨x, hx, rfl⟩
    exact ⟨x, (h.projection x).mpr (.inr ⟨hnone, hx⟩), rfl⟩

end Committed

theorem live_iff_of_put {x : CurrentRow} (h : mid.current = put CurrentRow.triple db.current x) :
    mid.Live k ↔ db.Live k ∨ k = x.triple := by
  simp only [Db.Live, h, mem_put]
  constructor
  · rintro ⟨y, rfl | ⟨hy, -⟩, rfl⟩
    · exact .inr rfl
    · exact .inl ⟨y, hy, rfl⟩
  · intro hk
    by_cases hx : k = x.triple
    · exact ⟨x, .inl rfl, hx.symm⟩
    · obtain ⟨y, hy, rfl⟩ := hk.resolve_right hx
      exact ⟨y, .inr ⟨hy, hx⟩, rfl⟩

theorem Committed.mid_live_iff (h : Committed call db mid loop db' rows) :
    mid.Live k ↔ db.Live k ∨ k = call.instantRow.triple :=
  live_iff_of_put h.mid_current

end Commit

end PgMentat

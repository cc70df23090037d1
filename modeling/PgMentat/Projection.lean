import PgMentat.Run
import PgMentat.Lib.LatestWins
import Mathlib.Algebra.Order.Ring.Int

namespace PgMentat

open List KeyedTable LatestWins TypedValue

/-- The log row of the triple with the greatest `tx` exists and is an assertion. -/
def Db.Replayed (db : Db) (k : Triple) : Prop :=
  Holds LogRow.triple (fun r => r.tx.toInt) LogRow.added db.log k

/-- Every table of the projection holds exactly the triples whose latest log row asserts them. -/
def Db.InSync (db : Db) : Prop := ∀ k, db.Live k ↔ db.Replayed k

/-- An assertion of the call replaces this live value of a single-valued attribute. -/
def Call.Replaces (call : Call) (db : Db) (r : CurrentRow) : Prop :=
  ∃ d ∈ call.pending db, d.added = true ∧ d.e = r.e ∧ d.a = r.a ∧
    d.v.valueType = r.v.valueType ∧ d.v ≠ r.v ∧
    ∃ info ∈ (call.cache db).getAttribute r.a, info.cardinality = .one ∧ info.noHistory = false

/-- The triple is live or the call asserts it. -/
def Call.AtStake (call : Call) (db : Db) (k : Triple) : Prop :=
  db.Live k ∨ ∃ d ∈ call.pending db, d.added = true ∧ d.triple = k

/-- Different values of one entity and attribute with the same SQL literal. -/
def SharesLiteral (k k' : Triple) : Prop :=
  k.1 = k'.1 ∧ k.2.1 = k'.2.1 ∧ k.2.2.sqlLiteral = k'.2.2.sqlLiteral ∧ k.2.2 ≠ k'.2.2

/-- No value the call retracts explicitly shares its SQL literal with a value that the call
replaces, or retracts although it is live or asserted. -/
def Call.SpelledApart (call : Call) (db : Db) : Prop :=
  ∀ d ∈ call.pending db, d.added = false →
    (∀ d' ∈ call.pending db, d'.added = false → call.AtStake db d'.triple →
      ¬ SharesLiteral d'.triple d.triple) ∧
    ∀ r ∈ db.current, call.Replaces db r → ¬ SharesLiteral r.triple d.triple

instance (db : Db) (k : Triple) : Decidable (db.Replayed k) :=
  inferInstanceAs (Decidable (∃ r ∈ db.log, r.triple = k ∧ r.added = true ∧
    ∀ r' ∈ db.log, r'.triple = k → r'.tx.toInt ≤ r.tx.toInt))

instance (call : Call) (db : Db) (r : CurrentRow) : Decidable (call.Replaces db r) :=
  inferInstanceAs (Decidable (∃ d ∈ call.pending db, d.added = true ∧ d.e = r.e ∧ d.a = r.a ∧
    d.v.valueType = r.v.valueType ∧ d.v ≠ r.v ∧
    ∃ info ∈ (call.cache db).getAttribute r.a, info.cardinality = .one ∧ info.noHistory = false))

instance (call : Call) (db : Db) (k : Triple) : Decidable (call.AtStake db k) :=
  inferInstanceAs (Decidable (db.Live k ∨ ∃ d ∈ call.pending db, d.added = true ∧ d.triple = k))

instance (k k' : Triple) : Decidable (SharesLiteral k k') :=
  inferInstanceAs (Decidable (k.1 = k'.1 ∧ k.2.1 = k'.2.1 ∧
    k.2.2.sqlLiteral = k'.2.2.sqlLiteral ∧ k.2.2 ≠ k'.2.2))

instance (call : Call) (db : Db) : Decidable (call.SpelledApart db) :=
  inferInstanceAs (Decidable (∀ d ∈ call.pending db, d.added = false →
    (∀ d' ∈ call.pending db, d'.added = false → call.AtStake db d'.triple →
      ¬ SharesLiteral d'.triple d.triple) ∧
    ∀ r ∈ db.current, call.Replaces db r → ¬ SharesLiteral r.triple d.triple))

variable {call : Call} {db mid loop db' : Db} {rows : List LogRow}

namespace Committed

variable (h : Committed call db mid loop db' rows)

include h

theorem replaced_live {d : PendingDatom} {r : CurrentRow} {old : TypedValue} (hr : r ∈ mid.current)
    (htype : r.v.valueType = d.v.valueType)
    (hread : parseFromTag d.v.valueType r.v.projectionText = .ok old)
    (hclass : old.literalClass = .integer ∨ old.literalClass = .quoted) :
    r ∈ db.current ∧ r.v = old := by
  have hold : old.valueType = r.v.valueType := (valueType_of_parseFromTag hread).trans htype.symm
  have hinst : r.v.valueType ≠ .instant := by
    intro hinst
    rw [literalClass, hold, hinst] at hclass
    simp at hclass
  have hwhole : r.v.WholeSecond := by
    cases hv : r.v <;> first | trivial | exact absurd (hv ▸ rfl) hinst
  have hrv : r.v = old := by
    rw [← htype] at hread
    exact Except.ok.inj ((parseFromTag_projectionText hwhole).symm.trans hread)
  rcases h.mem_mid_current.mp hr with rfl | ⟨hr, -⟩
  · exact absurd rfl hinst
  · exact ⟨hr, hrv⟩

theorem replaced_eq (hcall : call.SpelledApart db) {d d' : PendingDatom} {info : SchemaRow}
    {r : CurrentRow} {old : TypedValue} (hd : d ∈ call.pending db) (hretract : d.added = false)
    (hd' : d' ∈ call.pending db) (hc : Checked mid.cache (call.pending db) d' info)
    (hone : info.cardinality = .one) (hhist : info.noHistory = false) (hr : r ∈ mid.current)
    (he : r.e = d'.e) (ha : r.a = d'.a) (htype : r.v.valueType = d'.v.valueType)
    (hread : parseFromTag d'.v.valueType r.v.projectionText = .ok old)
    (hne : old.partialEq d'.v = false) (hde : d'.e = d.e) (hda : d'.a = d.a)
    (hlit : old.sqlLiteral = d.v.sqlLiteral) : old = d.v := by
  by_contra hdiff
  have hclass := literalClass_of_sqlLiteral_eq hlit hdiff
  obtain ⟨hrdb, rfl⟩ := h.replaced_live hr htype hread hclass
  have hdv : d'.v ≠ r.v := by
    rintro hdv
    have hnan : r.v ≠ .double .nan := by
      intro hnan
      rw [hnan] at hclass
      simp [literalClass, valueType] at hclass
    rw [hdv] at hne
    simp [partialEq, hnan] at hne
  refine (hcall d hd hretract).2 r hrdb ?_ ⟨he.trans hde, ha.trans hda, hlit, hdiff⟩
  refine ⟨d', hd', hc.added, he.symm, ha.symm, htype.symm, hdv, info, ?_, hone, hhist⟩
  rw [h.cache_mid, ha]
  exact hc.attr

/-- Two queued rows that the deduplication confuses are one, or the first retracts a triple that
was not live and is not asserted. -/
theorem eq_or_idle (hcall : call.SpelledApart db) {x y : LogRow} (hx : x ∈ rows) (hy : y ∈ rows)
    (hkey : y.literalKey = x.literalKey) :
    x.v = y.v ∨ (x.added = false ∧ ¬ call.AtStake db x.triple) := by
  simp only [LogRow.literalKey, Prod.mk.injEq] at hkey
  obtain ⟨he, ha, hlit, -, hadded⟩ := hkey
  cases h.origin x hx with
  | retracted hd hretract =>
    cases h.origin y hy with
    | retracted hd' hretract' =>
      refine (Classical.em _).imp_right fun hv => ⟨hretract, fun hstake => ?_⟩
      exact (hcall _ hd' hretract').1 _ hd hretract hstake ⟨he.symm, ha.symm, hlit.symm, hv⟩
    | asserted hd' hc' =>
      rw [PendingDatom.row, PendingDatom.row, hretract, hc'.added] at hadded
      cases hadded
    | replaced hd' hc' hone hhist hr he' ha' htype hread hne =>
      exact .inl (h.replaced_eq hcall hd hretract hd' hc' hone hhist hr he' ha' htype hread hne
        he ha hlit).symm
  | asserted hd hc =>
    cases h.origin y hy with
    | retracted hd' hretract' =>
      rw [PendingDatom.row, PendingDatom.row, hretract', hc.added] at hadded
      cases hadded
    | asserted hd' hc' => exact .inl (hc.value_eq hc' ha rfl rfl hlit)
    | replaced =>
      rw [PendingDatom.row, hc.added] at hadded
      cases hadded
  | replaced hd hc hone hhist hr he0 ha0 htype hread hne =>
    cases h.origin y hy with
    | retracted hd' hretract' =>
      exact .inl (h.replaced_eq hcall hd' hretract' hd hc hone hhist hr he0 ha0 htype hread hne
        he.symm ha.symm hlit.symm)
    | asserted hd' hc' =>
      rw [PendingDatom.row, hc'.added] at hadded
      cases hadded
    | replaced hd' hc' hone' hhist' hr' he' ha' htype' hread' hne' =>
      exact .inl (hc.value_eq hc' ha (valueType_of_parseFromTag hread)
        (valueType_of_parseFromTag hread') hlit)

theorem of_dropped (hcall : call.SpelledApart db) {r : LogRow} (hr : r ∈ rows)
    (hdrop : r ∉ dedupRows rows) :
    r.added = false ∧ ¬ loop.Live r.triple ∧ ∀ y ∈ dedupRows rows, y.triple ≠ r.triple := by
  obtain ⟨y, hy, hkey, hv⟩ := exists_of_not_mem_dedupRows hr hdrop
  obtain ⟨hadded, hidle⟩ := (h.eq_or_idle hcall hr hy hkey).resolve_left hv
  refine ⟨hadded, ?_, ?_⟩
  · rintro ⟨x, hx, hxr⟩
    rcases h.mem_mid_current.mp (h.run.current_subset x hx) with rfl | ⟨hx, -⟩
    · have hlit : r.v.sqlLiteral = y.v.sqlLiteral := by
        simp only [LogRow.literalKey, Prod.mk.injEq] at hkey
        exact hkey.2.2.1.symm
      have hclass := literalClass_of_sqlLiteral_eq hlit hv
      rw [← show TypedValue.instant call.backend.now = r.v from congrArg (·.2.2) hxr] at hclass
      simp [literalClass, valueType] at hclass
    · exact hidle (.inl ⟨x, hx, hxr⟩)
  · intro z hz hzr
    have hzrow := mem_of_mem_dedupRows hz
    have htx : z.tx = r.tx := (h.rows_tx z hzrow).trans (h.rows_tx r hr).symm
    cases hflag : z.added with
    | false =>
      have heq : z = r := by
        cases z
        cases r
        simp_all [LogRow.triple]
      exact hdrop (heq ▸ hz)
    | true =>
      cases h.origin z hzrow with
      | retracted hd hretract =>
        rw [PendingDatom.row, hretract] at hflag
        cases hflag
      | asserted hd hc => exact hidle (.inr ⟨_, hd, hc.added, hzr⟩)
      | replaced => cases hflag

end Committed

theorem Db.Replayed.of_eq {db db' : Db} {k : Triple}
    (h : ∀ r, r.triple = k → (r ∈ db'.log ↔ r ∈ db.log)) : db'.Replayed k ↔ db.Replayed k :=
  holds_congr h

theorem Db.Live.of_eq {db db' : Db} {k : Triple}
    (h : ∀ r, r.triple = k → (r ∈ db'.current ↔ r ∈ db.current)) : db'.Live k ↔ db.Live k := by
  constructor
  · rintro ⟨r, hr, hk⟩
    exact ⟨r, (h r hk).mp hr, hk⟩
  · rintro ⟨r, hr, hk⟩
    exact ⟨r, (h r hk).mpr hr, hk⟩

theorem Committed.mid_inSync (h : Committed call db mid loop db' rows)
    (hinc : TxIncreasing db call) (hsync : db.InSync) : mid.InSync := by
  intro k
  let row := txInstantRow call.backend.txId call.backend.now
  by_cases hk : row.triple = k
  · have hnew : ∀ y ∈ db.log, y.key ≠ row.key := by
      intro y hy hkey
      have hlt := hinc y hy
      rw [(Prod.mk.inj hkey).2] at hlt
      exact Int64.lt_irrefl hlt
    have hmem : row ∈ mid.log := h.mem_mid_log.mpr (.inr ⟨rfl, hnew⟩)
    have hlive : mid.Live k := ⟨_, h.mem_mid_current.mpr (.inl rfl), hk⟩
    refine iff_of_true hlive ((holds_iff_of_newest hmem hk ?_ ?_).mpr rfl)
    · intro r hr _
      rcases h.mem_mid_log.mp hr with hr | ⟨rfl, -⟩
      · exact le_of_lt (Int64.lt_iff_toInt_lt.mp (hinc r hr))
      · exact le_refl _
    · intro r hr _ htx
      rcases h.mem_mid_log.mp hr with hr | ⟨rfl, -⟩
      · exact absurd htx (ne_of_lt (Int64.lt_iff_toInt_lt.mp (hinc r hr)))
      · rfl
  · have hlive : mid.Live k ↔ db.Live k := by
      refine Db.Live.of_eq fun r hr => ?_
      rw [h.mem_mid_current]
      constructor
      · rintro (rfl | hr')
        · exact absurd hr hk
        · exact hr'.1
      · exact fun hr' => .inr ⟨hr', fun heq => hk (heq.symm.trans hr)⟩
    have hreplay : mid.Replayed k ↔ db.Replayed k := by
      refine Db.Replayed.of_eq fun r hr => ?_
      rw [h.mem_mid_log]
      exact ⟨fun hr' => hr'.resolve_right fun heq => hk ((congrArg _ heq.1.symm).trans hr), .inl⟩
    exact hlive.trans ((hsync k).trans hreplay.symm)

section Queue

variable {c : SchemaCache} {all done : List PendingDatom} {tx : Int64} {scan : ScanOrder}
  {rows' : List LogRow} {d : PendingDatom}

theorem QueueStep.inSync (h : QueueStep c all tx scan db rows d db' rows') (hsync : db.InSync) :
    db'.InSync := by
  cases h with
  | pruneOne =>
    intro k
    by_cases hk : k.1 = d.e ∧ k.2.1 = d.a ∧ k.2.2.valueType = d.v.valueType
    · refine iff_of_false ?_ (not_holds_of_no_row ?_)
      · rintro ⟨r, hr, rfl⟩
        have hkeep := (mem_filter.mp hr).2
        simp only [CurrentRow.isEa, CurrentRow.triple] at hkeep hk
        simp [hk] at hkeep
      · rintro r hr rfl
        have hkeep := (mem_filter.mp hr).2
        simp only [LogRow.isEa, LogRow.triple] at hkeep hk
        simp [hk] at hkeep
    · refine (Db.Live.of_eq fun r hr => ?_).trans ((hsync k).trans
        (Db.Replayed.of_eq fun r hr => ?_).symm)
      · subst hr
        have hkeep : (!CurrentRow.isEa d r) = true := congrArg not (decide_eq_false hk)
        exact ⟨fun h => (mem_filter.mp h).1, fun h => mem_filter.mpr ⟨h, hkeep⟩⟩
      · subst hr
        have hkeep : (!LogRow.isEa d r) = true := congrArg not (decide_eq_false hk)
        exact ⟨fun h => (mem_filter.mp h).1, fun h => mem_filter.mpr ⟨h, hkeep⟩⟩
  | pruneMany _ _ _ hnew =>
    intro k
    by_cases hk : k = d.triple
    · refine iff_of_false (hk ▸ hnew) (not_holds_of_no_row fun r hr heq => ?_)
      have hkeep := (mem_filter.mp hr).2
      simp [LogRow.isEav, heq.trans hk] at hkeep
    · refine (hsync k).trans (Db.Replayed.of_eq fun r hr => ?_).symm
      have hkeep : (!LogRow.isEav d r) = true := by simpa [LogRow.isEav, hr] using hk
      exact ⟨fun h => (mem_filter.mp h).1, fun h => mem_filter.mpr ⟨h, hkeep⟩⟩
  | _ => exact hsync

theorem QueueRun.inSync (h : QueueRun c all tx scan db done db' rows) (hsync : db.InSync) :
    db'.InSync := by
  induction h with
  | nil => exact hsync
  | snoc _ hstep ih => exact hstep.inSync ih

end Queue

namespace Committed

variable (h : Committed call db mid loop db' rows)

include h

theorem replayed_iff {k : Triple} (hno : ∀ y ∈ dedupRows rows, y.triple ≠ k) :
    db'.Replayed k ↔ loop.Replayed k := by
  refine Db.Replayed.of_eq fun r hr => ?_
  rw [h.mem_log]
  have hkey : ∀ y ∈ dedupRows rows, y.key ≠ r.key := fun y hy heq =>
    hno y hy ((Prod.mk.inj heq).1.trans hr)
  exact ⟨fun hr' => hr'.elim (fun hd => absurd rfl (hkey r hd)) And.left,
    fun hr' => .inr ⟨hr', hkey⟩⟩

theorem replayed_iff_of_mem (hinc : TxIncreasing db call) {r : LogRow} (hr : r ∈ dedupRows rows) :
    db'.Replayed r.triple ↔ r.added = true := by
  have htx : r.tx = call.backend.txId := h.rows_tx r (mem_of_mem_dedupRows hr)
  refine holds_iff_of_newest (h.mem_log.mpr (.inl hr)) rfl ?_ ?_
  · intro r' hr' _
    rw [htx]
    rcases h.mem_log.mp hr' with hr' | ⟨hr', -⟩
    · rw [h.rows_tx r' (mem_of_mem_dedupRows hr')]
    · exact h.loop_tx_le hinc hr'
  · intro r' hr' hk' htx'
    have hkey : r'.key = r.key := Prod.ext hk' (Int64.toInt_inj.mp htx')
    rcases h.mem_log.mp hr' with hr' | ⟨-, hr'⟩
    · exact congrArg LogRow.added (h.log.1 r' hr' r hr hkey)
    · exact absurd hkey.symm (hr' r hr)

theorem inSync (hinc : TxIncreasing db call) (hcall : call.SpelledApart db) (hsync : db.InSync) :
    db'.InSync := by
  have hloop : loop.InSync := h.run.inSync (h.mid_inSync hinc hsync)
  intro k
  cases hlast : lastRow rows k with
  | none =>
    have hno := lastRow_eq_none.mp hlast
    have hlive : db'.Live k ↔ loop.Live k := by
      refine Db.Live.of_eq fun r hr => ?_
      rw [h.projection r, hr, hlast]
      simp
    have hreplay := h.replayed_iff fun y hy => hno y (mem_of_mem_dedupRows hy)
    exact hlive.trans ((hloop k).trans hreplay.symm)
  | some r =>
    obtain ⟨hr, rfl⟩ := mem_of_lastRow hlast
    refine (h.live_iff_of_lastRow hlast).trans ?_
    by_cases hkept : r ∈ dedupRows rows
    · exact (h.replayed_iff_of_mem hinc hkept).symm
    · obtain ⟨hadded, hidle, hno⟩ := h.of_dropped hcall hr hkept
      refine iff_of_false (Bool.eq_false_iff.mp hadded) fun hreplay => hidle ?_
      exact (hloop _).mpr ((h.replayed_iff hno).mp hreplay)

end Committed

theorem inSync_bootstrapDb : bootstrapDb.InSync := fun _ =>
  iff_of_false (fun ⟨_, hr, _⟩ => not_mem_nil hr) fun ⟨_, hr, _⟩ => not_mem_nil hr

/-- In a run with increasing transaction ids whose calls keep their retractions spelled apart, the
projection is the replay of the log in every state. -/
theorem projection_replays_log {db : Db}
    (hrun : Reaches (fun d call _ => TxIncreasing d call ∧ call.SpelledApart d) bootstrapDb db) :
    db.InSync := by
  refine hrun.invariant ?_ inSync_bootstrapDb
  intro mid db' call report hsync hcall ⟨hinc, hspelled⟩
  obtain ⟨_, _, _, h⟩ := mentatTransact_committed hcall
  exact h.inSync hinc hspelled hsync

def docCall : Call :=
  plainCall 1000000000001 1735689600000000 [addDatom 500 Entids.dbDoc (.text "foo")]

def retractBoth (first second : EdnValue) : Call :=
  plainCall 1000000000002 1735689601000000
    [retractDatom 500 Entids.dbDoc first, retractDatom 500 Entids.dbDoc second]

/-- Retracting a string and a keyword with another name. -/
theorem projection_replays_log_bar :
    ∃ db, stateAfter [docCall, retractBoth (.keyword (.plain "bar")) (.text "foo")] = some db ∧
      db.InSync := by
  have hmeets : RunMeets (fun d call _ => TxIncreasing d call ∧ call.SpelledApart d)
      [docCall, retractBoth (.keyword (.plain "bar")) (.text "foo")] bootstrapDb := by
    decide +kernel
  obtain ⟨db, hdb, hrun⟩ := Reaches.of_runMeets .refl hmeets
  exact ⟨db, congrArg Except.toOption hdb, projection_replays_log hrun⟩

/-- Retracting the keyword `:foo` first drops the retraction of the string `"foo"` from the log. -/
theorem projection_out_of_sync :
    ∃ db, Reaches (fun d call _ => TxIncreasing d call) bootstrapDb db ∧
      db.Replayed (500, Entids.dbDoc, .text "foo") ∧
      ¬ db.Live (500, Entids.dbDoc, .text "foo") := by
  have hmeets : RunMeets (fun d call _ => TxIncreasing d call)
      [docCall, retractBoth (.keyword (.plain "foo")) (.text "foo")] bootstrapDb := by
    decide +kernel
  have hstate : ∃ db, stateAfter [docCall, retractBoth (.keyword (.plain "foo")) (.text "foo")] =
      some db ∧ db.Replayed (500, Entids.dbDoc, .text "foo") ∧
        ¬ db.Live (500, Entids.dbDoc, .text "foo") := by
    decide +kernel
  obtain ⟨db, -, hrun, hfacts⟩ := hmeets.exists_reaches hstate
  exact ⟨db, hrun, hfacts⟩

end PgMentat

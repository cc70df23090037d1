import PgMentat.Run

namespace PgMentat

open List KeyedTable TypedValue

def ValueType.isKey : ValueType → Bool
  | string | keyword | long | ref | uuid | bytes => true
  | boolean | double | instant => false

def Db.UniqueAttr (db : Db) (a : Int64) : Prop :=
  ∃ info ∈ db.cache.getAttribute a, info.uniqueConstraint ≠ none

instance (db : Db) (a : Int64) : Decidable (db.UniqueAttr a) :=
  inferInstanceAs (Decidable (∃ info ∈ db.cache.getAttribute a, info.uniqueConstraint ≠ none))

/-- The entity has once been given the value. -/
def Db.Asserted (db : Db) (e a : Int64) (v : TypedValue) : Prop :=
  ∃ r ∈ db.log, r.added = true ∧ r.triple = (e, a, v)

/-- At most one entity has ever been given the value. -/
def Db.OneHolder (db : Db) (a : Int64) (v : TypedValue) : Prop :=
  ∀ e e', db.Asserted e a v → db.Asserted e' a v → e = e'

/-- An attribute becomes unique only if no value of it has been given to two entities. -/
def DeclaresSafely (db db' : Db) : Prop :=
  ∀ a, db'.UniqueAttr a → ¬ db.UniqueAttr a → ∀ v, v.valueType.isKey = true → db.OneHolder a v

structure Db.LogSound (db : Db) : Prop where
  live : ∀ e a v, db.Live (e, a, v) → db.Asserted e a v
  tx : ∀ r ∈ db.log, ∃ t ∈ db.transactions, t.tx = r.tx

/-- What holds of the log in every run that declares unique attributes safely. -/
structure Db.LogInv (db : Db) : Prop extends db.LogSound where
  one : ∀ a, db.UniqueAttr a → ∀ v, v.valueType.isKey = true → db.OneHolder a v

section Queue

variable {c : SchemaCache} {all done : List PendingDatom} {tx : Int64} {scan : ScanOrder}
  {start db db' : Db} {rows rows' : List LogRow} {d : PendingDatom}

theorem Db.Asserted.mono {e a : Int64} {v : TypedValue} (h : db.Asserted e a v)
    (hlog : ∀ r ∈ db.log, r ∈ db'.log) : db'.Asserted e a v := by
  obtain ⟨r, hr, hrow⟩ := h
  exact ⟨r, hlog r hr, hrow⟩

theorem QueueStep.live_asserted (h : QueueStep c all tx scan db rows d db' rows')
    (hlive : ∀ e a v, db.Live (e, a, v) → db.Asserted e a v) :
    ∀ e a v, db'.Live (e, a, v) → db'.Asserted e a v := by
  intro e a v hlive'
  cases h with
  | pruneOne =>
    obtain ⟨hold, hkept⟩ := live_pruneCurrent.mp hlive'
    obtain ⟨r, hr, hadded, hrk⟩ := hlive e a v hold
    rw [← hrk] at hkept
    exact ⟨r, mem_pruneLog_isEa.mpr ⟨hr, hkept⟩, hadded, hrk⟩
  | pruneMany _ _ _ hnew =>
    obtain ⟨r, hr, hadded, hrk⟩ := hlive e a v hlive'
    refine ⟨r, mem_pruneLog_isEav.mpr ⟨hr, fun heq => hnew ?_⟩, hadded, hrk⟩
    rw [← heq, hrk]
    exact hlive'
  | _ => exact hlive e a v hlive'

theorem QueueRun.live_asserted (h : QueueRun c all tx scan start done db rows)
    (hlive : ∀ e a v, start.Live (e, a, v) → start.Asserted e a v) :
    ∀ e a v, db.Live (e, a, v) → db.Asserted e a v := by
  induction h with
  | nil => exact hlive
  | snoc _ hstep ih => exact hstep.live_asserted ih

def Agrees (c : SchemaCache) (rows : List LogRow) (db : Db) : Prop :=
  ∀ x ∈ rows, x.added = true → x.v.valueType.isKey = true →
    (∃ info ∈ c.getAttribute x.a, info.uniqueConstraint ≠ none) →
    ∀ e, db.Asserted e x.a x.v → e = x.e

theorem Validated.agrees {info : SchemaRow} (hv : Validated c all scan db d info)
    (hone : db.OneHolder d.a d.v) (hunique : info.uniqueConstraint ≠ none) {e : Int64}
    (he : db.Asserted e d.a d.v) : e = d.e := by
  cases hfirst : firstHolder scan db d.a d.v with
  | none =>
    obtain ⟨r, hr, hadded, hk⟩ := he
    simp only [LogRow.triple, Prod.mk.injEq] at hk
    have hfalse := firstHolder_eq_none hfirst hr hk.2.1 hk.2.2
    exact absurd hadded (Bool.eq_false_iff.mp hfalse)
  | some e' =>
    obtain ⟨r, hr, hre, hra, hrv, hadded⟩ := firstHolder_eq_some hfirst
    have hheld : db.Asserted e' d.a d.v :=
      ⟨r, hr, hadded, by rw [LogRow.triple, hre, hra, hrv]⟩
    exact (hone e e' he hheld).trans (hv.holder hunique e' hfirst)

theorem QueueStep.agrees (h : QueueStep c all tx scan db rows d db' rows')
    (hone : ∀ a, (∃ info ∈ c.getAttribute a, info.uniqueConstraint ≠ none) →
      ∀ v, v.valueType.isKey = true → db.OneHolder a v)
    (hagrees : Agrees c rows db) : Agrees c rows' db' := by
  intro x hx hadded hkey hunique e he
  have hdb : db.Asserted e x.a x.v := he.mono h.log_kept.1
  by_cases hold : x ∈ rows
  · exact hagrees x hold hadded hkey hunique e hdb
  obtain rfl := h.eq_row_of_new hx hold hadded
  obtain ⟨info, hv⟩ := h.validated hadded
  have hconstraint : info.uniqueConstraint ≠ none := by
    obtain ⟨info', hinfo', hne⟩ := hunique
    rwa [Option.some.inj (hv.attr.symm.trans hinfo')]
  exact hv.agrees (hone _ hunique _ hkey) hconstraint hdb

theorem Db.OneHolder.mono {a : Int64} {v : TypedValue} (h : db.OneHolder a v)
    (hlog : ∀ r ∈ db'.log, r ∈ db.log) : db'.OneHolder a v :=
  fun e e' he he' => h e e' (he.mono hlog) (he'.mono hlog)

theorem QueueRun.agrees (h : QueueRun c all tx scan start done db rows)
    (hone : ∀ a, (∃ info ∈ c.getAttribute a, info.uniqueConstraint ≠ none) →
      ∀ v, v.valueType.isKey = true → start.OneHolder a v) : Agrees c rows db := by
  induction h with
  | nil => exact fun x hx => nomatch hx
  | snoc hrun hstep ih =>
    exact hstep.agrees (fun a ha v hv => (hone a ha v hv).mono hrun.log_kept.1) ih

end Queue

section Commit

variable {call : Call} {db mid loop db' : Db} {rows : List LogRow}

namespace Committed

variable (h : Committed call db mid loop db' rows)

include h

theorem asserted_mid_iff {e a : Int64} {v : TypedValue} (hkey : v.valueType.isKey = true) :
    mid.Asserted e a v ↔ db.Asserted e a v := by
  constructor
  · rintro ⟨r, hr, hadded, hk⟩
    rcases h.mem_mid_log.mp hr with hr | ⟨rfl, -⟩
    · exact ⟨r, hr, hadded, hk⟩
    · rw [← show TypedValue.instant call.backend.now = v from congrArg (·.2.2) hk] at hkey
      cases hkey
  · exact fun h' => h'.mono fun r hr => h.mem_mid_log.mpr (.inl hr)

theorem tx_ne (hinv : db.LogSound) {r : LogRow} (hr : r ∈ db.log) : r.tx ≠ call.backend.txId := by
  obtain ⟨t, ht, heq⟩ := hinv.tx r hr
  exact heq ▸ h.tx_new t ht

theorem mid_live_asserted (hinv : db.LogSound) :
    ∀ e a v, mid.Live (e, a, v) → mid.Asserted e a v := by
  rintro e a v ⟨x, hx, hk⟩
  rcases h.mem_mid_current.mp hx with rfl | ⟨hx, -⟩
  · refine ⟨_, h.mem_mid_log.mpr (.inr ⟨rfl, fun y hy hkey => ?_⟩), rfl, hk⟩
    exact h.tx_ne hinv hy (Prod.mk.inj hkey).2
  · exact (hinv.live e a v ⟨x, hx, hk⟩).mono fun r hr => h.mem_mid_log.mpr (.inl hr)

theorem live_asserted (hinv : db.LogSound) : ∀ e a v, db'.Live (e, a, v) → db'.Asserted e a v := by
  rintro e a v ⟨x, hx, hk⟩
  rcases (h.projection x).mp hx with ⟨r, hlast, hadded, -⟩ | ⟨hnone, hx⟩
  · obtain ⟨hr, hrk⟩ := mem_of_lastRow hlast
    exact ⟨r, h.mem_log.mpr (.inl (h.mem_dedupRows_of_added hr hadded)), hadded, hrk.trans hk⟩
  · obtain ⟨r, hr, hadded, hrk⟩ :=
      h.run.live_asserted (h.mid_live_asserted hinv) e a v ⟨x, hx, hk⟩
    refine ⟨r, h.mem_log.mpr (.inr ⟨hr, fun y hy hkey => ?_⟩), hadded, hrk⟩
    refine lastRow_eq_none.mp hnone y (mem_of_mem_dedupRows hy) ?_
    rw [hk, ← hrk]
    exact (Prod.mk.inj hkey).1

theorem logSound (hinv : db.LogSound) : db'.LogSound := by
  refine ⟨h.live_asserted hinv, fun r hr => ?_⟩
  rw [h.transactions_eq, h.mid_transactions, put_of_new h.tx_new]
  rcases h.mem_log.mp hr with hr | ⟨hr, -⟩
  · exact ⟨_, mem_append_right _ mem_cons_self,
      (h.rows_tx r (mem_of_mem_dedupRows hr)).symm⟩
  · rcases h.mem_mid_log.mp (h.run.log_kept.1 r hr) with hr | ⟨rfl, -⟩
    · obtain ⟨t, ht, heq⟩ := hinv.tx r hr
      exact ⟨t, mem_append_left _ ht, heq⟩
    · exact ⟨_, mem_append_right _ mem_cons_self, rfl⟩

theorem asserted_cases {e a : Int64} {v : TypedValue} (hasserted : db'.Asserted e a v) :
    loop.Asserted e a v ∨ ∃ r ∈ rows, r.added = true ∧ r.triple = (e, a, v) := by
  obtain ⟨r, hr, hadded, hk⟩ := hasserted
  rcases h.mem_log.mp hr with hr | ⟨hr, -⟩
  · exact .inr ⟨r, mem_of_mem_dedupRows hr, hadded, hk⟩
  · exact .inl ⟨r, hr, hadded, hk⟩

theorem rows_oneHolder {x y : LogRow} (hx : x ∈ rows) (hy : y ∈ rows) (hxadded : x.added = true)
    (hyadded : y.added = true) (hunique : mid.UniqueAttr x.a) (hkey : x.v.valueType.isKey = true)
    (ha : y.a = x.a) (hv : y.v = x.v) : y.e = x.e := by
  obtain ⟨d, -, info, hc, rfl⟩ := (h.origin x hx).of_added hxadded
  obtain ⟨d', hd', info', hc', rfl⟩ := (h.origin y hy).of_added hyadded
  obtain ⟨info0, hinfo0, hne⟩ := hunique
  have hdup := hc.no_duplicate (by rwa [Option.some.inj (hc.attr.symm.trans hinfo0)])
  have hself : d'.v.partialEq d.v = true := by
    have hnan : d.v ≠ .double .nan := by
      intro hnan
      rw [PendingDatom.row, hnan] at hkey
      cases hkey
    rw [show d'.v = d.v from hv]
    simp [partialEq, hnan]
  by_contra he
  refine absurd ?_ (Bool.eq_false_iff.mp hdup)
  rw [hasDuplicateInTx, any_eq_true]
  refine ⟨d', hd', ?_⟩
  simp [show d'.a = d.a from ha, hself, hc'.added, show d'.e ≠ d.e from he]

theorem logInv (hinv : db.LogInv) (hsafe : DeclaresSafely db db') : db'.LogInv := by
  have hmid : ∀ a, mid.UniqueAttr a → ∀ v, v.valueType.isKey = true → mid.OneHolder a v := by
    intro a ha v hv e e' he he'
    rw [h.asserted_mid_iff hv] at he he'
    by_cases hold : db.UniqueAttr a
    · exact hinv.one a hold v hv e e' he he'
    · exact hsafe a (by rwa [Db.UniqueAttr, h.cache_eq]) hold v hv e e' he he'
  have hagrees := h.run.agrees hmid
  refine ⟨h.logSound hinv.toLogSound, fun a ha v hv e e' he he' => ?_⟩
  have ha : mid.UniqueAttr a := by rwa [Db.UniqueAttr, ← h.cache_eq]
  have hmixed {e e' : Int64} {x : LogRow} (hx : x ∈ rows) (hadded : x.added = true)
      (hk : x.triple = (e, a, v)) (he' : loop.Asserted e' a v) : e' = e := by
    simp only [LogRow.triple, Prod.mk.injEq] at hk
    obtain ⟨rfl, rfl, rfl⟩ := hk
    exact hagrees x hx hadded hv ha e' he'
  rcases h.asserted_cases he with he | ⟨x, hx, hxadded, hxk⟩ <;>
    rcases h.asserted_cases he' with he' | ⟨y, hy, hyadded, hyk⟩
  · exact ((hmid a ha v hv).mono h.run.log_kept.1) e e' he he'
  · exact hmixed hy hyadded hyk he
  · exact (hmixed hx hxadded hxk he').symm
  · simp only [LogRow.triple, Prod.mk.injEq] at hxk hyk
    obtain ⟨rfl, rfl, rfl⟩ := hxk
    exact ((h.rows_oneHolder hx hy hxadded hyadded ha hv hyk.2.1 hyk.2.2).symm.trans hyk.1)

end Committed

end Commit

theorem logSound_bootstrapDb : bootstrapDb.LogSound :=
  ⟨fun _ _ _ ⟨_, hr, _⟩ => absurd hr List.not_mem_nil, fun _ hr => absurd hr List.not_mem_nil⟩

theorem logSound_of_reaches {ok : Db → Call → Db → Prop} {db : Db}
    (hrun : Reaches ok bootstrapDb db) : db.LogSound := by
  refine hrun.invariant (I := Db.LogSound) ?_ logSound_bootstrapDb
  intro mid db' call report hinv hcall _
  obtain ⟨_, _, _, h⟩ := mentatTransact_committed hcall
  exact h.logSound hinv

theorem logInv_of_reaches {db : Db}
    (hrun : Reaches (fun d _ d' => DeclaresSafely d d') bootstrapDb db) : db.LogInv := by
  refine hrun.invariant (I := Db.LogInv) ?_ ⟨logSound_bootstrapDb, ?_⟩
  · intro mid db' call report hinv hcall hsafe
    obtain ⟨_, _, _, h⟩ := mentatTransact_committed hcall
    exact h.logInv hinv hsafe
  · exact fun a _ v _ e e' ⟨r, hr, _⟩ => nomatch hr

end PgMentat

import PgMentat.AppendOnly
import PgMentat.CardinalityOne
import PgMentat.Projection
import PgMentat.Typing

namespace PgMentat

open List KeyedTable LatestWins TypedValue

def KeepsDeclarations (db db' : Db) : Prop :=
  ∀ info ∈ db.schema, db'.cache.getAttribute info.entid = some info

/-- No attribute is declared `:db/noHistory`. -/
def Db.KeepsHistory (db : Db) : Prop := ∀ info ∈ db.schema, info.noHistory = false

def Call.ReadsAllExactly (call : Call) (db : Db) : Prop :=
  (∀ d ∈ call.pending db, (∀ info ∈ (call.cache db).getAttribute d.a, info.cardinality = .one) →
    call.ReadsExactly db d.e d.a) ∧
  call.ReadsExactly db call.instantRow.e call.instantRow.a

/-- The call retracts a live value explicitly only if it asserts another in its place. -/
def Call.RetractsReplaced (call : Call) (db : Db) : Prop :=
  ∀ d ∈ call.pending db, d.added = false →
    ∀ r ∈ db.current, r.triple = d.triple → call.Replaces db r

structure HistoryStep (db : Db) (call : Call) (db' : Db) : Prop where
  increasing : TxIncreasing db call
  declarations : KeepsDeclarations db db'
  history : db'.KeepsHistory
  spelled : call.SpelledApart db
  reads : call.ReadsAllExactly db
  retracts : call.RetractsReplaced db

def LogRow.ea (r : LogRow) : Int64 × Int64 := (r.e, r.a)

/-- The log is a history of assertions, and the projection is what it has come to. -/
structure Db.History (db : Db) : Prop where
  sync : db.InSync
  keys : KeyUnique LogRow.key db.log
  instant : ∃ info ∈ db.cache.getAttribute Entids.dbTxInstant,
    info.valueType = .instant ∧ info.cardinality = .one
  typed : ∀ r ∈ db.log, r.added = true → r.Typed db.cache
  single : ∀ e a, db.DeclaredOne a → db.SingleValued (fun _ => True) e a
  serial : Serial LogRow.triple (fun r => r.tx.toInt) LogRow.added db.log LogRow.ea
    fun k => db.DeclaredOne k.2

instance (db db' : Db) : Decidable (KeepsDeclarations db db') :=
  inferInstanceAs (Decidable (∀ info ∈ db.schema, _ = _))

instance (db : Db) : Decidable db.KeepsHistory :=
  inferInstanceAs (Decidable (∀ info ∈ db.schema, _ = _))

instance (call : Call) (db : Db) : Decidable (call.ReadsAllExactly db) :=
  inferInstanceAs (Decidable (_ ∧ _))

instance (call : Call) (db : Db) : Decidable (call.RetractsReplaced db) :=
  inferInstanceAs (Decidable (∀ d ∈ call.pending db, d.added = false →
    ∀ r ∈ db.current, r.triple = d.triple → call.Replaces db r))

instance (db : Db) (call : Call) (db' : Db) : Decidable (HistoryStep db call db') :=
  decidable_of_iff (TxIncreasing db call ∧ KeepsDeclarations db db' ∧ db'.KeepsHistory ∧
      call.SpelledApart db ∧ call.ReadsAllExactly db ∧ call.RetractsReplaced db)
    ⟨fun ⟨hinc, hdecl, hhist, hspelled, hreads, hretracts⟩ =>
      ⟨hinc, hdecl, hhist, hspelled, hreads, hretracts⟩,
    fun h => ⟨h.increasing, h.declarations, h.history, h.spelled, h.reads, h.retracts⟩⟩

section Queue

variable {c : SchemaCache} {all done : List PendingDatom} {tx : Int64} {scan : ScanOrder}
  {start db db' : Db} {rows rows' : List LogRow} {d : PendingDatom}

theorem QueueStep.db_eq (h : QueueStep c all tx scan db rows d db' rows')
    (hkept : ∀ a, ∀ info ∈ c.getAttribute a, info.noHistory = false) : db' = db := by
  cases h with
  | pruneOne hv _ hhist => exact absurd hhist (Bool.eq_false_iff.mp (hkept _ _ hv.attr))
  | pruneMany hv _ hhist => exact absurd hhist (Bool.eq_false_iff.mp (hkept _ _ hv.attr))
  | _ => rfl

theorem QueueRun.db_eq (h : QueueRun c all tx scan start done db rows)
    (hkept : ∀ a, ∀ info ∈ c.getAttribute a, info.noHistory = false) : db = start := by
  induction h with
  | nil => rfl
  | snoc _ hstep ih => exact (hstep.db_eq hkept).trans ih

variable {x z : LogRow} {types : ValueType → Prop}

theorem QueueStep.not_live_of_many (h : QueueStep c all tx scan db rows d db' rows')
    (hx : x ∈ rows') (hold : x ∉ rows) (hadded : x.added = true)
    (hmany : ∀ info ∈ c.getAttribute x.a, info.cardinality = .many) : ¬ db.Live x.triple := by
  obtain rfl := h.eq_row_of_new hx hold hadded
  have hnot {info : SchemaRow} (hv : Validated c all scan db d info)
      (hone : info.cardinality = .one) : False := by
    cases (hmany info hv.attr).symm.trans hone
  cases h with
  | retract h => exact absurd hadded (Bool.eq_false_iff.mp h)
  | skipMany => exact absurd hx hold
  | assertMany _ _ _ hnew | pruneMany _ _ _ hnew => exact hnew
  | _ => exact (hnot ‹_› ‹_›).elim

theorem QueueRun.not_live_of_many (h : QueueRun c all tx scan start done db rows)
    (hkept : ∀ a, ∀ info ∈ c.getAttribute a, info.noHistory = false) (hx : x ∈ rows)
    (hadded : x.added = true) (hmany : ∀ info ∈ c.getAttribute x.a, info.cardinality = .many) :
    ¬ start.Live x.triple := by
  induction h with
  | nil => cases hx
  | @snoc _ _ before _ _ _ hrun hstep ih =>
    obtain rfl := hrun.db_eq hkept
    by_cases hold : x ∈ before
    · exact ih hold
    · exact hstep.not_live_of_many hx hold hadded hmany

/-- A round that queues a retraction has been asked to, or queues a value of a single-valued
attribute with it. -/
theorem QueueStep.retraction_cases (h : QueueStep c all tx scan db rows d db' rows')
    (hz : z ∈ rows') (hold : z ∉ rows) (hadded : z.added = false) :
    (d.added = false ∧ z = d.row tx) ∨
      (∃ info ∈ c.getAttribute z.a, info.cardinality = .one) ∧
        ∃ x ∈ rows', x.added = true ∧ x.ea = z.ea := by
  have hnot {info : SchemaRow} (hv : Validated c all scan db d info) : z ≠ d.row tx := by
    rintro rfl
    exact absurd hv.added (Bool.eq_false_iff.mp hadded)
  cases h with
  | retract h => exact .inl ⟨h, by simpa [hold] using hz⟩
  | replaceOne hv hone =>
    simp only [append_assoc, mem_append, hold, false_or, mem_singleton,
      hnot hv, or_false] at hz
    subst hz
    refine .inr ⟨⟨_, hv.attr, hone⟩, d.row tx, ?_, hv.added, rfl⟩
    exact mem_append_right _ mem_cons_self
  | skipOne | skipMany => exact absurd hz hold
  | _ => simp [hold, hnot ‹_›] at hz

theorem QueueRun.retraction_cases (h : QueueRun c all tx scan start done db rows) (hz : z ∈ rows)
    (hadded : z.added = false) :
    (∃ d ∈ done, d.added = false ∧ z = d.row tx) ∨
      (∃ info ∈ c.getAttribute z.a, info.cardinality = .one) ∧
        ∃ x ∈ rows, x.added = true ∧ x.ea = z.ea := by
  induction h with
  | nil => cases hz
  | @snoc _ _ before _ _ _ hrun hstep ih =>
    by_cases hold : z ∈ before
    · rcases ih hold with ⟨d, hd, hretract, rfl⟩ | ⟨hone, x, hx, hxadded, hea⟩
      · exact .inl ⟨d, mem_append_left _ hd, hretract, rfl⟩
      · exact .inr ⟨hone, x, hstep.rows_subset x hx, hxadded, hea⟩
    · rcases hstep.retraction_cases hz hold hadded with ⟨hretract, rfl⟩ | hreplace
      · exact .inl ⟨_, mem_append_right _ mem_cons_self, hretract, rfl⟩
      · exact .inr hreplace

theorem QueueStep.row_mem {types : ValueType → Prop}
    (h : QueueStep c all tx scan db rows d db' rows') (hd : d ∈ all) (hadded : d.added = true)
    (hread : ReadBack types c all db d.e d.a) (hnew : ¬ db.Live d.triple) : d.row tx ∈ rows' := by
  cases h with
  | retract h => exact absurd hadded (Bool.eq_false_iff.mp h)
  | skipOne _ _ hskip =>
    exact absurd (hread.live_of_readsBack (fun _ hr => hr) hd hadded hskip) hnew
  | skipMany _ _ hlive => exact absurd hlive hnew
  | _ => exact mem_append_right _ mem_cons_self

theorem QueueRun.row_mem (h : QueueRun c all tx scan start done db rows)
    (hkept : ∀ a, ∀ info ∈ c.getAttribute a, info.noHistory = false) (hdone : ∀ d ∈ done, d ∈ all)
    (hd : d ∈ done) (hadded : d.added = true) (hread : ReadBack types c all start d.e d.a)
    (hnew : ¬ start.Live d.triple) : d.row tx ∈ rows := by
  induction h with
  | nil => cases hd
  | snoc hrun hstep ih =>
    obtain rfl := hrun.db_eq hkept
    rcases mem_append.mp hd with hmem | hmem
    · apply hstep.rows_subset
      exact ih (fun d hd => hdone d (mem_append_left _ hd)) hmem
    · obtain rfl := mem_singleton.mp hmem
      exact hstep.row_mem (hdone d hd) hadded hread hnew

end Queue

section Commit

variable {call : Call} {db mid loop db' : Db} {rows : List LogRow}

variable {a : Int64} {info : SchemaRow} {r : LogRow}

namespace KeepsDeclarations

variable (h : KeepsDeclarations db db')

include h

theorem getAttribute (hinfo : db.cache.getAttribute a = some info) :
    db'.cache.getAttribute a = some info := by
  have ha : info.entid = a := by simpa using List.find?_some hinfo
  rw [← ha]
  exact h info (mem_of_find?_eq_some hinfo)

theorem declaredOne (hone : db'.DeclaredOne a) : db.DeclaredOne a :=
  fun info hinfo => hone info (h.getAttribute hinfo)

theorem declaredOne_of_declared (hinfo : db.cache.getAttribute a = some info)
    (hone : db.DeclaredOne a) : db'.DeclaredOne a := by
  intro info' hinfo'
  rw [← Option.some.inj ((h.getAttribute hinfo).symm.trans hinfo')]
  exact hone info hinfo

theorem typed (htyped : r.Typed db.cache) : r.Typed db'.cache := by
  obtain ⟨info, hinfo, htype⟩ := Option.map_eq_some_iff.mp htyped
  rw [LogRow.Typed, SchemaCache.declaredType, h.getAttribute hinfo, ← htype]
  rfl

end KeepsDeclarations

theorem LogRow.Typed.declared {c : SchemaCache} (h : r.Typed c) :
    ∃ info, c.getAttribute r.a = some info := by
  obtain ⟨info, hinfo, -⟩ := Option.map_eq_some_iff.mp h
  exact ⟨info, hinfo⟩

namespace Committed

variable (h : Committed call db mid loop db' rows)

include h

theorem noHistory_eq_false (hhist : db'.KeepsHistory) :
    ∀ a, ∀ info ∈ mid.cache.getAttribute a, info.noHistory = false := by
  intro a info hinfo
  rw [← h.cache_eq] at hinfo
  exact hhist info (mem_of_find?_eq_some hinfo)

theorem readsExactly (hreads : call.ReadsAllExactly db) {e : Int64} (hone : db'.DeclaredOne a) :
    call.ReadsExactly db e a := by
  constructor
  · rintro d hd ⟨hadded, rfl, rfl, htype⟩
    apply (hreads.1 d hd _).1 d hd ⟨hadded, rfl, rfl, htype⟩
    rwa [h.cache_mid, ← h.cache_eq]
  · rintro ⟨rfl, rfl⟩
    exact hreads.2.2 ⟨rfl, rfl⟩

theorem keyUnique (hkeys : KeyUnique LogRow.key db.log) : KeyUnique LogRow.key db'.log := by
  have hmid : KeyUnique LogRow.key mid.log := h.mid_log ▸ hkeys.insertNew _
  intro x hx y hy hkey
  rcases h.mem_log.mp hx with hx | ⟨hx, hxno⟩ <;> rcases h.mem_log.mp hy with hy | ⟨hy, hyno⟩
  · exact h.log.1 x hx y hy hkey
  · exact absurd hkey (hyno x hx)
  · exact absurd hkey.symm (hxno y hy)
  · exact hmid x (h.run.log_kept.1 x hx) y (h.run.log_kept.1 y hy) hkey

theorem log_cases (hr : r ∈ db'.log) :
    r ∈ db.log ∨ r.tx = call.backend.txId ∧
      (r ∈ rows ∨ r = txInstantRow call.backend.txId call.backend.now) := by
  rcases h.mem_log.mp hr with hrow | ⟨hloop, -⟩
  · have hmem := mem_of_mem_dedupRows hrow
    exact .inr ⟨h.rows_tx r hmem, .inl hmem⟩
  · rcases h.mem_mid_log.mp (h.run.log_kept.1 r hloop) with hold | ⟨rfl, -⟩
    · exact .inl hold
    · exact .inr ⟨rfl, .inr rfl⟩

theorem mid_live {k : Triple} (hlive : db.Live k) : mid.Live k := by
  obtain ⟨x, hx, rfl⟩ := hlive
  by_cases hk : x.triple = call.instantRow.triple
  · exact ⟨_, h.mem_mid_current.mpr (.inl rfl), hk.symm⟩
  · exact ⟨x, h.mem_mid_current.mpr (.inr ⟨hx, hk⟩), rfl⟩

theorem log_old (hstep : HistoryStep db call db') (hr : r ∈ db.log) : r ∈ db'.log := by
  refine (h.log_kept hstep.increasing hr).resolve_right ?_
  rintro ⟨info, hinfo, hhist⟩
  rw [h.cache_eq] at hinfo
  exact absurd hhist (Bool.eq_false_iff.mp (h.noHistory_eq_false hstep.history _ info hinfo))

theorem old_of_lt (hstep : HistoryStep db call db') {r' : LogRow} (hr : r ∈ db'.log)
    (hr' : r' ∈ db'.log) (hlt : r.tx.toInt < r'.tx.toInt) : r ∈ db.log := by
  refine (h.log_cases hr).resolve_right fun hnew => ?_
  have hle : r'.tx.toInt ≤ call.backend.txId.toInt := by
    rcases h.log_cases hr' with hold | ⟨htx, -⟩
    · exact le_of_lt (Int64.lt_iff_toInt_lt.mp (hstep.increasing r' hold))
    · rw [htx]
  rw [hnew.1] at hlt
  omega

theorem readBack_of_history (hinv : db.History) (hstep : HistoryStep db call db') {e : Int64}
    (hone : db'.DeclaredOne a) : ReadBack (fun _ => True) mid.cache (call.pending db) mid e a :=
  h.readBack hone (h.readsExactly hstep.reads hone)
    (hinv.single e a (hstep.declarations.declaredOne hone))

end Committed

theorem Db.History.exists_later (hinv : db.History) (hr : r ∈ db.log) (hadded : r.added = true)
    (hdead : ¬ db.Live r.triple) :
    ∃ z ∈ db.log, z.triple = r.triple ∧ z.added = false ∧ r.tx.toInt < z.tx.toInt := by
  have hreplay : ¬ db.Replayed r.triple := fun h => hdead ((hinv.sync _).mpr h)
  exact exists_later_of_not_holds hinv.serial.alone hreplay hr rfl hadded

namespace Committed

variable (h : Committed call db mid loop db' rows)

include h

theorem typed_of_history (hinv : db.History) (hstep : HistoryStep db call db') :
    ∀ r ∈ db'.log, r.added = true → r.Typed db'.cache := by
  obtain ⟨info, hinfo, htype, -⟩ := hinv.instant
  have hinstant : db'.declaredType Entids.dbTxInstant = some .instant := by
    rw [Db.declaredType, hstep.declarations.getAttribute hinfo, ← htype]
    rfl
  refine h.typed hinstant (fun r hr hadded => ?_) fun d _ hretract hadded => ?_
  · exact hstep.declarations.typed (hinv.typed r hr hadded)
  · exact absurd hadded (Bool.eq_false_iff.mp hretract)

theorem withdrawn (hinv : db.History) (hstep : HistoryStep db call db') {r' : LogRow}
    (hr : r ∈ db.log) (hr' : r' ∈ db'.log) (htx : r'.tx = call.backend.txId)
    (hadded : r.added = true) (hadded' : r'.added = true) (hone : db'.DeclaredOne r.a)
    (hea : r'.ea = r.ea) (hk : r'.triple ≠ r.triple) (hlive : db.Live r.triple) :
    ∃ z ∈ db'.log, z.triple = r.triple ∧ z.tx = call.backend.txId := by
  obtain ⟨he, ha⟩ := Prod.mk.inj hea
  have htyped := h.typed_of_history hinv hstep
  have htype : r.v.valueType = r'.v.valueType := by
    have hr'type : db'.cache.declaredType r'.a = _ := htyped r' hr' hadded'
    rw [ha] at hr'type
    exact Option.some.inj ((htyped r (h.log_old hstep hr) hadded).symm.trans hr'type)
  obtain ⟨y, hy, hyk⟩ := h.mid_live hlive
  simp only [CurrentRow.triple, LogRow.triple, Prod.mk.injEq] at hyk
  have hloop := h.run.db_eq (h.noHistory_eq_false hstep.history)
  have hnew : r' ∉ db.log := by
    intro hold
    have hlt := hstep.increasing r' hold
    rw [htx] at hlt
    exact Int64.lt_irrefl hlt
  rcases ((h.log_cases hr').resolve_left hnew).2 with hrow | rfl
  · have hread := h.readBack_of_history hinv hstep (e := r.e) hone
    obtain ⟨z, hz, hzy⟩ := h.run.superseded (fun _ hd => hd) hread r' hrow hadded' he ha trivial y
      (hloop ▸ hy) hyk.1 hyk.2.1 (hyk.2.2 ▸ htype)
    have hzr : z.triple = r.triple := by
      rw [hzy, CurrentRow.triple, hyk.1, hyk.2.1, hyk.2.2]
      rfl
    refine ⟨z, h.mem_log.mpr (.inl ?_), hzr, h.rows_tx z hz⟩
    by_contra hdrop
    refine (h.of_dropped hstep.spelled hz hdrop).2.1 ?_
    rw [hzr, hloop]
    exact h.mid_live hlive
  · -- the call's own instant: any other instant there would be a value it has not read
    obtain ⟨x, hx, hxk⟩ := hlive
    simp only [CurrentRow.triple, LogRow.triple, Prod.mk.injEq] at hxk
    have hv := hstep.reads.2.2 ⟨rfl, rfl⟩ x hx
      ⟨hxk.1.trans he.symm, hxk.2.1.trans ha.symm, hxk.2.2 ▸ htype⟩
    refine absurd ?_ hk
    rw [LogRow.triple, LogRow.triple, he, ha, ← hxk.2.2, hv]
    rfl

theorem replaced (hinv : db.History) (hstep : HistoryStep db call db') {z : LogRow} (hz : z ∈ rows)
    (hzadded : z.added = false) (hk : z.triple = r.triple) (hlive : db.Live r.triple) :
    db'.DeclaredOne r.a ∧ ∃ x ∈ rows, x.added = true ∧ x.ea = r.ea := by
  have hzk : z.e = r.e ∧ z.a = r.a ∧ z.v = r.v := by
    simpa only [LogRow.triple, Prod.mk.injEq] using hk
  have hdeclared {info : SchemaRow} (hinfo : db'.cache.getAttribute r.a = some info)
      (hone : info.cardinality = .one) : db'.DeclaredOne r.a := by
    intro info' hinfo'
    rwa [Option.some.inj (hinfo'.symm.trans hinfo)]
  rcases h.run.retraction_cases hz hzadded with ⟨d, hd, hretract, rfl⟩ | ⟨⟨info, hinfo, hone⟩, hx⟩
  · obtain ⟨x, hx, hxk⟩ := hlive
    obtain ⟨d', hd', hadded', he, ha, htype, hne, info, hinfo, hone, -⟩ :=
      hstep.retracts d hd hretract x hx (hxk.trans hk.symm)
    simp only [CurrentRow.triple, LogRow.triple, Prod.mk.injEq] at hxk
    rw [h.cache_mid, ← h.cache_eq, hxk.2.1] at hinfo
    have hone' := hdeclared hinfo hone
    have hread := h.readBack_of_history hinv hstep (e := r.e) hone'
    refine ⟨hone', d'.row call.backend.txId, ?_, hadded', ?_⟩
    · have hkept := h.noHistory_eq_false hstep.history
      have hea : d'.e = r.e ∧ d'.a = r.a := ⟨he.trans hxk.1, ha.trans hxk.2.1⟩
      refine h.run.row_mem hkept (fun _ hd => hd) hd' hadded' (hea.1 ▸ hea.2 ▸ hread) ?_
      -- the value in place is the only one, and it is not the new one
      rintro ⟨y, hy, hyk⟩
      obtain ⟨w, hw, hwk⟩ := h.mid_live ⟨x, hx, rfl⟩
      simp only [CurrentRow.triple, PendingDatom.triple, Prod.mk.injEq] at hyk hwk
      obtain ⟨hye, hya, hyv⟩ := hyk
      obtain ⟨hwe, hwa, hwv⟩ := hwk
      have hyw : y = w := hread.single y hy w hw (hye.trans hea.1) (hya.trans hea.2)
        (hwe.trans hxk.1) (hwa.trans hxk.2.1) (by rw [hyv, hwv, htype]) trivial
      exact hne (by rw [← hyv, hyw, hwv])
    · rw [LogRow.ea, PendingDatom.row, he, ha, hxk.1, hxk.2.1]
      rfl
  · rw [← h.cache_eq, hzk.2.1] at hinfo
    obtain ⟨x, hx, hxadded, hea⟩ := hx
    refine ⟨hdeclared hinfo hone, x, hx, hxadded, hea.trans ?_⟩
    rw [LogRow.ea, hzk.1, hzk.2.1]
    rfl

theorem serial (hinv : db.History) (hstep : HistoryStep db call db') :
    Serial LogRow.triple (fun r => r.tx.toInt) LogRow.added db'.log LogRow.ea
      fun k => db'.DeclaredOne k.2 := by
  have hold {r : LogRow} (hr : r ∈ db.log) : r.tx.toInt < call.backend.txId.toInt :=
    Int64.lt_iff_toInt_lt.mp (hstep.increasing r hr)
  have hone {r : LogRow} (hr : r ∈ db.log) (hadded : r.added = true) (hone : db.DeclaredOne r.a) :
      db'.DeclaredOne r.a := by
    obtain ⟨info, hinfo⟩ := (hinv.typed r hr hadded).declared
    exact hstep.declarations.declaredOne_of_declared hinfo hone
  constructor
  case alone =>
    intro r hr r' hr' hk htx
    exact h.keyUnique hinv.keys r hr r' hr' (Prod.ext hk (Int64.toInt_inj.mp htx))
  case withdrawn =>
    intro r hr r' hr' hadded hadded' hsingle hea hk hlt
    have hr := h.old_of_lt hstep hr hr' hlt
    rcases h.log_cases hr' with hr'old | ⟨htx, -⟩
    · obtain ⟨z, hz, hzr⟩ := hinv.serial.withdrawn r hr r' hr'old hadded hadded'
        (hstep.declarations.declaredOne hsingle) hea hk hlt
      exact ⟨z, h.log_old hstep hz, hzr⟩
    by_cases hlive : db.Live r.triple
    · obtain ⟨z, hz, hzk, hztx⟩ :=
        h.withdrawn hinv hstep hr hr' htx hadded hadded' hsingle hea hk hlive
      refine ⟨z, hz, hzk, hztx ▸ hold hr, ?_⟩
      rw [hztx, htx]
    · obtain ⟨z, hz, hzk, -, hrz⟩ := hinv.exists_later hr hadded hlive
      exact ⟨z, h.log_old hstep hz, hzk, hrz, htx ▸ le_of_lt (hold hz)⟩
  case replaced =>
    intro z hz r hr hzadded hadded hk hlt
    have hr := h.old_of_lt hstep hr hz hlt
    rcases h.log_cases hz with hzold | ⟨htx, hznew⟩
    · obtain ⟨hsingle, r', hr', hrest⟩ :=
        hinv.serial.replaced z hzold r hr hzadded hadded hk hlt
      exact ⟨hone hr hadded hsingle, r', h.log_old hstep hr', hrest⟩
    by_cases hlive : db.Live r.triple
    · have hzrow : z ∈ rows := by
        refine hznew.resolve_right ?_
        rintro rfl
        cases hzadded
      obtain ⟨hsingle, x, hx, hxadded, hea⟩ := h.replaced hinv hstep hzrow hzadded hk hlive
      have hxlog : x ∈ db'.log := h.mem_log.mpr (.inl (h.mem_dedupRows_of_added hx hxadded))
      have hxtx := h.rows_tx x hx
      refine ⟨hsingle, x, hxlog, hxadded, hea, hxtx ▸ hold hr, ?_⟩
      rw [hxtx, htx]
    · -- it was retracted before, so another value had taken its place by then
      obtain ⟨z0, hz0, hz₀k, hz₀added, hrz0⟩ := hinv.exists_later hr hadded hlive
      obtain ⟨hsingle, r', hr', hadded', hea, hlt', hle⟩ :=
        hinv.serial.replaced z0 hz0 r hr hz₀added hadded hz₀k hrz0
      refine ⟨hone hr hadded hsingle, r', h.log_old hstep hr', hadded', hea, hlt', ?_⟩
      exact htx ▸ le_of_lt (lt_of_le_of_lt hle (hold hz0))
  case once =>
    intro r hr r' hr' hadded hadded' hk hlt
    have hr := h.old_of_lt hstep hr hr' hlt
    rcases h.log_cases hr' with hr'old | ⟨htx, hnew⟩
    · exact hone hr hadded (hinv.serial.once r hr r' hr'old hadded hadded' hk hlt)
    by_contra hmany
    have hlive : db.Live r.triple := by
      by_contra hdead
      obtain ⟨z, hz, hzk, hzadded, hrz⟩ := hinv.exists_later hr hadded hdead
      exact hmany (hone hr hadded (hinv.serial.replaced z hz r hr hzadded hadded hzk hrz).1)
    have ha : r'.a = r.a := congrArg (·.2.1) hk
    rcases hnew with hrow | rfl
    · refine h.run.not_live_of_many (h.noHistory_eq_false hstep.history) hrow hadded'
        (fun info hinfo => ?_) (hk ▸ h.mid_live hlive)
      by_contra hcard
      refine hmany fun info' hinfo' => ?_
      rw [ha, ← h.cache_eq] at hinfo
      rw [← Option.some.inj (Eq.trans hinfo.symm hinfo')]
      cases hc : info.cardinality with
      | one => rfl
      | many => exact absurd hc hcard
    · obtain ⟨info, hinfo, -, hcard⟩ := hinv.instant
      refine hmany (hone hr hadded fun info' hinfo' => ?_)
      rw [← ha] at hinfo'
      rwa [← Option.some.inj (Eq.trans hinfo.symm hinfo')]

theorem history (hinv : db.History) (hstep : HistoryStep db call db') : db'.History where
  sync := h.inSync hstep.increasing hstep.spelled hinv.sync
  keys := h.keyUnique hinv.keys
  instant := by
    obtain ⟨info, hinfo, hrest⟩ := hinv.instant
    exact ⟨info, hstep.declarations.getAttribute hinfo, hrest⟩
  typed := h.typed_of_history hinv hstep
  single := fun e a hone => h.singleValued (h.readBack_of_history hinv hstep hone)
  serial := h.serial hinv hstep

end Committed

end Commit

theorem history_bootstrapDb : bootstrapDb.History where
  sync := inSync_bootstrapDb
  keys := fun _ hx => nomatch hx
  instant := by decide
  typed := fun _ hr => nomatch hr
  single := fun _ _ _ _ hx => nomatch hx
  serial := by constructor <;> exact fun _ hr => nomatch hr

theorem history_of_reaches {db : Db} (hrun : Reaches HistoryStep bootstrapDb db) : db.History := by
  refine hrun.invariant (I := Db.History) ?_ history_bootstrapDb
  intro mid db' call report hinv hcall hstep
  obtain ⟨_, _, _, h⟩ := mentatTransact_committed hcall
  exact h.history hinv hstep

end PgMentat

import PgMentat.Run

namespace PgMentat

open List KeyedTable TypedValue

/-- Wherever the attribute is declared it is single-valued. -/
def Db.DeclaredOne (db : Db) (a : Int64) : Prop :=
  ∀ info ∈ db.cache.getAttribute a, info.cardinality = .one

/-- The tables of the types have at most one row each for the entity and attribute. -/
def Db.SingleValued (types : ValueType → Prop) (db : Db) (e a : Int64) : Prop :=
  ∀ x ∈ db.current, ∀ y ∈ db.current, x.e = e → x.a = a → y.e = e → y.a = a →
    x.v.valueType = y.v.valueType → types x.v.valueType → x = y

/-- The rows of the entity and attribute hold no instant with a fraction of a second but `v`. -/
def WholeSecondsBut (v : TypedValue) (rows : List CurrentRow) (e a : Int64) : Prop :=
  ∀ r ∈ rows, r.e = e → r.a = a → r.v.WholeSecond ∨ r.v = v

/-- A call that asserts an instant for the entity and attribute finds that instant live or live
instants on whole seconds only, and a call that records its own `:db/txInstant` there finds no
other. -/
def Call.ReadsExactly (call : Call) (db : Db) (e a : Int64) : Prop :=
  (∀ d ∈ call.pending db, d.added = true ∧ d.e = e ∧ d.a = a ∧ d.v.valueType = .instant →
    WholeSecondsBut d.v (call.instantRow :: db.current) e a) ∧
  (call.instantRow.e = e ∧ call.instantRow.a = a →
    ∀ r ∈ db.current, r.e = e ∧ r.a = a ∧ r.v.valueType = .instant → r.v = call.instantRow.v)

/-- The call asserts `v` for the entity and attribute and says nothing else about them. -/
def Call.AssertsOnly (call : Call) (db : Db) (e a : Int64) (v : TypedValue) : Prop :=
  ⟨e, a, v, true⟩ ∈ call.pending db ∧
    ∀ d ∈ call.pending db, d.e = e → d.a = a → d = ⟨e, a, v, true⟩

section Queue

variable {c : SchemaCache} {all done : List PendingDatom} {tx : Int64} {scan : ScanOrder}
  {start db db' : Db} {rows rows' : List LogRow} {d : PendingDatom} {e a : Int64}
  {types : ValueType → Prop}

/-- The values the loop reads back for the entity and attribute are the live ones. -/
structure ReadBack (types : ValueType → Prop) (c : SchemaCache) (all : List PendingDatom)
    (start : Db) (e a : Int64) : Prop where
  one : ∀ info ∈ c.getAttribute a, info.cardinality = .one
  single : start.SingleValued types e a
  whole : ∀ d ∈ all, d.added = true → d.e = e → d.a = a →
    ∀ r ∈ start.current, r.e = e → r.a = a → r.v.valueType = d.v.valueType →
      r.v.WholeSecond ∨ r.v = d.v

/-- A live row of an asserted entity and attribute is retracted. -/
def Superseded (types : ValueType → Prop) (rows : List LogRow) (db : Db) (e a : Int64) : Prop :=
  ∀ x ∈ rows, x.added = true → x.e = e → x.a = a → types x.v.valueType →
    ∀ y ∈ db.current, y.e = e → y.a = a → y.v.valueType = x.v.valueType →
      ∃ z ∈ rows, z.triple = y.triple

theorem QueueStep.superseded (h : QueueStep c all tx scan db rows d db' rows') (hd : d ∈ all)
    (hread : ReadBack types c all start e a) (hcur : ∀ r ∈ db.current, r ∈ start.current)
    (hsup : Superseded types rows db e a) : Superseded types rows' db' e a := by
  intro x hx hadded hxe hxa htypes y hy hye hya htype
  have hydb : y ∈ db.current := h.current_subset y hy
  by_cases hold : x ∈ rows
  · obtain ⟨z, hz, hzy⟩ := hsup x hold hadded hxe hxa htypes y hydb hye hya htype
    exact ⟨z, h.rows_subset z hz, hzy⟩
  obtain rfl := h.eq_row_of_new hx hold hadded
  have hone {info : SchemaRow} (hv : Validated c all scan db d info) : info.cardinality = .one :=
    hread.one info (hxa ▸ hv.attr)
  -- the round asserts `d`, so it has looked for a live row of `d`'s type
  cases h with
  | retract h => exact absurd hadded (Bool.eq_false_iff.mp h)
  | skipOne | skipMany => exact absurd hx hold
  | assertOne _ _ _ hnone =>
    exact absurd htype (firstCurrent_eq_none hnone hydb (hye.trans hxe.symm) (hya.trans hxa.symm))
  | replaceOne _ _ _ hold' =>
    obtain ⟨r, hr, hparse⟩ := hold'
    obtain ⟨hmem, he, ha, hrtype⟩ := firstCurrent_eq_some hr
    have hry : r = y := hread.single r (hcur r hmem) y (hcur y hydb) (he.trans hxe)
      (ha.trans hxa) hye hya (hrtype.trans htype.symm) (hrtype ▸ htypes)
    rcases hread.whole d hd hadded hxe hxa r (hcur r hmem) (he.trans hxe) (ha.trans hxa)
      hrtype with hwhole | hv
    · rw [← hrtype, parseFromTag_projectionText hwhole] at hparse
      cases hparse
      refine ⟨_, mem_append_left _ (mem_append_right _ mem_cons_self), ?_⟩
      rw [← hry, LogRow.triple, CurrentRow.triple, he, ha]
    · refine ⟨_, hx, ?_⟩
      rw [← hry, LogRow.triple, CurrentRow.triple, he, ha, hv]
      rfl
  | assertMany hv hmany => exact absurd ((hone hv).symm.trans hmany) (by decide)
  | pruneOne =>
    have hkeep := (mem_filter.mp hy).2
    simp [CurrentRow.isEa, hye.trans hxe.symm, hya.trans hxa.symm, htype, PendingDatom.row] at hkeep
  | pruneMany hv hmany => exact absurd ((hone hv).symm.trans hmany) (by decide)

theorem QueueRun.superseded (h : QueueRun c all tx scan start done db rows)
    (hdone : ∀ d ∈ done, d ∈ all) (hread : ReadBack types c all start e a) :
    Superseded types rows db e a := by
  induction h with
  | nil => exact fun x hx => nomatch hx
  | snoc hrun hstep ih =>
    refine hstep.superseded (hdone _ (by simp)) hread hrun.current_subset (ih fun d hd => ?_)
    exact hdone d (mem_append_left _ hd)

theorem ReadBack.live_of_readsBack (hread : ReadBack types c all start d.e d.a)
    (hcur : ∀ r ∈ db.current, r ∈ start.current) (hd : d ∈ all) (hadded : d.added = true)
    (h : ReadsBack scan db d d.v) : db.Live d.triple := by
  obtain ⟨r, hr, hparse⟩ := h
  obtain ⟨hmem, he, ha, hrtype⟩ := firstCurrent_eq_some hr
  have hv : r.v = d.v := by
    refine (hread.whole d hd hadded rfl rfl r (hcur r hmem) he ha hrtype).elim
      (fun hwhole => ?_) id
    rw [← hrtype, parseFromTag_projectionText hwhole] at hparse
    exact Except.ok.inj hparse
  exact ⟨r, hmem, by rw [CurrentRow.triple, he, ha, hv]; rfl⟩

/-- The value is queued or still live. -/
def Present (rows : List LogRow) (db : Db) (k : Triple) : Prop :=
  (∃ x ∈ rows, x.triple = k) ∨ db.Live k

theorem QueueStep.present {v : TypedValue} (h : QueueStep c all tx scan db rows d db' rows')
    (hread : ReadBack types c all start e a) (hcur : ∀ r ∈ db.current, r ∈ start.current)
    (hd : d ∈ all) (honly : d.e = e → d.a = a → d = ⟨e, a, v, true⟩)
    (hpre : Present rows db (e, a, v) ∨ d = ⟨e, a, v, true⟩) : Present rows' db' (e, a, v) := by
  by_cases hdv : d = ⟨e, a, v, true⟩
  · subst hdv
    have hrow : ∀ {rs : List LogRow}, Present (rs ++ [PendingDatom.row ⟨e, a, v, true⟩ tx]) db'
        (e, a, v) := fun {rs} =>
      .inl ⟨_, mem_append_right rs mem_cons_self, rfl⟩
    cases h with
    | skipOne _ _ hskip => exact .inr (hread.live_of_readsBack hcur hd rfl hskip)
    | skipMany _ _ hlive => exact .inr hlive
    | _ => exact hrow
  · rcases hpre.resolve_right hdv with ⟨x, hx, hxk⟩ | ⟨r, hr, hrk⟩
    · exact .inl ⟨x, h.rows_subset x hx, hxk⟩
    · refine .inr ⟨r, ?_, hrk⟩
      cases h with
      | pruneOne =>
        refine mem_filter.mpr ⟨hr, ?_⟩
        have hother : ¬ (d.e = e ∧ d.a = a) := fun h => hdv (honly h.1 h.2)
        simp only [CurrentRow.triple, Prod.mk.injEq] at hrk
        simp only [CurrentRow.isEa, hrk, Bool.not_eq_true', decide_eq_false_iff_not]
        exact fun h => hother ⟨h.1.symm, h.2.1.symm⟩
      | _ => exact hr

theorem QueueRun.present {v : TypedValue} (h : QueueRun c all tx scan start done db rows)
    (hdone : ∀ d ∈ done, d ∈ all) (hread : ReadBack types c all start e a)
    (honly : ∀ d ∈ all, d.e = e → d.a = a → d = ⟨e, a, v, true⟩)
    (hmem : ⟨e, a, v, true⟩ ∈ done) : Present rows db (e, a, v) := by
  induction h with
  | nil => exact nomatch hmem
  | snoc hrun hstep ih =>
    have hlast := hdone _ (mem_append_right _ mem_cons_self)
    refine hstep.present hread hrun.current_subset hlast (honly _ hlast) ?_
    rcases mem_append.mp hmem with hmem | hmem
    · exact .inl (ih (fun d hd => hdone d (mem_append_left _ hd)) hmem)
    · exact .inr (mem_singleton.mp hmem).symm

end Queue

section Commit

variable {call : Call} {db mid loop db' : Db} {rows : List LogRow} {e a : Int64}
  {types : ValueType → Prop}

theorem wholeSecond_of_ne {v : TypedValue} (h : v.valueType ≠ .instant) : v.WholeSecond := by
  cases v with
  | instant micros => exact absurd rfl h
  | _ => trivial

namespace Committed

variable (h : Committed call db mid loop db' rows)

include h

theorem readBack (hone : db'.DeclaredOne a) (hcall : call.ReadsExactly db e a)
    (hsingle : db.SingleValued types e a) :
    ReadBack types mid.cache (call.pending db) mid e a where
  one := h.cache_eq ▸ hone
  single := by
    have hnew {x y : CurrentRow} (hx : x = call.instantRow) (hy : y ∈ db.current)
        (hne : y.triple ≠ call.instantRow.triple) (hxe : x.e = e) (hxa : x.a = a) (hye : y.e = e)
        (hya : y.a = a) (htype : y.v.valueType = .instant) : False := by
      subst hx
      have hv := hcall.2 ⟨hxe, hxa⟩ y hy ⟨hye, hya, htype⟩
      apply hne
      rw [CurrentRow.triple, CurrentRow.triple, hye, hya, hv, hxe, hxa]
    intro x hx y hy hxe hxa hye hya htype htypes
    rcases h.mem_mid_current.mp hx with hx | ⟨hx, hxne⟩ <;>
      rcases h.mem_mid_current.mp hy with hy | ⟨hy, hyne⟩
    · exact hx.trans hy.symm
    · exact (hnew hx hy hyne hxe hxa hye hya (htype ▸ hx ▸ rfl)).elim
    · exact (hnew hy hx hxne hye hya hxe hxa (htype ▸ hy ▸ rfl)).elim
    · exact hsingle x hx y hy hxe hxa hye hya htype htypes
  whole := by
    intro d hd hadded he ha r hr hre hra htype
    by_cases hinst : d.v.valueType = .instant
    · refine hcall.1 d hd ⟨hadded, he, ha, hinst⟩ r (mem_cons.mpr ?_) hre hra
      exact (h.mem_mid_current.mp hr).imp_right And.left
    · exact .inl (wholeSecond_of_ne (htype ▸ hinst))

theorem asserted_of_lastRow {k : Triple} {r : LogRow} (hlast : lastRow rows k = some r)
    (hadded : r.added = true) :
    ∃ d ∈ call.pending db, ∃ info, Checked mid.cache (call.pending db) d info ∧
      r = d.row call.backend.txId ∧ d.triple = k := by
  obtain ⟨hr, hk⟩ := mem_of_lastRow hlast
  obtain ⟨d, hd, info, hc, rfl⟩ := (h.origin r hr).of_added hadded
  exact ⟨d, hd, info, hc, rfl, hk⟩

theorem singleValued (hread : ReadBack types mid.cache (call.pending db) mid e a) :
    db'.SingleValued types e a := by
  have hsup := h.run.superseded (fun _ hd => hd) hread
  -- a live row that the call has written and one that it has left alone
  have hmixed {x y : CurrentRow} {r : LogRow} (hlast : lastRow rows x.triple = some r)
      (hadded : r.added = true) (hnone : lastRow rows y.triple = none) (hy : y ∈ loop.current)
      (hxe : x.e = e) (hxa : x.a = a) (hye : y.e = e) (hya : y.a = a)
      (htype : y.v.valueType = x.v.valueType) (htypes : types x.v.valueType) : False := by
    obtain ⟨hr, hk⟩ := mem_of_lastRow hlast
    simp only [LogRow.triple, CurrentRow.triple, Prod.mk.injEq] at hk
    obtain ⟨hre, hra, hrv⟩ := hk
    obtain ⟨z, hz, hzy⟩ := hsup r hr hadded (hre.trans hxe) (hra.trans hxa) (hrv ▸ htypes) y hy
      hye hya (hrv ▸ htype)
    exact lastRow_eq_none.mp hnone z hz hzy
  intro x hx y hy hxe hxa hye hya htype htypes
  rcases (h.projection x).mp hx with ⟨r, hr, hradded, hrtx⟩ | ⟨hxnone, hx⟩ <;>
    rcases (h.projection y).mp hy with ⟨r', hr', hradded', hrtx'⟩ | ⟨hynone, hy⟩
  · obtain ⟨d, hd, info, hc, rfl, hdx⟩ := h.asserted_of_lastRow hr hradded
    obtain ⟨d', hd', info', hc', rfl, hdy⟩ := h.asserted_of_lastRow hr' hradded'
    simp only [PendingDatom.triple, CurrentRow.triple, Prod.mk.injEq] at hdx hdy
    have hone := hread.one info (hdx.2.1.trans hxa ▸ hc.attr)
    have heq := hc.eq_of_ea hone hd hd' hc'.added (by rw [hdx.1, hdy.1, hxe, hye])
      (by rw [hdx.2.1, hdy.2.1, hxa, hya])
    subst heq
    refine CurrentRow.eq_iff.mpr ⟨?_, hrtx.trans hrtx'.symm⟩
    rw [CurrentRow.triple, CurrentRow.triple, ← hdx.1, ← hdx.2.1, ← hdx.2.2, ← hdy.1, ← hdy.2.1,
      ← hdy.2.2]
  · exact (hmixed hr hradded hynone hy hxe hxa hye hya htype.symm htypes).elim
  · exact (hmixed hr' hradded' hxnone hx hye hya hxe hxa htype (htype ▸ htypes)).elim
  · exact hread.single x (h.run.current_subset x hx) y (h.run.current_subset y hy) hxe hxa hye hya
      htype htypes

theorem live_of_assertsOnly (hread : ReadBack types mid.cache (call.pending db) mid e a)
    {v : TypedValue} (hself : v.partialEq v = false → ∀ r ∈ mid.current, ¬ (r.e = e ∧ r.a = a))
    (honly : call.AssertsOnly db e a v) : db'.Live (e, a, v) := by
  have hpresent := h.run.present (fun _ hd => hd) hread honly.2 honly.1
  cases hlast : lastRow rows (e, a, v) with
  | none =>
    rcases hpresent with ⟨x, hx, hk⟩ | ⟨r, hr, hk⟩
    · exact absurd hk (lastRow_eq_none.mp hlast x hx)
    · exact ⟨r, (h.projection r).mpr (.inr ⟨hk ▸ hlast, hr⟩), hk⟩
  | some r =>
    refine (h.live_iff_of_lastRow hlast).mpr ?_
    obtain ⟨hr, hk⟩ := mem_of_lastRow hlast
    simp only [LogRow.triple, Prod.mk.injEq] at hk
    cases h.origin r hr with
    | retracted hd hretract =>
      rw [honly.2 _ hd hk.1 hk.2.1] at hretract
      cases hretract
    | asserted hd hc => exact hc.added
    | replaced hd _ _ _ hr' he ha _ _ hne =>
      rw [honly.2 _ hd hk.1 hk.2.1] at hne
      dsimp only at hk hne
      rw [hk.2.2] at hne
      exact absurd ⟨he.trans hk.1, ha.trans hk.2.1⟩ (hself hne _ hr')

end Committed

end Commit

/-- In a run in which the attribute is single-valued wherever it is declared, and in which every
call reads the live values of the entity and attribute exactly, each table has at most one row for
them; a further such call that only asserts a value leaves that value as the only row. -/
theorem singleValued_of_readsExactly {e a : Int64} {db : Db}
    (hrun : Reaches (fun d call d' => d'.DeclaredOne a ∧ call.ReadsExactly d e a) bootstrapDb db) :
    db.SingleValued (· ≠ .double) e a ∧
    ∀ call report db' v, mentatTransact call db = .ok (report, db') → db'.DeclaredOne a →
      call.ReadsExactly db e a → v.valueType ≠ .double → call.AssertsOnly db e a v →
      db'.Live (e, a, v) ∧ ∀ r ∈ db'.current, r.e = e → r.a = a →
        r.v.valueType = v.valueType → r.v = v := by
  have hsingle : db.SingleValued (· ≠ .double) e a := by
    refine hrun.invariant (I := fun d => d.SingleValued (· ≠ .double) e a) ?_
      fun x hx => nomatch hx
    intro mid db' call report hsingle hcall ⟨hone, hreads⟩
    obtain ⟨_, _, _, h⟩ := mentatTransact_committed hcall
    exact h.singleValued (h.readBack hone hreads hsingle)
  refine ⟨hsingle, fun call report db' v hcall hone hreads hdouble honly => ?_⟩
  obtain ⟨_, _, _, h⟩ := mentatTransact_committed hcall
  have hread := h.readBack hone hreads hsingle
  have hself : v.partialEq v = true := by
    have hnan : v ≠ .double .nan := fun hv => hdouble (hv ▸ rfl)
    simp [partialEq, hnan]
  have hlive := h.live_of_assertsOnly hread (fun h => absurd hself (Bool.eq_false_iff.mp h)) honly
  refine ⟨hlive, fun r hr he ha htype => ?_⟩
  obtain ⟨x, hx, hk⟩ := hlive
  simp only [CurrentRow.triple, Prod.mk.injEq] at hk
  have heq := h.singleValued hread r hr x hx he ha hk.1 hk.2.1 (hk.2.2 ▸ htype)
    (fun h => hdouble (htype ▸ h))
  exact heq ▸ hk.2.2

instance (db : Db) (a : Int64) : Decidable (db.DeclaredOne a) :=
  inferInstanceAs (Decidable (∀ info ∈ db.cache.getAttribute a, info.cardinality = .one))

instance (v : TypedValue) (rows : List CurrentRow) (e a : Int64) :
    Decidable (WholeSecondsBut v rows e a) :=
  inferInstanceAs (Decidable (∀ r ∈ rows, r.e = e → r.a = a → r.v.WholeSecond ∨ r.v = v))

instance (call : Call) (db : Db) (e a : Int64) : Decidable (call.ReadsExactly db e a) :=
  inferInstanceAs (Decidable (_ ∧ _))

instance (call : Call) (db : Db) (e a : Int64) (v : TypedValue) :
    Decidable (call.AssertsOnly db e a v) :=
  inferInstanceAs (Decidable (_ ∧ _))

instance (db : Db) (p : ValueType → Prop) [DecidablePred p] (e a : Int64) :
    Decidable (db.SingleValued p e a) :=
  inferInstanceAs (Decidable (∀ x ∈ _, ∀ y ∈ _, _))

/-- `:event/at` is a single-valued instant. -/
def defineEventAt : Call :=
  defineCall 1000000000001 1735689600000000 1000001
    [("ident", .namespaced "event" "at"), ("valueType", .namespaced "db.type" "instant"),
     ("cardinality", .namespaced "db.cardinality" "one")]

def addEventAt (tx micros : Int64) : Call :=
  plainCall tx 1735689601000000 [addDatom 500 1000001 (.instant micros)]

/-- An event moved from one whole second to a fraction of another. -/
theorem singleValued_of_readsExactly_event :
    ∃ db report db', stateAfter [defineEventAt, addEventAt 1000000000002 1735689602000000] =
        some db ∧
      mentatTransact (addEventAt 1000000000003 1735689603250000) db = .ok (report, db') ∧
      db'.Live (500, 1000001, .instant 1735689603250000) ∧
      ∀ r ∈ db'.current, r.e = 500 → r.a = 1000001 →
        r.v.valueType = .instant → r.v = .instant 1735689603250000 := by
  have hmeets : RunMeets (fun d call d' => d'.DeclaredOne 1000001 ∧ call.ReadsExactly d 500 1000001)
      [defineEventAt, addEventAt 1000000000002 1735689602000000] bootstrapDb := by
    decide +kernel
  have hstate : ∃ db, stateAfter [defineEventAt, addEventAt 1000000000002 1735689602000000] =
      some db ∧ RunMeets (fun d call d' => d'.DeclaredOne 1000001 ∧
        call.ReadsExactly d 500 1000001 ∧
        call.AssertsOnly d 500 1000001 (.instant 1735689603250000))
        [addEventAt 1000000000003 1735689603250000] db := by
    decide +kernel
  obtain ⟨db, hdb, hrun, hcall⟩ := hmeets.exists_reaches hstate
  obtain ⟨report, db', hok, hone, hreads, honly⟩ := hcall.head
  exact ⟨db, report, db', hdb, hok,
    (singleValued_of_readsExactly hrun).2 _ _ _ _ hok hone hreads (by decide) honly⟩

/-- A quarter second is rounded away when the old value is read back, so both instants are live. -/
theorem not_singleValued_fraction :
    ∃ db, Reaches (fun _ _ d' => d'.DeclaredOne 1000001) bootstrapDb db ∧
      db.Live (500, 1000001, .instant 1735689602250000) ∧
      db.Live (500, 1000001, .instant 1735689603000000) ∧
      ¬ db.SingleValued (· ≠ .double) 500 1000001 := by
  have hmeets : RunMeets (fun _ _ d' => d'.DeclaredOne 1000001)
      [defineEventAt, addEventAt 1000000000002 1735689602250000,
        addEventAt 1000000000003 1735689603000000] bootstrapDb := by
    decide +kernel
  have hstate : ∃ db, stateAfter [defineEventAt, addEventAt 1000000000002 1735689602250000,
        addEventAt 1000000000003 1735689603000000] = some db ∧
      db.Live (500, 1000001, .instant 1735689602250000) ∧
      db.Live (500, 1000001, .instant 1735689603000000) ∧
      ¬ db.SingleValued (· ≠ .double) 500 1000001 := by
    decide +kernel
  obtain ⟨db, -, hrun, hfacts⟩ := hmeets.exists_reaches hstate
  exact ⟨db, hrun, hfacts⟩

end PgMentat

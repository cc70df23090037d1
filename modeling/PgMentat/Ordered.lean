import PgMentat.Cas
import PgMentat.Timestamp
import PgMentat.Transact.Success

namespace PgMentat

open List StatementProgram Program KeyedTable TypedValue

/-- `[:db/add e attr value]` or `[:db/retract e attr value]`. -/
def opEntity (added : Bool) (e : Int64) (attr value : EdnValue) : EdnValue :=
  .vector [.keyword (.namespaced "db" (if added then "add" else "retract")),
    .integer e, attr, value]

/-- The element spells the datom: a literal entity id, a known attribute, and a value that needs
neither a lookup nor a fresh id. -/
def Spells (c : SchemaCache) (entity : EdnValue) (d : PendingDatom) : Prop :=
  ∃ attr value, entity = opEntity d.added d.e attr value ∧
    resolveAttribute c attr = .ok d.a ∧ EncodesTo c d.a value d.v

def PendingDatom.IsMany (c : SchemaCache) (d : PendingDatom) : Prop :=
  ∃ info, c.getAttribute d.a = some info ∧ info.cardinality = .many ∧
    info.uniqueConstraint = none ∧ d.v.valueType = info.valueType

def schemaDefining : List Int64 :=
  [Entids.dbIdent, Entids.dbValueType, Entids.dbCardinality, Entids.dbUnique, Entids.dbIndex,
    Entids.dbFulltext, Entids.dbComponent, Entids.dbNoHistory, Entids.dbIsComponent]

/-- The call is the list of elements `ops`, with a transaction id that is new. Instants are stored
as they are given, and no two elements give one attribute of an entity a double zero: `0.0` and
`-0.0`, here one value, are one key of the tables under two literals. -/
structure Call.Performs (call : Call) (db : Db) (ops : List PendingDatom) : Prop where
  document : ∃ entities, call.document = .vector entities ∧
    List.Forall₂ (Spells db.cache) entities ops
  many : ∀ d ∈ ops, d.IsMany db.cache
  stored : ∀ d ∈ ops, d.v.Stored
  zeros : ops.Pairwise fun d d' => d.e = d'.e → d.a = d'.a → d.v = .double .zero →
    d'.v ≠ .double .zero
  tx_new : ∀ r ∈ db.transactions, r.tx ≠ call.backend.txId

def lastOp (ops : List PendingDatom) (k : Triple) : Option PendingDatom :=
  (ops.filter fun d => d.triple = k).getLast?

/-- The call succeeds, the last element on a triple decides whether it is live, and no other triple
changes but the transaction's own instant. -/
def Call.InOrder (call : Call) (db : Db) (ops : List PendingDatom) : Prop :=
  ∃ report db', mentatTransact call db = .ok (report, db') ∧
    (∀ k d, lastOp ops k = some d → (db'.Live k ↔ d.added = true)) ∧
    ∀ k, lastOp ops k = none → k ≠ call.instantRow.triple → (db'.Live k ↔ db.Live k)

/-- A triple that is both asserted and retracted is live before, and retracted last. -/
def Call.RetractsLast (call : Call) (db : Db) (ops : List PendingDatom) : Prop :=
  ∀ d ∈ ops, ∀ d' ∈ ops, d.added = true → d'.added = false → d'.triple = d.triple →
    (db.Live d.triple ∨ d.triple = call.instantRow.triple) ∧
      ∀ last ∈ lastOp ops d.triple, last.added = false

variable {k : Triple}

theorem mem_of_lastOp {ops : List PendingDatom} {d : PendingDatom} (h : lastOp ops k = some d) :
    d ∈ ops ∧ d.triple = k := by
  have hmem := mem_of_getLast? h
  simpa using hmem

theorem lastOp_eq_none {ops : List PendingDatom} :
    lastOp ops k = none ↔ ∀ d ∈ ops, d.triple ≠ k := by
  simp [lastOp]

section Passes

variable {c : SchemaCache} {entities : List EdnValue} {ops : List PendingDatom}

theorem collectSchemaAssertion_eq {e a : Int64} {value : EdnValue}
    {builders : EntidMap SchemaBuilder} (h : a ∉ schemaDefining) :
    collectSchemaAssertion e a value builders = builders := by
  simp only [schemaDefining, mem_cons, not_mem_nil, or_false, not_or] at h
  unfold collectSchemaAssertion
  split <;> simp [h]

variable {entity : EdnValue} {d : PendingDatom}

theorem scanEntity_op (h : Spells c entity d) (hquiet : d.added = true → d.a ∉ schemaDefining)
    (st : ScanState) (n : Nat) : scanEntity c st (entity, n) = .ret st := by
  obtain ⟨attr, value, rfl, hattr, -⟩ := h
  cases hadded : d.added with
  | false => simp [scanEntity, opEntity, Keyword.namespaced]
  | true =>
    have hresolve : tryResolveAttribute c attr = some d.a := by
      unfold resolveAttribute at hattr
      unfold tryResolveAttribute
      grind
    simp [scanEntity, opEntity, Keyword.namespaced, resolveEntityPlace, hresolve,
      collectSchemaAssertion_eq (hquiet hadded)]

theorem scanEntities_ops (h : Forall₂ (Spells c) entities ops)
    (hquiet : ∀ d ∈ ops, d.added = true → d.a ∉ schemaDefining) :
    scanEntities c entities = .ret {} := by
  suffices hgen : ∀ n st, (entities.zipIdx n).foldlM (scanEntity c) st = .ret st from hgen 0 {}
  induction h with
  | nil => exact fun _ _ => rfl
  | @cons entity d entities ops hd _ ih =>
    intro n st
    rw [zipIdx_cons, foldlM_cons, scanEntity_op hd (hquiet d mem_cons_self),
      ret_bind]
    exact ih (fun d' hd' => hquiet d' (mem_cons_of_mem d hd')) (n + 1) st

theorem expandEntity_op (h : Spells c entity d) (depth : Nat) (ids : List (Nat × Int64))
    (st : ExpandState) (n : Nat) : expandEntity c depth ids st (entity, n) = .ret (st.push d) := by
  obtain ⟨e, a, v, added⟩ := d
  obtain ⟨attr, value, rfl, hattr, hv⟩ := h
  have hdatom : expandDatom c st (.integer e) attr value added =
      .ret (st.push ⟨e, a, v, added⟩) := by
    simp only [expandDatom, resolveEntityPlace, hattr, pure_eq_ret, ret_bind,
      Program.ofExcept, hv _]
  cases added <;> exact hdatom

theorem expandEntities_ops (h : Forall₂ (Spells c) entities ops) (depth : Nat) :
    expandEntities c depth {} entities = .ret ⟨[], ops⟩ := by
  suffices hgen : ∀ n st, (entities.zipIdx n).foldlM (expandEntity c depth []) st =
      .ret { st with pending := st.pending ++ ops } from hgen 0 { tempids := [] }
  induction h with
  | nil => exact fun _ _ => by simp
  | @cons entity d entities ops hd _ ih =>
    intro n st
    rw [zipIdx_cons, foldlM_cons, expandEntity_op hd, ret_bind, ih]
    simp [ExpandState.push]

theorem IsMany.not_identity (h : d.IsMany c) : isIdentityAssertion c d = false := by
  obtain ⟨info, hinfo, -, hunique, -⟩ := h
  simp [isIdentityAssertion, hinfo, hunique]

theorem prepareDatoms_ops {b : Backend} {db : Db} {depth : Nat}
    (h : Forall₂ (Spells db.cache) entities ops) (hmany : ∀ d ∈ ops, d.IsMany db.cache)
    (hquiet : ∀ d ∈ ops, d.added = true → d.a ∉ schemaDefining) :
    server.run (prepareDatoms depth entities) b db = .ok (⟨db.cache, [], ops, false⟩, b, db) := by
  have hselect : server.run (spi .selectSchema) b db = .ok (db.cache, b, db) := rfl
  have hresolve : resolveUpserts db.cache ⟨[], ops⟩ = .ret ⟨[], ops⟩ :=
    resolveUpserts_eq_ret fun d hd => IsMany.not_identity (hmany d hd)
  unfold prepareDatoms
  rw [Server.run_bind, hselect]
  dsimp only
  rw [scanEntities_ops h hquiet, ret_bind, installSchemaAttributes, foldlM_nil,
    pure_eq_ret, ret_bind, Server.run_bind, hselect]
  dsimp only
  rw [expandEntities_ops h, ret_bind, hresolve]
  rfl

theorem beginTransaction_ops {call : Call} {db : Db} (h : call.Performs db ops)
    (hquiet : ∀ d ∈ ops, d.added = true → d.a ∉ schemaDefining)
    (hdoc : call.document = .vector entities) :
    ∃ ids b, server.run (beginTransaction call.backend.stackDepth entities) call.backend db =
      .ok ((ids, ⟨db.cache, [], ops, false⟩), b, db.begun call.backend) := by
  obtain ⟨entities', hdoc', hspells⟩ := h.document
  cases hdoc.symm.trans hdoc'
  have hspells' : Forall₂ (Spells (db.begun call.backend).cache) entities ops := hspells
  rw [beginTransaction_run h.tx_new, prepareDatoms_ops hspells' h.many hquiet]
  exact ⟨_, _, rfl⟩

end Passes

section Rows

variable {c : SchemaCache} {all done ops : List PendingDatom} {tx : Int64} {scan : ScanOrder}
  {start db : Db} {rows : List LogRow}

/-- The datom is queued: every retraction is, an assertion only if its triple is not live. -/
def PendingDatom.Queued (db : Db) (d : PendingDatom) : Prop := d.added = true → ¬ db.Live d.triple

theorem QueueRun.mem_rows_of_many (h : QueueRun c all tx scan start done db rows)
    (hmany : ∀ d ∈ done, d.IsMany c) :
    db.current = start.current ∧
      ∀ r, r ∈ rows ↔ ∃ d ∈ done, d.Queued start ∧ r = d.row tx := by
  induction h with
  | nil => simp
  | @snoc done db rows d db' rows' hrun hstep ih =>
    obtain ⟨hcur, hrows⟩ := ih fun d' hd' => hmany d' (mem_append_left [d] hd')
    obtain ⟨info, hinfo, hcard, -⟩ := hmany d (mem_append_right done mem_cons_self)
    have hlive : db.Live d.triple ↔ start.Live d.triple := by rw [Db.Live, Db.Live, hcur]
    -- a round on a many-valued attribute queues its own row or nothing
    have hpush (hq : d.Queued start) (r : LogRow) :
        r ∈ rows ++ [d.row tx] ↔ ∃ d' ∈ done ++ [d], d'.Queued start ∧ r = d'.row tx := by
      rw [mem_append, hrows, mem_singleton]
      constructor
      · rintro (⟨d', hd', hr⟩ | rfl)
        · exact ⟨d', mem_append_left [d] hd', hr⟩
        · exact ⟨d, mem_append_right done mem_cons_self, hq, rfl⟩
      · rintro ⟨d', hd', hq', rfl⟩
        rcases mem_append.mp hd' with hd' | hd'
        · exact .inl ⟨d', hd', hq', rfl⟩
        · exact .inr (by rw [mem_singleton.mp hd'])
    have hskip (hadded : d.added = true) (hl : db.Live d.triple) (r : LogRow) :
        r ∈ rows ↔ ∃ d' ∈ done ++ [d], d'.Queued start ∧ r = d'.row tx := by
      rw [hrows]
      constructor
      · rintro ⟨d', hd', hr⟩
        exact ⟨d', mem_append_left [d] hd', hr⟩
      · rintro ⟨d', hd', hq', hr⟩
        rcases mem_append.mp hd' with hd' | hd'
        · exact ⟨d', hd', hq', hr⟩
        · rw [mem_singleton.mp hd'] at hq'
          exact absurd (hlive.mp hl) (hq' hadded)
    cases hstep with
    | retract hadded => exact ⟨hcur, hpush fun h => absurd h (Bool.eq_false_iff.mp hadded)⟩
    | skipMany hv _ hl => exact ⟨hcur, hskip hv.added hl⟩
    | assertMany _ _ _ hnew | pruneMany _ _ _ hnew => exact ⟨hcur, hpush fun _ => mt hlive.mpr hnew⟩
    | skipOne hv hone _ =>
      cases hcard.symm.trans (Option.some.inj (hinfo.symm.trans hv.attr) ▸ hone)
    | assertOne hv hone =>
      cases hcard.symm.trans (Option.some.inj (hinfo.symm.trans hv.attr) ▸ hone)
    | replaceOne hv hone =>
      cases hcard.symm.trans (Option.some.inj (hinfo.symm.trans hv.attr) ▸ hone)
    | pruneOne hv hone => cases hcard.symm.trans (Option.some.inj (hinfo.symm.trans hv.attr) ▸ hone)

theorem mem_dedupRows_of_many (hmany : ∀ d ∈ ops, d.IsMany c)
    (hrows : ∀ r ∈ rows, ∃ d ∈ ops, r.triple = d.triple) {r : LogRow} (hr : r ∈ rows) :
    r ∈ dedupRows rows := by
  have htyped : ∀ x ∈ rows, ∃ info, c.getAttribute x.a = some info ∧
      x.v.valueType = info.valueType := by
    intro x hx
    obtain ⟨d, hd, hk⟩ := hrows x hx
    obtain ⟨info, hinfo, -, -, htype⟩ := hmany d hd
    simp only [LogRow.triple, PendingDatom.triple, Prod.mk.injEq] at hk
    rw [← hk.2.1] at hinfo
    rw [← hk.2.2] at htype
    exact ⟨info, hinfo, htype⟩
  by_contra hdrop
  obtain ⟨y, hy, hkey, hv⟩ := exists_of_not_mem_dedupRows hr hdrop
  simp only [LogRow.literalKey, Prod.mk.injEq] at hkey
  obtain ⟨info, hinfo, htype⟩ := htyped r hr
  obtain ⟨info', hinfo', htype'⟩ := htyped y hy
  rw [hkey.2.1, hinfo] at hinfo'
  cases hinfo'
  exact hv (eq_of_sqlLiteral_eq (htype.trans htype'.symm) hkey.2.2.1.symm)

end Rows

section Call

variable {call : Call} {db mid loop db' : Db} {rows : List LogRow} {ops : List PendingDatom}

structure Commits (call : Call) (db mid loop db' : Db) (rows : List LogRow)
    (ops : List PendingDatom) : Prop extends Committed call db mid loop db' rows where
  many : ∀ d ∈ ops, d.IsMany mid.cache
  current_eq : loop.current = mid.current
  mem_rows : ∀ r, r ∈ rows ↔ ∃ d ∈ ops, d.Queued mid ∧ r = d.row call.backend.txId

variable {b : Backend} {k : Triple} {d : PendingDatom}

theorem Commits.of_begin {entities : List EdnValue} {ids : TxIds} {b' : Backend}
    (hops : ∀ d ∈ ops, d.IsMany db.cache) (hdoc : call.document = .vector entities)
    (hbegin : server.run (beginTransaction call.backend.stackDepth entities) call.backend db =
      .ok ((ids, ⟨db.cache, [], ops, false⟩), b, db.begun call.backend))
    (hinsert : server.run (insertDatoms db.cache ops ids.tx) b (db.begun call.backend) =
      .ok ((), b', db')) :
    ∃ loop rows, Commits call db (db.begun call.backend) loop db' rows ops := by
  obtain ⟨loop, rows, hcommitted⟩ := committed_of_begin hdoc hbegin hinsert
  have hpending : call.pending db = ops := by rw [Call.pending, Call.prepared_eq hdoc hbegin]
  have hrun := hcommitted.run
  rw [hpending] at hrun
  have hmany := hrun.mem_rows_of_many hops
  exact ⟨loop, rows, ⟨hcommitted, hops, hmany.1, hmany.2⟩⟩

namespace Commits

variable (h : Commits call db mid loop db' rows ops)

include h

theorem loop_live_iff : loop.Live k ↔ mid.Live k := by
  rw [Db.Live, Db.Live, h.current_eq]

theorem queued_of_lastRow {r : LogRow} (hlast : lastRow rows k = some r) :
    ∃ d ∈ ops, d.triple = k ∧ d.Queued mid ∧ r.added = d.added := by
  obtain ⟨hr, hk⟩ := mem_of_lastRow hlast
  obtain ⟨d, hd, hq, rfl⟩ := (h.mem_rows r).mp hr
  exact ⟨d, hd, hk, hq, rfl⟩

theorem exists_lastRow (hd : d ∈ ops) (hq : d.Queued mid) :
    ∃ r, lastRow rows d.triple = some r := by
  cases hlast : lastRow rows d.triple with
  | some r => exact ⟨r, rfl⟩
  | none =>
    have hrow := (h.mem_rows (d.row call.backend.txId)).mpr ⟨d, hd, hq, rfl⟩
    exact absurd rfl (lastRow_eq_none.mp hlast _ hrow)

/-- A triple with both an assertion and a retraction can only be committed if it was live, and then
it is retracted, whatever the order. -/
theorem of_both {d' : PendingDatom} (hd : d ∈ ops) (hd' : d' ∈ ops) (hadded : d.added = true)
    (hretract : d'.added = false) (hk : d'.triple = d.triple) :
    mid.Live d.triple ∧ ¬ db'.Live d.triple := by
  have hq' : d'.Queued mid := fun h => absurd h (Bool.eq_false_iff.mp hretract)
  have hlive : mid.Live d.triple := by
    by_contra hnew
    have hmem {x : PendingDatom} (hx : x ∈ ops) (hq : x.Queued mid) :
        x.row call.backend.txId ∈ dedupRows rows := by
      have hrow := (h.mem_rows (x.row call.backend.txId)).mpr ⟨x, hx, hq, rfl⟩
      refine mem_dedupRows_of_many h.many (fun r hr => ?_) hrow
      obtain ⟨y, hy, -, rfl⟩ := (h.mem_rows r).mp hr
      exact ⟨y, hy, rfl⟩
    -- the batch would list the key with both flags
    have heq := h.log.1 _ (hmem hd fun _ => hnew) _ (hmem hd' hq')
      (congrArg (fun k => (k, call.backend.txId)) hk.symm)
    have hflag : d.added = d'.added := congrArg LogRow.added heq
    rw [hadded, hretract] at hflag
    cases hflag
  refine ⟨hlive, ?_⟩
  obtain ⟨r, hlast⟩ := h.exists_lastRow hd' hq'
  rw [hk] at hlast
  obtain ⟨x, hx, hxk, hxq, hr⟩ := h.queued_of_lastRow hlast
  rw [h.live_iff_of_lastRow hlast, hr]
  exact fun hxadded => hxq hxadded (hxk ▸ hlive)

theorem retractsLast (horder : ∀ k d, lastOp ops k = some d → (db'.Live k ↔ d.added = true)) :
    call.RetractsLast db ops := by
  intro d hd d' hd' hadded hretract hk
  obtain ⟨hlive, hgone⟩ := h.of_both hd hd' hadded hretract hk
  refine ⟨h.mid_live_iff.mp hlive, fun last hlast => ?_⟩
  exact Bool.eq_false_iff.mpr fun hlastadded => hgone ((horder _ last hlast).mpr hlastadded)

theorem live_iff_of_lastOp (hlast : call.RetractsLast db ops) (hd : lastOp ops k = some d) :
    db'.Live k ↔ d.added = true := by
  obtain ⟨hmem, rfl⟩ := mem_of_lastOp hd
  cases hrow : lastRow rows d.triple with
  | none =>
    -- no element was queued: all are assertions of a live triple
    have hnot : ¬ d.Queued mid := by
      intro hq
      obtain ⟨r, hr⟩ := h.exists_lastRow hmem hq
      cases hrow.symm.trans hr
    simp only [PendingDatom.Queued, Classical.not_imp, not_not] at hnot
    rw [h.live_iff_of_no_row hrow, h.loop_live_iff]
    exact iff_of_true hnot.2 hnot.1
  | some r =>
    obtain ⟨x, hx, hxk, hxq, hr⟩ := h.queued_of_lastRow hrow
    rw [h.live_iff_of_lastRow hrow, hr]
    cases hxadded : x.added <;> cases hdadded : d.added
    · exact Iff.rfl
    · have hcond := (hlast d hmem x hx hdadded hxadded hxk).2 d hd
      rw [hdadded] at hcond
      cases hcond
    · have hlive := (hlast x hx d hmem hxadded hdadded hxk.symm).1
      exact absurd (h.mid_live_iff.mpr hlive) (hxq hxadded)
    · exact Iff.rfl

theorem live_iff_of_not_mentioned (hk : lastOp ops k = none) (hown : k ≠ call.instantRow.triple) :
    db'.Live k ↔ db.Live k := by
  have hrow : lastRow rows k = none := by
    rw [lastRow_eq_none]
    intro r hr
    obtain ⟨d, hd, -, rfl⟩ := (h.mem_rows r).mp hr
    exact lastOp_eq_none.mp hk d hd
  rw [h.live_iff_of_no_row hrow, h.loop_live_iff, h.mid_live_iff, or_iff_left hown]

end Commits

theorem insertDatoms_completes_ops {tx : Int64} (hmany : ∀ d ∈ ops, d.IsMany mid.cache)
    (hboth : ∀ d ∈ ops, ∀ d' ∈ ops, d.added = true → d'.added = false → d'.triple = d.triple →
      mid.Live d.triple) : Completes (insertDatoms mid.cache ops tx) b mid := by
  apply insertDatoms_completes
  · intro done loop rows _ d hd hadded
    obtain ⟨info, hinfo, hcard, hunique, htype⟩ := hmany d hd
    refine ⟨info, ⟨⟨hadded, hinfo, htype, ?_, ?_⟩, ?_⟩, ?_⟩
    · exact fun hone => by cases hcard.symm.trans hone
    · exact fun hsome => absurd hunique hsome
    · exact fun hsome => absurd hunique hsome
    · exact fun hone => by cases hcard.symm.trans hone
  · intro loop rows hrun x hx y hy hxy
    have hrows := (hrun.mem_rows_of_many hmany).2
    obtain ⟨d, hd, hq, rfl⟩ := (hrows x).mp (mem_of_mem_dedupRows hx)
    obtain ⟨d', hd', hq', rfl⟩ := (hrows y).mp (mem_of_mem_dedupRows hy)
    have hk : d.triple = d'.triple := (Prod.mk.inj hxy).1
    have hflag : d.added = d'.added := by
      cases hadded : d.added <;> cases hadded' : d'.added
      · rfl
      · exact absurd (hboth d' hd' d hd hadded' hadded hk) (hq' hadded')
      · exact absurd (hboth d hd d' hd' hadded hadded' hk.symm) (hq hadded)
      · rfl
    simp only [PendingDatom.triple, Prod.mk.injEq] at hk
    simp only [PendingDatom.row, hk, hflag]

end Call

def installAttribute (added : Bool) (v : Int64) : PendingDatom := ⟨500, 61, .ref v, added⟩

/-- Assertions and retractions of `[500 :db.install/attribute v]`. -/
def installCall (tx : Int64) (ops : List (Bool × Int64)) : Call :=
  plainCall tx 1800000000000000 (ops.map fun op => opEntity op.1 500 (.integer 61) (.integer op.2))

theorem performs_installCall {db : Db} {tx : Int64} (ops : List (Bool × Int64))
    (hattr : db.cache.getAttribute 61 =
      some { bootstrapRow 61 ":db.install/attribute" .ref with cardinality := .many })
    (hnew : ∀ r ∈ db.transactions, r.tx ≠ tx) :
    (installCall tx ops).Performs db (ops.map fun op => installAttribute op.1 op.2) := by
  have hrefs : ∀ d ∈ ops.map fun op => installAttribute op.1 op.2, ∃ v, d.v = .ref v := by
    intro d hd
    obtain ⟨op, -, rfl⟩ := mem_map.mp hd
    exact ⟨op.2, rfl⟩
  refine ⟨⟨_, rfl, ?_⟩, ?_, fun d hd => ?_, ?_, hnew⟩
  · rw [List.forall₂_map_left_iff, List.forall₂_map_right_iff, List.forall₂_same]
    refine fun op _ => ⟨.integer 61, .integer op.2, rfl, rfl, fun tempids => ?_⟩
    have htype : lookupValueType db.cache 61 = some .ref := by rw [lookupValueType, hattr]; rfl
    simp only [installAttribute, encodeForAttribute, htype]
    rfl
  · intro d hd
    obtain ⟨op, -, rfl⟩ := mem_map.mp hd
    exact ⟨_, hattr, rfl, rfl, rfl⟩
  · obtain ⟨v, hv⟩ := hrefs d hd
    rw [hv]
    trivial
  · refine pairwise_of_forall_mem_list fun d hd d' _ _ _ hv => ?_
    obtain ⟨w, hw⟩ := hrefs d hd
    cases hw.symm.trans hv

end PgMentat

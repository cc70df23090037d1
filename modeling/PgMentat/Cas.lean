import PgMentat.CardinalityOne

namespace PgMentat

open List StatementProgram Program TypedValue Server

/-- The value needs neither a lookup nor a fresh id. -/
def EncodesTo (c : SchemaCache) (a : Int64) (value : EdnValue) (v : TypedValue) : Prop :=
  ∀ tempids, encodeForAttribute c tempids a value = .ret (v, tempids)

/-- What the old value of a cas stands for; `nil` expects that there is none. -/
inductive Expects (c : SchemaCache) (a : Int64) : EdnValue → Option TypedValue → Prop
  | nil : Expects c a .nil none
  | value {old v} (hnil : old ≠ .nil) (h : EncodesTo c a old v) : Expects c a old (some v)

def casEntity (k : Keyword) (e : Int64) (attr old new : EdnValue) : EdnValue :=
  .vector [.keyword k, .integer e, attr, old, new]

/-- The call is one cas on `(e, a)`, where `a` is neither an upsert key nor `:db/txInstant`. -/
structure Call.IsCas (call : Call) (db : Db) (e a : Int64) (old : Option TypedValue)
    (new : TypedValue) : Prop where
  document : ∃ k attr oldEdn newEdn, recognizeTxFn k = some .cas ∧
    call.document = .vector [casEntity k e attr oldEdn newEdn] ∧
    resolveAttribute db.cache attr = .ok a ∧ Expects db.cache a oldEdn old ∧
    EncodesTo db.cache a newEdn new
  not_identity : (db.cache.getAttribute a).bind SchemaRow.uniqueConstraint ≠ some .identity
  not_txInstant : a ≠ Entids.dbTxInstant

/-- The live values of `(e, a)` are those the cas expects. -/
def Db.Found (db : Db) (e a : Int64) : Option TypedValue → Prop
  | none => ∀ r ∈ db.current, ¬ (r.e = e ∧ r.a = a)
  | some v => db.Live (e, a, v)

def casPending (e a : Int64) (old : Option TypedValue) (new : TypedValue) : List PendingDatom :=
  (old.map fun v => ⟨e, a, v, false⟩).toList ++ [⟨e, a, new, true⟩]

section Program

variable {c : SchemaCache} {e a : Int64} {oldEdn newEdn : EdnValue} {old : Option TypedValue}
  {new : TypedValue} {b : Backend} {db : Db}

variable {k : Keyword} {depth : Nat} {attr : EdnValue}

theorem name_of_recognizeTxFn (h : recognizeTxFn k = some .cas) : k.name = "cas" := by
  unfold recognizeTxFn at h
  split at h <;> first | assumption | cases h

theorem executeCasFn_ensures (hold : Expects c a oldEdn old) (hnew : EncodesTo c a newEdn new)
    (st : ExpandState) :
    server.Ensures (executeCasFn c e a oldEdn newEdn st) b db fun st' _ db' =>
      db' = db ∧ st'.pending = st.pending ++ casPending e a old new ∧ db.Found e a old := by
  unfold executeCasFn
  simp only [ensures_bind]
  refine (ensures_issue _).mpr fun current b1 ops h => ?_
  cases h
  split
  · exact ensures_fail _
  have hmem {v : TypedValue} : v ∈ ((b.scan.current db.current).filter fun r =>
      r.e = e ∧ r.a = a).map CurrentRow.v ↔ ∃ r ∈ db.current, r.triple = (e, a, v) := by
    simp only [mem_map, mem_filter, (b.scan.current_perm _).mem_iff, CurrentRow.triple,
      Prod.mk.injEq, decide_eq_true_eq, and_assoc]
  cases hold with
  | nil =>
    dsimp only
    split
    · rename_i hnone
      rw [hnew]
      refine (ensures_ret _).mpr ⟨rfl, rfl, fun r hr hea => ?_⟩
      have hv := hmem.mpr ⟨r, hr, by rw [CurrentRow.triple, hea.1, hea.2]⟩
      rw [hnone] at hv
      cases hv
    · exact ensures_fail _
  | @value _ v hnil hold =>
    split
    · exact absurd rfl hnil
    · rw [hold]
      simp only [ret_bind]
      split
      · rename_i w hcurrent
        split
        · rename_i heq
          rw [hnew]
          refine (ensures_ret _).mpr ⟨rfl, by simp [ExpandState.push, casPending], ?_⟩
          rw [← eq_of_partialEq heq]
          exact hmem.mp (hcurrent ▸ mem_singleton_self w)
        · exact ensures_fail _
      · exact ensures_fail _

theorem resolveUpserts_eq_ret {st : ExpandState}
    (h : ∀ d ∈ st.pending, isIdentityAssertion c d = false) : resolveUpserts c st = .ret st := by
  have hlog : st.pending.foldlM (resolveAgainstLog c) [] = (.ret [] : Tx Remaps) := by
    generalize st.pending = pending at h
    induction pending with
    | nil => rfl
    | cons d rest ih =>
      rw [foldlM_cons, resolveAgainstLog, h d mem_cons_self]
      exact ih fun d' hd' => h d' (mem_cons_of_mem d hd')
  have hidentity : st.pending.filter (isIdentityAssertion c) = [] :=
    filter_eq_nil_iff.mpr fun d hd => Bool.eq_false_iff.mp (h d hd)
  rw [resolveUpserts, hlog, ret_bind, hidentity]
  rfl

theorem expandEntities_cas (hk : recognizeTxFn k = some .cas)
    (hattr : resolveAttribute c attr = .ok a) (hold : Expects c a oldEdn old)
    (hnew : EncodesTo c a newEdn new) :
    server.Ensures (expandEntities c depth {} [casEntity k e attr oldEdn newEdn]) b db
      fun st _ db' => db' = db ∧ st.pending = casPending e a old new ∧ db.Found e a old := by
  have hop : ∀ st, expandEntity c depth [] st (casEntity k e attr oldEdn newEdn, 0) =
      executeCasFn c e a oldEdn newEdn st := by
    intro st
    simp only [expandEntity, casEntity, expandOperation, hk, expandTxFn, resolveEntityPlace,
      pure_eq_ret, ret_bind, hattr, Program.ofExcept]
  unfold expandEntities
  rw [zipIdx_singleton, foldlM_cons, hop, ensures_bind]
  refine (executeCasFn_ensures hold hnew _).mono fun st b1 db1 h => ?_
  exact (ensures_ret _).mpr h

/-- The passes over a cas document: nothing but its own pending datoms, and only if the expected
value is found. -/
theorem prepareDatoms_cas (hk : recognizeTxFn k = some .cas)
    (hattr : resolveAttribute db.cache attr = .ok a) (hold : Expects db.cache a oldEdn old)
    (hnew : EncodesTo db.cache a newEdn new)
    (hidentity : (db.cache.getAttribute a).bind SchemaRow.uniqueConstraint ≠ some .identity) :
    server.Ensures (prepareDatoms depth [casEntity k e attr oldEdn newEdn]) b db
      fun prepared _ mid => mid = db ∧ prepared.pending = casPending e a old new ∧
        db.Found e a old := by
  unfold prepareDatoms
  rw [ensures_bind]
  refine (ensures_issue _).mpr fun before b1 ops h => ?_
  cases h
  have hscan : scanEntities db.cache [casEntity k e attr oldEdn newEdn] = .ret {} := by
    have hname : ¬ k.name = "add" := by rw [name_of_recognizeTxFn hk]; decide
    simp [scanEntities, casEntity, scanEntity, hname]
  rw [hscan, ret_bind, installSchemaAttributes, foldlM_nil, pure_eq_ret,
    ret_bind, ensures_bind]
  refine (ensures_issue _).mpr fun cache b2 ops h => ?_
  cases h
  rw [writeAll_nil, writeAll_nil, ensures_bind]
  refine (expandEntities_cas hk hattr hold hnew).mono fun st b3 db3 h3 => ?_
  obtain ⟨hdb, hpending, hfound⟩ := h3
  rw [resolveUpserts_eq_ret, ret_bind]
  · exact (ensures_ret _).mpr ⟨hdb, hpending, hfound⟩
  · intro d hd
    rw [hpending, casPending, mem_append, Option.mem_toList, mem_singleton] at hd
    rcases hd with hd | rfl
    · obtain ⟨v, -, rfl⟩ := Option.map_eq_some_iff.mp hd
      rfl
    · simp [isIdentityAssertion, hidentity]

end Program

section Call

variable {call : Call} {db mid loop db' : Db} {rows : List LogRow} {report : TxReport} {e a : Int64}
  {old : Option TypedValue} {new : TypedValue}

theorem beginTransaction_cas (hcas : call.IsCas db e a old new) {entities : List EdnValue}
    (hdoc : call.document = .vector entities) (b : Backend) :
    server.Ensures (beginTransaction call.backend.stackDepth entities) b db
      fun out _ mid => out.2.pending = casPending e a old new ∧ mid.Found e a old := by
  obtain ⟨k, attr, oldEdn, newEdn, hk, hdoc', hattr, hold, hnew⟩ := hcas.document
  cases hdoc.symm.trans hdoc'
  unfold beginTransaction
  rw [ensures_bind]
  refine (allocateTxId_ensures _ _).mono fun ids b1 db1 h1 => ?_
  rw [ensures_bind]
  refine (recordTxInstant_ensures _ _ _ _).mono fun _ b2 db2 h2 => ?_
  have hcache : db2.cache = db.cache := by rw [h2, h1.2.2.2.2]; rfl
  rw [← hcache] at hattr hold hnew
  rw [ensures_bind]
  refine (prepareDatoms_cas hk hattr hold hnew (hcache ▸ hcas.not_identity)).mono
    fun prepared b3 db3 h3 => ?_
  exact (ensures_ret _).mpr ⟨h3.2.1, h3.1 ▸ h3.2.2⟩

theorem Committed.found (h : Committed call db mid loop db' rows) (ha : a ≠ Entids.dbTxInstant)
    (hfound : mid.Found e a old) : db.Found e a old := by
  cases old with
  | none =>
    intro r hr hea
    refine hfound r (h.mem_mid_current.mpr (.inr ⟨hr, fun hk => ha ?_⟩)) hea
    rw [← hea.2]
    exact congrArg (·.2.1) hk
  | some v =>
    obtain ⟨r, hr, hk⟩ := hfound
    rcases h.mem_mid_current.mp hr with rfl | ⟨hr, -⟩
    · exact absurd (congrArg (·.2.1) hk).symm ha
    · exact ⟨r, hr, hk⟩

theorem mentatTransact_cas (hcas : call.IsCas db e a old new)
    (h : mentatTransact call db = .ok (report, db')) :
    (∃ mid loop rows, Committed call db mid loop db' rows ∧ mid.Found e a old) ∧
      call.pending db = casPending e a old new ∧ db.Found e a old := by
  obtain ⟨entities, ids, prepared, b, mid, b', hdoc, hbegin, -, hinsert⟩ := mentatTransact_begin h
  obtain ⟨loop, rows, hcommitted⟩ := committed_of_begin hdoc hbegin hinsert
  obtain ⟨hpending, hfound⟩ := beginTransaction_cas hcas hdoc _ _ _ _ hbegin
  refine ⟨⟨mid, loop, rows, hcommitted, hfound⟩, ?_, hcommitted.found hcas.not_txInstant hfound⟩
  rw [Call.pending, Call.prepared_eq hdoc hbegin]
  exact hpending

theorem QueueRun.mem_of_retract {c : SchemaCache} {all done : List PendingDatom} {tx : Int64}
    {scan : ScanOrder} {start db : Db} {rows : List LogRow} {d : PendingDatom}
    (h : QueueRun c all tx scan start done db rows) (hd : d ∈ done) (hretract : d.added = false) :
    d.row tx ∈ rows := by
  induction h with
  | nil => cases hd
  | snoc _ hstep ih =>
    rcases mem_append.mp hd with hd | hd
    · exact hstep.rows_subset _ (ih hd)
    · rw [mem_singleton] at hd
      subst hd
      cases hstep with
      | retract => exact mem_append_right _ mem_cons_self
      | _ => exact absurd (Validated.toChecked ‹_›).added (Bool.eq_false_iff.mp hretract)

theorem Committed.not_found (h : Committed call db mid loop db' rows)
    (hpending : call.pending db = casPending e a old new) (hfound : mid.Found e a old)
    (hone : db'.DeclaredOne a) (hne : old ≠ some new) : ¬ db'.Found e a old := by
  cases old with
  | none =>
    -- the new value is live, whatever it is, as the cas has found no row
    have hread : ReadBack (fun _ => True) mid.cache (call.pending db) mid e a := by
      refine ⟨h.cache_eq ▸ hone, fun x hx _ _ hxe hxa => ?_, fun _ _ _ _ _ r hr hre hra => ?_⟩
      · exact absurd ⟨hxe, hxa⟩ (hfound x hx)
      · exact absurd ⟨hre, hra⟩ (hfound r hr)
    have honly : call.AssertsOnly db e a new := by
      rw [Call.AssertsOnly, hpending]
      simp [casPending]
    obtain ⟨r, hr, hk⟩ := h.live_of_assertsOnly hread (fun _ => hfound) honly
    exact fun hnone => hnone r hr ⟨congrArg (·.1) hk, congrArg (·.2.1) hk⟩
  | some v =>
    have hretract : (⟨e, a, v, false⟩ : PendingDatom) ∈ call.pending db := by
      rw [hpending]
      simp [casPending]
    have hrow := h.run.mem_of_retract hretract rfl
    cases hlast : lastRow rows (e, a, v) with
    | none => exact absurd rfl (lastRow_eq_none.mp hlast _ hrow)
    | some r =>
      refine fun hlive => hne ?_
      have hadded := (h.live_iff_of_lastRow hlast).mp hlive
      obtain ⟨d, hd, info, hc, -, hk⟩ := h.asserted_of_lastRow hlast hadded
      rw [hpending] at hd
      have hd' : d = ⟨e, a, new, true⟩ := by
        have hdadded := hc.added
        simp only [casPending, Option.map_some, Option.toList_some, cons_append,
          nil_append, mem_cons, not_mem_nil, or_false] at hd
        rcases hd with rfl | rfl
        · cases hdadded
        · rfl
      rw [hd'] at hk
      exact congrArg some (congrArg (·.2.2) hk).symm

theorem mentatTransact_cas_twice {call' : Call} {report' : TxReport} {new' : TypedValue} {db'' : Db}
    (hcas : call.IsCas db e a old new) (h : mentatTransact call db = .ok (report, db'))
    (hone : db'.DeclaredOne a) (hne : old ≠ some new) (hcas' : call'.IsCas db' e a old new') :
    mentatTransact call' db' ≠ .ok (report', db'') := by
  intro h'
  obtain ⟨⟨mid, loop, rows, hcommitted, hfound⟩, hpending, -⟩ := mentatTransact_cas hcas h
  exact hcommitted.not_found hpending hfound hone hne (mentatTransact_cas hcas' h').2.2

end Call

end PgMentat

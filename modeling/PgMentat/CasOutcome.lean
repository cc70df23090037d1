import PgMentat.Cas
import PgMentat.Timestamp
import PgMentat.Transact.Success

namespace PgMentat

open List StatementProgram Program KeyedTable TypedValue Server

/-- The live values of `(e, a)` are exactly the expected ones. -/
def Db.Holds (db : Db) (e a : Int64) (old : Option TypedValue) : Prop :=
  ∀ v, db.Live (e, a, v) ↔ old = some v

/-- The call swaps if it finds what it expects, and fails otherwise. -/
def Call.Swaps (call : Call) (db : Db) (e a : Int64) (old : Option TypedValue)
    (new : TypedValue) : Prop :=
  (db.Holds e a old →
    ∃ report db', mentatTransact call db = .ok (report, db') ∧ db'.Holds e a (some new)) ∧
  (¬ db.Holds e a old → ∃ error, mentatTransact call db = .error error)

/-- The tables hold the value as it was given, and as its text in the projection is read back. -/
def TypedValue.Retained (v : TypedValue) : Prop :=
  v.Stored ∧ ∀ back, parseFromTag v.valueType v.projectionText = .ok back → back.Stored

instance TypedValue.decidableRetained (v : TypedValue) : Decidable v.Retained :=
  inferInstanceAs (Decidable (v.Stored ∧
    ∀ back, parseFromTag v.valueType v.projectionText = .ok back → back.Stored))

theorem TypedValue.retained_instant {micros : Int64} (hlo : 0 ≤ micros.toInt)
    (hhi : micros.toInt < 4294967295000000) : (TypedValue.instant micros).Retained := by
  refine ⟨stored_instant hlo (by omega), fun back hback => ?_⟩
  have hsecond : 0 ≤ roundedSeconds micros.toInt * 1000000 ∧
      roundedSeconds micros.toInt * 1000000 < 4294967296000000 := by
    rw [roundedSeconds, if_pos hlo]
    omega
  simp only [valueType, projectionText, parseFromTag, parseI64,
    TextCodec.parseInt_toString] at hback
  rw [if_pos (by omega)] at hback
  cases hback
  have hback := Int64.toInt_ofInt_of_le (n := roundedSeconds micros.toInt * 1000000)
    (by omega) (by omega)
  exact stored_instant (by omega) (by omega)

/-- The call is one cas on `(e, a)`, a single-valued attribute that keeps its history and is not of
type double; both values have its type and, if they are instants, are stored as they are given; the
transaction id is new. -/
structure Call.IsSwap (call : Call) (db : Db) (e a : Int64) (old : Option TypedValue)
    (new : TypedValue) : Prop where
  document : ∃ k attr oldEdn newEdn, recognizeTxFn k = some .cas ∧
    call.document = .vector [casEntity k e attr oldEdn newEdn] ∧
    resolveAttribute db.cache attr = .ok a ∧ Expects db.cache a oldEdn old ∧
    EncodesTo db.cache a newEdn new
  declared : ∃ info, db.cache.getAttribute a = some info ∧ info.cardinality = .one ∧
    info.noHistory = false ∧ info.valueType ≠ .double ∧ new.valueType = info.valueType ∧
    ∀ v, old = some v → v.valueType = info.valueType
  stored : new.Retained ∧ ∀ v, old = some v → v.Retained
  tx_new : ∀ r ∈ db.transactions, r.tx ≠ call.backend.txId

/-- Every instant of a call is stored as it is given. -/
def Call.StoresInstants (db : Db) (call : Call) (_db' : Db) : Prop :=
  (TypedValue.instant call.backend.now).Retained ∧ ∀ d ∈ call.pending db, d.v.Retained

/-- No other entity has been given the new value of a unique attribute. -/
def Call.Unclaimed (call : Call) (db : Db) (e a : Int64) (new : TypedValue) : Prop :=
  (db.cache.getAttribute a).bind SchemaRow.uniqueConstraint ≠ none →
    ∀ r ∈ db.log ++ [txInstantRow call.backend.txId call.backend.now],
      r.a = a → r.v = new → r.added = true → r.e = e

/-- The new value differs from the old one and from what the projection's text for the old one
reads back as. -/
def Distinguishes (old : Option TypedValue) (new : TypedValue) : Prop :=
  ∀ v, old = some v → v ≠ new ∧
    ∃ back, parseFromTag v.valueType v.projectionText = .ok back ∧ back ≠ new

section Passes

variable {c : SchemaCache} {e a : Int64} {oldEdn newEdn : EdnValue} {old : Option TypedValue}
  {new : TypedValue} {b : Backend} {db : Db}

def Db.Projected (db : Db) : Prop := (db.current.map CurrentRow.triple).Nodup

theorem ensures_projected {α : Type} {p : Tx α} (h : db.Projected) :
    server.Ensures p b db fun _ _ db' => db'.Projected := by
  refine ensures_of_write (I := Db.Projected) (fun db op hdb => ?_) h
  cases op with
  | putCurrent row => exact nodup_put hdb row
  | delCurrent triple => exact nodup_del hdb triple
  | _ => exact hdb

theorem projected_of_reaches {ok : Db → Call → Db → Prop} (h : Reaches ok bootstrapDb db) :
    db.Projected := by
  refine h.invariant (fun hmid hcall _ => ?_) nodup_nil
  obtain ⟨entities, ids, prepared, b, mid, b', -, hbegin, -, hinsert⟩ := mentatTransact_begin hcall
  exact ensures_projected (ensures_projected hmid _ _ _ hbegin) _ _ _ hinsert

/-- What `execute_cas_fn` reads. -/
def casRead (scan : ScanOrder) (db : Db) (e a : Int64) : List TypedValue :=
  ((scan.current db.current).filter fun r => r.e = e ∧ r.a = a).map CurrentRow.v

theorem mem_casRead {scan : ScanOrder} {v : TypedValue} :
    v ∈ casRead scan db e a ↔ db.Live (e, a, v) := by
  simp only [casRead, mem_map, mem_filter, (scan.current_perm _).mem_iff, Db.Live,
    CurrentRow.triple, Prod.mk.injEq, decide_eq_true_eq, and_assoc]

theorem nodup_casRead {scan : ScanOrder} (h : db.Projected) : (casRead scan db e a).Nodup := by
  have hscan : ((scan.current db.current).map CurrentRow.triple).Nodup :=
    ((scan.current_perm _).map _).nodup_iff.mpr h
  refine List.Nodup.map_on ?_ ((List.Nodup.of_map _ hscan).filter _)
  intro x hx y hy hxy
  have hx' := mem_filter.mp hx
  have hy' := mem_filter.mp hy
  have hxe : x.e = e ∧ x.a = a := by simpa using hx'.2
  have hye : y.e = e ∧ y.a = a := by simpa using hy'.2
  refine inj_on_of_nodup_map hscan hx'.1 hy'.1 ?_
  simp only [CurrentRow.triple, hxe, hye, hxy]

theorem holds_iff_casRead (scan : ScanOrder) (h : db.Projected) :
    db.Holds e a old ↔ casRead scan db e a = old.toList := by
  have hnodup : old.toList.Nodup := by cases old <;> simp
  constructor
  · intro hholds
    have hperm : (casRead scan db e a).Perm old.toList := by
      rw [perm_ext_iff_of_nodup (nodup_casRead h) hnodup]
      intro v
      rw [mem_casRead, hholds v, Option.mem_toList]
    cases old with
    | none => exact perm_nil.mp hperm
    | some v => exact perm_singleton.mp hperm
  · intro hread v
    rw [← mem_casRead, hread, Option.mem_toList]

theorem executeCasFn_run (hold : Expects c a oldEdn old) (hnew : EncodesTo c a newEdn new)
    (hone : (c.getAttribute a).map SchemaRow.cardinality = some .one)
    (hdouble : ∀ v, old = some v → v.valueType ≠ .double) (st : ExpandState) :
    (casRead b.scan db e a = old.toList →
      server.run (executeCasFn c e a oldEdn newEdn st) b db =
        .ok ({ st with pending := st.pending ++ casPending e a old new }, b, db)) ∧
    (casRead b.scan db e a ≠ old.toList →
      ∃ error, server.run (executeCasFn c e a oldEdn newEdn st) b db = .error error) := by
  have hselect : server.run (spi (.selectCurrentOf e a)) b db =
      .ok (casRead b.scan db e a, b, db) := rfl
  generalize casRead b.scan db e a = read at hselect
  unfold executeCasFn
  simp only [run_bind, hselect, hone, reduceCtorEq, false_and, if_false, Option.some.injEq]
  cases hold with
  | nil =>
    dsimp only
    constructor
    · intro hread
      rw [if_pos (by simpa using hread), hnew]
      rfl
    · intro hread
      rw [if_neg (by simpa using hread)]
      exact ⟨_, rfl⟩
  | @value _ v hnil hv =>
    split
    · exact absurd rfl hnil
    rw [hv]
    simp only [ret_bind]
    constructor
    · intro hread
      rw [hread]
      dsimp only [Option.toList]
      rw [if_pos ((partialEq_iff (hdouble v rfl)).mpr rfl), hnew]
      simp [ExpandState.push, casPending, Server.run]
    · intro hread
      split
      · rename_i w
        have hne : ¬ w.partialEq v = true := by
          intro heq
          exact hread (by rw [eq_of_partialEq heq]; rfl)
        rw [if_neg hne]
        exact ⟨_, rfl⟩
      · exact ⟨_, rfl⟩

theorem resolveUpserts_cas {tempids : Tempids}
    (hholder : (c.getAttribute a).bind SchemaRow.uniqueConstraint ≠ none →
      ∀ x, firstHolder b.scan db a new = some x → x = e) :
    server.run (resolveUpserts c ⟨tempids, casPending e a old new⟩) b db =
      .ok (⟨tempids, casPending e a old new⟩, b, db) := by
  by_cases hidentity : (c.getAttribute a).bind SchemaRow.uniqueConstraint = some .identity
  · have hnone : ∀ v : TypedValue, isIdentityAssertion c ⟨e, a, v, false⟩ = false := fun _ => rfl
    have hsome : isIdentityAssertion c ⟨e, a, new, true⟩ = true := by
      simp [isIdentityAssertion, hidentity]
    have hcheck : server.run (resolveAgainstLog c [] ⟨e, a, new, true⟩) b db = .ok ([], b, db) := by
      have hunique : server.run (checkUniqueTypedValue a new) b db =
          .ok (firstHolder b.scan db a new, b, db) := rfl
      rw [resolveAgainstLog, hsome, if_pos rfl, run_bind, hunique]
      dsimp only
      cases hfirst : firstHolder b.scan db a new with
      | none => rfl
      | some x =>
        dsimp only
        rw [if_pos (hholder (by simp [hidentity]) x hfirst)]
        rfl
    have hlog : server.run ((casPending e a old new).foldlM (resolveAgainstLog c) []) b db =
        .ok ([], b, db) := by
      cases old with
      | none =>
        simp only [casPending, Option.map_none, Option.toList_none, nil_append,
          foldlM_cons, foldlM_nil, run_bind, hcheck]
        rfl
      | some v =>
        simp only [casPending, Option.map_some, Option.toList_some, cons_append,
          nil_append, foldlM_cons, foldlM_nil, run_bind]
        rw [resolveAgainstLog, hnone v, if_neg Bool.false_ne_true]
        simp only [pure_eq_ret, Server.run, hcheck]
    have hmerge : mergeIdentities ((casPending e a old new).filter (isIdentityAssertion c)) [] =
        [] := by
      cases old <;>
        simp [casPending, hsome, hnone, mergeIdentities]
    rw [resolveUpserts, run_bind, hlog]
    dsimp only
    rw [hmerge]
    rfl
  · rw [resolveUpserts_eq_ret]
    · rfl
    · intro d hd
      rw [casPending, mem_append, Option.mem_toList, mem_singleton] at hd
      rcases hd with hd | rfl
      · obtain ⟨v, -, rfl⟩ := Option.map_eq_some_iff.mp hd
        rfl
      · simp [isIdentityAssertion, hidentity]

theorem prepareDatoms_cas_run (depth : Nat) (b : Backend) {k : Keyword} {attr : EdnValue}
    (hk : recognizeTxFn k = some .cas) (hattr : resolveAttribute db.cache attr = .ok a)
    (hold : Expects db.cache a oldEdn old) (hnew : EncodesTo db.cache a newEdn new)
    (hone : (db.cache.getAttribute a).map SchemaRow.cardinality = some .one)
    (hdouble : ∀ v, old = some v → v.valueType ≠ .double) (hproj : db.Projected)
    (hholder : db.Holds e a old → (db.cache.getAttribute a).bind SchemaRow.uniqueConstraint ≠ none →
      ∀ x, firstHolder b.scan db a new = some x → x = e) :
    (db.Holds e a old →
      server.run (prepareDatoms depth [casEntity k e attr oldEdn newEdn]) b db =
        .ok (⟨db.cache, [], casPending e a old new, false⟩, b, db)) ∧
    (¬ db.Holds e a old →
      ∃ error, server.run (prepareDatoms depth [casEntity k e attr oldEdn newEdn]) b db =
        .error error) := by
  have hselect : server.run (spi .selectSchema) b db = .ok (db.cache, b, db) := rfl
  have hscan : scanEntities db.cache [casEntity k e attr oldEdn newEdn] = .ret {} := by
    have hname : ¬ k.name = "add" := by rw [name_of_recognizeTxFn hk]; decide
    simp [scanEntities, casEntity, scanEntity, hname]
  have hexpand : expandEntities db.cache depth {} [casEntity k e attr oldEdn newEdn] =
      executeCasFn db.cache e a oldEdn newEdn ⟨[], []⟩ >>= .ret := by
    simp only [expandEntities, casEntity, zipIdx_singleton, foldlM_cons, foldlM_nil,
      expandEntity, expandOperation, hk, expandTxFn, resolveEntityPlace, pure_eq_ret,
      ret_bind, hattr, Program.ofExcept]
  obtain ⟨hfound, hmissing⟩ := executeCasFn_run (b := b) (e := e) hold hnew hone hdouble ⟨[], []⟩
  rw [holds_iff_casRead b.scan hproj] at hholder ⊢
  unfold prepareDatoms
  simp only [run_bind, hselect, hscan, installSchemaAttributes, foldlM_nil,
    pure_eq_ret, ret_bind, hexpand]
  constructor
  · intro hread
    rw [hfound hread]
    simp only [Server.run, nil_append, resolveUpserts_cas (hholder hread)]
    rfl
  · intro hread
    obtain ⟨error, herror⟩ := hmissing hread
    rw [herror]
    exact ⟨error, rfl⟩

end Passes

section Rows

variable {c : SchemaCache} {e a tx : Int64} {old : Option TypedValue} {new : TypedValue}
  {scan : ScanOrder} {mid loop : Db} {rows : List LogRow}

/-- The declaration a swap is checked against. -/
structure SingleValuedOf (c : SchemaCache) (a : Int64) (old : Option TypedValue) (new : TypedValue)
    (info : SchemaRow) : Prop where
  attr : c.getAttribute a = some info
  one : info.cardinality = .one
  history : info.noHistory = false
  type_ne : info.valueType ≠ .double
  new_type : new.valueType = info.valueType
  old_type : ∀ v, old = some v → v.valueType = info.valueType

/-- The rows a swap queues. With an old value they depend on what its text reads back as. -/
inductive CasRows (e a tx : Int64) (new : TypedValue) : Option TypedValue → List LogRow → Prop
  | fresh : CasRows e a tx new none [⟨e, a, new, tx, true⟩]
  | skipped {v} (hparse : parseFromTag v.valueType v.projectionText = .ok new) :
      CasRows e a tx new (some v) [⟨e, a, v, tx, false⟩]
  | replaced {v back} (hparse : parseFromTag v.valueType v.projectionText = .ok back)
      (hne : back ≠ new) : CasRows e a tx new (some v)
        [⟨e, a, v, tx, false⟩, ⟨e, a, back, tx, false⟩, ⟨e, a, new, tx, true⟩]

theorem firstCurrent_of_holds {type : ValueType} {r : CurrentRow} (hholds : mid.Holds e a old)
    (h : firstCurrent scan mid type e a = some r) : old = some r.v := by
  obtain ⟨hr, he, ha, -⟩ := firstCurrent_eq_some h
  refine (hholds r.v).mp ⟨r, hr, ?_⟩
  rw [CurrentRow.triple, he, ha]

theorem QueueStep.cas_rows {all : List PendingDatom} {info : SchemaRow} {rows' : List LogRow}
    (h : QueueStep c all tx scan mid rows ⟨e, a, new, true⟩ loop rows')
    (hdecl : SingleValuedOf c a old new info) (hholds : mid.Holds e a old) :
    loop = mid ∧ ((old = none ∧ rows' = rows ++ [⟨e, a, new, tx, true⟩]) ∨
      ∃ v, old = some v ∧
        ((parseFromTag v.valueType v.projectionText = .ok new ∧ rows' = rows) ∨
          ∃ back, parseFromTag v.valueType v.projectionText = .ok back ∧ back ≠ new ∧
            rows' = rows ++ [⟨e, a, back, tx, false⟩] ++ [⟨e, a, new, tx, true⟩])) := by
  have hinfo {info' : SchemaRow} (hv : Validated c all scan mid ⟨e, a, new, true⟩ info') :
      info' = info := Option.some.inj (hv.attr.symm.trans hdecl.attr)
  -- the text that is read is that of the only live value
  have hread {back : TypedValue} (hread : ReadsBack scan mid ⟨e, a, new, true⟩ back) :
      ∃ v, old = some v ∧ parseFromTag v.valueType v.projectionText = .ok back := by
    obtain ⟨r, hr, hparse⟩ := hread
    refine ⟨r.v, firstCurrent_of_holds hholds hr, ?_⟩
    rw [(firstCurrent_eq_some hr).2.2.2]
    exact hparse
  cases h with
  | retract h => cases h
  | skipOne _ _ hback =>
    obtain ⟨v, hv, hparse⟩ := hread hback
    exact ⟨rfl, .inr ⟨v, hv, .inl ⟨hparse, rfl⟩⟩⟩
  | assertOne _ _ _ hnone =>
    refine ⟨rfl, .inl ⟨?_, rfl⟩⟩
    cases old with
    | none => rfl
    | some v =>
      obtain ⟨r, hr, hk⟩ := (hholds v).mpr rfl
      simp only [CurrentRow.triple, Prod.mk.injEq] at hk
      have htype := firstCurrent_eq_none hnone hr hk.1 hk.2.1
      rw [hk.2.2] at htype
      exact absurd ((hdecl.old_type v rfl).trans hdecl.new_type.symm) htype
  | replaceOne _ _ _ hback hne =>
    obtain ⟨v, hv, hparse⟩ := hread hback
    refine ⟨rfl, .inr ⟨v, hv, .inr ⟨_, hparse, fun heq => ?_, rfl⟩⟩⟩
    have htype : new.valueType ≠ .double := hdecl.new_type ▸ hdecl.type_ne
    exact Bool.eq_false_iff.mp hne ((partialEq_iff htype).mpr heq)
  | skipMany hv hmany | assertMany hv hmany => cases hdecl.one.symm.trans (hinfo hv ▸ hmany)
  | pruneOne hv _ hhist => cases hdecl.history.symm.trans (hinfo hv ▸ hhist)
  | pruneMany hv hmany => cases hdecl.one.symm.trans (hinfo hv ▸ hmany)

theorem QueueRun.cas_rows {all : List PendingDatom} {info : SchemaRow}
    (h : QueueRun c all tx scan mid (casPending e a old new) loop rows)
    (hdecl : SingleValuedOf c a old new info) (hholds : mid.Holds e a old) :
    loop = mid ∧ CasRows e a tx new old rows := by
  obtain ⟨db1, rows1, hrun, hstep⟩ := h.snoc_inv
  cases old with
  | none =>
    obtain ⟨rfl, rfl⟩ := hrun.nil_inv
    obtain ⟨hloop, ⟨-, rfl⟩ | ⟨v, hv, -⟩⟩ := hstep.cas_rows hdecl hholds
    · exact ⟨hloop, .fresh⟩
    · cases hv
  | some v =>
    have hrun : QueueRun c all tx scan mid ([] ++ [⟨e, a, v, false⟩]) db1 rows1 := hrun
    obtain ⟨db0, rows0, hrun, hretract⟩ := hrun.snoc_inv
    obtain ⟨rfl, rfl⟩ := hrun.nil_inv
    have hfirst : db1 = db0 ∧ rows1 = [⟨e, a, v, tx, false⟩] := by
      cases hretract with
      | retract => exact ⟨rfl, rfl⟩
      | _ => cases (Validated.toChecked ‹_›).added
    obtain ⟨rfl, rfl⟩ := hfirst
    obtain ⟨hloop, ⟨hv, -⟩ | ⟨w, hw, hcase⟩⟩ := hstep.cas_rows hdecl hholds
    · cases hv
    · cases hw
      refine ⟨hloop, ?_⟩
      rcases hcase with ⟨hparse, rfl⟩ | ⟨back, hparse, hne, rfl⟩
      · exact .skipped hparse
      · exact .replaced hparse hne

end Rows

section Call

variable {call : Call} {db mid loop db' : Db} {rows : List LogRow} {e a : Int64}
  {old : Option TypedValue} {new : TypedValue} {info : SchemaRow}

theorem Call.IsSwap.singleValuedOf (h : call.IsSwap db e a old new) :
    ∃ info, SingleValuedOf db.cache a old new info := by
  obtain ⟨info, hattr, hone, hhist, hdouble, hnew, hold⟩ := h.declared
  exact ⟨info, ⟨hattr, hone, hhist, hdouble, hnew, hold⟩⟩

theorem holds_begun_iff {b : Backend} (hown : ¬ (e = b.txId ∧ a = Entids.dbTxInstant)) :
    (db.begun b).Holds e a old ↔ db.Holds e a old := by
  refine forall_congr' fun v => iff_congr ?_ Iff.rfl
  rw [live_iff_of_put rfl, or_iff_left]
  intro h
  exact hown ⟨congrArg (·.1) h, congrArg (·.2.1) h⟩

theorem mem_log_begun {b : Backend} {r : LogRow} (h : r ∈ (db.begun b).log) :
    r ∈ db.log ++ [txInstantRow b.txId b.now] := by
  rw [mem_append, mem_singleton]
  exact (mem_insertNew.mp h).imp id And.left

theorem firstHolder_begun {scan : ScanOrder} {x : Int64} (h : call.Unclaimed db e a new)
    (hunique : (db.cache.getAttribute a).bind SchemaRow.uniqueConstraint ≠ none)
    (hfirst : firstHolder scan (db.begun call.backend) a new = some x) : x = e := by
  obtain ⟨r, hr, rfl, hra, hrv, hadded⟩ := firstHolder_eq_some hfirst
  exact h hunique r (mem_log_begun hr) hra hrv hadded

theorem beginTransaction_cas_run (h : call.IsSwap db e a old new) (hproj : db.Projected)
    (hunclaimed : db.Holds e a old → call.Unclaimed db e a new)
    (hown : ¬ (e = call.backend.txId ∧ a = Entids.dbTxInstant)) :
    ∃ entities, call.document = .vector entities ∧
      (db.Holds e a old → ∃ ids b,
        server.run (beginTransaction call.backend.stackDepth entities) call.backend db =
          .ok ((ids, ⟨db.cache, [], casPending e a old new, false⟩), b, db.begun call.backend)) ∧
      (¬ db.Holds e a old → ∃ error,
        server.run (beginTransaction call.backend.stackDepth entities) call.backend db =
          .error error) := by
  obtain ⟨k, attr, oldEdn, newEdn, hk, hdoc, hattr, hold, hnew⟩ := h.document
  obtain ⟨info, hdecl⟩ := h.singleValuedOf
  have hone : (db.cache.getAttribute a).map SchemaRow.cardinality = some .one := by
    rw [hdecl.attr, Option.map_some, hdecl.one]
  have hdouble : ∀ v, old = some v → v.valueType ≠ .double :=
    fun v hv => hdecl.old_type v hv ▸ hdecl.type_ne
  have hproj' : (db.begun call.backend).Projected := nodup_put hproj _
  have hattr' : resolveAttribute (db.begun call.backend).cache attr = .ok a := hattr
  have hprepare := prepareDatoms_cas_run call.backend.stackDepth call.backend hk hattr' hold hnew
    hone hdouble hproj' fun hholds hunique x hx =>
      firstHolder_begun (hunclaimed ((holds_begun_iff hown).mp hholds)) hunique hx
  rw [holds_begun_iff hown] at hprepare
  refine ⟨_, hdoc, fun hholds => ?_, fun hmissing => ?_⟩
  · rw [beginTransaction_run h.tx_new, hprepare.1 hholds]
    exact ⟨_, _, rfl⟩
  · obtain ⟨error, herror⟩ := hprepare.2 hmissing
    rw [beginTransaction_run h.tx_new, herror]
    exact ⟨error, rfl⟩

theorem Committed.holds_iff (h : Committed call db mid mid db' rows)
    (hrows : CasRows e a call.backend.txId new old rows) (hholds : mid.Holds e a old) :
    db'.Holds e a (some new) ↔ Distinguishes old new := by
  have hnone {w : TypedValue} (hw : lastRow rows (e, a, w) = none) :
      db'.Live (e, a, w) ↔ old = some w := (h.live_iff_of_no_row hw).trans (hholds w)
  cases hrows with
  | fresh =>
    refine iff_of_true (fun w => ?_) (fun v hv => by cases hv)
    by_cases hw : new = w
    · rw [h.live_iff_of_lastRow (r := ⟨e, a, new, call.backend.txId, true⟩)
        (by simp [lastRow, LogRow.triple, hw])]
      simp [hw]
    · rw [hnone (by simp [lastRow, LogRow.triple, hw])]
      simp [hw]
  | @skipped v hparse =>
    refine iff_of_false (fun hnew => ?_) (fun hdist => ?_)
    · have hlive := (hnew new).mpr rfl
      by_cases hv : v = new
      · rw [h.live_iff_of_lastRow (r := ⟨e, a, v, call.backend.txId, false⟩)
          (by simp [lastRow, LogRow.triple, hv])] at hlive
        cases hlive
      · rw [hnone (by simp [lastRow, LogRow.triple, hv])] at hlive
        exact hv (Option.some.inj hlive)
    · obtain ⟨-, back, hback, hne⟩ := hdist v rfl
      exact hne (Except.ok.inj (hback.symm.trans hparse))
  | @replaced v back hparse hne =>
    have hv : v ≠ new := by
      -- the batch would list the key of the old value with both flags
      rintro rfl
      have hfirst : (⟨e, a, v, call.backend.txId, false⟩ : LogRow) ∈ dedupRows
          [⟨e, a, v, call.backend.txId, false⟩, ⟨e, a, back, call.backend.txId, false⟩,
            ⟨e, a, v, call.backend.txId, true⟩] := mem_cons_self
      have hlast : (⟨e, a, v, call.backend.txId, true⟩ : LogRow) ∈ dedupRows
          [⟨e, a, v, call.backend.txId, false⟩, ⟨e, a, back, call.backend.txId, false⟩,
            ⟨e, a, v, call.backend.txId, true⟩] := by
        simp [dedupRows, LogRow.literalKey]
      have heq := h.log.1 _ hfirst _ hlast rfl
      cases heq
    refine iff_of_true (fun w => ?_) (fun v' hv' => ?_)
    · by_cases hw : new = w
      · rw [h.live_iff_of_lastRow (r := ⟨e, a, new, call.backend.txId, true⟩)
          (by simp [lastRow, LogRow.triple, hw])]
        simp [hw]
      · by_cases hb : back = w
        · rw [h.live_iff_of_lastRow (r := ⟨e, a, back, call.backend.txId, false⟩)
            (by simp [lastRow, LogRow.triple, hw, hb])]
          simp [hw]
        · by_cases hvw : v = w
          · rw [h.live_iff_of_lastRow (r := ⟨e, a, v, call.backend.txId, false⟩)
              (by simp [lastRow, LogRow.triple, hw, hb, hvw])]
            simp [hw]
          · rw [hnone (by simp [lastRow, LogRow.triple, hw, hb, hvw])]
            simp [hw, hvw]
    · cases hv'
      exact ⟨hv, back, hparse, hne⟩

theorem insertDatoms_completes_cas {b : Backend} {tx : Int64}
    (hdecl : SingleValuedOf mid.cache a old new info) (hholds : mid.Holds e a old)
    (hdist : Distinguishes old new)
    (hholder : info.uniqueConstraint ≠ none →
      ∀ r ∈ mid.log, r.a = a → r.v = new → r.added = true → r.e = e) :
    Completes (insertDatoms mid.cache (casPending e a old new) tx) b mid := by
  apply insertDatoms_completes
  · intro done loop rows hrun d hd hadded
    have hd : d = ⟨e, a, new, true⟩ := by
      rw [casPending, mem_append, Option.mem_toList, mem_singleton] at hd
      refine hd.resolve_left fun hd => ?_
      obtain ⟨v, -, rfl⟩ := Option.map_eq_some_iff.mp hd
      cases hadded
    subst hd
    have hcount : countInTx ⟨e, a, new, true⟩ (casPending e a old new) = 1 := by
      cases old <;> simp [countInTx, casPending]
    have hdup : hasDuplicateInTx ⟨e, a, new, true⟩ (casPending e a old new) = false := by
      cases old <;> simp [hasDuplicateInTx, casPending]
    refine ⟨info, ⟨⟨rfl, hdecl.attr, hdecl.new_type, fun _ => hcount.le, fun _ => hdup⟩, ?_⟩, ?_⟩
    · intro hunique x hx
      obtain ⟨r, hr, rfl, hra, hrv, hadded⟩ := firstHolder_eq_some hx
      exact hholder hunique r (hrun.log_kept.1 r hr) hra hrv hadded
    · intro _ r hr
      obtain ⟨hmem, hre, hra, htype⟩ := firstCurrent_eq_some hr
      have hv : old = some r.v :=
        (hholds r.v).mp ⟨r, hrun.current_subset r hmem, by rw [CurrentRow.triple, hre, hra]⟩
      obtain ⟨-, back, hback, -⟩ := hdist r.v hv
      rw [htype] at hback
      exact ⟨back, hback⟩
  · intro loop rows hrun
    suffices hunique : KeyUnique LogRow.key rows from
      fun x hx y hy => hunique x (mem_of_mem_dedupRows hx) y (mem_of_mem_dedupRows hy)
    intro x hx y hy hxy
    cases (hrun.cas_rows hdecl hholds).2 with
    | fresh | skipped => rw [mem_singleton.mp hx, mem_singleton.mp hy]
    | @replaced v back _ hback =>
      have hv := (hdist v rfl).1
      simp only [mem_cons, not_mem_nil, or_false] at hx hy
      rcases hx with rfl | rfl | rfl <;> rcases hy with rfl | rfl | rfl <;>
        simp_all [LogRow.key, LogRow.triple]

end Call

/-- `[:db.fn/cas 500 a old new]`. -/
def casCall (a : Int64) (old new : EdnValue) : Call :=
  plainCall 1000000000009 1735689609000000
    [casEntity (.namespaced "db.fn" "cas") 500 (.integer a) old new]

/-- The state has a declaration of `a` that fits a swap, and `old` is the only value of
`(500, a)`. -/
def Db.ReadyFor (db : Db) (a : Int64) (old : TypedValue) : Prop :=
  (∃ info ∈ db.cache.getAttribute a, info.cardinality = .one ∧ info.noHistory = false ∧
    info.valueType ≠ .double ∧ info.valueType ≠ .ref ∧ info.uniqueConstraint = none ∧
    old.valueType = info.valueType) ∧
  (∀ r ∈ db.transactions, r.tx ≠ 1000000000009) ∧ db.Live (500, a, old) ∧
  ∀ r ∈ db.current, r.e = 500 → r.a = a → r.v = old

instance (db : Db) (a : Int64) (old : TypedValue) : Decidable (db.ReadyFor a old) :=
  inferInstanceAs (Decidable (_ ∧ _ ∧ _ ∧ _))

theorem Db.ReadyFor.isSwap {db : Db} {a : Int64} {old new : TypedValue}
    (oldEdn newEdn : EdnValue) (h : db.ReadyFor a old) (hold : encodeValue oldEdn = .ok old)
    (hnew : encodeValue newEdn = .ok new) (htype : new.valueType = old.valueType)
    (hstored : new.Retained ∧ old.Retained) :
    (casCall a oldEdn newEdn).IsSwap db 500 a (some old) new ∧
      (casCall a oldEdn newEdn).Unclaimed db 500 a new ∧ db.Holds 500 a (some old) := by
  have hnil : oldEdn ≠ .nil := by
    rintro rfl
    cases hold
  obtain ⟨⟨info, hinfo, hone, hhist, hdouble, href, hunique, hinfoType⟩, htx, hlive, honly⟩ := h
  have hlookup : lookupValueType db.cache a ≠ some .ref := by
    rw [lookupValueType, hinfo, Option.map_some]
    exact fun h => href (Option.some.inj h)
  have hencodes {value : EdnValue} {v : TypedValue} (hv : encodeValue value = .ok v) :
      EncodesTo db.cache a value v := by
    intro tempids
    rw [encodeForAttribute, if_neg hlookup, hv]
    rfl
  have hstored' : ∀ v, some old = some v → v.Retained := fun v hv => Option.some.inj hv ▸ hstored.2
  refine ⟨⟨?_, ?_, ⟨hstored.1, hstored'⟩, htx⟩, ?_, ?_⟩
  · exact ⟨_, _, _, _, rfl, rfl, rfl, .value hnil (hencodes hold), hencodes hnew⟩
  · refine ⟨info, hinfo, hone, hhist, hdouble, htype.trans hinfoType, fun v hv => ?_⟩
    cases hv
    exact hinfoType
  · intro hclaimed
    rw [hinfo] at hclaimed
    exact absurd hunique hclaimed
  · refine fun v => ⟨fun hv => ?_, fun hv => Option.some.inj hv ▸ hlive⟩
    obtain ⟨r, hr, hk⟩ := hv
    simp only [CurrentRow.triple, Prod.mk.injEq] at hk
    rw [← honly r hr hk.1 hk.2.1, hk.2.2]

instance (db : Db) (call : Call) (db' : Db) : Decidable (Call.StoresInstants db call db') :=
  inferInstanceAs (Decidable (_ ∧ ∀ d ∈ call.pending db, d.v.Retained))

def setDoc : Call := plainCall 1000000000001 1735689601000000 [addDatom 500 19 (.text "x")]

end PgMentat

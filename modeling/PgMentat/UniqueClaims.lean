import PgMentat.UniqueHolders
import PgMentat.Cas

namespace PgMentat

open List StatementProgram Program KeyedTable TypedValue Server

def MentatError.isUniqueViolation : MentatError → Bool
  | uniqueConstraintViolation .. => true
  | _ => false

def addEntity (k : Keyword) (x : Int64) (attr value : EdnValue) : EdnValue :=
  .vector [.keyword k, .integer x, attr, value]

/-- The call is `[[:db/add x a v]]`, where the schema table says which attribute and value are
meant. -/
def Call.IsAdd (call : Call) (db : Db) (x a : Int64) (v : TypedValue) : Prop :=
  ∃ k attr value, k.name = "add" ∧ call.document = .vector [addEntity k x attr value] ∧
    ∀ idents, resolveAttribute ⟨db.schema, idents⟩ attr = .ok a ∧
      EncodesTo ⟨db.schema, idents⟩ a value v

/-- Another entity has once been given the value. -/
def Db.HeldBefore (db : Db) (x a : Int64) (v : TypedValue) : Prop :=
  ∃ e, e ≠ x ∧ db.Asserted e a v

/-- Another entity has the value. -/
def Db.HeldNow (db : Db) (x a : Int64) (v : TypedValue) : Prop :=
  ∃ e, e ≠ x ∧ db.Live (e, a, v)

/-- The call fails with a unique violation, or is redirected to another entity. -/
def Call.Refused (call : Call) (db : Db) (x : Int64) : Prop :=
  (∃ e, mentatTransact call db = .error e ∧ e.isUniqueViolation = true) ∨
    ∃ d ∈ call.pending db, d.e ≠ x

section Fails

variable {b : Backend} {db : Db}

theorem answer_not_unique {s : Stmt} {e : MentatError} (h : s.answer b db = .error e) :
    e.isUniqueViolation = false := by
  cases s <;> simp only [Stmt.answer] at h <;> first
    | (split at h <;> cases h; rfl)
    | cases h

theorem spi_failsWith (s : Stmt) :
    server.FailsWith (spi s) b db fun e => e.isUniqueViolation = false :=
  failsWith_issue fun _ h => answer_not_unique h

theorem installSchemaAttributes_failsWith (builders : EntidMap SchemaBuilder) :
    server.FailsWith (installSchemaAttributes builders) b db
      fun e => e.isUniqueViolation = false := by
  refine failsWith_foldlM fun _ entry b db => ?_
  refine (failsWith_ofExcept fun e h => ?_).bind_all fun plan b db => ?_
  · unfold planInstallation at h
    split at h <;> cases h <;> rfl
  · unfold install
    split
    · exact failsWith_ret _
    · exact spi_failsWith _
    · exact (spi_failsWith _).bind_all fun _ _ _ => spi_failsWith _

theorem resolveUpserts_failsWith (c : SchemaCache) (st : ExpandState) :
    server.FailsWith (resolveUpserts c st) b db fun e => e.isUniqueViolation = false := by
  refine (failsWith_foldlM fun remaps d b db => ?_).bind_all fun _ b db => ?_
  · unfold resolveAgainstLog
    split
    · refine (spi_failsWith _).bind_all fun existing b db => ?_
      split
      · exact failsWith_ret _
      · split
        · exact failsWith_ret _
        · split
          · exact failsWith_ret _
          · split
            · exact failsWith_ret _
            · exact failsWith_fail rfl
    · exact failsWith_ret _
  · dsimp only
    split <;> exact failsWith_ret _

theorem retractExistingCardinalityOne_failsWith (e a : Int64) (new : TypedValue) :
    server.FailsWith (retractExistingCardinalityOne e a new) b db
      fun e => e.isUniqueViolation = false := by
  refine Server.FailsWith.bind_all ?_ fun old b db => ?_
  · refine (spi_failsWith _).bind_all fun text b db => ?_
    split
    · exact failsWith_ret _
    · split
      · exact failsWith_ret _
      · exact failsWith_fail rfl
  · split
    · exact failsWith_ret _
    · split <;> exact failsWith_ret _

theorem queueAssertion_failsWith (info : SchemaRow) (d : PendingDatom) (tx : Int64)
    (st : InsertState) :
    server.FailsWith (queueAssertion info d tx st) b db fun e => e.isUniqueViolation = false := by
  unfold queueAssertion
  split
  · refine (retractExistingCardinalityOne_failsWith _ _ _).bind_all fun result b db => ?_
    split <;> exact failsWith_ret _
  · refine (spi_failsWith _).bind_all fun duplicate b db => ?_
    split <;> exact failsWith_ret _

theorem queueNoHistory_failsWith (info : SchemaRow) (d : PendingDatom) (tx : Int64)
    (st : InsertState) :
    server.FailsWith (queueNoHistory info d tx st) b db fun e => e.isUniqueViolation = false := by
  unfold queueNoHistory
  split
  · refine (retractExistingCardinalityOne_failsWith _ _ _).bind_all fun result b db => ?_
    split
    · exact failsWith_ret _
    · refine (spi_failsWith _).bind_all fun _ _ _ => (spi_failsWith _).bind_all fun _ _ _ => ?_
      exact failsWith_ret _
  · refine (spi_failsWith _).bind_all fun duplicate b db => ?_
    split
    · exact failsWith_ret _
    · exact (spi_failsWith _).bind_all fun _ _ _ => failsWith_ret _

theorem flushTypes_failsWith {κ : Type} {rows : List κ} {type : κ → ValueType}
    {stmt : ValueType → List κ → Tx Unit}
    (hstmt : ∀ t rows b db,
      server.FailsWith (stmt t rows) b db fun e => e.isUniqueViolation = false) :
    server.FailsWith (flushTypes rows type stmt) b db fun e => e.isUniqueViolation = false := by
  refine failsWith_foldlM fun _ t b db => ?_
  split
  · exact failsWith_ret _
  · exact hstmt _ _ _ _

theorem flush_failsWith (st : InsertState) :
    server.FailsWith (do
      batchInsertDatoms st.rows
      maintainCurrentProjection st.rows
      st.fulltextValues.foldlM (fun _ text => spi (.insertFulltext text)) ()) b db
      fun e => e.isUniqueViolation = false := by
  refine (flushTypes_failsWith fun _ _ _ _ => spi_failsWith _).bind_all fun _ b db => ?_
  refine Server.FailsWith.bind_all ?_ fun _ b db => ?_
  · refine (flushTypes_failsWith fun _ _ _ _ => spi_failsWith _).bind_all fun _ b db => ?_
    exact flushTypes_failsWith fun _ _ _ _ => spi_failsWith _
  · exact failsWith_foldlM fun _ _ _ _ => spi_failsWith _

variable {x a : Int64} {v : TypedValue} {c : SchemaCache}

theorem heldBefore_of_firstHolder {scan : ScanOrder} {e : Int64}
    (h : firstHolder scan db a v = some e) (hne : e ≠ x) : db.HeldBefore x a v := by
  obtain ⟨r, hr, hre, hra, hrv, hadded⟩ := firstHolder_eq_some h
  exact ⟨e, hne, r, hr, hadded, by rw [LogRow.triple, hre, hra, hrv]⟩

/-- An assertion that is alone in its transaction violates uniqueness only if the log has another
holder. -/
theorem validateDatomConstraints_failsWith :
    server.FailsWith (validateDatomConstraints c ⟨x, a, v, true⟩ [⟨x, a, v, true⟩]) b db
      fun e => e.isUniqueViolation = true → db.HeldBefore x a v := by
  have halone : hasDuplicateInTx ⟨x, a, v, true⟩ [⟨x, a, v, true⟩] = false := by
    simp [hasDuplicateInTx]
  unfold validateDatomConstraints
  split
  · exact failsWith_fail fun h => (Bool.false_ne_true h).elim
  split
  · exact failsWith_fail fun h => (Bool.false_ne_true h).elim
  split
  · exact failsWith_fail fun h => (Bool.false_ne_true h).elim
  split
  · exact failsWith_ret _
  unfold validateUnique
  rw [halone]
  refine Server.FailsWith.bind (fun e he h => ?_) ?_
  · exact absurd h (Bool.eq_false_iff.mp (spi_failsWith _ e he))
  refine (ensures_issue _).mpr fun _ b1 ops hans => ?_
  cases hans
  refine Server.FailsWith.bind (fun e he h => ?_) ?_
  · exact absurd h (Bool.eq_false_iff.mp (spi_failsWith _ e he))
  refine (checkUniqueTypedValue_ensures _ _ _ _).mono fun existing b2 db2 h2 => ?_
  split
  · exact failsWith_ret _
  · split
    · exact failsWith_ret _
    · rename_i hne
      exact failsWith_fail fun _ => heldBefore_of_firstHolder h2.1.symm hne

theorem insertDatoms_failsWith {tx : Int64} :
    server.FailsWith (insertDatoms c [⟨x, a, v, true⟩] tx) b db
      fun e => e.isUniqueViolation = true → db.HeldBefore x a v := by
  have hother {α : Type} {p : Tx α} {b db'}
      (h : server.FailsWith p b db' fun e => e.isUniqueViolation = false) :
      server.FailsWith p b db' fun e => e.isUniqueViolation = true → db.HeldBefore x a v :=
    fun e he hviolation => absurd hviolation (Bool.eq_false_iff.mp (h e he))
  refine Server.FailsWith.bind_all ?_ fun st b db => hother (flush_failsWith st)
  rw [foldlM_cons, queueDatom, if_pos rfl]
  refine Server.FailsWith.bind_all ?_ fun st b db => failsWith_ret _
  refine validateDatomConstraints_failsWith.bind_all fun _ b db => ?_
  split
  · exact failsWith_ret _
  · split
    · exact hother (queueNoHistory_failsWith _ _ _ _)
    · exact hother (queueAssertion_failsWith _ _ _ _)

end Fails

section Add

variable {b : Backend} {db : Db} {k : Keyword} {x a : Int64} {attr value : EdnValue}
  {v : TypedValue}

theorem collectSchemaAssertion_single {entry : Int64 × SchemaBuilder}
    (h : entry ∈ collectSchemaAssertion x a value []) :
    entry.2.ident = none ∨ entry.2.valueType = none := by
  unfold collectSchemaAssertion modifyBuilder EntidMap.insert at h
  grind

theorem scanEntities_add (c : SchemaCache) (x : Int64) (attr value : EdnValue)
    (hk : k.name = "add") :
    ∃ builders, scanEntities c [addEntity k x attr value] = .ret { builders } ∧
      ∀ entry ∈ builders, entry.2.ident = none ∨ entry.2.valueType = none := by
  have hscan : scanEntities c [addEntity k x attr value] =
      .ret { builders := (tryResolveAttribute c attr).elim [] fun a =>
        collectSchemaAssertion x a value [] } := by
    simp only [scanEntities, addEntity, zipIdx_singleton, foldlM_cons, scanEntity, hk,
      if_true, resolveEntityPlace, pure_eq_ret, ret_bind]
    cases tryResolveAttribute c attr <;> rfl
  refine ⟨_, hscan, ?_⟩
  cases tryResolveAttribute c attr with
  | none => exact fun entry h => absurd h not_mem_nil
  | some a => exact fun entry h => collectSchemaAssertion_single h

variable {builders : EntidMap SchemaBuilder} {c : SchemaCache} {depth : Nat}

theorem installSchemaAttributes_ensures
    (h : ∀ entry ∈ builders, entry.2.ident = none ∨ entry.2.valueType = none) :
    server.Ensures (installSchemaAttributes builders) b db fun _ _ db' =>
      db'.schema = db.schema ∧ db'.log = db.log := by
  refine ensures_of_only (A := fun s => ∃ row, s = Stmt.upsertIdent row)
    (I := fun _ (db' : Db) => db'.schema = db.schema ∧ db'.log = db.log) ?_ ?_ ⟨rfl, rfl⟩
  · rintro _ b1 db1 x b2 ops ⟨row, rfl⟩ hdb hans
    simp only [server, Stmt.answer] at hans
    split at hans <;> cases hans
    exact hdb
  · refine Only.foldlM _ _ fun _ entry hentry => ?_
    have hplan : ∀ ident row, planInstallation entry.1 entry.2 ≠ .ok (.attribute ident row) := by
      intro ident row hplan
      unfold planInstallation at hplan
      rcases h entry hentry with hnone | hnone <;> rw [hnone] at hplan <;>
        split at hplan <;> simp_all
    cases hcase : planInstallation entry.1 entry.2 with
    | error e => trivial
    | ok plan =>
      cases plan with
      | nothing => trivial
      | ident row => exact (only_issue _).mpr ⟨row, rfl⟩
      | «attribute» ident row => exact absurd hcase (hplan ident row)

theorem expandEntities_add (hk : k.name = "add") (hattr : resolveAttribute c attr = .ok a)
    (hv : EncodesTo c a value v) :
    expandEntities c depth { builders } [addEntity k x attr value] =
      .ret ⟨[], [⟨x, a, v, true⟩]⟩ := by
  have hop : recognizeTxFn k = none := by
    unfold recognizeTxFn
    split <;> simp_all
  have hexpand : ∀ st : ExpandState, expandEntity c depth [] st (addEntity k x attr value, 0) =
      .ret (st.push ⟨x, a, v, true⟩) := by
    intro st
    simp only [expandEntity, addEntity, expandOperation, hop, hk, if_true, expandDatom,
      resolveEntityPlace, hattr, pure_eq_ret, ret_bind, Program.ofExcept, hv _]
  unfold expandEntities
  rw [zipIdx_singleton, foldlM_cons, hexpand]
  rfl

theorem resolveUpserts_add {tempids : Tempids} :
    server.Ensures (resolveUpserts c ⟨tempids, [⟨x, a, v, true⟩]⟩) b db fun st _ _ =>
      st.pending = [⟨x, a, v, true⟩] ∨ db.HeldBefore x a v := by
  unfold resolveUpserts
  rw [ensures_bind]
  have hlog : server.Ensures (([⟨x, a, v, true⟩] : List PendingDatom).foldlM
      (resolveAgainstLog c) []) b db fun remaps _ _ => remaps = [] ∨ db.HeldBefore x a v := by
    rw [foldlM_cons, ensures_bind, resolveAgainstLog]
    split
    · rw [ensures_bind]
      refine (checkUniqueTypedValue_ensures _ _ _ _).mono fun existing b1 db1 h1 => ?_
      split
      · exact (ensures_ret _).mpr ((ensures_ret _).mpr (.inl rfl))
      split
      · exact (ensures_ret _).mpr ((ensures_ret _).mpr (.inl rfl))
      · rename_i hne
        have hheld := heldBefore_of_firstHolder h1.1.symm hne
        exact (ensures_ret _).mpr ((ensures_ret _).mpr (.inr hheld))
    · exact (ensures_ret _).mpr ((ensures_ret _).mpr (.inl rfl))
  refine hlog.mono fun remaps b1 db1 h1 => ?_
  dsimp only
  rcases h1 with rfl | hheld
  · have hmerge : mergeIdentities (([⟨x, a, v, true⟩] : List PendingDatom).filter
        (isIdentityAssertion c)) [] = [] := by
      rw [filter_singleton]
      cases isIdentityAssertion c ⟨x, a, v, true⟩ <;> rfl
    rw [hmerge, if_pos (show flattenRemaps [] = [] from rfl)]
    exact (ensures_ret _).mpr (.inl rfl)
  · split <;> exact (ensures_ret _).mpr (.inr hheld)

theorem selectSchema_ensures :
    server.Ensures (spi .selectSchema) b db fun c _ db' => c = db.cache ∧ db' = db := by
  refine (ensures_issue _).mpr fun c b1 ops h => ?_
  cases h
  exact ⟨rfl, rfl⟩

theorem prepareDatoms_add (hk : k.name = "add")
    (hmeans : ∀ idents, resolveAttribute ⟨db.schema, idents⟩ attr = .ok a ∧
      EncodesTo ⟨db.schema, idents⟩ a value v) :
    server.Ensures (prepareDatoms depth [addEntity k x attr value]) b db fun prepared _ _ =>
      prepared.pending = [⟨x, a, v, true⟩] ∨ db.HeldBefore x a v := by
  obtain ⟨builders, hscan, hbuilders⟩ := scanEntities_add db.cache x attr value hk
  unfold prepareDatoms
  rw [ensures_bind]
  refine selectSchema_ensures.mono fun before b1 db1 h1 => ?_
  rw [h1.1, h1.2, hscan, ret_bind, ensures_bind]
  refine (installSchemaAttributes_ensures hbuilders).mono fun _ b2 db2 h2 => ?_
  rw [ensures_bind]
  refine selectSchema_ensures.mono fun cache b3 db3 h3 => ?_
  obtain ⟨hattr, hv⟩ := hmeans db2.idents
  rw [← h2.1] at hattr hv
  rw [h3.1, h3.2, expandEntities_add (c := db2.cache) hk hattr hv, ret_bind, ensures_bind]
  refine resolveUpserts_add.mono fun st b4 db4 h4 => (ensures_ret _).mpr ?_
  exact h4.imp_right fun ⟨e, hne, he⟩ => ⟨e, hne, he.mono (h2.2 ▸ fun r hr => hr)⟩

theorem prepareDatoms_add_failsWith (hk : k.name = "add")
    (hmeans : ∀ idents, resolveAttribute ⟨db.schema, idents⟩ attr = .ok a ∧
      EncodesTo ⟨db.schema, idents⟩ a value v) :
    server.FailsWith (prepareDatoms depth [addEntity k x attr value]) b db
      fun e => e.isUniqueViolation = false := by
  obtain ⟨builders, hscan, hbuilders⟩ := scanEntities_add db.cache x attr value hk
  refine (spi_failsWith _).bind (selectSchema_ensures.mono fun before b1 db1 h1 => ?_)
  rw [h1.1, h1.2, hscan, ret_bind]
  refine (installSchemaAttributes_failsWith _).bind
    ((installSchemaAttributes_ensures hbuilders).mono fun _ b2 db2 h2 => ?_)
  refine (spi_failsWith _).bind (selectSchema_ensures.mono fun cache b3 db3 h3 => ?_)
  obtain ⟨hattr, hv⟩ := hmeans db2.idents
  rw [← h2.1] at hattr hv
  rw [h3.1, expandEntities_add (c := db2.cache) hk hattr hv, ret_bind]
  exact (resolveUpserts_failsWith _ _).bind_all fun _ _ _ => failsWith_ret _

theorem heldBefore_of_recordTxInstant {tx instant : Int64} {db' : Db}
    (hkey : v.valueType.isKey = true)
    (hlog : db'.log = insertNew LogRow.key db.log (txInstantRow tx instant))
    (h : db'.HeldBefore x a v) : db.HeldBefore x a v := by
  obtain ⟨e, hne, r, hr, hadded, hrk⟩ := h
  rw [hlog, mem_insertNew] at hr
  rcases hr with hr | ⟨rfl, -⟩
  · exact ⟨e, hne, r, hr, hadded, hrk⟩
  · rw [← show TypedValue.instant instant = v from congrArg (·.2.2) hrk] at hkey
    cases hkey

theorem beginTransaction_add {call : Call} {entities : List EdnValue}
    (hadd : call.IsAdd db x a v) (hkey : v.valueType.isKey = true)
    (hdoc : call.document = .vector entities) :
    server.Ensures (beginTransaction call.backend.stackDepth entities) call.backend db
      fun out _ _ => out.2.pending = [⟨x, a, v, true⟩] ∨ db.HeldBefore x a v := by
  obtain ⟨k, attr, value, hk, hdoc', hmeans⟩ := hadd
  cases hdoc.symm.trans hdoc'
  unfold beginTransaction
  rw [ensures_bind]
  refine (allocateTxId_ensures _ _).mono fun ids b1 db1 h1 => ?_
  rw [ensures_bind]
  refine (recordTxInstant_ensures _ _ _ _).mono fun _ b2 db2 h2 => ?_
  rw [ensures_bind]
  have hschema : db2.schema = db.schema := by rw [h2, h1.2.2.2.2]
  rw [← hschema] at hmeans
  refine (prepareDatoms_add hk hmeans).mono fun prepared b3 db3 h3 => ?_
  have hlog : db2.log = insertNew LogRow.key db.log (txInstantRow ids.tx ids.instant) := by
    rw [h2, h1.2.2.2.2]
  exact (ensures_ret _).mpr (h3.imp_right (heldBefore_of_recordTxInstant hkey hlog))

theorem beginTransaction_add_failsWith {call : Call} {entities : List EdnValue}
    (hadd : call.IsAdd db x a v) (hdoc : call.document = .vector entities) :
    server.FailsWith (beginTransaction call.backend.stackDepth entities) call.backend db
      fun e => e.isUniqueViolation = false := by
  obtain ⟨k, attr, value, hk, hdoc', hmeans⟩ := hadd
  cases hdoc.symm.trans hdoc'
  have hallocate : ∀ {b : Backend} {db : Db},
      server.FailsWith allocateTxId b db fun e => e.isUniqueViolation = false :=
    (spi_failsWith _).bind_all fun _ _ _ => (spi_failsWith _).bind_all fun _ _ _ =>
      (spi_failsWith _).bind_all fun _ _ _ => failsWith_ret _
  have hrecord : ∀ {tx instant : Int64} {b : Backend} {db : Db},
      server.FailsWith (recordTxInstant tx instant) b db fun e => e.isUniqueViolation = false :=
    (spi_failsWith _).bind_all fun _ _ _ => spi_failsWith _
  refine hallocate.bind ((allocateTxId_ensures _ _).mono fun ids b1 db1 h1 => ?_)
  refine hrecord.bind ((recordTxInstant_ensures _ _ _ _).mono fun _ b2 db2 h2 => ?_)
  have hschema : db2.schema = db.schema := by rw [h2, h1.2.2.2.2]
  rw [← hschema] at hmeans
  exact (prepareDatoms_add_failsWith hk hmeans).bind_all fun _ _ _ => failsWith_ret _

end Add

variable {call : Call} {db : Db} {x a : Int64} {v : TypedValue}

theorem mentatTransact_add_error {e : MentatError} (hadd : call.IsAdd db x a v)
    (hkey : v.valueType.isKey = true) (herr : mentatTransact call db = .error e)
    (hviolation : e.isUniqueViolation = true) : db.HeldBefore x a v := by
  obtain ⟨k, attr, value, -, hdoc, -⟩ := id hadd
  have hfails : server.FailsWith (executeTransactionInner call.backend.stackDepth call.document)
      call.backend db fun e => e.isUniqueViolation = true → db.HeldBefore x a v := by
    rw [hdoc]
    refine Server.FailsWith.bind (fun e he h => ?_) ?_
    · have hother := beginTransaction_add_failsWith hadd hdoc e he
      exact absurd h (Bool.eq_false_iff.mp hother)
    refine (beginTransaction_ensures.and (beginTransaction_add hadd hkey hdoc)).mono
      fun out b mid h => ?_
    obtain ⟨hbegun, hpending | hheld⟩ := h
    · refine Server.FailsWith.bind_all ?_ fun _ _ _ => failsWith_ret _
      rw [hpending]
      intro e he hviolation
      exact heldBefore_of_recordTxInstant hkey hbegun.log_eq
        (insertDatoms_failsWith e he hviolation)
    · exact fun _ _ _ => hheld
  unfold mentatTransact at herr
  split at herr
  · cases herr
  · rename_i e' hrun
    cases herr
    exact hfails e hrun hviolation

theorem Call.Refused.heldBefore (h : call.Refused db x) (hadd : call.IsAdd db x a v)
    (hkey : v.valueType.isKey = true) : db.HeldBefore x a v := by
  rcases h with ⟨e, herr, hviolation⟩ | ⟨d, hd, hne⟩
  · exact mentatTransact_add_error hadd hkey herr hviolation
  obtain ⟨k, attr, value, -, hdoc, -⟩ := id hadd
  unfold Call.pending Call.prepared at hd
  rw [hdoc] at hd
  dsimp only at hd
  cases hrun : server.run (beginTransaction call.backend.stackDepth [addEntity k x attr value])
      call.backend db with
  | error e =>
    rw [hrun] at hd
    cases hd
  | ok out =>
    obtain ⟨⟨ids, prepared⟩, b, mid⟩ := out
    rw [hrun] at hd
    rcases beginTransaction_add hadd hkey hdoc _ _ _ hrun with hpending | hheld
    · rw [show d = ⟨x, a, v, true⟩ from mem_singleton.mp (hpending ▸ hd)] at hne
      exact absurd rfl hne
    · exact hheld

/-- In a run that declares attributes unique only while no value of theirs has two holders, a
unique key has one live holder; and an entity is refused a key only because another one has it,
unless all others have lost it. -/
theorem unique_of_declaresSafely {db : Db}
    (hrun : Reaches (fun d _ d' => DeclaresSafely d d') bootstrapDb db) :
    (∀ a, db.UniqueAttr a → ∀ v, v.valueType.isKey = true →
      ∀ e e', db.Live (e, a, v) → db.Live (e', a, v) → e = e') ∧
    ∀ (call : Call) x a v, call.IsAdd db x a v → v.valueType.isKey = true →
      (db.HeldBefore x a v → db.HeldNow x a v) → call.Refused db x → db.HeldNow x a v := by
  have hinv := logInv_of_reaches hrun
  refine ⟨fun a ha v hv e e' he he' => ?_, fun call x a v hadd hkey hheld hrefused => ?_⟩
  · exact hinv.one a ha v hv e e' (hinv.live e a v he) (hinv.live e' a v he')
  · exact hheld (hrefused.heldBefore hadd hkey)

theorem declaresSafely_iff {db db' : Db} :
    DeclaresSafely db db' ↔ ∀ r ∈ db.log, db'.UniqueAttr r.a ∧ ¬ db.UniqueAttr r.a ∧
      r.v.valueType.isKey = true ∧ r.added = true →
      ∀ r' ∈ db.log, r'.added = true ∧ r'.a = r.a ∧ r'.v = r.v → r.e = r'.e := by
  constructor
  · intro h r hr ⟨hunique, hnew, hkey, hadded⟩ r' hr' hsame
    refine h r.a hunique hnew r.v hkey r.e r'.e ⟨r, hr, hadded, rfl⟩ ⟨r', hr', hsame.1, ?_⟩
    rw [LogRow.triple, hsame.2.1, hsame.2.2]
  · rintro h a hunique hnew v hkey e e' ⟨r, hr, hadded, hrk⟩ ⟨r', hr', hadded', hrk'⟩
    simp only [LogRow.triple, Prod.mk.injEq] at hrk hrk'
    obtain ⟨rfl, rfl, rfl⟩ := hrk
    obtain ⟨rfl, ha, hv⟩ := hrk'
    exact h r hr ⟨hunique, hnew, hkey, hadded⟩ r' hr' ⟨hadded', ha, hv⟩

instance (db db' : Db) : Decidable (DeclaresSafely db db') :=
  decidable_of_iff _ declaresSafely_iff.symm

/-- `:person/email` is a unique string. -/
def defineEmail : Call :=
  defineCall 1000000000001 1735689600000000 1000001
    [("ident", .namespaced "person" "email"), ("valueType", .namespaced "db.type" "string"),
     ("cardinality", .namespaced "db.cardinality" "one"),
     ("unique", .namespaced "db.unique" "value")]

def addEmail (tx e : Int64) : Call :=
  plainCall tx 1735689601000000 [addDatom e 1000001 (.text "a@x")]

def retractEmail (tx e : Int64) : Call :=
  plainCall tx 1735689602000000 [retractDatom e 1000001 (.text "a@x")]

theorem isAdd_addEmail {tx e : Int64} (htype : lookupValueType db.cache 1000001 = some .string) :
    (addEmail tx e).IsAdd db e 1000001 (.text "a@x") := by
  refine ⟨_, _, _, rfl, rfl, fun idents => ⟨rfl, fun tempids => ?_⟩⟩
  have htype' : lookupValueType ⟨db.schema, idents⟩ 1000001 = some .string := htype
  rw [encodeForAttribute, htype']
  rfl

def violatesUnique {α : Type} : Except MentatError α → Bool
  | .error e => e.isUniqueViolation
  | .ok _ => false

theorem exists_of_violatesUnique {α : Type} {x : Except MentatError α}
    (h : violatesUnique x = true) : ∃ e, x = .error e ∧ e.isUniqueViolation = true := by
  cases x with
  | error e => exact ⟨e, rfl, h⟩
  | ok a => cases h

/-- A second entity is refused the address of the first. -/
theorem unique_of_declaresSafely_email :
    ∃ db, stateAfter [defineEmail, addEmail 1000000000002 500] = some db ∧
      (addEmail 1000000000003 501).Refused db 501 ∧ db.HeldNow 501 1000001 (.text "a@x") ∧
      ∀ e, db.Live (e, 1000001, .text "a@x") → e = 500 := by
  have hmeets : RunMeets (fun d _ d' => DeclaresSafely d d')
      [defineEmail, addEmail 1000000000002 500] bootstrapDb := by
    decide +kernel
  have hstate : ∃ db, stateAfter [defineEmail, addEmail 1000000000002 500] = some db ∧
      db.UniqueAttr 1000001 ∧ lookupValueType db.cache 1000001 = some .string ∧
        db.Live (500, 1000001, .text "a@x") ∧
        violatesUnique (mentatTransact (addEmail 1000000000003 501) db) = true := by
    decide +kernel
  obtain ⟨db, hdb, hrun, hunique, htype, hlive, hviolates⟩ := hmeets.exists_reaches hstate
  have hrefused : (addEmail 1000000000003 501).Refused db 501 :=
    .inl (exists_of_violatesUnique hviolates)
  obtain ⟨hone, hnow⟩ := unique_of_declaresSafely hrun
  refine ⟨db, hdb, hrefused, ?_, fun e he => ?_⟩
  · exact hnow _ _ _ _ (isAdd_addEmail htype) rfl (fun _ => ⟨500, by decide, hlive⟩) hrefused
  · exact hone 1000001 hunique (.text "a@x") rfl e 500 he hlive

/-- An address that nobody has any more is still refused. -/
theorem refused_after_retraction :
    ∃ db, Reaches (fun d _ d' => DeclaresSafely d d') bootstrapDb db ∧ db.UniqueAttr 1000001 ∧
      (addEmail 1000000000004 501).IsAdd db 501 1000001 (.text "a@x") ∧
      (addEmail 1000000000004 501).Refused db 501 ∧
      ¬ db.HeldNow 501 1000001 (.text "a@x") := by
  have hmeets : RunMeets (fun d _ d' => DeclaresSafely d d')
      [defineEmail, addEmail 1000000000002 500, retractEmail 1000000000003 500] bootstrapDb := by
    decide +kernel
  have hstate : ∃ db, stateAfter
        [defineEmail, addEmail 1000000000002 500, retractEmail 1000000000003 500] = some db ∧
      db.UniqueAttr 1000001 ∧ lookupValueType db.cache 1000001 = some .string ∧
        (∀ r ∈ db.current, r.a ≠ 1000001) ∧
        violatesUnique (mentatTransact (addEmail 1000000000004 501) db) = true := by
    decide +kernel
  obtain ⟨db, -, hrun, hunique, htype, hnone, hviolates⟩ := hmeets.exists_reaches hstate
  refine ⟨db, hrun, hunique, isAdd_addEmail htype,
    .inl (exists_of_violatesUnique hviolates), ?_⟩
  rintro ⟨e, -, r, hr, hk⟩
  exact hnone r hr (congrArg (·.2.1) hk)

end PgMentat

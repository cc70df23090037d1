import PgMentat.Cas
import PgMentat.Lib.Interleaving

namespace PgMentat

open StatementProgram Program

/-- What a statement locks until its transaction ends: the rows it writes, by each of their unique
keys, and advisory locks. -/
inductive Lock where
  | log (key : Triple × Int64)
  | current (triple : Triple)
  | schemaEntid (entid : Int64)
  | schemaIdent (ident : String)
  | identsIdent (ident : String)
  | identsEntid (entid : Int64)
  | transaction (tx : Int64)
  | advisory (a : Int64) (v : TypedValue)
  deriving DecidableEq

def RowWrite.locks : RowWrite → List Lock
  | putLog row => [.log row.key]
  | delLog key => [.log key]
  | putCurrent row => [.current row.triple]
  | delCurrent triple => [.current triple]
  | putSchema row => [.schemaEntid row.entid, .schemaIdent row.ident]
  | putIdent row => [.identsIdent row.ident, .identsEntid row.entid]
  | putTransaction row => [.transaction row.tx]
  | addFulltext _ => []

def Stmt.locks (s : Stmt) (ops : List RowWrite) : List Lock :=
  match s with
  | advisoryXactLock a v => [.advisory a v]
  | _ => ops.flatMap RowWrite.locks

def Stmt.ReportOnly : Stmt → Prop
  | selectBasis _ => True
  | _ => False

theorem Stmt.SchemaOnly.not_reportOnly {s : Stmt} (h : s.SchemaOnly) : ¬ s.ReportOnly := by
  cases s with
  | selectBasis tx => exact h.elim
  | _ => exact id

theorem Stmt.ReadOnly.not_reportOnly {s : Stmt} (h : s.ReadOnly) : ¬ s.ReportOnly :=
  h.schemaOnly.not_reportOnly

theorem flushTypes_only {ρ : Type} {A : Stmt → Prop} (rows : List ρ) (type : ρ → ValueType)
    {stmt : ValueType → List ρ → Tx Unit} (h : ∀ t rows, (stmt t rows).Only A) :
    (flushTypes rows type stmt).Only A := by
  refine Only.foldlM _ _ fun _ t _ => ?_
  split
  · trivial
  · exact h t _

theorem retractExistingCardinalityOne_only (e a : Int64) (v : TypedValue) :
    (retractExistingCardinalityOne e a v).Only Stmt.ReadOnly := by
  have hread : (currentProjectionValueForEa e a v).Only Stmt.ReadOnly := by
    refine ((only_issue _).mpr trivial).bind fun text => ?_
    split
    · trivial
    · split <;> trivial
  refine hread.bind fun old => ?_
  split
  · trivial
  · split <;> trivial

theorem validateDatomConstraints_only (c : SchemaCache) (d : PendingDatom)
    (all : List PendingDatom) : (validateDatomConstraints c d all).Only Stmt.ReadOnly := by
  unfold validateDatomConstraints
  split
  · trivial
  · split
    · trivial
    · split
      · trivial
      · split
        · trivial
        · unfold validateUnique
          split
          · trivial
          · refine ((only_issue _).mpr trivial).bind fun _ => ?_
            refine ((only_issue _).mpr trivial).bind fun e => ?_
            split
            · trivial
            · split <;> trivial

theorem insertDatoms_only (c : SchemaCache) (pending : List PendingDatom) (tx : Int64) :
    (insertDatoms c pending tx).Only fun s => ¬ s.ReportOnly := by
  have hissue {s : Stmt} (hs : ¬ s.ReportOnly) : (spi s).Only fun s => ¬ s.ReportOnly :=
    (only_issue s).mpr hs
  have hone (e a : Int64) (v : TypedValue) :
      (retractExistingCardinalityOne e a v).Only fun s => ¬ s.ReportOnly :=
    (retractExistingCardinalityOne_only e a v).mono fun _ => Stmt.ReadOnly.not_reportOnly
  have hqueue (st : InsertState) (d : PendingDatom) :
      (queueDatom c pending tx st d).Only fun s => ¬ s.ReportOnly := by
    unfold queueDatom
    split
    · refine ((validateDatomConstraints_only c d pending).mono
        fun _ => Stmt.ReadOnly.not_reportOnly).bind fun _ => ?_
      split
      · trivial
      · split
        · unfold queueNoHistory
          split
          · refine (hone _ _ _).bind fun result => ?_
            split
            · trivial
            · exact (hissue id).bind fun _ => (hissue id).bind fun _ => trivial
          · refine (hissue id).bind fun dup => ?_
            split
            · trivial
            · exact (hissue id).bind fun _ => trivial
        · unfold queueAssertion
          split
          · refine (hone _ _ _).bind fun result => ?_
            split <;> trivial
          · refine (hissue id).bind fun dup => ?_
            split <;> trivial
    · trivial
  refine (Only.foldlM _ _ fun st d _ => hqueue st d).bind fun st => ?_
  refine (flushTypes_only _ _ fun _ _ => hissue id).bind fun _ => ?_
  refine Only.bind ?_ fun _ => Only.foldlM _ _ fun _ _ _ => hissue id
  exact (flushTypes_only _ _ fun _ _ => hissue id).bind fun _ =>
    flushTypes_only _ _ fun _ _ => hissue id

theorem prepareDatoms_only (depth : Nat) (entities : List EdnValue) :
    (prepareDatoms depth entities).Only fun s => ¬ s.ReportOnly := by
  have hread {α : Type} {p : Tx α} (hp : p.Only Stmt.ReadOnly) : p.Only fun s => ¬ s.ReportOnly :=
    hp.mono fun _ => Stmt.ReadOnly.not_reportOnly
  refine (hread ((only_issue Stmt.selectSchema).mpr trivial)).bind fun before => ?_
  refine (hread (scanEntities_only _ _)).bind fun scan => ?_
  refine ((installSchemaAttributes_only _).mono
    fun _ => Stmt.SchemaOnly.not_reportOnly).bind fun _ => ?_
  refine (hread ((only_issue Stmt.selectSchema).mpr trivial)).bind fun cache => ?_
  refine (hread (expandEntities_only _ _ _ _)).bind fun expanded => ?_
  exact (hread (resolveUpserts_only _ _)).bind fun _ => trivial

theorem allocateTxId_similar :
    allocateTxId.Similar Stmt.ReportOnly (fun ids ids' => ids.tx = ids'.tx ∧
      ids.instant = ids'.instant) allocateTxId := by
  refine (similar_issue _).bind fun tx tx' htx => ?_
  obtain rfl := htx.resolve_right id
  refine (similar_issue _).bind fun basis basis' _ => ?_
  refine (similar_issue _).bind fun instant instant' hinstant => ?_
  exact .ret ⟨rfl, hinstant.resolve_right id⟩

theorem executeTransactionInner_similar (depth : Nat) (document : EdnValue) :
    (executeTransactionInner depth document).Similar Stmt.ReportOnly (fun _ _ => True)
      (executeTransactionInner depth document) := by
  unfold executeTransactionInner
  split
  · rename_i entities
    have hbegin : (beginTransaction depth entities).Similar Stmt.ReportOnly
        (fun out out' => out.1.tx = out'.1.tx ∧ out.2 = out'.2)
        (beginTransaction depth entities) := by
      refine allocateTxId_similar.bind fun ids ids' hids => ?_
      rw [hids.1, hids.2]
      refine (similar_of_only ?_).bind fun _ _ _ => ?_
      · exact ((only_issue _).mpr id).bind fun _ => (only_issue _).mpr id
      · refine (similar_of_only ?_).bind fun prepared prepared' h => .ret ⟨hids.1, h⟩
        exact prepareDatoms_only depth entities
    refine hbegin.bind fun out out' hout => ?_
    obtain ⟨ids, prepared⟩ := out
    obtain ⟨ids', prepared'⟩ := out'
    obtain ⟨htx, rfl⟩ := hout
    dsimp only at htx ⊢
    rw [htx]
    exact (similar_of_only (insertDatoms_only _ _ _)).bind fun _ _ _ => .ret trivial
  · exact .fail _

abbrev TxWorld : Type := World Bool Stmt Stmt.Reply MentatError Backend Db RowWrite TxReport

/-- Two sessions about to make their calls. -/
def startBoth (db : Db) (first second : Call) : TxWorld :=
  .start db (fun i => executeTransactionInner (cond i second first).backend.stackDepth
    (cond i second first).document) fun i => (cond i second first).backend

/-- The next statement of a session on the state committed now, or its commit. -/
def TxWorld.advance (w : TxWorld) (i : Bool) : Option TxWorld :=
  match w.session i with
  | none => none
  | some s =>
    match s.program with
    | .ret _ =>
      some { w.set i none with committed := server.writeAll w.committed (writesOf s.trace) }
    | .fail _ => none
    | .call q k =>
      match server.answer q s.state (server.writeAll w.committed (writesOf s.trace)) with
      | .error _ => none
      | .ok (x, r, ops) =>
        if ∃ t ∈ w.session (!i), ∃ l ∈ q.locks ops, l ∈ t.held Stmt.locks then none
        else some (w.set i (some ⟨k x, r, s.trace ++ [⟨q, x, s.state, r, ops⟩], none⟩))

def TxWorld.schedule (w : TxWorld) (turns : List Bool) : Option TxWorld :=
  turns.foldlM TxWorld.advance w

variable {w w' : TxWorld} {turns : List Bool}

theorem TxWorld.advance_steps {i : Bool} {ok : TxWorld → Prop} (h : w.advance i = some w')
    (hsnapshot : ∀ s, w.session i = some s →
      ok (w.set i (some ⟨s.program, s.state, s.trace, some w.committed⟩))) (hok : ok w') :
    Steps server Stmt.locks ok w w' := by
  unfold advance at h
  split at h
  · cases h
  · rename_i s hs
    split at h
    · rename_i a hprogram
      cases h
      exact .tail .refl (.commit hs hprogram) hok
    · cases h
    · rename_i q k hprogram
      split at h
      · cases h
      · rename_i x r ops hanswer
        split at h
        · cases h
        · rename_i hfree
          cases h
          refine .statement hs hprogram hanswer (fun j t hj ht l hl hheld => ?_)
            (hsnapshot s hs) hok
          rw [Bool.eq_not_of_ne hj] at ht
          exact hfree ⟨t, ht, l, hl, hheld⟩

theorem TxWorld.schedule_steps (h : w.schedule turns = some w') :
    Steps server Stmt.locks (fun _ => True) w w' := by
  induction turns generalizing w with
  | nil =>
    cases h
    exact .refl
  | cons i turns ih =>
    rw [schedule, List.foldlM_cons] at h
    obtain ⟨w1, h1, h⟩ := Option.bind_eq_some_iff.mp h
    exact (advance_steps h1 (fun _ _ => trivial) trivial).trans (ih h)

/-- No commit changes the answer to a statement that an open call has executed, the reading of the
basis excepted. -/
abbrev TxWorld.Undisturbed (w : TxWorld) : Prop := World.Undisturbed server Stmt.ReportOnly w

theorem mentatTransact_of_run {call : Call} {db db' : Db} {report : TxReport} {b : Backend}
    (h : server.run (executeTransactionInner call.backend.stackDepth call.document) call.backend db
      = .ok (report, b, db')) : mentatTransact call db = .ok (report, db') := by
  rw [mentatTransact, h]

theorem serial_of_undisturbed {db : Db} {first second : Call}
    (hrun : Steps server Stmt.locks TxWorld.Undisturbed (startBoth db first second) w)
    (hfirst : w.session false = none) (hsecond : w.session true = none) :
    ∃ i mid report report', mentatTransact (cond i second first) db = .ok (report, mid) ∧
      mentatTransact (cond i first second) mid = .ok (report', w.committed) := by
  obtain ⟨order, hnodup, hended, hserial⟩ :=
    hrun.serial fun i => executeTransactionInner_similar _ _
  have hall : ∀ i, i ∈ order := by
    intro i
    rw [hended]
    cases i with
    | false => exact hfirst
    | true => exact hsecond
  obtain ⟨i, rfl⟩ : ∃ i, order = [] ++ [i] ++ [!i] := by
    have hperm : order.Perm [false, true] := (List.perm_ext_iff_of_nodup hnodup (by decide)).mpr
      fun i => iff_of_true (hall i) (by cases i <;> decide)
    obtain ⟨i, j, rfl⟩ := List.length_eq_two.mp hperm.length_eq
    refine ⟨i, ?_⟩
    cases i <;> cases j <;> simp at hnodup ⊢
  obtain ⟨mid, report, b, hmid, hrun2⟩ := serial_snoc hserial
  obtain ⟨start, report', b', hstart, hrun1⟩ := serial_snoc hmid
  rw [serial_nil hstart] at hrun1
  refine ⟨i, mid, report', report, mentatTransact_of_run hrun1, ?_⟩
  have hcond : cond (!i) second first = cond i first second := by cases i <;> rfl
  rw [hcond] at hrun2
  exact mentatTransact_of_run hrun2

/-- Two calls at once, both of which commit undisturbed, leave the state of a serial order. In
particular a single-valued attribute keeps at most one value where each call reads it exactly, and
two cas calls with the same expectation do not both commit. -/
theorem concurrent_calls_serial {db : Db} {first second : Call} {w : TxWorld}
    (hrun : Steps server Stmt.locks TxWorld.Undisturbed (startBoth db first second) w)
    (hfirst : w.session false = none) (hsecond : w.session true = none) :
    ∃ i mid report report', mentatTransact (cond i second first) db = .ok (report, mid) ∧
      mentatTransact (cond i first second) mid = .ok (report', w.committed) ∧
      (∀ e a, db.SingleValued (· ≠ .double) e a → mid.DeclaredOne a → w.committed.DeclaredOne a →
        (cond i second first).ReadsExactly db e a → (cond i first second).ReadsExactly mid e a →
        w.committed.SingleValued (· ≠ .double) e a) ∧
      ∀ e a old new new', (cond i second first).IsCas db e a old new → mid.DeclaredOne a →
        old ≠ some new → ¬ (cond i first second).IsCas mid e a old new' := by
  obtain ⟨i, mid, report, report', h, h'⟩ := serial_of_undisturbed hrun hfirst hsecond
  refine ⟨i, mid, report, report', h, h', ?_, ?_⟩
  · intro e a hsingle hone hone' hreads hreads'
    obtain ⟨_, _, _, hc⟩ := mentatTransact_committed h
    obtain ⟨_, _, _, hc'⟩ := mentatTransact_committed h'
    have hmid := hc.singleValued (hc.readBack hone hreads hsingle)
    exact hc'.singleValued (hc'.readBack hone' hreads' hmid)
  · intro e a old new new' hcas hone hne hcas'
    exact mentatTransact_cas_twice hcas h hone hne hcas' h'

/-- The session has done nothing but draw its transaction id. -/
def TxWorld.Idle (w : TxWorld) (i : Bool) : Prop :=
  ∀ s ∈ w.session i, ∀ t ∈ s.trace, t.stmt = .nextvalTx

theorem confirmed_of_idle {db db' : Db} {writes : List RowWrite}
    {trace : List (Executed Stmt Stmt.Reply Backend RowWrite)}
    (h : Confirmed server Stmt.ReportOnly db writes trace)
    (hidle : ∀ t ∈ trace, t.stmt = .nextvalTx) :
    Confirmed server Stmt.ReportOnly db' writes trace := by
  induction trace generalizing writes with
  | nil => trivial
  | cons t trace ih =>
    refine ⟨?_, ih h.2 fun t' ht' => hidle t' (List.mem_cons_of_mem t ht')⟩
    obtain ⟨stmt, reply, before, after, ops⟩ := t
    obtain rfl : stmt = .nextvalTx := hidle _ List.mem_cons_self
    exact h.1

theorem TxWorld.advance_undisturbed {i : Bool} (hw : w.Undisturbed) (h : w.advance i = some w')
    (hquiet : w'.session i ≠ none ∨ w.Idle (!i)) : Steps server Stmt.locks Undisturbed w w' := by
  refine advance_steps h (fun s hs j t ht => ?_) ?_
  · rw [World.set_session] at ht
    split at ht
    · cases ht
      exact hw i s hs
    · exact hw j t ht
  · unfold advance at h
    split at h
    · cases h
    · rename_i s hs
      split at h
      · cases h
        intro j t ht
        rw [World.set_session] at ht
        split at ht
        · cases ht
        · rename_i hj
          refine confirmed_of_idle (hw j t ht) ?_
          have hidle := hquiet.resolve_left (by simp [World.set_session])
          exact hidle t (Bool.eq_not_of_ne hj ▸ ht)
      · cases h
      · split at h
        · cases h
        · rename_i hanswer
          split at h
          · cases h
          · cases h
            intro j t ht
            rw [World.set_session] at ht
            split at ht
            · cases ht
              refine confirmed_append.mpr ⟨hw i s hs, ⟨_, ?_, .inl rfl⟩, trivial⟩
              exact hanswer
            · exact hw j t ht

instance (w : TxWorld) (i : Bool) : Decidable (w.Idle i) :=
  inferInstanceAs (Decidable (∀ s ∈ w.session i, ∀ t ∈ s.trace, t.stmt = .nextvalTx))

/-- A schedule in which a session commits only while the other is idle. -/
def TxWorld.quietSchedule : TxWorld → List Bool → Option TxWorld
  | w, [] => some w
  | w, i :: turns =>
    match w.advance i with
    | none => none
    | some w' =>
      if (w'.session i).isSome ∨ w.Idle (!i) then quietSchedule w' turns else none

theorem TxWorld.quietSchedule_steps (hw : w.Undisturbed) (h : w.quietSchedule turns = some w') :
    Steps server Stmt.locks Undisturbed w w' := by
  induction turns generalizing w with
  | nil =>
    cases h
    exact .refl
  | cons i turns ih =>
    rw [quietSchedule] at h
    split at h
    · cases h
    · rename_i w1 h1
      split at h
      · rename_i hquiet
        have hsteps := advance_undisturbed hw h1 (hquiet.imp_left Option.isSome_iff_ne_none.mp)
        refine hsteps.trans (ih ?_ h)
        cases hsteps with
        | refl => exact hw
        | tail _ _ hok => exact hok
      · cases h

theorem startBoth_undisturbed (db : Db) (first second : Call) :
    TxWorld.Undisturbed (startBoth db first second) := by
  intro i s hs
  cases hs
  trivial

def addDocCall (txId : Int64) (doc : String) : Call :=
  plainCall txId 1735689602000000 [addDatom 500 Entids.dbDoc (.text doc)]

def casDocCall (txId : Int64) (old new : String) : Call :=
  plainCall txId 1735689602000000 [casEntity (.namespaced "db.fn" "cas") 500
    (.integer Entids.dbDoc) (.text old) (.text new)]

/-- The second call has its transaction id before the first starts, and goes on when the first has
committed. -/
theorem concurrent_calls_serial_docs :
    ∃ w : TxWorld, w.session false = none ∧ w.session true = none ∧
      Steps server Stmt.locks TxWorld.Undisturbed
        (startBoth bootstrapDb (addDocCall 1000000000001 "a") (addDocCall 1000000000002 "b")) w ∧
      ∃ i mid report report',
        mentatTransact (cond i (addDocCall 1000000000002 "b") (addDocCall 1000000000001 "a"))
          bootstrapDb = .ok (report, mid) ∧
        mentatTransact (cond i (addDocCall 1000000000001 "a") (addDocCall 1000000000002 "b")) mid =
          .ok (report', w.committed) := by
  have hschedule : ∃ w ∈ TxWorld.quietSchedule
      (startBoth bootstrapDb (addDocCall 1000000000001 "a") (addDocCall 1000000000002 "b"))
      ([true] ++ List.replicate 11 false ++ List.replicate 11 true),
      (w.session false).isNone ∧ (w.session true).isNone := by
    decide +kernel
  obtain ⟨w, hw, hfirst, hsecond⟩ := hschedule
  have hrun := TxWorld.quietSchedule_steps (startBoth_undisturbed _ _ _) hw
  have hended :=
    And.intro (Option.isNone_iff_eq_none.mp hfirst) (Option.isNone_iff_eq_none.mp hsecond)
  obtain ⟨i, mid, report, report', h, h', -⟩ := concurrent_calls_serial hrun hended.1 hended.2
  exact ⟨w, hended.1, hended.2, hrun, i, mid, report, report', h, h'⟩

/-- Both calls read the old value before either commits: both cas commit, both new values are live,
and no serial order commits both. -/
theorem cas_race :
    ∃ db w, stateAfter [addDocCall 1000000000001 "x"] = some db ∧
      Steps server Stmt.locks (fun _ => True)
        (startBoth db (casDocCall 1000000000002 "x" "a") (casDocCall 1000000000003 "x" "b")) w ∧
      w.session false = none ∧ w.session true = none ∧
      w.committed.Live (500, Entids.dbDoc, .text "a") ∧
      w.committed.Live (500, Entids.dbDoc, .text "b") ∧
      (transactAll [casDocCall 1000000000002 "x" "a", casDocCall 1000000000003 "x" "b"] db).isOk =
        false ∧
      (transactAll [casDocCall 1000000000003 "x" "b", casDocCall 1000000000002 "x" "a"] db).isOk =
        false := by
  have hschedule : ∃ db ∈ stateAfter [addDocCall 1000000000001 "x"],
      ∃ w ∈ TxWorld.schedule
        (startBoth db (casDocCall 1000000000002 "x" "a") (casDocCall 1000000000003 "x" "b"))
        (List.replicate 9 true ++ List.replicate 13 false ++ List.replicate 4 true),
      (w.session false).isNone ∧ (w.session true).isNone ∧
      w.committed.Live (500, Entids.dbDoc, .text "a") ∧
      w.committed.Live (500, Entids.dbDoc, .text "b") ∧
      (transactAll [casDocCall 1000000000002 "x" "a", casDocCall 1000000000003 "x" "b"] db).isOk =
        false ∧
      (transactAll [casDocCall 1000000000003 "x" "b", casDocCall 1000000000002 "x" "a"] db).isOk =
        false := by
    decide +kernel
  obtain ⟨db, hdb, w, hw, hfirst, hsecond, hrest⟩ := hschedule
  exact ⟨db, w, hdb, TxWorld.schedule_steps hw, Option.isNone_iff_eq_none.mp hfirst,
    Option.isNone_iff_eq_none.mp hsecond, hrest⟩

end PgMentat

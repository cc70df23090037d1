import PgMentat.Stores
import PgMentat.Projection
import Mathlib.Data.List.Dedup
import Mathlib.Data.List.Sort

namespace PgMentat

open List LatestWins

structure ExciseSummary where
  excised : Nat
  datomsRemoved : Nat
  txEntriesRemoved : Nat
  deriving DecidableEq, Repr

/-- The subselect over `partitions`; a second matching row is an error of PostgreSQL. -/
def partitionAllows (partitions : List Partition) (eid : Int64) : Except String Bool :=
  match partitions.filter fun p => p.startEntid ≤ eid ∧ eid < p.endEntid with
  | [] => .ok false
  | [p] => .ok p.allowExcision
  | _ => .error "more than one row returned by a subquery used as an expression"

def checkExcisable (d : Database) (store : String) (eid : Int64) : Except String Unit := do
  if eid < 10000 then
    throw (s!":db.error/excision-denied Cannot excise schema entity {eid.toInt}. " ++
      "Schema entities (entid < 10000) are protected from excision.")
  match d.tables (unquotedSchema (getSchemaForStore store)) with
  | none => throw "relation \"partitions\" does not exist"
  | some tables =>
    let allowed ← partitionAllows tables.partitions eid
    if !allowed then
      throw (s!":db.error/excision-denied Excision not allowed for entity {eid.toInt}. " ++
        "The partition containing this entity has allow_excision = false. " ++
        "Use: UPDATE mentat.partitions SET allow_excision = true WHERE ...")

/-- The log rows of other entities that assert a reference to an excised one, in any store. -/
def danglingRefs (d : Database) (ids : List Int64) : List LogRow :=
  (d.log.map Owned.row).filter fun r =>
    r.added && decide (r.e ∉ ids) && ids.any fun id => r.v = .ref id

/-- `array_agg(DISTINCT e)::TEXT`. -/
def arrayText (ids : List Int64) : String :=
  "\x7b" ++ ",".intercalate ((ids.dedup.insertionSort (· ≤ ·)).map fun id => toString id.toInt) ++
    "\x7d"

def checkDanglingRefs (d : Database) (ids : List Int64) : Except String Unit :=
  let refs := danglingRefs d ids
  if 0 < refs.length then
    throw (s!":db.error/excision-dangling-refs Cannot excise: {refs.length} other entities " ++
      "reference the target entities. Referencing entity IDs (first 10): " ++
      s!"{arrayText (refs.map LogRow.e)}. Either excise the referencing entities too, or " ++
      "retract the references first.")
  else pure ()

/-- One round of the loop over the tables: count the rows and delete them if there are any. -/
def exciseTable (ids : List Int64) (st : List (Owned LogRow) × Nat) (type : ValueType) :
    List (Owned LogRow) × Nat :=
  let doomed (r : Owned LogRow) : Bool := r.row.v.valueType = type ∧ r.row.e ∈ ids
  let count := (st.1.filter doomed).length
  if 0 < count then (st.1.filter (!doomed ·), st.2 + count) else st

def exciseInternal (d : Database) (store : String) (ids : List Int64) (reason : Option String) :
    Except String (ExciseSummary × Database) := do
  if ids.isEmpty then
    return (⟨0, 0, 0⟩, d)
  ids.forM (checkExcisable d store)
  checkDanglingRefs d ids
  let swept := ValueType.all.foldl (exciseTable ids) (d.log, 0)
  let entry : ExcisionRow := ⟨store, ids, swept.2, 0, reason⟩
  return (⟨ids.length, swept.2, 0⟩,
    { d with log := swept.1, excisionLog := d.excisionLog ++ [entry] })

theorem exciseTable_log (ids : List Int64) (st : List (Owned LogRow) × Nat) (type : ValueType) :
    (exciseTable ids st type).1 =
      st.1.filter fun r => !decide (r.row.v.valueType = type ∧ r.row.e ∈ ids) := by
  unfold exciseTable
  dsimp only
  split
  · rfl
  · rename_i hnone
    symm
    apply filter_eq_self.mpr
    intro r hr
    by_contra hdoomed
    apply hnone
    apply length_pos_of_mem (a := r)
    exact mem_filter.mpr ⟨hr, by simpa using hdoomed⟩

theorem exciseTable_count (ids : List Int64) (st : List (Owned LogRow) × Nat) (type : ValueType) :
    (exciseTable ids st type).2 + (exciseTable ids st type).1.length = st.2 + st.1.length := by
  unfold exciseTable
  dsimp only
  split
  · have hsplit := length_eq_length_filter_add (l := st.1)
      fun r => decide (r.row.v.valueType = type ∧ r.row.e ∈ ids)
    dsimp only
    omega
  · rfl

theorem exciseTables_log (ids : List Int64) (types : List ValueType)
    (st : List (Owned LogRow) × Nat) :
    (types.foldl (exciseTable ids) st).1 =
      st.1.filter fun r => !decide (r.row.v.valueType ∈ types ∧ r.row.e ∈ ids) := by
  induction types generalizing st with
  | nil => simp
  | cons type types ih =>
    rw [foldl_cons, ih, exciseTable_log, filter_filter]
    apply filter_congr
    intro r _
    by_cases he : r.row.e ∈ ids <;> simp [he, Bool.and_comm]

theorem exciseTables_count (ids : List Int64) (types : List ValueType)
    (st : List (Owned LogRow) × Nat) :
    (types.foldl (exciseTable ids) st).2 + (types.foldl (exciseTable ids) st).1.length =
      st.2 + st.1.length := by
  induction types generalizing st with
  | nil => rfl
  | cons type types ih => rw [foldl_cons, ih, exciseTable_count]

def LogRow.isOf (ids : List Int64) (r : LogRow) : Bool := decide (r.e ∈ ids)

theorem exciseLoop_log (ids : List Int64) (log : List (Owned LogRow)) :
    (ValueType.all.foldl (exciseTable ids) (log, 0)).1 = log.filter fun r => !r.row.isOf ids := by
  rw [exciseTables_log]
  simp [ValueType.mem_all, LogRow.isOf]

theorem exciseLoop_count (ids : List Int64) (log : List (Owned LogRow)) :
    (ValueType.all.foldl (exciseTable ids) (log, 0)).2 =
      (log.filter fun r => r.row.isOf ids).length := by
  have hcount := exciseTables_count ids ValueType.all (log, 0)
  have hsplit := length_eq_length_filter_add (l := log) fun r => r.row.isOf ids
  rw [exciseLoop_log] at hcount
  dsimp only at hcount
  omega

/-- What an accepted call does, whichever store it is addressed to. -/
structure ExciseOutcome (ids : List Int64) (d d' : Database) (summary : ExciseSummary) : Prop where
  log : d'.log = d.log.filter fun r => !r.row.isOf ids
  current : d'.current = d.current
  main : d'.main = d.main
  named : d'.named = d.named
  stores : d'.stores = d.stores
  removed : summary = ⟨ids.length, (d.log.filter fun r => r.row.isOf ids).length, 0⟩

theorem exciseInternal_outcome {d d' : Database} {store : String} {ids : List Int64}
    {reason : Option String} {summary : ExciseSummary}
    (h : exciseInternal d store ids reason = .ok (summary, d')) :
    ExciseOutcome ids d d' summary := by
  unfold exciseInternal at h
  split at h
  · rename_i hnil
    obtain rfl : ids = [] := isEmpty_iff.mp hnil
    obtain ⟨rfl, rfl⟩ : (⟨0, 0, 0⟩ : ExciseSummary) = summary ∧ d = d' := by
      simpa [pure, Except.pure] using h
    constructor <;> simp [LogRow.isOf]
  · cases hcheck : ids.forM (checkExcisable d store) with
    | error e => simp [hcheck, bind, Except.bind] at h
    | ok u =>
      cases hrefs : checkDanglingRefs d ids with
      | error e => simp [hcheck, hrefs, bind, Except.bind] at h
      | ok w =>
        simp only [hcheck, hrefs, bind, Except.bind, pure, Except.pure, Except.ok.injEq,
          Prod.mk.injEq] at h
        obtain ⟨rfl, rfl⟩ := h
        rw [exciseLoop_log, exciseLoop_count]
        exact ⟨rfl, rfl, rfl, rfl, rfl, rfl⟩

/-- Every trace of the entities is gone from the default store, the rest of the database is as it
was, and a projection that was the replay of its log still is. -/
structure Excised (ids : List Int64) (d d' : Database) : Prop where
  log_gone : ∀ r ∈ d'.db.log, r.e ∉ ids
  current_gone : ∀ r ∈ d'.db.current, r.e ∉ ids
  log_kept : ∀ r : LogRow, r.e ∉ ids → (r ∈ d'.db.log ↔ r ∈ d.db.log)
  current_kept : ∀ r : CurrentRow, r.e ∉ ids → (r ∈ d'.db.current ↔ r ∈ d.db.current)
  tables_kept : d'.main = d.main ∧ d'.named = d.named
  others_kept : ∀ id, id ≠ 0 →
    rowsOf id d'.log = rowsOf id d.log ∧ rowsOf id d'.current = rowsOf id d.current
  inSync : d.db.InSync → d'.db.InSync

/-- None of the entities has a live datom in the default store or a log row in another store. -/
def Database.Clear (d : Database) (ids : List Int64) : Prop :=
  (∀ r ∈ d.db.current, r.e ∉ ids) ∧ ∀ r ∈ d.log, r.storeId ≠ 0 → r.row.e ∉ ids

section

variable {d d' : Database} {ids : List Int64} {summary : ExciseSummary}

namespace ExciseOutcome

variable (h : ExciseOutcome ids d d' summary)

include h

theorem rowsOf_log (id : Int64) :
    rowsOf id d'.log = (rowsOf id d.log).filter fun r => !r.isOf ids := by
  rw [h.log]
  exact rowsOf_filter id (fun r => !r.isOf ids) d.log

theorem mem_log {r : LogRow} : r ∈ d'.db.log ↔ r ∈ d.db.log ∧ r.e ∉ ids := by
  have hlog : d'.db.log = d.db.log.filter fun r => !r.isOf ids := h.rowsOf_log 0
  simp [hlog, LogRow.isOf]

theorem db_current : d'.db.current = d.db.current := by
  simp only [Database.db, h.current]

/-- Without live datoms the projection of the entities is empty, as is the replay of the rows that
are left. -/
theorem inSync (hlive : ∀ r ∈ d.db.current, r.e ∉ ids) (hsync : d.db.InSync) : d'.db.InSync := by
  intro k
  have hcurrent : d'.db.Live k ↔ d.db.Live k := by
    simp only [Db.Live, h.db_current]
  rw [hcurrent]
  by_cases hk : k.1 ∈ ids
  · apply iff_of_false
    · rintro ⟨r, hr, rfl⟩
      exact hlive r hr hk
    · apply not_holds_of_no_row
      rintro r hr rfl
      exact (h.mem_log.mp hr).2 hk
  · rw [hsync k]
    symm
    apply holds_congr
    rintro r rfl
    exact h.mem_log.trans (and_iff_left hk)

theorem rowsOf_log_kept {id : Int64} :
    rowsOf id d'.log = rowsOf id d.log ↔ ∀ r ∈ rowsOf id d.log, r.e ∉ ids := by
  rw [h.rowsOf_log, filter_eq_self]
  simp [LogRow.isOf]

end ExciseOutcome

end

/-- An accepted excision on the default store is complete and local exactly when the entities have
no live datom left and no other store has log rows of them. -/
theorem excise_complete_and_local_iff {d d' : Database} {ids : List Int64} {reason : Option String}
    {summary : ExciseSummary}
    (h : exciseInternal d "default" ids reason = .ok (summary, d')) :
    Excised ids d d' ↔ d.Clear ids := by
  have hout := exciseInternal_outcome h
  constructor
  · intro hex
    constructor
    · intro r hr
      exact hex.current_gone r (hout.db_current ▸ hr)
    · rintro ⟨id, r⟩ hr hid
      exact hout.rowsOf_log_kept.mp (hex.others_kept id hid).1 r (mem_rowsOf.mpr hr)
  · rintro ⟨hlive, hothers⟩
    constructor
    · exact fun r hr => (hout.mem_log.mp hr).2
    · exact fun r hr => hlive r (hout.db_current ▸ hr)
    · exact fun r he => hout.mem_log.trans (and_iff_left he)
    · exact fun r _ => by rw [hout.db_current]
    · exact ⟨hout.main, hout.named⟩
    · intro id hid
      refine ⟨hout.rowsOf_log_kept.mpr fun r hr => ?_, by rw [hout.current]⟩
      exact hothers ⟨id, r⟩ (mem_rowsOf.mp hr) hid
    · exact hout.inSync hlive

instance (d : Database) (ids : List Int64) : Decidable (d.Clear ids) :=
  inferInstanceAs (Decidable
    ((∀ r ∈ d.db.current, r.e ∉ ids) ∧ ∀ r ∈ d.log, r.storeId ≠ 0 → r.row.e ∉ ids))

/-- Excision of user entities was allowed with the `UPDATE` that the error message names. -/
def excisablePartitions : List Partition :=
  bootstrapPartitions.map fun p => { p with allowExcision := decide (p.name = "db.part/user") }

def Database.ofDefault (db : Db) (partitions : List Partition) : Database where
  stores := [⟨0, "default"⟩]
  main := ⟨db.schema, db.idents, partitions, db.transactions, db.fulltext⟩
  named := []
  log := db.log.map (Owned.mk 0)
  current := db.current.map (Owned.mk 0)
  excisionLog := []

def personDoc : Call :=
  plainCall 1000000000001 1735689600000000 [addDatom 1000001 Entids.dbDoc (.text "person")]

def personGone : Call :=
  plainCall 1000000000002 1735689601000000 [retractDatom 1000001 Entids.dbDoc (.text "person")]

/-- An entity whose only datom was retracted before. -/
theorem excise_retracted_entity :
    ∃ db summary d', stateAfter [personDoc, personGone] = some db ∧
      exciseInternal (.ofDefault db excisablePartitions) "default" [1000001] none =
        .ok (summary, d') ∧
      Excised [1000001] (.ofDefault db excisablePartitions) d' := by
  have hstate : ∃ db, stateAfter [personDoc, personGone] = some db ∧ ∃ summary d',
      exciseInternal (.ofDefault db excisablePartitions) "default" [1000001] none =
        .ok (summary, d') ∧ (Database.ofDefault db excisablePartitions).Clear [1000001] := by
    decide +kernel
  obtain ⟨db, hdb, summary, d', h, hclear⟩ := hstate
  exact ⟨db, summary, d', hdb, h, (excise_complete_and_local_iff h).mpr hclear⟩

/-- The live `:db/doc` of an excised entity stays in the projection, without a log row. -/
theorem excise_leaves_projection :
    ∃ db summary d', Reaches (fun d call _ => TxIncreasing d call) bootstrapDb db ∧
      exciseInternal (.ofDefault db excisablePartitions) "default" [1000001] none =
        .ok (summary, d') ∧
      d'.db.Live (1000001, Entids.dbDoc, .text "person") ∧
      (Database.ofDefault db excisablePartitions).db.Replayed
        (1000001, Entids.dbDoc, .text "person") ∧
      ¬ d'.db.Replayed (1000001, Entids.dbDoc, .text "person") := by
  have hmeets : RunMeets (fun d call _ => TxIncreasing d call) [personDoc] bootstrapDb := by
    decide +kernel
  have hstate : ∃ db, stateAfter [personDoc] = some db ∧ ∃ summary d',
      exciseInternal (.ofDefault db excisablePartitions) "default" [1000001] none =
        .ok (summary, d') ∧
      d'.db.Live (1000001, Entids.dbDoc, .text "person") ∧
      (Database.ofDefault db excisablePartitions).db.Replayed
        (1000001, Entids.dbDoc, .text "person") ∧
      ¬ d'.db.Replayed (1000001, Entids.dbDoc, .text "person") := by
    decide +kernel
  obtain ⟨db, -, hrun, summary, d', h⟩ := hmeets.exists_reaches hstate
  exact ⟨db, summary, d', hrun, h⟩

/-- Accepted calls in a row: the entities they name and the rows they report as removed. -/
inductive Excisions (d : Database) : List Int64 → Nat → Database → Prop
  | refl : Excisions d [] 0 d
  | step {excised removed mid store ids reason summary d'} (h : Excisions d excised removed mid)
      (hcall : exciseInternal mid store ids reason = .ok (summary, d')) :
      Excisions d (excised ++ ids) (removed + summary.datomsRemoved) d'

theorem exciseInternal_unreferenced {d d' : Database} {store : String} {ids : List Int64}
    {reason : Option String} {summary : ExciseSummary}
    (h : exciseInternal d store ids reason = .ok (summary, d')) :
    ∀ r ∈ d'.log, r.row.added = true → ∀ id ∈ ids, r.row.v ≠ .ref id := by
  intro r hr hadded id hid hv
  rw [(exciseInternal_outcome h).log, mem_filter] at hr
  have hrefs : r.row ∈ danglingRefs d ids := by
    have he : r.row.e ∉ ids := by simpa [LogRow.isOf] using hr.2
    simp only [danglingRefs, mem_filter, mem_map, Bool.and_eq_true, decide_eq_true_eq, any_eq_true]
    exact ⟨⟨r, hr.1, rfl⟩, ⟨hadded, he⟩, id, hid, hv⟩
  have hcheck : checkDanglingRefs d ids = .error _ := if_pos (length_pos_of_mem hrefs)
  rw [exciseInternal, if_neg (by simpa using ne_nil_of_mem hid), hcheck] at h
  cases hforM : ids.forM (checkExcisable d store) with
  | error e | ok u => simp [hforM, bind, Except.bind] at h

/-- However the calls group the entities, the log loses exactly the rows of those they name, the
reported numbers add up, and no row that is left asserts a reference to one of them. -/
theorem Excisions.clears {d d' : Database} {excised : List Int64} {removed : Nat}
    (h : Excisions d excised removed d') :
    d'.log = d.log.filter (fun r => !r.row.isOf excised) ∧ d'.current = d.current ∧
    removed + d'.log.length = d.log.length ∧
    ∀ r ∈ d'.log, r.row.added = true → ∀ id ∈ excised, r.row.v ≠ .ref id := by
  induction h with
  | refl => simp [LogRow.isOf]
  | @step _ _ mid _ ids _ _ _ _ hcall ih =>
    obtain ⟨hlog, hcurrent, hcount, hrefs⟩ := ih
    have hout := exciseInternal_outcome hcall
    refine ⟨?_, hout.current.trans hcurrent, ?_, fun r hr hadded id hid => ?_⟩
    · rw [hout.log, hlog, filter_filter]
      exact filter_congr fun r _ => by simp [LogRow.isOf, Bool.and_comm]
    · have hsplit := length_eq_length_filter_add (l := mid.log) fun r => r.row.isOf ids
      simp only [hout.log, hout.removed]
      omega
    · rcases mem_append.1 hid with hid | hid
      · rw [hout.log] at hr
        exact hrefs r (mem_filter.1 hr).1 hadded id hid
      · exact exciseInternal_unreferenced hcall r hr hadded id hid

def coupleDoc : Call :=
  plainCall 1000000000001 1735689600000000 [addDatom 1000001 Entids.dbDoc (.text "person"),
    addDatom 1000002 Entids.dbDoc (.text "partner")]

def coupleGone : Call :=
  plainCall 1000000000002 1735689601000000 [retractDatom 1000001 Entids.dbDoc (.text "person"),
    retractDatom 1000002 Entids.dbDoc (.text "partner")]

/-- Two entities with two log rows each, excised by one call after the other. -/
theorem Excisions.clears_couple : ∃ db mid d', stateAfter [coupleDoc, coupleGone] = some db ∧
    Excisions (.ofDefault db excisablePartitions) [1000001] 2 mid ∧
    Excisions (.ofDefault db excisablePartitions) [1000001, 1000002] 4 d' ∧
    ∀ r ∈ d'.log, r.row.added = true → r.row.v ≠ .ref 1000001 := by
  have hstate : ∃ db, stateAfter [coupleDoc, coupleGone] = some db ∧ ∃ summary mid,
      exciseInternal (.ofDefault db excisablePartitions) "default" [1000001] none =
        .ok (summary, mid) ∧ summary.datomsRemoved = 2 ∧ ∃ summary' d',
      exciseInternal mid "default" [1000002] none = .ok (summary', d') ∧
        summary'.datomsRemoved = 2 := by
    decide +kernel
  obtain ⟨db, hdb, summary, mid, hfirst, htwo, summary', d', hsecond, htwo'⟩ := hstate
  have hmid : Excisions (.ofDefault db excisablePartitions) [1000001] 2 mid := by
    simpa [htwo] using Excisions.refl.step hfirst
  have hrun : Excisions (.ofDefault db excisablePartitions) [1000001, 1000002] 4 d' := by
    simpa [htwo'] using hmid.step hsecond
  refine ⟨db, mid, d', hdb, hmid, hrun, fun r hr hadded => ?_⟩
  exact hrun.clears.2.2.2 r hr hadded 1000001 mem_cons_self

end PgMentat

import PgMentat.Run
import PgMentat.Lib.CachedSequence
import Mathlib.Data.List.Chain

namespace PgMentat

open List KeyedTable CachedSequence

def partitionTxSeq : Params := ⟨100, 1999999999999, by decide⟩

/-- A call before its session has drawn a transaction id. -/
structure Request where
  now : Int64
  userIds : List Int64
  scan : ScanOrder
  stackDepth : Nat
  document : EdnValue

def Request.call (r : Request) (tx : Int64) : Call :=
  ⟨⟨r.now, tx, r.userIds, r.scan, r.stackDepth⟩, r.document⟩

/-- The tables and the sequence that all sessions share. -/
structure Cluster (ι : Type) where
  db : Db
  txSeq : Sequence partitionTxSeq ι

def Cluster.start (ι : Type) : Cluster ι := ⟨bootstrapDb, .start _ ι 1000000000001⟩

section Cluster

variable {ι : Type} [DecidableEq ι]

/-- A call in a session. A failed call is rolled back, but the id it has drawn is lost. -/
def Cluster.transact (c : Cluster ι) (s : ι) (r : Request) :
    Except MentatError TxReport × Cluster ι :=
  match r.document with
  | .vector _ =>
    match c.txSeq.nextval s with
    | none => (.error (.allocationFailed "db.part/tx"), c)
    | some (tx, txSeq) =>
      match mentatTransact (r.call (Int64.ofInt tx)) c.db with
      | .ok (report, db) => (.ok report, ⟨db, txSeq⟩)
      | .error e => (.error e, { c with txSeq })
  | _ => ((mentatTransact (r.call 0) c.db).map Prod.fst, c)

def Cluster.reports : Cluster ι → List (ι × Request) → List TxReport
  | _, [] => []
  | c, (s, r) :: history =>
    match c.transact s r with
    | (.ok report, c') => report :: c'.reports history
    | (.error _, c') => c'.reports history

/-- Each transaction has a greater id than all before it, and its basis is the last before it. -/
def InCommitOrder (reports : List TxReport) : Prop :=
  reports.Pairwise (fun r r' => r.dbAfter < r'.dbAfter) ∧
    reports.IsChain fun r r' => r'.dbBefore = r.dbAfter

/-- No committed transaction id lies beyond the block the session draws from. -/
def Cluster.UpToDate (c : Cluster ι) (s : ι) : Prop :=
  ∀ r ∈ c.db.transactions, c.txSeq.NotBeyond s r.tx.toInt

/-- Every call that commits comes from a session that is up to date. -/
def Cluster.AlwaysUpToDate : Cluster ι → List (ι × Request) → Prop
  | _, [] => True
  | c, (s, r) :: history =>
    match c.transact s r with
    | (.ok _, c') => c.UpToDate s ∧ c'.AlwaysUpToDate history
    | (.error _, c') => c'.AlwaysUpToDate history

variable {c c' : Cluster ι} {s : ι} {r : Request} {report : TxReport} {acc : List TxReport}

theorem Cluster.transact_ok (h : c.transact s r = (.ok report, c')) :
    ∃ tx, c.txSeq.nextval s = some (tx, c'.txSeq) ∧
      mentatTransact (r.call (Int64.ofInt tx)) c.db = .ok (report, c'.db) := by
  unfold transact at h
  split at h
  · split at h
    · cases h
    · rename_i tx txSeq hnext
      split at h
      · rename_i hcall
        cases h
        exact ⟨tx, hnext, hcall⟩
      · cases h
  · rename_i hdoc
    have hfail : ∃ e, mentatTransact (r.call 0) c.db = .error e := by
      unfold mentatTransact executeTransactionInner
      split
      · rename_i hrun
        split at hrun
        · exact absurd ‹_› (hdoc _)
        · cases hrun
      · exact ⟨_, rfl⟩
    obtain ⟨e, he⟩ := hfail
    rw [he] at h
    cases h

theorem Cluster.transact_error {e : MentatError} (h : c.transact s r = (.error e, c')) :
    c'.db = c.db ∧ ∀ v, c'.txSeq.Unissued v → c.txSeq.Unissued v := by
  unfold transact at h
  split at h
  · split at h
    · cases h
      exact ⟨rfl, fun _ hv => hv⟩
    · rename_i tx txSeq hnext
      split at h
      · cases h
      · cases h
        exact ⟨rfl, fun v hv => (Sequence.unissued_of_nextval hnext hv).1⟩
  · rw [← (Prod.mk.inj h).2]
    exact ⟨rfl, fun _ hv => hv⟩

theorem foldl_max_eq {ts : List Int64} {best m : Int64} (hm : m ∈ ts ∨ m = best) (hbest : best ≤ m)
    (hle : ∀ t ∈ ts, t ≤ m) :
    ts.foldl (fun best t => if best < t then t else best) best = m := by
  induction ts generalizing best with
  | nil => exact (hm.resolve_left not_mem_nil).symm
  | cons t ts ih =>
    rw [foldl_cons]
    have ht := hle t mem_cons_self
    refine ih ?_ ?_ fun t' ht' => hle t' (mem_cons_of_mem t ht')
    · split
      · rename_i hlt
        rcases hm with hm | rfl
        · exact (mem_cons.mp hm).symm
        · exact absurd (Int64.lt_of_lt_of_le hlt ht) Int64.lt_irrefl
      · rename_i hlt
        rcases hm with hm | rfl
        · refine (mem_cons.mp hm).symm.imp_right ?_
          rintro rfl
          exact Int64.le_antisymm (Int64.not_lt.mp hlt) hbest
        · exact .inr rfl
    · split
      · exact ht
      · exact hbest

theorem Db.basisBelow_eq {db : Db} {tx m : Int64} (hm : ∃ r ∈ db.transactions, r.tx = m)
    (hle : ∀ r ∈ db.transactions, r.tx ≤ m) (hlt : m < tx) (hpos : 0 ≤ m) :
    db.basisBelow tx = m := by
  obtain ⟨r, hr, rfl⟩ := hm
  refine foldl_max_eq (.inl ?_) hpos fun t ht => ?_
  · exact mem_filter.mpr ⟨mem_map_of_mem hr, decide_eq_true hlt⟩
  · obtain ⟨r', hr', rfl⟩ := mem_map.mp (mem_filter.mp ht).1
    exact hle r' hr'

theorem mentatTransact_report {call : Call} {db db' : Db} {report : TxReport}
    (h : mentatTransact call db = .ok (report, db')) :
    report.dbAfter = call.backend.txId ∧ report.dbBefore = db.basisBelow call.backend.txId := by
  obtain ⟨entities, ids, prepared, b, mid, b', -, hbegin, rfl, -⟩ := mentatTransact_begin h
  have hbegun := beginTransaction_ensures _ _ _ hbegin
  exact ⟨hbegun.tx_eq, hbegun.basis_eq⟩

theorem mentatTransact_transactions {call : Call} {db db' : Db} {report : TxReport}
    (h : mentatTransact call db = .ok (report, db')) (t : Int64) :
    (∃ r ∈ db'.transactions, r.tx = t) ↔
      (∃ r ∈ db.transactions, r.tx = t) ∨ t = call.backend.txId := by
  obtain ⟨mid, loop, rows, hc⟩ := mentatTransact_committed h
  rw [hc.transactions_eq, hc.mid_transactions, put_of_new hc.tx_new]
  simp [mem_append, or_and_right, exists_or, eq_comm]

/-- What holds of a cluster after a history with the reports `acc`. -/
structure Cluster.Inv (c : Cluster ι) (acc : List TxReport) : Prop where
  issued : ∀ r ∈ c.db.transactions, ¬ c.txSeq.Unissued r.tx.toInt
  bound : ∀ v, c.txSeq.Unissued v → 1000000000001 ≤ v
  ids : ∀ t, (∃ r ∈ c.db.transactions, r.tx = t) ↔
    t = 1000000 ∨ ∃ report ∈ acc, report.dbAfter = t
  min_le : ∀ report ∈ acc, 1000000 ≤ report.dbAfter

omit [DecidableEq ι] in
theorem Cluster.inv_start : (Cluster.start ι).Inv [] where
  issued := by
    intro r hr
    rw [mem_singleton.mp hr]
    have hlt : (1000000 : Int64).toInt < 1000000000001 := by decide
    rintro (h | ⟨s, h⟩)
    · exact not_le.mpr hlt h
    · exact not_le.mpr hlt h.1
  bound := by
    rintro v (h | ⟨s, h⟩)
    · exact h
    · exact h.1
  ids := by
    intro t
    simp [start, bootstrapDb, eq_comm]
  min_le := fun _ h => nomatch h

theorem Cluster.Inv.of_error (hinv : c.Inv acc) {e : MentatError}
    (h : c.transact s r = (.error e, c')) : c'.Inv acc := by
  obtain ⟨hdb, hseq⟩ := transact_error h
  refine ⟨fun r hr hv => hinv.issued r (hdb ▸ hr) (hseq _ hv), fun v hv => ?_, ?_, hinv.min_le⟩
  · exact hinv.bound v (hseq v hv)
  · rw [hdb]
    exact hinv.ids

theorem Cluster.Inv.toInt_tx (hinv : c.Inv acc) {tx : Int} {txSeq : Sequence partitionTxSeq ι}
    (h : c.txSeq.nextval s = some (tx, txSeq)) : (Int64.ofInt tx).toInt = tx := by
  obtain ⟨hnew, hmax⟩ := Sequence.nextval_unissued h
  have hmin := hinv.bound tx hnew
  have hmax : tx ≤ 1999999999999 := hmax
  exact Int64.toInt_ofInt_of_le (by omega) (by omega)

theorem Cluster.Inv.of_ok (hinv : c.Inv acc) (h : c.transact s r = (.ok report, c')) :
    c'.Inv (acc ++ [report]) := by
  obtain ⟨tx, hnext, hcall⟩ := transact_ok h
  have hids := mentatTransact_transactions hcall
  refine ⟨fun r' hr' hv => ?_, fun v hv => ?_, fun t => ?_, fun report' h' => ?_⟩
  · obtain ⟨hv, hne⟩ := Sequence.unissued_of_nextval hnext hv
    rcases (hids r'.tx).mp ⟨r', hr', rfl⟩ with ⟨r0, hr0, heq⟩ | heq
    · exact hinv.issued r0 hr0 (heq ▸ hv)
    · rw [heq] at hne
      exact hne (hinv.toInt_tx hnext)
  · exact hinv.bound v (Sequence.unissued_of_nextval hnext hv).1
  · rw [hids t, hinv.ids t, ← (mentatTransact_report hcall).1]
    simp [or_and_right, exists_or, or_assoc, eq_comm]
  · rcases mem_append.mp h' with h' | h'
    · exact hinv.min_le report' h'
    · have hmin := hinv.bound tx (Sequence.nextval_unissued hnext).1
      rw [mem_singleton.mp h', (mentatTransact_report hcall).1, Int64.le_iff_toInt_le,
        Request.call, hinv.toInt_tx hnext]
      exact le_trans (by decide) hmin

theorem InCommitOrder.snoc_iff :
    InCommitOrder (acc ++ [report]) ↔ InCommitOrder acc ∧
      (∀ r ∈ acc, r.dbAfter < report.dbAfter) ∧
      ∀ r ∈ acc.getLast?, report.dbBefore = r.dbAfter := by
  simp only [InCommitOrder, pairwise_append, isChain_append, pairwise_singleton,
    isChain_singleton, mem_singleton, List.head?_cons, Option.mem_some, true_and,
    forall_eq, forall_eq']
  tauto

theorem InCommitOrder.of_append {rest : List TxReport} (h : InCommitOrder (acc ++ rest)) :
    InCommitOrder acc :=
  ⟨(pairwise_append.mp h.1).1, (isChain_append.mp h.2).1⟩

theorem InCommitOrder.le_last (h : InCommitOrder acc) {last : TxReport}
    (hlast : last ∈ acc.getLast?) : ∀ r ∈ acc, r.dbAfter ≤ last.dbAfter := by
  obtain ⟨init, rfl⟩ := List.getLast?_eq_some_iff.mp hlast
  intro r hr
  rcases mem_append.mp hr with hr | hr
  · exact Int64.le_of_lt ((InCommitOrder.snoc_iff.mp h).2.1 r hr)
  · rw [mem_singleton.mp hr]
    exact Int64.le_refl _

theorem Cluster.Inv.snoc_iff (hinv : c.Inv acc) (horder : InCommitOrder acc)
    (h : c.transact s r = (.ok report, c')) :
    InCommitOrder (acc ++ [report]) ↔ c.UpToDate s := by
  obtain ⟨tx, hnext, hcall⟩ := transact_ok h
  obtain ⟨hafter, hbefore⟩ := mentatTransact_report hcall
  have htx : report.dbAfter.toInt = tx := by
    rw [hafter]
    exact hinv.toInt_tx hnext
  have hbound : 1000000000001 ≤ tx := hinv.bound tx (Sequence.nextval_unissued hnext).1
  have hupToDate : c.UpToDate s ↔ ∀ r ∈ c.db.transactions, r.tx < report.dbAfter := by
    refine forall₂_congr fun r hr => ?_
    rw [← Sequence.lt_nextval_iff hnext (hinv.issued r hr), Int64.lt_iff_toInt_lt, htx]
  rw [InCommitOrder.snoc_iff, hupToDate]
  constructor
  · rintro ⟨-, hlt, -⟩ r hr
    rcases (hinv.ids r.tx).mp ⟨r, hr, rfl⟩ with hr | ⟨report', hmem, heq⟩
    · rw [hr, Int64.lt_iff_toInt_lt, htx]
      exact lt_of_lt_of_le (by decide) hbound
    · exact heq ▸ hlt report' hmem
  · intro hlt
    have hacc : ∀ r ∈ acc, r.dbAfter < report.dbAfter := by
      intro r hr
      obtain ⟨r', hr', heq⟩ := (hinv.ids r.dbAfter).mpr (.inr ⟨r, hr, rfl⟩)
      exact heq ▸ hlt r' hr'
    refine ⟨horder, hacc, fun last hlast => ?_⟩
    have hmem := mem_of_getLast? hlast
    have hmin := hinv.min_le last hmem
    rw [hbefore]
    refine Db.basisBelow_eq ((hinv.ids _).mpr (.inr ⟨last, hmem, rfl⟩)) ?_
      (hafter ▸ hacc last hmem) (Int64.le_trans (by decide) hmin)
    intro r hr
    rcases (hinv.ids r.tx).mp ⟨r, hr, rfl⟩ with hr | ⟨report', hmem', heq⟩
    · exact hr ▸ hmin
    · exact heq ▸ horder.le_last hlast report' hmem'

theorem Cluster.Inv.inCommitOrder_iff (history : List (ι × Request)) (hinv : c.Inv acc)
    (horder : InCommitOrder acc) :
    InCommitOrder (acc ++ c.reports history) ↔ c.AlwaysUpToDate history := by
  induction history generalizing c acc with
  | nil => simpa [reports, AlwaysUpToDate] using horder
  | cons call history ih =>
    obtain ⟨s, r⟩ := call
    unfold reports AlwaysUpToDate
    split
    · rename_i report c' hcall
      rw [append_cons]
      by_cases hup : c.UpToDate s
      · have horder' := (hinv.snoc_iff horder hcall).mpr hup
        rw [ih (hinv.of_ok hcall) horder', and_iff_right hup]
      · refine iff_of_false (fun h => hup ?_) fun h => hup h.1
        exact (hinv.snoc_iff horder hcall).mp h.of_append
    · rename_i e c' hcall
      exact ih (hinv.of_error hcall) horder

/-- A history of calls, from any number of sessions and one after another, commits in the order of
its transaction ids if and only if every call that commits comes from a session that no committed
transaction has overtaken. -/
theorem inCommitOrder_iff_alwaysUpToDate (history : List (ι × Request)) :
    InCommitOrder ((Cluster.start ι).reports history) ↔
      (Cluster.start ι).AlwaysUpToDate history :=
  Cluster.inv_start.inCommitOrder_iff history ⟨List.Pairwise.nil, isChain_nil⟩

theorem Cluster.Inv.dbAfter_ne (hinv : c.Inv acc) (h : c.transact s r = (.ok report, c')) :
    ∀ r' ∈ acc, r'.dbAfter ≠ report.dbAfter := by
  obtain ⟨tx, hnext, hcall⟩ := transact_ok h
  intro r' hr' heq
  obtain ⟨row, hrow, hid⟩ := (hinv.ids report.dbAfter).2 (.inr ⟨r', hr', heq⟩)
  apply hinv.issued row hrow
  rw [hid, (mentatTransact_report hcall).1]
  exact (hinv.toInt_tx hnext).symm ▸ (Sequence.nextval_unissued hnext).1

theorem Cluster.Inv.distinct (history : List (ι × Request)) (hinv : c.Inv acc)
    (hacc : acc.Pairwise fun r r' => r.dbAfter ≠ r'.dbAfter) :
    (acc ++ c.reports history).Pairwise fun r r' => r.dbAfter ≠ r'.dbAfter := by
  induction history generalizing c acc with
  | nil => simpa [reports] using hacc
  | cons call history ih =>
    obtain ⟨s, r⟩ := call
    rw [reports]
    split
    · rename_i report c' h
      have hpairs := ih (hinv.of_ok h) (pairwise_append.2 ⟨hacc, pairwise_singleton _ _,
        fun r' hr' report' hreport => mem_singleton.1 hreport ▸ hinv.dbAfter_ne h r' hr'⟩)
      rwa [append_assoc] at hpairs
    · rename_i h
      exact ih (hinv.of_error h) hacc

end Cluster

instance (reports : List TxReport) : Decidable (InCommitOrder reports) :=
  inferInstanceAs (Decidable (_ ∧ _))

def emptyRequest : Request := ⟨1735689600000000, [], .heap, 8, .vector []⟩

/-- Two sessions in turn: the first continues its block below the second's. -/
theorem not_inCommitOrder_two_sessions :
    ((Cluster.start Bool).reports
      [(false, emptyRequest), (true, emptyRequest), (false, emptyRequest)]).map
        (fun r => (r.dbBefore, r.dbAfter)) =
      [(1000000, 1000000000001), (1000000000001, 1000000000101),
        (1000000000001, 1000000000002)] ∧
    ¬ InCommitOrder ((Cluster.start Bool).reports
      [(false, emptyRequest), (true, emptyRequest), (false, emptyRequest)]) := by
  decide +kernel

end PgMentat

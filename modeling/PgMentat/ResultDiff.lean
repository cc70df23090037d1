import PgMentat.AsOf
import PgMentat.StoreCatalog
import Mathlib.Data.Set.Card

namespace PgMentat

open List

variable {Cell Text : Type} [DecidableEq Cell] [DecidableEq Text]

/-- The variants of `FindSpec`. -/
inductive FindShape where
  | rel
  | coll
  | tuple
  | scalar
  deriving DecidableEq, Repr

/-- `{"columns": .., "results": ..}`, or `{"result": ..}` with an array or with a cell; a cell is a
JSON value and no array. -/
inductive FindResponse (Cell : Type) where
  | results (rows : List (List Cell))
  | array (items : List Cell)
  | value (v : Cell)

/-- A query with its inputs, in a state of a store: its rows as of every transaction. -/
structure TimedQuery (Cell : Type) where
  spec : FindShape
  /-- The number of `find_vars`. -/
  width : Nat
  hasAggregates : Bool
  rows : Int64 → Except QueryError (List (List Cell))
  length_eq : ∀ tx results, rows tx = .ok results → ∀ row ∈ results, row.length = width

def firstValue (null : Cell) (results : List (List Cell)) : Cell :=
  (results.head?.bind List.head?).getD null

def TimedQuery.formatFindResponse (q : TimedQuery Cell) (null : Cell)
    (results : List (List Cell)) : FindResponse Cell :=
  match q.spec with
  | .rel =>
    match q.hasAggregates, q.width, results with
    | true, 1, [v :: _] => .value v
    | _, _, _ => .results results
  | .coll => .array (results.filterMap List.head?)
  | .tuple =>
    match results.head? with
    | some row => .array row
    | none => .value null
  | .scalar => .value (firstValue null results)

def extractResultsArray (null : Cell) : FindResponse Cell → List (List Cell)
  | .results rows => rows
  | .array items => items.map fun v => [v]
  | .value v => if v = null then [] else [[v]]

structure DiffResult (Cell : Type) where
  added : List (List Cell)
  removed : List (List Cell)
  unchangedCount : Nat
  fromTx : Int64
  toTx : Int64

inductive DiffError where
  | store (e : StoreError)
  | invalidQuery (message suggestion : String)
  | query (e : QueryError)

/-- Rows whose text is not among the texts of the others. -/
def textDiff (toText : List Cell → Text) (rows others : List (List Cell)) : List (List Cell) :=
  rows.filter fun row => toText row ∉ others.map toText

/-- `compute_result_diff`. -/
def computeResultDiff (toText : List Cell → Text) (fromTx toTx : Int64)
    (old new : List (List Cell)) : DiffResult Cell where
  added := textDiff toText new old
  removed := textDiff toText old new
  unchangedCount := old.length - (textDiff toText old new).length
  fromTx
  toTx

def queryAsOf (null : Cell) (q : TimedQuery Cell) (tx : Int64) :
    Except DiffError (List (List Cell)) := do
  let results ← (q.rows tx).mapError .query
  return extractResultsArray null (q.formatFindResponse null results)

def checkStore (storeName : String) : Except DiffError Unit :=
  if storeName = "default" then .ok () else (validateStoreName storeName).mapError .store

def diff (toText : List Cell → Text) (null : Cell) (storeName : String) (fromTx toTx : Int64)
    (q : TimedQuery Cell) : Except DiffError (DiffResult Cell) := do
  checkStore storeName
  if toTx ≤ fromTx then
    .error (.invalidQuery ("from_tx (" ++ toString fromTx.toInt ++ ") must be less than to_tx (" ++
      toString toTx.toInt ++ ")") "Swap the transaction IDs so from_tx < to_tx.")
  else do
    let old ← queryAsOf null q fromTx
    let new ← queryAsOf null q toTx
    return computeResultDiff toText fromTx toTx old new

def column (results : List (List Cell)) : List (List Cell) :=
  (results.filterMap List.head?).map fun v => [v]

def DiffResult.Empty (d : DiffResult Cell) : Prop := d.added = [] ∧ d.removed = []

structure ReportsChanges (old new : List (List Cell)) (d : DiffResult Cell) : Prop where
  added : ∀ row, row ∈ d.added ↔ row ∈ new ∧ row ∉ old
  removed : ∀ row, row ∈ d.removed ↔ row ∈ old ∧ row ∉ new
  unchanged : d.unchangedCount = {row | row ∈ old ∧ row ∈ new}.ncard
  same : d.Empty ↔ ∀ row, row ∈ old ↔ row ∈ new

/-- Relations and collections are compared as sets, tuples and scalars as values. -/
def FindShape.Reports (null : Cell) (old new : List (List Cell)) (d : DiffResult Cell) :
    FindShape → Prop
  | .rel => ReportsChanges old new d
  | .coll => ReportsChanges (column old) (column new) d
  | .tuple => d.Empty ↔ old.head? = new.head?
  | .scalar => d.Empty ↔ firstValue null old = firstValue null new

/-- The only row is a `null` that is reported as a single value. -/
def TimedQuery.Lost (q : TimedQuery Cell) (null : Cell) (results : List (List Cell)) : Prop :=
  q.hasAggregates = true ∧ q.width = 1 ∧ results = [[null]]

/-- No answer of both results is repeated, no `null` of an aggregate is lost, and no two tuples
differ only in the order and the number of their elements. -/
def TimedQuery.Comparable (q : TimedQuery Cell) (null : Cell) (old new : List (List Cell)) : Prop :=
  match q.spec with
  | .rel => ¬ q.Lost null old ∧ ¬ q.Lost null new ∧ (old.filter (· ∈ new)).Nodup
  | .coll => ((column old).filter (· ∈ column new)).Nodup
  | .tuple => (∀ v, v ∈ old.head?.getD [] ↔ v ∈ new.head?.getD []) → old.head? = new.head?
  | .scalar => True

section Rows

variable {toText : List Cell → Text} {old new : List (List Cell)}

section

variable (htext : Function.Injective toText)

include htext

theorem mem_textDiff {row : List Cell} : row ∈ textDiff toText new old ↔ row ∈ new ∧ row ∉ old := by
  simp [textDiff, htext.eq_iff]

theorem textDiff_eq_nil_iff : textDiff toText new old = [] ↔ ∀ row ∈ new, row ∈ old := by
  simp [eq_nil_iff_forall_not_mem, mem_textDiff htext]

theorem empty_iff (fromTx toTx : Int64) :
    (computeResultDiff toText fromTx toTx old new).Empty ↔ ∀ row, row ∈ old ↔ row ∈ new := by
  simp only [DiffResult.Empty, computeResultDiff, textDiff_eq_nil_iff htext]
  constructor
  · intro h row
    exact ⟨h.2 row, h.1 row⟩
  · intro h
    exact ⟨fun row => (h row).mpr, fun row => (h row).mp⟩

theorem length_sub_textDiff :
    old.length - (textDiff toText old new).length = (old.filter (· ∈ new)).length := by
  have hfilter : textDiff toText old new = old.filter fun row => !decide (row ∈ new) := by
    apply filter_congr
    simp [htext.eq_iff]
  have hlength := length_eq_length_filter_add (l := old) (· ∈ new)
  rw [hfilter]
  omega

end

theorem length_eq_ncard_iff {α : Type} (l : List α) : l.length = {x | x ∈ l}.ncard ↔ l.Nodup := by
  classical
  have hset : {x | x ∈ l} = (l.toFinset : Set α) := by
    ext x
    simp
  rw [hset, Set.ncard_coe_finset, eq_comm]
  exact Multiset.toFinset_card_eq_card_iff_nodup (m := (l : Multiset α))

/-- Lists of answers are compared as sets, and the answers in both are counted as often as they
are listed. -/
theorem reportsChanges_iff (htext : Function.Injective toText) (fromTx toTx : Int64) :
    ReportsChanges old new (computeResultDiff toText fromTx toTx old new) ↔
      (old.filter (· ∈ new)).Nodup := by
  have hboth : {row | row ∈ old ∧ row ∈ new} = {row | row ∈ old.filter (· ∈ new)} := by
    simp
  have hcount : (computeResultDiff toText fromTx toTx old new).unchangedCount =
      {row | row ∈ old ∧ row ∈ new}.ncard ↔ (old.filter (· ∈ new)).Nodup := by
    rw [hboth, ← length_eq_ncard_iff]
    exact iff_of_eq (congrArg (· = _) (length_sub_textDiff htext))
  constructor
  · intro h
    exact hcount.mp h.unchanged
  · intro h
    exact
      { added := fun row => mem_textDiff htext
        removed := fun row => mem_textDiff htext
        unchanged := hcount.mpr h
        same := empty_iff htext fromTx toTx }

/-- An answer is not compared if its list is taken for empty: it is then neither reported nor
counted. -/
theorem not_reportsChanges {shownOld shownNew : List (List Cell)} {row : List Cell}
    (htext : Function.Injective toText) (fromTx toTx : Int64)
    (hlost : row ∈ old ∧ shownOld = [] ∨ row ∈ new ∧ shownNew = []) :
    ¬ ReportsChanges old new (computeResultDiff toText fromTx toTx shownOld shownNew) := by
  intro h
  have hcount := (length_sub_textDiff htext).symm.trans h.unchanged
  have hnone : shownOld.filter (· ∈ shownNew) = [] := by
    obtain ⟨-, rfl⟩ | ⟨-, rfl⟩ := hlost <;> simp
  have hfinite : {row | row ∈ old ∧ row ∈ new}.Finite :=
    (finite_toSet old).subset fun row hrow => hrow.1
  rw [hnone, length_nil, eq_comm, Set.ncard_eq_zero hfinite] at hcount
  have hapart (hold : row ∈ old) (hnew : row ∈ new) : False :=
    (Set.eq_empty_iff_forall_notMem.mp hcount row) ⟨hold, hnew⟩
  obtain ⟨hold, rfl⟩ | ⟨hnew, rfl⟩ := hlost
  · have hrow := (mem_textDiff htext).mp ((h.removed row).mpr ⟨hold, hapart hold⟩)
    exact not_mem_nil hrow.1
  · have hrow := (mem_textDiff htext).mp ((h.added row).mpr ⟨hnew, fun hold => hapart hold hnew⟩)
    exact not_mem_nil hrow.1

end Rows

section Compared

variable {null : Cell} {q : TimedQuery Cell} {results old new : List (List Cell)}

/-- `extract_results_array` of the response. -/
def TimedQuery.compared (q : TimedQuery Cell) (null : Cell) (results : List (List Cell)) :
    List (List Cell) :=
  extractResultsArray null (q.formatFindResponse null results)

theorem compared_rel_of_lost (hspec : q.spec = .rel) (hlost : q.Lost null results) :
    q.compared null results = [] := by
  obtain ⟨hagg, hwidth, rfl⟩ := hlost
  simp [TimedQuery.compared, TimedQuery.formatFindResponse, extractResultsArray, hspec, hagg,
    hwidth]

theorem compared_rel (hspec : q.spec = .rel) (hlength : ∀ row ∈ results, row.length = q.width)
    (hlost : ¬ q.Lost null results) : q.compared null results = results := by
  unfold TimedQuery.compared TimedQuery.formatFindResponse
  rw [hspec]
  dsimp only
  split
  next v rest hagg hwidth =>
    have hrest : rest = [] := by simpa [hwidth] using hlength
    have hv : v ≠ null := by
      rintro rfl
      exact hlost ⟨hagg, hwidth, by rw [hrest]⟩
    rw [hrest, extractResultsArray, if_neg hv]
  next => rfl

theorem mem_compared_tuple (hspec : q.spec = .tuple) {row : List Cell} :
    row ∈ q.compared null results ↔ ∃ v ∈ results.head?.getD [], row = [v] := by
  unfold TimedQuery.compared TimedQuery.formatFindResponse
  rw [hspec]
  cases results with
  | nil => simp [extractResultsArray]
  | cons row rows => simp [extractResultsArray, eq_comm]

theorem compared_scalar (hspec : q.spec = .scalar) :
    q.compared null results =
      if firstValue null results = null then [] else [[firstValue null results]] := by
  unfold TimedQuery.compared TimedQuery.formatFindResponse
  rw [hspec]
  rfl

theorem reports_rel_iff {toText : List Cell → Text} (htext : Function.Injective toText)
    (fromTx toTx : Int64) (hspec : q.spec = .rel) (hold : ∀ row ∈ old, row.length = q.width)
    (hnew : ∀ row ∈ new, row.length = q.width) :
    ReportsChanges old new
        (computeResultDiff toText fromTx toTx (q.compared null old) (q.compared null new)) ↔
      ¬ q.Lost null old ∧ ¬ q.Lost null new ∧ (old.filter (· ∈ new)).Nodup := by
  by_cases hlost : q.Lost null old ∨ q.Lost null new
  · have hshown : [null] ∈ old ∧ q.compared null old = [] ∨
        [null] ∈ new ∧ q.compared null new = [] := by
      refine hlost.imp (fun h => ⟨?_, compared_rel_of_lost hspec h⟩)
        fun h => ⟨?_, compared_rel_of_lost hspec h⟩
      all_goals exact h.2.2 ▸ mem_cons_self
    exact iff_of_false (not_reportsChanges htext fromTx toTx hshown)
      fun h => hlost.elim h.1 h.2.1
  · obtain ⟨hlostOld, hlostNew⟩ := not_or.mp hlost
    rw [compared_rel hspec hold hlostOld, compared_rel hspec hnew hlostNew,
      reportsChanges_iff htext]
    exact ⟨fun h => ⟨hlostOld, hlostNew, h⟩, fun h => h.2.2⟩

/-- The differences of the rows that are compared tell the change if and only if the results are
comparable. -/
theorem reports_iff {toText : List Cell → Text} (htext : Function.Injective toText)
    (fromTx toTx : Int64) (hold : ∀ row ∈ old, row.length = q.width)
    (hnew : ∀ row ∈ new, row.length = q.width) :
    q.spec.Reports null old new
        (computeResultDiff toText fromTx toTx (q.compared null old) (q.compared null new)) ↔
      q.Comparable null old new := by
  unfold TimedQuery.Comparable
  cases hspec : q.spec with
  | rel => exact reports_rel_iff htext fromTx toTx hspec hold hnew
  | coll =>
    have hcompared (results : List (List Cell)) : q.compared null results = column results := by
      simp only [TimedQuery.compared, TimedQuery.formatFindResponse, hspec]
      rfl
    rw [hcompared, hcompared]
    exact reportsChanges_iff htext fromTx toTx
  | tuple =>
    have hsame : (∀ row, row ∈ q.compared null old ↔ row ∈ q.compared null new) ↔
        ∀ v, v ∈ old.head?.getD [] ↔ v ∈ new.head?.getD [] := by
      simp only [mem_compared_tuple hspec]
      constructor
      · intro h v
        simpa using h [v]
      · intro h row
        simp only [h]
    change (_ ↔ _) ↔ _
    rw [empty_iff htext, hsame]
    constructor
    · exact Iff.mp
    · intro h
      exact ⟨h, fun heq v => by rw [heq]⟩
  | scalar =>
    change (_ ↔ _) ↔ True
    rw [empty_iff htext, compared_scalar hspec, compared_scalar hspec, iff_true]
    constructor
    · intro h
      have hv := h [firstValue null old]
      have hv' := h [firstValue null new]
      split at hv <;> split at hv <;> simp_all
    · intro h row
      rw [h]

end Compared

theorem diff_eq {toText : List Cell → Text} {null : Cell} {storeName : String}
    (hstore : checkStore storeName = .ok ()) {fromTx toTx : Int64} (hlt : fromTx < toTx)
    {q : TimedQuery Cell} {old new : List (List Cell)} (hold : q.rows fromTx = .ok old)
    (hnew : q.rows toTx = .ok new) :
    diff toText null storeName fromTx toTx q =
      .ok (computeResultDiff toText fromTx toTx (q.compared null old) (q.compared null new)) := by
  have hle : ¬ toTx ≤ fromTx := Int64.not_le.mpr hlt
  simp only [diff, hstore, queryAsOf, hold, hnew, if_neg hle, bind, Except.bind, Except.mapError]
  rfl

theorem length_of_mentatQuery {fmt : FloatFormat} {maxRows : Nat} {temporal : TemporalOption}
    {q : Query} {db : Db} {rows : List (List Json)}
    (h : mentatQuery fmt maxRows temporal q db = .ok rows) :
    ∀ row ∈ rows, row.length = q.find.length := by
  obtain ⟨s, hbuild, h⟩ := Unification.bind_eq_ok h
  obtain ⟨st, -, hbuild⟩ := Unification.bind_eq_ok hbuild
  obtain ⟨outputs, houtputs, hbuild⟩ := Unification.bind_eq_ok hbuild
  have hlength := (Unification.forall₂_of_mapM_ok houtputs).length_eq
  have hs : s.outputs = outputs := by
    split at hbuild
    · cases hbuild
    split at hbuild
    · cases hbuild
    cases hbuild
    rfl
  split at h
  · dsimp only at h
    split at h
    · cases h
    cases h
    intro row hrow
    obtain ⟨texts, htexts, rfl⟩ := mem_map.mp hrow
    obtain ⟨joined, -, rfl⟩ := mem_map.mp (mem_dedup.mp htexts)
    rw [length_map, length_map, hs, hlength]
  · cases h

/-- A query of data patterns in a state of the default store. -/
def Query.timed (q : Query) (spec : FindShape) (fmt : FloatFormat) (maxRows : Nat) (db : Db) :
    TimedQuery Json where
  spec
  width := q.find.length
  hasAggregates := false
  rows tx := mentatQuery fmt maxRows (.atTx tx) q db
  length_eq _ _ := length_of_mentatQuery

/-- Where both queries succeed, the difference is reported as it should be if and only if the
results are comparable. -/
theorem diff_reports_iff {toText : List Cell → Text} (htext : Function.Injective toText)
    (null : Cell) {storeName : String} (hstore : checkStore storeName = .ok ())
    {fromTx toTx : Int64} (hlt : fromTx < toTx) {q : TimedQuery Cell} {old new : List (List Cell)}
    (hold : q.rows fromTx = .ok old) (hnew : q.rows toTx = .ok new) :
    ∃ d, diff toText null storeName fromTx toTx q = .ok d ∧
      (q.spec.Reports null old new d ↔ q.Comparable null old new) := by
  exact ⟨_, diff_eq hstore hlt hold hnew,
    reports_iff htext fromTx toTx (q.length_eq _ _ hold) (q.length_eq _ _ hnew)⟩

/-- The replaced doc string of an entity. -/
theorem diff_reports_iff_doc : ∃ db ∈ stateAfter [firstDoc, replaceDoc], ∃ d,
    diff id .null "default" 1000000000001 1000000000002
      ((valueQuery 500 docAttribute).timed .coll noDoubles 0 db) = .ok d ∧
    ReportsChanges [[.string "first"]] [[.string "second"]] d := by
  have hstate : ∃ db ∈ stateAfter [firstDoc, replaceDoc],
      mentatQuery noDoubles 0 (.atTx 1000000000001) (valueQuery 500 docAttribute) db =
        .ok [[.string "first"]] ∧
      mentatQuery noDoubles 0 (.atTx 1000000000002) (valueQuery 500 docAttribute) db =
        .ok [[.string "second"]] := by
    decide +kernel
  obtain ⟨db, hdb, hold, hnew⟩ := hstate
  obtain ⟨d, hd, hreports⟩ := diff_reports_iff (Function.injective_id (α := List Json)) .null
    (rfl : checkStore "default" = .ok ()) (by decide)
    (q := (valueQuery 500 docAttribute).timed .coll noDoubles 0 db) hold hnew
  exact ⟨db, hdb, d, hd, hreports.mpr (by decide : List.Nodup _)⟩

def twoDocs (tx instant : Int64) (v w : String) : Call :=
  plainCall tx instant [addDatom 500 Entids.dbDoc (.text v), addDatom 501 Entids.dbDoc (.text w)]

/-- `[:find [?v ?w] :where [500 :db/doc ?v] [501 :db/doc ?w]]`. -/
def pairQuery : Query where
  find := ["?v", "?w"]
  patterns := [{ entity := .entid 500, attr := docAttribute, value := .variable "?v" },
    { entity := .entid 501, attr := docAttribute, value := .variable "?w" }]

/-- Two entities exchange their doc strings: the tuples differ, and no difference is reported. -/
theorem not_reports_exchanged :
    ∃ db ∈ stateAfter [twoDocs 1000000000001 1735689600000000 "x" "y",
      twoDocs 1000000000002 1735689601000000 "y" "x"], ∃ d,
    diff id .null "default" 1000000000001 1000000000002 (pairQuery.timed .tuple noDoubles 0 db) =
      .ok d ∧
    mentatQuery noDoubles 0 (.atTx 1000000000001) pairQuery db =
      .ok [[.string "x", .string "y"]] ∧
    mentatQuery noDoubles 0 (.atTx 1000000000002) pairQuery db =
      .ok [[.string "y", .string "x"]] ∧
    ¬ FindShape.tuple.Reports .null [[.string "x", .string "y"]]
      [[.string "y", .string "x"]] d := by
  have hstate : ∃ db ∈ stateAfter [twoDocs 1000000000001 1735689600000000 "x" "y",
      twoDocs 1000000000002 1735689601000000 "y" "x"],
      mentatQuery noDoubles 0 (.atTx 1000000000001) pairQuery db =
        .ok [[.string "x", .string "y"]] ∧
      mentatQuery noDoubles 0 (.atTx 1000000000002) pairQuery db =
        .ok [[.string "y", .string "x"]] := by
    decide +kernel
  obtain ⟨db, hdb, hold, hnew⟩ := hstate
  have hdefault : checkStore "default" = .ok () := rfl
  refine ⟨db, hdb, _, diff_eq hdefault (by decide) hold hnew, hold, hnew, ?_⟩
  intro h
  have hsame := (reports_iff Function.injective_id _ _ (length_of_mentatQuery hold)
    (length_of_mentatQuery hnew)).mp h
  exact absurd (hsame fun v => by simp [or_comm]) (by decide)

end PgMentat

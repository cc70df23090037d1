import PgMentat.Query.Extended
import PgMentat.Query.Correct
import Mathlib.Data.List.ReduceOption

namespace PgMentat

open List Unification

/-- The same schema and idents, and the same log up to `t`. -/
structure Db.SameUpTo (t : Int64) (db db' : Db) : Prop where
  cache : db'.cache = db.cache
  log : ∀ r : LogRow, r.tx ≤ t → (r ∈ db'.log ↔ r ∈ db.log)

theorem Db.SameUpTo.refl (t : Int64) (db : Db) : Db.SameUpTo t db db :=
  ⟨rfl, fun _ _ => Iff.rfl⟩

theorem Db.SameUpTo.symm {t : Int64} {db db' : Db} (h : Db.SameUpTo t db db') :
    Db.SameUpTo t db' db :=
  ⟨h.cache.symm, fun r hr => (h.log r hr).symm⟩

theorem Db.SameUpTo.trans {t : Int64} {db db' db'' : Db} (h : Db.SameUpTo t db db')
    (h' : Db.SameUpTo t db' db'') : Db.SameUpTo t db db'' :=
  ⟨h'.cache.trans h.cache, fun r hr => (h'.log r hr).trans (h.log r hr)⟩

def Source.OfLog : Source → Prop
  | typed _ _ useProjection | union useProjection => useProjection = false

def Condition.OfRow : Condition → Prop
  | missing _ _ _ _ => False
  | _ => True

section Congr

variable {t : Int64} {db db' : Db} {joined : List LogRow} {r : LogRow}

theorem Db.SameUpTo.mem_tableRows (h : Db.SameUpTo t db db') (hr : r.tx ≤ t) {type : ValueType} :
    r ∈ db'.tableRows false type ↔ r ∈ db.tableRows false type := by
  rw [PgMentat.mem_tableRows, PgMentat.mem_tableRows]
  exact and_congr_left' (h.log r hr)

theorem Db.SameUpTo.mem_rows (h : Db.SameUpTo t db db') (hr : r.tx ≤ t) {source : Source}
    (hlog : source.OfLog) : r ∈ source.rows db' ↔ r ∈ source.rows db := by
  cases source with
  | typed type pushdown useProjection =>
    cases (show useProjection = false from hlog)
    simp only [Source.rows, mem_filter, h.mem_tableRows hr]
  | union useProjection =>
    cases (show useProjection = false from hlog)
    simp only [Source.rows, mem_flatMap, h.mem_tableRows hr]

theorem IdentTable.entid_congr (h : db'.cache = db.cache) (table : IdentTable) (ident : String) :
    table.entid db' ident = table.entid db ident := by
  have hschema : db'.schema = db.schema := congrArg SchemaCache.schema h
  have hidents : db'.idents = db.idents := congrArg SchemaCache.idents h
  cases table with
  | idents => rw [IdentTable.entid, IdentTable.entid, hidents]
  | schema => rw [IdentTable.entid, IdentTable.entid, hschema]

theorem Db.SameUpTo.mem_newerRows (h : Db.SameUpTo t db db') (hr : r.tx ≤ t)
    (table : Option ValueType) : r ∈ newerRows db' table ↔ r ∈ newerRows db table := by
  cases table with
  | none =>
    have hlog : (Source.union false).OfLog := rfl
    exact h.mem_rows hr hlog
  | some type => exact h.mem_tableRows hr

theorem Db.SameUpTo.clause_holds (h : Db.SameUpTo t db db') {c : Clause} (hc : c.Until t)
    (hholds : c.Holds db joined) : c.Holds db' joined := by
  cases c with
  | entid idx col table ident =>
    rw [Clause.Holds, table.entid_congr h.cache]
    exact hholds
  | notSuperseded idx table tx =>
    obtain ⟨r, hr, hnot⟩ := hholds
    refine ⟨r, hr, fun newer hnewer hsup => ?_⟩
    -- a row that supersedes is not newer than the basis
    have hle : newer.tx ≤ t := (show tx = t from hc) ▸ hsup.2.2.2.2
    exact hnot newer ((h.mem_newerRows hle table).mp hnewer) hsup
  | columns idx col existing existingCol | sameValue idx existing | param idx col value
  | constant idx col value tag | txAtMost idx tx | txAfter idx tx => exact hholds

theorem Condition.OfRow.holds {ops : SqlOperators} {c : Condition} (hc : c.OfRow)
    (hholds : c.Holds ops db joined) : c.Holds ops db' joined := by
  cases c with
  | missing idx col type attr => exact hc.elim
  | false | compare op left right => exact hholds

end Congr

/-- The subqueries from `width` on read the log, each up to `t`. -/
structure ReadsUntil (t : Int64) (width : Nat) (joins : List Source) (clauses : List Clause)
    (conditions : List Condition) : Prop where
  sources : ∀ source ∈ joins, source.OfLog
  upTo : ∀ c ∈ clauses, c.Until t
  bounded : ∀ i < joins.length, Clause.txAtMost (width + i) t ∈ clauses
  ofRow : ∀ c ∈ conditions, c.OfRow

/-- A row of the subqueries on which every condition holds. -/
def JoinedRow (ops : SqlOperators) (db : Db) (joins : List Source) (clauses : List Clause)
    (conditions : List Condition) (outer inner : List LogRow) : Prop :=
  inner ∈ (joins.map (Source.rows db)).sections ∧
    (∀ c ∈ clauses, c.Holds db (outer ++ inner)) ∧
    ∀ c ∈ conditions, c.Holds ops db (outer ++ inner)

section Subqueries

variable {t : Int64} {db db' : Db} {ops : SqlOperators} {joins : List Source}
  {clauses : List Clause} {conditions : List Condition} {outer inner : List LogRow}

theorem mem_sections_rows :
    inner ∈ (joins.map (Source.rows db)).sections ↔
      Forall₂ (fun r source => r ∈ Source.rows db source) inner joins := by
  rw [mem_sections, List.forall₂_map_right_iff]

namespace ReadsUntil

variable (h : ReadsUntil t outer.length joins clauses conditions)

include h

theorem tx_le (hlength : inner.length = joins.length)
    (hholds : ∀ c ∈ clauses, c.Holds db (outer ++ inner)) : ∀ r ∈ inner, r.tx ≤ t := by
  intro r hr
  obtain ⟨i, hi⟩ := mem_iff_getElem?.mp hr
  have hlt : i < joins.length := by
    rw [← hlength]
    exact (List.getElem?_eq_some_iff.mp hi).1
  obtain ⟨r', hr', hle⟩ := hholds _ (h.bounded i hlt)
  rw [List.getElem?_append_right (Nat.le_add_right _ _), Nat.add_sub_cancel_left, hi] at hr'
  cases hr'
  exact hle

theorem joinedRow (hsame : Db.SameUpTo t db db')
    (hrow : JoinedRow ops db joins clauses conditions outer inner) :
    JoinedRow ops db' joins clauses conditions outer inner := by
  obtain ⟨hmem, hclauses, hconditions⟩ := hrow
  refine ⟨?_, fun c hc => hsame.clause_holds (h.upTo c hc) (hclauses c hc),
    fun c hc => (h.ofRow c hc).holds (hconditions c hc)⟩
  rw [mem_sections_rows] at hmem ⊢
  have htx := h.tx_le hmem.length_eq hclauses
  rw [List.forall₂_iff_zip] at hmem ⊢
  refine ⟨hmem.1, fun {r source} hzip => ?_⟩
  have hin := of_mem_zip hzip
  exact (hsame.mem_rows (htx r hin.1) (h.sources source hin.2)).mpr (hmem.2 hzip)

theorem joinedRow_iff (hsame : Db.SameUpTo t db db') :
    JoinedRow ops db' joins clauses conditions outer inner ↔
      JoinedRow ops db joins clauses conditions outer inner :=
  ⟨h.joinedRow hsame.symm, h.joinedRow hsame⟩

end ReadsUntil

end Subqueries

section Compiler

variable {t : Int64} {temporal : TemporalOption} {c : SchemaCache}

theorem patternSource_ofLog (htemporal : temporal.asOf = some t) (attr : PatternNonValuePlace) :
    (patternSource c temporal attr).OfLog := by
  have huse : temporal.useProjection = false := by simp [TemporalOption.useProjection, htemporal]
  unfold patternSource
  split
  · exact huse
  · exact huse

theorem txAtMost_mem_temporalClauses (htemporal : temporal.asOf = some t) (idx : Nat)
    (attr : PatternNonValuePlace) : .txAtMost idx t ∈ temporalClauses c temporal idx attr := by
  simp [temporalClauses, htemporal]

theorem temporalClauses_until (htemporal : temporal.asOf = some t) (idx : Nat)
    (attr : PatternNonValuePlace) : ∀ k ∈ temporalClauses c temporal idx attr, k.Until t := by
  intro k hk
  simp only [temporalClauses, htemporal, mem_append, mem_cons] at hk
  rcases hk with (hk | rfl | hk) | hk
  · split at hk
    · exact nomatch hk
    · rw [mem_singleton.mp hk]
      trivial
  · trivial
  · split at hk
    · exact nomatch hk
    · rw [mem_singleton.mp hk]
      rfl
  · split at hk
    · exact nomatch hk
    · rw [mem_singleton.mp hk]
      trivial

theorem ReadsUntil.nil (t : Int64) (width : Nat) : ReadsUntil t width [] [] [] where
  sources := fun _ hs => nomatch hs
  upTo := fun _ hk => nomatch hk
  bounded := fun i hi => absurd hi (Nat.not_lt_zero i)
  ofRow := fun _ hc => nomatch hc

variable {width : Nat} {clauses : List Clause} {p : Pattern} {condition : Condition}
  {pred : Predicate} {st st' : NotState}

theorem ReadsUntil.snoc {joins : List Source} {clauses' : List Clause} {conditions : List Condition}
    (h : ReadsUntil t width joins clauses conditions) {source : Source} (hsource : source.OfLog)
    (hsubset : clauses ⊆ clauses') (hupTo : ∀ k ∈ clauses', k.Until t)
    (hbounded : Clause.txAtMost (width + joins.length) t ∈ clauses') :
    ReadsUntil t width (joins ++ [source]) clauses' conditions := by
  refine ⟨?_, hupTo, ?_, h.ofRow⟩
  · intro s hs
    rcases mem_append.mp hs with hs | hs
    · exact h.sources s hs
    · rw [mem_singleton.mp hs]
      exact hsource
  · intro i hi
    rw [length_append, length_singleton] at hi
    rcases Nat.lt_succ_iff_lt_or_eq.mp hi with hi | rfl
    · exact hsubset (h.bounded i hi)
    · exact hbounded

theorem compilePattern_readsUntil (htemporal : temporal.asOf = some t) {st st' : QueryState}
    (h : ReadsUntil t 0 st.joins st.bindings.clauses [])
    (hcompile : compilePattern c temporal st (p, st.joins.length) = .ok st') :
    ReadsUntil t 0 st'.joins st'.bindings.clauses [] := by
  have hsubset := compilePattern_subset hcompile
  obtain ⟨b, b', hattr, hvalue, rfl⟩ := compilePattern_ok hcompile
  have hb := (bindValue_bound hvalue).until
    ((bindAttribute_bound hattr).until ((bindEntity_bound p.entity).until h.upTo))
  refine h.snoc (patternSource_ofLog htemporal p.attr) hsubset ?_ ?_
  · refine (bindAdded_bound p.added).until fun k hk => ?_
    rcases Bindings.mem_foldl_push.mp hk with hk | hk
    · exact (bindTx_bound p.tx).until hb k hk
    · exact temporalClauses_until htemporal _ p.attr k hk
  · apply (bindAdded_bound p.added).subset
    rw [Nat.zero_add]
    exact Bindings.mem_foldl_push.mpr (.inr (txAtMost_mem_temporalClauses htemporal _ p.attr))

theorem compilePatterns_readsUntil (htemporal : temporal.asOf = some t) {ps : List Pattern}
    {st st' : QueryState} (h : ReadsUntil t 0 st.joins st.bindings.clauses [])
    (hcompile : (ps.zipIdx st.joins.length).foldlM (compilePattern c temporal) st = .ok st') :
    ReadsUntil t 0 st'.joins st'.bindings.clauses [] := by
  induction ps generalizing st with
  | nil =>
    cases hcompile
    exact h
  | cons p ps ih =>
    rw [zipIdx_cons, foldlM_cons] at hcompile
    obtain ⟨st1, hp, hrest⟩ := bind_eq_ok hcompile
    have hlength : st1.joins.length = st.joins.length + 1 := by
      obtain ⟨b, b', -, -, rfl⟩ := compilePattern_ok hp
      simp
    exact ih (compilePattern_readsUntil htemporal h hp) (hlength ▸ hrest)

variable {scope : Scope} {outer : Scope} {idx : Nat}

theorem compareArgs_ofRow {op : PredOp} {left right : FnArg}
    (h : compareArgs scope op left right = .ok condition) : condition.OfRow := by
  obtain ⟨l, -, h⟩ := bind_eq_ok h
  obtain ⟨r, -, h⟩ := bind_eq_ok h
  cases h
  trivial

theorem buildPredicateClause_ofRow (h : buildPredicateClause scope pred = .ok condition) :
    condition.OfRow := by
  unfold buildPredicateClause at h
  split at h
  · split at h
    · exact compareArgs_ofRow h
    · cases h
  · split at h
    · cases h
    · split at h
      · split at h
        · cases h
          trivial
        · exact compareArgs_ofRow h
      · cases h

theorem correlatePlace_until {col : Column} {table : IdentTable} (place : PatternNonValuePlace) :
    ∀ k ∈ correlatePlace outer idx col table place, k.Until t := by
  intro k hk
  cases place with
  | placeholder => exact nomatch hk
  | «variable» x =>
    obtain ⟨cell, -, rfl⟩ := mem_map.mp hk
    trivial
  | entid id =>
    rw [mem_singleton.mp hk]
    trivial
  | ident kw =>
    rw [mem_singleton.mp hk]
    trivial

theorem correlateValue_until {type : Option ValueType} {place : PatternValuePlace}
    (h : correlateValue outer idx type place = .ok clauses) : ∀ k ∈ clauses, k.Until t := by
  intro k hk
  unfold correlateValue at h
  split at h
  · cases h
    obtain ⟨cell, -, rfl⟩ := mem_map.mp hk
    split <;> trivial
  · rename_i hplace
    cases hclause : bindConstantValue idx type place with
    | error e =>
      rw [hclause] at h
      cases h
    | ok clause =>
      rw [hclause] at h
      cases h
      rcases bindConstantValue_eq hplace hclause with ⟨-, rfl⟩ | ⟨v, rfl, -⟩
      · exact nomatch hk
      · rw [mem_singleton.mp hk]
        trivial

section

variable (htemporal : temporal.asOf = some t)

include htemporal

theorem notPattern_readsUntil {outer : Scope}
    (h : ReadsUntil t width st.joins st.clauses st.conditions)
    (hp : notPattern c temporal outer width st p = .ok st') :
    ReadsUntil t width st'.joins st'.clauses st'.conditions := by
  obtain ⟨value, hvalue, hp⟩ := bind_eq_ok hp
  cases hp
  refine h.snoc (patternSource_ofLog htemporal p.attr) ?_ ?_ ?_
  · intro k hk
    simp only [mem_append]
    exact .inl (.inl (.inl (.inl hk)))
  · intro k hk
    simp only [mem_append] at hk
    rcases hk with (((hk | hk) | hk) | hk) | hk
    · exact h.upTo k hk
    · exact correlatePlace_until p.entity k hk
    · exact correlatePlace_until p.attr k hk
    · exact correlateValue_until hvalue k hk
    · exact temporalClauses_until htemporal _ p.attr k hk
  · exact mem_append_right _ (txAtMost_mem_temporalClauses htemporal _ p.attr)

theorem notClause_readsUntil {outer : Scope} {clause : NotClause}
    (h : ReadsUntil t width st.joins st.clauses st.conditions)
    (hclause : notClause c temporal outer width st clause = .ok st') :
    ReadsUntil t width st'.joins st'.clauses st'.conditions := by
  cases clause with
  | pattern p => exact notPattern_readsUntil htemporal h hclause
  | pred pred =>
    obtain ⟨condition, hcondition, hclause⟩ := bind_eq_ok hclause
    cases hclause
    refine ⟨h.sources, h.upTo, h.bounded, fun k hk => ?_⟩
    rcases mem_append.mp hk with hk | hk
    · exact h.ofRow k hk
    · rw [mem_singleton.mp hk]
      exact buildPredicateClause_ofRow hcondition
  | other => cases hclause

theorem notClauses_readsUntil {outer : Scope} {clauses : List NotClause}
    (h : ReadsUntil t width st.joins st.clauses st.conditions)
    (hfold : clauses.foldlM (notClause c temporal outer width) st = .ok st') :
    ReadsUntil t width st'.joins st'.clauses st'.conditions := by
  induction clauses generalizing st with
  | nil =>
    cases hfold
    exact h
  | cons clause clauses ih =>
    rw [foldlM_cons] at hfold
    obtain ⟨st1, hclause, hrest⟩ := bind_eq_ok hfold
    exact ih (notClause_readsUntil htemporal h hclause) hrest

theorem buildNotExistsSubquery_readsUntil {outer : Scope} {notJoin : NotJoin} {n : NotExists}
    (h : buildNotExistsSubquery c temporal outer width notJoin = .ok n) :
    ReadsUntil t width n.joins n.clauses n.conditions := by
  unfold buildNotExistsSubquery at h
  split at h
  · cases h
  · obtain ⟨st, hfold, h⟩ := bind_eq_ok h
    split at h
    · cases h
    · cases h
      exact notClauses_readsUntil htemporal (ReadsUntil.nil t width) hfold

end

theorem predicateCondition_ofRow {db : Db} (hidents : db.PlainIdents) {condition : Option Condition}
    (h : predicateCondition db.cache scope pred = .ok condition) : ∀ k ∈ condition, k.OfRow := by
  intro k hk
  unfold predicateCondition at h
  split at h
  · cases h
    unfold missingCondition at hk
    split at hk
    · -- the ident that is looked up has two colons in front
      simp [hidents.resolveIdent] at hk
    · cases hk
  · cases hclause : buildPredicateClause scope pred with
    | error e =>
      rw [hclause] at h
      cases h
    | ok condition' =>
      rw [hclause] at h
      cases h
      cases hk
      exact buildPredicateClause_ofRow hclause

end Compiler

theorem exists_of_mem_mapM_ok {ε α β : Type} {f : α → Except ε β} {xs : List α} {ys : List β}
    (h : xs.mapM f = .ok ys) : ∀ y ∈ ys, ∃ x, f x = .ok y :=
  exists_forall₂_iff.mp ⟨xs, (forall₂_of_mapM_ok h).flip⟩

section Query

variable {t : Int64} {temporal : TemporalOption} {db db' : Db} {q : ExtendedQuery}
  {s : ExtendedSelect} {ops : SqlOperators} {joined : List LogRow}

/-- Every part of the statement reads the log up to `t`. -/
structure ExtendedSelect.Until (t : Int64) (s : ExtendedSelect) : Prop where
  outer : ReadsUntil t 0 s.joins s.clauses s.conditions
  nots : ∀ n ∈ s.nots, ReadsUntil t s.joins.length n.joins n.clauses n.conditions

theorem buildExtendedQuery_until (htemporal : temporal.asOf = some t) (hidents : db.PlainIdents)
    (h : buildExtendedQuery db.cache temporal q = .ok s) : s.Until t := by
  obtain ⟨st, hfold, h⟩ := bind_eq_ok h
  obtain ⟨nots, hnots, h⟩ := bind_eq_ok h
  obtain ⟨conditions, hconditions, h⟩ := bind_eq_ok h
  obtain ⟨outputs, -, h⟩ := bind_eq_ok h
  split at h
  · cases h
  · split at h
    · cases h
    · cases h
      have hpatterns := compilePatterns_readsUntil htemporal (ReadsUntil.nil t 0) hfold
      refine ⟨⟨hpatterns.sources, hpatterns.upTo, hpatterns.bounded, fun k hk => ?_⟩,
        fun n hn => ?_⟩
      · have hk : some k ∈ conditions := reduceOption_mem_iff.mp hk
        obtain ⟨pred, hpred⟩ := exists_of_mem_mapM_ok hconditions (some k) hk
        exact predicateCondition_ofRow hidents hpred k rfl
      · obtain ⟨notJoin, hn⟩ := exists_of_mem_mapM_ok hnots n hn
        exact buildNotExistsSubquery_readsUntil htemporal hn

variable {n : NotExists}

theorem NotExists.mem_joined {outer inner : List LogRow} :
    inner ∈ n.joined ops db outer ↔
      JoinedRow ops db n.joins n.clauses n.conditions outer inner := by
  simp only [NotExists.joined, mem_filter, decide_eq_true_eq, JoinedRow]

theorem NotExists.holds_congr {outer : List LogRow}
    (h : ReadsUntil t outer.length n.joins n.clauses n.conditions) (hsame : Db.SameUpTo t db db') :
    n.Holds ops db' outer ↔ n.Holds ops db outer := by
  simp only [NotExists.Holds, eq_nil_iff_forall_not_mem, NotExists.mem_joined,
    h.joinedRow_iff hsame]

theorem ExtendedSelect.mem_joined :
    joined ∈ s.joined ops db ↔
      JoinedRow ops db s.joins s.clauses s.conditions [] joined ∧
        ∀ n ∈ s.nots, n.Holds ops db joined := by
  simp only [ExtendedSelect.joined, Select.joined, mem_filter, decide_eq_true_eq, JoinedRow,
    nil_append]
  tauto

theorem ExtendedSelect.Until.mem_joined_iff (h : s.Until t) (hsame : Db.SameUpTo t db db') :
    joined ∈ s.joined ops db' ↔ joined ∈ s.joined ops db := by
  rw [ExtendedSelect.mem_joined, ExtendedSelect.mem_joined, h.outer.joinedRow_iff hsame]
  refine and_congr_right fun hrow => forall₂_congr fun n hn => ?_
  have hlength : joined.length = s.joins.length := (mem_sections_rows.mp hrow.1).length_eq
  exact NotExists.holds_congr (hlength ▸ h.nots n hn) hsame

theorem ExtendedSelect.Until.rows_perm (h : s.Until t) (hsame : Db.SameUpTo t db db')
    (fmt : FloatFormat) : (s.rows fmt ops db').Perm (s.rows fmt ops db) := by
  refine (perm_ext_iff_of_nodup (nodup_dedup _) (nodup_dedup _)).mpr fun row => ?_
  simp only [mem_dedup, mem_map, h.mem_joined_iff hsame]

end Query

inductive SameAnswer {ε ρ : Type} : Except ε (List ρ) → Except ε (List ρ) → Prop
  | rows {rows rows' : List ρ} (h : rows.Perm rows') : SameAnswer (.ok rows) (.ok rows')
  | error (e : ε) : SameAnswer (.error e) (.error e)

theorem mentatExtendedQuery_sameAnswer {t : Int64} {temporal : TemporalOption} {db db' : Db}
    (htemporal : temporal.asOf = some t) (hidents : db.PlainIdents)
    (hsame : Db.SameUpTo t db db') (fmt : FloatFormat) (ops : SqlOperators) (maxRows : Nat)
    (q : ExtendedQuery) :
    SameAnswer (mentatExtendedQuery fmt ops maxRows temporal q db')
      (mentatExtendedQuery fmt ops maxRows temporal q db) := by
  unfold mentatExtendedQuery
  rw [hsame.cache]
  cases hbuild : buildExtendedQuery db.cache temporal q with
  | error e => exact .error e
  | ok s =>
    have hperm : (s.rows fmt ops db').Perm (s.rows fmt ops db) :=
      (buildExtendedQuery_until htemporal hidents hbuild).rows_perm hsame fmt
    simp only [bind, Except.bind, hperm.length_eq]
    split
    · split
      · exact .error _
      · exact .rows (hperm.map _)
    · exact .error _

end PgMentat

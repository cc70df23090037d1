import PgMentat.Query.Negated
import PgMentat.PatternQuery

namespace PgMentat

open List Unification

/-- `(not ..)`, or `(not-join [..] ..)` with its header, over data patterns. -/
structure PatternNot where
  unifyVars : UnifyVars := .implicit
  patterns : List Pattern
  deriving DecidableEq, Repr

/-- Data patterns, `not` and `not-join`. -/
structure NegatedQuery extends Query where
  nots : List PatternNot
  deriving DecidableEq, Repr

/-- The header of a `not-join` is not passed on. -/
def NegatedQuery.extended (q : NegatedQuery) : ExtendedQuery :=
  { q.toQuery with notJoins := q.nots.map fun n => ⟨n.patterns.map .pattern⟩ }

def Pattern.vars (p : Pattern) : List String :=
  p.entity.var ++ p.attr.var ++ p.value.var ++ p.tx.var

def Query.vars (q : Query) : List String := q.patterns.flatMap Pattern.vars

namespace PatternNot

/-- The variables that a clause shares with the outer patterns: all of theirs, or the header. -/
def shared (outer : List String) (n : PatternNot) : List String :=
  match n.unifyVars with
  | .implicit => outer
  | .explicit vars => vars

/-- An extension of the substitution makes all patterns of the clause live datoms. -/
def Matched (db : Db) (outer : List String) (σ : Assignment) (n : PatternNot) : Prop :=
  ∃ τ : Assignment, (∀ x ∈ n.shared outer, τ x = σ x) ∧
    ∀ p ∈ n.patterns, ∃ r ∈ db.current, p.Matches db τ r

/-- Every pattern of the clause is a live datom by itself: variables of the outer patterns have
their values, other variables differ from pattern to pattern and from place to place, and the
transaction is left out. -/
def MatchedApart (db : Db) (outer : List String) (σ : Assignment) (n : PatternNot) : Prop :=
  ∀ p ∈ n.patterns, ∃ r ∈ db.current, p.Correlates db outer σ r.live

/-- Every variable inside is either shared or occurs once, nothing is said about a transaction,
and the constants are plain. -/
structure Plain (db : Db) (outer : List String) (n : PatternNot) : Prop where
  constants : ∀ p ∈ n.patterns, p.Plain db
  tx : ∀ p ∈ n.patterns, p.tx = .placeholder ∨ ∃ x, p.tx = .variable x ∧ x ∉ outer
  once : ((n.patterns.flatMap Pattern.vars).filter (· ∉ outer)).Nodup
  header : ∀ p ∈ n.patterns, ∀ x ∈ p.vars, x ∈ outer → x ∈ n.shared outer

end PatternNot

namespace NegatedQuery

/-- A row of the outer patterns survives exactly if no clause is matched by an extension of its
substitution. -/
def Negates (q : NegatedQuery) (s : ExtendedSelect) (ops : SqlOperators) (db : Db) : Prop :=
  ∀ joined ∈ s.toSelect.joined db, ∀ σ,
    List.Forall₂ (fun p r => p.Reads db σ r) q.patterns joined →
      (joined ∈ s.joined ops db ↔ ∀ n ∈ q.nots, ¬ n.Matched db q.vars σ)

/-- Under every substitution of the outer patterns, some clause is matched pattern by pattern
exactly if some clause is matched. -/
def ReadAsMeant (q : NegatedQuery) (db : Db) : Prop :=
  ∀ σ, (∀ p ∈ q.patterns, ∃ r ∈ db.current, p.Reads db σ r.live) →
    ((∃ n ∈ q.nots, n.MatchedApart db q.vars σ) ↔ ∃ n ∈ q.nots, n.Matched db q.vars σ)

end NegatedQuery

section Cells

variable {c : SchemaCache} {temporal : TemporalOption} {x : String}

theorem compilePatterns_cell {ps : List Pattern} {k : Nat} {st st' : QueryState}
    (hfour : ∀ p ∈ ps, p.added = .placeholder)
    (h : (ps.zipIdx k).foldlM (compilePattern c temporal) st = .ok st') :
    st'.bindings.cell x ≠ none ↔ st.bindings.cell x ≠ none ∨ x ∈ ps.flatMap Pattern.vars := by
  induction ps generalizing st k with
  | nil =>
    cases h
    simp
  | cons p ps ih =>
    rw [zipIdx_cons, foldlM_cons] at h
    obtain ⟨st1, hp, h⟩ := bind_eq_ok h
    obtain ⟨b, b', hattr, hvalue, rfl⟩ := compilePattern_ok hp
    have hadded (b : PatternBindings) : bindAdded k b p.added = b := by
      rw [hfour p mem_cons_self]
      rfl
    rw [ih (fun p hp => hfour p (mem_cons_of_mem _ hp)) h, hadded, Bindings.cell_foldl_push,
      (bindTx_bound p.tx).cell_ne_none, (bindValue_bound hvalue).cell_ne_none,
      (bindAttribute_bound hattr).cell_ne_none, (bindEntity_bound p.entity).cell_ne_none,
      flatMap_cons, mem_append, Pattern.vars]
    simp only [mem_append, or_assoc]

end Cells

section Survive

variable {db : Db} {q : NegatedQuery} {s : ExtendedSelect} {ops : SqlOperators}
  {joined : List LogRow} {σ : Assignment}

theorem extended_ok (h : buildExtendedQuery db.cache {} q.extended = .ok s) :
    ∃ st, q.patterns.zipIdx.foldlM (compilePattern db.cache {}) {} = .ok st ∧
      s.joins = st.joins ∧ s.clauses = st.bindings.clauses ∧ s.conditions = [] ∧
      Forall₂ (fun n sub => buildNotExistsSubquery db.cache {}
        (outerScope db.cache q.patterns st.bindings) st.joins.length
        ⟨n.patterns.map NotClause.pattern⟩ = .ok sub) q.nots s.nots := by
  obtain ⟨st, hfold, h⟩ := bind_eq_ok h
  obtain ⟨nots, hnots, h⟩ := bind_eq_ok h
  obtain ⟨conditions, hconditions, h⟩ := bind_eq_ok h
  obtain ⟨outputs, -, h⟩ := bind_eq_ok h
  cases hconditions
  have hnots := forall₂_of_mapM_ok hnots
  rw [NegatedQuery.extended, List.forall₂_map_left_iff] at hnots
  split at h
  · cases h
  · split at h <;> cases h
    exact ⟨st, hfold, rfl, rfl, rfl, hnots⟩

theorem outerScope_carries {st : QueryState} (hfour : q.FourPlaces)
    (hfold : q.patterns.zipIdx.foldlM (compilePattern db.cache {}) {} = .ok st)
    (hacc : st.bindings.Accepted) (hclauses : ∀ c ∈ st.bindings.clauses, c.Holds db joined)
    (hreads : Forall₂ (fun p r => p.Reads db σ r) q.patterns joined) :
    (outerScope db.cache q.patterns st.bindings).Carries q.vars σ joined := by
  have hempty : Compiled db joined {} fun _ => True := compiled_empty
  have hcompiled := compilePatterns_compiled hempty drop_zero hreads.length_eq.symm hfold hacc
  obtain ⟨σ', ⟨-, hother⟩, -⟩ := (hcompiled.represents.exists_map_iff .nil).mpr ⟨hclauses, rfl⟩
  have hsolves : Forall₂
      (fun p r => p.Reads db σ r ∧ TemporalOption.Admits {} db p.attr r) q.patterns joined :=
    List.Forall₂.mp (fun p r hp h => ⟨hp, h.2⟩) hreads hother
  refine ⟨fun x => ?_, hcompiled.bound, hcompiled.row, ?_⟩
  · have hcells : st.bindings.cell x ≠ none ↔ _ := compilePatterns_cell hfour hfold
    rw [outerScope, hcells, Query.vars]
    exact or_iff_right fun h => h rfl
  · exact ((hcompiled.represents σ).mp ⟨trivial, hsolves⟩).2

theorem exists_sees_correlates_iff (htyped : db.Typed) (hidents : db.PlainIdents)
    {outer : List String} {p : Pattern} :
    (∃ r, p.Sees db {} r ∧ p.Correlates db outer σ r) ↔
      ∃ x ∈ db.current, p.Correlates db outer σ x.live := by
  constructor
  · rintro ⟨r, ⟨hsource, -⟩, hcorrelates⟩
    obtain ⟨x, hx, rfl⟩ := mem_datoms_current.mp (mem_patternSource.mp hsource).1
    exact ⟨x, hx, hcorrelates⟩
  · rintro ⟨x, hx, hcorrelates⟩
    -- a free variable takes the value of the row
    have hattr : p.attr.Denotes db.attributeNamed (fun _ => .ref x.a) x.a := by
      have ha := hcorrelates.2.1
      cases hp : p.attr with
      | «variable» y => exact rfl
      | _ =>
        rw [hp] at ha
        exact ha
    refine ⟨x.live, sees_live hidents hx hattr fun t ht => ?_, hcorrelates⟩
    exact htyped x hx t (declaredType_of_denotes ht hattr)

theorem mem_joined_iff_apart (htyped : db.Typed) (hidents : db.PlainIdents) (hfour : q.FourPlaces)
    (hbuild : buildExtendedQuery db.cache {} q.extended = .ok s) (hacc : s.Accepted)
    (hjoined : joined ∈ s.toSelect.joined db)
    (hreads : Forall₂ (fun p r => p.Reads db σ r) q.patterns joined) :
    joined ∈ s.joined ops db ↔ ∀ n ∈ q.nots, ¬ n.MatchedApart db q.vars σ := by
  obtain ⟨st, hfold, hjoins, hclauses, hconditions, hnots⟩ := extended_ok hbuild
  have hholds : ∀ c ∈ st.bindings.clauses, c.Holds db joined := by
    rw [← hclauses]
    exact of_decide_eq_true (mem_filter.mp hjoined).2
  have haccepted : st.bindings.Accepted := by
    rw [PatternBindings.Accepted, ← hclauses]
    exact hacc.1
  have hcarries := outerScope_carries hfour hfold haccepted hholds hreads
  have hwidth : st.joins.length = joined.length := by
    rw [compilePatterns_joins hfold, ← hreads.length_eq]
    simp
  rw [hwidth] at hnots
  have heach : Forall₂ (fun n sub => ¬ n.MatchedApart db q.vars σ ↔ sub.Holds ops db joined)
      q.nots s.nots := by
    refine ((List.forall₂_and_left _ _).mpr ⟨hacc.2.1, hnots.flip⟩).flip.imp fun n sub h => ?_
    obtain ⟨hsub, hn⟩ := h
    rw [notExists_holds_iff ops hn hsub hcarries, PatternNot.MatchedApart]
    simp only [exists_sees_correlates_iff htyped hidents]
  rw [forall_mem_iff_of_forall₂ heach, ExtendedSelect.joined, mem_filter, hconditions]
  simp [hjoined]

theorem exists_joined (htyped : db.Typed) (hidents : db.PlainIdents)
    (hbuild : buildExtendedQuery db.cache {} q.extended = .ok s) (hacc : s.Accepted)
    (h : ∀ p ∈ q.patterns, ∃ r ∈ db.current, p.Reads db σ r.live) :
    ∃ joined ∈ s.toSelect.joined db,
      Forall₂ (fun p r => p.Reads db σ r) q.patterns joined := by
  obtain ⟨st, hfold, hjoins, hclauses, -, -⟩ := extended_ok hbuild
  have haccepted : st.bindings.Accepted := by
    rw [PatternBindings.Accepted, ← hclauses]
    exact hacc.1
  obtain ⟨joined, hrows⟩ := exists_forall₂_iff.mpr fun p hp =>
    (htyped.exists_sees_iff hidents).mpr (h p hp)
  have hempty : Compiled db joined {} fun _ => True := compiled_empty
  have hcompiled := compilePatterns_compiled hempty drop_zero hrows.length_eq.symm hfold
    haccepted
  have hsolves := hrows.imp fun p r h => And.intro h.2 h.1.2
  refine ⟨joined, mem_filter.mpr ⟨?_, decide_eq_true ?_⟩, hrows.imp fun p r h => h.2⟩
  · rw [hjoins, mem_sections_patterns (compilePatterns_joins hfold)]
    exact hrows.imp fun p r h => h.1.1
  · rw [hclauses]
    exact ((hcompiled.represents σ).mp ⟨trivial, hsolves⟩).1

theorem exists_current_of_joined
    (hbuild : buildExtendedQuery db.cache {} q.extended = .ok s)
    (hjoined : joined ∈ s.toSelect.joined db)
    (hreads : Forall₂ (fun p r => p.Reads db σ r) q.patterns joined) :
    ∀ p ∈ q.patterns, ∃ r ∈ db.current, p.Reads db σ r.live := by
  obtain ⟨st, hfold, hjoins, -, -, -⟩ := extended_ok hbuild
  have hsections := (mem_filter.mp hjoined).1
  rw [hjoins, mem_sections_patterns (compilePatterns_joins hfold)] at hsections
  have hrows : Forall₂ (fun p r => r ∈ (patternSource db.cache {} p.attr).rows db ∧
      p.Reads db σ r) q.patterns joined :=
    List.Forall₂.mp (fun p r hsource h => ⟨hsource, h⟩) hsections hreads
  intro p hp
  obtain ⟨r, hsource, hread⟩ := exists_forall₂_iff.mp ⟨joined, hrows⟩ p hp
  obtain ⟨x, hx, rfl⟩ := mem_datoms_current.mp (mem_patternSource.mp hsource).1
  exact ⟨x, hx, hread⟩

end Survive

section Plain

variable {db : Db} {outer : List String} {σ τ τ' : Assignment} {p : Pattern} {r : CurrentRow}

variable {id : Int64} {v : TypedValue} {x : String}

variable {named : Keyword → Option Int64} {place : PatternNonValuePlace} {type : Option ValueType}

theorem PatternNonValuePlace.denotes_congr (h : ∀ x ∈ place.var, τ x = τ' x) :
    place.Denotes named τ id ↔ place.Denotes named τ' id := by
  cases place with
  | «variable» x => simp only [Denotes, h x (mem_singleton_self x)]
  | _ => exact Iff.rfl

theorem PatternValuePlace.reads_congr {place : PatternValuePlace}
    (h : ∀ x ∈ place.var, τ x = τ' x) :
    place.Reads type τ v ↔ place.Reads type τ' v := by
  cases place with
  | «variable» x => simp only [Reads, h x (mem_singleton_self x)]
  | _ => exact Iff.rfl

theorem PatternNonValuePlace.readsTx_congr {tx : Int64} (h : ∀ x ∈ place.var, τ x = τ' x) :
    place.ReadsTx τ tx ↔ place.ReadsTx τ' tx := by
  cases place with
  | «variable» x => simp only [ReadsTx, h x (mem_singleton_self x)]
  | _ => exact Iff.rfl

theorem Pattern.reads_congr {r : LogRow} (hadded : p.added = .placeholder)
    (h : ∀ x ∈ p.vars, τ x = τ' x) : p.Reads db τ r ↔ p.Reads db τ' r := by
  simp only [Pattern.vars, mem_append] at h
  refine and_congr ?_ (and_congr ?_ (and_congr ?_ (and_congr ?_ ?_)))
  · exact PatternNonValuePlace.denotes_congr fun x hx => h x (by simp [hx])
  · exact PatternNonValuePlace.denotes_congr fun x hx => h x (by simp [hx])
  · exact PatternValuePlace.reads_congr fun x hx => h x (by simp [hx])
  · exact PatternNonValuePlace.readsTx_congr fun x hx => h x (by simp [hx])
  · rw [hadded]
    exact Iff.rfl

theorem PatternNonValuePlace.correlates_of_denotes (hagree : ∀ x ∈ place.var, x ∈ outer → τ x = σ x)
    (h : place.Denotes named τ id) : place.Correlates named outer σ id := by
  cases place with
  | «variable» x => exact fun hx => hagree x (mem_singleton_self x) hx ▸ h
  | _ => exact h

theorem PatternValuePlace.correlates_of_reads {place : PatternValuePlace}
    (hagree : ∀ x ∈ place.var, x ∈ outer → τ x = σ x) (h : place.Reads type τ v) :
    place.Correlates outer type σ v := by
  cases place with
  | «variable» x => exact fun hx => hagree x (mem_singleton_self x) hx ▸ h
  | _ => exact h

theorem PatternNonValuePlace.denotes_of_correlates (houter : ∀ x ∈ outer, τ x = σ x)
    (hlocal : ∀ x, place = .variable x → x ∉ outer → τ x = .ref id)
    (h : place.Correlates named outer σ id) : place.Denotes named τ id := by
  cases place with
  | «variable» x =>
    by_cases hx : x ∈ outer
    · exact (houter x hx).trans (h hx)
    · exact hlocal x rfl hx
  | _ => exact h

theorem PatternValuePlace.reads_of_correlates {place : PatternValuePlace}
    (houter : ∀ x ∈ outer, τ x = σ x) (hlocal : ∀ x, place = .variable x → x ∉ outer → τ x = v)
    (h : place.Correlates outer type σ v) : place.Reads type τ v := by
  cases place with
  | «variable» x =>
    by_cases hx : x ∈ outer
    · exact (houter x hx).trans (h hx)
    · exact hlocal x rfl hx
  | _ => exact h

theorem Pattern.correlates_of_reads {r : LogRow}
    (hagree : ∀ x ∈ p.vars, x ∈ outer → τ x = σ x) (h : p.Reads db τ r) :
    p.Correlates db outer σ r := by
  obtain ⟨he, ha, hv, -⟩ := h
  simp only [Pattern.vars, mem_append] at hagree
  refine ⟨?_, ?_, ?_⟩
  · exact PatternNonValuePlace.correlates_of_denotes (fun x hx => hagree x (by simp [hx])) he
  · exact PatternNonValuePlace.correlates_of_denotes (fun x hx => hagree x (by simp [hx])) ha
  · exact PatternValuePlace.correlates_of_reads (fun x hx => hagree x (by simp [hx])) hv

def Pattern.valueIn (p : Pattern) (r : LogRow) (x : String) : TypedValue :=
  if p.entity = .variable x then .ref r.e
  else if p.attr = .variable x then .ref r.a
  else if p.value = .variable x then r.v
  else .ref r.tx

theorem Pattern.count_var_le_one (honce : (p.vars.filter (· ∉ outer)).Nodup) (hx : x ∉ outer) :
    p.entity.var.count x + p.attr.var.count x + p.value.var.count x +
      p.tx.var.count x ≤ 1 := by
  have hcount := nodup_iff_count_le_one.mp honce x
  rw [count_filter (by simpa using hx), Pattern.vars] at hcount
  simpa only [count_append] using hcount

theorem Pattern.reads_of_correlates {r : LogRow} (hadded : p.added = .placeholder)
    (htx : p.tx = .placeholder ∨ ∃ x, p.tx = .variable x ∧ x ∉ outer)
    (honce : (p.vars.filter (· ∉ outer)).Nodup)
    (houter : ∀ x ∈ outer, τ x = σ x) (hlocal : ∀ x ∈ p.vars, x ∉ outer → τ x = p.valueIn r x)
    (h : p.Correlates db outer σ r) : p.Reads db τ r := by
  obtain ⟨he, ha, hv⟩ := h
  have hentity : p.entity.Denotes db.named τ r.e := by
    refine PatternNonValuePlace.denotes_of_correlates houter (fun x hp hx => ?_) he
    rw [hlocal x (by simp [Pattern.vars, hp, PatternNonValuePlace.var]) hx, Pattern.valueIn,
      if_pos hp]
  have hattr : p.attr.Denotes db.attributeNamed τ r.a := by
    refine PatternNonValuePlace.denotes_of_correlates houter (fun x hp hx => ?_) ha
    have hne : p.entity ≠ .variable x := by
      intro heq
      have hcount := Pattern.count_var_le_one honce hx
      simp [heq, hp, PatternNonValuePlace.var] at hcount
      omega
    rw [hlocal x (by simp [Pattern.vars, hp, PatternNonValuePlace.var]) hx, Pattern.valueIn,
      if_neg hne, if_pos hp]
  have hvalue : p.value.Reads (resolvePatternValueType db.cache p.attr) τ r.v := by
    refine PatternValuePlace.reads_of_correlates houter (fun x hp hx => ?_) hv
    have hne : p.entity ≠ .variable x ∧ p.attr ≠ .variable x := by
      have hcount := Pattern.count_var_le_one honce hx
      constructor <;> intro heq <;>
        simp [heq, hp, PatternNonValuePlace.var, PatternValuePlace.var] at hcount <;> omega
    rw [hlocal x (by simp [Pattern.vars, hp, PatternValuePlace.var]) hx, Pattern.valueIn,
      if_neg hne.1, if_neg hne.2, if_pos hp]
  have htransaction : p.tx.ReadsTx τ r.tx := by
    rcases htx with hp | ⟨x, hp, hx⟩
    · rw [hp]
      trivial
    · have hne : p.entity ≠ .variable x ∧ p.attr ≠ .variable x ∧ p.value ≠ .variable x := by
        have hcount := Pattern.count_var_le_one honce hx
        refine ⟨?_, ?_, ?_⟩ <;> intro heq <;>
          simp [heq, hp, PatternNonValuePlace.var, PatternValuePlace.var] at hcount
      rw [hp]
      show τ x = .ref r.tx
      rw [hlocal x (by simp [Pattern.vars, hp, PatternNonValuePlace.var]) hx, Pattern.valueIn,
        if_neg hne.1, if_neg hne.2.1, if_neg hne.2.2]
  refine ⟨hentity, hattr, hvalue, htransaction, ?_⟩
  rw [hadded]
  trivial

/-- The variables inside a pattern take their values from a row. -/
def Pattern.extend (p : Pattern) (outer : List String) (r : LogRow) (τ : Assignment) :
    Assignment :=
  fun x => if x ∈ p.vars ∧ x ∉ outer then p.valueIn r x else τ x

theorem Pattern.extend_of_mem {r : LogRow} (hx : x ∈ outer) : p.extend outer r τ x = τ x :=
  if_neg fun h => h.2 hx

theorem exists_reads_of_correlates {ps : List Pattern}
    (hadded : ∀ p ∈ ps, p.added = .placeholder)
    (htx : ∀ p ∈ ps, p.tx = .placeholder ∨ ∃ x, p.tx = .variable x ∧ x ∉ outer)
    (honce : ((ps.flatMap Pattern.vars).filter (· ∉ outer)).Nodup)
    (h : ∀ p ∈ ps, ∃ r ∈ db.current, p.Correlates db outer σ r.live) :
    ∃ τ : Assignment, (∀ x ∈ outer, τ x = σ x) ∧
      ∀ p ∈ ps, ∃ r ∈ db.current, p.Reads db τ r.live := by
  induction ps with
  | nil => exact ⟨σ, fun _ _ => rfl, fun p hp => nomatch hp⟩
  | cons p ps ih =>
    rw [forall_mem_cons] at hadded htx h
    rw [flatMap_cons, filter_append, nodup_append] at honce
    obtain ⟨honceP, honcePs, hdisjoint⟩ := honce
    obtain ⟨τ, houter, hreads⟩ := ih hadded.2 htx.2 honcePs h.2
    obtain ⟨r, hr, hcorrelates⟩ := h.1
    have hextend : ∀ x ∈ outer, p.extend outer r.live τ x = σ x := by
      intro x hx
      rw [Pattern.extend_of_mem hx, houter x hx]
    refine ⟨p.extend outer r.live τ, hextend, forall_mem_cons.mpr ⟨⟨r, hr, ?_⟩, ?_⟩⟩
    · refine Pattern.reads_of_correlates hadded.1 htx.1 honceP hextend (fun x hx hlocal => ?_)
        hcorrelates
      exact if_pos ⟨hx, hlocal⟩
    · intro p' hp'
      obtain ⟨r', hr', hread⟩ := hreads p' hp'
      refine ⟨r', hr', (Pattern.reads_congr (hadded.2 p' hp') fun x hx => ?_).mp hread⟩
      -- a variable inside both patterns would occur twice
      refine (if_neg ?_).symm
      rintro ⟨hxp, hlocal⟩
      have hmem : x ∈ (ps.flatMap Pattern.vars).filter (· ∉ outer) :=
        mem_filter.mpr ⟨mem_flatMap.mpr ⟨p', hp', hx⟩, by simpa using hlocal⟩
      exact hdisjoint x (mem_filter.mpr ⟨hxp, by simpa using hlocal⟩) x hmem rfl

theorem PatternNot.Plain.matchedApart_iff {n : PatternNot} (h : n.Plain db outer)
    (hadded : ∀ p ∈ n.patterns, p.added = .placeholder)
    (hheader : ∀ x ∈ n.shared outer, x ∈ outer) :
    n.MatchedApart db outer σ ↔ n.Matched db outer σ := by
  constructor
  · intro happart
    obtain ⟨τ, houter, hreads⟩ := exists_reads_of_correlates hadded h.tx h.once happart
    refine ⟨τ, fun x hx => houter x (hheader x hx), fun p hp => ?_⟩
    obtain ⟨r, hr, hread⟩ := hreads p hp
    exact ⟨r, hr, ((h.constants p hp).reads_iff (hadded p hp)).mp hread⟩
  · rintro ⟨τ, hshared, hmatches⟩ p hp
    obtain ⟨r, hr, hmatch⟩ := hmatches p hp
    have hread := ((h.constants p hp).reads_iff (hadded p hp)).mpr hmatch
    refine ⟨r, hr, Pattern.correlates_of_reads (fun x hx hxo => ?_) hread⟩
    exact hshared x (h.header p hp x hx hxo)

end Plain

/-- A row of the outer patterns survives exactly if no extension of its substitution matches a
clause, provided that matching a clause pattern by pattern comes to the same. Plain clauses meet
this. -/
theorem negates_iff_readAsMeant {db : Db} {q : NegatedQuery} {s : ExtendedSelect}
    (ops : SqlOperators) (htyped : db.Typed) (hidents : db.PlainIdents) (hfour : q.FourPlaces)
    (hinner : ∀ n ∈ q.nots, ∀ p ∈ n.patterns, p.added = .placeholder)
    (hheader : ∀ n ∈ q.nots, ∀ x ∈ n.shared q.vars, x ∈ q.vars)
    (hbuild : buildExtendedQuery db.cache {} q.extended = .ok s) (hacc : s.Accepted) :
    (q.Negates s ops db ↔ q.ReadAsMeant db) ∧
      ((∀ n ∈ q.nots, n.Plain db q.vars) → q.Negates s ops db) := by
  have hnegates : q.Negates s ops db ↔ q.ReadAsMeant db := by
    constructor
    · intro hnegates σ hσ
      obtain ⟨joined, hjoined, hreads⟩ := exists_joined htyped hidents hbuild hacc hσ
      have hsurvives := hnegates joined hjoined σ hreads
      rw [mem_joined_iff_apart htyped hidents hfour hbuild hacc hjoined hreads] at hsurvives
      rw [← not_iff_not]
      simpa only [not_exists, not_and] using hsurvives
    · intro hmeant joined hjoined σ hreads
      have hσ := exists_current_of_joined hbuild hjoined hreads
      rw [mem_joined_iff_apart htyped hidents hfour hbuild hacc hjoined hreads]
      simpa only [not_exists, not_and] using not_congr (hmeant σ hσ)
  refine ⟨hnegates, fun hplain => hnegates.mpr fun σ _ => ?_⟩
  exact exists_congr fun n => and_congr_right fun hn =>
    (hplain n hn).matchedApart_iff (hinner n hn) (hheader n hn)

/-- Entity 500 has the doc string `a`, entity 501 refers to `:db.type/ref`. -/
def apartCall : Call :=
  plainCall 1000000000001 1735689600000000
    [addDatom 500 Entids.dbDoc (.text "a"), addDatom 501 Entids.dbValueType (.integer 70)]

/-- `[:find ?d :where [?e :db/doc ?d] (not [?e :db/valueType _])]`. -/
def untypedQuery : NegatedQuery where
  find := ["?d"]
  patterns := [{ entity := .variable "?e", attr := .ident (.namespaced "db" "doc"),
                 value := .variable "?d" }]
  nots := [{ patterns := [{ entity := .variable "?e",
                            attr := .ident (.namespaced "db" "valueType") }] }]

/-- A clause with one pattern and only outer variables. -/
theorem negates_iff_readAsMeant_untyped :
    ∃ db s, stateAfter [apartCall] = some db ∧
      buildExtendedQuery db.cache {} untypedQuery.extended = .ok s ∧
      ∀ ops, untypedQuery.Negates s ops db := by
  have hstate : ∃ db ∈ stateAfter [apartCall], db.Typed ∧ db.PlainIdents ∧
      ∃ s, buildExtendedQuery db.cache {} untypedQuery.extended = .ok s ∧ s.Accepted := by
    decide +kernel
  obtain ⟨db, hdb, htyped, hidents, s, hs, hacc⟩ := hstate
  refine ⟨db, s, hdb, hs, fun ops => ?_⟩
  refine (negates_iff_readAsMeant ops htyped hidents (by decide) (by decide)
    (by simp [untypedQuery, PatternNot.shared]) hs hacc).2 ?_
  intro n hn
  rw [mem_singleton.mp hn]
  refine ⟨?_, ?_, by decide, by decide⟩
  · intro p hp
    rw [mem_singleton.mp hp]
    exact ⟨nofun, nofun, nofun⟩
  · intro p hp
    rw [mem_singleton.mp hp]
    exact .inl rfl

/-- `[:find ?d :where [?e :db/doc ?d] (not [?x :db/doc "a"] [?x :db/valueType 70])]`. -/
def describedRefQuery : NegatedQuery where
  find := ["?d"]
  patterns := [{ entity := .variable "?e", attr := .ident (.namespaced "db" "doc"),
                 value := .variable "?d" }]
  nots := [{ patterns :=
    [{ entity := .variable "?x", attr := .ident (.namespaced "db" "doc"),
       value := .constant (.text "a") },
     { entity := .variable "?x", attr := .ident (.namespaced "db" "valueType"),
       value := .entidOrInteger 70 }] }]

def noOperators : SqlOperators :=
  ⟨fun _ _ _ => false, fun _ _ _ => false, fun _ => .nan, fun _ => "", fun _ => ""⟩

/-- No entity has both values inside the `not`, and still nothing survives. -/
theorem not_negates_apart :
    ∃ db, stateAfter [apartCall] = some db ∧ db.Typed ∧ db.PlainIdents ∧
      mentatExtendedQuery noDoubles noOperators 0 {} describedRefQuery.extended db = .ok [] ∧
      (∃ r ∈ db.current, r.e = 500 ∧
        db.attributeNamed (.namespaced "db" "doc") = some r.a ∧ r.v = .text "a") ∧
      ∀ n ∈ describedRefQuery.nots, ∀ σ, ¬ n.Matched db describedRefQuery.vars σ := by
  have hstate : ∃ db ∈ stateAfter [apartCall], db.Typed ∧ db.PlainIdents ∧
      mentatExtendedQuery noDoubles noOperators 0 {} describedRefQuery.extended db = .ok [] ∧
      (∃ r ∈ db.current, r.e = 500 ∧
        db.attributeNamed (.namespaced "db" "doc") = some r.a ∧ r.v = .text "a") ∧
      ∀ r ∈ db.current, ∀ r' ∈ db.current,
        db.attributeNamed (.namespaced "db" "doc") = some r.a ∧
        db.attributeNamed (.namespaced "db" "valueType") = some r'.a → r.e ≠ r'.e := by
    decide +kernel
  obtain ⟨db, hdb, htyped, hidents, hquery, hdoc, hapart⟩ := hstate
  refine ⟨db, hdb, htyped, hidents, hquery, hdoc, ?_⟩
  rintro n hn σ ⟨τ, -, hmatches⟩
  rw [mem_singleton.mp hn] at hmatches
  obtain ⟨r, hr, he, ha, -⟩ := hmatches _ mem_cons_self
  obtain ⟨r', hr', he', ha', -⟩ := hmatches _ (mem_cons_of_mem _ mem_cons_self)
  exact hapart r hr r' hr' ⟨ha, ha'⟩ (TypedValue.ref.inj (Eq.trans (Eq.symm he) he'))

end PgMentat

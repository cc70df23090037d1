import PgMentat.Query.Extended
import PgMentat.Query.Correct

namespace PgMentat

open List Unification

/-- A variable of the outer query has its value there, any other variable is free. -/
def PatternNonValuePlace.Correlates (named : Keyword → Option Int64) (outer : List String)
    (σ : Assignment) (id : Int64) : PatternNonValuePlace → Prop
  | .placeholder => True
  | .variable x => x ∈ outer → σ x = .ref id
  | .entid n => n = id
  | .ident k => named k = some id

def PatternValuePlace.Correlates (outer : List String) (type : Option ValueType) (σ : Assignment)
    (v : TypedValue) : PatternValuePlace → Prop
  | .variable x => x ∈ outer → σ x = v
  | place => place.Reads type σ v

/-- The pattern by itself; its transaction says nothing. -/
def Pattern.Correlates (db : Db) (outer : List String) (σ : Assignment) (p : Pattern)
    (r : LogRow) : Prop :=
  p.entity.Correlates db.named outer σ r.e ∧ p.attr.Correlates db.attributeNamed outer σ r.a ∧
    p.value.Correlates outer (resolvePatternValueType db.cache p.attr) σ r.v

/-- The scope has the outer variables, and the joined row has their values. -/
structure Scope.Carries (scope : Scope) (outer : List String) (σ : Assignment)
    (joined : List LogRow) : Prop where
  bound : ∀ x, scope.cell x ≠ none ↔ x ∈ outer
  column : ∀ x cell, scope.cell x = some cell → cell.2 ∈ boundColumns
  row : ∀ x cell, scope.cell x = some cell → ∃ r, joined[cell.1]? = some r
  value : ∀ x cell, scope.cell x = some cell → σ x = cellValue joined cell

section Places

variable {db : Db} {scope : Scope} {outer : List String} {σ : Assignment} {joined : List LogRow}
  {idx : Nat} {r : LogRow}

theorem Scope.Carries.append (h : scope.Carries outer σ joined) (inner : List LogRow) :
    scope.Carries outer σ (joined ++ inner) := by
  have hrow {x : String} {cell : Cell} (hx : scope.cell x = some cell) :
      (joined ++ inner)[cell.1]? = joined[cell.1]? := by
    obtain ⟨r, hr⟩ := h.row x cell hx
    exact List.getElem?_append_left (List.getElem?_eq_some_iff.mp hr).1
  refine ⟨h.bound, h.column, fun x cell hx => ?_, fun x cell hx => ?_⟩
  · rw [hrow hx]
    exact h.row x cell hx
  · rw [h.value x cell hx, cellValue, cellValue, hrow hx]

theorem Scope.Carries.not_mem (h : scope.Carries outer σ joined) {x : String}
    (hnone : scope.cell x = none) : x ∉ outer :=
  fun hx => (h.bound x).mpr hx hnone

theorem Scope.Carries.mem (h : scope.Carries outer σ joined) {x : String} {cell : Cell}
    (hcell : scope.cell x = some cell) : x ∈ outer :=
  (h.bound x).mp (by rw [hcell]; exact Option.some_ne_none cell)

theorem correlatePlace_holds (h : scope.Carries outer σ joined) (hr : joined[idx]? = some r)
    {col : Column} {table : IdentTable} {named : Keyword → Option Int64} {id : Int64}
    (hcol : col ∈ boundColumns) (hcolumn : r.column col = some (.bigint id))
    (hvalue : r.cell col = .ref id) (hnamed : ∀ k, table.entid db k.display = named k)
    (place : PatternNonValuePlace)
    (hacc : ∀ c ∈ correlatePlace scope idx col table place, c.Accepted) :
    (∀ c ∈ correlatePlace scope idx col table place, c.Holds db joined) ↔
      place.Correlates named outer σ id := by
  cases place with
  | placeholder => exact iff_of_true (fun c hc => nomatch hc) trivial
  | entid n =>
    rw [correlatePlace, forall_mem_singleton, param_holds hr, hcolumn]
    simp [PatternNonValuePlace.Correlates, eq_comm]
  | ident k =>
    rw [correlatePlace, forall_mem_singleton, entid_holds hr hcolumn, hnamed]
    rfl
  | «variable» x =>
    rw [PatternNonValuePlace.Correlates]
    cases hcell : scope.cell x with
    | none =>
      simp only [correlatePlace, hcell, Option.toList_none, map_nil]
      exact iff_of_true (fun c hc => nomatch hc) fun hx => absurd hx (h.not_mem hcell)
    | some cell =>
      simp only [correlatePlace, hcell, Option.toList_some, map_cons, map_nil,
        forall_mem_singleton] at hacc ⊢
      obtain ⟨s, hs⟩ := h.row x cell hcell
      rw [columns_holds hr hs hcol (h.column x cell hcell) hacc, cellValue_eq hr, hvalue,
        imp_iff_right (h.mem hcell), h.value x cell hcell, eq_comm]

theorem correlateValue_holds (h : scope.Carries outer σ joined) (hr : joined[idx]? = some r)
    {type : Option ValueType} {place : PatternValuePlace} {clauses : List Clause}
    (hbind : correlateValue scope idx type place = .ok clauses)
    (hacc : ∀ c ∈ clauses, c.Accepted) :
    (∀ c ∈ clauses, c.Holds db joined) ↔ place.Correlates outer type σ r.v := by
  by_cases hvar : ∃ x, place = .variable x
  · obtain ⟨x, rfl⟩ := hvar
    cases hbind
    rw [PatternValuePlace.Correlates]
    cases hcell : scope.cell x with
    | none =>
      rw [Option.toList_none, map_nil]
      exact iff_of_true (fun c hc => nomatch hc) fun hx => absurd hx (h.not_mem hcell)
    | some cell =>
      simp only [hcell, Option.toList_some, map_cons, map_nil,
        forall_mem_singleton] at hacc ⊢
      obtain ⟨s, hs⟩ := h.row x cell hcell
      have hv : cellValue joined (idx, .v) = r.v := cellValue_eq hr
      rw [imp_iff_right (h.mem hcell), h.value x cell hcell]
      by_cases hcol : cell.2 = .v
      · rw [if_pos hcol, sameValue_holds hr hs, hv, ← hcol, eq_comm]
      · rw [if_neg hcol] at hacc ⊢
        -- the comparison of an entity with a value, seen from the other side
        have hswap : (Clause.columns cell.1 cell.2 idx .vRef).Accepted :=
          ⟨hacc.2 ▸ hacc.1, hacc.2.symm⟩
        have hholds : (Clause.columns cell.1 cell.2 idx .vRef).Holds db joined ↔ _ :=
          columns_vRef_holds hs hr (h.column x cell hcell) hswap
        rw [← hv]
        exact sqlEq_comm.trans hholds
  · have hplace : ∀ x, place ≠ .variable x := fun x hx => hvar ⟨x, hx⟩
    have hreads : place.Correlates outer type σ r.v ↔ place.Reads type σ r.v := by
      cases place with
      | «variable» x => exact absurd rfl (hplace x)
      | _ => exact Iff.rfl
    have hconstant : (bindConstantValue idx type place).map Option.toList = .ok clauses := by
      cases place with
      | «variable» x => exact absurd rfl (hplace x)
      | _ => exact hbind
    obtain ⟨clause, hclause, rfl⟩ := map_eq_ok hconstant
    rw [hreads]
    rcases bindConstantValue_eq hplace hclause with ⟨rfl, rfl⟩ | ⟨v, rfl, hv⟩
    · exact iff_of_true (fun c hc => nomatch hc) trivial
    · rw [Option.toList_some, forall_mem_singleton, constant_holds hr, hv]

end Places

section Subquery

variable {db : Db} {temporal : TemporalOption} {scope : Scope} {width : Nat} {st st' : NotState}
  {outer : List String} {σ : Assignment} {ps : List Pattern}

theorem notPattern_ok {c : SchemaCache} {p : Pattern}
    (h : notPattern c temporal scope width st p = .ok st') :
    ∃ value, correlateValue scope (width + st.joins.length) (resolvePatternValueType c p.attr)
        p.value = .ok value ∧
      st'.joins = st.joins ++ [patternSource c temporal p.attr] ∧
      st'.clauses = st.clauses ++
        correlatePlace scope (width + st.joins.length) .e .idents p.entity ++
        correlatePlace scope (width + st.joins.length) .a .schema p.attr ++ value ++
        temporalClauses c temporal (width + st.joins.length) p.attr ∧
      st'.conditions = st.conditions := by
  obtain ⟨value, hvalue, h⟩ := bind_eq_ok h
  cases h
  exact ⟨value, hvalue, rfl, rfl, rfl⟩

theorem notPattern_holds {p : Pattern} {joined : List LogRow} {r : LogRow}
    (h : notPattern db.cache temporal scope width st p = .ok st')
    (hcarries : scope.Carries outer σ joined) (hr : joined[width + st.joins.length]? = some r)
    (hacc : ∀ c ∈ st'.clauses, c.Accepted) :
    (∀ c ∈ st'.clauses, c.Holds db joined) ↔ (∀ c ∈ st.clauses, c.Holds db joined) ∧
      p.Correlates db outer σ r ∧ temporal.Admits db p.attr r := by
  obtain ⟨value, hvalue, -, hclauses, -⟩ := notPattern_ok h
  rw [hclauses] at hacc ⊢
  simp only [forall_mem_append] at hacc ⊢
  obtain ⟨⟨⟨⟨-, haccE⟩, haccA⟩, haccV⟩, -⟩ := hacc
  rw [temporalClauses_hold hr, correlateValue_holds hcarries hr hvalue haccV,
    correlatePlace_holds hcarries hr (by decide) rfl rfl (fun _ => rfl) p.attr haccA,
    correlatePlace_holds hcarries hr (by decide) rfl rfl (fun _ => rfl) p.entity haccE,
    Pattern.Correlates]
  simp only [and_assoc]
  rfl

theorem notClauses_joins {c : SchemaCache}
    (h : (ps.map NotClause.pattern).foldlM (notClause c temporal scope width) st = .ok st') :
    st'.joins = st.joins ++ ps.map (fun p => patternSource c temporal p.attr) ∧
      st'.conditions = st.conditions ∧ ∀ k ∈ st.clauses, k ∈ st'.clauses := by
  induction ps generalizing st with
  | nil =>
    cases h
    exact ⟨(append_nil _).symm, rfl, fun k hk => hk⟩
  | cons p ps ih =>
    rw [map_cons, foldlM_cons] at h
    obtain ⟨st1, hp, h⟩ := bind_eq_ok h
    obtain ⟨value, -, hjoins, hclauses, hconditions⟩ := notPattern_ok hp
    obtain ⟨ihjoins, ihconditions, ihclauses⟩ := ih h
    refine ⟨?_, ihconditions.trans hconditions, fun k hk => ihclauses k ?_⟩
    · rw [ihjoins, hjoins, append_assoc]
      rfl
    · rw [hclauses]
      simp [hk]

theorem notClauses_hold {rows earlier inner : List LogRow}
    (h : (ps.map NotClause.pattern).foldlM (notClause db.cache temporal scope rows.length) st =
      .ok st')
    (hcarries : scope.Carries outer σ rows) (hearlier : earlier.length = st.joins.length)
    (hlength : inner.length = ps.length) (hacc : ∀ c ∈ st'.clauses, c.Accepted) :
    (∀ c ∈ st'.clauses, c.Holds db (rows ++ (earlier ++ inner))) ↔
      (∀ c ∈ st.clauses, c.Holds db (rows ++ (earlier ++ inner))) ∧
        Forall₂ (fun p r => p.Correlates db outer σ r ∧ temporal.Admits db p.attr r)
          ps inner := by
  induction ps generalizing st earlier inner with
  | nil =>
    cases h
    rw [length_eq_zero_iff.mp hlength]
    exact (and_iff_left .nil).symm
  | cons p ps ih =>
    obtain ⟨r, inner, rfl⟩ := exists_cons_of_length_eq_add_one hlength
    rw [map_cons, foldlM_cons] at h
    obtain ⟨st1, hp, h⟩ := bind_eq_ok h
    obtain ⟨value, -, hjoins, -, -⟩ := notPattern_ok hp
    have hr : (rows ++ (earlier ++ r :: inner))[rows.length + st.joins.length]? = some r := by
      rw [← hearlier]
      simp
    have hacc1 : ∀ c ∈ st1.clauses, c.Accepted :=
      fun c hc => hacc c ((notClauses_joins h).2.2 c hc)
    have hearlier1 : (earlier ++ [r]).length = st1.joins.length := by
      rw [hjoins, length_append, length_append, hearlier]
      rfl
    have hrest := ih h hearlier1 (Nat.succ.inj hlength)
    rw [append_assoc, singleton_append] at hrest
    rw [hrest, notPattern_holds hp (hcarries.append _) hr hacc1, List.forall₂_cons, and_assoc]

theorem notExists_holds_iff {n : NotExists} {rows : List LogRow} (ops : SqlOperators)
    (hbuild : buildNotExistsSubquery db.cache temporal scope rows.length
      ⟨ps.map NotClause.pattern⟩ = .ok n)
    (hacc : n.Accepted) (hcarries : scope.Carries outer σ rows) :
    n.Holds ops db rows ↔
      ¬ ∀ p ∈ ps, ∃ r, p.Sees db temporal r ∧ p.Correlates db outer σ r := by
  unfold buildNotExistsSubquery at hbuild
  split at hbuild
  · cases hbuild
  obtain ⟨st, hfold, hbuild⟩ := bind_eq_ok hbuild
  split at hbuild
  · cases hbuild
  cases hbuild
  obtain ⟨hjoins, hconditions, -⟩ := notClauses_joins hfold
  have hclauses (inner : List LogRow) (hlength : inner.length = ps.length) :
      (∀ c ∈ st.clauses, c.Holds db (rows ++ inner)) ↔
        Forall₂ (fun p r => p.Correlates db outer σ r ∧ temporal.Admits db p.attr r)
          ps inner := by
    have hhold : (∀ c ∈ st.clauses, c.Holds db (rows ++ ([] ++ inner))) ↔ _ :=
      notClauses_hold hfold hcarries rfl hlength hacc.2.1
    rw [nil_append] at hhold
    rw [hhold, and_iff_right fun c hc => nomatch hc]
  have hmem (inner : List LogRow) :
      inner ∈ NotExists.joined ⟨st.joins, st.clauses, st.conditions⟩ ops db rows ↔
        Forall₂ (fun p r => p.Sees db temporal r ∧ p.Correlates db outer σ r) ps inner := by
    simp only [NotExists.joined, mem_filter, decide_eq_true_eq, mem_sections_patterns hjoins,
      hconditions, not_mem_nil, false_imp_iff, implies_true, and_true]
    constructor
    · rintro ⟨hsees, hhold⟩
      have hreads := (hclauses inner hsees.length_eq.symm).mp hhold
      exact List.Forall₂.mp (fun p r hsource h => ⟨⟨hsource, h.2⟩, h.1⟩) hsees hreads
    · intro hreads
      refine ⟨hreads.imp fun p r h => h.1.1, (hclauses inner hreads.length_eq.symm).mpr ?_⟩
      exact hreads.imp fun p r h => ⟨h.2, h.1.2⟩
  rw [← exists_forall₂_iff, NotExists.Holds, eq_nil_iff_forall_not_mem, not_exists]
  exact forall_congr' fun inner => not_congr (hmem inner)

end Subquery

end PgMentat

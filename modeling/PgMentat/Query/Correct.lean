import PgMentat.Query.Semantics

namespace PgMentat

open List Unification

/-- The value a variable has in a row, by the column it is bound to. -/
def LogRow.cell (r : LogRow) : Column → TypedValue
  | .e => .ref r.e
  | .a => .ref r.a
  | .tx => .ref r.tx
  | .added => .boolean r.added
  | _ => r.v

def cellValue (joined : List LogRow) (cell : Cell) : TypedValue :=
  (joined[cell.1]?.map fun r => r.cell cell.2).getD default

def boundColumns : List Column := [.e, .a, .v, .tx, .added]

section Clauses

variable {db : Db} {joined : List LogRow} {i j : Nat} {r s : LogRow} {c : Column}

theorem columnAt_eq (hr : joined[i]? = some r) : columnAt joined i c = r.column c := by
  rw [columnAt, hr, Option.bind_some]

theorem cellValue_eq (hr : joined[i]? = some r) : cellValue joined (i, c) = r.cell c := by
  simp only [cellValue, hr, Option.map_some, Option.getD_some]

theorem TypedValue.column_inj {v w : TypedValue} (h : v.column = w.column) : v = w := by
  cases v <;> cases w <;> simp_all [TypedValue.column]

theorem TypedValue.column_mem (v : TypedValue) : v.column.1 ∈ Column.typed := by
  cases v <;> simp [TypedValue.column, Column.typed]

variable {x : Scalar}

theorem column_typed (hc : c ∈ Column.typed) : r.column c = some x ↔ r.v.column = (c, x) := by
  have hcolumn : r.column c = if r.v.column.1 = c then some r.v.column.2 else none := by
    simp only [Column.typed, mem_cons, not_mem_nil, or_false] at hc
    rcases hc with rfl | rfl | rfl | rfl | rfl | rfl | rfl | rfl | rfl <;> rfl
  rw [hcolumn, Prod.ext_iff]
  split <;> simp_all

theorem column_vRef {n : Int64} : r.column .vRef = some (.bigint n) ↔ r.v = .ref n := by
  rw [column_typed (by decide)]
  exact ⟨fun h => TypedValue.column_inj h, fun h => by rw [h]; rfl⟩

theorem sqlEq_some {x : Option Scalar} {y : Scalar} : sqlEq x (some y) ↔ x = some y := by
  constructor
  · exact fun h => h.2
  · rintro rfl
    exact ⟨rfl, rfl⟩

theorem sqlEq_comm {x y : Option Scalar} : sqlEq x y ↔ sqlEq y x := by
  constructor <;> rintro ⟨hsome, rfl⟩ <;> exact ⟨hsome, rfl⟩

section

variable (hr : joined[i]? = some r)

include hr

theorem columns_holds (hs : joined[j]? = some s) {c c' : Column} (hc : c ∈ boundColumns)
    (hc' : c' ∈ boundColumns) (hacc : (Clause.columns i c j c').Accepted) :
    (Clause.columns i c j c').Holds db joined ↔
      cellValue joined (i, c) = cellValue joined (j, c') := by
  simp only [Clause.Holds, columnAt_eq hr, columnAt_eq hs, cellValue_eq hr, cellValue_eq hs]
  simp only [boundColumns, mem_cons, not_mem_nil, or_false] at hc hc'
  rcases hc with rfl | rfl | rfl | rfl | rfl <;> rcases hc' with rfl | rfl | rfl | rfl | rfl <;>
    simp [Clause.Accepted, Column.type, LogRow.column, LogRow.cell, sqlEq] at hacc ⊢

theorem columns_vRef_holds (hs : joined[j]? = some s) {c : Column} (hc : c ∈ boundColumns)
    (hacc : (Clause.columns i c j .vRef).Accepted) :
    (Clause.columns i c j .vRef).Holds db joined ↔
      cellValue joined (i, c) = cellValue joined (j, .v) := by
  simp only [Clause.Holds, columnAt_eq hr, columnAt_eq hs, cellValue_eq hr, cellValue_eq hs]
  simp only [boundColumns, mem_cons, not_mem_nil, or_false] at hc
  rw [sqlEq_comm]
  rcases hc with rfl | rfl | rfl | rfl | rfl <;>
    simp [Clause.Accepted, Column.type, LogRow.cell] at hacc ⊢ <;>
    simp only [LogRow.column.eq_1, LogRow.column.eq_2, LogRow.column.eq_3, sqlEq_some,
      column_vRef, eq_comm]

theorem sameValue_holds (hs : joined[j]? = some s) :
    (Clause.sameValue i j).Holds db joined ↔
      cellValue joined (i, .v) = cellValue joined (j, .v) := by
  simp only [Clause.Holds, columnAt_eq hr, columnAt_eq hs, cellValue_eq hr, cellValue_eq hs]
  show _ ↔ r.v = s.v
  constructor
  · rintro ⟨-, htyped⟩
    have hmem := r.v.column_mem
    have hr : r.column r.v.column.1 = some r.v.column.2 := (column_typed hmem).mpr rfl
    rw [htyped _ hmem, column_typed hmem] at hr
    exact (TypedValue.column_inj hr).symm
  · intro hv
    simp only [LogRow.column, hv]
    refine ⟨⟨rfl, rfl⟩, fun c hc => ?_⟩
    simp only [Column.typed, mem_cons, not_mem_nil, or_false] at hc
    rcases hc with rfl | rfl | rfl | rfl | rfl | rfl | rfl | rfl | rfl <;> rfl

theorem constant_holds (v : TypedValue) :
    (Clause.constant i v.column.1 v.column.2 v.typeTag).Holds db joined ↔ r.v = v := by
  have hmem := v.column_mem
  simp only [Clause.Holds, columnAt_eq hr, sqlEq_some, column_typed hmem]
  constructor
  · exact fun h => TypedValue.column_inj h.1
  · rintro rfl
    exact ⟨rfl, rfl⟩

theorem param_holds : (Clause.param i c x).Holds db joined ↔ r.column c = some x := by
  simp only [Clause.Holds, columnAt_eq hr, sqlEq_some]

theorem entid_holds {table : IdentTable} {ident : String} {id : Int64}
    (hid : r.column c = some (.bigint id)) :
    (Clause.entid i c table ident).Holds db joined ↔ table.entid db ident = some id := by
  simp only [Clause.Holds, columnAt_eq hr, hid]
  cases table.entid db ident <;> simp [sqlEq, eq_comm]

end

end Clauses

/-- The bindings after some places: the clauses say what the places say, on every joined row. -/
structure Compiled (db : Db) (joined : List LogRow) (b : PatternBindings)
    (P : Assignment → Prop) : Prop where
  represents : Represents (Clause.Holds db joined) (cellValue joined) b P
  bound : ∀ x cell, b.cell x = some cell → cell.2 ∈ boundColumns
  row : ∀ x cell, b.cell x = some cell → ∃ r, joined[cell.1]? = some r

def PatternBindings.Accepted (b : PatternBindings) : Prop := ∀ c ∈ b.clauses, c.Accepted

section Places

variable {db : Db} {joined : List LogRow} {b : PatternBindings} {P : Assignment → Prop}
  {idx : Nat} {r : LogRow}

theorem compiled_empty : Compiled db joined {} fun _ => True :=
  ⟨represents_empty, (fun _ _ h => nomatch h), (fun _ _ h => nomatch h)⟩

theorem Compiled.push (h : Compiled db joined b P) (c : Clause) :
    Compiled db joined (b.push c) fun σ => P σ ∧ c.Holds db joined :=
  ⟨h.represents.push c, h.bound, h.row⟩

theorem Compiled.congr {Q : Assignment → Prop} (h : Compiled db joined b P)
    (hPQ : ∀ σ, P σ ↔ Q σ) : Compiled db joined b Q :=
  ⟨h.represents.congr hPQ, h.bound, h.row⟩

theorem Compiled.bindVar (h : Compiled db joined b P) (hr : joined[idx]? = some r) {x : String}
    {col : Column} (hcol : col ∈ boundColumns) {clause : Cell → Clause}
    (hacc : PatternBindings.Accepted (b.bindVar x (idx, col) clause))
    (hclause : ∀ j s c', joined[j]? = some s → c' ∈ boundColumns → (clause (j, c')).Accepted →
      ((clause (j, c')).Holds db joined ↔ cellValue joined (idx, col) = cellValue joined (j, c'))) :
    Compiled db joined (b.bindVar x (idx, col) clause) fun σ => P σ ∧ σ x = r.cell col := by
  have hval : cellValue joined (idx, col) = r.cell col := cellValue_eq hr
  refine ⟨?_, fun y cell hy => ?_, fun y cell hy => ?_⟩
  · rw [← hval]
    refine h.represents.bindVar fun first hfirst => ?_
    obtain ⟨s, hs⟩ := h.row x first hfirst
    refine hclause first.1 s first.2 hs (h.bound x first hfirst) (hacc _ ?_)
    unfold Bindings.bindVar
    rw [hfirst]
    exact Bindings.mem_push.mpr (.inr rfl)
  · rcases Bindings.cell_bindVar_eq_some hy with hy | ⟨-, rfl⟩
    · exact h.bound y cell hy
    · exact hcol
  · rcases Bindings.cell_bindVar_eq_some hy with hy | ⟨-, rfl⟩
    · exact h.row y cell hy
    · exact ⟨r, hr⟩

theorem bindEntity_compiled (h : Compiled db joined b P) (hr : joined[idx]? = some r)
    (place : PatternNonValuePlace)
    (hacc : PatternBindings.Accepted (bindEntity idx b place)) :
    Compiled db joined (bindEntity idx b place) fun σ => P σ ∧ place.Denotes db.named σ r.e := by
  cases place with
  | placeholder => exact h.congr fun σ => (and_iff_left trivial).symm
  | «variable» x =>
    refine h.bindVar hr (by decide) hacc fun j s c' hs hc' hclause => ?_
    dsimp only at hclause ⊢
    split at hclause
    · rename_i hv
      rw [if_pos hv, hv]
      exact columns_vRef_holds hr hs (by decide) hclause
    · rename_i hv
      rw [if_neg hv]
      exact columns_holds hr hs (by decide) hc' hclause
  | entid id =>
    refine (h.push _).congr fun σ => and_congr_right fun _ => ?_
    rw [param_holds hr]
    simp [LogRow.column, PatternNonValuePlace.Denotes, eq_comm]
  | ident k =>
    refine (h.push _).congr fun σ => and_congr_right fun _ => ?_
    exact entid_holds hr rfl

variable {b' : PatternBindings}

theorem bindAttribute_compiled (h : Compiled db joined b P) (hr : joined[idx]? = some r)
    {place : PatternNonValuePlace} (hbind : bindAttribute db.cache idx b place = .ok b')
    (hacc : b'.Accepted) :
    Compiled db joined b' fun σ => P σ ∧ place.Denotes db.attributeNamed σ r.a := by
  cases place with
  | placeholder =>
    cases hbind
    exact h.congr fun σ => (and_iff_left trivial).symm
  | «variable» x =>
    cases hbind
    exact h.bindVar hr (by decide) hacc fun j s c' hs hc' hclause =>
      columns_holds hr hs (by decide) hc' hclause
  | entid id =>
    cases hbind
    refine (h.push _).congr fun σ => and_congr_right fun _ => ?_
    rw [param_holds hr]
    simp [LogRow.column, PatternNonValuePlace.Denotes, eq_comm]
  | ident k =>
    rw [bindAttribute] at hbind
    split at hbind
    · cases hbind
    · cases hbind
      exact (h.push _).congr fun σ => and_congr_right fun _ => entid_holds hr rfl

variable {type : Option ValueType} {place : PatternValuePlace}

theorem bindConstantValue_eq {clause : Option Clause} (hplace : ∀ x, place ≠ .variable x)
    (hbind : bindConstantValue idx type place = .ok clause) :
    (place = .placeholder ∧ clause = none) ∨
      ∃ v : TypedValue, clause = some (.constant idx v.column.1 v.column.2 v.typeTag) ∧
        ∀ σ w, place.Reads type σ w ↔ w = v := by
  cases place with
  | placeholder =>
    cases hbind
    exact .inl ⟨rfl, rfl⟩
  | «variable» x => exact absurd rfl (hplace x)
  | entidOrInteger i =>
    rw [bindConstantValue] at hbind
    split at hbind <;> rename_i htype <;> cases hbind
    · exact .inr ⟨.ref i, rfl, fun σ w => by rw [PatternValuePlace.Reads, if_pos htype]⟩
    · exact .inr ⟨.long i, rfl, fun σ w => by rw [PatternValuePlace.Reads, if_neg htype]⟩
  | identOrKeyword k =>
    cases hbind
    exact .inr ⟨.keyword k.stored, rfl, fun σ w => Iff.rfl⟩
  | constant c =>
    have hreads {v : TypedValue} (hv : c.typed = some v) :
        ∀ σ w, (PatternValuePlace.constant c).Reads type σ w ↔ w = v := by
      intro σ w
      rw [PatternValuePlace.Reads, hv, Option.some_inj, eq_comm]
    cases c with
    | bigInteger n => cases hbind
    | boolean x => cases hbind; exact .inr ⟨.boolean x, rfl, hreads rfl⟩
    | float f => cases hbind; exact .inr ⟨.double f, rfl, hreads rfl⟩
    | text t => cases hbind; exact .inr ⟨.text t, rfl, hreads rfl⟩
    | instant micros => cases hbind; exact .inr ⟨.instant micros, rfl, hreads rfl⟩
    | uuid u => cases hbind; exact .inr ⟨.uuid u, rfl, hreads rfl⟩

theorem bindValue_compiled (h : Compiled db joined b P) (hr : joined[idx]? = some r)
    (hbind : bindValue idx type b place = .ok b') (hacc : b'.Accepted) :
    Compiled db joined b' fun σ => P σ ∧ place.Reads type σ r.v := by
  unfold bindValue at hbind
  split at hbind
  · rename_i x
    cases hbind
    refine h.bindVar hr (by decide) hacc fun j s c' hs hc' hclause => ?_
    dsimp only at hclause ⊢
    split at hclause
    · rename_i hv
      rw [if_pos hv, hv]
      exact sameValue_holds hr hs
    · rename_i hv
      rw [if_neg hv]
      -- the comparison is the one for an entity, seen from the other side
      have hswap : (Clause.columns j c' idx .vRef).Accepted :=
        ⟨hclause.2 ▸ hclause.1, hclause.2.symm⟩
      have hholds : (Clause.columns j c' idx .vRef).Holds db joined ↔ _ :=
        columns_vRef_holds hs hr hc' hswap
      exact sqlEq_comm.trans (hholds.trans eq_comm)
  · rename_i hvar
    obtain ⟨clause, hconst, hbind⟩ := bind_eq_ok hbind
    rcases bindConstantValue_eq hvar hconst with ⟨rfl, rfl⟩ | ⟨v, rfl, hreads⟩
    · cases hbind
      exact h.congr fun σ => (and_iff_left trivial).symm
    · cases hbind
      refine (h.push _).congr fun σ => and_congr_right fun _ => ?_
      rw [hreads, constant_holds hr]

theorem bindTx_compiled (h : Compiled db joined b P) (hr : joined[idx]? = some r)
    (place : PatternNonValuePlace) (hacc : PatternBindings.Accepted (bindTx idx b place)) :
    Compiled db joined (bindTx idx b place) fun σ => P σ ∧ place.ReadsTx σ r.tx := by
  cases place with
  | placeholder | ident k => exact h.congr fun σ => (and_iff_left trivial).symm
  | «variable» x =>
    exact h.bindVar hr (by decide) hacc fun j s c' hs hc' hclause =>
      columns_holds hr hs (by decide) hc' hclause
  | entid id =>
    refine (h.push _).congr fun σ => and_congr_right fun _ => ?_
    rw [param_holds hr]
    simp [LogRow.column, PatternNonValuePlace.ReadsTx, eq_comm]

theorem bindAdded_compiled (h : Compiled db joined b P) (hr : joined[idx]? = some r)
    (place : PatternNonValuePlace) (hacc : PatternBindings.Accepted (bindAdded idx b place)) :
    Compiled db joined (bindAdded idx b place) fun σ => P σ ∧ place.ReadsAdded σ r.added := by
  cases place with
  | «variable» x =>
    exact h.bindVar hr (by decide) hacc fun j s c' hs hc' hclause =>
      columns_holds hr hs (by decide) hc' hclause
  | _ => exact h.congr fun σ => (and_iff_left trivial).symm

theorem foldl_push_compiled (h : Compiled db joined b P) (clauses : List Clause) :
    Compiled db joined (clauses.foldl Bindings.push b) fun σ =>
      P σ ∧ ∀ c ∈ clauses, c.Holds db joined := by
  induction clauses generalizing b P with
  | nil => exact h.congr fun σ => by simp
  | cons c clauses ih => exact (ih (h.push c)).congr fun σ => by simp [and_assoc]

theorem temporalClauses_hold (hr : joined[idx]? = some r) {temporal : TemporalOption}
    {attr : PatternNonValuePlace} :
    (∀ c ∈ temporalClauses db.cache temporal idx attr, c.Holds db joined) ↔
      temporal.Admits db attr r := by
  have hadded : (∀ c ∈ (if temporal.history then [] else [Clause.param idx .added (.boolean true)]),
      c.Holds db joined) ↔ (temporal.history = false → r.added = true) := by
    cases temporal.history
    · simp [param_holds hr, LogRow.column]
    · simp
  unfold temporalClauses TemporalOption.Admits
  simp only [forall_mem_append, hadded, and_assoc]
  refine and_congr_right fun _ => and_congr ?_ ?_
  · cases temporal.asOf with
    | none => simp
    | some tx =>
      cases isCardinalityMany db.cache attr <;> simp [Clause.Holds, hr]
  · cases temporal.since with
    | none => simp
    | some tx => simp [Clause.Holds, hr]

end Places

/-- Newer rows are looked for up to `t`. -/
def Clause.Until (t : Int64) : Clause → Prop
  | notSuperseded _ _ tx => tx = t
  | _ => True

/-- Nothing, a clause that is not about time, or a variable with its own cell. -/
inductive Bound (cell : Cell) (b : PatternBindings) : List String → PatternBindings → Prop
  | skip : Bound cell b [] b
  | push {k : Clause} (hk : ∀ t, k.Until t) : Bound cell b [] (b.push k)
  | bindVar {x : String} {clause : Cell → Clause} (hclause : ∀ t first, (clause first).Until t) :
    Bound cell b [x] (b.bindVar x cell clause)

section Bound

variable {c : SchemaCache} {idx : Nat} {b b' : PatternBindings}

theorem bindEntity_bound (place : PatternNonValuePlace) :
    Bound (idx, .e) b place.var (bindEntity idx b place) := by
  cases place with
  | placeholder => exact .skip
  | «variable» x =>
    refine .bindVar fun t first => ?_
    split <;> trivial
  | _ => exact .push fun _ => trivial

theorem bindAttribute_bound {place : PatternNonValuePlace}
    (h : bindAttribute c idx b place = .ok b') : Bound (idx, .a) b place.var b' := by
  unfold bindAttribute at h
  split at h
  · split at h <;> cases h
    exact .push fun _ => trivial
  · cases h
    exact .push fun _ => trivial
  · cases h
    exact .bindVar fun _ _ => trivial
  · cases h
    exact .skip

theorem bindValue_bound {type : Option ValueType} {place : PatternValuePlace}
    (h : bindValue idx type b place = .ok b') : Bound (idx, .v) b place.var b' := by
  unfold bindValue at h
  split at h
  · cases h
    refine .bindVar fun t first => ?_
    split <;> trivial
  · rename_i hplace
    obtain ⟨clause, hclause, h⟩ := bind_eq_ok h
    have hvar : place.var = [] := by
      cases place with
      | «variable» x => exact absurd rfl (hplace x)
      | _ => rfl
    rw [hvar]
    rcases bindConstantValue_eq hplace hclause with ⟨-, rfl⟩ | ⟨v, rfl, -⟩
    · cases h
      exact .skip
    · cases h
      exact .push fun _ => trivial

theorem bindTx_bound (place : PatternNonValuePlace) :
    Bound (idx, .tx) b place.var (bindTx idx b place) := by
  cases place with
  | «variable» x => exact .bindVar fun _ _ => trivial
  | entid id => exact .push fun _ => trivial
  | _ => exact .skip

theorem bindAdded_bound (place : PatternNonValuePlace) :
    Bound (idx, .added) b place.var (bindAdded idx b place) := by
  cases place with
  | «variable» x => exact .bindVar fun _ _ => trivial
  | _ => exact .skip

namespace Bound

variable {cell cell' : Cell} {vars : List String} {x : String} (h : Bound cell b vars b')

include h

theorem subset : b.clauses ⊆ b'.clauses := by
  intro k hk
  cases h with
  | skip => exact hk
  | push => exact Bindings.mem_push.mpr (.inl hk)
  | bindVar => exact Bindings.mem_bindVar hk

theorem «until» {t : Int64} (hb : ∀ k ∈ b.clauses, k.Until t) : ∀ k ∈ b'.clauses, k.Until t := by
  cases h with
  | skip => exact hb
  | push hk => exact Bindings.forall_push hb (hk t)
  | bindVar hclause => exact Bindings.forall_bindVar hb (hclause t)

theorem cell_ne_none : b'.cell x ≠ none ↔ b.cell x ≠ none ∨ x ∈ vars := by
  cases h with
  | skip | push => simp
  | bindVar => exact Bindings.cell_bindVar_ne_none.trans (or_congr_right mem_singleton.symm)

theorem cell_eq_some (hx : b'.cell x = some cell') :
    b.cell x = some cell' ∨ x ∈ vars ∧ cell' = cell := by
  cases h with
  | skip | push => exact .inl hx
  | bindVar =>
    rw [mem_singleton]
    exact Bindings.cell_bindVar_eq_some hx

end Bound

end Bound

theorem foldl_push_subset {b : PatternBindings} {clauses : List Clause} :
    b.clauses ⊆ (clauses.foldl Bindings.push b).clauses :=
  fun _ hc => Bindings.mem_foldl_push.mpr (.inl hc)

section Patterns

variable {db : Db} {temporal : TemporalOption} {st st' : QueryState}

variable {c : SchemaCache} {p : Pattern} {idx : Nat} {P : Assignment → Prop} {ps : List Pattern}

theorem compilePattern_ok (h : compilePattern c temporal st (p, idx) = .ok st') :
    ∃ b b', bindAttribute c idx (bindEntity idx st.bindings p.entity) p.attr = .ok b ∧
      bindValue idx (resolvePatternValueType c p.attr) b p.value = .ok b' ∧
      st' = {
        bindings := bindAdded idx ((temporalClauses c temporal idx p.attr).foldl Bindings.push
          (bindTx idx b' p.tx)) p.added
        joins := st.joins ++ [patternSource c temporal p.attr] } := by
  obtain ⟨b, hattr, h⟩ := bind_eq_ok h
  obtain ⟨b', hvalue, h⟩ := bind_eq_ok h
  cases h
  exact ⟨b, b', hattr, hvalue, rfl⟩

theorem compilePattern_subset {p : Pattern × Nat} (h : compilePattern c temporal st p = .ok st') :
    st.bindings.clauses ⊆ st'.bindings.clauses := by
  obtain ⟨b, b', hattr, hvalue, rfl⟩ := compilePattern_ok h
  intro k hk
  refine (bindAdded_bound p.1.added).subset (foldl_push_subset ((bindTx_bound p.1.tx).subset ?_))
  exact (bindValue_bound hvalue).subset ((bindAttribute_bound hattr).subset
    ((bindEntity_bound p.1.entity).subset hk))

theorem compilePattern_compiled {joined : List LogRow} {r : LogRow}
    (h : Compiled db joined st.bindings P) (hr : joined[idx]? = some r)
    (hcompile : compilePattern db.cache temporal st (p, idx) = .ok st')
    (hacc : st'.bindings.Accepted) :
    Compiled db joined st'.bindings fun σ =>
      P σ ∧ p.Reads db σ r ∧ temporal.Admits db p.attr r := by
  obtain ⟨b, b', hattr, hvalue, rfl⟩ := compilePattern_ok hcompile
  have hacc5 := fun k hk => hacc k ((bindAdded_bound p.added).subset hk)
  have hacc4 := fun k hk => hacc5 k (foldl_push_subset hk)
  have hacc3 := fun k hk => hacc4 k ((bindTx_bound p.tx).subset hk)
  have hacc2 := fun k hk => hacc3 k ((bindValue_bound hvalue).subset hk)
  have hacc1 := fun k hk => hacc2 k ((bindAttribute_bound hattr).subset hk)
  have h1 := bindEntity_compiled h hr p.entity hacc1
  have h2 := bindAttribute_compiled h1 hr hattr hacc2
  have h3 := bindValue_compiled h2 hr hvalue hacc3
  have h4 := bindTx_compiled h3 hr p.tx hacc4
  have h5 := foldl_push_compiled h4 (temporalClauses db.cache temporal idx p.attr)
  refine (bindAdded_compiled h5 hr p.added hacc).congr fun σ => ?_
  rw [temporalClauses_hold hr, Pattern.Reads]
  tauto

theorem compilePatterns_subset {ps : List (Pattern × Nat)}
    (h : ps.foldlM (compilePattern c temporal) st = .ok st') :
    st.bindings.clauses ⊆ st'.bindings.clauses := by
  induction ps generalizing st with
  | nil => cases h; exact fun k hk => hk
  | cons p ps ih =>
    rw [foldlM_cons] at h
    obtain ⟨st1, hp, h⟩ := bind_eq_ok h
    exact fun k hk => ih h (compilePattern_subset hp hk)

theorem compilePatterns_compiled {joined rows : List LogRow} {k : Nat}
    (h : Compiled db joined st.bindings P) (hrows : joined.drop k = rows)
    (hlength : rows.length = ps.length)
    (hcompile : (ps.zipIdx k).foldlM (compilePattern db.cache temporal) st = .ok st')
    (hacc : st'.bindings.Accepted) :
    Compiled db joined st'.bindings fun σ => P σ ∧
      Forall₂ (fun p r => p.Reads db σ r ∧ temporal.Admits db p.attr r) ps rows := by
  induction ps generalizing st P k rows with
  | nil =>
    cases hcompile
    refine h.congr fun σ => (and_iff_left ?_).symm
    rw [length_eq_zero_iff.mp hlength]
    exact .nil
  | cons p ps ih =>
    obtain ⟨r, rows, rfl⟩ := exists_cons_of_length_eq_add_one hlength
    rw [zipIdx_cons, foldlM_cons] at hcompile
    obtain ⟨st1, hp, hcompile⟩ := bind_eq_ok hcompile
    have hr : joined[k]? = some r := by
      have hhead := congrArg (·[0]?) hrows
      simpa using hhead
    have hrest : joined.drop (k + 1) = rows := by
      rw [← drop_drop, hrows]
      rfl
    have hacc1 : st1.bindings.Accepted := fun c hc => hacc c (compilePatterns_subset hcompile hc)
    have h1 := compilePattern_compiled h hr hp hacc1
    refine (ih h1 hrest (Nat.succ.inj hlength) hcompile).congr fun σ => ?_
    rw [List.forall₂_cons, and_assoc]

theorem compilePatterns_joins {k : Nat}
    (h : (ps.zipIdx k).foldlM (compilePattern c temporal) st = .ok st') :
    st'.joins = st.joins ++ ps.map fun p => patternSource c temporal p.attr := by
  induction ps generalizing st k with
  | nil => cases h; exact (append_nil _).symm
  | cons p ps ih =>
    rw [zipIdx_cons, foldlM_cons] at h
    obtain ⟨st1, hp, h⟩ := bind_eq_ok h
    obtain ⟨_, _, _, _, rfl⟩ := compilePattern_ok hp
    rw [ih h, map_cons, append_assoc]
    rfl

end Patterns

section Result

variable {fmt : FloatFormat} {db : Db} {temporal : TemporalOption} {q : Query} {s : Select}

def Cell.output (cell : Cell) : Output :=
  if cell.2 = .v then .valueDecode cell.1 else .column cell.1 cell.2

variable {b : PatternBindings} {x : String} {xs : List String} {outputs : List Output}
  {ps : List Pattern} {st : QueryState} {σ : Assignment}

theorem findOutput_ok {output : Output} (h : findOutput b x = .ok output) :
    ∃ cell, b.cell x = some cell ∧ output = cell.output := by
  unfold findOutput at h
  split at h
  · rename_i idx hcell
    cases h
    exact ⟨(idx, .v), hcell, rfl⟩
  · rename_i idx col hv hcell
    cases h
    refine ⟨(idx, col), hcell, ?_⟩
    rw [Cell.output, if_neg hv]
  · cases h

theorem findOutputs_ok (h : xs.mapM (findOutput b) = .ok outputs) :
    ∃ cells, Forall₂ (fun x cell => b.cell x = some cell) xs cells ∧
      outputs = cells.map Cell.output := by
  have houtputs := forall₂_of_mapM_ok h
  clear h
  induction houtputs with
  | nil => exact ⟨[], .nil, rfl⟩
  | cons hx _ ih =>
    obtain ⟨cell, hcell, rfl⟩ := findOutput_ok hx
    obtain ⟨cells, hcells, rfl⟩ := ih
    exact ⟨cell :: cells, .cons hcell hcells, rfl⟩

theorem build_ok {c : SchemaCache} (h : buildExtendedPatternQuery c temporal q = .ok s) :
    ∃ st cells, q.patterns.zipIdx.foldlM (compilePattern c temporal) {} = .ok st ∧
      Forall₂ (fun x cell => st.bindings.cell x = some cell) q.find cells ∧
      s = ⟨cells.map Cell.output, st.joins, st.bindings.clauses⟩ := by
  obtain ⟨st, hfold, h⟩ := bind_eq_ok h
  obtain ⟨outputs, houtputs, h⟩ := bind_eq_ok h
  obtain ⟨cells, hcells, rfl⟩ := findOutputs_ok houtputs
  refine ⟨st, cells, hfold, hcells, ?_⟩
  split at h
  · cases h
  · split at h
    · cases h
    · cases h; rfl

theorem output_text {joined : List LogRow} {cell : Cell} {r : LogRow}
    (hr : joined[cell.1]? = some r) (hbound : cell.2 ∈ boundColumns) :
    (Cell.output cell).text fmt joined = some (valueDecodeExpr fmt (cellValue joined cell)) := by
  obtain ⟨idx, col⟩ := cell
  rw [cellValue_eq hr]
  simp only [boundColumns, mem_cons, not_mem_nil, or_false] at hbound
  rcases hbound with rfl | rfl | rfl | rfl | rfl <;>
    simp [Cell.output, Output.text, hr, LogRow.columnText, LogRow.cell, valueDecodeExpr]

theorem mem_sections_patterns {ps : List Pattern} {joins : List Source}
    (hjoins : joins = ps.map fun p => patternSource db.cache temporal p.attr)
    {joined : List LogRow} : joined ∈ (joins.map (Source.rows db)).sections ↔
      Forall₂ (fun p r => r ∈ (patternSource db.cache temporal p.attr).rows db)
        ps joined := by
  rw [mem_sections, hjoins, map_map, List.forall₂_map_right_iff]
  exact ⟨fun h => h.flip, fun h => h.flip⟩

section

variable (hfold : ps.zipIdx.foldlM (compilePattern db.cache temporal) {} = .ok st)

include hfold

/-- In a joined row every pattern reads a row that its subquery and the temporal options let
through. -/
theorem mem_joined_iff {joined : List LogRow} (hacc : st.bindings.Accepted) :
    joined ∈ (Select.mk outputs st.joins st.bindings.clauses).joined db ↔
      ∃ σ, Forall₂ (fun p r => p.Sees db temporal r ∧ p.Reads db σ r) ps joined := by
  rw [Select.joined, mem_filter, mem_sections_patterns (compilePatterns_joins hfold),
    decide_eq_true_eq]
  constructor
  · rintro ⟨hsources, hclauses⟩
    have hcompiled := compilePatterns_compiled compiled_empty drop_zero
      hsources.length_eq.symm hfold hacc
    obtain ⟨σ, ⟨-, hreads⟩, -⟩ := (hcompiled.represents.exists_map_iff .nil).mpr ⟨hclauses, rfl⟩
    exact ⟨σ, List.Forall₂.mp (fun p r hsource h => ⟨⟨hsource, h.2⟩, h.1⟩) hsources hreads⟩
  · rintro ⟨σ, hrows⟩
    have hcompiled := compilePatterns_compiled compiled_empty drop_zero
      hrows.length_eq.symm hfold hacc
    have hreads := hrows.imp fun p r h => And.intro h.2 h.1.2
    exact ⟨hrows.imp fun p r h => h.1.1, ((hcompiled.represents σ).mp ⟨trivial, hreads⟩).1⟩

theorem output_text_of_reads {joined : List LogRow} {cell : Cell} (hacc : st.bindings.Accepted)
    (hrows : Forall₂ (fun p r => p.Sees db temporal r ∧ p.Reads db σ r) ps joined)
    (hcell : st.bindings.cell x = some cell) :
    cell.output.text fmt joined = some (valueDecodeExpr fmt (σ x)) := by
  have hcompiled := compilePatterns_compiled compiled_empty drop_zero
    hrows.length_eq.symm hfold hacc
  have hreads := hrows.imp fun p r h => And.intro h.2 h.1.2
  obtain ⟨r, hr⟩ := hcompiled.row x cell hcell
  rw [output_text hr (hcompiled.bound x cell hcell),
    ((hcompiled.represents σ).mp ⟨trivial, hreads⟩).2 x cell hcell]

theorem outputs_text_of_reads {joined : List LogRow} {cells : List Cell}
    (hacc : st.bindings.Accepted)
    (hrows : Forall₂ (fun p r => p.Sees db temporal r ∧ p.Reads db σ r) ps joined)
    (hcells : Forall₂ (fun x cell => st.bindings.cell x = some cell) xs cells) :
    (cells.map Cell.output).map (Output.text fmt joined) =
      xs.map fun x => some (valueDecodeExpr fmt (σ x)) := by
  induction hcells with
  | nil => rfl
  | cons hcell _ ih =>
    rw [map_cons, map_cons, map_cons, ih,
      output_text_of_reads hfold hacc hrows hcell]

end

theorem mem_rows_iff (hbuild : buildExtendedPatternQuery db.cache temporal q = .ok s)
    (hacc : s.Accepted) {texts : List (Option String)} :
    texts ∈ s.rows fmt db ↔
      ∃ σ, (∀ p ∈ q.patterns, ∃ r, p.Sees db temporal r ∧ p.Reads db σ r) ∧
        texts = q.find.map fun x => some (valueDecodeExpr fmt (σ x)) := by
  obtain ⟨st, cells, hfold, hcells, rfl⟩ := build_ok hbuild
  rw [Select.rows, mem_dedup, mem_map]
  constructor
  · rintro ⟨joined, hjoined, rfl⟩
    obtain ⟨σ, hrows⟩ := (mem_joined_iff hfold hacc).mp hjoined
    refine ⟨σ, exists_forall₂_iff.mp ⟨joined, hrows⟩, ?_⟩
    exact outputs_text_of_reads hfold hacc hrows hcells
  · rintro ⟨σ, hpatterns, rfl⟩
    obtain ⟨joined, hrows⟩ := exists_forall₂_iff.mpr hpatterns
    refine ⟨joined, (mem_joined_iff hfold hacc).mpr ⟨σ, hrows⟩, ?_⟩
    exact outputs_text_of_reads hfold hacc hrows hcells

end Result

/-- A projection row as a subquery presents it. -/
def CurrentRow.live (r : CurrentRow) : LogRow := ⟨r.e, r.a, r.v, r.tx, true⟩

def Db.datoms (db : Db) (useProjection : Bool) : List LogRow :=
  if useProjection then db.current.map CurrentRow.live else db.log

section Sources

variable {db : Db} {r : LogRow}

variable {t : ValueType} {temporal : TemporalOption} {attr : PatternNonValuePlace} {σ : Assignment}
  {a : Int64}

theorem mem_tableRows {useProjection : Bool} :
    r ∈ db.tableRows useProjection t ↔ r ∈ db.datoms useProjection ∧ r.v.valueType = t := by
  cases useProjection with
  | false => simp [Db.tableRows, Db.datoms]
  | true =>
    simp only [Db.tableRows, Db.datoms, if_true, mem_map, mem_filter, decide_eq_true_eq]
    constructor
    · rintro ⟨x, ⟨hx, ht⟩, rfl⟩
      exact ⟨⟨x, hx, rfl⟩, ht⟩
    · rintro ⟨⟨x, hx, rfl⟩, ht⟩
      exact ⟨x, ⟨hx, ht⟩, rfl⟩

theorem mem_union_rows {useProjection : Bool} :
    r ∈ (Source.union useProjection).rows db ↔ r ∈ db.datoms useProjection := by
  simp only [Source.rows, mem_flatMap, mem_tableRows]
  exact ⟨fun ⟨_, _, hr, _⟩ => hr, fun hr => ⟨_, ValueType.mem_all _, hr, rfl⟩⟩

theorem mem_patternSource :
    r ∈ (patternSource db.cache temporal attr).rows db ↔
      r ∈ db.datoms temporal.useProjection ∧
        ∀ t ∈ resolvePatternValueType db.cache attr, r.v.valueType = t ∧
          ((!temporal.history) = true ∧ ¬ temporal.useProjection → r.added = true) ∧
          ∀ a ∈ (pushdownConditions db.cache temporal attr).attributeEntid, r.a = a := by
  unfold patternSource
  cases resolvePatternValueType db.cache attr with
  | none => simp [mem_union_rows]
  | some t =>
    have hadded : (pushdownConditions db.cache temporal attr).addedTrue = !temporal.history := by
      cases attr <;> rfl
    simp only [Source.rows, mem_filter, mem_tableRows, decide_eq_true_eq, hadded,
      Option.all_eq_true, Option.mem_def, Option.some.injEq, forall_eq', and_assoc]

theorem mem_newerRows :
    r ∈ newerRows db (resolvePatternValueType db.cache attr) ↔
      r ∈ db.log ∧ ∀ t ∈ resolvePatternValueType db.cache attr, r.v.valueType = t := by
  cases resolvePatternValueType db.cache attr with
  | none => simp [newerRows, mem_union_rows, Db.datoms]
  | some t => simp [newerRows, mem_tableRows, Db.datoms]

/-- No ident starts with two colons, as no keyword is spelled like that. -/
def Db.PlainIdents (db : Db) : Prop :=
  (∀ r ∈ db.schema, r.ident.toList[1]? ≠ some ':') ∧
    ∀ r ∈ db.idents, r.ident.toList[1]? ≠ some ':'

instance (db : Db) : Decidable db.PlainIdents := inferInstanceAs (Decidable (_ ∧ _))

theorem Db.PlainIdents.resolveIdent (h : db.PlainIdents) (k : Keyword) :
    db.cache.resolveIdent (":" ++ k.display) = none := by
  have hcolons : (":" ++ k.display).toList[1]? = some ':' := by
    unfold Keyword.display
    split <;> simp
  have hschema : db.cache.schema.find? (fun r => r.ident = ":" ++ k.display) = none := by
    refine List.find?_eq_none.mpr fun r hr heq => h.1 r hr ?_
    rw [of_decide_eq_true heq, hcolons]
  have hidents : db.cache.idents.find? (fun r => r.ident = ":" ++ k.display) = none := by
    refine List.find?_eq_none.mpr fun r hr heq => h.2 r hr ?_
    rw [of_decide_eq_true heq, hcolons]
  rw [SchemaCache.resolveIdent, hschema, hidents]
  rfl

theorem pushdown_of_denotes (hidents : db.PlainIdents) (ha : attr.Denotes db.attributeNamed σ a) :
    ∀ a' ∈ (pushdownConditions db.cache temporal attr).attributeEntid, a = a' := by
  intro a' ha'
  cases attr with
  | entid id =>
    rw [← Option.some.inj ha']
    exact ha.symm
  | ident k => exact absurd ((hidents.resolveIdent k).symm.trans ha') nofun
  | _ => cases ha'

theorem resolveIdent_of_attributeNamed {k : Keyword} (h : db.attributeNamed k = some a) :
    db.cache.resolveIdent k.display = some a := by
  obtain ⟨row, hrow, rfl⟩ := Option.map_eq_some_iff.mp h
  rw [SchemaCache.resolveIdent, show db.cache.schema = db.schema from rfl, hrow]

theorem declaredType_of_denotes {place : PatternNonValuePlace}
    (htype : resolvePatternValueType db.cache place = some t)
    (ha : place.Denotes db.attributeNamed σ a) : db.declaredType a = some t := by
  cases place with
  | placeholder | «variable» x => cases htype
  | entid id =>
    rw [← show id = a from ha]
    exact htype
  | ident k =>
    rw [resolvePatternValueType, resolveIdent_of_attributeNamed ha] at htype
    exact htype

end Sources

end PgMentat

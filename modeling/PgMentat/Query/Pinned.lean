import PgMentat.Query.Stable

namespace PgMentat

open List

/-- The same schema and idents, and the same rows on the given entities. -/
structure Db.AgreeOn (entities : List Int64) (db db' : Db) : Prop where
  cache : db'.cache = db.cache
  log : ∀ r : LogRow, r.e ∈ entities → (r ∈ db'.log ↔ r ∈ db.log)
  current : ∀ r : CurrentRow, r.e ∈ entities → (r ∈ db'.current ↔ r ∈ db.current)

section AgreeOn

variable {entities : List Int64} {db db' db'' : Db} {r : LogRow} {joined : List LogRow}

theorem Db.AgreeOn.symm (h : Db.AgreeOn entities db db') : Db.AgreeOn entities db' db where
  cache := h.cache.symm
  log := fun r hr => (h.log r hr).symm
  current := fun r hr => (h.current r hr).symm

theorem Db.AgreeOn.trans (h : Db.AgreeOn entities db db') (h' : Db.AgreeOn entities db' db'') :
    Db.AgreeOn entities db db'' where
  cache := h'.cache.trans h.cache
  log := fun r hr => (h'.log r hr).trans (h.log r hr)
  current := fun r hr => (h'.current r hr).trans (h.current r hr)

theorem Db.AgreeOn.mono {entities' : List Int64} (h : Db.AgreeOn entities' db db')
    (hsubset : entities ⊆ entities') : Db.AgreeOn entities db db' where
  cache := h.cache
  log := fun r hr => h.log r (hsubset hr)
  current := fun r hr => h.current r (hsubset hr)

theorem Db.AgreeOn.mem_tableRows (h : Db.AgreeOn entities db db') (hr : r.e ∈ entities)
    {useProjection : Bool} {type : ValueType} :
    r ∈ db'.tableRows useProjection type ↔ r ∈ db.tableRows useProjection type := by
  rw [PgMentat.mem_tableRows, PgMentat.mem_tableRows]
  refine and_congr_left' ?_
  cases useProjection with
  | false => exact h.log r hr
  | true =>
    have hlive : ∀ x : CurrentRow, x.live = r → (x ∈ db'.current ↔ x ∈ db.current) := by
      intro x hx
      apply h.current
      rw [← hx] at hr
      exact hr
    simp only [Db.datoms, if_true, mem_map]
    constructor
    · rintro ⟨x, hx, hxr⟩
      exact ⟨x, (hlive x hxr).mp hx, hxr⟩
    · rintro ⟨x, hx, hxr⟩
      exact ⟨x, (hlive x hxr).mpr hx, hxr⟩

theorem Db.AgreeOn.mem_rows (h : Db.AgreeOn entities db db') (hr : r.e ∈ entities)
    (source : Source) : r ∈ source.rows db' ↔ r ∈ source.rows db := by
  cases source with
  | typed type pushdown useProjection =>
    simp only [Source.rows, mem_filter, h.mem_tableRows hr]
  | union useProjection => simp only [Source.rows, mem_flatMap, h.mem_tableRows hr]

theorem Db.AgreeOn.clause_holds (h : Db.AgreeOn entities db db')
    (hjoined : ∀ r ∈ joined, r.e ∈ entities) {c : Clause} (hholds : c.Holds db joined) :
    c.Holds db' joined := by
  cases c with
  | entid idx col table ident =>
    rw [Clause.Holds, table.entid_congr h.cache]
    exact hholds
  | notSuperseded idx table tx =>
    obtain ⟨r, hr, hnot⟩ := hholds
    refine ⟨r, hr, fun newer hnewer hsup => hnot newer ?_ hsup⟩
    -- a newer row is about the same entity
    have hmem : newer.e ∈ entities := hsup.1 ▸ hjoined r (mem_of_getElem? hr)
    cases table with
    | none => exact (h.mem_rows hmem (.union false)).mp hnewer
    | some type => exact (h.mem_tableRows hmem).mp hnewer
  | columns idx col existing existingCol | sameValue idx existing | param idx col value
  | constant idx col value tag | txAtMost idx tx | txAfter idx tx => exact hholds

end AgreeOn

/-- Every subquery is compared with one of the entities. -/
def PinnedTo (entities : List Int64) (s : ExtendedSelect) : Prop :=
  ∀ i < s.joins.length, ∃ id ∈ entities, .param i .e (.bigint id) ∈ s.clauses ∨
    .compare .eq (.column i .e) (.param (.bigint id)) ∈ s.conditions

instance (entities : List Int64) (s : ExtendedSelect) : Decidable (PinnedTo entities s) :=
  inferInstanceAs (Decidable (∀ i < s.joins.length, ∃ id ∈ entities, _ ∨ _))

instance : (c : Condition) → Decidable c.OfRow
  | .missing _ _ _ _ => inferInstanceAs (Decidable False)
  | .false | .compare _ _ _ => inferInstanceAs (Decidable True)

section Pinned

variable {entities : List Int64} {db db' : Db} {s : ExtendedSelect} {ops : SqlOperators}
  {joined : List LogRow}

theorem PinnedTo.mem_entities (h : PinnedTo entities s)
    (hrow : JoinedRow ops db s.joins s.clauses s.conditions [] joined) :
    ∀ r ∈ joined, r.e ∈ entities := by
  intro r hr
  obtain ⟨i, hi⟩ := mem_iff_getElem?.mp hr
  have hlt : i < s.joins.length := by
    rw [← (mem_sections_rows.mp hrow.1).length_eq]
    exact (List.getElem?_eq_some_iff.mp hi).1
  obtain ⟨id, hid, hclause | hcondition⟩ := h i hlt
  · have hholds := (param_holds hi).mp (hrow.2.1 _ hclause)
    have he : r.e = id := by simpa [LogRow.column] using hholds
    exact he ▸ hid
  · obtain ⟨x, hx, y, hy, hcompare⟩ := hrow.2.2 _ hcondition
    cases hy
    rw [SqlExpr.value, nil_append, columnAt_eq hi] at hx
    cases hx
    have he : r.e = id := Int64.toInt_inj.mp
      (by simpa [PredOp.compare, PredOp.ofInt] using hcompare)
    exact he ▸ hid

theorem PinnedTo.joinedRow (h : PinnedTo entities s) (hofRow : ∀ c ∈ s.conditions, c.OfRow)
    (hagree : Db.AgreeOn entities db db')
    (hrow : JoinedRow ops db s.joins s.clauses s.conditions [] joined) :
    JoinedRow ops db' s.joins s.clauses s.conditions [] joined := by
  have hentities := h.mem_entities hrow
  obtain ⟨hmem, hclauses, hconditions⟩ := hrow
  refine ⟨?_, fun c hc => hagree.clause_holds hentities (hclauses c hc),
    fun c hc => (hofRow c hc).holds (hconditions c hc)⟩
  rw [mem_sections_rows, List.forall₂_iff_zip] at hmem ⊢
  refine ⟨hmem.1, fun {r source} hzip => ?_⟩
  exact (hagree.mem_rows (hentities r (of_mem_zip hzip).1) source).mpr (hmem.2 hzip)

theorem PinnedTo.rows_perm (h : PinnedTo entities s) (hnots : s.nots = [])
    (hofRow : ∀ c ∈ s.conditions, c.OfRow) (hagree : Db.AgreeOn entities db db')
    (fmt : FloatFormat) : (s.rows fmt ops db').Perm (s.rows fmt ops db) := by
  have hjoined : ∀ joined, joined ∈ s.joined ops db' ↔ joined ∈ s.joined ops db := by
    intro joined
    simp only [ExtendedSelect.mem_joined, hnots, not_mem_nil, false_imp_iff, implies_true,
      and_true]
    exact ⟨h.joinedRow hofRow hagree.symm, h.joinedRow hofRow hagree⟩
  refine (perm_ext_iff_of_nodup (nodup_dedup _) (nodup_dedup _)).mpr fun row => ?_
  simp only [mem_dedup, mem_map, hjoined]

end Pinned

end PgMentat

import PgMentat.Query.Ordering
import PgMentat.Disjunction

namespace PgMentat

open List Unification SortedRows

/-- Integers are compared as numbers, instants by time and strings by the collation. Values of
different types, and of the types that are left, have no order. -/
def TypedValue.le (ord : OrderFormat) : TypedValue → TypedValue → Bool
  | ref m, ref n => m.toInt ≤ n.toInt
  | long m, long n => m.toInt ≤ n.toInt
  | instant m, instant n => m.toInt ≤ n.toInt
  | text s, text t => ord.textLE s t
  | _, _ => false

namespace OrderedQuery

def bodies (q : OrderedQuery) : List (List Pattern) :=
  if q.branches = [] then [q.base] else q.branches.map (q.base ++ ·)

def Solution (q : OrderedQuery) (db : Db) (σ : Assignment) : Prop :=
  ∃ body ∈ q.bodies, ∀ p ∈ body, ∃ r ∈ db.current, p.Reads db σ r.live

def row (q : OrderedQuery) (fmt : FloatFormat) (σ : Assignment) : List (Option String) :=
  q.find.map fun x => some (valueDecodeExpr fmt (σ x))

def typedLE (q : OrderedQuery) (ord : OrderFormat) : Assignment → Assignment → Bool :=
  lexLE (q.order.map fun key σ τ => key.1.of (TypedValue.le ord) (σ key.2) (τ key.2))

/-- The rows are ordered by the values of the solutions they come from. -/
def TypedOrdered (q : OrderedQuery) (fmt : FloatFormat) (ord : OrderFormat) (db : Db)
    (result : List (List (Option String))) : Prop :=
  result.Pairwise fun row row' => ∀ σ τ, q.Solution db σ → q.row fmt σ = row →
    q.Solution db τ → q.row fmt τ = row' → q.typedLE ord σ τ = true

def castFor (q : OrderedQuery) (c : SchemaCache) (x : String) : Option OrderCast :=
  numericCastFor (q.scope c {}).toOption.join x

def castTextLE (q : OrderedQuery) (fmt : FloatFormat) (ord : OrderFormat) (c : SchemaCache) :
    Assignment → Assignment → Bool :=
  lexLE (q.order.map fun key σ τ => key.1.of
    (fun v w => castLE ord (q.castFor c key.2) (valueDecodeExpr fmt v) (valueDecodeExpr fmt w))
    (σ key.2) (τ key.2))

/-- Where the order of the texts lets one solution come before another, so does that of the
values. -/
def CastsAgree (q : OrderedQuery) (fmt : FloatFormat) (ord : OrderFormat) (db : Db) : Prop :=
  ∀ σ τ, q.Solution db σ → q.Solution db τ → q.row fmt σ ≠ q.row fmt τ →
    q.castTextLE fmt ord db.cache σ τ = true → q.typedLE ord σ τ = true

/-- What is not cast is a string, and instants are of the common era: their text does not tell the
era, so that others are read back as different ones. -/
structure CastsFit (q : OrderedQuery) (ord : OrderFormat) (db : Db) : Prop where
  fourPlaces : ∀ p ∈ q.base, p.added = .placeholder
  uncast : ∀ key ∈ q.order, q.castFor db.cache key.2 = none →
    ∀ σ, q.Solution db σ → ∃ s, σ key.2 = .text s
  instants : ∀ key ∈ q.order, q.castFor db.cache key.2 = some .timestamptz →
    ∀ σ, q.Solution db σ → ∀ micros, σ key.2 = .instant micros →
      ord.timestamptz (instantText micros.toInt) = micros.toInt

end OrderedQuery

section Sorting

theorem totalPreorder_castLE (ord : OrderFormat) (cast : Option OrderCast) :
    TotalPreorder (castLE ord cast) := by
  have hint (f : String → Int) : TotalPreorder fun t u => decide (f t ≤ f u) := by
    constructor
    · intro t u
      simpa using Int.le_total (f t) (f u)
    · intro t u v htu huv
      simp only [decide_eq_true_eq] at htu huv ⊢
      omega
  cases cast with
  | none => exact ord.totalPreorder_textLE
  | some cast =>
    cases cast with
    | bigint => exact hint bigintOf
    | timestamptz => exact hint ord.timestamptz

theorem totalPreorder_nullsLast {α : Type} {le : α → α → Bool} (h : TotalPreorder le) :
    TotalPreorder (nullsLast le) := by
  constructor
  · intro a b
    cases a with
    | none =>
      cases b with
      | none => exact .inl rfl
      | some b => exact .inr rfl
    | some a =>
      cases b with
      | none => exact .inl rfl
      | some b => exact h.total a b
  · intro a b c hab hbc
    cases c with
    | none => cases a <;> rfl
    | some c =>
      cases b with
      | none => cases hbc
      | some b =>
        cases a with
        | none => cases hab
        | some a => exact h.trans a b c hab hbc

theorem totalPreorder_of {α : Type} {le : α → α → Bool} (h : TotalPreorder le)
    (direction : Direction) : TotalPreorder (direction.of le) := by
  cases direction with
  | ascending => exact h
  | descending => exact h.flip

theorem totalPreorder_rowLE (ord : OrderFormat) (parts : List OrderPart) :
    TotalPreorder (rowLE ord parts) := by
  apply totalPreorder_lexLE
  intro le hle
  obtain ⟨part, -, rfl⟩ := mem_map.mp hle
  have hcell := totalPreorder_of (totalPreorder_nullsLast (totalPreorder_castLE ord part.cast))
    part.direction
  exact hcell.comap fun row : List (Option String) => row[part.column]?.join

theorem limited_sublist {α : Type} (limit : Option Nat) (rows : List α) :
    (limited limit rows).Sublist rows := by
  cases limit with
  | none => exact List.Sublist.refl rows
  | some n => exact take_sublist n rows

end Sorting

section Statement

variable {fmt : FloatFormat} {ops : SqlOperators} {ord : OrderFormat} {db : Db} {q : OrderedQuery}
  {s : OrderedSelect}

theorem buildOrderedQuery_ok (h : buildOrderedQuery db.cache {} q = .ok s) :
    Forall₂ (fun body arm => buildArm db.cache {} (.rel q.find) body = .ok arm)
      q.bodies s.arms ∧
    s.parts = appendOrderBy (q.scope db.cache {}).toOption.join q.find q.order ∧
    s.limit = q.limit := by
  obtain ⟨arms, harms, h⟩ := bind_eq_ok h
  obtain ⟨scope, hscope, h⟩ := bind_eq_ok h
  cases h
  refine ⟨?_, ?_, rfl⟩
  · unfold OrderedQuery.buildArms at harms
    unfold OrderedQuery.bodies
    split at harms
    · rename_i hbranches
      obtain ⟨arm, harm, rfl⟩ := map_eq_ok harms
      rw [if_pos hbranches]
      exact .cons harm .nil
    · rename_i hbranches
      rw [if_neg hbranches]
      exact List.forall₂_map_left_iff.mpr (buildOrQuery_ok harms)
  · rw [hscope]
    rfl

theorem row_idxOf {x : String} {column : Nat} (hx : q.find.idxOf? x = some column)
    (σ : Assignment) : (q.row fmt σ)[column]?.join = some (valueDecodeExpr fmt (σ x)) := by
  have hget : q.find[column]? = some x := by
    rw [List.idxOf?, List.findIdx?_eq_some_iff_getElem] at hx
    obtain ⟨hlt, heq, -⟩ := hx
    rw [List.getElem?_eq_getElem hlt, eq_of_beq heq]
  rw [OrderedQuery.row, List.getElem?_map, hget]
  rfl

theorem rowLE_row (hparts : s.parts = appendOrderBy (q.scope db.cache {}).toOption.join q.find
      q.order)
    (hfind : ∀ key ∈ q.order, key.2 ∈ q.find) (σ τ : Assignment) :
    rowLE ord s.parts (q.row fmt σ) (q.row fmt τ) = q.castTextLE fmt ord db.cache σ τ := by
  let column (key : Direction × String) : Nat := (q.find.idxOf? key.2).getD 0
  have hcolumn : ∀ key ∈ q.order, q.find.idxOf? key.2 = some (column key) := by
    intro key hkey
    have hsome : (q.find.idxOf? key.2).isSome := by
      rw [isSome_idxOf?]
      exact hfind key hkey
    obtain ⟨n, hn⟩ := Option.isSome_iff_exists.mp hsome
    show q.find.idxOf? key.2 = some ((q.find.idxOf? key.2).getD 0)
    rw [hn]
    rfl
  have hmap : s.parts = q.order.map fun key =>
      ⟨column key, q.castFor db.cache key.2, key.1⟩ := by
    rw [hparts, appendOrderBy, ← filterMap_eq_map]
    refine filterMap_congr fun key hkey => ?_
    rw [hcolumn key hkey]
    rfl
  rw [rowLE, hmap, map_map, OrderedQuery.castTextLE]
  apply lexLE_congr
  intro key hkey
  have hcells (σ : Assignment) :
      (q.row fmt σ)[column key]?.join = some (valueDecodeExpr fmt (σ key.2)) :=
    row_idxOf (hcolumn key hkey) σ
  simp only [Function.comp_apply, OrderPart.le, hcells]
  cases key.1 with
  | ascending | descending => exact ⟨rfl, rfl⟩

theorem mem_unionRows_iff (fmt : FloatFormat) (ops : SqlOperators) (htyped : db.Typed)
    (hidents : db.PlainIdents) (hbuild : buildOrderedQuery db.cache {} q = .ok s)
    (hacc : ∀ arm ∈ s.arms, arm.Accepted) :
    ∃ rows, unionRows fmt ops db s.arms = some rows ∧ rows.Nodup ∧
      ∀ row, row ∈ rows ↔ ∃ σ, q.Solution db σ ∧ q.row fmt σ = row := by
  obtain ⟨rows, hrows, hnodup, hmem⟩ :=
    mem_unionRows_rel fmt ops htyped hidents (buildOrderedQuery_ok hbuild).1 hacc
  refine ⟨rows, hrows, hnodup, fun row => (hmem row).trans ?_⟩
  constructor
  · rintro ⟨body, hbody, σ, hread, hrow⟩
    exact ⟨σ, ⟨body, hbody, hread⟩, hrow⟩
  · rintro ⟨σ, ⟨body, hbody, hread⟩, hrow⟩
    exact ⟨body, hbody, σ, hread, hrow⟩

/-- All sorted permutations of the rows are in the order of the values exactly if the texts are
compared as the values are. -/
theorem forall_orderedBy_typedOrdered_iff (hbuild : buildOrderedQuery db.cache {} q = .ok s)
    (hfind : ∀ key ∈ q.order, key.2 ∈ q.find) {rows : List (List (Option String))}
    (hnodup : rows.Nodup)
    (hmem : ∀ row, row ∈ rows ↔ ∃ σ, q.Solution db σ ∧ q.row fmt σ = row) :
    (∀ sorted, OrderedBy (rowLE ord s.parts) rows sorted → q.TypedOrdered fmt ord db sorted) ↔
      q.CastsAgree fmt ord db := by
  have hle (σ τ : Assignment) :
      rowLE ord s.parts (q.row fmt σ) (q.row fmt τ) = q.castTextLE fmt ord db.cache σ τ :=
    rowLE_row (buildOrderedQuery_ok hbuild).2.1 hfind σ τ
  refine (forall_orderedBy_pairwise_iff (totalPreorder_rowLE ord s.parts) hnodup).trans ?_
  constructor
  · intro h σ τ hσ hτ hne hcast
    refine h (q.row fmt σ) ((hmem _).mpr ⟨σ, hσ, rfl⟩) (q.row fmt τ) ((hmem _).mpr ⟨τ, hτ, rfl⟩)
      hne ?_ σ τ hσ rfl hτ rfl
    rw [hle]
    exact hcast
  · rintro h _ - _ - hne hcast σ τ hσ rfl hτ rfl
    rw [hle] at hcast
    exact h σ τ hσ hτ hne hcast

end Statement

section Casts

variable {fmt : FloatFormat} {ord : OrderFormat} {db : Db} {q : OrderedQuery} {x : String}

theorem numericCastFor_eq_some {scope : Option Scope} {cast : OrderCast}
    (h : numericCastFor scope x = some cast) :
    ∃ sc cell, scope = some sc ∧ sc.cell x = some cell ∧
      ((cell.2 = .e ∨ cell.2 = .a ∨ cell.2 = .tx) ∧ cast = .bigint ∨
        cell.2 = .v ∧ ∃ t, sc.type x = some t ∧
          ((t = .long ∨ t = .ref) ∧ cast = .bigint ∨ t = .instant ∧ cast = .timestamptz)) := by
  unfold numericCastFor at h
  split at h
  · cases h
  · rename_i sc
    split at h
    · rename_i idx hcell
      cases h
      exact ⟨sc, _, rfl, hcell, .inl ⟨.inl rfl, rfl⟩⟩
    · rename_i idx hcell
      cases h
      exact ⟨sc, _, rfl, hcell, .inl ⟨.inr (.inl rfl), rfl⟩⟩
    · rename_i idx hcell
      cases h
      exact ⟨sc, _, rfl, hcell, .inl ⟨.inr (.inr rfl), rfl⟩⟩
    · rename_i idx hcell
      refine ⟨sc, _, rfl, hcell, .inr ⟨rfl, ?_⟩⟩
      split at h
      · rename_i htype
        cases h
        exact ⟨_, htype, .inl ⟨.inl rfl, rfl⟩⟩
      · rename_i htype
        cases h
        exact ⟨_, htype, .inl ⟨.inr rfl, rfl⟩⟩
      · rename_i htype
        cases h
        exact ⟨_, htype, .inr ⟨rfl, rfl⟩⟩
      · cases h
    · cases h

theorem castFor_eq_some {cast : OrderCast} (h : q.castFor db.cache x = some cast) :
    q.bodies = [q.base] ∧ ∃ st, q.base.zipIdx.foldlM (compilePattern db.cache {}) {} = .ok st ∧
      numericCastFor (some (outerScope db.cache q.base st.bindings)) x = some cast := by
  unfold OrderedQuery.castFor OrderedQuery.scope at h
  by_cases hbranches : q.branches = []
  · rw [if_pos hbranches] at h
    refine ⟨if_pos hbranches, ?_⟩
    cases hfold : q.base.zipIdx.foldlM (compilePattern db.cache {}) {} with
    | error err =>
      rw [hfold] at h
      cases h
    | ok st =>
      rw [hfold] at h
      exact ⟨st, rfl, h⟩
  · rw [if_neg hbranches] at h
    cases h

theorem valueType_of_castFor (htyped : db.Typed) (hfour : ∀ p ∈ q.base, p.added = .placeholder)
    {cast : OrderCast} (h : q.castFor db.cache x = some cast) :
    ∃ t, ((t = .ref ∨ t = .long) ∧ cast = .bigint ∨ t = .instant ∧ cast = .timestamptz) ∧
      ∀ σ, q.Solution db σ → (σ x).valueType = t := by
  obtain ⟨hbodies, st, hfold, hcast⟩ := castFor_eq_some h
  obtain ⟨_, ⟨idx, col⟩, hscope, hcell, hcast⟩ := numericCastFor_eq_some hcast
  cases hscope
  have hcell : st.bindings.cell x = some (idx, col) := hcell
  rcases compilePatterns_place hfour hfold hcell with h | ⟨p, hp, hx⟩
  · cases h
  · have hget := mem_zipIdx_iff_getElem?.mp hp
    have hread (σ : Assignment) (hσ : q.Solution db σ) :
        ∃ r ∈ db.current, p.Reads db σ r.live ∧ σ x = r.live.cell col := by
      obtain ⟨body, hbody, hreads⟩ := hσ
      rw [hbodies, mem_singleton] at hbody
      obtain ⟨r, hr, hreads⟩ := hreads p (hbody ▸ mem_of_getElem? hget)
      exact ⟨r, hr, hreads, hreads.varsAt hx⟩
    rcases hcast with ⟨hcol, hcast⟩ | ⟨hcol, t, htype, hcast⟩
    · refine ⟨.ref, .inl ⟨.inl rfl, hcast⟩, fun σ hσ => ?_⟩
      obtain ⟨r, -, -, hvalue⟩ := hread σ hσ
      rcases hcol with rfl | rfl | rfl <;> rw [hvalue] <;> rfl
    · refine ⟨t, ?_, fun σ hσ => ?_⟩
      · rcases hcast with ⟨ht, hcast⟩ | hcast
        · exact .inl ⟨ht.symm, hcast⟩
        · exact .inr hcast
      · obtain ⟨r, hr, hreads, hvalue⟩ := hread σ hσ
        have htype : resolvePatternValueType db.cache p.attr = some t := by
          simpa [outerScope, hcell, show col = .v from hcol, hget] using htype
        subst hcol
        rw [hvalue]
        exact htyped r hr t (declaredType_of_denotes htype hreads.2.1)

theorem bigintOf_toString (n : Int) : bigintOf (toString n) = n := by
  rw [bigintOf, numericText, TextCodec.parseInt_toString]
  rfl

theorem castLE_bigint {t : ValueType} (ht : t = .ref ∨ t = .long) {v w : TypedValue}
    (hv : v.valueType = t) (hw : w.valueType = t) :
    castLE ord (some .bigint) (valueDecodeExpr fmt v) (valueDecodeExpr fmt w) = v.le ord w := by
  rcases ht with rfl | rfl
  · cases v <;> cases hv
    cases w <;> cases hw
    simp only [castLE, valueDecodeExpr, bigintOf_toString, TypedValue.le]
  · cases v <;> cases hv
    cases w <;> cases hw
    simp only [castLE, valueDecodeExpr, bigintOf_toString, TypedValue.le]

theorem OrderedQuery.CastsFit.castLE_eq (fmt : FloatFormat) (h : q.CastsFit ord db)
    (htyped : db.Typed) {key : Direction × String} (hkey : key ∈ q.order) {σ τ : Assignment}
    (hσ : q.Solution db σ) (hτ : q.Solution db τ) :
    castLE ord (q.castFor db.cache key.2) (valueDecodeExpr fmt (σ key.2))
      (valueDecodeExpr fmt (τ key.2)) = (σ key.2).le ord (τ key.2) := by
  cases hcast : q.castFor db.cache key.2 with
  | none =>
    obtain ⟨s, hs⟩ := h.uncast key hkey hcast σ hσ
    obtain ⟨t, ht⟩ := h.uncast key hkey hcast τ hτ
    rw [hs, ht]
    rfl
  | some cast =>
    obtain ⟨t, hfits, htype⟩ := valueType_of_castFor htyped h.fourPlaces hcast
    rcases hfits with ⟨ht, rfl⟩ | ⟨rfl, rfl⟩
    · exact castLE_bigint ht (htype σ hσ) (htype τ hτ)
    · have hread := h.instants key hkey hcast
      have hσtype := htype σ hσ
      have hτtype := htype τ hτ
      cases hv : σ key.2 with
      | instant m =>
        cases hw : τ key.2 with
        | instant n =>
          simp only [castLE, valueDecodeExpr, hread σ hσ m hv, hread τ hτ n hw, TypedValue.le]
        | _ =>
          rw [hw] at hτtype
          cases hτtype
      | _ =>
        rw [hv] at hσtype
        cases hσtype

theorem OrderedQuery.CastsFit.castsAgree (h : q.CastsFit ord db) (htyped : db.Typed) :
    q.CastsAgree fmt ord db := by
  intro σ τ hσ hτ _ hcast
  rw [← hcast]
  apply lexLE_congr
  intro key hkey
  have hστ := h.castLE_eq fmt htyped hkey hσ hτ
  have hτσ := h.castLE_eq fmt htyped hkey hτ hσ
  cases hdirection : key.1 with
  | ascending => exact ⟨hστ.symm, hτσ.symm⟩
  | descending => exact ⟨hτσ.symm, hστ.symm⟩

end Casts

/-- Whatever result the statement has, its rows are ordered by the values of the variables if the
texts are compared as the values are; without a `:limit` only then. They are if what is not cast is
a string and instants are read back from their texts. -/
theorem typedOrdered_iff_castsAgree {db : Db} {q : OrderedQuery} {s : OrderedSelect}
    (fmt : FloatFormat) (ops : SqlOperators) (ord : OrderFormat) (htyped : db.Typed)
    (hidents : db.PlainIdents) (hfind : ∀ key ∈ q.order, key.2 ∈ q.find)
    (hbuild : buildOrderedQuery db.cache {} q = .ok s) (hacc : ∀ arm ∈ s.arms, arm.Accepted) :
    (∃ result, s.Returns fmt ops ord db result) ∧
    (q.CastsAgree fmt ord db →
      ∀ result, s.Returns fmt ops ord db result → q.TypedOrdered fmt ord db result) ∧
    (q.limit = none →
      (∀ result, s.Returns fmt ops ord db result → q.TypedOrdered fmt ord db result) →
        q.CastsAgree fmt ord db) ∧
    (q.CastsFit ord db → q.CastsAgree fmt ord db) := by
  obtain ⟨rows, hrows, hnodup, hmem⟩ := mem_unionRows_iff fmt ops htyped hidents hbuild hacc
  have hiff : (∀ sorted, OrderedBy (rowLE ord s.parts) rows sorted →
      q.TypedOrdered fmt ord db sorted) ↔ q.CastsAgree fmt ord db :=
    forall_orderedBy_typedOrdered_iff hbuild hfind hnodup hmem
  refine ⟨?_, ?_, ?_, fun h => h.castsAgree htyped⟩
  · obtain ⟨sorted, hsorted, -⟩ := exists_orderedBy (totalPreorder_rowLE ord s.parts) rows
    exact ⟨limited s.limit sorted, rows, sorted, hrows, hsorted, rfl⟩
  · rintro h _ ⟨rows', sorted, hrows', hsorted, rfl⟩
    cases hrows.symm.trans hrows'
    exact (hiff.mpr h sorted hsorted).sublist (limited_sublist s.limit sorted)
  · intro hlimit h
    refine hiff.mp fun sorted hsorted => ?_
    apply h sorted
    refine ⟨rows, sorted, hrows, hsorted, ?_⟩
    rw [(buildOrderedQuery_ok hbuild).2.2, hlimit]
    rfl

/-- The collation `C`; no text is read as an instant here. -/
def codePointOrder : OrderFormat where
  textLE t u := decide (t ≤ u)
  totalPreorder_textLE :=
    ⟨fun t u => by simpa using String.le_total t u,
      fun t u v htu huv => by
        simp only [decide_eq_true_eq] at htu huv ⊢
        exact String.le_trans htu huv⟩
  timestamptz _ := 0

def smallAgesCall : Call :=
  plainCall 1000000000002 1735689601000000
    [addDatom 500 1000001 (.integer 9), addDatom 501 1000001 (.integer 10)]

/-- `[:find ?e ?n :where [?e :person/age ?n] :order (desc ?n) ?e]`. -/
def agesDescendingQuery : OrderedQuery where
  find := ["?e", "?n"]
  base := [{ entity := .variable "?e", attr := .ident (.namespaced "person" "age"),
             value := .variable "?n" }]
  order := [(.descending, "?n"), (.ascending, "?e")]

/-- Two numbers. -/
theorem typedOrdered_iff_castsAgree_descending :
    ∃ db s, stateAfter [defineAge, smallAgesCall] = some db ∧
      buildOrderedQuery db.cache {} agesDescendingQuery = .ok s ∧
      ∀ result, s.Returns noDoubles noOperators codePointOrder db result →
        agesDescendingQuery.TypedOrdered noDoubles codePointOrder db result := by
  have hstate : ∃ db ∈ stateAfter [defineAge, smallAgesCall], db.Typed ∧ db.PlainIdents ∧
      (∃ s, buildOrderedQuery db.cache {} agesDescendingQuery = .ok s ∧
        ∀ arm ∈ s.arms, arm.Accepted) ∧
      ∀ key ∈ agesDescendingQuery.order,
        agesDescendingQuery.castFor db.cache key.2 = some .bigint := by
    decide +kernel
  obtain ⟨db, hdb, htyped, hidents, ⟨s, hs, hacc⟩, hcast⟩ := hstate
  obtain ⟨-, hordered, -, hfit⟩ := typedOrdered_iff_castsAgree noDoubles noOperators codePointOrder
    htyped hidents (by decide) hs hacc
  refine ⟨db, s, hdb, hs, hordered (hfit ⟨by decide, ?_, ?_⟩)⟩
  · intro key hkey hnone
    rw [hcast key hkey] at hnone
    cases hnone
  · intro key hkey hinstant
    rw [hcast key hkey] at hinstant
    cases hinstant

/-- `[:find ?n :where (or [500 :person/age ?n] [501 :person/age ?n]) :order ?n]`. -/
def agesOrQuery : OrderedQuery where
  find := ["?n"]
  branches :=
    [[{ entity := .entid 500, attr := .ident (.namespaced "person" "age"),
        value := .variable "?n" }],
     [{ entity := .entid 501, attr := .ident (.namespaced "person" "age"),
        value := .variable "?n" }]]
  order := [(.ascending, "?n")]

/-- Under an `or` numbers are sorted as text, so that 10 comes before 9. -/
theorem not_typedOrdered_or :
    ∃ db s, stateAfter [defineAge, smallAgesCall] = some db ∧ db.Typed ∧ db.PlainIdents ∧
      buildOrderedQuery db.cache {} agesOrQuery = .ok s ∧
      s.Returns noDoubles noOperators codePointOrder db [[some "10"], [some "9"]] ∧
      ¬ agesOrQuery.TypedOrdered noDoubles codePointOrder db [[some "10"], [some "9"]] := by
  have hstate : ∃ db ∈ stateAfter [defineAge, smallAgesCall], db.Typed ∧ db.PlainIdents ∧
      (∃ s, buildOrderedQuery db.cache {} agesOrQuery = .ok s ∧
        unionRows noDoubles noOperators db s.arms = some [[some "9"], [some "10"]] ∧
        s.parts = [⟨0, none, .ascending⟩] ∧ s.limit = none) ∧
      (∃ r ∈ db.current, r.e = 500 ∧
        db.attributeNamed (.namespaced "person" "age") = some r.a ∧ r.v = .long 9) ∧
      ∃ r ∈ db.current, r.e = 501 ∧
        db.attributeNamed (.namespaced "person" "age") = some r.a ∧ r.v = .long 10 := by
    decide +kernel
  obtain ⟨db, hdb, htyped, hidents, ⟨s, hs, hrows, hparts, hlimit⟩, hnine, hten⟩ := hstate
  refine ⟨db, s, hdb, htyped, hidents, hs, ?_, ?_⟩
  · refine ⟨_, [[some "10"], [some "9"]], hrows, ⟨List.Perm.swap _ _ _, ?_⟩, ?_⟩
    · rw [hparts]
      decide +kernel
    · rw [hlimit]
      rfl
  · intro h
    obtain ⟨r, hr, he, ha, hv⟩ := hnine
    obtain ⟨r', hr', he', ha', hv'⟩ := hten
    have hnine : agesOrQuery.Solution db fun _ => .long 9 := by
      refine ⟨_, mem_cons_self, fun p hp => ⟨r, hr, ?_⟩⟩
      rw [mem_singleton.mp hp]
      exact ⟨he.symm, ha, hv.symm, trivial, trivial⟩
    have hten : agesOrQuery.Solution db fun _ => .long 10 := by
      refine ⟨_, mem_cons_of_mem _ mem_cons_self, fun p hp => ⟨r', hr', ?_⟩⟩
      rw [mem_singleton.mp hp]
      exact ⟨he'.symm, ha', hv'.symm, trivial, trivial⟩
    have hle := pairwise_pair.mp h _ _ hten rfl hnine rfl
    exact absurd hle (by decide)

end PgMentat

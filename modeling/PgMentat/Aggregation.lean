import PgMentat.Disjunction

namespace PgMentat

open List Unification Aggregates

/-- `[:find (fn ?x) :with .. :where ..]` over data patterns. -/
structure AggregateQuery where
  fn : AggregateFn
  x : String
  withVars : List String := []
  patterns : List Pattern
  deriving DecidableEq, Repr

/-- `mentat_query` on a query of one aggregate; what stands under `:with` is not read. -/
def mentatAggregateQuery (fmt : FloatFormat) (ops : SqlOperators) (maxRows : Nat)
    (temporal : TemporalOption) (q : AggregateQuery) (db : Db) :
    Except QueryError (List (List Json)) := do
  let arm ← buildArm db.cache temporal (.aggregate q.fn q.x) q.patterns
  if arm.Accepted then
    match arm.rows fmt ops db with
    | none => .error rejected
    | some rows =>
      if 0 < maxRows ∧ maxRows < rows.length then .error (.resultLimitExceeded maxRows)
      else return rows.map fun row => row.map (resultValue fmt)
  else .error rejected

namespace AggregateQuery

def bound (q : AggregateQuery) : List String := q.x :: q.withVars

/-- The bindings of the variables under `:find` and `:with` in all solutions, each once, with the
integer that is aggregated. -/
def bindings (q : AggregateQuery) (db : Db) : Set (List TypedValue × ℤ) :=
  {b | ∃ σ : Assignment, (∀ p ∈ q.patterns, ∃ r ∈ db.current, p.Matches db σ r) ∧
    q.bound.map σ = b.1 ∧ (σ q.x).integer = some b.2}

def OverBindings (q : AggregateQuery) (db : Db) (json : Json) : Prop :=
  ∃ r, q.fn.OverIndices (q.bindings db) r ∧ ShowsNumber json r

/-- Plain constants, and patterns that bind what stands under `:find` and `:with`. -/
structure Simple (q : AggregateQuery) (db : Db) : Prop where
  constants : ∀ p ∈ q.patterns, p.Plain db
  visible : ∀ y ∈ q.bound, y ∈ q.patterns.flatMap Pattern.vars

/-- Under `count` the integer tells the bindings apart, under `sum` no binding comes from two
choices of live datoms, and the result is an integer of 64 bits. -/
structure Plain (q : AggregateQuery) (db : Db) : Prop extends q.Simple db where
  count : q.fn = .count → ∀ b ∈ q.bindings db, ∀ b' ∈ q.bindings db, b.2 = b'.2 → b = b'
  sum : q.fn = .sum → ReadOnce db q.patterns fun σ => q.bound.map σ
  fits : ∀ n, q.fn.OverIndices (q.bindings db) (some n) → -2 ^ 63 ≤ n ∧ n < 2 ^ 63

end AggregateQuery

section Bindings

variable {db : Db} {q : AggregateQuery} {σ τ : Assignment} {patterns : List Pattern}
  {rows : List LogRow}

theorem TypedValue.integer_eq_some {v : TypedValue} {n : ℤ} (h : v.integer = some n) :
    v = .long (Int64.ofInt n) := by
  cases v with
  | long m =>
    cases h
    rw [Int64.ofInt_toInt]
  | _ => cases h

theorem exists_readTogether_of_plain (hplain : ∀ p ∈ patterns, p.Plain db)
    (hfour : ∀ p ∈ patterns, p.added = .placeholder) :
    (∃ rows, ReadTogether db σ patterns rows) ↔
      ∀ p ∈ patterns, ∃ r ∈ db.current, p.Matches db σ r := by
  rw [exists_readTogether_iff]
  refine forall₂_congr fun p hp => exists_congr fun r => and_congr_right fun _ => ?_
  exact (hplain p hp).reads_iff (hfour p hp)

namespace AggregateQuery

theorem eq_of_withVars_nil (hwith : q.withVars = []) :
    ∀ b ∈ q.bindings db, ∀ b' ∈ q.bindings db, b.2 = b'.2 → b = b' := by
  rintro ⟨b, n⟩ ⟨σ, -, hb, hn⟩ ⟨b', n'⟩ ⟨σ', -, hb', hn'⟩ h
  obtain rfl : n = n' := h
  have hvalue : σ q.x = σ' q.x := by
    rw [TypedValue.integer_eq_some hn, TypedValue.integer_eq_some hn']
  rw [Prod.mk.injEq, ← show q.bound.map σ = b from hb, ← show q.bound.map σ' = b' from hb', bound,
    hwith]
  exact ⟨congrArg (fun v => [v]) hvalue, rfl⟩

theorem Simple.map_congr (h : q.Simple db) (σ τ : Assignment)
    (hστ : ∀ y ∈ q.patterns.flatMap Pattern.vars, σ y = τ y) : q.bound.map σ = q.bound.map τ :=
  map_congr_left fun y hy => hστ y (h.visible y hy)

variable (hfour : ∀ p ∈ q.patterns, p.added = .placeholder)

include hfour

theorem Simple.indexedBy (h : q.Simple db) :
    IndexedBy db q.patterns q.x (fun σ => q.bound.map σ) (q.bindings db) := by
  refine ⟨h.visible q.x mem_cons_self, fun b n => ?_⟩
  constructor
  · rintro ⟨σ, hmatches, hb, hn⟩
    obtain ⟨rows, hrows⟩ := (exists_readTogether_of_plain h.constants hfour).mpr hmatches
    exact ⟨σ, rows, hrows, hb, hn⟩
  · rintro ⟨σ, rows, hrows, hb, hn⟩
    exact ⟨σ, (exists_readTogether_of_plain h.constants hfour).mp ⟨rows, hrows⟩, hb, hn⟩

variable (hfinite : (readIntegers db q.x q.patterns).Finite) {r : Option ℤ}

include hfinite

theorem Simple.overIndices_iff (h : q.Simple db)
    (hcount : q.fn = .count → ∀ b ∈ q.bindings db, ∀ b' ∈ q.bindings db, b.2 = b'.2 → b = b')
    (hsum : q.fn = .sum → ReadOnce db q.patterns fun σ => q.bound.map σ) :
    q.fn.OverIndices (q.bindings db) r ↔ q.fn.Of (readIntegers db q.x q.patterns) r := by
  have hindexed := h.indexedBy hfour
  have hbindings := hindexed.finite h.map_congr hfinite
  cases hfn : q.fn with
  | count =>
    rw [AggregateFn.OverIndices, (ncard_eq_ncard_values hbindings).mpr (hcount hfn),
      hindexed.values_eq]
    exact Iff.rfl
  | sum => exact hindexed.sum_iff h.map_congr (hsum hfn)
  | min =>
    have hne : AggregateFn.min ≠ .sum := by decide
    exact AggregateFn.of_congr_values hne hindexed.values_eq
  | max =>
    have hne : AggregateFn.max ≠ .sum := by decide
    exact AggregateFn.of_congr_values hne hindexed.values_eq

/-- A result over the bindings is one over the choices of datoms only in a plain query, if the
integers that are summed are positive. -/
theorem Simple.plain_of_overIndices (h : q.Simple db)
    (hpos : q.fn = .sum → ∀ b ∈ q.bindings db, 0 < b.2)
    (hinteger : ∀ σ rows, ReadTogether db σ q.patterns rows → ∃ n, (σ q.x).integer = some n)
    (hover : q.fn.OverIndices (q.bindings db) r)
    (hof : q.fn.Of (readIntegers db q.x q.patterns) r)
    (hfits : ∀ n, r = some n → -2 ^ 63 ≤ n ∧ n < 2 ^ 63) : q.Plain db := by
  have hindexed := h.indexedBy hfour
  refine { h with count := fun hfn => ?_, sum := fun hfn => ?_, fits := fun n hn => ?_ }
  · rw [hfn] at hover hof
    refine (ncard_eq_ncard_values (hindexed.finite h.map_congr hfinite)).mp ?_
    rw [hindexed.values_eq]
    exact_mod_cast Option.some.inj (Eq.trans (Eq.symm hover) hof)
  · rw [hfn] at hover hof
    obtain ⟨g, hg⟩ := hindexed.exists_choice
    have hpositive : ∀ p ∈ readIntegers db q.x q.patterns, 0 < p.2 := by
      intro p hp
      have hvalue : p.2 ∈ values (q.bindings db) := hindexed.values_eq ▸ ⟨p.1, hp⟩
      obtain ⟨b, hb⟩ := hvalue
      exact hpos hfn _ hb
    have hsurj := AggregateFn.surjOn_of_sum hfinite (hindexed.mapsTo hg)
      (IndexedBy.injOn h.map_congr hg) (fun p hp => (hg p hp).1) hpositive hover hof
    refine IndexedBy.readOnce_of_surjOn h.map_congr hg hsurj hindexed.var hinteger ?_
    exact fun σ τ hστ => (cons.inj hστ).1
  · exact hfits n (hover.unique hn)

omit hfinite in
theorem Simple.eq_of_showsNumber {fmt : FloatFormat} {r' : Option ℤ} (h : q.Simple db)
    (hover : q.fn.OverIndices (q.bindings db) r')
    (hof : q.fn.Of (readIntegers db q.x q.patterns) r)
    (hshows : ShowsNumber (resultValue fmt (r.map toString)) r') :
    r = r' ∧ ∀ n, r = some n → -2 ^ 63 ≤ n ∧ n < 2 ^ 63 := by
  cases r' with
  | some n =>
    obtain ⟨rfl, hbounds⟩ := fits_of_showsNumber hshows
    refine ⟨rfl, fun m hm => ?_⟩
    cases hm
    exact hbounds
  | none =>
    have hcount : q.fn ≠ .count := by
      intro hfn
      rw [hfn] at hover
      cases hover
    obtain ⟨-, hempty⟩ := ((AggregateFn.overIndices_iff hcount).mp hover).of_none
    have hempty : readIntegers db q.x q.patterns = ∅ := by
      rw [← values_eq_empty, ← (h.indexedBy hfour).values_eq, values_eq_empty, hempty]
    rw [hempty] at hof
    obtain rfl := hof.unique (AggregateFn.of_empty hcount)
    exact ⟨rfl, nofun⟩

end AggregateQuery

end Bindings

/-- Plain queries return the aggregate over the set of bindings, and no other simple query does if
the integers that are summed are positive. -/
theorem overBindings_iff_plain {db : Db} {q : AggregateQuery} {arm : ArmSelect}
    (fmt : FloatFormat) (ops : SqlOperators) (maxRows : Nat) (htyped : db.Typed)
    (hidents : db.PlainIdents) (hnodup : db.current.Nodup)
    (hfour : ∀ p ∈ q.patterns, p.added = .placeholder)
    (hlong : ∀ p ∈ q.patterns, p.HasLong db q.x)
    (hbuild : buildArm db.cache {} (.aggregate q.fn q.x) q.patterns = .ok arm)
    (hacc : arm.Accepted) :
    ∃ json, mentatAggregateQuery fmt ops maxRows {} q db = .ok [[json]] ∧
      (q.Plain db → q.OverBindings db json) ∧
      (q.Simple db → (q.fn = .sum → ∀ b ∈ q.bindings db, 0 < b.2) →
        (q.OverBindings db json ↔ q.Plain db)) := by
  obtain ⟨hfinite, r, hrows, hr⟩ :=
    aggregate_rows fmt ops htyped hidents hnodup hfour hlong hbuild hacc
  have hof := (hr r).mpr rfl
  have hresult : mentatAggregateQuery fmt ops maxRows {} q db =
      .ok [[resultValue fmt (r.map toString)]] := by
    unfold mentatAggregateQuery
    rw [hbuild]
    refine (if_pos hacc).trans ?_
    rw [hrows]
    refine (if_neg ?_).trans rfl
    rw [length_singleton]
    omega
  have hplain (h : q.Plain db) : q.OverBindings db (resultValue fmt (r.map toString)) := by
    have hover := (h.toSimple.overIndices_iff hfour hfinite h.count h.sum).mpr hof
    exact ⟨r, hover, showsNumber_of_fits fun n hn => h.fits n (hn ▸ hover)⟩
  refine ⟨_, hresult, hplain, fun h hpos => ⟨fun hbindings => ?_, hplain⟩⟩
  obtain ⟨r', hover, hshows⟩ := hbindings
  obtain ⟨rfl, hfits⟩ := h.eq_of_showsNumber hfour hover hof hshows
  refine h.plain_of_overIndices hfour hfinite hpos (fun σ rows hrows => ?_) hover hof hfits
  obtain ⟨m, hm⟩ := hrows.exists_long htyped hlong (h.visible q.x mem_cons_self)
  exact ⟨m.toInt, by rw [hm]; rfl⟩

/-- `[:find (fn ?n) :where [?e :person/age ?n]]`. -/
def overAgesQuery (fn : AggregateFn) : AggregateQuery where
  fn := fn
  x := "?n"
  patterns := [ageOf (.variable "?e")]

/-- `[:find (sum ?n) :where [?e :person/age ?n] [_ :person/age _]]`. -/
def sumAgesTwiceQuery : AggregateQuery where
  fn := .sum
  x := "?n"
  patterns := [ageOf (.variable "?e"), { attr := .ident (.namespaced "person" "age") }]

def Db.DifferentAges (db : Db) : Prop :=
  ∀ r ∈ db.current, ∀ r' ∈ db.current, db.attributeNamed (.namespaced "person" "age") = some r.a ∧
    db.attributeNamed (.namespaced "person" "age") = some r'.a ∧ r.v = r'.v → r = r'

instance (db : Db) : Decidable db.DifferentAges := inferInstanceAs (Decidable (∀ r ∈ _, _))

section Ages

variable {db : Db} {fn : AggregateFn}

theorem overAgesQuery_simple (db : Db) (fn : AggregateFn) : (overAgesQuery fn).Simple db := by
  refine ⟨fun p hp => ?_, fun y hy => ?_⟩
  · rw [mem_singleton.mp hp]
    exact ⟨nofun, nofun, nofun⟩
  · rw [show y = "?n" from mem_singleton.mp hy]
    show "?n" ∈ [ageOf (.variable "?e")].flatMap Pattern.vars
    decide

theorem overAgesQuery_fourPlaces : ∀ p ∈ (overAgesQuery fn).patterns, p.added = .placeholder := by
  show ∀ p ∈ [ageOf (.variable "?e")], _
  decide

theorem overAgesQuery_readOnce (hages : db.DifferentAges) :
    ReadOnce db (overAgesQuery fn).patterns fun σ => (overAgesQuery fn).bound.map σ := by
  intro σ τ rows rows' hrows hrows' hbound
  obtain ⟨row, _, ⟨hlive, -, ha, hv, -⟩, hnil, rfl⟩ := List.forall₂_cons_left_iff.mp hrows
  obtain ⟨row', _, ⟨hlive', -, ha', hv', -⟩, hnil', rfl⟩ := List.forall₂_cons_left_iff.mp hrows'
  obtain ⟨r, hr, rfl⟩ := mem_map.mp hlive
  obtain ⟨r', hr', rfl⟩ := mem_map.mp hlive'
  have hvalue : r.v = r'.v := (Eq.symm hv).trans ((List.cons.inj hbound).1.trans hv')
  rw [List.forall₂_nil_left_iff.mp hnil, List.forall₂_nil_left_iff.mp hnil',
    hages r hr r' hr' ⟨ha, ha', hvalue⟩]

theorem overIndices_overAgesQuery {arm : ArmSelect} {n : ℤ} (htyped : db.Typed)
    (hidents : db.PlainIdents) (hnodup : db.current.Nodup) (hages : db.DifferentAges)
    (hlong : (ageOf (.variable "?e")).HasLong db "?n")
    (hbuild : buildArm db.cache {} (.aggregate fn "?n") [ageOf (.variable "?e")] = .ok arm)
    (hacc : arm.Accepted)
    (hrows : arm.rows noDoubles noOperators db = some [[some (toString n)]]) {r : Option ℤ} :
    fn.OverIndices ((overAgesQuery fn).bindings db) r ↔ r = some n := by
  obtain ⟨hfinite, r', hr', hof⟩ := aggregate_rows noDoubles noOperators htyped hidents hnodup
    (by decide) (fun p hp => mem_singleton.mp hp ▸ hlong) hbuild hacc
  have htext : r'.map toString = (some n).map toString := by
    rw [hr'] at hrows
    exact (List.cons.inj (List.cons.inj (Option.some.inj hrows)).1).1
  obtain rfl := Option.map_injective toString_injective htext
  have hiff := (overAgesQuery_simple db fn).overIndices_iff (r := r) overAgesQuery_fourPlaces
    hfinite (fun _ => AggregateQuery.eq_of_withVars_nil rfl) fun _ => overAgesQuery_readOnce hages
  exact hiff.trans (hof r)

end Ages

/-- The number and the sum of two different ages. -/
theorem overBindings_iff_plain_ages :
    ∃ db, stateAfter [defineAge, agesCall] = some db ∧ ∀ fn ∈ [AggregateFn.count, .sum], ∃ json,
      mentatAggregateQuery noDoubles noOperators 0 {} (overAgesQuery fn) db = .ok [[json]] ∧
        (overAgesQuery fn).OverBindings db json := by
  have hstate : ∃ db ∈ stateAfter [defineAge, agesCall], db.Typed ∧ db.PlainIdents ∧
      db.current.Nodup ∧ db.DifferentAges ∧ (ageOf (.variable "?e")).HasLong db "?n" ∧
      ∀ fn ∈ [AggregateFn.count, .sum], ∃ arm,
        buildArm db.cache {} (.aggregate fn "?n") [ageOf (.variable "?e")] = .ok arm ∧
          arm.Accepted ∧ arm.rows noDoubles noOperators db =
            some [[some (toString (if fn = .count then 2 else 70 : ℤ))]] := by
    decide +kernel
  obtain ⟨db, hdb, htyped, hidents, hnodup, hages, hlong, harms⟩ := hstate
  refine ⟨db, hdb, fun fn hfn => ?_⟩
  obtain ⟨arm, harm, hacc, hrows⟩ := harms fn hfn
  obtain ⟨json, hresult, hplain, -⟩ := overBindings_iff_plain (q := overAgesQuery fn) noDoubles
    noOperators 0 htyped hidents hnodup overAgesQuery_fourPlaces
    (fun p hp => mem_singleton.mp hp ▸ hlong) harm hacc
  refine ⟨json, hresult, hplain
    { overAgesQuery_simple db fn with count := ?_, sum := ?_, fits := ?_ }⟩
  · exact fun _ => AggregateQuery.eq_of_withVars_nil rfl
  · exact fun _ => overAgesQuery_readOnce hages
  · intro n hn
    have hn := (overIndices_overAgesQuery htyped hidents hnodup hages hlong harm hacc hrows).mp hn
    rw [Option.some.inj hn]
    split <;> decide

/-- A pattern of placeholders that every solution satisfies doubles the sum. -/
theorem not_overBindings_placeholder :
    ∃ db, stateAfter [defineAge, agesCall] = some db ∧ db.Typed ∧ db.PlainIdents ∧
      db.current.Nodup ∧
      mentatAggregateQuery noDoubles noOperators 0 {} (overAgesQuery .sum) db =
        .ok [[.integer 70]] ∧
      mentatAggregateQuery noDoubles noOperators 0 {} sumAgesTwiceQuery db = .ok [[.integer 140]] ∧
      sumAgesTwiceQuery.bindings db = (overAgesQuery .sum).bindings db ∧
      AggregateFn.sum.OverIndices (sumAgesTwiceQuery.bindings db) (some 70) := by
  have hstate : ∃ db ∈ stateAfter [defineAge, agesCall], db.Typed ∧ db.PlainIdents ∧
      db.current.Nodup ∧ db.DifferentAges ∧ (ageOf (.variable "?e")).HasLong db "?n" ∧
      (∃ arm, buildArm db.cache {} (.aggregate .sum "?n") [ageOf (.variable "?e")] = .ok arm ∧
        arm.Accepted ∧ arm.rows noDoubles noOperators db = some [[some (toString (70 : ℤ))]]) ∧
      mentatAggregateQuery noDoubles noOperators 0 {} (overAgesQuery .sum) db =
        .ok [[.integer 70]] ∧
      mentatAggregateQuery noDoubles noOperators 0 {} sumAgesTwiceQuery db =
        .ok [[.integer 140]] := by
    decide +kernel
  obtain ⟨db, hdb, htyped, hidents, hnodup, hages, hlong, ⟨arm, harm, hacc, hrows⟩, hsum, htwice⟩ :=
    hstate
  have hbindings : sumAgesTwiceQuery.bindings db = (overAgesQuery .sum).bindings db := by
    ext b
    refine exists_congr fun σ => and_congr_left fun _ => ?_
    constructor
    · intro h p hp
      exact h p (mem_of_mem_head? (mem_singleton.mp hp ▸ rfl))
    · intro h p hp
      rcases mem_pair.mp hp with rfl | rfl
      · exact h _ mem_cons_self
      · obtain ⟨r, hr, -, ha, -⟩ := h _ mem_cons_self
        exact ⟨r, hr, trivial, ha, trivial, trivial⟩
  refine ⟨db, hdb, htyped, hidents, hnodup, hsum, htwice, hbindings, ?_⟩
  rw [hbindings]
  exact (overIndices_overAgesQuery htyped hidents hnodup hages hlong harm hacc hrows).mpr rfl

end PgMentat

import PgMentat.Query.Correct
import PgMentat.Run
import Mathlib.Data.Set.Basic

namespace PgMentat

open List Unification

/-- Every value in the projection has the type that its attribute declares. -/
def Db.Typed (db : Db) : Prop :=
  ∀ r ∈ db.current, ∀ t ∈ db.declaredType r.a, r.v.valueType = t

instance (db : Db) : Decidable db.Typed :=
  inferInstanceAs (Decidable (∀ r ∈ db.current, ∀ t ∈ db.declaredType r.a, r.v.valueType = t))

/-- The answers of a query as the compiler reads it. -/
def Query.ReadAnswers (db : Db) (R : CurrentRow → Prop) (q : Query) (row : List TypedValue) :
    Prop :=
  ∃ σ, (∀ p ∈ q.patterns, ∃ r, R r ∧ p.Reads db σ r.live) ∧ q.find.map σ = row

def results (fmt : FloatFormat) (answers : List TypedValue → Prop) : Set (List Json) :=
  {row | ∃ answer, answers answer ∧ answer.map (TypedValue.json fmt) = row}

/-- The compiler's reading of the query has the answers of the query. -/
def Query.ReadAsMeant (fmt : FloatFormat) (db : Db) (q : Query) : Prop :=
  results fmt (q.ReadAnswers db (· ∈ db.current)) = results fmt (q.Answers db (· ∈ db.current))

def PatternNonValuePlace.IsConstant : PatternNonValuePlace → Prop
  | .entid _ | .ident _ => True
  | .variable _ | .placeholder => False

/-- No ident stands for a transaction; an integer value has a constant attribute, and a keyword
value one that is not a ref. -/
structure Pattern.Plain (db : Db) (p : Pattern) : Prop where
  tx : ∀ k, p.tx ≠ .ident k
  integer : ∀ i, p.value = .entidOrInteger i → p.attr.IsConstant
  keyword : ∀ k, p.value = .identOrKeyword k →
    p.attr.IsConstant ∧ resolvePatternValueType db.cache p.attr ≠ some .ref

def Query.Plain (db : Db) (q : Query) : Prop := ∀ p ∈ q.patterns, p.Plain db

section Sees

variable {db : Db} {p : Pattern} {σ : Assignment}

theorem mem_datoms_current {r : LogRow} :
    r ∈ db.datoms (TemporalOption.useProjection {}) ↔ ∃ x ∈ db.current, x.live = r :=
  mem_map

theorem sees_live (hidents : db.PlainIdents) {x : CurrentRow} (hx : x ∈ db.current)
    (ha : p.attr.Denotes db.attributeNamed σ x.a)
    (htype : ∀ t ∈ resolvePatternValueType db.cache p.attr, x.v.valueType = t) :
    p.Sees db {} x.live := by
  refine ⟨mem_patternSource.mpr ⟨mem_datoms_current.mpr ⟨x, hx, rfl⟩, fun t ht => ?_⟩, ?_⟩
  · exact ⟨htype t ht, fun _ => rfl, pushdown_of_denotes hidents ha⟩
  · exact ⟨fun _ => rfl, nofun, nofun⟩

theorem exists_sees_iff (hidents : db.PlainIdents) :
    (∃ r, p.Sees db {} r ∧ p.Reads db σ r) ↔
      ∃ x, (x ∈ db.current ∧ ∀ t ∈ resolvePatternValueType db.cache p.attr, x.v.valueType = t) ∧
        p.Reads db σ x.live := by
  constructor
  · rintro ⟨r, ⟨hsource, -⟩, hreads⟩
    obtain ⟨hmem, htype⟩ := mem_patternSource.mp hsource
    obtain ⟨x, hx, rfl⟩ := mem_datoms_current.mp hmem
    exact ⟨x, ⟨hx, fun t ht => (htype t ht).1⟩, hreads⟩
  · rintro ⟨x, ⟨hx, htype⟩, hreads⟩
    exact ⟨x.live, sees_live hidents hx hreads.2.1 htype, hreads⟩

theorem Db.Typed.exists_sees_iff (htyped : db.Typed) (hidents : db.PlainIdents) :
    (∃ r, p.Sees db {} r ∧ p.Reads db σ r) ↔ ∃ x ∈ db.current, p.Reads db σ x.live := by
  rw [PgMentat.exists_sees_iff hidents]
  constructor
  · rintro ⟨x, ⟨hx, -⟩, hreads⟩
    exact ⟨x, hx, hreads⟩
  · rintro ⟨x, hx, hreads⟩
    exact ⟨x, ⟨hx, fun t ht => htyped x hx t (declaredType_of_denotes ht hreads.2.1)⟩, hreads⟩

end Sees

section Reads

variable {db : Db} {p : Pattern} {σ : Assignment} {r : CurrentRow}

theorem PatternNonValuePlace.IsConstant.denotes_inj {place : PatternNonValuePlace}
    {named : Keyword → Option Int64} {a a' : Int64} (hconst : place.IsConstant)
    (h : place.Denotes named σ a) (h' : place.Denotes named σ a') : a = a' := by
  cases place with
  | placeholder | «variable» x => exact hconst.elim
  | entid id => exact Eq.trans (Eq.symm h) h'
  | ident k => exact Option.some.inj (Eq.trans (Eq.symm h) h')

theorem resolvePatternValueType_of_constant {place : PatternNonValuePlace} {a : Int64}
    (hconst : place.IsConstant) (ha : place.Denotes db.attributeNamed σ a) :
    resolvePatternValueType db.cache place = db.declaredType a := by
  cases place with
  | placeholder | «variable» x => exact hconst.elim
  | entid id =>
    rw [← show id = a from ha]
    rfl
  | ident k =>
    rw [resolvePatternValueType, resolveIdent_of_attributeNamed ha]
    rfl

theorem Pattern.Plain.reads_iff (hplain : p.Plain db) (hadded : p.added = .placeholder) :
    p.Reads db σ r.live ↔ p.Matches db σ r := by
  unfold Pattern.Reads Pattern.Matches
  refine and_congr_right fun _ => and_congr_right fun ha => ?_
  rw [hadded, and_iff_left (show PatternNonValuePlace.ReadsAdded σ _ .placeholder from trivial)]
  refine and_congr ?_ ?_
  · cases hvalue : p.value with
    | entidOrInteger i =>
      have htype := resolvePatternValueType_of_constant (hplain.integer i hvalue) ha
      rw [PatternValuePlace.Reads, PatternValuePlace.Denotes, htype]
      rfl
    | identOrKeyword k =>
      obtain ⟨hconst, hnot⟩ := hplain.keyword k hvalue
      have htype := resolvePatternValueType_of_constant (a := r.a) hconst ha
      rw [PatternValuePlace.Reads, PatternValuePlace.Denotes, if_neg (htype ▸ hnot)]
      rfl
    | _ => exact Iff.rfl
  · cases htx : p.tx with
    | ident k => exact absurd htx (hplain.tx k)
    | _ => exact Iff.rfl

theorem Query.Plain.readAnswers_iff {q : Query} (hplain : q.Plain db) (hfour : q.FourPlaces)
    {R : CurrentRow → Prop} {row : List TypedValue} :
    q.ReadAnswers db R row ↔ q.Answers db R row := by
  have hpattern (σ : Assignment) (p : Pattern) (hp : p ∈ q.patterns) :
      (∃ r, R r ∧ p.Reads db σ r.live) ↔ ∃ r, R r ∧ p.Matches db σ r := by
    simp only [(hplain p hp).reads_iff (hfour p hp)]
  constructor
  · rintro ⟨σ, hpatterns, hrow⟩
    exact ⟨σ, fun p hp => (hpattern σ p hp).mp (hpatterns p hp), hrow⟩
  · rintro ⟨σ, hpatterns, hrow⟩
    exact ⟨σ, fun p hp => (hpattern σ p hp).mpr (hpatterns p hp), hrow⟩

end Reads

section Result

variable {fmt : FloatFormat} {maxRows : Nat} {temporal : TemporalOption} {db : Db} {q : Query}
  {s : Select}

def Select.json (s : Select) (fmt : FloatFormat) (db : Db) : List (List Json) :=
  (s.rows fmt db).map fun row => row.map (resultValue fmt)

theorem mentatQuery_eq (hbuild : buildExtendedPatternQuery db.cache temporal q = .ok s)
    (hacc : s.Accepted) :
    mentatQuery fmt maxRows temporal q db =
      if 0 < maxRows ∧ maxRows < (s.json fmt db).length then .error (.resultLimitExceeded maxRows)
      else .ok (s.json fmt db) := by
  unfold mentatQuery
  rw [hbuild, Select.json, length_map]
  exact if_pos hacc

theorem mem_json_iff (hbuild : buildExtendedPatternQuery db.cache temporal q = .ok s)
    (hacc : s.Accepted) {R : CurrentRow → Prop}
    (hsees : ∀ σ, ∀ p ∈ q.patterns, (∃ r, p.Sees db temporal r ∧ p.Reads db σ r) ↔
      ∃ x, R x ∧ p.Reads db σ x.live) :
    {row | row ∈ s.json fmt db} = results fmt (q.ReadAnswers db R) := by
  ext row
  simp only [Set.mem_ofPred_eq, Select.json, mem_map, mem_rows_iff hbuild hacc, results]
  constructor
  · rintro ⟨_, ⟨σ, hpatterns, rfl⟩, rfl⟩
    refine ⟨q.find.map σ, ⟨σ, fun p hp => (hsees σ p hp).mp (hpatterns p hp), rfl⟩, ?_⟩
    rw [map_map, map_map]
    rfl
  · rintro ⟨_, ⟨σ, hpatterns, rfl⟩, rfl⟩
    refine ⟨_, ⟨σ, fun p hp => (hsees σ p hp).mpr (hpatterns p hp), rfl⟩, ?_⟩
    rw [map_map, map_map]
    rfl

/-- A query at the current time returns the answers of the query as the compiler reads it. These
are the answers of the query if it is plain. -/
theorem mentatQuery_answers_iff (fmt : FloatFormat) (maxRows : Nat) (htyped : db.Typed)
    (hidents : db.PlainIdents) (hfour : q.FourPlaces)
    (hbuild : buildExtendedPatternQuery db.cache {} q = .ok s) (hacc : s.Accepted) :
    ∃ rows : List (List Json),
      mentatQuery fmt maxRows {} q db =
        (if 0 < maxRows ∧ maxRows < rows.length then .error (.resultLimitExceeded maxRows)
        else .ok rows) ∧
      ({row | row ∈ rows} = results fmt (q.Answers db (· ∈ db.current)) ↔ q.ReadAsMeant fmt db) ∧
      (q.Plain db → {row | row ∈ rows} = results fmt (q.Answers db (· ∈ db.current))) := by
  have hrows : {row | row ∈ s.json fmt db} = results fmt (q.ReadAnswers db (· ∈ db.current)) :=
    mem_json_iff hbuild hacc fun σ p _ => htyped.exists_sees_iff hidents
  refine ⟨s.json fmt db, mentatQuery_eq hbuild hacc, ?_, fun hplain => ?_⟩
  · rw [hrows, Query.ReadAsMeant]
  · rw [hrows]
    congr 1
    ext row
    exact hplain.readAnswers_iff hfour

end Result

def noDoubles : FloatFormat := ⟨fun _ => 0, fun _ => .zero, fun _ => .zero, fun _ _ => rfl⟩

/-- Entity 500 has a doc string and refers to `:db.type/ref`. -/
def describeCall : Call :=
  plainCall 1000000000001 1735689600000000
    [addDatom 500 Entids.dbDoc (.text "x"), addDatom 500 Entids.dbValueType (.integer 70)]

/-- `[:find ?v :where [?e 11 70] [?e :db/doc ?v]]`. -/
def docOfRefQuery : Query where
  find := ["?v"]
  patterns :=
    [{ entity := .variable "?e", attr := .entid Entids.dbValueType, value := .entidOrInteger 70 },
     { entity := .variable "?e", attr := .ident (.namespaced "db" "doc"), value := .variable "?v" }]

instance (q : Query) : Decidable q.FourPlaces :=
  inferInstanceAs (Decidable (∀ p ∈ q.patterns, p.added = .placeholder))

/-- A join over an entity that is found by an integer. -/
theorem mentatQuery_answers_iff_doc :
    ∃ db rows, stateAfter [describeCall] = some db ∧
      mentatQuery noDoubles 0 {} docOfRefQuery db = .ok rows ∧
      {row | row ∈ rows} = results noDoubles (docOfRefQuery.Answers db (· ∈ db.current)) := by
  have hstate : ∃ db ∈ stateAfter [describeCall], db.Typed ∧ db.PlainIdents ∧
      ∃ s, buildExtendedPatternQuery db.cache {} docOfRefQuery = .ok s ∧ s.Accepted := by
    decide +kernel
  obtain ⟨db, hdb, htyped, hidents, s, hs, hacc⟩ := hstate
  obtain ⟨rows, hrows, -, hplain⟩ :=
    mentatQuery_answers_iff noDoubles 0 htyped hidents (by decide) hs hacc
  refine ⟨db, rows, hdb, hrows, hplain fun p hp => ?_⟩
  rcases mem_pair.mp hp with rfl | rfl
  · exact ⟨nofun, fun _ _ => trivial, nofun⟩
  · exact ⟨nofun, nofun, nofun⟩

/-- `[:find ?e :where [?e :db/doc ?v :tx/none]]`. -/
def docOfTxQuery : Query where
  find := ["?e"]
  patterns :=
    [{ entity := .variable "?e", attr := .ident (.namespaced "db" "doc"), value := .variable "?v",
       tx := .ident (.namespaced "tx" "none") }]

/-- `[:find ?e :where [?e :db/valueType :db.type/ref]]`. -/
def valueTypeQuery : Query where
  find := ["?e"]
  patterns :=
    [{ entity := .variable "?e", attr := .ident (.namespaced "db" "valueType"),
       value := .identOrKeyword (.namespaced "db.type" "ref") }]

/-- An ident in the place of the transaction is passed over, and one in the place of a ref is
taken for a keyword. -/
theorem mentatQuery_misreads_idents :
    ∃ db, stateAfter [describeCall] = some db ∧ db.Typed ∧ db.PlainIdents ∧
      mentatQuery noDoubles 0 {} docOfTxQuery db = .ok [[.integer 500]] ∧
      (∀ answer, ¬ docOfTxQuery.Answers db (· ∈ db.current) answer) ∧
      mentatQuery noDoubles 0 {} valueTypeQuery db = .ok [] ∧
      valueTypeQuery.Answers db (· ∈ db.current) [.ref 500] := by
  have hstate : ∃ db ∈ stateAfter [describeCall], db.Typed ∧ db.PlainIdents ∧
      mentatQuery noDoubles 0 {} docOfTxQuery db = .ok [[.integer 500]] ∧
      mentatQuery noDoubles 0 {} valueTypeQuery db = .ok [] ∧
      db.named (.namespaced "tx" "none") = none ∧
      (∃ r ∈ db.current, r.e = 500 ∧ db.attributeNamed (.namespaced "db" "valueType") = some r.a ∧
        db.declaredType r.a = some .ref ∧ db.named (.namespaced "db.type" "ref") = some 70 ∧
        r.v = .ref 70) := by
    decide +kernel
  obtain ⟨db, hdb, htyped, hidents, htx, href, hnone, r, hr, hre, hra, htype, hnamed, hrv⟩ := hstate
  refine ⟨db, hdb, htyped, hidents, htx, ?_, href, ?_⟩
  · rintro answer ⟨σ, hpatterns, -⟩
    obtain ⟨x, -, -, -, -, htx⟩ := hpatterns _ mem_cons_self
    exact absurd (hnone.symm.trans htx) nofun
  · refine ⟨fun _ => .ref 500, fun p hp => ⟨r, hr, ?_⟩, rfl⟩
    rw [mem_singleton.mp hp]
    refine ⟨by rw [hre]; rfl, hra, ?_, trivial⟩
    rw [PatternValuePlace.Denotes, if_pos htype]
    exact ⟨70, hnamed, hrv⟩

end PgMentat

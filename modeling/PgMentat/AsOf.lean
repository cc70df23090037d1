import PgMentat.History

namespace PgMentat

open LatestWins

def TemporalOption.atTx (tx : Int64) : TemporalOption := { asOf := some tx }

/-- The datoms that replaying the log up to a transaction leaves. -/
def Db.ReplayedAt (db : Db) (tx : Int64) (x : CurrentRow) : Prop :=
  HoldsAt LogRow.triple (fun r => r.tx.toInt) LogRow.added db.log tx.toInt x.live

/-- The values of a many-valued attribute were all asserted in one transaction. -/
def Db.ManyTogether (db : Db) (tx : Int64) : Prop :=
  ∀ r ∈ db.log, ∀ r' ∈ db.log, r.added = true ∧ r'.added = true ∧ r'.ea = r.ea ∧ r.tx ≤ tx ∧
    r'.tx ≤ tx → db.DeclaredOne r.a ∨ r'.tx = r.tx

section Sees

variable {db : Db} {p : Pattern} {σ : Assignment} {tx : Int64} {r : LogRow} {a : Int64}

variable {place : PatternNonValuePlace}

theorem isCardinalityMany_eq_any (hconst : place.IsConstant)
    (ha : place.Denotes db.attributeNamed σ a) :
    isCardinalityMany db.cache place =
      (db.cache.getAttribute a).any fun info => info.cardinality = .many := by
  cases place with
  | placeholder | «variable» x => exact hconst.elim
  | entid id =>
    rw [← show id = a from ha]
    rfl
  | ident k =>
    rw [isCardinalityMany, resolveIdent_of_attributeNamed ha]
    rfl

theorem isCardinalityMany_eq_false_iff (hconst : place.IsConstant)
    (ha : place.Denotes db.attributeNamed σ a) :
    isCardinalityMany db.cache place = false ↔ db.DeclaredOne a := by
  rw [isCardinalityMany_eq_any hconst ha, Db.DeclaredOne]
  cases db.cache.getAttribute a with
  | none => simp
  | some info => cases hcard : info.cardinality <;> simp [hcard]

theorem isCardinalityMany_of_not_constant (hconst : ¬ place.IsConstant) :
    isCardinalityMany db.cache place = false := by
  cases place with
  | placeholder | «variable» x => rfl
  | entid id | ident k => exact absurd trivial hconst

theorem Db.History.type_eq (hinv : db.History) (hr : r ∈ db.log) (hadded : r.added = true)
    (ha : p.attr.Denotes db.attributeNamed σ r.a) :
    ∀ t ∈ resolvePatternValueType db.cache p.attr, r.v.valueType = t := by
  intro t ht
  have htyped : db.declaredType r.a = some r.v.valueType := hinv.typed r hr hadded
  exact Option.some.inj (htyped.symm.trans (declaredType_of_denotes ht ha))

theorem Db.History.sees_iff (hinv : db.History) (hidents : db.PlainIdents)
    (hattr : p.attr.IsConstant ∨ db.ManyTogether tx)
    (ha : p.attr.Denotes db.attributeNamed σ r.a) :
    p.Sees db (.atTx tx) r ↔
      HoldsAt LogRow.triple (fun r => r.tx.toInt) LogRow.added db.log tx.toInt r := by
  have hgroup (x y : LogRow) (h : x.triple = y.triple) : x.ea = y.ea := by
    simp only [LogRow.triple, Prod.mk.injEq] at h
    rw [LogRow.ea, LogRow.ea, h.1, h.2.1]
  constructor
  · rintro ⟨hsource, hadded, hasOf, -⟩
    have hr : r ∈ db.log := (mem_patternSource.mp hsource).1
    have hadded : r.added = true := hadded rfl
    obtain ⟨htx, hnewer⟩ := hasOf tx rfl
    by_cases hone : db.DeclaredOne r.a
    · rw [hinv.serial.holdsAt_of_single hgroup hr hadded (Int64.le_iff_toInt_le.mp htx) hone]
      intro r' hr' hadded' hea htx'
      by_contra hlater
      obtain ⟨he', ha'⟩ := Prod.mk.inj hea
      have hfiltered : isCardinalityMany db.cache p.attr = false := by
        by_cases hconst : p.attr.IsConstant
        · exact (isCardinalityMany_eq_false_iff hconst ha).mpr hone
        · exact isCardinalityMany_of_not_constant hconst
      refine hnewer hfiltered r' (mem_newerRows.mpr ⟨hr', ?_⟩) ⟨he', ha', hadded', ?_, ?_⟩
      · exact hinv.type_eq hr' hadded' (ha' ▸ ha)
      · exact Int64.lt_iff_toInt_lt.mpr (lt_of_not_ge hlater)
      · exact Int64.le_iff_toInt_le.mpr htx'
    · exact hinv.serial.holdsAt_of_not_single hr hadded (Int64.le_iff_toInt_le.mp htx) hone
  · intro hholds
    obtain ⟨hr, hadded, htx, -⟩ := id hholds
    refine ⟨mem_patternSource.mpr ⟨hr, fun t ht => ?_⟩, fun _ => hadded, ?_, ?_⟩
    rotate_right
    · exact fun t ht => absurd ht (Option.not_mem_none t)
    · exact ⟨hinv.type_eq hr hadded ha t ht, fun _ => hadded, pushdown_of_denotes hidents ha⟩
    rintro _ ⟨⟩
    refine ⟨Int64.le_iff_toInt_le.mpr htx, fun hfiltered newer hnewer hsup => ?_⟩
    obtain ⟨he', ha', hadded', hlt, hle⟩ := hsup
    have hnewer := (mem_newerRows.mp hnewer).1
    have hea : newer.ea = r.ea := Prod.ext he' ha'
    have hlt := Int64.lt_iff_toInt_lt.mp hlt
    -- the newer row would be of a single-valued attribute, which it would have replaced
    have hone : db.DeclaredOne r.a := by
      rcases hattr with hconst | htogether
      · exact (isCardinalityMany_eq_false_iff hconst ha).mp hfiltered
      · refine (htogether r hr newer hnewer
          ⟨hadded, hadded', hea, Int64.le_iff_toInt_le.mpr htx, hle⟩).resolve_right fun heq => ?_
        rw [heq] at hlt
        exact lt_irrefl _ hlt
    have hmax := (hinv.serial.holdsAt_of_single hgroup hr hadded htx hone).mp hholds
    have hle := hmax newer hnewer hadded' hea (Int64.le_iff_toInt_le.mp hle)
    omega

theorem Db.History.exists_sees_iff (hinv : db.History) (hidents : db.PlainIdents)
    (hattr : p.attr.IsConstant ∨ db.ManyTogether tx) :
    (∃ r, p.Sees db (.atTx tx) r ∧ p.Reads db σ r) ↔
      ∃ x, db.ReplayedAt tx x ∧ p.Reads db σ x.live := by
  constructor
  · rintro ⟨r, hsees, hreads⟩
    have hholds := (hinv.sees_iff hidents hattr hreads.2.1).mp hsees
    have hlive : (⟨r.e, r.a, r.v, r.tx⟩ : CurrentRow).live = r := by
      cases r
      simp only [CurrentRow.live, LogRow.mk.injEq, true_and]
      exact hholds.2.1.symm
    exact ⟨⟨r.e, r.a, r.v, r.tx⟩, by rwa [Db.ReplayedAt, hlive], by rwa [hlive]⟩
  · rintro ⟨x, hx, hreads⟩
    exact ⟨x.live, (hinv.sees_iff hidents hattr hreads.2.1).mpr hx, hreads⟩

end Sees

/-- In every run whose calls add to the history, a plain query as of a transaction returns the
answers over the datoms that replaying the log up to the transaction leaves, if its attributes are
constants or the values of many-valued attributes were asserted together. -/
theorem mentatQuery_asOf_replays (fmt : FloatFormat) (maxRows : Nat) {db : Db} {tx : Int64}
    {q : Query} {s : Select} (hrun : Reaches HistoryStep bootstrapDb db) (hidents : db.PlainIdents)
    (hfour : q.FourPlaces) (hplain : q.Plain db)
    (hattrs : ∀ p ∈ q.patterns, p.attr.IsConstant ∨ db.ManyTogether tx)
    (hbuild : buildExtendedPatternQuery db.cache (.atTx tx) q = .ok s) (hacc : s.Accepted) :
    ∃ rows : List (List Json),
      mentatQuery fmt maxRows (.atTx tx) q db =
        (if 0 < maxRows ∧ maxRows < rows.length then .error (.resultLimitExceeded maxRows)
        else .ok rows) ∧
      {row | row ∈ rows} = results fmt (q.Answers db (db.ReplayedAt tx)) := by
  have hinv := history_of_reaches hrun
  refine ⟨s.json fmt db, mentatQuery_eq hbuild hacc, ?_⟩
  rw [mem_json_iff hbuild hacc fun σ p hp => hinv.exists_sees_iff hidents (hattrs p hp)]
  congr 1
  ext row
  exact hplain.readAnswers_iff hfour

def replaceDoc : Call :=
  plainCall 1000000000002 1735689601000000
    [retractDatom 500 Entids.dbDoc (.text "first"), addDatom 500 Entids.dbDoc (.text "second")]

/-- A doc string before and after it is replaced. -/
theorem mentatQuery_asOf_replays_doc :
    ∃ db rows, stateAfter [firstDoc, replaceDoc] = some db ∧
      mentatQuery noDoubles 0 (.atTx 1000000000001) (valueQuery 500 docAttribute) db = .ok rows ∧
      {row | row ∈ rows} = results noDoubles
        ((valueQuery 500 docAttribute).Answers db (db.ReplayedAt 1000000000001)) := by
  have hmeets : RunMeets HistoryStep [firstDoc, replaceDoc] bootstrapDb := by
    decide +kernel
  have hstate : ∃ db, stateAfter [firstDoc, replaceDoc] = some db ∧ db.PlainIdents ∧
      ∃ s, buildExtendedPatternQuery db.cache (.atTx 1000000000001)
        (valueQuery 500 docAttribute) = .ok s ∧ s.Accepted := by
    decide +kernel
  obtain ⟨db, hdb, hrun, hidents, s, hs, hacc⟩ := hmeets.exists_reaches hstate
  have hplain : (valueQuery 500 docAttribute).Plain db := by
    intro p hp
    rw [List.mem_singleton.mp hp]
    exact ⟨nofun, nofun, nofun⟩
  have hconst (p : Pattern) (hp : p ∈ (valueQuery 500 docAttribute).patterns) :
      p.attr.IsConstant ∨ db.ManyTogether 1000000000001 := by
    rw [List.mem_singleton.mp hp]
    exact .inl trivial
  obtain ⟨rows, hrows, hanswers⟩ := mentatQuery_asOf_replays noDoubles 0 hrun hidents (by decide)
    hplain hconst hs hacc
  exact ⟨db, rows, hdb, hrows, hanswers⟩

def addDocX : Call :=
  plainCall 1000000000001 1735689600000000 [addDatom 500 Entids.dbDoc (.text "x")]

def retractDocX : Call :=
  plainCall 1000000000002 1735689601000000 [retractDatom 500 Entids.dbDoc (.text "x")]

/-- `61` is `:db.install/attribute`, a many-valued ref. -/
def installCalls : List Call :=
  [plainCall 1000000000001 1735689600000000 [addDatom 500 61 (.integer 10)],
   plainCall 1000000000002 1735689601000000 [addDatom 500 61 (.integer 11)]]

/-- A doc string is still found as of the transaction that retracts it, and next to a variable
attribute only the newest value of a many-valued one is. -/
theorem mentatQuery_asOf_diverges :
    (∃ db, stateAfter [addDocX, retractDocX] = some db ∧
      mentatQuery noDoubles 0 (.atTx 1000000000002) (valueQuery 500 docAttribute) db =
        .ok [[.string "x"]] ∧
      ∀ answer, ¬ (valueQuery 500 docAttribute).Answers db (db.ReplayedAt 1000000000002) answer) ∧
    ∃ db, stateAfter installCalls = some db ∧
      mentatQuery noDoubles 0 (.atTx 1000000000002) (valueQuery 500 (.variable "?a")) db =
        .ok [[.integer 11]] ∧
      (valueQuery 500 (.variable "?a")).Answers db (db.ReplayedAt 1000000000002) [.ref 10] := by
  constructor
  · have hstate : ∃ db, stateAfter [addDocX, retractDocX] = some db ∧
        mentatQuery noDoubles 0 (.atTx 1000000000002) (valueQuery 500 docAttribute) db =
          .ok [[.string "x"]] ∧
        db.attributeNamed (.namespaced "db" "doc") = some Entids.dbDoc ∧
        ∀ r ∈ db.log, r.e = 500 ∧ r.a = Entids.dbDoc ∧ r.added = true →
          ∃ z ∈ db.log, z.triple = r.triple ∧ z.tx ≤ 1000000000002 ∧ r.tx < z.tx := by
      decide +kernel
    obtain ⟨db, hdb, hrows, hnamed, hretracted⟩ := hstate
    refine ⟨db, hdb, hrows, ?_⟩
    rintro answer ⟨σ, hpatterns, -⟩
    obtain ⟨x, ⟨hx, -, -, hmax⟩, he, ha, -⟩ := hpatterns _ List.mem_cons_self
    obtain ⟨z, hz, hk, hle, hlt⟩ := hretracted x.live hx
      ⟨Eq.symm he, Option.some.inj (Eq.trans (Eq.symm ha) hnamed), rfl⟩
    exact absurd (hmax z hz hk (Int64.le_iff_toInt_le.mp hle))
      (not_le_of_gt (Int64.lt_iff_toInt_lt.mp hlt))
  · have hstate : ∃ db, stateAfter installCalls = some db ∧
        mentatQuery noDoubles 0 (.atTx 1000000000002) (valueQuery 500 (.variable "?a")) db =
          .ok [[.integer 11]] ∧
        (⟨500, 61, .ref 10, 1000000000001, true⟩ : LogRow) ∈ db.log ∧
        ∀ r ∈ db.log, r.triple = (500, 61, .ref 10) → r.tx = 1000000000001 := by
      decide +kernel
    obtain ⟨db, hdb, hrows, hmem, honly⟩ := hstate
    refine ⟨db, hdb, hrows, fun x => if x = "?a" then .ref 61 else .ref 10, fun p hp => ?_, rfl⟩
    refine ⟨⟨500, 61, .ref 10, 1000000000001⟩, ⟨hmem, rfl, by decide, fun r hr hk _ => ?_⟩, ?_⟩
    · exact le_of_eq (congrArg Int64.toInt (honly r hr hk))
    · rw [List.mem_singleton.mp hp]
      exact ⟨rfl, rfl, rfl, trivial⟩

end PgMentat

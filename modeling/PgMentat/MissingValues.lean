import PgMentat.Query.GetElse
import PgMentat.Disjunction

namespace PgMentat

open List Unification

/-- The entity that an assignment gives to a variable has a live value of the attribute. -/
def Db.HasValue (db : Db) (σ : Assignment) (x : String) (k : Keyword) (v : TypedValue) : Prop :=
  ∃ r ∈ db.current, σ x = .ref r.e ∧ db.attributeNamed k = some r.a ∧ v = r.v

def Query.Solution (q : Query) (db : Db) (σ : Assignment) : Prop :=
  ∀ p ∈ q.patterns, ∃ r ∈ db.current, p.Reads db σ r.live

/-- Data patterns and `[(missing? $ ?x k)]` clauses. -/
structure MissingQuery extends Query where
  missing : List (String × Keyword)
  deriving DecidableEq, Repr

def MissingQuery.extended (q : MissingQuery) : ExtendedQuery :=
  { q.toQuery with predicates := q.missing.map fun m =>
      ⟨"missing?", [.srcVar, .variable m.1, .identOrKeyword m.2]⟩ }

/-- A row of the data patterns is kept exactly if none of the values is there. -/
def MissingQuery.KeepsMissing (q : MissingQuery) (s : ExtendedSelect) (ops : SqlOperators)
    (db : Db) : Prop :=
  ∀ joined ∈ s.toSelect.joined db, ∀ σ, ReadTogether db σ q.patterns joined →
    (joined ∈ s.joined ops db ↔ ∀ m ∈ q.missing, ∀ v, ¬ db.HasValue σ m.1 m.2 v)

/-- Data patterns and `[(get-else $ ?e attr default) ?x]`. -/
structure ElseQuery extends Query where
  entity : String
  attr : Keyword
  default : DefaultValue
  result : String
  deriving DecidableEq, Repr

def DefaultValue.arg : DefaultValue → FnArg
  | integer i => .entidOrInteger i
  | text s => .constant (.text s)
  | float f => .constant (.float f)
  | boolean b => .constant (.boolean b)
  | keyword k => .identOrKeyword k

def DefaultValue.typed : DefaultValue → TypedValue
  | integer i => .long i
  | text s => .text s
  | float f => .double f
  | boolean b => .boolean b
  | keyword k => .keyword k.stored

namespace ElseQuery

def getElse (q : ElseQuery) : GetElseQuery :=
  { q.toQuery with getElse :=
      [⟨[.srcVar, .variable q.entity, .identOrKeyword q.attr, q.default.arg],
        .bindScalar q.result⟩] }

/-- The live value, or the default if there is none. -/
def Gets (q : ElseQuery) (db : Db) (σ : Assignment) (v : TypedValue) : Prop :=
  db.HasValue σ q.entity q.attr v ∨
    ((∀ w, ¬ db.HasValue σ q.entity q.attr w) ∧ v = q.default.typed)

def row (q : ElseQuery) (fmt : FloatFormat) (σ : Assignment) (result : Json) : List Json :=
  q.find.map fun y => if y = q.result then result else (σ y).json fmt

/-- Every solution yields the row with the live value or the default, and nothing else. -/
def GetsOrElse (q : ElseQuery) (fmt : FloatFormat) (db : Db) (rows : List (List Json)) : Prop :=
  {row | row ∈ rows} =
    {row | ∃ σ v, q.Solution db σ ∧ q.Gets db σ v ∧ q.row fmt σ (v.json fmt) = row}

end ElseQuery

section Missing

variable {db : Db} {q : MissingQuery} {s : ExtendedSelect} {ops : SqlOperators}

theorem predicateCondition_missing (hidents : db.PlainIdents) (scope : Scope)
    (m : String × Keyword) :
    predicateCondition db.cache scope
      ⟨"missing?", [.srcVar, .variable m.1, .identOrKeyword m.2]⟩ = .ok none := by
  rw [predicateCondition, if_pos rfl, missingCondition, hidents.resolveIdent]
  rfl

theorem mapM_missing (hidents : db.PlainIdents) (scope : Scope)
    (missing : List (String × Keyword)) :
    (missing.map fun m => (⟨"missing?", [.srcVar, .variable m.1, .identOrKeyword m.2]⟩ :
      Predicate)).mapM (predicateCondition db.cache scope) =
        .ok (missing.map fun _ => none) := by
  induction missing with
  | nil => rfl
  | cons m missing ih =>
    rw [map_cons, mapM_cons, predicateCondition_missing hidents, ih]
    rfl

theorem missing_ok (hidents : db.PlainIdents)
    (h : buildExtendedQuery db.cache {} q.extended = .ok s) :
    ∃ st, q.patterns.zipIdx.foldlM (compilePattern db.cache {}) {} = .ok st ∧
      s.joins = st.joins ∧ s.clauses = st.bindings.clauses ∧ s.nots = [] ∧ s.conditions = [] := by
  obtain ⟨st, hfold, h⟩ := bind_eq_ok h
  obtain ⟨nots, hnots, h⟩ := bind_eq_ok h
  obtain ⟨conditions, hconditions, h⟩ := bind_eq_ok h
  obtain ⟨outputs, -, h⟩ := bind_eq_ok h
  cases hnots
  have hmissing := mapM_missing hidents (outerScope db.cache q.patterns st.bindings) q.missing
  have hnone : conditions.reduceOption = [] := by
    have heq : conditions = q.missing.map fun _ => none :=
      Except.ok.inj (hconditions.symm.trans hmissing)
    rw [heq, map_const']
    induction q.missing.length with
    | zero => rfl
    | succ n ih => exact ih
  split at h
  · cases h
  · split at h <;> cases h
    exact ⟨st, hfold, rfl, rfl, rfl, hnone⟩

theorem mem_joined_missing (hidents : db.PlainIdents)
    (h : buildExtendedQuery db.cache {} q.extended = .ok s) {joined : List LogRow} :
    joined ∈ s.joined ops db ↔ joined ∈ s.toSelect.joined db := by
  obtain ⟨st, -, -, -, hnots, hconditions⟩ := missing_ok hidents h
  rw [ExtendedSelect.joined, hnots, hconditions, mem_filter]
  simp

theorem keepsMissing_iff (htyped : db.Typed) (hidents : db.PlainIdents)
    (h : buildExtendedQuery db.cache {} q.extended = .ok s) (hacc : s.Accepted) :
    q.KeepsMissing s ops db ↔
      ∀ σ, q.Solution db σ → ∀ m ∈ q.missing, ∀ v, ¬ db.HasValue σ m.1 m.2 v := by
  obtain ⟨st, hfold, hjoins, hclauses, -, -⟩ := missing_ok hidents h
  have haccepted : st.bindings.Accepted := by
    rw [PatternBindings.Accepted, ← hclauses]
    exact hacc.1
  have hselect : s.toSelect = ⟨s.outputs, st.joins, st.bindings.clauses⟩ := by
    rw [← hjoins, ← hclauses]
  constructor
  · intro hkeeps σ hσ
    obtain ⟨joined, hrows⟩ := exists_readTogether_iff.mpr hσ
    have hjoined : joined ∈ s.toSelect.joined db := by
      rw [hselect]
      exact (htyped.mem_joined_iff hidents hfold haccepted).mpr ⟨σ, hrows⟩
    exact (hkeeps joined hjoined σ hrows).mp ((mem_joined_missing hidents h).mpr hjoined)
  · intro hnone joined hjoined σ hrows
    refine iff_of_true ((mem_joined_missing hidents h).mpr hjoined) ?_
    exact hnone σ (exists_readTogether_iff.mp ⟨joined, hrows⟩)

end Missing

section GetElse

variable {db : Db} {q : ElseQuery} {s : GetElseSelect} {fmt : FloatFormat} {ops : SqlOperators}
  {literal : F64 → Option String} {σ : Assignment}

theorem defaultValue_arg (d : DefaultValue) : defaultValue d.arg = .ok d := by
  cases d <;> rfl

/-- The output of a `:find` variable: NULL for the result of the function. -/
def ElseQuery.Outputs (q : ElseQuery) (b : PatternBindings) (y : String) (o : ResultOutput) :
    Prop :=
  if y = q.result then o = .null else ∃ cell, b.cell y = some cell ∧ o = .output cell.output

theorem else_ok (hidents : db.PlainIdents)
    (h : buildGetElseQuery db.cache {} q.getElse = .ok s) :
    ∃ st, q.patterns.zipIdx.foldlM (compilePattern db.cache {}) {} = .ok st ∧
      s.inner = ⟨[], st.joins, st.bindings.clauses⟩ ∧ s.leftJoins = [] ∧
      Forall₂ (q.Outputs st.bindings) q.find s.outputs := by
  obtain ⟨clauses, hclauses, h⟩ := bind_eq_ok h
  obtain ⟨st, hfold, h⟩ := bind_eq_ok h
  obtain ⟨outputs, houtputs, h⟩ := bind_eq_ok h
  have hcollect : collectGetElse
      ⟨[.srcVar, .variable q.entity, .identOrKeyword q.attr, q.default.arg],
        .bindScalar q.result⟩ = .ok ⟨q.entity, q.attr, q.default, q.result⟩ := by
    simp only [collectGetElse, defaultValue_arg]
    rfl
  have hclause : clauses = [⟨q.entity, q.attr, q.default, q.result⟩] := by
    cases forall₂_of_mapM_ok hclauses with
    | cons hhead htail =>
      cases htail
      rw [Except.ok.inj (hhead.symm.trans hcollect)]
  have hleft : clauses.foldl
      (addGetElse db.cache (outerScope db.cache q.getElse.patterns st.bindings))
      { results := clauses.map fun clause => (clause.resultVar, .null) } =
        { results := [(q.result, .null)] } := by
    rw [hclause]
    show addGetElse _ _ _ _ = _
    rw [addGetElse, getElseJoin, hidents.resolveIdent]
    rfl
  have hfound : Forall₂ (q.Outputs st.bindings) q.find outputs := by
    rw [hleft] at houtputs
    refine (forall₂_of_mapM_ok houtputs).imp fun y o hy => ?_
    unfold ElseQuery.Outputs
    by_cases hresult : y = q.result
    · rw [findResult, lookup_cons, beq_iff_eq.mpr hresult] at hy
      rw [if_pos hresult]
      exact (Except.ok.inj hy).symm
    · rw [findResult, lookup_cons, beq_eq_false_iff_ne.mpr hresult] at hy
      obtain ⟨output, houtput, rfl⟩ := map_eq_ok hy
      obtain ⟨cell, hcell, rfl⟩ := findOutput_ok houtput
      rw [if_neg hresult]
      exact ⟨cell, hcell, rfl⟩
  rw [hleft] at h
  split at h
  · cases h
  · split at h <;> cases h
    exact ⟨st, hfold, rfl, rfl, hfound⟩

theorem ElseQuery.texts_eq {find : List String} {outputs : List ResultOutput} {st : QueryState}
    {joined : List LogRow} (htyped : db.Typed) (hidents : db.PlainIdents)
    (hfold : q.patterns.zipIdx.foldlM (compilePattern db.cache {}) {} = .ok st)
    (hacc : st.bindings.Accepted) (hrows : ReadTogether db σ q.patterns joined)
    (houtputs : Forall₂ (q.Outputs st.bindings) find outputs) :
    outputs.map (ResultOutput.text fmt ops literal joined []) =
      find.map fun y => if y = q.result then none else some (valueDecodeExpr fmt (σ y)) := by
  induction houtputs with
  | nil => rfl
  | @cons y o _ _ ho _ ih =>
    rw [map_cons, map_cons, ih]
    congr 1
    unfold ElseQuery.Outputs at ho
    split
    · rename_i hresult
      rw [if_pos hresult] at ho
      rw [ho]
      rfl
    · rename_i hresult
      rw [if_neg hresult] at ho
      obtain ⟨cell, hcell, rfl⟩ := ho
      exact hrows.output_text htyped hidents hfold hacc hcell

theorem mem_else_rows (htyped : db.Typed) (hidents : db.PlainIdents)
    (h : buildGetElseQuery db.cache {} q.getElse = .ok s) (hacc : s.Accepted literal)
    {texts : List (Option String)} :
    texts ∈ s.rows fmt ops literal db ↔ ∃ σ, q.Solution db σ ∧
      texts = q.find.map fun y =>
        if y = q.result then none else some (valueDecodeExpr fmt (σ y)) := by
  obtain ⟨st, hfold, hinner, hleft, houtputs⟩ := else_ok hidents h
  have haccepted : st.bindings.Accepted := by
    have hclauses : s.clauses = st.bindings.clauses := congrArg Select.clauses hinner
    rw [PatternBindings.Accepted, ← hclauses]
    exact hacc.1
  have htexts {σ : Assignment} {joined : List LogRow}
      (hrows : ReadTogether db σ q.patterns joined) :
      s.outputs.map (ResultOutput.text fmt ops literal joined []) = q.find.map fun y =>
        if y = q.result then none else some (valueDecodeExpr fmt (σ y)) :=
    ElseQuery.texts_eq htyped hidents hfold haccepted hrows houtputs
  simp only [GetElseSelect.rows, hleft, hinner, mem_dedup, mem_flatMap, map_nil,
    List.sections, map_cons, mem_singleton, htyped.mem_joined_iff hidents hfold haccepted]
  constructor
  · rintro ⟨joined, ⟨σ, hrows⟩, rfl⟩
    exact ⟨σ, exists_readTogether_iff.mp ⟨joined, hrows⟩, htexts hrows⟩
  · rintro ⟨σ, hσ, rfl⟩
    obtain ⟨joined, hrows⟩ := exists_readTogether_iff.mpr hσ
    exact ⟨joined, ⟨σ, hrows⟩, (htexts hrows).symm⟩

def GetElseSelect.json (s : GetElseSelect) (fmt : FloatFormat) (ops : SqlOperators)
    (literal : F64 → Option String) (db : Db) : List (List Json) :=
  (s.rows fmt ops literal db).map fun row => row.map (resultValue fmt)

theorem mentatGetElseQuery_eq {maxRows : Nat}
    (h : buildGetElseQuery db.cache {} q.getElse = .ok s) (hacc : s.Accepted literal) :
    mentatGetElseQuery fmt ops literal maxRows {} q.getElse db =
      if 0 < maxRows ∧ maxRows < (s.json fmt ops literal db).length then
        .error (.resultLimitExceeded maxRows)
      else .ok (s.json fmt ops literal db) := by
  unfold mentatGetElseQuery
  rw [h, GetElseSelect.json, length_map]
  exact if_pos hacc

theorem mem_else_json (htyped : db.Typed) (hidents : db.PlainIdents)
    (h : buildGetElseQuery db.cache {} q.getElse = .ok s) (hacc : s.Accepted literal) :
    {row | row ∈ s.json fmt ops literal db} =
      {row | ∃ σ, q.Solution db σ ∧ q.row fmt σ .null = row} := by
  ext row
  show row ∈ List.map _ _ ↔ _
  simp only [mem_map, mem_else_rows htyped hidents h hacc]
  have hrow (σ : Assignment) : (q.find.map fun y =>
      if y = q.result then none else some (valueDecodeExpr fmt (σ y))).map (resultValue fmt) =
        q.row fmt σ .null := by
    rw [map_map]
    refine map_congr_left fun y _ => ?_
    show resultValue fmt (if _ then _ else _) = _
    split <;> rfl
  constructor
  · rintro ⟨_, ⟨σ, hσ, rfl⟩, rfl⟩
    exact ⟨σ, hσ, (hrow σ).symm⟩
  · rintro ⟨σ, hσ, rfl⟩
    exact ⟨_, ⟨σ, hσ, rfl⟩, hrow σ⟩

theorem ElseQuery.exists_gets (q : ElseQuery) (db : Db) (σ : Assignment) : ∃ v, q.Gets db σ v := by
  by_cases h : ∃ v, db.HasValue σ q.entity q.attr v
  · obtain ⟨v, hv⟩ := h
    exact ⟨v, .inl hv⟩
  · exact ⟨q.default.typed, .inr ⟨fun w hw => h ⟨w, hw⟩, rfl⟩⟩

theorem getsOrElse_iff (htyped : db.Typed) (hidents : db.PlainIdents)
    (h : buildGetElseQuery db.cache {} q.getElse = .ok s) (hacc : s.Accepted literal) :
    q.GetsOrElse fmt db (s.json fmt ops literal db) ↔
      (q.result ∈ q.find →
        ∀ σ v, q.Solution db σ → q.Gets db σ v → v.json fmt = .null) := by
  rw [ElseQuery.GetsOrElse, mem_else_json htyped hidents h hacc]
  constructor
  · intro hset hfind σ v hσ hv
    have hrow : q.row fmt σ (v.json fmt) ∈
        {row | ∃ σ, q.Solution db σ ∧ q.row fmt σ .null = row} := by
      rw [hset]
      exact ⟨σ, v, hσ, hv, rfl⟩
    obtain ⟨σ', -, hrow⟩ := hrow
    have hresult := map_eq_map_iff.mp hrow q.result hfind
    rw [if_pos rfl, if_pos rfl] at hresult
    exact hresult.symm
  · intro hnull
    have hsame (σ : Assignment) (v : TypedValue) (hσ : q.Solution db σ) (hv : q.Gets db σ v) :
        q.row fmt σ .null = q.row fmt σ (v.json fmt) := by
      refine map_congr_left fun y hy => ?_
      by_cases hresult : y = q.result
      · rw [if_pos hresult, if_pos hresult, hnull (hresult ▸ hy) σ v hσ hv]
      · rw [if_neg hresult, if_neg hresult]
    ext row
    constructor
    · rintro ⟨σ, hσ, rfl⟩
      obtain ⟨v, hv⟩ := q.exists_gets db σ
      exact ⟨σ, v, hσ, hv, (hsame σ v hσ hv).symm⟩
    · rintro ⟨σ, v, hσ, hv, rfl⟩
      exact ⟨σ, hσ, hsame σ v hσ hv⟩

end GetElse

/-- `missing?` keeps every row, which is right exactly if no solution has the value; and `get-else`
gives NULL, which is right exactly if every value that solutions get is shown so. -/
theorem missing_getElse_iff {db : Db} (fmt : FloatFormat) (ops : SqlOperators)
    (literal : F64 → Option String) (htyped : db.Typed) (hidents : db.PlainIdents) :
    (∀ (q : MissingQuery) (s : ExtendedSelect), buildExtendedQuery db.cache {} q.extended = .ok s →
      s.Accepted → (q.KeepsMissing s ops db ↔
        ∀ σ, q.Solution db σ → ∀ m ∈ q.missing, ∀ v, ¬ db.HasValue σ m.1 m.2 v)) ∧
    ∀ (q : ElseQuery) (s : GetElseSelect), buildGetElseQuery db.cache {} q.getElse = .ok s →
      s.Accepted literal → ∃ rows : List (List Json),
        (∀ maxRows, mentatGetElseQuery fmt ops literal maxRows {} q.getElse db =
          if 0 < maxRows ∧ maxRows < rows.length then .error (.resultLimitExceeded maxRows)
          else .ok rows) ∧
        (q.GetsOrElse fmt db rows ↔ (q.result ∈ q.find →
          ∀ σ v, q.Solution db σ → q.Gets db σ v → v.json fmt = .null)) := by
  refine ⟨fun q s hbuild hacc => keepsMissing_iff htyped hidents hbuild hacc, ?_⟩
  intro q s hbuild hacc
  exact ⟨s.json fmt ops literal db, fun maxRows => mentatGetElseQuery_eq hbuild hacc,
    getsOrElse_iff htyped hidents hbuild hacc⟩

/-- `[:find ?e :where [?e :db/valueType ?t] [(missing? $ ?e :db/doc)]]`. -/
def undescribedQuery : MissingQuery where
  find := ["?e"]
  patterns := [{ entity := .variable "?e", attr := .ident (.namespaced "db" "valueType"),
                 value := .variable "?t" }]
  missing := [("?e", .namespaced "db" "doc")]

/-- `[:find ?x :where [?e :db/doc ?d] [(get-else $ ?e :db/doc "none") ?x]]`. -/
def docElseQuery : ElseQuery where
  find := ["?x"]
  patterns := [{ entity := .variable "?e", attr := .ident (.namespaced "db" "doc"),
                 value := .variable "?d" }]
  entity := "?e"
  attr := .namespaced "db" "doc"
  default := .text "none"
  result := "?x"

/-- The same without the result under `:find`. -/
def unshownElseQuery : ElseQuery := { docElseQuery with find := ["?e"] }

/-- An entity without the value is kept, and a value that is not asked for is not missed. -/
theorem missing_getElse_iff_undescribed :
    ∃ db s rows, stateAfter [apartCall] = some db ∧
      buildExtendedQuery db.cache {} undescribedQuery.extended = .ok s ∧
      undescribedQuery.KeepsMissing s noOperators db ∧
      mentatGetElseQuery noDoubles noOperators (fun _ => none) 0 {} unshownElseQuery.getElse db =
        .ok rows ∧ unshownElseQuery.GetsOrElse noDoubles db rows := by
  have hstate : ∃ db ∈ stateAfter [apartCall], db.Typed ∧ db.PlainIdents ∧
      (∃ s, buildExtendedQuery db.cache {} undescribedQuery.extended = .ok s ∧ s.Accepted) ∧
      (∃ s, buildGetElseQuery db.cache {} unshownElseQuery.getElse = .ok s ∧
        s.Accepted fun _ => none) ∧
      ∀ r ∈ db.current, ∀ r' ∈ db.current,
        db.attributeNamed (.namespaced "db" "valueType") = some r.a ∧
        db.attributeNamed (.namespaced "db" "doc") = some r'.a → r.e ≠ r'.e := by
    decide +kernel
  obtain ⟨db, hdb, htyped, hidents, ⟨s, hs, hacc⟩, ⟨s', hs', hacc'⟩, hapart⟩ := hstate
  obtain ⟨hmissing, helse⟩ :=
    missing_getElse_iff noDoubles noOperators (fun _ => none) htyped hidents
  obtain ⟨rows, hrows, hgets⟩ := helse unshownElseQuery s' hs' hacc'
  refine ⟨db, s, rows, hdb, hs, (hmissing undescribedQuery s hs hacc).mpr ?_, hrows 0,
    hgets.mpr fun hfind => absurd hfind (by decide)⟩
  rintro σ hσ m hm v ⟨r', hr', he', ha', -⟩
  obtain ⟨r, hr, he, ha, -⟩ := hσ _ mem_cons_self
  rw [mem_singleton.mp hm] at he' ha'
  exact hapart r hr r' hr' ⟨ha, ha'⟩ (TypedValue.ref.inj (Eq.trans (Eq.symm he) he'))

/-- `[:find ?e :where [?e :db/doc ?d] [(missing? $ ?e :db/doc)]]`. -/
def docMissingQuery : MissingQuery where
  find := ["?e"]
  patterns := [{ entity := .variable "?e", attr := .ident (.namespaced "db" "doc"),
                 value := .variable "?d" }]
  missing := [("?e", .namespaced "db" "doc")]

/-- An entity with a doc string is kept as one without, and its doc string is shown as NULL. -/
theorem not_missing_getElse_doc :
    ∃ db, stateAfter [apartCall] = some db ∧ db.Typed ∧ db.PlainIdents ∧
      mentatExtendedQuery noDoubles noOperators 0 {} docMissingQuery.extended db =
        .ok [[.integer 500]] ∧
      mentatGetElseQuery noDoubles noOperators (fun _ => none) 0 {} docElseQuery.getElse db =
        .ok [[.null]] ∧
      ∃ r ∈ db.current, r.e = 500 ∧
        db.attributeNamed (.namespaced "db" "doc") = some r.a ∧ r.v = .text "a" := by
  decide +kernel

end PgMentat

import PgMentat.Query.Disjunction
import PgMentat.Negation
import PgMentat.QueryResults

namespace PgMentat

open List Unification Aggregates

def Assignment.restrict (σ : Assignment) (vars : List String) (x : String) : Option TypedValue :=
  if x ∈ vars then some (σ x) else none

def TypedValue.integer : TypedValue → Option ℤ
  | long n => some n.toInt
  | _ => none

/-- `or` shares every variable, `or-join` those of its header. -/
def UnifyVars.Share (σ τ : Assignment) : UnifyVars → Prop
  | implicit => τ = σ
  | explicit vars => ∀ x ∈ vars, τ x = σ x

/-- Live datoms that patterns read under an assignment. -/
def ReadTogether (db : Db) (σ : Assignment) (patterns : List Pattern) (rows : List LogRow) : Prop :=
  List.Forall₂ (fun p r => r ∈ db.current.map CurrentRow.live ∧ p.Reads db σ r) patterns rows

/-- The integers that patterns give to a variable, one for every choice of live datoms that they
read together. -/
def readIntegers (db : Db) (x : String) (patterns : List Pattern) : Set (List LogRow × ℤ) :=
  {p | x ∈ patterns.flatMap Pattern.vars ∧
    ∃ σ, ReadTogether db σ patterns p.1 ∧ (σ x).integer = some p.2}

def ReadOnce {κ : Type} (db : Db) (patterns : List Pattern) (key : Assignment → κ) : Prop :=
  ∀ σ τ rows rows', ReadTogether db σ patterns rows → ReadTogether db τ patterns rows' →
    key σ = key τ → rows = rows'

/-- A family of integers with one index for every key of an assignment under which the patterns are
read. -/
structure IndexedBy {κ : Type} (db : Db) (patterns : List Pattern) (x : String)
    (key : Assignment → κ) (T : Set (κ × ℤ)) : Prop where
  var : x ∈ patterns.flatMap Pattern.vars
  mem : ∀ k n, (k, n) ∈ T ↔
    ∃ σ rows, ReadTogether db σ patterns rows ∧ key σ = k ∧ (σ x).integer = some n

/-- The JSON of an aggregate, an integer of 64 bits or nothing. -/
def ShowsNumber (json : Json) : Option ℤ → Prop
  | some n => ∃ m : Int64, m.toInt = n ∧ json = .integer m
  | none => json = .null

def Pattern.HasLong (db : Db) (x : String) (p : Pattern) : Prop :=
  x ∉ p.entity.var ∧ x ∉ p.attr.var ∧ x ∉ p.tx.var ∧
    (x ∈ p.value.var → resolvePatternValueType db.cache p.attr = some .long)

namespace OrQuery

def baseVars (q : OrQuery) : List String := q.base.flatMap Pattern.vars

def scope (q : OrQuery) (branch : List Pattern) : List String :=
  q.baseVars ++ match q.unifyVars with
    | .implicit => branch.flatMap Pattern.vars
    | .explicit vars => vars

/-- The base patterns are live datoms, and those of the branch under an assignment that has the
shared variables in common. -/
def Satisfies (q : OrQuery) (db : Db) (branch : List Pattern) (σ : Assignment) : Prop :=
  (∀ p ∈ q.base, ∃ r ∈ db.current, p.Matches db σ r) ∧
    ∃ τ, q.unifyVars.Share σ τ ∧ ∀ p ∈ branch, ∃ r ∈ db.current, p.Matches db τ r

def substitutionsOf (q : OrQuery) (db : Db) (branch : List Pattern) :
    Set (String → Option TypedValue) :=
  {s | ∃ σ, q.Satisfies db branch σ ∧ s = σ.restrict (q.scope branch)}

def substitutions (q : OrQuery) (db : Db) : Set (String → Option TypedValue) :=
  {s | ∃ branch ∈ q.branches, s ∈ q.substitutionsOf db branch}

/-- The integers that the substitutions of one branch give to a variable. -/
def integersOf (q : OrQuery) (db : Db) (x : String) (branch : List Pattern) :
    Set ((String → Option TypedValue) × ℤ) :=
  {p | p.1 ∈ q.substitutionsOf db branch ∧ (p.1 x).bind TypedValue.integer = some p.2}

def integers (q : OrQuery) (db : Db) (x : String) : Set ((String → Option TypedValue) × ℤ) :=
  {p | p.1 ∈ q.substitutions db ∧ (p.1 x).bind TypedValue.integer = some p.2}

/-- The rows that the substitutions give to the variables of the `:find`. -/
def answers (q : OrQuery) (fmt : FloatFormat) (db : Db) (vars : List String) : Set (List Json) :=
  {row | ∃ s ∈ q.substitutions db,
    vars.map (fun x => ((s x).map (TypedValue.json fmt)).getD .null) = row}

/-- The result is that of the `:find` on the union of the substitutions. -/
def EvaluatesUnion (q : OrQuery) (fmt : FloatFormat) (db : Db) (rows : List (List Json)) : Prop :=
  match q.find with
  | .rel vars => {row | row ∈ rows} = q.answers fmt db vars
  | .aggregate fn x => ∃ r json, fn.Of (q.integers db x) r ∧ ShowsNumber json r ∧ rows = [[json]]

/-- The rows of all branches, where base and branch are read under one assignment. -/
def readAnswers (q : OrQuery) (fmt : FloatFormat) (db : Db) (vars : List String) :
    Set (List Json) :=
  {row | ∃ branch ∈ q.branches, ∃ σ,
    (∀ p ∈ q.base ++ branch, ∃ r ∈ db.current, p.Reads db σ r.live) ∧
      vars.map (fun x => (σ x).json fmt) = row}

def branchIntegers (q : OrQuery) (db : Db) (x : String) (branch : List Pattern) :
    Set (List LogRow × ℤ) :=
  readIntegers db x (q.base ++ branch)

/-- The branch by itself has what the aggregate takes from the union: every integer, the least or
the greatest; and for a sum every substitution, from one choice of live datoms. -/
def Suffices (q : OrQuery) (db : Db) (x : String) (branch : List Pattern) : AggregateFn → Prop
  | .sum => q.integers db x ⊆ q.integersOf db x branch ∧
      (∀ y ∈ q.scope branch, y ∈ (q.base ++ branch).flatMap Pattern.vars) ∧
        ReadOnce db (q.base ++ branch) fun σ => σ.restrict (q.scope branch)
  | fn => fn.Takes (values (q.integers db x)) (values (q.integersOf db x branch))

def LongVariable (q : OrQuery) (db : Db) (x : String) : Prop :=
  ∀ branch ∈ q.branches, ∀ p ∈ q.base ++ branch, p.HasLong db x

def FourPlaces (q : OrQuery) : Prop :=
  ∀ branch ∈ q.branches, ∀ p ∈ q.base ++ branch, p.added = .placeholder

end OrQuery

section Places

variable {c : SchemaCache} {temporal : TemporalOption} {x : String} {cell : Cell}

def Pattern.varsAt (p : Pattern) : Column → List String
  | .e => p.entity.var
  | .a => p.attr.var
  | .v => p.value.var
  | .tx => p.tx.var
  | _ => []

theorem Pattern.Reads.varsAt {db : Db} {σ : Assignment} {p : Pattern} {r : LogRow} {col : Column}
    (h : p.Reads db σ r) (hx : x ∈ p.varsAt col) : σ x = r.cell col := by
  obtain ⟨hentity, hattr, hvalue, htx, -⟩ := h
  have hplace {place : PatternNonValuePlace} (hx : x ∈ place.var) : place = .variable x := by
    cases place with
    | «variable» y => rw [mem_singleton.mp hx]
    | _ => exact nomatch hx
  cases col with
  | e =>
    rw [hplace hx] at hentity
    exact hentity
  | a =>
    rw [hplace hx] at hattr
    exact hattr
  | tx =>
    rw [hplace hx] at htx
    exact htx
  | v =>
    cases hplace : p.value with
    | «variable» y =>
      rw [Pattern.varsAt, hplace] at hx
      rw [hplace] at hvalue
      rw [mem_singleton.mp hx]
      exact hvalue
    | _ =>
      rw [Pattern.varsAt, hplace] at hx
      exact nomatch hx
  | _ => exact nomatch hx

theorem compilePatterns_place {ps : List Pattern} {k : Nat} {st st' : QueryState}
    (hfour : ∀ p ∈ ps, p.added = .placeholder)
    (h : (ps.zipIdx k).foldlM (compilePattern c temporal) st = .ok st')
    (hcell : st'.bindings.cell x = some cell) :
    st.bindings.cell x = some cell ∨ ∃ p, (p, cell.1) ∈ ps.zipIdx k ∧ x ∈ p.varsAt cell.2 := by
  induction ps generalizing st k with
  | nil =>
    cases h
    exact .inl hcell
  | cons p ps ih =>
    rw [zipIdx_cons, foldlM_cons] at h
    obtain ⟨st1, hp, h⟩ := bind_eq_ok h
    rcases ih (fun p hp => hfour p (mem_cons_of_mem _ hp)) h with hfirst | ⟨p', hp', hx⟩
    · obtain ⟨b, b', hattr, hvalue, rfl⟩ := compilePattern_ok hp
      have hadded (b : PatternBindings) : bindAdded k b p.added = b := by
        rw [hfour p mem_cons_self]
        rfl
      rw [hadded, Bindings.cell_foldl_push] at hfirst
      have hhead : (p, k) ∈ (p :: ps).zipIdx k := by
        rw [zipIdx_cons]
        exact mem_cons_self
      rcases (bindTx_bound p.tx).cell_eq_some hfirst with hfirst | ⟨hx, rfl⟩
      · rcases (bindValue_bound hvalue).cell_eq_some hfirst with hfirst | ⟨hx, rfl⟩
        · rcases (bindAttribute_bound hattr).cell_eq_some hfirst with hfirst | ⟨hx, rfl⟩
          · rcases (bindEntity_bound p.entity).cell_eq_some hfirst with hfirst | ⟨hx, rfl⟩
            · exact .inl hfirst
            · exact .inr ⟨p, hhead, hx⟩
          · exact .inr ⟨p, hhead, hx⟩
        · exact .inr ⟨p, hhead, hx⟩
      · exact .inr ⟨p, hhead, hx⟩
    · refine .inr ⟨p', ?_, hx⟩
      rw [zipIdx_cons]
      exact mem_cons_of_mem _ hp'

end Places

section Arms

variable {db : Db} {fmt : FloatFormat} {ops : SqlOperators} {patterns : List Pattern}
  {fn : AggregateFn} {x : String} {arm : ArmSelect} {st : QueryState} {σ : Assignment}

theorem Db.Typed.sees_iff (htyped : db.Typed) (hidents : db.PlainIdents) {p : Pattern}
    {r : LogRow} :
    p.Sees db {} r ∧ p.Reads db σ r ↔ r ∈ db.current.map CurrentRow.live ∧ p.Reads db σ r := by
  refine and_congr_left fun hreads => ⟨fun h => (mem_patternSource.mp h.1).1, fun h => ?_⟩
  obtain ⟨row, hrow, rfl⟩ := mem_map.mp h
  refine sees_live hidents hrow hreads.2.1 fun t ht => ?_
  exact htyped row hrow t (declaredType_of_denotes ht hreads.2.1)

theorem exists_readTogether_iff :
    (∃ rows, ReadTogether db σ patterns rows) ↔
      ∀ p ∈ patterns, ∃ r ∈ db.current, p.Reads db σ r.live := by
  unfold ReadTogether
  rw [exists_forall₂_iff]
  refine forall₂_congr fun p hp => ?_
  constructor
  · rintro ⟨_, hlive, hread⟩
    obtain ⟨r, hr, rfl⟩ := mem_map.mp hlive
    exact ⟨r, hr, hread⟩
  · rintro ⟨r, hr, hread⟩
    exact ⟨r.live, mem_map.mpr ⟨r, hr, rfl⟩, hread⟩

variable {τ : Assignment}

theorem PatternNonValuePlace.denotes_agree {named : Keyword → Option Int64} {id : Int64}
    {place : PatternNonValuePlace} (h : place.Denotes named σ id) (h' : place.Denotes named τ id) :
    ∀ y ∈ place.var, σ y = τ y := by
  intro y hy
  cases place with
  | «variable» x =>
    rw [mem_singleton.mp hy]
    exact Eq.trans h (Eq.symm h')
  | _ => exact nomatch hy

theorem PatternValuePlace.reads_agree {type : Option ValueType} {v : TypedValue}
    {place : PatternValuePlace} (h : place.Reads type σ v) (h' : place.Reads type τ v) :
    ∀ y ∈ place.var, σ y = τ y := by
  intro y hy
  cases place with
  | «variable» x =>
    rw [mem_singleton.mp hy]
    exact Eq.trans h (Eq.symm h')
  | _ => exact nomatch hy

theorem PatternNonValuePlace.readsTx_agree {tx : Int64} {place : PatternNonValuePlace}
    (h : place.ReadsTx σ tx) (h' : place.ReadsTx τ tx) : ∀ y ∈ place.var, σ y = τ y := by
  intro y hy
  cases place with
  | «variable» x =>
    rw [mem_singleton.mp hy]
    exact Eq.trans h (Eq.symm h')
  | _ => exact nomatch hy

theorem Pattern.reads_agree {p : Pattern} {r : LogRow} (h : p.Reads db σ r)
    (h' : p.Reads db τ r) : ∀ y ∈ p.vars, σ y = τ y := by
  intro y hy
  simp only [Pattern.vars, mem_append] at hy
  rcases hy with ((hy | hy) | hy) | hy
  · exact PatternNonValuePlace.denotes_agree h.1 h'.1 y hy
  · exact PatternNonValuePlace.denotes_agree h.2.1 h'.2.1 y hy
  · exact PatternValuePlace.reads_agree h.2.2.1 h'.2.2.1 y hy
  · exact PatternNonValuePlace.readsTx_agree h.2.2.2.1 h'.2.2.2.1 y hy

theorem ReadTogether.agree {rows : List LogRow}
    (h : ReadTogether db σ patterns rows)
    (h' : ReadTogether db τ patterns rows) : ∀ y ∈ patterns.flatMap Pattern.vars, σ y = τ y := by
  induction h with
  | nil => exact fun y hy => nomatch hy
  | cons hrow _ ih =>
    cases h' with
    | cons hrow' hrows' =>
      intro y hy
      rw [flatMap_cons, mem_append] at hy
      rcases hy with hy | hy
      · exact Pattern.reads_agree hrow.2 hrow'.2 y hy
      · exact ih hrows' y hy

section Indexed

variable {κ : Type} {key : Assignment → κ} {T : Set (κ × ℤ)}

theorem IndexedBy.values_eq (h : IndexedBy db patterns x key T) :
    values T = values (readIntegers db x patterns) := by
  ext n
  constructor
  · rintro ⟨k, hk⟩
    obtain ⟨σ, rows, hrows, -, hn⟩ := (h.mem k n).mp hk
    exact ⟨rows, h.var, σ, hrows, hn⟩
  · rintro ⟨rows, -, σ, hrows, hn⟩
    exact ⟨key σ, (h.mem _ n).mpr ⟨σ, rows, hrows, rfl, hn⟩⟩

theorem IndexedBy.exists_choice (h : IndexedBy db patterns x key T) :
    ∃ g : κ × ℤ → List LogRow × ℤ, ∀ p ∈ T, (g p).2 = p.2 ∧
      ∃ σ, ReadTogether db σ patterns (g p).1 ∧ key σ = p.1 ∧ (σ x).integer = some p.2 := by
  have hchoice : ∀ p ∈ T, ∃ rows σ, ReadTogether db σ patterns rows ∧ key σ = p.1 ∧
      (σ x).integer = some p.2 := by
    intro p hp
    obtain ⟨σ, rows, hσ⟩ := (h.mem p.1 p.2).mp hp
    exact ⟨rows, σ, hσ⟩
  choose! choice hchoice using hchoice
  exact ⟨fun p => (choice p, p.2), fun p hp => ⟨rfl, hchoice p hp⟩⟩

variable {g : κ × ℤ → List LogRow × ℤ} (h : IndexedBy db patterns x key T)
  (hkey : ∀ σ τ : Assignment, (∀ y ∈ patterns.flatMap Pattern.vars, σ y = τ y) → key σ = key τ)
  (hg : ∀ p ∈ T, (g p).2 = p.2 ∧
    ∃ σ, ReadTogether db σ patterns (g p).1 ∧ key σ = p.1 ∧ (σ x).integer = some p.2)

include hg

include h in
theorem IndexedBy.mapsTo : Set.MapsTo g T (readIntegers db x patterns) := by
  intro p hp
  obtain ⟨hn, σ, hrows, -, hσ⟩ := hg p hp
  exact ⟨h.var, σ, hrows, hσ.trans (congrArg some hn.symm)⟩

include hkey

theorem IndexedBy.injOn : Set.InjOn g T := by
  intro p hp p' hp' heq
  obtain ⟨hn, σ, hrows, hσ, -⟩ := hg p hp
  obtain ⟨hn', σ', hrows', hσ', -⟩ := hg p' hp'
  rw [← heq] at hrows' hn'
  refine Prod.ext ?_ (hn.symm.trans hn')
  rw [← hσ, ← hσ']
  exact hkey σ σ' (hrows.agree hrows')

/-- If every choice of datoms is that of an index, no two have the same key. -/
theorem IndexedBy.readOnce_of_surjOn (hsurj : Set.SurjOn g T (readIntegers db x patterns))
    (hvar : x ∈ patterns.flatMap Pattern.vars)
    (hinteger : ∀ σ rows, ReadTogether db σ patterns rows → ∃ n, (σ x).integer = some n)
    (hvalue : ∀ σ τ : Assignment, key σ = key τ → σ x = τ x) : ReadOnce db patterns key := by
  intro σ τ rows rows' hrows hrows' hστ
  obtain ⟨n, hn⟩ := hinteger σ rows hrows
  have hn' : (τ x).integer = some n := hvalue σ τ hστ ▸ hn
  obtain ⟨p, hp, hgp⟩ := hsurj (show (rows, n) ∈ _ from ⟨hvar, σ, hrows, hn⟩)
  obtain ⟨p', hp', hgp'⟩ := hsurj (show (rows', n) ∈ _ from ⟨hvar, τ, hrows', hn'⟩)
  obtain ⟨hpn, ρ, hρ, hkeyρ, -⟩ := hg p hp
  obtain ⟨hpn', ρ', hρ', hkeyρ', -⟩ := hg p' hp'
  rw [hgp] at hpn hρ
  rw [hgp'] at hpn' hρ'
  have hp1 : p.1 = p'.1 := by
    rw [← hkeyρ, ← hkeyρ', hkey ρ σ (hρ.agree hrows), hστ, hkey ρ' τ (hρ'.agree hrows')]
  have hpp' : p = p' := Prod.ext hp1 (hpn.symm.trans hpn')
  rw [hpp', hgp'] at hgp
  exact (congrArg Prod.fst hgp).symm

omit hg

include h

theorem IndexedBy.finite (hfinite : (readIntegers db x patterns).Finite) : T.Finite := by
  obtain ⟨g, hg⟩ := h.exists_choice
  exact Set.Finite.of_injOn (h.mapsTo hg) (IndexedBy.injOn hkey hg) hfinite

/-- The sum over the choices of datoms is that over the indices if no two choices have the same
key. -/
theorem IndexedBy.sum_iff (honce : ReadOnce db patterns key) {r : Option ℤ} :
    AggregateFn.sum.Of T r ↔ AggregateFn.sum.Of (readIntegers db x patterns) r := by
  obtain ⟨g, hg⟩ := h.exists_choice
  refine AggregateFn.sum_of_bijOn ⟨h.mapsTo hg, IndexedBy.injOn hkey hg, ?_⟩ fun p hp => (hg p hp).1
  rintro ⟨rows, n⟩ ⟨-, σ, hrows, hn⟩
  have hp : (key σ, n) ∈ T := (h.mem _ n).mpr ⟨σ, rows, hrows, rfl, hn⟩
  obtain ⟨hgn, τ, hrows', hτ, -⟩ := hg _ hp
  exact ⟨_, hp, Prod.ext (honce τ σ _ rows hrows' hrows hτ) hgn⟩

end Indexed

variable {outputs : List Output} {s : AggregateSelect}

theorem Db.Typed.mem_joined_iff (htyped : db.Typed) (hidents : db.PlainIdents)
    {joined : List LogRow} (hfold : patterns.zipIdx.foldlM (compilePattern db.cache {}) {} = .ok st)
    (hacc : st.bindings.Accepted) :
    joined ∈ (Select.mk outputs st.joins st.bindings.clauses).joined db ↔
      ∃ σ, ReadTogether db σ patterns joined := by
  unfold ReadTogether
  simp only [← htyped.sees_iff hidents]
  exact PgMentat.mem_joined_iff hfold hacc

theorem ReadTogether.output_text (htyped : db.Typed) (hidents : db.PlainIdents)
    {joined : List LogRow} {cell : Cell}
    (hfold : patterns.zipIdx.foldlM (compilePattern db.cache {}) {} = .ok st)
    (hacc : st.bindings.Accepted) (hrows : ReadTogether db σ patterns joined)
    (hcell : st.bindings.cell x = some cell) :
    cell.output.text fmt joined = some (valueDecodeExpr fmt (σ x)) := by
  refine output_text_of_reads hfold hacc (List.Forall₂.imp (fun p r h => ?_) hrows) hcell
  exact (htyped.sees_iff hidents).mpr h

theorem rel_rows (fmt : FloatFormat) (ops : SqlOperators) (htyped : db.Typed)
    (hidents : db.PlainIdents) {vars : List String}
    (hbuild : buildArm db.cache {} (.rel vars) patterns = .ok arm) (hacc : arm.Accepted) :
    ∃ rows, arm.rows fmt ops db = some rows ∧ ∀ row, row ∈ rows ↔ ∃ σ,
      (∀ p ∈ patterns, ∃ r ∈ db.current, p.Reads db σ r.live) ∧
        vars.map (fun x => some (valueDecodeExpr fmt (σ x))) = row := by
  obtain ⟨s, hs, rfl⟩ := map_eq_ok hbuild
  refine ⟨s.rows fmt db, rfl, fun row => ?_⟩
  rw [mem_rows_iff hs hacc]
  refine exists_congr fun σ => and_congr ?_ eq_comm
  exact forall₂_congr fun p hp => htyped.exists_sees_iff hidents

theorem buildAggregateSelect_operand (b : PatternBindings) :
    (buildAggregateSelect (outerScope db.cache patterns b) x).1 =
      (b.cell x).map Cell.output := by
  simp only [buildAggregateSelect, outerScope]
  cases b.cell x with
  | none => rfl
  | some cell =>
    obtain ⟨idx, col⟩ := cell
    cases col <;> rfl

theorem aggregate_ok (h : buildArm db.cache {} (.aggregate fn x) patterns = .ok arm) :
    ∃ st s, patterns.zipIdx.foldlM (compilePattern db.cache {}) {} = .ok st ∧
      arm = .aggregate s ∧ s.fn = fn ∧ s.operand = (st.bindings.cell x).map Cell.output ∧
      s.numeric = (buildAggregateSelect (outerScope db.cache patterns st.bindings) x).2 ∧
      s.operands = ⟨s.operand.toList, st.joins, st.bindings.clauses⟩ := by
  obtain ⟨st, hfold, h⟩ := bind_eq_ok h
  split at h
  · cases h
  · cases h
    exact ⟨st, _, hfold, rfl, rfl, buildAggregateSelect_operand st.bindings, rfl, rfl⟩

theorem mapM_numericText (ns : List ℤ) : (ns.map toString).mapM numericText = some ns := by
  induction ns with
  | nil => rfl
  | cons n ns ih =>
    have hn : numericText (toString n) = some n := TextCodec.parseInt_toString n
    rw [map_cons, mapM_cons, hn, ih]
    rfl

theorem toString_injective : Function.Injective (toString : ℤ → String) := by
  intro m n h
  have hm := TextCodec.parseInt_toString m
  rw [h, TextCodec.parseInt_toString n] at hm
  exact (Option.some.inj hm).symm

theorem AggregateSelect.result_eq {ns : List ℤ} (htexts : s.texts fmt db = ns.map toString)
    (hnumeric : s.numeric = true ∨ ns = []) :
    s.result fmt ops db = some ((s.fn.eval ns).map toString) := by
  have hcast (fn : AggregateFn) :
      numericAggregate fn (ns.map toString) = some ((fn.eval ns).map toString) := by
    rw [numericAggregate, mapM_numericText]
    rfl
  have hordered (fn : AggregateFn) (op : PredOp) (hempty : fn.eval [] = none) :
      (if s.numeric || s.operand.any Output.isColumn then numericAggregate fn (ns.map toString)
        else some (extremeText ops op (ns.map toString))) = some ((fn.eval ns).map toString) := by
    split
    · exact hcast fn
    · rename_i hnot
      rcases hnumeric with hnumeric | rfl
      · exact absurd (by rw [hnumeric, Bool.true_or]) hnot
      · rw [hempty]
        rfl
  unfold AggregateSelect.result
  simp only [htexts]
  cases s.fn with
  | count =>
    show some (some (toString (ns.map toString).dedup.length)) = _
    rw [dedup_map_of_injective toString_injective, length_map]
    rfl
  | sum => exact hcast .sum
  | min => exact hordered .min .lt rfl
  | max => exact hordered .max .gt rfl

theorem nodup_rows (hnodup : db.current.Nodup) (attr : PatternNonValuePlace) :
    ((patternSource db.cache {} attr).rows db).Nodup := by
  have htable (t : ValueType) : (db.tableRows true t).Nodup := by
    rw [Db.tableRows, if_pos rfl]
    refine (hnodup.filter _).map fun r r' h => ?_
    cases r
    cases r'
    cases h
    rfl
  unfold patternSource
  split
  · exact (htable _).filter _
  · show (ValueType.all.flatMap (db.tableRows true)).Nodup
    rw [nodup_flatMap]
    refine ⟨fun t _ => htable t, ?_⟩
    have hall : ValueType.all.Nodup := by decide
    refine hall.imp fun {t t'} hne r hr hr' => hne ?_
    rw [← (mem_tableRows.mp hr).2, (mem_tableRows.mp hr').2]

theorem nodup_joined (hnodup : db.current.Nodup)
    (hfold : patterns.zipIdx.foldlM (compilePattern db.cache {}) {} = .ok st) :
    ((Select.mk outputs st.joins st.bindings.clauses).joined db).Nodup := by
  refine (nodup_sections fun rows hrows => ?_).filter _
  obtain ⟨source, hsource, rfl⟩ := mem_map.mp hrows
  have hjoins := compilePatterns_joins hfold
  rw [show (Select.mk outputs st.joins st.bindings.clauses).joins = st.joins from rfl, hjoins]
    at hsource
  obtain ⟨p, -, rfl⟩ := mem_map.mp hsource
  exact nodup_rows hnodup p.attr

theorem ReadTogether.exists_long {rows : List LogRow} (hrows : ReadTogether db σ patterns rows)
    (htyped : db.Typed) (hlong : ∀ p ∈ patterns, p.HasLong db x)
    (hvar : x ∈ patterns.flatMap Pattern.vars) : ∃ m, σ x = .long m := by
  obtain ⟨p, hp, hx⟩ := mem_flatMap.mp hvar
  obtain ⟨hentity, hattr, htx, htype⟩ := hlong p hp
  have hvalue : x ∈ p.value.var := by
    simpa [Pattern.vars, hentity, hattr, htx] using hx
  obtain ⟨_, hlive, hreads⟩ := exists_forall₂_iff.mp ⟨rows, hrows⟩ p hp
  obtain ⟨r, hr, rfl⟩ := mem_map.mp hlive
  have hr := htyped r hr _ (declaredType_of_denotes (htype hvalue) hreads.2.1)
  have hσ : σ x = r.live.cell .v := hreads.varsAt hvalue
  rw [hσ]
  show ∃ m, r.v = .long m
  cases hv : r.v with
  | long m => exact ⟨m, rfl⟩
  | _ =>
    rw [hv] at hr
    cases hr

/-- Compiled patterns of a typed state, with a long variable that has a cell. -/
structure BoundLong (db : Db) (patterns : List Pattern) (x : String) (st : QueryState)
    (cell : Cell) : Prop where
  typed : db.Typed
  idents : db.PlainIdents
  long : ∀ p ∈ patterns, p.HasLong db x
  var : x ∈ patterns.flatMap Pattern.vars
  fold : patterns.zipIdx.foldlM (compilePattern db.cache {}) {} = .ok st
  accepted : st.bindings.Accepted
  bound : st.bindings.cell x = some cell

section Long

variable {cell : Cell} (h : BoundLong db patterns x st cell)

include h

theorem BoundLong.numeric (hfour : ∀ p ∈ patterns, p.added = .placeholder) :
    (buildAggregateSelect (outerScope db.cache patterns st.bindings) x).2 = true := by
  rcases compilePatterns_place hfour h.fold h.bound with hnone | ⟨p, hp, hx⟩
  · cases hnone
  · obtain ⟨idx, col⟩ := cell
    have hget := mem_zipIdx_iff_getElem?.mp hp
    obtain ⟨hentity, hattr, htx, htype⟩ := h.long p (mem_of_getElem? hget)
    have hcol : col = .v := by
      cases col with
      | e => exact absurd hx hentity
      | a => exact absurd hx hattr
      | tx => exact absurd hx htx
      | v => rfl
      | _ => exact nomatch hx
    subst hcol
    have hscope : (outerScope db.cache patterns st.bindings).type x = some .long := by
      simp only [outerScope, h.bound, Option.bind_some, if_true, hget, htype hx]
    simp [buildAggregateSelect, hscope]

theorem BoundLong.exists_long {rows : List LogRow} (hrows : ReadTogether db σ patterns rows) :
    ∃ m, σ x = .long m :=
  hrows.exists_long h.typed h.long h.var

theorem BoundLong.mem_operands_iff {joined : List LogRow} {text : String} :
    (joined ∈ (Select.mk outputs st.joins st.bindings.clauses).joined db ∧
        cell.output.text fmt joined = some text) ↔
      ∃ σ, ReadTogether db σ patterns joined ∧ valueDecodeExpr fmt (σ x) = text := by
  rw [h.typed.mem_joined_iff h.idents h.fold h.accepted, ← exists_and_right]
  refine exists_congr fun σ => and_congr_right fun hrows => ?_
  rw [hrows.output_text h.typed h.idents h.fold h.accepted h.bound, Option.some.injEq]

theorem BoundLong.readIntegers_eq : readIntegers db x patterns =
    family ((Select.mk outputs st.joins st.bindings.clauses).joined db)
      fun joined => (cell.output.text fmt joined).bind numericText := by
  ext ⟨joined, n⟩
  have hrow {text : String} :
      (joined ∈ (Select.mk outputs st.joins st.bindings.clauses).joined db ∧
        cell.output.text fmt joined = some text) ↔ _ := h.mem_operands_iff
  constructor
  · rintro ⟨-, σ, hrows, hn⟩
    obtain ⟨m, hm⟩ := h.exists_long hrows
    obtain ⟨hjoined, htext⟩ := hrow.mpr ⟨σ, hrows, rfl⟩
    refine ⟨hjoined, ?_⟩
    rw [hm] at hn htext
    show (cell.output.text fmt joined).bind numericText = some n
    rw [htext, ← hn]
    exact TextCodec.parseInt_toString m.toInt
  · rintro ⟨hjoined, hn⟩
    obtain ⟨text, htext, hn⟩ := Option.bind_eq_some_iff.mp hn
    obtain ⟨σ, hrows, rfl⟩ := hrow.mp ⟨hjoined, htext⟩
    obtain ⟨m, hm⟩ := h.exists_long hrows
    refine ⟨h.var, σ, hrows, ?_⟩
    rw [hm] at hn ⊢
    rw [← hn]
    exact (TextCodec.parseInt_toString m.toInt).symm

theorem BoundLong.texts_eq (hoperand : s.operand = some cell.output)
    (hoperands : s.operands = ⟨outputs, st.joins, st.bindings.clauses⟩) :
    s.texts fmt db = ((s.operands.joined db).filterMap fun joined =>
      (cell.output.text fmt joined).bind numericText).map toString := by
  rw [AggregateSelect.texts, map_filterMap, hoperand]
  refine filterMap_congr fun joined hjoined => ?_
  rw [Option.bind_some]
  cases htext : cell.output.text fmt joined with
  | none => rfl
  | some text =>
    rw [hoperands] at hjoined
    obtain ⟨σ, hrows, rfl⟩ := h.mem_operands_iff.mp ⟨hjoined, htext⟩
    obtain ⟨m, hm⟩ := h.exists_long hrows
    have hparse : numericText (toString m.toInt) = some m.toInt := TextCodec.parseInt_toString _
    rw [hm, Option.bind_some]
    exact congrArg (Option.map toString) hparse.symm

end Long

theorem aggregate_rows (fmt : FloatFormat) (ops : SqlOperators) (htyped : db.Typed)
    (hidents : db.PlainIdents) (hnodup : db.current.Nodup)
    (hfour : ∀ p ∈ patterns, p.added = .placeholder) (hlong : ∀ p ∈ patterns, p.HasLong db x)
    (hbuild : buildArm db.cache {} (.aggregate fn x) patterns = .ok arm) (hacc : arm.Accepted) :
    (readIntegers db x patterns).Finite ∧ ∃ r, arm.rows fmt ops db = some [[r.map toString]] ∧
      ∀ r', fn.Of (readIntegers db x patterns) r' ↔ r' = r := by
  obtain ⟨st, s, hfold, rfl, rfl, hoperand, hnumeric, hoperands⟩ := aggregate_ok hbuild
  have hcells : st.bindings.cell x ≠ none ↔ _ := compilePatterns_cell hfour hfold
  rw [or_iff_right fun h => h rfl] at hcells
  cases hcell : st.bindings.cell x with
  | none =>
    have hempty : readIntegers db x patterns = family [] fun _ => none := by
      ext p
      exact ⟨fun hp => absurd hcell (hcells.mpr hp.1), fun hp => absurd hp.1 not_mem_nil⟩
    have htexts : s.texts fmt db = ([] : List ℤ).map toString := by
      rw [AggregateSelect.texts, hoperand, hcell]
      exact filterMap_none _
    refine ⟨hempty ▸ finite_family, s.fn.eval [], ?_, fun r' => ?_⟩
    · rw [ArmSelect.rows, AggregateSelect.result_eq htexts (.inr rfl)]
      rfl
    · rw [hempty, AggregateFn.of_family nodup_nil]
      rfl
  | some cell =>
    have hx := hcells.mp (by rw [hcell]; exact Option.some_ne_none cell)
    have hacc' : st.bindings.Accepted := by
      have hclauses : s.clauses = st.bindings.clauses := congrArg Select.clauses hoperands
      rw [PatternBindings.Accepted, ← hclauses]
      exact hacc.1
    rw [hcell] at hoperand
    have hbound : BoundLong db patterns x st cell :=
      ⟨htyped, hidents, hlong, hx, hfold, hacc', hcell⟩
    rw [hbound.numeric hfour] at hnumeric
    have htexts : s.texts fmt db = _ := hbound.texts_eq hoperand hoperands
    have hfamily : readIntegers db x patterns =
        family ((Select.mk s.operand.toList st.joins st.bindings.clauses).joined db)
          fun joined => (cell.output.text fmt joined).bind numericText :=
      hbound.readIntegers_eq
    refine ⟨hfamily ▸ finite_family, s.fn.eval ((s.operands.joined db).filterMap fun joined =>
      (cell.output.text fmt joined).bind numericText), ?_, fun r' => ?_⟩
    · rw [ArmSelect.rows, AggregateSelect.result_eq htexts (.inl hnumeric)]
      rfl
    · rw [hoperands, hfamily]
      exact AggregateFn.of_family (nodup_joined hnodup hfold)

end Arms

section Union

variable {db : Db} {q : OrQuery} {fmt : FloatFormat} {ops : SqlOperators} {arms : List ArmSelect}

variable {temporal : TemporalOption}

theorem buildOrQuery_ok {c : SchemaCache} (h : buildOrQuery c temporal q = .ok arms) :
    Forall₂ (fun branch arm => buildArm c temporal q.find (q.base ++ branch) = .ok arm)
      q.branches arms := by
  obtain ⟨_, -, h⟩ := bind_eq_ok h
  exact forall₂_of_mapM_ok h

theorem unionRows_eq {P : List Pattern → List (List (Option String)) → Prop}
    {branches : List (List Pattern)}
    (h : Forall₂ (fun branch (arm : ArmSelect) =>
      ∃ rows, arm.rows fmt ops db = some rows ∧ P branch rows) branches arms) :
    ∃ parts, unionRows fmt ops db arms = some parts.flatten.dedup ∧
      Forall₂ P branches parts := by
  have hparts : ∃ parts, arms.mapM (ArmSelect.rows fmt ops db) = some parts ∧
      Forall₂ P branches parts := by
    induction h with
    | nil => exact ⟨[], rfl, .nil⟩
    | cons harm _ ih =>
      obtain ⟨rows, hrows, hP⟩ := harm
      obtain ⟨parts, hparts, hPs⟩ := ih
      refine ⟨rows :: parts, ?_, .cons hP hPs⟩
      rw [mapM_cons, hrows, hparts]
      rfl
  obtain ⟨parts, hparts, hP⟩ := hparts
  refine ⟨parts, ?_, hP⟩
  rw [unionRows, hparts]
  rfl

theorem mentatOrQuery_eq {maxRows : Nat} {rows : List (List (Option String))}
    (hbuild : buildOrQuery db.cache temporal q = .ok arms) (hne : arms ≠ [])
    (hacc : ∀ arm ∈ arms, arm.Accepted) (hrows : unionRows fmt ops db arms = some rows) :
    mentatOrQuery fmt ops maxRows temporal q db =
      if 0 < maxRows ∧ maxRows < rows.length then .error (.resultLimitExceeded maxRows)
      else .ok (rows.map fun row => row.map (resultValue fmt)) := by
  unfold mentatOrQuery
  rw [hbuild]
  refine (if_pos ⟨hne, hacc⟩).trans ?_
  rw [hrows]
  rfl

theorem dedup_eq_singleton {α : Type} [DecidableEq α] {l : List α} {a : α} (hne : l ≠ []) :
    l.dedup = [a] ↔ ∀ b ∈ l, b = a := by
  constructor
  · intro h b hb
    rw [← mem_dedup, h] at hb
    exact mem_singleton.mp hb
  · intro h
    rw [eq_replicate_of_mem h, replicate_dedup]
    exact fun hlength => hne (length_eq_zero_iff.mp hlength)

theorem mem_unionRows_rel (fmt : FloatFormat) (ops : SqlOperators) (htyped : db.Typed)
    (hidents : db.PlainIdents) {vars : List String} {bodies : List (List Pattern)}
    (hbuild : Forall₂ (fun body arm => buildArm db.cache {} (.rel vars) body = .ok arm)
      bodies arms)
    (hacc : ∀ arm ∈ arms, arm.Accepted) :
    ∃ rows, unionRows fmt ops db arms = some rows ∧ rows.Nodup ∧
      ∀ row, row ∈ rows ↔ ∃ body ∈ bodies, ∃ σ,
        (∀ p ∈ body, ∃ r ∈ db.current, p.Reads db σ r.live) ∧
          vars.map (fun x => some (valueDecodeExpr fmt (σ x))) = row := by
  have hread := ((List.forall₂_and_left _ _).mpr ⟨hacc, hbuild.flip⟩).flip.imp
    fun branch arm h => rel_rows fmt ops htyped hidents h.2 h.1
  obtain ⟨parts, hrows, hparts⟩ := unionRows_eq hread
  refine ⟨_, hrows, nodup_dedup _, fun row => ?_⟩
  rw [mem_dedup, mem_flatten]
  constructor
  · rintro ⟨rows, hrows, hrow⟩
    obtain ⟨body, hbody, hiff⟩ := exists_mem_of_forall₂ hparts.flip rows hrows
    exact ⟨body, hbody, (hiff row).mp hrow⟩
  · rintro ⟨body, hbody, hread⟩
    obtain ⟨rows, hrows, hiff⟩ := exists_mem_of_forall₂ hparts body hbody
    exact ⟨rows, hrows, (hiff row).mpr hread⟩

theorem rel_unionRows (fmt : FloatFormat) (ops : SqlOperators) (htyped : db.Typed)
    (hidents : db.PlainIdents) {vars : List String} (hfind : q.find = .rel vars)
    (hbuild : buildOrQuery db.cache {} q = .ok arms) (hacc : ∀ arm ∈ arms, arm.Accepted) :
    ∃ texts, unionRows fmt ops db arms = some texts ∧
      {row | row ∈ texts.map fun text => text.map (resultValue fmt)} =
        q.readAnswers fmt db vars := by
  have harms := buildOrQuery_ok hbuild
  rw [hfind] at harms
  obtain ⟨texts, htexts, -, hmem⟩ := mem_unionRows_rel fmt ops htyped hidents
    (List.forall₂_map_left_iff.mpr harms) hacc
  have hjson (σ : Assignment) :
      (vars.map fun x => some (valueDecodeExpr fmt (σ x))).map (resultValue fmt) =
        vars.map fun x => (σ x).json fmt := by
    rw [map_map]
    rfl
  refine ⟨texts, htexts, ?_⟩
  ext row
  show row ∈ texts.map _ ↔ ∃ branch ∈ q.branches, _
  rw [mem_map]
  simp only [hmem, mem_map, exists_exists_and_eq_and]
  constructor
  · rintro ⟨_, ⟨branch, hbranch, σ, hreads, rfl⟩, rfl⟩
    exact ⟨branch, hbranch, σ, hreads, (hjson σ).symm⟩
  · rintro ⟨branch, hbranch, σ, hreads, rfl⟩
    exact ⟨_, ⟨branch, hbranch, σ, hreads, rfl⟩, hjson σ⟩

/-- The statement returns one row if the aggregates of all branches are the same. -/
theorem aggregate_unionRows (fmt : FloatFormat) (ops : SqlOperators) (htyped : db.Typed)
    (hidents : db.PlainIdents) (hnodup : db.current.Nodup) (hfour : q.FourPlaces)
    {fn : AggregateFn} {x : String} (hlong : q.LongVariable db x)
    (hfind : q.find = .aggregate fn x)
    (hbuild : buildOrQuery db.cache {} q = .ok arms) (hne : arms ≠ [])
    (hacc : ∀ arm ∈ arms, arm.Accepted) :
    ∃ texts, unionRows fmt ops db arms = some texts ∧
      (∀ branch ∈ q.branches, (q.branchIntegers db x branch).Finite) ∧
      ∀ row, texts = [row] ↔ ∃ r : Option ℤ, row = [r.map toString] ∧
        ∀ branch ∈ q.branches, fn.Of (q.branchIntegers db x branch) r := by
  have harms := buildOrQuery_ok hbuild
  rw [hfind] at harms
  have hboth := (List.forall₂_and_left _ _).mpr
    ⟨fun branch hbranch => hbranch, ((List.forall₂_and_left _ _).mpr ⟨hacc, harms.flip⟩).flip⟩
  have hread : Forall₂ (fun branch (arm : ArmSelect) => ∃ rows,
      arm.rows fmt ops db = some rows ∧ (q.branchIntegers db x branch).Finite ∧
        ∃ r, rows = [[r.map toString]] ∧ ∀ r', fn.Of (q.branchIntegers db x branch) r' ↔ r' = r)
      q.branches arms := by
    refine hboth.imp fun branch arm h => ?_
    obtain ⟨hbranch, haccepted, harm⟩ := h
    obtain ⟨hfinite, r, hrows, hr⟩ := aggregate_rows fmt ops htyped hidents hnodup
      (hfour branch hbranch) (hlong branch hbranch) harm haccepted
    exact ⟨_, hrows, hfinite, r, rfl, hr⟩
  obtain ⟨parts, hrows, hparts⟩ := unionRows_eq hread
  have hnonempty : parts.flatten ≠ [] := by
    obtain ⟨arm, harm⟩ := exists_mem_of_ne_nil arms hne
    obtain ⟨branch, hbranch, -⟩ := exists_mem_of_forall₂ harms.flip arm harm
    obtain ⟨_, hpart, -, r, rfl, -⟩ := exists_mem_of_forall₂ hparts branch hbranch
    exact ne_nil_of_mem (mem_flatten.mpr ⟨_, hpart, mem_singleton_self _⟩)
  refine ⟨_, hrows, fun branch hbranch => ?_, fun row => ?_⟩
  · obtain ⟨_, -, hfinite, -⟩ := exists_mem_of_forall₂ hparts branch hbranch
    exact hfinite
  · -- every branch has one row, and one is left if they are all the same
    rw [dedup_eq_singleton hnonempty]
    constructor
    · intro h
      obtain ⟨first, hfirst⟩ := exists_mem_of_ne_nil _ hnonempty
      obtain ⟨part, hpart, hfirst'⟩ := mem_flatten.mp hfirst
      obtain ⟨_, -, -, r, rfl, -⟩ := exists_mem_of_forall₂ hparts.flip part hpart
      have hrow : row = [r.map toString] := (h first hfirst).symm.trans (mem_singleton.mp hfirst')
      refine ⟨r, hrow, fun branch hbranch => ?_⟩
      obtain ⟨_, hpart, -, r', rfl, hr'⟩ := exists_mem_of_forall₂ hparts branch hbranch
      have hrow' := h _ (mem_flatten.mpr ⟨_, hpart, mem_singleton_self _⟩)
      rw [hr']
      exact (Option.map_injective toString_injective
        (singleton_inj.mp (hrow'.trans hrow))).symm
    · rintro ⟨r, rfl, h⟩ row hrow
      obtain ⟨part, hpart, hrow⟩ := mem_flatten.mp hrow
      obtain ⟨branch, hbranch, -, r', rfl, hr'⟩ := exists_mem_of_forall₂ hparts.flip part hpart
      rw [mem_singleton.mp hrow, (hr' r).mp (h branch hbranch)]

end Union

section Plain

variable {db : Db} {q : OrQuery} {fmt : FloatFormat} {branch : List Pattern} {σ : Assignment}

def FindSpec.vars : FindSpec → List String
  | rel vars => vars
  | aggregate _ x => [x]

/-- A `:find` of variables that all branches bind, with plain constants, and no name of the base
that a branch of an `or-join` uses without having it in the header. -/
structure OrQuery.Simple (q : OrQuery) (db : Db) : Prop where
  visible : ∀ branch ∈ q.branches, ∀ x ∈ q.find.vars, x ∈ q.scope branch
  bound : ∀ fn x, q.find = .aggregate fn x → ∀ branch ∈ q.branches,
    x ∈ (q.base ++ branch).flatMap Pattern.vars
  constants : ∀ branch ∈ q.branches, ∀ p ∈ q.base ++ branch, p.Plain db
  header : ∀ header, q.unifyVars = .explicit header → ∀ branch ∈ q.branches,
    ∀ x ∈ branch.flatMap Pattern.vars, x ∈ q.baseVars → x ∈ header

/-- Of an aggregate moreover every branch has what is taken from the union, and the result is an
integer of 64 bits. -/
structure OrQuery.Plain (q : OrQuery) (db : Db) : Prop extends q.Simple db where
  branches : ∀ fn x, q.find = .aggregate fn x → ∀ branch ∈ q.branches, q.Suffices db x branch fn
  fits : ∀ fn x n, q.find = .aggregate fn x → fn.Of (q.integers db x) (some n) →
    -2 ^ 63 ≤ n ∧ n < 2 ^ 63

theorem OrQuery.exists_reads (hfour : ∀ p ∈ q.base ++ branch, p.added = .placeholder)
    (hconstants : ∀ p ∈ q.base ++ branch, p.Plain db)
    (hheader : ∀ header, q.unifyVars = .explicit header →
      ∀ x ∈ branch.flatMap Pattern.vars, x ∈ q.baseVars → x ∈ header)
    (h : q.Satisfies db branch σ) :
    ∃ ρ : Assignment, (∀ p ∈ q.base ++ branch, ∃ r ∈ db.current, p.Reads db ρ r.live) ∧
      ∀ x ∈ q.scope branch, ρ x = σ x := by
  obtain ⟨hbase, τ, hshare, hbranch⟩ := h
  -- the variables of the branch are taken from its own assignment
  let ρ : Assignment := fun x => if x ∈ branch.flatMap Pattern.vars then τ x else σ x
  have hshared : ∀ x ∈ q.scope branch, x ∈ branch.flatMap Pattern.vars → τ x = σ x := by
    intro x hscope hx
    unfold OrQuery.scope at hscope
    cases hunify : q.unifyVars with
    | implicit =>
      rw [hunify] at hshare
      exact congrFun hshare x
    | explicit header =>
      rw [hunify] at hshare hscope
      rcases mem_append.mp hscope with hx' | hx'
      · exact hshare x (hheader header hunify x hx hx')
      · exact hshare x hx'
  have hscope : ∀ x ∈ q.scope branch, ρ x = σ x := by
    intro x hx
    by_cases hbranchVar : x ∈ branch.flatMap Pattern.vars
    · exact (if_pos hbranchVar).trans (hshared x hx hbranchVar)
    · exact if_neg hbranchVar
  have hread {p : Pattern} {τ' : Assignment} (hp : p ∈ q.base ++ branch)
      (hagree : ∀ x ∈ p.vars, τ' x = ρ x) (h : ∃ r ∈ db.current, p.Matches db τ' r) :
      ∃ r ∈ db.current, p.Reads db ρ r.live := by
    obtain ⟨r, hr, hmatch⟩ := h
    refine ⟨r, hr, (Pattern.reads_congr (hfour p hp) hagree).mp ?_⟩
    exact ((hconstants p hp).reads_iff (hfour p hp)).mpr hmatch
  refine ⟨ρ, fun p hp => ?_, hscope⟩
  rcases mem_append.mp hp with hp' | hp'
  · refine hread hp (fun x hx => (hscope x ?_).symm) (hbase p hp')
    exact mem_append_left _ (mem_flatMap.mpr ⟨p, hp', hx⟩)
  · refine hread hp (fun x hx => ?_) (hbranch p hp')
    exact (if_pos (mem_flatMap.mpr ⟨p, hp', hx⟩)).symm

section Simple

variable (h : q.Simple db) (hfour : q.FourPlaces)

include h hfour

theorem OrQuery.Simple.mem_substitutionsOf (hbranch : branch ∈ q.branches)
    {s : String → Option TypedValue} : s ∈ q.substitutionsOf db branch ↔
      ∃ σ : Assignment, (∀ p ∈ q.base ++ branch, ∃ r ∈ db.current, p.Reads db σ r.live) ∧
        s = σ.restrict (q.scope branch) := by
  constructor
  · rintro ⟨σ, hsatisfies, rfl⟩
    obtain ⟨ρ, hreads, hscope⟩ := OrQuery.exists_reads (hfour branch hbranch)
      (h.constants branch hbranch)
      (fun header hheader => h.header header hheader branch hbranch) hsatisfies
    refine ⟨ρ, hreads, funext fun x => ?_⟩
    unfold Assignment.restrict
    split
    · rw [hscope x ‹_›]
    · rfl
  · rintro ⟨σ, hreads, rfl⟩
    have hmatches : ∀ p ∈ q.base ++ branch, ∃ r ∈ db.current, p.Matches db σ r := by
      intro p hp
      obtain ⟨r, hr, hread⟩ := hreads p hp
      have hp' := h.constants branch hbranch p hp
      exact ⟨r, hr, (hp'.reads_iff (hfour branch hbranch p hp)).mp hread⟩
    have hshare : q.unifyVars.Share σ σ := by
      cases q.unifyVars with
      | implicit => rfl
      | explicit header => exact fun x _ => rfl
    refine ⟨σ, ⟨?_, σ, hshare, ?_⟩, rfl⟩
    · exact fun p hp => hmatches p (mem_append_left _ hp)
    · exact fun p hp => hmatches p (mem_append_right _ hp)

theorem OrQuery.Simple.readAnswers_eq {vars : List String} (hfind : q.find = .rel vars) :
    q.readAnswers fmt db vars = q.answers fmt db vars := by
  have hjson (σ : Assignment) (branch : List Pattern) (hbranch : branch ∈ q.branches) :
      (vars.map fun x => ((σ.restrict (q.scope branch) x).map (TypedValue.json fmt)).getD .null) =
        vars.map fun x => (σ x).json fmt := by
    refine map_congr_left fun x hx => ?_
    have hscope := h.visible branch hbranch x (by rw [hfind]; exact hx)
    rw [Assignment.restrict, if_pos hscope, Option.map_some, Option.getD_some]
  ext row
  constructor
  · rintro ⟨branch, hbranch, σ, hreads, rfl⟩
    have hs := (h.mem_substitutionsOf hfour hbranch).mpr ⟨σ, hreads, rfl⟩
    exact ⟨_, ⟨branch, hbranch, hs⟩, hjson σ branch hbranch⟩
  · rintro ⟨s, ⟨branch, hbranch, hs⟩, rfl⟩
    obtain ⟨σ, hreads, rfl⟩ := (h.mem_substitutionsOf hfour hbranch).mp hs
    exact ⟨branch, hbranch, σ, hreads, (hjson σ branch hbranch).symm⟩

variable {fn : AggregateFn} {x : String} (hfind : q.find = .aggregate fn x)

include hfind

theorem OrQuery.Simple.indexedBy (hbranch : branch ∈ q.branches) :
    IndexedBy db (q.base ++ branch) x (fun σ => σ.restrict (q.scope branch))
      (q.integersOf db x branch) := by
  have hscope := h.visible branch hbranch x (by rw [hfind]; exact mem_singleton_self x)
  have hvalue (σ : Assignment) : (σ.restrict (q.scope branch) x).bind TypedValue.integer =
      (σ x).integer := by
    rw [Assignment.restrict, if_pos hscope, Option.bind_some]
  refine ⟨h.bound fn x hfind branch hbranch, fun s n => ?_⟩
  show s ∈ q.substitutionsOf db branch ∧ (s x).bind TypedValue.integer = some n ↔ _
  rw [h.mem_substitutionsOf hfour hbranch]
  constructor
  · rintro ⟨⟨σ, hreads, rfl⟩, hn⟩
    obtain ⟨rows, hrows⟩ := exists_readTogether_iff.mpr hreads
    exact ⟨σ, rows, hrows, rfl, (hvalue σ).symm.trans hn⟩
  · rintro ⟨σ, rows, hrows, rfl, hn⟩
    exact ⟨⟨σ, exists_readTogether_iff.mp ⟨rows, hrows⟩, rfl⟩, (hvalue σ).trans hn⟩

end Simple

theorem OrQuery.integersOf_subset {x : String} (hbranch : branch ∈ q.branches) :
    q.integersOf db x branch ⊆ q.integers db x :=
  fun _ hp => ⟨⟨branch, hbranch, hp.1⟩, hp.2⟩

theorem OrQuery.mem_values_integers {x : String} {n : ℤ} : n ∈ values (q.integers db x) ↔
    ∃ branch ∈ q.branches, n ∈ values (q.integersOf db x branch) := by
  constructor
  · rintro ⟨s, ⟨branch, hbranch, hs⟩, hn⟩
    exact ⟨branch, hbranch, s, hs, hn⟩
  · rintro ⟨branch, hbranch, s, hs⟩
    exact ⟨s, q.integersOf_subset hbranch hs⟩

theorem OrQuery.values_integersOf_subset {x : String} (hbranch : branch ∈ q.branches) :
    values (q.integersOf db x branch) ⊆ values (q.integers db x) :=
  fun _ hn => q.mem_values_integers.mpr ⟨branch, hbranch, hn⟩

section Aggregates

variable {fn : AggregateFn} {x : String} {r : Option ℤ} (h : q.Simple db) (hfour : q.FourPlaces)
  (hfind : q.find = .aggregate fn x)

include h hfour

theorem OrQuery.Simple.sum_iff (hfind : q.find = .aggregate .sum x)
    (hbranch : branch ∈ q.branches) (hsuffices : q.Suffices db x branch .sum) :
    AggregateFn.sum.Of (q.integers db x) r ↔
      AggregateFn.sum.Of (q.branchIntegers db x branch) r := by
  obtain ⟨hsubset, hscope, honce⟩ := hsuffices
  rw [hsubset.antisymm (q.integersOf_subset hbranch)]
  refine (h.indexedBy hfour hfind hbranch).sum_iff (fun σ τ hστ => funext fun y => ?_) honce
  unfold Assignment.restrict
  split
  · rw [hστ y (hscope y ‹_›)]
  · rfl

include hfind

theorem OrQuery.Simple.values_integers_finite
    (hfinite : ∀ branch ∈ q.branches, (q.branchIntegers db x branch).Finite) :
    (values (q.integers db x)).Finite := by
  have hunion : values (q.integers db x) ⊆
      ⋃ branch ∈ {b | b ∈ q.branches}, values (q.branchIntegers db x branch) := by
    intro n hn
    obtain ⟨branch, hbranch, hn⟩ := q.mem_values_integers.mp hn
    have hvalues := (h.indexedBy hfour hfind hbranch).values_eq
    exact Set.mem_iUnion₂.mpr ⟨branch, hbranch, hvalues ▸ hn⟩
  refine Set.Finite.subset (Set.Finite.biUnion (List.finite_toSet q.branches) ?_) hunion
  intro branch hbranch
  rw [values_eq_image]
  exact (hfinite branch hbranch).image _

theorem OrQuery.Simple.branchIntegers_eq_empty (hnone : q.integers db x = ∅)
    (hbranch : branch ∈ q.branches) : q.branchIntegers db x branch = ∅ := by
  have hvalues := (h.indexedBy hfour hfind hbranch).values_eq
  rw [← values_eq_empty, branchIntegers, ← hvalues, ← Set.subset_empty_iff,
    ← values_eq_empty.mpr hnone]
  exact q.values_integersOf_subset hbranch

/-- The branch has the aggregate of the union if it has what is taken from it, and apart from sums
only then. -/
theorem OrQuery.Simple.of_iff_suffices
    (hfinite : ∀ branch ∈ q.branches, (q.branchIntegers db x branch).Finite)
    (hbranch : branch ∈ q.branches) (hr : fn.Of (q.integers db x) r) :
    (q.Suffices db x branch fn → fn.Of (q.branchIntegers db x branch) r) ∧
      (fn ≠ .sum → fn.Of (q.branchIntegers db x branch) r → q.Suffices db x branch fn) := by
  have hvalues : values (q.integersOf db x branch) = values (q.branchIntegers db x branch) :=
    (h.indexedBy hfour hfind hbranch).values_eq
  have hsubset := hvalues ▸ q.values_integersOf_subset hbranch
  have htakes (hsum : fn ≠ .sum) := AggregateFn.of_iff_takes hsum hsubset
    (h.values_integers_finite hfour hfind hfinite) hr
  rw [← hvalues] at htakes
  cases fn with
  | sum => exact ⟨fun hsuffices => (h.sum_iff hfour hfind hbranch hsuffices).mp hr, absurd rfl⟩
  | count => exact ⟨(htakes nofun).mpr, fun hsum => (htakes hsum).mp⟩
  | min => exact ⟨(htakes nofun).mpr, fun hsum => (htakes hsum).mp⟩
  | max => exact ⟨(htakes nofun).mpr, fun hsum => (htakes hsum).mp⟩

end Aggregates

end Plain

section Number

variable {fmt : FloatFormat} {r : Option ℤ}

theorem showsNumber_of_fits (h : ∀ n, r = some n → -2 ^ 63 ≤ n ∧ n < 2 ^ 63) :
    ShowsNumber (resultValue fmt (r.map toString)) r := by
  cases r with
  | none => rfl
  | some n =>
    obtain ⟨hlo, hhi⟩ := h n rfl
    have hn : (Int64.ofInt n).toInt = n := Int64.toInt_ofInt_of_le hlo hhi
    refine ⟨Int64.ofInt n, hn, decodeTextResult_of_parseI64 ?_⟩
    have hparse := TypedValue.parseI64_toString (Int64.ofInt n)
    rwa [hn] at hparse

/-- A number that does not fit in 64 bits is not decoded to an integer. -/
theorem fits_of_showsNumber {n : ℤ} (h : ShowsNumber (resultValue fmt (r.map toString)) (some n)) :
    r = some n ∧ -2 ^ 63 ≤ n ∧ n < 2 ^ 63 := by
  obtain ⟨m, rfl, hm⟩ := h
  cases r with
  | none => cases hm
  | some k =>
    have hparse := parseI64_of_decodeTextResult (show decodeTextResult fmt (toString k) = _ from hm)
    have hk : TextCodec.parseInt (toString k).toList = some k := TextCodec.parseInt_toString k
    unfold TypedValue.parseI64 at hparse
    rw [hk] at hparse
    obtain ⟨hbounds, hk⟩ := Option.ite_none_right_eq_some.mp hparse
    cases hk
    rw [Int64.toInt_ofInt_of_le hbounds.1 hbounds.2]
    exact ⟨rfl, hbounds⟩

end Number

section Outcome

variable {db : Db} {q : OrQuery} {fmt : FloatFormat} {fn : AggregateFn} {x : String}
  {texts : List (List (Option String))} (hfour : q.FourPlaces)
  (hfinite : ∀ branch ∈ q.branches, (q.branchIntegers db x branch).Finite)
  (hfind : q.find = .aggregate fn x)
  (htexts : ∀ row, texts = [row] ↔ ∃ r : Option ℤ, row = [r.map toString] ∧
    ∀ branch ∈ q.branches, fn.Of (q.branchIntegers db x branch) r)

include hfour hfinite hfind htexts

theorem OrQuery.Plain.aggregate_evaluatesUnion (fmt : FloatFormat) (h : q.Plain db) :
    q.EvaluatesUnion fmt db (texts.map fun row => row.map (resultValue fmt)) := by
  obtain ⟨r, hr⟩ := AggregateFn.exists_of (f := fn)
    (h.toSimple.values_integers_finite hfour hfind hfinite)
  have hbranches : ∀ branch ∈ q.branches, fn.Of (q.branchIntegers db x branch) r := by
    intro branch hbranch
    exact (h.toSimple.of_iff_suffices hfour hfind hfinite hbranch hr).1
      (h.branches fn x hfind branch hbranch)
  unfold OrQuery.EvaluatesUnion
  rw [hfind, (htexts _).mpr ⟨r, rfl, hbranches⟩]
  refine ⟨r, _, hr, showsNumber_of_fits fun n hn => ?_, rfl⟩
  exact h.fits fn x n hfind (hn ▸ hr)

theorem OrQuery.Simple.plain_of_evaluatesUnion (h : q.Simple db) (hne : q.branches ≠ [])
    (hsum : fn ≠ .sum)
    (hunion : q.EvaluatesUnion fmt db (texts.map fun row => row.map (resultValue fmt))) :
    q.Plain db := by
  unfold OrQuery.EvaluatesUnion at hunion
  rw [hfind] at hunion
  obtain ⟨r, json, hr, hjson, hrows⟩ := hunion
  obtain ⟨row, rfl, hrow⟩ := map_eq_singleton_iff.mp hrows
  obtain ⟨r', rfl, hbranches⟩ := (htexts row).mp rfl
  obtain rfl : resultValue fmt (r'.map toString) = json := singleton_inj.mp hrow
  obtain ⟨first, hfirst⟩ := exists_mem_of_ne_nil q.branches hne
  obtain rfl : r' = r := by
    cases r with
    | some n => exact (fits_of_showsNumber hjson).1
    | none =>
      obtain ⟨hcount, hnone⟩ := hr.of_none
      have hof := hbranches first hfirst
      rw [h.branchIntegers_eq_empty hfour hfind hnone hfirst] at hof
      exact hof.unique (AggregateFn.of_empty hcount)
  refine { h with branches := fun fn' x' hfind' branch hbranch => ?_, fits := ?_ }
  · cases hfind.symm.trans hfind'
    exact (h.of_iff_suffices hfour hfind hfinite hbranch hr).2 hsum (hbranches branch hbranch)
  · intro fn' x' n hfind' hn
    cases hfind.symm.trans hfind'
    obtain rfl := hr.unique hn
    exact (fits_of_showsNumber hjson).2

end Outcome

instance (db : Db) (x : String) (p : Pattern) : Decidable (p.HasLong db x) :=
  inferInstanceAs (Decidable (_ ∧ _ ∧ _ ∧ _))

instance (q : OrQuery) (db : Db) (x : String) : Decidable (q.LongVariable db x) :=
  inferInstanceAs (Decidable (∀ branch ∈ q.branches, ∀ p ∈ q.base ++ branch, p.HasLong db x))

instance (q : OrQuery) : Decidable q.FourPlaces :=
  inferInstanceAs (Decidable
    (∀ branch ∈ q.branches, ∀ p ∈ q.base ++ branch, p.added = .placeholder))

/-- `[:find ?d :where [?e :db/doc ?d] (or-join [?e] [?e :db/valueType ?t] [?e :db/doc "a"])]`. -/
def typedOrNamedQuery : OrQuery where
  find := .rel ["?d"]
  base := [{ entity := .variable "?e", attr := .ident (.namespaced "db" "doc"),
             value := .variable "?d" }]
  unifyVars := .explicit ["?e"]
  branches :=
    [[{ entity := .variable "?e", attr := .ident (.namespaced "db" "valueType"),
        value := .variable "?t" }],
     [{ entity := .variable "?e", attr := .ident (.namespaced "db" "doc"),
        value := .constant (.text "a") }]]

/-- The attribute `:person/age`, of type long. -/
def defineAge : Call :=
  defineCall 1000000000001 1735689600000000 1000001
    [("ident", .namespaced "person" "age"), ("valueType", .namespaced "db.type" "long"),
     ("cardinality", .namespaced "db.cardinality" "one")]

def agesCall : Call :=
  plainCall 1000000000002 1735689601000000
    [addDatom 500 1000001 (.integer 30), addDatom 501 1000001 (.integer 40)]

def ageOf (place : PatternNonValuePlace) : Pattern where
  entity := place
  attr := .ident (.namespaced "person" "age")
  value := .variable "?n"

/-- `[:find (fn ?n) :where (or [place :person/age ?n] ..)]`. -/
def agesQuery (fn : AggregateFn) (places : List PatternNonValuePlace) : OrQuery where
  find := .aggregate fn "?n"
  branches := places.map fun place => [ageOf place]

/-- `[:find (max ?n) :where (or [501 :person/age ?n] [_ :person/age ?n])]`. -/
def maxAgesQuery : OrQuery := agesQuery .max [.entid 501, .placeholder]

/-- `[:find (count ?n) :where (or [500 :person/age ?n] [501 :person/age ?n])]`. -/
def countAgesQuery : OrQuery := agesQuery .count [.entid 500, .entid 501]

def Db.TwoAges (db : Db) : Prop :=
  (∃ r ∈ db.current, db.attributeNamed (.namespaced "person" "age") = some r.a ∧ r.e = 500 ∧
    r.v = .long 30) ∧
  (∃ r ∈ db.current, db.attributeNamed (.namespaced "person" "age") = some r.a ∧ r.e = 501 ∧
    r.v = .long 40) ∧
  ∀ r ∈ db.current, db.attributeNamed (.namespaced "person" "age") = some r.a →
    r.e = 500 ∧ r.v = .long 30 ∨ r.e = 501 ∧ r.v = .long 40

instance (db : Db) : Decidable db.TwoAges := inferInstanceAs (Decidable (_ ∧ _ ∧ _))

section Ages

variable {db : Db} {fn : AggregateFn} {places : List PatternNonValuePlace}
  {place : PatternNonValuePlace} {n : ℤ}

theorem mem_values_ageOf (hplace : place.var = []) (σ : Assignment) :
    n ∈ values ((agesQuery fn places).integersOf db "?n" [ageOf place]) ↔
      ∃ r ∈ db.current, db.attributeNamed (.namespaced "person" "age") = some r.a ∧
        place.Denotes db.named σ r.e ∧ r.v.integer = some n := by
  have hscope : "?n" ∈ (agesQuery fn places).scope [ageOf place] := by
    show "?n" ∈ [ageOf place].flatMap Pattern.vars
    simp [ageOf, Pattern.vars, PatternValuePlace.var]
  have hplace (τ : Assignment) (e : Int64) :
      place.Denotes db.named τ e ↔ place.Denotes db.named σ e :=
    PatternNonValuePlace.denotes_congr fun y hy => absurd (hplace ▸ hy) not_mem_nil
  have hvalue (τ : Assignment) : τ.restrict ((agesQuery fn places).scope [ageOf place]) "?n" =
      some (τ "?n") := if_pos hscope
  constructor
  · rintro ⟨_, ⟨τ, ⟨-, _, hshare, hmatches⟩, rfl⟩, hn⟩
    cases hshare
    obtain ⟨r, hr, he, ha, hv, -⟩ := hmatches _ (mem_singleton_self _)
    have hn := (congrArg (Option.bind · TypedValue.integer) (hvalue τ)).symm.trans hn
    refine ⟨r, hr, ha, (hplace τ r.e).mp he, ?_⟩
    rw [← show τ "?n" = r.v from hv]
    exact hn
  · rintro ⟨r, hr, ha, he, hn⟩
    let τ : Assignment := fun _ => r.v
    have hsatisfies : (agesQuery fn places).Satisfies db [ageOf place] τ := by
      refine ⟨fun p hp => absurd hp not_mem_nil, τ, Eq.refl τ, fun p hp => ⟨r, hr, ?_⟩⟩
      rw [mem_singleton.mp hp]
      exact ⟨(hplace τ r.e).mpr he, ha, rfl, trivial⟩
    refine ⟨_, ⟨τ, hsatisfies, rfl⟩, ?_⟩
    exact (congrArg (Option.bind · TypedValue.integer) (hvalue τ)).trans hn

theorem Db.TwoAges.mem_values (h : db.TwoAges) (hplace : place.var = []) (σ : Assignment) :
    n ∈ values ((agesQuery fn places).integersOf db "?n" [ageOf place]) ↔
      n = 30 ∧ place.Denotes db.named σ 500 ∨ n = 40 ∧ place.Denotes db.named σ 501 := by
  obtain ⟨⟨r, hr, hra, hre, hrv⟩, ⟨r', hr', hra', hre', hrv'⟩, hall⟩ := h
  rw [mem_values_ageOf hplace σ]
  constructor
  · rintro ⟨r, hr, ha, he, hn⟩
    rcases hall r hr ha with ⟨hre, hv⟩ | ⟨hre, hv⟩ <;> rw [hv] at hn <;> rw [hre] at he
    · exact .inl ⟨(Option.some.inj hn).symm, he⟩
    · exact .inr ⟨(Option.some.inj hn).symm, he⟩
  · rintro (⟨rfl, he⟩ | ⟨rfl, he⟩)
    · exact ⟨r, hr, hra, hre ▸ he, hrv ▸ rfl⟩
    · exact ⟨r', hr', hra', hre' ▸ he, hrv' ▸ rfl⟩

theorem Db.TwoAges.mem_values_integers (h : db.TwoAges) (hplaces : ∀ p ∈ places, p.var = [])
    (hn : n ∈ values ((agesQuery fn places).integers db "?n")) : n = 30 ∨ n = 40 := by
  obtain ⟨branch, hbranch, hn⟩ := OrQuery.mem_values_integers.mp hn
  obtain ⟨place, hplace, rfl⟩ := mem_map.mp hbranch
  rcases (h.mem_values (hplaces place hplace) fun _ => .long 0).mp hn with ⟨h, -⟩ | ⟨h, -⟩
  · exact .inl h
  · exact .inr h

theorem maxAgesQuery_plain (h : db.TwoAges) : maxAgesQuery.Plain db := by
  have hplaces : ∀ place ∈ [.entid 501, PatternNonValuePlace.placeholder], place.var = [] := by
    decide
  have hages {n : ℤ} (hn : n ∈ values (maxAgesQuery.integers db "?n")) : n = 30 ∨ n = 40 :=
    h.mem_values_integers hplaces hn
  have hforty : ∀ branch ∈ maxAgesQuery.branches,
      40 ∈ values (maxAgesQuery.integersOf db "?n" branch) := by
    intro branch hbranch
    obtain ⟨place, hplace, rfl⟩ := mem_map.mp hbranch
    refine (h.mem_values (hplaces place hplace) fun _ => .long 40).mpr (.inr ⟨rfl, ?_⟩)
    rcases mem_pair.mp hplace with rfl | rfl
    · rfl
    · trivial
  refine ⟨⟨by decide, ?_, ?_, nofun⟩, ?_, ?_⟩
  · intro fn x hfind
    cases hfind
    decide
  · intro branch hbranch p hp
    rcases mem_pair.mp hbranch with rfl | rfl <;> rw [mem_singleton.mp hp] <;>
      exact ⟨nofun, nofun, nofun⟩
  · intro fn x hfind branch hbranch
    cases hfind
    intro n hn
    have hle : 40 ≤ n := hn.2 (OrQuery.mem_values_integers.mpr
      ⟨branch, hbranch, hforty branch hbranch⟩)
    rcases hages hn.1 with rfl | rfl
    · omega
    · exact hforty branch hbranch
  · intro fn x n hfind hn
    cases hfind
    rcases hn with ⟨-, hn⟩ | ⟨m, hm, hn⟩
    · cases hn
    · cases hn
      rcases hages hm.1 with rfl | rfl <;> omega

end Ages

end PgMentat

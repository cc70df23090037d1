import PgMentat.Query.Render
import PgMentat.Lib.Unification

namespace PgMentat

open Unification

inductive PatternNonValuePlace where
  | placeholder
  | variable (x : String)
  | entid (id : Int64)
  | ident (k : Keyword)
  deriving DecidableEq, Repr

inductive NonIntegerConstant where
  | boolean (b : Bool)
  | bigInteger (n : Int)
  | float (f : F64)
  | text (s : String)
  | instant (micros : Int64)
  | uuid (u : Uuid)
  deriving DecidableEq, Repr

inductive PatternValuePlace where
  | placeholder
  | variable (x : String)
  | entidOrInteger (i : Int64)
  | identOrKeyword (k : Keyword)
  | constant (c : NonIntegerConstant)
  deriving DecidableEq, Repr

def PatternNonValuePlace.var : PatternNonValuePlace → List String
  | .variable x => [x]
  | _ => []

def PatternValuePlace.var : PatternValuePlace → List String
  | .variable x => [x]
  | _ => []

structure Pattern where
  entity : PatternNonValuePlace := .placeholder
  attr : PatternNonValuePlace := .placeholder
  value : PatternValuePlace := .placeholder
  tx : PatternNonValuePlace := .placeholder
  added : PatternNonValuePlace := .placeholder
  deriving DecidableEq, Repr

structure Query where
  find : List String
  patterns : List Pattern
  deriving DecidableEq, Repr

structure TemporalOption where
  asOf : Option Int64 := none
  since : Option Int64 := none
  history : Bool := false
  deriving DecidableEq, Repr

inductive QueryError where
  | query (message : String)
  | invalidQuery (message suggestion : String)
  | resultLimitExceeded (limit : Nat)
  deriving DecidableEq, Repr

/-- An entry of `var_to_alias`: a subquery and one of `e`, `a`, `v`, `tx`, `added`. -/
abbrev Cell := Nat × Column

abbrev PatternBindings := Bindings String Cell Clause

def bindEntity (idx : Nat) (b : PatternBindings) : PatternNonValuePlace → PatternBindings
  | .variable x => b.bindVar x (idx, .e) fun existing =>
    if existing.2 = .v then .columns idx .e existing.1 .vRef
    else .columns idx .e existing.1 existing.2
  | .entid id => b.push (.param idx .e (.bigint id))
  | .ident k => b.push (.entid idx .e .idents k.display)
  | .placeholder => b

def unknownAttribute (ident : String) : QueryError :=
  .query (":db.error/unknown-attribute Attribute " ++ ident ++ " is not registered in the " ++
    "schema. Define it with a :db/ident schema assertion before querying it.")

def bindAttribute (c : SchemaCache) (idx : Nat) (b : PatternBindings) :
    PatternNonValuePlace → Except QueryError PatternBindings
  | .ident k =>
    if c.resolveIdent k.display = none then .error (unknownAttribute k.display)
    else .ok (b.push (.entid idx .a .schema k.display))
  | .entid id => .ok (b.push (.param idx .a (.bigint id)))
  | .variable x => .ok (b.bindVar x (idx, .a) fun existing =>
    .columns idx .a existing.1 existing.2)
  | .placeholder => .ok b

def resolvePatternValueType (c : SchemaCache) : PatternNonValuePlace → Option ValueType
  | .ident k => ((c.resolveIdent k.display).bind c.getAttribute).map SchemaRow.valueType
  | .entid id => (c.getAttribute id).map SchemaRow.valueType
  | .variable _ | .placeholder => none

def unsupportedConstant : QueryError :=
  .query (":db.error/unsupported-constant BigInteger constants are not supported " ++
    "in query patterns. Use a regular integer (long) value instead.")

/-- A constant is compared with the column of its own type; an integer with `v_ref` if the
attribute is a known ref. -/
def bindConstantValue (idx : Nat) (valueType : Option ValueType) :
    PatternValuePlace → Except QueryError (Option Clause)
  | .entidOrInteger i =>
    if valueType = some .ref then
      .ok (some (.constant idx .vRef (.bigint i) ValueType.ref.toTag))
    else .ok (some (.constant idx .vLong (.bigint i) ValueType.long.toTag))
  | .identOrKeyword k =>
    .ok (some (.constant idx .vKeyword (.text k.stored) ValueType.keyword.toTag))
  | .constant (.boolean b) =>
    .ok (some (.constant idx .vBool (.boolean b) ValueType.boolean.toTag))
  | .constant (.float f) =>
    .ok (some (.constant idx .vDouble (.double f) ValueType.double.toTag))
  | .constant (.text s) =>
    .ok (some (.constant idx .vText (.text s) ValueType.string.toTag))
  | .constant (.instant micros) =>
    .ok (some (.constant idx .vInstant (.timestamptz micros) ValueType.instant.toTag))
  | .constant (.uuid u) =>
    .ok (some (.constant idx .vUuid (.uuid u) ValueType.uuid.toTag))
  | .constant (.bigInteger _) => .error unsupportedConstant
  | .variable _ | .placeholder => .ok none

def bindValue (idx : Nat) (valueType : Option ValueType) (b : PatternBindings)
    (place : PatternValuePlace) : Except QueryError PatternBindings :=
  match place with
  | .variable x => .ok (b.bindVar x (idx, .v) fun existing =>
    if existing.2 = .v then .sameValue idx existing.1
    else .columns idx .vRef existing.1 existing.2)
  | place => do
    match ← bindConstantValue idx valueType place with
    | some clause => return b.push clause
    | none => return b

/-- An ident in this place is passed over. -/
def bindTx (idx : Nat) (b : PatternBindings) : PatternNonValuePlace → PatternBindings
  | .variable x => b.bindVar x (idx, .tx) fun existing => .columns idx .tx existing.1 existing.2
  | .entid id => b.push (.param idx .tx (.bigint id))
  | _ => b

def bindAdded (idx : Nat) (b : PatternBindings) : PatternNonValuePlace → PatternBindings
  | .variable x => b.bindVar x (idx, .added) fun existing =>
    .columns idx .added existing.1 existing.2
  | _ => b

/-- A variable or a placeholder counts as single-valued. -/
def isCardinalityMany (c : SchemaCache) : PatternNonValuePlace → Bool
  | .ident k => ((c.resolveIdent k.display).bind c.getAttribute).any fun r => r.cardinality = .many
  | .entid id => (c.getAttribute id).any fun r => r.cardinality = .many
  | _ => false

def temporalClauses (c : SchemaCache) (temporal : TemporalOption) (idx : Nat)
    (attr : PatternNonValuePlace) : List Clause :=
  (if temporal.history then [] else [.param idx .added (.boolean true)]) ++
  (match temporal.asOf with
    | none => []
    | some tx => .txAtMost idx tx ::
      if isCardinalityMany c attr then []
      else [.notSuperseded idx (resolvePatternValueType c attr) tx]) ++
  (match temporal.since with
    | none => []
    | some tx => [.txAfter idx tx])

/-- Queries without a temporal option read the projection. -/
def TemporalOption.useProjection (temporal : TemporalOption) : Bool :=
  temporal.asOf = none ∧ temporal.since = none ∧ ¬ temporal.history

/-- The ident that is pushed down has a second colon in front. -/
def pushdownConditions (c : SchemaCache) (temporal : TemporalOption) :
    PatternNonValuePlace → PushdownConditions
  | .entid id => ⟨!temporal.history, some id⟩
  | .ident k => ⟨!temporal.history, c.resolveIdent (":" ++ k.display)⟩
  | _ => ⟨!temporal.history, none⟩

def patternSource (c : SchemaCache) (temporal : TemporalOption)
    (attr : PatternNonValuePlace) : Source :=
  match resolvePatternValueType c attr with
  | some type => .typed type (pushdownConditions c temporal attr) temporal.useProjection
  | none => .union temporal.useProjection

structure QueryState where
  bindings : PatternBindings := {}
  joins : List Source := []

def compilePattern (c : SchemaCache) (temporal : TemporalOption) (st : QueryState)
    (pattern : Pattern × Nat) : Except QueryError QueryState := do
  let (p, idx) := pattern
  let b := bindEntity idx st.bindings p.entity
  let b ← bindAttribute c idx b p.attr
  let b ← bindValue idx (resolvePatternValueType c p.attr) b p.value
  let b := bindTx idx b p.tx
  let b := (temporalClauses c temporal idx p.attr).foldl Bindings.push b
  let b := bindAdded idx b p.added
  return { bindings := b, joins := st.joins ++ [patternSource c temporal p.attr] }

structure Select where
  outputs : List Output
  joins : List Source
  clauses : List Clause

def unboundVariable (x : String) : QueryError :=
  .query (":db.error/unbound-variable :find variable " ++ x ++ " is not bound by any " ++
    ":where clause or :in input. Every :find variable must appear in a " ++
    "data pattern, a binding function, or the :in clause.")

def findOutput (b : PatternBindings) (x : String) : Except QueryError Output :=
  match b.cell x with
  | some (idx, .v) => .ok (.valueDecode idx)
  | some (idx, col) => .ok (.column idx col)
  | none => .error (unboundVariable x)

def noFindVariables : QueryError :=
  .invalidQuery ("No :find variables could be resolved to pattern bindings. " ++
      "Ensure every variable in :find also appears in a :where pattern.")
    "Example: [:find ?name :where [?e :person/name ?name]]"

def noJoins : QueryError :=
  .invalidQuery ("No :where clauses produced any datom table joins. " ++
      "Ensure your query has at least one data pattern like [?e :attr ?v].")
    "Pure predicate or function-only queries are not supported."

def buildExtendedPatternQuery (c : SchemaCache) (temporal : TemporalOption) (q : Query) :
    Except QueryError Select := do
  let st ← q.patterns.zipIdx.foldlM (compilePattern c temporal) {}
  let outputs ← q.find.mapM (findOutput st.bindings)
  if outputs = [] then .error noFindVariables
  else if st.joins = [] then .error noJoins
  else return { outputs, joins := st.joins, clauses := st.bindings.clauses }

def Select.Accepted (s : Select) : Prop := ∀ c ∈ s.clauses, c.Accepted

instance (s : Select) : Decidable s.Accepted :=
  inferInstanceAs (Decidable (∀ c ∈ s.clauses, c.Accepted))

def Select.joined (s : Select) (db : Db) : List (List LogRow) :=
  (s.joins.map (Source.rows db)).sections.filter fun joined =>
    ∀ c ∈ s.clauses, c.Holds db joined

/-- `SELECT DISTINCT`. -/
def Select.rows (s : Select) (fmt : FloatFormat) (db : Db) : List (List (Option String)) :=
  ((s.joined db).map fun joined => s.outputs.map (Output.text fmt joined)).dedup

def rejected : QueryError := .invalidQuery "SPI execution error" ""

/-- `mentat_query` with `mentat.max_result_rows`, where 0 is no limit. -/
def mentatQuery (fmt : FloatFormat) (maxRows : Nat) (temporal : TemporalOption) (q : Query)
    (db : Db) : Except QueryError (List (List Json)) := do
  let select ← buildExtendedPatternQuery db.cache temporal q
  if select.Accepted then
    let rows := select.rows fmt db
    if 0 < maxRows ∧ maxRows < rows.length then .error (.resultLimitExceeded maxRows)
    else return rows.map fun row => row.map (resultValue fmt)
  else .error rejected

end PgMentat

import PgMentat.Query.Extended

namespace PgMentat

open Unification

/-- `[(get-else ..) ..]`. -/
structure GetElseFn where
  args : List FnArg
  binding : Binding
  deriving DecidableEq, Repr

inductive DefaultValue where
  | integer (i : Int64)
  | text (s : String)
  | float (f : F64)
  | boolean (b : Bool)
  | keyword (k : Keyword)
  deriving DecidableEq, Repr

structure GetElseClause where
  entityVar : String
  attr : Keyword
  default : DefaultValue
  resultVar : String
  deriving DecidableEq, Repr

def getElseExample : String :=
  "Example: [(get-else $ ?e :person/name \"Unknown\") ?name]"

def getElseArity (got : Nat) : QueryError :=
  .query (":db.error/fn-arity get-else requires exactly 4 arguments " ++
    "($ entity-var attr-keyword default-value), got " ++ toString got ++ ". " ++ getElseExample)

def getElseBinding : QueryError :=
  .query (":db.error/fn-binding get-else requires a scalar binding. " ++ getElseExample)

def getElseEntity : QueryError :=
  .query (":db.error/fn-arg get-else second argument must be an entity variable. " ++
    getElseExample)

def getElseAttribute : QueryError :=
  .query (":db.error/fn-arg get-else third argument must be an attribute keyword. " ++
    getElseExample)

def getElseDefault : QueryError :=
  .query (":db.error/fn-arg get-else default value must be a constant " ++
    "(integer, string, float, boolean, or keyword).")

def defaultValue : FnArg → Except QueryError DefaultValue
  | .entidOrInteger i => .ok (.integer i)
  | .constant (.text s) => .ok (.text s)
  | .constant (.float f) => .ok (.float f)
  | .constant (.boolean b) => .ok (.boolean b)
  | .identOrKeyword k => .ok (.keyword k)
  | _ => .error getElseDefault

def resultVar : Binding → Except QueryError String
  | .bindScalar x => .ok x
  | _ => .error getElseBinding

def entityVar : FnArg → Except QueryError String
  | .variable x => .ok x
  | _ => .error getElseEntity

def attrIdent : FnArg → Except QueryError Keyword
  | .identOrKeyword k => .ok k
  | _ => .error getElseAttribute

def collectGetElse (fn : GetElseFn) : Except QueryError GetElseClause :=
  match fn.args with
  | [_, entity, attr, default] => do
    let resultVar ← resultVar fn.binding
    let entityVar ← entityVar entity
    let attr ← attrIdent attr
    let default ← defaultValue default
    return { entityVar, attr, default, resultVar }
  | args => .error (getElseArity args.length)

/-- `LEFT JOIN` with the assertions of an attribute in the log, on the entity in a column. -/
structure LeftJoin where
  type : ValueType
  idx : Nat
  col : Column
  attr : Int64
  deriving DecidableEq, Repr

inductive ResultOutput where
  | output (o : Output)
  | null
  /-- `COALESCE` of the value in a left join with the default. -/
  | coalesce (join : Nat) (default : DefaultValue)
  deriving DecidableEq, Repr

structure GetElseState where
  joins : List LeftJoin := []
  results : List (String × ResultOutput)

def getElseJoin (c : SchemaCache) (scope : Scope) (clause : GetElseClause) : Option LeftJoin := do
  let attr ← c.resolveIdent (":" ++ clause.attr.display)
  let info ← c.getAttribute attr
  let (idx, col) ← scope.cell clause.entityVar
  return ⟨info.valueType, idx, col, attr⟩

def addGetElse (c : SchemaCache) (scope : Scope) (st : GetElseState) (clause : GetElseClause) :
    GetElseState :=
  match getElseJoin c scope clause with
  | none => st
  | some join => {
      joins := st.joins ++ [join]
      results := (clause.resultVar, .coalesce st.joins.length clause.default) :: st.results }

/-- The result of a function comes before what the patterns bind. -/
def findResult (results : List (String × ResultOutput)) (b : PatternBindings) (x : String) :
    Except QueryError ResultOutput :=
  match results.lookup x with
  | some output => .ok output
  | none => (findOutput b x).map .output

structure GetElseQuery extends Query where
  getElse : List GetElseFn
  deriving DecidableEq, Repr

structure GetElseSelect where
  outputs : List ResultOutput
  joins : List Source
  clauses : List Clause
  leftJoins : List LeftJoin

/-- `build_extended_pattern_query` on data patterns with `get-else`. -/
def buildGetElseQuery (c : SchemaCache) (temporal : TemporalOption) (q : GetElseQuery) :
    Except QueryError GetElseSelect := do
  let getElse ← q.getElse.mapM collectGetElse
  let st ← q.patterns.zipIdx.foldlM (compilePattern c temporal) {}
  let left := getElse.foldl (addGetElse c (outerScope c q.patterns st.bindings))
    { results := getElse.map fun clause => (clause.resultVar, .null) }
  let outputs ← q.find.mapM (findResult left.results st.bindings)
  if outputs = [] then .error noFindVariables
  else if st.joins = [] then .error noJoins
  else return {
    outputs, joins := st.joins, clauses := st.bindings.clauses, leftJoins := left.joins }

/-- `v::TEXT` of a narrow table. -/
def TypedValue.castText (ops : SqlOperators) : TypedValue → String
  | ref n | long n => toString n.toInt
  | boolean b => boolText b
  | double f => ops.doubleText f
  | text s | keyword s => s
  | instant micros => ops.instantText micros
  | uuid u => String.ofList u.chars
  | bytes bs => "\\x" ++ String.ofList (TextCodec.hexEncode bs)

/-- The default as the statement spells it; `literal` is the text of a double that is written out
as a number. A keyword has a second colon. -/
def DefaultValue.spelled (literal : F64 → Option String) : DefaultValue → Option String
  | integer i => if 0 ≤ i then some (toString i.toInt) else none
  | text s => some s
  | float f => literal f
  | boolean b => some (boolText b)
  | keyword k => some (":" ++ k.display)

def LeftJoin.rows (j : LeftJoin) (db : Db) (joined : List LogRow) : List (Option LogRow) :=
  let found := (db.tableRows false j.type).filter fun r =>
    sqlEq (some (.bigint r.e)) (columnAt joined j.idx j.col) ∧ r.a = j.attr ∧ r.added
  if found = [] then [none] else found.map some

def ResultOutput.text (fmt : FloatFormat) (ops : SqlOperators) (literal : F64 → Option String)
    (joined : List LogRow) (right : List (Option LogRow)) : ResultOutput → Option String
  | output o => o.text fmt joined
  | null => none
  | coalesce join default =>
    match right[join]? with
    | some (some r) => some (r.v.castText ops)
    | _ => default.spelled literal

/-- A default that is a negative number is not a text. -/
def ResultOutput.Accepted (literal : F64 → Option String) : ResultOutput → Prop
  | coalesce _ default => (default.spelled literal).isSome
  | _ => True

instance ResultOutput.decidableAccepted (literal : F64 → Option String) :
    (o : ResultOutput) → Decidable (o.Accepted literal)
  | .coalesce _ default => inferInstanceAs (Decidable ((default.spelled literal).isSome = true))
  | .output _ | .null => inferInstanceAs (Decidable True)

def GetElseSelect.Accepted (s : GetElseSelect) (literal : F64 → Option String) : Prop :=
  (∀ c ∈ s.clauses, c.Accepted) ∧ (∀ j ∈ s.leftJoins, j.col.type = some .bigint) ∧
    ∀ o ∈ s.outputs, o.Accepted literal

instance GetElseSelect.decidableAccepted (s : GetElseSelect) (literal : F64 → Option String) :
    Decidable (s.Accepted literal) :=
  inferInstanceAs (Decidable (_ ∧ _ ∧ _))

/-- The statement without the left joins. -/
def GetElseSelect.inner (s : GetElseSelect) : Select := ⟨[], s.joins, s.clauses⟩

def GetElseSelect.rows (s : GetElseSelect) (fmt : FloatFormat) (ops : SqlOperators)
    (literal : F64 → Option String) (db : Db) : List (List (Option String)) :=
  ((s.inner.joined db).flatMap fun joined =>
    (s.leftJoins.map fun j => j.rows db joined).sections.map fun right =>
      s.outputs.map (ResultOutput.text fmt ops literal joined right)).dedup

/-- `mentat_query` on data patterns with `get-else`. -/
def mentatGetElseQuery (fmt : FloatFormat) (ops : SqlOperators) (literal : F64 → Option String)
    (maxRows : Nat) (temporal : TemporalOption) (q : GetElseQuery) (db : Db) :
    Except QueryError (List (List Json)) := do
  let select ← buildGetElseQuery db.cache temporal q
  if select.Accepted literal then
    let rows := select.rows fmt ops literal db
    if 0 < maxRows ∧ maxRows < rows.length then .error (.resultLimitExceeded maxRows)
    else return rows.map fun row => row.map (resultValue fmt)
  else .error rejected

end PgMentat

import PgMentat.Query.Extended
import PgMentat.Lib.Aggregates

namespace PgMentat

open Unification Aggregates

/-- A `:find` of variables, or of one aggregate over a variable. -/
inductive FindSpec where
  | rel (vars : List String)
  | aggregate (fn : AggregateFn) (x : String)
  deriving DecidableEq, Repr

/-- Data patterns and one `or` or `or-join`, whose branches are patterns or `and` groups of them. -/
structure OrQuery where
  find : FindSpec
  base : List Pattern := []
  unifyVars : UnifyVars := .implicit
  branches : List (List Pattern)
  deriving DecidableEq, Repr

/-- `SELECT COUNT(DISTINCT ..)::TEXT`, `SUM((..)::NUMERIC)::TEXT`, or `MIN` or `MAX`. -/
structure AggregateSelect where
  fn : AggregateFn
  /-- `NULL` for a variable that is not bound. -/
  operand : Option Output
  /-- The operand of `MIN` and `MAX` is cast to a number too. -/
  numeric : Bool
  joins : List Source
  clauses : List Clause

/-- `build_aggregate_select`: the operand, and whether its type is known to be a number. -/
def buildAggregateSelect (scope : Scope) (x : String) : Option Output × Bool :=
  let operand := match scope.cell x with
    | some (idx, .v) => some (.valueDecode idx)
    | some (idx, col) => some (.column idx col)
    | none => none
  (operand, scope.type x = some .long ∨ scope.type x = some .ref)

inductive ArmSelect where
  | rel (s : Select)
  | aggregate (s : AggregateSelect)

/-- `build_extended_pattern_query` on data patterns, with a `:find` of either kind. -/
def buildArm (c : SchemaCache) (temporal : TemporalOption) (find : FindSpec)
    (patterns : List Pattern) : Except QueryError ArmSelect :=
  match find with
  | .rel vars => (buildExtendedPatternQuery c temporal ⟨vars, patterns⟩).map .rel
  | .aggregate fn x => do
    let st ← patterns.zipIdx.foldlM (compilePattern c temporal) {}
    if st.joins = [] then .error noJoins
    else
      let (operand, numeric) := buildAggregateSelect (outerScope c patterns st.bindings) x
      return .aggregate { fn, operand, numeric, joins := st.joins, clauses := st.bindings.clauses }

/-- The patterns around the clause by themselves; without any there is nothing to build. -/
def buildBase (c : SchemaCache) (temporal : TemporalOption) (q : OrQuery) :
    Except QueryError (Option ArmSelect) :=
  if q.base = [] then .ok none else (buildArm c temporal q.find q.base).map some

/-- Of the base only what is wrong with it is passed on. -/
def buildOrQuery (c : SchemaCache) (temporal : TemporalOption) (q : OrQuery) :
    Except QueryError (List ArmSelect) := do
  let _ ← buildBase c temporal q
  q.branches.mapM fun branch => buildArm c temporal q.find (q.base ++ branch)

def AggregateSelect.operands (s : AggregateSelect) : Select :=
  ⟨s.operand.toList, s.joins, s.clauses⟩

/-- `(..)::NUMERIC`. Of the texts that are numbers only integers are met here. -/
def numericText (text : String) : Option Int := TextCodec.parseInt text.toList

/-- The first text in the order of the database's collation, or the last. -/
def extremeText (ops : SqlOperators) (op : PredOp) : List String → Option String
  | [] => none
  | text :: texts =>
    some (texts.foldl (fun best text => if ops.text op text best then text else best) text)

def Output.isColumn : Output → Bool
  | column _ _ => true
  | valueDecode _ => false

/-- The operand in every row; NULLs are passed over. -/
def AggregateSelect.texts (s : AggregateSelect) (fmt : FloatFormat) (db : Db) : List String :=
  (s.operands.joined db).filterMap fun joined => s.operand.bind (Output.text fmt joined)

def numericAggregate (fn : AggregateFn) (texts : List String) : Option (Option String) :=
  (texts.mapM numericText).map fun ns => (fn.eval ns).map toString

/-- The one column of the one row, or nothing if a text cannot be cast. Columns other than values
are numbers in any case. -/
def AggregateSelect.result (s : AggregateSelect) (fmt : FloatFormat) (ops : SqlOperators)
    (db : Db) : Option (Option String) :=
  let texts := s.texts fmt db
  let numbers := s.numeric || s.operand.any Output.isColumn
  match s.fn with
  | .count => some (some (toString texts.dedup.length))
  | .sum => numericAggregate .sum texts
  | .min => if numbers then numericAggregate .min texts else some (extremeText ops .lt texts)
  | .max => if numbers then numericAggregate .max texts else some (extremeText ops .gt texts)

def Output.isBoolean : Output → Bool
  | column _ .added => true
  | _ => false

/-- There is no sum, least or greatest of booleans. -/
def AggregateSelect.Accepted (s : AggregateSelect) : Prop :=
  (∀ c ∈ s.clauses, c.Accepted) ∧ (s.fn = .count ∨ s.operand.any Output.isBoolean = false)

instance AggregateSelect.decidableAccepted (s : AggregateSelect) : Decidable s.Accepted :=
  inferInstanceAs (Decidable (_ ∧ _))

def ArmSelect.Accepted : ArmSelect → Prop
  | rel s => s.Accepted
  | aggregate s => s.Accepted

instance ArmSelect.decidableAccepted : (s : ArmSelect) → Decidable s.Accepted
  | .rel s => inferInstanceAs (Decidable s.Accepted)
  | .aggregate s => inferInstanceAs (Decidable s.Accepted)

def ArmSelect.rows (fmt : FloatFormat) (ops : SqlOperators) (db : Db) :
    ArmSelect → Option (List (List (Option String)))
  | rel s => some (s.rows fmt db)
  | aggregate s => (s.result fmt ops db).map fun text => [[text]]

/-- `(..) UNION (..)`. -/
def unionRows (fmt : FloatFormat) (ops : SqlOperators) (db : Db) (arms : List ArmSelect) :
    Option (List (List (Option String))) :=
  (arms.mapM (ArmSelect.rows fmt ops db)).map fun rows => rows.flatten.dedup

/-- `mentat_query` on queries with one `or` clause. -/
def mentatOrQuery (fmt : FloatFormat) (ops : SqlOperators) (maxRows : Nat)
    (temporal : TemporalOption) (q : OrQuery) (db : Db) :
    Except QueryError (List (List Json)) := do
  let arms ← buildOrQuery db.cache temporal q
  if arms ≠ [] ∧ ∀ arm ∈ arms, arm.Accepted then
    match unionRows fmt ops db arms with
    | none => .error rejected
    | some rows =>
      if 0 < maxRows ∧ maxRows < rows.length then .error (.resultLimitExceeded maxRows)
      else return rows.map fun row => row.map (resultValue fmt)
  else .error rejected

end PgMentat

import PgMentat.Query.Compile

namespace PgMentat

open Unification

inductive FnArg where
  | variable (x : String)
  | srcVar
  | entidOrInteger (i : Int64)
  | identOrKeyword (k : Keyword)
  | constant (c : NonIntegerConstant)
  | vector
  deriving DecidableEq, Repr

/-- What a function or an input is bound to; a placeholder is `none`. -/
inductive Binding where
  | bindScalar (x : String)
  | bindColl (x : String)
  | bindTuple (xs : List (Option String))
  | bindRel (xs : List (Option String))
  deriving DecidableEq, Repr

structure Predicate where
  operator : String
  args : List FnArg
  deriving DecidableEq, Repr

/-- A clause inside `not`; every other kind of clause is refused there. -/
inductive NotClause where
  | pattern (p : Pattern)
  | pred (p : Predicate)
  | other
  deriving DecidableEq, Repr

/-- The variables that a `not` or `or` clause shares with the clauses around it. -/
inductive UnifyVars where
  | implicit
  | explicit (vars : List String)
  deriving DecidableEq, Repr

/-- `(not ..)` and `(not-join [..] ..)`; the variables of the latter are not read. -/
structure NotJoin where
  clauses : List NotClause
  deriving DecidableEq, Repr

/-- The clauses of a `:where` by kind. -/
structure ExtendedQuery extends Query where
  notJoins : List NotJoin := []
  predicates : List Predicate := []
  deriving DecidableEq, Repr

inductive PredOp where
  | lt | gt | le | ge | eq | ne | like | ilike
  deriving DecidableEq, Repr

def PredOp.ofSymbol (op : String) : Option PredOp :=
  if op = "<" then some .lt
  else if op = ">" then some .gt
  else if op = "<=" then some .le
  else if op = ">=" then some .ge
  else if op = "=" then some .eq
  else if op = "!=" then some .ne
  else none

def PredOp.isInequality (op : PredOp) : Bool := op ∈ [.lt, .gt, .le, .ge]

/-- An operand. A boolean is compared as 1 or 0, a value of unknown type as text. -/
inductive SqlExpr where
  | column (idx : Nat) (col : Column)
  | boolAsInteger (idx : Nat)
  | uuidText (idx : Nat)
  | bytesHex (idx : Nat)
  | coalesceText (idx : Nat)
  | param (value : Scalar)
  deriving DecidableEq, Repr

/-- What a variable is bound to, and the type of the attribute whose value it is. -/
structure Scope where
  cell : String → Option Cell
  type : String → Option ValueType

def unboundVar (x : String) : QueryError :=
  .query (":db.error/unbound-var Unbound variable '" ++ x ++ "' in predicate. " ++
    "Every variable used in a predicate must first appear in a :where pattern " ++
    "or be supplied via the :in clause. Add a pattern like [?e :some-attr " ++ x ++ "] to bind it.")

def unsupportedPredArg : QueryError :=
  .query (":db.error/unsupported-pred-arg Unsupported predicate argument type. " ++
    "Supported types: variables (?x), integers, floats, strings, and booleans.")

def valueExpr (idx : Nat) : Option ValueType → SqlExpr
  | some .string => .column idx .vText
  | some .keyword => .column idx .vKeyword
  | some .long => .column idx .vLong
  | some .double => .column idx .vDouble
  | some .ref => .column idx .vRef
  | some .boolean => .boolAsInteger idx
  | some .instant => .column idx .vInstant
  | some .uuid => .uuidText idx
  | some .bytes => .bytesHex idx
  | none => .coalesceText idx

def predArgToSql (scope : Scope) : FnArg → Except QueryError SqlExpr
  | .variable x =>
    match scope.cell x with
    | some (idx, .v) => .ok (valueExpr idx (scope.type x))
    | some (idx, col) => .ok (.column idx col)
    | none => .error (unboundVar x)
  | .entidOrInteger i => .ok (.param (.bigint i))
  | .constant (.float f) => .ok (.param (.double f))
  | .constant (.text s) => .ok (.param (.text s))
  | .constant (.boolean b) => .ok (.param (.bigint (if b then 1 else 0)))
  | _ => .error unsupportedPredArg

/-- The type of the last variable with a known one. -/
def predVarType (scope : Scope) (args : List FnArg) : Option ValueType :=
  args.foldl (fun type arg =>
    match arg with
    | .variable x => (scope.type x).or type
    | _ => type) none

def FnArg.isNumeric : FnArg → Bool
  | entidOrInteger _ | constant (.float _) => true
  | _ => false

def FnArg.isText : FnArg → Bool
  | constant (.text _) => true
  | _ => false

/-- A string compared with a number, or a number with a string, is never true. -/
def checkPredicateTypeMismatch (scope : Scope) (args : List FnArg) : Bool :=
  match predVarType scope args with
  | none => false
  | some type =>
    (type ∈ [.string, .keyword] ∧ args.any FnArg.isNumeric) ∨
      (type ∈ [.long, .double, .ref] ∧ args.any FnArg.isText)

/-- A condition of the `WHERE` that is not a comparison of datom columns. -/
inductive Condition where
  | false
  | compare (op : PredOp) (left right : SqlExpr)
  /-- No log row of the attribute on the entity asserts a value, whatever its transaction. -/
  | missing (idx : Nat) (col : Column) (type : ValueType) (attr : Int64)
  deriving DecidableEq, Repr

def predicateArity (op usage : String) (got : Nat) : QueryError :=
  .query (":db.error/predicate-arity Predicate '" ++ op ++ "' requires exactly 2 arguments, got " ++
    toString got ++ ". Example: [(" ++ op ++ usage ++ ")]")

def unsupportedPredicate (op : String) : QueryError :=
  .query (":db.error/unsupported-predicate Unsupported predicate operator '" ++ op ++ "'. " ++
    "Supported operators: <, >, <=, >=, =, !=, like, ilike. Example: [(< ?age 30)]")

def compareArgs (scope : Scope) (op : PredOp) (left right : FnArg) :
    Except QueryError Condition := do
  let left ← predArgToSql scope left
  let right ← predArgToSql scope right
  return .compare op left right

def buildPredicateClause (scope : Scope) (pred : Predicate) : Except QueryError Condition :=
  if pred.operator = "like" ∨ pred.operator = "ilike" then
    match pred.args with
    | [left, right] =>
      compareArgs scope (if pred.operator = "like" then .like else .ilike) left right
    | args => .error (predicateArity pred.operator " ?name \"Alice%\"" args.length)
  else
    match PredOp.ofSymbol pred.operator with
    | none => .error (unsupportedPredicate pred.operator)
    | some op =>
      match pred.args with
      | [left, right] =>
        if op.isInequality ∧ checkPredicateTypeMismatch scope pred.args then .ok .false
        else compareArgs scope op left right
      | args => .error (predicateArity pred.operator " ?var value" args.length)

/-- `missing?` looks its attribute up with a second colon in front of the ident, and says nothing
if it is not found or the entity is not bound. -/
def missingCondition (c : SchemaCache) (scope : Scope) : List FnArg → Option Condition
  | _ :: .variable x :: .identOrKeyword k :: _ => do
    let attr ← c.resolveIdent (":" ++ k.display)
    let info ← c.getAttribute attr
    let (idx, col) ← scope.cell x
    return .missing idx col info.valueType attr
  | _ => none

def predicateCondition (c : SchemaCache) (scope : Scope) (pred : Predicate) :
    Except QueryError (Option Condition) :=
  if pred.operator = "missing?" then .ok (missingCondition c scope pred.args)
  else (buildPredicateClause scope pred).map some

def FnArg.var : FnArg → List String
  | .variable x => [x]
  | _ => []

def NotClause.vars : NotClause → List String
  | pattern p => p.entity.var ++ p.attr.var ++ p.value.var ++ p.tx.var
  | pred p => p.args.flatMap FnArg.var
  | other => []

/-- The variables a clause binds; one in the place of the attribute is not bound. -/
def NotClause.binds : NotClause → List String
  | pattern p => p.entity.var ++ p.value.var ++ p.tx.var
  | _ => []

def unboundInNot (vars : List String) : QueryError :=
  .query (":db.error/unbound-variable-in-not Variables " ++
    ", ".intercalate (vars.dedup.mergeSort fun x y => decide (x ≤ y)) ++
    " in (not ...) clause are not bound " ++
    "in the outer query or by patterns within the NOT clause. Every variable in a NOT " ++
    "clause must be bound somewhere. Unbound variables produce semantically unsound results.")

def unsupportedInNot : QueryError :=
  .query (":db.error/unsupported-query Only pattern clauses and predicates " ++
    "are supported inside (not ...) / (not-join ...). Function calls " ++
    "and rule invocations inside NOT are not yet supported.")

def emptyNot : QueryError :=
  .query (":db.error/empty-not NOT clause must contain at least one data pattern. " ++
    "Example: (not [?e :person/retired true])")

/-- A place for an entity or an attribute. A variable is compared with the outer query only, so
that two occurrences inside the `not` are not compared with each other. -/
def correlatePlace (outer : Scope) (idx : Nat) (col : Column) (table : IdentTable) :
    PatternNonValuePlace → List Clause
  | .variable x => (outer.cell x).toList.map fun cell => .columns idx col cell.1 cell.2
  | .entid id => [.param idx col (.bigint id)]
  | .ident k => [.entid idx col table k.display]
  | .placeholder => []

def correlateValue (outer : Scope) (idx : Nat) (valueType : Option ValueType)
    (place : PatternValuePlace) : Except QueryError (List Clause) :=
  match place with
  | .variable x => .ok ((outer.cell x).toList.map fun cell =>
    if cell.2 = .v then .sameValue idx cell.1 else .columns idx .vRef cell.1 cell.2)
  | place => (bindConstantValue idx valueType place).map Option.toList

/-- A variable of the `not` takes its last place; variables of the outer query keep theirs. -/
def Scope.bindLocal (outer scope : Scope) (cell : Cell) (vars : List String) : Scope :=
  { scope with cell := fun y => if y ∈ vars ∧ outer.cell y = none then some cell else scope.cell y }

def Scope.bindType (outer scope : Scope) (type : Option ValueType) (vars : List String) : Scope :=
  { scope with type := fun y => if y ∈ vars ∧ outer.cell y = none then type else scope.type y }

structure NotState where
  scope : Scope
  joins : List Source := []
  clauses : List Clause := []
  conditions : List Condition := []

/-- The place of the transaction and the fifth place are compared with nothing. -/
def notPattern (c : SchemaCache) (temporal : TemporalOption) (outer : Scope) (width : Nat)
    (st : NotState) (p : Pattern) : Except QueryError NotState := do
  let idx := width + st.joins.length
  let type := resolvePatternValueType c p.attr
  let value ← correlateValue outer idx type p.value
  let scope := outer.bindLocal st.scope (idx, .e) p.entity.var
  let scope := outer.bindType (outer.bindLocal scope (idx, .v) p.value.var) type p.value.var
  return {
    scope := outer.bindLocal scope (idx, .tx) p.tx.var
    joins := st.joins ++ [patternSource c temporal p.attr]
    clauses := st.clauses ++ correlatePlace outer idx .e .idents p.entity ++
      correlatePlace outer idx .a .schema p.attr ++ value ++ temporalClauses c temporal idx p.attr
    conditions := st.conditions }

def notClause (c : SchemaCache) (temporal : TemporalOption) (outer : Scope) (width : Nat)
    (st : NotState) : NotClause → Except QueryError NotState
  | .pattern p => notPattern c temporal outer width st p
  | .pred pred => do
    let condition ← buildPredicateClause st.scope pred
    return { st with conditions := st.conditions ++ [condition] }
  | .other => .error unsupportedInNot

/-- A `NOT EXISTS` subquery; its indices go on where those of the outer query end. -/
structure NotExists where
  joins : List Source
  clauses : List Clause
  conditions : List Condition

/-- The variables bound neither outside nor inside. -/
def NotJoin.unbound (outer : Scope) (notJoin : NotJoin) : List String :=
  (notJoin.clauses.flatMap NotClause.vars).filter fun x =>
    outer.cell x = none ∧ x ∉ notJoin.clauses.flatMap NotClause.binds

/-- `build_not_exists_subquery` under an outer query of `width` subqueries. -/
def buildNotExistsSubquery (c : SchemaCache) (temporal : TemporalOption) (outer : Scope)
    (width : Nat) (notJoin : NotJoin) : Except QueryError NotExists := do
  if notJoin.unbound outer ≠ [] then .error (unboundInNot (notJoin.unbound outer))
  else
    let st ← notJoin.clauses.foldlM (notClause c temporal outer width) { scope := outer }
    if st.joins = [] then .error emptyNot
    else return ⟨st.joins, st.clauses, st.conditions⟩

/-- A variable has the type of the pattern that binds it, if it is bound as a value. -/
def outerScope (c : SchemaCache) (patterns : List Pattern) (b : PatternBindings) : Scope where
  cell := b.cell
  type x := (b.cell x).bind fun cell =>
    if cell.2 = .v then patterns[cell.1]?.bind fun p => resolvePatternValueType c p.attr else none

structure ExtendedSelect extends Select where
  nots : List NotExists
  conditions : List Condition

/-- `build_extended_pattern_query` with `not` clauses and predicates. -/
def buildExtendedQuery (c : SchemaCache) (temporal : TemporalOption) (q : ExtendedQuery) :
    Except QueryError ExtendedSelect := do
  let st ← q.patterns.zipIdx.foldlM (compilePattern c temporal) {}
  let scope := outerScope c q.patterns st.bindings
  let nots ← q.notJoins.mapM (buildNotExistsSubquery c temporal scope st.joins.length)
  let conditions ← q.predicates.mapM (predicateCondition c scope)
  let outputs ← q.find.mapM (findOutput st.bindings)
  if outputs = [] then .error noFindVariables
  else if st.joins = [] then .error noJoins
  else return {
    outputs, joins := st.joins, clauses := st.bindings.clauses, nots
    conditions := conditions.reduceOption }

/-- What PostgreSQL computes outside of the repository: comparison and matching of texts under the
database's collation, of doubles, and the texts of doubles and instants. -/
structure SqlOperators where
  text : PredOp → String → String → Bool
  double : PredOp → F64 → F64 → Bool
  ofBigint : Int64 → F64
  doubleText : F64 → String
  instantText : Int64 → String

def PredOp.ofInt (x y : Int) : PredOp → Bool
  | lt => x < y
  | gt => y < x
  | le => x ≤ y
  | ge => y ≤ x
  | eq => x = y
  | ne => x ≠ y
  | like | ilike => false

def Scalar.type : Scalar → ColumnType
  | bigint _ => .bigint
  | smallint _ => .smallint
  | boolean _ => .boolean
  | double _ => .double
  | text _ => .text
  | timestamptz _ => .timestamptz
  | uuid _ => .uuid
  | bytea _ => .bytea

/-- `left op right` is true for two operands that are not NULL. -/
def PredOp.compare (ops : SqlOperators) (op : PredOp) : Scalar → Scalar → Bool
  | .bigint x, .bigint y => op.ofInt x.toInt y.toInt
  | .timestamptz x, .timestamptz y => op.ofInt x.toInt y.toInt
  | .boolean x, .boolean y => op.ofInt x.toNat y.toNat
  | .text x, .text y => ops.text op x y
  | .double x, .double y => ops.double op x y
  | .bigint x, .double y => ops.double op (ops.ofBigint x) y
  | .double x, .bigint y => ops.double op x (ops.ofBigint y)
  | _, _ => false

/-- There is an operator for operands of these types. -/
def PredOp.Defined (op : PredOp) (left right : ColumnType) : Prop :=
  (left = .text ∧ right = .text) ∨
    (op ∉ [.like, .ilike] ∧
      (left = right ∨ (left ∈ [.bigint, .double] ∧ right ∈ [.bigint, .double])))

instance (op : PredOp) (left right : ColumnType) : Decidable (op.Defined left right) :=
  inferInstanceAs (Decidable (_ ∨ _))

def SqlExpr.type : SqlExpr → Option ColumnType
  | column _ col => col.type
  | boolAsInteger _ => some .bigint
  | uuidText _ | bytesHex _ | coalesceText _ => some .text
  | param value => some value.type

/-- The text of a value that is neither a boolean nor bytes. -/
def TypedValue.coalesced (ops : SqlOperators) : TypedValue → Option String
  | text s | keyword s => some s
  | long n | ref n => some (toString n.toInt)
  | double f => some (ops.doubleText f)
  | instant micros => some (ops.instantText micros)
  | uuid u => some (String.ofList u.chars)
  | boolean _ | bytes _ => none

def SqlExpr.value (ops : SqlOperators) (joined : List LogRow) : SqlExpr → Option Scalar
  | column idx col => columnAt joined idx col
  | boolAsInteger idx =>
    match columnAt joined idx .vBool with
    | some (.boolean b) => some (.bigint (if b then 1 else 0))
    | _ => none
  | uuidText idx =>
    match columnAt joined idx .vUuid with
    | some (.uuid u) => some (.text (String.ofList u.chars))
    | _ => none
  | bytesHex idx =>
    match columnAt joined idx .vBytes with
    | some (.bytea bs) => some (.text (String.ofList (TextCodec.hexEncode bs)))
    | _ => none
  | coalesceText idx => (joined[idx]?.bind fun r => r.v.coalesced ops).map .text
  | param value => some value

def Condition.Accepted : Condition → Prop
  | false => True
  | compare op left right => ∃ l ∈ left.type, ∃ r ∈ right.type, op.Defined l r
  | missing _ col _ _ => col.type = some .bigint

instance : (c : Condition) → Decidable c.Accepted
  | .false => inferInstanceAs (Decidable True)
  | .compare op left right => inferInstanceAs (Decidable
      (∃ l ∈ left.type, ∃ r ∈ right.type, op.Defined l r))
  | .missing _ col _ _ => inferInstanceAs (Decidable (col.type = some .bigint))

def Condition.Holds (ops : SqlOperators) (db : Db) (joined : List LogRow) : Condition → Prop
  | false => False
  | compare op left right =>
    ∃ l ∈ left.value ops joined, ∃ r ∈ right.value ops joined, op.compare ops l r = true
  | missing idx col type attr =>
    ∀ r ∈ db.tableRows Bool.false type, r.a = attr → r.added = true →
      ¬ sqlEq (some (.bigint r.e)) (columnAt joined idx col)

instance (ops : SqlOperators) (db : Db) (joined : List LogRow) :
    (c : Condition) → Decidable (c.Holds ops db joined)
  | .false => inferInstanceAs (Decidable False)
  | .compare op left right => inferInstanceAs (Decidable
      (∃ l ∈ left.value ops joined, ∃ r ∈ right.value ops joined, op.compare ops l r = true))
  | .missing idx col type attr => inferInstanceAs (Decidable
      (∀ r ∈ db.tableRows Bool.false type, r.a = attr → r.added = true →
        ¬ sqlEq (some (.bigint r.e)) (columnAt joined idx col)))

/-- A subquery without a condition has nothing after its `WHERE`. -/
def NotExists.Accepted (n : NotExists) : Prop :=
  (n.clauses ≠ [] ∨ n.conditions ≠ []) ∧ (∀ c ∈ n.clauses, c.Accepted) ∧
    ∀ c ∈ n.conditions, c.Accepted

instance (n : NotExists) : Decidable n.Accepted := inferInstanceAs (Decidable (_ ∧ _ ∧ _))

/-- The rows of the subquery under a row of the outer query. -/
def NotExists.joined (n : NotExists) (ops : SqlOperators) (db : Db) (outer : List LogRow) :
    List (List LogRow) :=
  (n.joins.map (Source.rows db)).sections.filter fun inner =>
    (∀ c ∈ n.clauses, c.Holds db (outer ++ inner)) ∧
      ∀ c ∈ n.conditions, c.Holds ops db (outer ++ inner)

def NotExists.Holds (n : NotExists) (ops : SqlOperators) (db : Db) (outer : List LogRow) : Prop :=
  n.joined ops db outer = []

instance (n : NotExists) (ops : SqlOperators) (db : Db) (outer : List LogRow) :
    Decidable (n.Holds ops db outer) := inferInstanceAs (Decidable (_ = []))

def ExtendedSelect.Accepted (s : ExtendedSelect) : Prop :=
  s.toSelect.Accepted ∧ (∀ n ∈ s.nots, n.Accepted) ∧ ∀ c ∈ s.conditions, c.Accepted

instance (s : ExtendedSelect) : Decidable s.Accepted := inferInstanceAs (Decidable (_ ∧ _ ∧ _))

def ExtendedSelect.joined (s : ExtendedSelect) (ops : SqlOperators) (db : Db) :
    List (List LogRow) :=
  (s.toSelect.joined db).filter fun joined =>
    (∀ n ∈ s.nots, n.Holds ops db joined) ∧ ∀ c ∈ s.conditions, c.Holds ops db joined

def ExtendedSelect.rows (s : ExtendedSelect) (fmt : FloatFormat) (ops : SqlOperators) (db : Db) :
    List (List (Option String)) :=
  ((s.joined ops db).map fun joined => s.outputs.map (Output.text fmt joined)).dedup

/-- `mentat_query` on queries with `not` clauses and predicates. -/
def mentatExtendedQuery (fmt : FloatFormat) (ops : SqlOperators) (maxRows : Nat)
    (temporal : TemporalOption) (q : ExtendedQuery) (db : Db) :
    Except QueryError (List (List Json)) := do
  let select ← buildExtendedQuery db.cache temporal q
  if select.Accepted then
    let rows := select.rows fmt ops db
    if 0 < maxRows ∧ maxRows < rows.length then .error (.resultLimitExceeded maxRows)
    else return rows.map fun row => row.map (resultValue fmt)
  else .error rejected

theorem mentatExtendedQuery_congr {fmt : FloatFormat} {ops : SqlOperators} {maxRows : Nat}
    {temporal : TemporalOption} {q : ExtendedQuery} {db db' : Db} (hcache : db'.cache = db.cache)
    (hrows : ∀ s, buildExtendedQuery db.cache temporal q = .ok s →
      s.rows fmt ops db' = s.rows fmt ops db) :
    mentatExtendedQuery fmt ops maxRows temporal q db' =
      mentatExtendedQuery fmt ops maxRows temporal q db := by
  unfold mentatExtendedQuery
  rw [hcache]
  cases hbuild : buildExtendedQuery db.cache temporal q with
  | error e => rfl
  | ok s => simp only [bind, Except.bind, hrows s hbuild]

end PgMentat

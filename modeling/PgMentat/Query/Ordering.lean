import PgMentat.Query.Disjunction
import PgMentat.Lib.SortedRows

namespace PgMentat

open SortedRows

inductive Direction where
  | ascending | descending
  deriving DecidableEq, Repr

/-- Data patterns and at most one `or`, whose result is sorted and then cut off. -/
structure OrderedQuery where
  find : List String
  base : List Pattern := []
  /-- Empty if there is no `or`. -/
  branches : List (List Pattern) := []
  order : List (Direction × String)
  limit : Option Nat := none
  deriving DecidableEq, Repr

inductive OrderCast where
  | bigint | timestamptz
  deriving DecidableEq, Repr

structure OrderPart where
  column : Nat
  cast : Option OrderCast
  direction : Direction
  deriving DecidableEq, Repr

/-- `numeric_cast_for`. -/
def numericCastFor (scope : Option Scope) (x : String) : Option OrderCast :=
  match scope with
  | none => none
  | some scope =>
    match scope.cell x with
    | some (_, .e) | some (_, .a) | some (_, .tx) => some .bigint
    | some (_, .v) =>
      match scope.type x with
      | some .long | some .ref => some .bigint
      | some .instant => some .timestamptz
      | _ => none
    | _ => none

/-- A variable that is not in the `:find` is passed over. -/
def appendOrderBy (scope : Option Scope) (find : List String) (order : List (Direction × String)) :
    List OrderPart :=
  order.filterMap fun key =>
    (find.idxOf? key.2).map fun column => ⟨column, numericCastFor scope key.2, key.1⟩

structure OrderedSelect where
  arms : List ArmSelect
  parts : List OrderPart
  limit : Option Nat

def OrderedQuery.scope (c : SchemaCache) (temporal : TemporalOption) (q : OrderedQuery) :
    Except QueryError (Option Scope) :=
  if q.branches = [] then
    (q.base.zipIdx.foldlM (compilePattern c temporal) {}).map fun st =>
      some (outerScope c q.base st.bindings)
  else .ok none

def OrderedQuery.buildArms (c : SchemaCache) (temporal : TemporalOption) (q : OrderedQuery) :
    Except QueryError (List ArmSelect) :=
  if q.branches = [] then (buildArm c temporal (.rel q.find) q.base).map fun arm => [arm]
  else buildOrQuery c temporal { find := .rel q.find, base := q.base, branches := q.branches }

def buildOrderedQuery (c : SchemaCache) (temporal : TemporalOption) (q : OrderedQuery) :
    Except QueryError OrderedSelect := do
  let arms ← q.buildArms c temporal
  let scope ← q.scope c temporal
  return ⟨arms, appendOrderBy scope q.find q.order, q.limit⟩

/-- The collation of the database, and the microseconds that `::TIMESTAMPTZ` reads from a text. -/
structure OrderFormat where
  textLE : String → String → Bool
  totalPreorder_textLE : TotalPreorder textLE
  timestamptz : String → Int

/-- `..::BIGINT`; other texts than integers are not met here. -/
def bigintOf (text : String) : Int := (numericText text).getD 0

def castLE (ord : OrderFormat) : Option OrderCast → String → String → Bool
  | none, t, u => ord.textLE t u
  | some .bigint, t, u => bigintOf t ≤ bigintOf u
  | some .timestamptz, t, u => ord.timestamptz t ≤ ord.timestamptz u

def nullsLast {α : Type} (le : α → α → Bool) : Option α → Option α → Bool
  | some a, some b => le a b
  | none, some _ => false
  | _, none => true

/-- `DESC` turns the order around. -/
def Direction.of {α : Type} (le : α → α → Bool) : Direction → α → α → Bool
  | ascending, a, b => le a b
  | descending, a, b => le b a

def OrderPart.le (ord : OrderFormat) (part : OrderPart) (row row' : List (Option String)) : Bool :=
  part.direction.of (nullsLast (castLE ord part.cast)) row[part.column]?.join
    row'[part.column]?.join

def rowLE (ord : OrderFormat) (parts : List OrderPart) :
    List (Option String) → List (Option String) → Bool :=
  lexLE (parts.map (OrderPart.le ord))

/-- `LIMIT`. -/
def limited {α : Type} (limit : Option Nat) (rows : List α) : List α :=
  match limit with
  | some n => rows.take n
  | none => rows

/-- The results that the statement may have. -/
def OrderedSelect.Returns (s : OrderedSelect) (fmt : FloatFormat) (ops : SqlOperators)
    (ord : OrderFormat) (db : Db) (result : List (List (Option String))) : Prop :=
  ∃ rows sorted, unionRows fmt ops db s.arms = some rows ∧
    OrderedBy (rowLE ord s.parts) rows sorted ∧ result = limited s.limit sorted

end PgMentat

import PgMentat.Store
import Mathlib.Data.List.Dedup
import Mathlib.Data.List.Sections

namespace PgMentat

/-- The columns that every datom subquery presents, and `v`, which none of them has. -/
inductive Column where
  | e | a | valueTypeTag
  | vRef | vBool | vLong | vDouble | vText | vKeyword | vInstant | vUuid | vBytes
  | tx | added
  | v
  deriving DecidableEq, Repr

inductive ColumnType where
  | bigint | smallint | boolean | double | text | timestamptz | uuid | bytea
  deriving DecidableEq, Repr

/-- A value that is not NULL. -/
inductive Scalar where
  | bigint (n : Int64)
  | smallint (n : Nat)
  | boolean (b : Bool)
  | double (f : F64)
  | text (s : String)
  | timestamptz (micros : Int64)
  | uuid (u : Uuid)
  | bytea (bs : List UInt8)
  deriving DecidableEq, Repr

def Column.type : Column → Option ColumnType
  | e | a | tx | vRef | vLong => some .bigint
  | valueTypeTag => some .smallint
  | vBool | added => some .boolean
  | vDouble => some .double
  | vText | vKeyword => some .text
  | vInstant => some .timestamptz
  | vUuid => some .uuid
  | vBytes => some .bytea
  | v => none

def Column.typed : List Column :=
  [vRef, vBool, vLong, vDouble, vText, vKeyword, vInstant, vUuid, vBytes]

def TypedValue.column : TypedValue → Column × Scalar
  | ref id => (.vRef, .bigint id)
  | boolean b => (.vBool, .boolean b)
  | long n => (.vLong, .bigint n)
  | double f => (.vDouble, .double f)
  | text s => (.vText, .text s)
  | keyword s => (.vKeyword, .text s)
  | instant micros => (.vInstant, .timestamptz micros)
  | uuid u => (.vUuid, .uuid u)
  | bytes bs => (.vBytes, .bytea bs)

/-- A row as a subquery presents it: the typed columns of the other types are NULL. -/
def LogRow.column (r : LogRow) : Column → Option Scalar
  | .e => some (.bigint r.e)
  | .a => some (.bigint r.a)
  | .tx => some (.bigint r.tx)
  | .added => some (.boolean r.added)
  | .valueTypeTag => some (.smallint r.v.typeTag)
  | .v => none
  | c => if r.v.column.1 = c then some r.v.column.2 else none

/-- The rows of one narrow table, or of its projection with `true AS added`. -/
def Db.tableRows (db : Db) (useProjection : Bool) (type : ValueType) : List LogRow :=
  if useProjection then
    (db.current.filter fun r => r.v.valueType = type).map fun r => ⟨r.e, r.a, r.v, r.tx, true⟩
  else db.log.filter fun r => r.v.valueType = type

structure PushdownConditions where
  addedTrue : Bool
  attributeEntid : Option Int64
  deriving DecidableEq, Repr

inductive Source where
  | typed (type : ValueType) (pushdown : PushdownConditions) (useProjection : Bool)
  | union (useProjection : Bool)
  deriving DecidableEq, Repr

/-- `build_typed_datoms_from_fragment_with_pushdown` and `build_datoms_union_subquery_opt`. -/
def Source.rows (db : Db) : Source → List LogRow
  | typed type pushdown useProjection =>
    (db.tableRows useProjection type).filter fun r =>
      (pushdown.addedTrue ∧ ¬ useProjection → r.added) ∧
        pushdown.attributeEntid.all fun a => r.a = a
  | union useProjection => ValueType.all.flatMap (db.tableRows useProjection)

inductive IdentTable where
  | idents | schema
  deriving DecidableEq, Repr

/-- `(SELECT entid FROM idents WHERE ident = ..)`; `ident` is unique in both tables. -/
def IdentTable.entid (db : Db) (ident : String) : IdentTable → Option Int64
  | idents => (db.idents.find? fun r => r.ident = ident).map IdentRow.entid
  | schema => (db.schema.find? fun r => r.ident = ident).map SchemaRow.entid

/-- The conditions that are emitted; a subquery is named by its index. -/
inductive Clause where
  | columns (idx : Nat) (col : Column) (existing : Nat) (existingCol : Column)
  /-- Equal tags, and no typed column `IS DISTINCT FROM` the other one. -/
  | sameValue (idx existing : Nat)
  | param (idx : Nat) (col : Column) (value : Scalar)
  | entid (idx : Nat) (col : Column) (table : IdentTable) (ident : String)
  | constant (idx : Nat) (col : Column) (value : Scalar) (tag : Nat)
  | txAtMost (idx : Nat) (tx : Int64)
  | txAfter (idx : Nat) (tx : Int64)
  /-- `NOT EXISTS` a newer assertion on `(e, a)` up to `tx`, in one table or in all. -/
  | notSuperseded (idx : Nat) (table : Option ValueType) (tx : Int64)
  deriving DecidableEq, Repr

/-- `x = y` is true. -/
def sqlEq (x y : Option Scalar) : Prop := x.isSome ∧ x = y

instance (x y : Option Scalar) : Decidable (sqlEq x y) := inferInstanceAs (Decidable (_ ∧ _))

def columnAt (joined : List LogRow) (idx : Nat) (col : Column) : Option Scalar :=
  joined[idx]?.bind fun r => r.column col

def newerRows (db : Db) : Option ValueType → List LogRow
  | some type => db.tableRows false type
  | none => Source.rows db (.union false)

def LogRow.SupersededBy (r : LogRow) (tx : Int64) (newer : LogRow) : Prop :=
  newer.e = r.e ∧ newer.a = r.a ∧ newer.added = true ∧ r.tx < newer.tx ∧ newer.tx ≤ tx

instance (r : LogRow) (tx : Int64) (newer : LogRow) : Decidable (r.SupersededBy tx newer) :=
  inferInstanceAs (Decidable (_ ∧ _))

def Clause.Holds (db : Db) (joined : List LogRow) : Clause → Prop
  | columns idx col existing existingCol =>
    sqlEq (columnAt joined idx col) (columnAt joined existing existingCol)
  | sameValue idx existing =>
    sqlEq (columnAt joined idx .valueTypeTag) (columnAt joined existing .valueTypeTag) ∧
      ∀ col ∈ Column.typed, columnAt joined idx col = columnAt joined existing col
  | param idx col value => sqlEq (columnAt joined idx col) (some value)
  | entid idx col table ident =>
    sqlEq (columnAt joined idx col) ((table.entid db ident).map .bigint)
  | constant idx col value tag =>
    sqlEq (columnAt joined idx col) (some value) ∧
      sqlEq (columnAt joined idx .valueTypeTag) (some (.smallint tag))
  | txAtMost idx tx => ∃ r ∈ joined[idx]?, r.tx ≤ tx
  | txAfter idx tx => ∃ r ∈ joined[idx]?, tx < r.tx
  | notSuperseded idx table tx =>
    ∃ r ∈ joined[idx]?, ∀ newer ∈ newerRows db table, ¬ r.SupersededBy tx newer

instance (db : Db) (joined : List LogRow) : (c : Clause) → Decidable (c.Holds db joined)
  | .columns _ _ _ _ | .param _ _ _ | .entid _ _ _ _ => inferInstanceAs (Decidable (sqlEq _ _))
  | .sameValue _ _ | .constant _ _ _ _ => inferInstanceAs (Decidable (_ ∧ _))
  | .txAtMost idx tx => inferInstanceAs (Decidable (∃ r ∈ joined[idx]?, r.tx ≤ tx))
  | .txAfter idx tx => inferInstanceAs (Decidable (∃ r ∈ joined[idx]?, tx < r.tx))
  | .notSuperseded idx table tx => inferInstanceAs (Decidable
      (∃ r ∈ joined[idx]?, ∀ newer ∈ newerRows db table, ¬ r.SupersededBy tx newer))

/-- PostgreSQL rejects an unknown column and a comparison of `bigint` with `boolean`. -/
def Clause.Accepted : Clause → Prop
  | columns _ col _ existingCol => col.type.isSome ∧ col.type = existingCol.type
  | _ => True

instance : (c : Clause) → Decidable c.Accepted
  | .columns _ _ _ _ => inferInstanceAs (Decidable (_ ∧ _))
  | .sameValue _ _ | .param _ _ _ | .entid _ _ _ _ | .constant _ _ _ _ | .txAtMost _ _
  | .txAfter _ _ | .notSuperseded _ _ _ => inferInstanceAs (Decidable True)

end PgMentat

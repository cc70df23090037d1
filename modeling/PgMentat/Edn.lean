import PgMentat.Value

namespace PgMentat

structure Keyword where
  ns : Option String
  name : String
  deriving DecidableEq, Repr

namespace Keyword

def plain (name : String) : Keyword := ⟨none, name⟩

def namespaced (ns name : String) : Keyword := ⟨some ns, name⟩

/-- `:name` or `:ns/name`. -/
def display (k : Keyword) : String :=
  match k.ns with
  | none => ":" ++ k.name
  | some ns => ":" ++ ns ++ "/" ++ k.name

def stored (k : Keyword) : String :=
  match k.ns with
  | none => k.name
  | some ns => ns ++ "/" ++ k.name

end Keyword

/-- `edn::Value`. A map lists its entries in key order; an instant is its microseconds. -/
inductive EdnValue where
  | nil
  | boolean (b : Bool)
  | integer (i : Int64)
  | instant (micros : Int64)
  | bigInteger (n : Int)
  | float (f : F64)
  | text (s : String)
  | uuid (u : Uuid)
  | plainSymbol (s : String)
  | namespacedSymbol (ns name : String)
  | keyword (k : Keyword)
  | vector (xs : List EdnValue)
  | list (xs : List EdnValue)
  | set (xs : List EdnValue)
  | map (entries : List (EdnValue × EdnValue))
  | bytes (bs : List UInt8)

/-- `value_type_name`. -/
def EdnValue.typeName : EdnValue → String
  | nil => "nil"
  | boolean _ => "boolean"
  | integer _ => "integer"
  | bigInteger _ => "biginteger"
  | float _ => "float/double"
  | instant _ => "instant"
  | uuid _ => "uuid"
  | text _ => "text/string"
  | keyword _ => "keyword"
  | plainSymbol _ => "symbol"
  | namespacedSymbol _ _ => "namespaced symbol"
  | vector _ => "vector"
  | list _ => "list"
  | set _ => "set"
  | map _ => "map"
  | bytes _ => "unknown"

inductive UniqueType where
  | value | identity
  deriving DecidableEq, Repr

inductive Cardinality where
  | one | many
  deriving DecidableEq, Repr

/-- The errors a transaction can end with. Where the source prints an EDN value, the error
carries the value; `postgres` is an error PostgreSQL raises itself. -/
inductive MentatError where
  | attributeNotFound (attr : String)
  | typeMismatch (attr expected got : String) (expectedTag gotTag : Nat)
  | uniqueConstraintViolation (attr : String) (uniqueType : UniqueType)
      (existingEid newEid : Int64)
  | invalidTransaction (message : String)
  | entityNotFound (ident message : String)
  | lookupRefNotFound (attr message : String)
  | lookupRefRequiresUnique (attr : String)
  | allocationFailed (part : String)
  | cardinalityViolation (attr : String) (entity : Int64) (count : Nat)
  | casFailed (entity : Int64) (attr : String) (expected : EdnValue) (actual : List TypedValue)
  | casManyValues (entity : Int64) (attr : String) (count : Nat)
  | invalidEntityPlace (gotType message : String) (gotValue : EdnValue)
  | invalidAttribute (gotType : String) (gotValue : EdnValue)
  | unsupportedValueType (gotType : String) (gotValue : EdnValue)
  | transactionFailed (message : String)
  | internal (message : String)
  | postgres (message : String)

end PgMentat

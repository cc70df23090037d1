import PgMentat.Lib.Text
import Mathlib.Algebra.Ring.Int.Defs

namespace PgMentat

open TextCodec

/-- A double up to PostgreSQL's comparison, so `-0` and `0` are one value. A finite nonzero
double is `±d.ddd × 10^exponent` for its shortest digits `ddd..`. -/
inductive F64 where
  | nan
  | infinity (negative : Bool)
  | zero
  | finite (negative : Bool) (digits : Nat) (exponent : Int) (shortest : digits % 10 ≠ 0)
  deriving DecidableEq, Repr

namespace F64

def mantissaText : List Char → List Char
  | [] => []
  | [d] => [d]
  | d :: ds => d :: '.' :: ds

/-- Rust's `{:e}`. -/
def lowerExp : F64 → String
  | nan => "NaN"
  | infinity negative => if negative then "-inf" else "inf"
  | zero => "0e0"
  | finite negative digits exponent _ =>
    (if negative then "-" else "") ++ String.ofList (mantissaText (Nat.toDigits 10 digits)) ++
      "e" ++ toString exponent

def parseUnsigned (negative : Bool) (cs : List Char) : Option F64 :=
  let mantissa := (cs.takeWhile (· ≠ 'e')).filter (· ≠ '.')
  match parseNat mantissa, parseInt (cs.dropWhile (· ≠ 'e')).tail with
  | some digits, some exponent =>
    if h : digits % 10 ≠ 0 then some (finite negative digits exponent h)
    else if digits = 0 then some zero
    else none
  | _, _ => none

/-- The inverse of `lowerExp` on finite doubles. -/
def parseFinite (cs : List Char) : Option F64 :=
  if cs.head? = some '-' then parseUnsigned true cs.tail else parseUnsigned false cs

/-- `v::text` of a double. PostgreSQL prints the shortest digits that read back as the same
double, so the text is identified with those digits. -/
def text : F64 → List Char
  | nan => "NaN".toList
  | infinity negative => if negative then "-Infinity".toList else "Infinity".toList
  | f => f.lowerExp.toList

/-- Rust's `f64::from_str` on the texts that `text` produces. -/
def parse (cs : List Char) : Option F64 :=
  if cs = "NaN".toList then some nan
  else if cs = "Infinity".toList then some (infinity false)
  else if cs = "-Infinity".toList then some (infinity true)
  else parseFinite cs

end F64

structure Uuid where
  bytes : List UInt8
  length_eq : bytes.length = 16
  deriving DecidableEq, Repr

namespace Uuid

/-- The hyphenated spelling, 8-4-4-4-12. -/
def chars (u : Uuid) : List Char :=
  hexEncode (u.bytes.take 4) ++ '-' :: hexEncode ((u.bytes.drop 4).take 2) ++
    '-' :: hexEncode ((u.bytes.drop 6).take 2) ++ '-' :: hexEncode ((u.bytes.drop 8).take 2) ++
    '-' :: hexEncode (u.bytes.drop 10)

def parse (cs : List Char) : Option Uuid :=
  match hexDecode (cs.filter (· ≠ '-')) with
  | none => none
  | some bs => if h : bs.length = 16 then some ⟨bs, h⟩ else none

end Uuid

inductive ValueType where
  | ref | boolean | long | double | instant | string | keyword | uuid | bytes
  deriving DecidableEq, Repr

namespace ValueType

def all : List ValueType :=
  [ref, boolean, long, double, instant, string, keyword, uuid, bytes]

theorem mem_all (t : ValueType) : t ∈ all := by
  cases t <;> decide

/-- `value_type_to_tag`. -/
def toTag : ValueType → Nat
  | ref => 0
  | boolean => 1
  | long => 2
  | double => 3
  | instant => 4
  | string => 7
  | keyword => 8
  | uuid => 10
  | bytes => 11

theorem toTag_inj {s t : ValueType} (h : s.toTag = t.toTag) : s = t := by
  cases s <;> cases t <;> first | rfl | exact absurd h (by decide)

/-- `tag_to_value_type_name`, on the tags that exist. -/
def name : ValueType → String
  | ref => "ref"
  | boolean => "boolean"
  | long => "long"
  | double => "double"
  | instant => "instant"
  | string => "string"
  | keyword => "keyword"
  | uuid => "uuid"
  | bytes => "bytes"

end ValueType

inductive TypedValue where
  | ref (id : Int64)
  | boolean (b : Bool)
  | long (n : Int64)
  | double (f : F64)
  | text (s : String)
  | keyword (s : String)
  | instant (micros : Int64)
  | uuid (u : Uuid)
  | bytes (bs : List UInt8)
  deriving DecidableEq, Repr

namespace TypedValue

/-- The narrow table a value is stored in. -/
def valueType : TypedValue → ValueType
  | ref _ => .ref
  | boolean _ => .boolean
  | long _ => .long
  | double _ => .double
  | text _ => .string
  | keyword _ => .keyword
  | instant _ => .instant
  | uuid _ => .uuid
  | bytes _ => .bytes

def typeTag (v : TypedValue) : Nat := v.valueType.toTag

/-- The derived `PartialEq`: structural, except that NaN differs from itself. -/
def partialEq (v w : TypedValue) : Bool := v = w ∧ v ≠ double .nan

theorem eq_of_partialEq {v w : TypedValue} (h : v.partialEq w = true) : v = w := by
  simp only [partialEq, decide_eq_true_eq] at h
  exact h.1

theorem partialEq_iff {v w : TypedValue} (hw : w.valueType ≠ .double) :
    v.partialEq w = true ↔ v = w := by
  constructor
  · exact eq_of_partialEq
  · intro h
    have hnan : v ≠ double .nan := fun hv => hw (h ▸ hv ▸ rfl)
    simp [partialEq, h ▸ hnan, h]

def quoted (cs : List Char) : List Char := '\'' :: doubleQuotes cs ++ ['\'']

def doubleLiteral (f : F64) : List Char :=
  (match f with
    | .nan => "'NaN'".toList
    | .infinity negative => if negative then "'-Infinity'".toList else "'Infinity'".toList
    | f => f.lowerExp.toList) ++ "::double precision".toList

def sqlLiteralChars : TypedValue → List Char
  | ref id => (toString id.toInt).toList
  | boolean b => if b then "true".toList else "false".toList
  | long n => (toString n.toInt).toList
  | double f => doubleLiteral f
  | instant micros =>
    "to_timestamp(".toList ++ (toString micros.toInt).toList ++
      "::double precision/1000000.0)".toList
  | text s => quoted s.toList
  | keyword s => quoted s.toList
  | uuid u => '\'' :: u.chars ++ "'::uuid".toList
  | bytes bs => "decode('".toList ++ hexEncode bs ++ "','hex')".toList

/-- `typed_value_sql_literal`: the type is not part of the literal. -/
def sqlLiteral (v : TypedValue) : String := String.ofList v.sqlLiteralChars

/-- A timestamp's `EXTRACT(EPOCH FROM v)::bigint`: seconds rounded half away from zero. -/
def roundedSeconds (micros : Int) : Int :=
  if 0 ≤ micros then (micros + 500000) / 1000000 else -((-micros + 500000) / 1000000)

/-- The `value_expr` of `current_projection_value_for_ea`. -/
def projectionText : TypedValue → List Char
  | ref id => (toString id.toInt).toList
  | boolean b => if b then "true".toList else "false".toList
  | long n => (toString n.toInt).toList
  | double f => f.text
  | instant micros => (toString (roundedSeconds micros.toInt * 1000000)).toList
  | text s => s.toList
  | keyword s => s.toList
  | uuid u => u.chars
  | bytes bs => hexEncode bs

def parseI64 (cs : List Char) : Option Int64 :=
  match parseInt cs with
  | some n => if -2 ^ 63 ≤ n ∧ n < 2 ^ 63 then some (Int64.ofInt n) else none
  | none => none

def parseBool (cs : List Char) : Option Bool :=
  if cs = "true".toList then some true
  else if cs = "false".toList then some false
  else none

/-- `parse_typed_value_from_tag`, with the source's error texts. -/
def parseFromTag (type : ValueType) (cs : List Char) : Except String TypedValue :=
  let orInvalid {α : Type} (name : String) (wrap : α → TypedValue) :
      Option α → Except String TypedValue
    | some a => .ok (wrap a)
    | none => .error ("Invalid " ++ name)
  match type with
  | .ref => orInvalid "ref" ref (parseI64 cs)
  | .boolean => orInvalid "boolean" boolean (parseBool cs)
  | .long => orInvalid "long" long (parseI64 cs)
  | .double => orInvalid "double" double (F64.parse cs)
  | .instant => orInvalid "instant" instant (parseI64 cs)
  | .string => .ok (text (String.ofList cs))
  | .keyword => .ok (keyword (String.ofList cs))
  | .uuid => orInvalid "UUID" uuid (Uuid.parse cs)
  | .bytes => orInvalid "hex" bytes (hexDecode cs)

end TypedValue

end PgMentat

import PgMentat.Query.Sql

namespace PgMentat

open TextCodec

/-- IEEE 754 as PostgreSQL and Rust have it: the bits that `float8send` writes, the double that
`f64::from_bits` reads, and the value that `f64::from_str` gives a text, which a zero in front of
a decimal does not change. -/
structure FloatFormat where
  bits : F64 → Int64
  ofBits : Int64 → F64
  ofText : List Char → F64
  ofText_zero : ∀ cs, isDecimal cs = true → ofText ('0' :: cs) = ofText cs

/-- Year, month and day of a day number counted from 1970-01-01. -/
def civilDate (days : Int) : Int × Int × Int :=
  let z := days + 719468
  let era := z / 146097
  let doe := z % 146097
  let yoe := (doe - doe / 1460 + doe / 36524 - doe / 146096) / 365
  let doy := doe - (365 * yoe + yoe / 4 - yoe / 100)
  let mp := (5 * doy + 2) / 153
  let month := if mp < 10 then mp + 3 else mp - 9
  let year := yoe + era * 400 + if month ≤ 2 then 1 else 0
  (year, month, doy - (153 * mp + 2) / 5 + 1)

def padded (width : Nat) (n : Int) : String :=
  let digits := Nat.toDigits 10 n.toNat
  String.ofList (List.replicate (width - digits.length) '0' ++ digits)

/-- Years before the common era are counted backwards from 1. -/
def dateText (date : Int × Int × Int) : String :=
  padded 4 (if date.1 ≤ 0 then 1 - date.1 else date.1) ++ "-" ++ padded 2 date.2.1 ++ "-" ++
    padded 2 date.2.2

/-- `HH24:MI:SS` of so many microseconds of a day. -/
def timeText (time : Int) : String :=
  padded 2 (time / 3600000000) ++ ":" ++ padded 2 (time / 60000000 % 60) ++ ":" ++
    padded 2 (time / 1000000 % 60)

/-- `to_char(.. AT TIME ZONE 'UTC', 'YYYY-MM-DD"T"HH24:MI:SS.US"Z"')`. -/
def instantText (micros : Int) : String :=
  dateText (civilDate (micros / 86400000000)) ++ "T" ++ timeText (micros % 86400000000) ++ "." ++
    padded 6 (micros % 1000000) ++ "Z"

def boolText (b : Bool) : String := if b then "true" else "false"

/-- `build_value_decode_expr`, by the tag of the row. -/
def valueDecodeExpr (fmt : FloatFormat) : TypedValue → String
  | .ref id => toString id.toInt
  | .boolean b => boolText b
  | .long n => toString n.toInt
  | .double f => "d:" ++ toString (fmt.bits f).toInt
  | .instant micros => instantText micros.toInt
  | .text s => s
  | .keyword s => ":" ++ s
  | .uuid u => String.ofList u.chars
  | .bytes bs => String.ofList (hexEncode bs)

/-- `{idx}.{col}::TEXT`, for the columns that variables other than values are bound to. -/
def LogRow.columnText (r : LogRow) : Column → Option String
  | .e => some (toString r.e.toInt)
  | .a => some (toString r.a.toInt)
  | .tx => some (toString r.tx.toInt)
  | .added => some (boolText r.added)
  | _ => none

inductive Output where
  | valueDecode (idx : Nat)
  | column (idx : Nat) (col : Column)
  deriving DecidableEq, Repr

def Output.text (fmt : FloatFormat) (joined : List LogRow) : Output → Option String
  | valueDecode idx => joined[idx]?.map fun r => valueDecodeExpr fmt r.v
  | column idx col => joined[idx]?.bind fun r => r.columnText col

inductive Json where
  | null
  | bool (b : Bool)
  | integer (n : Int64)
  /-- A `u64` that is no `i64`. -/
  | unsigned (n : UInt64)
  | float (f : F64)
  | string (s : String)
  deriving DecidableEq, Repr

/-- `json!(f)`: what is not a finite number becomes `null`. -/
def Json.ofF64 : F64 → Json
  | .nan | .infinity _ => null
  | f => float f

def strip (pre : List Char) (cs : List Char) : Option (List Char) :=
  if pre <+: cs then some (cs.drop pre.length) else none

/-- `decode_text_result`: the type is guessed from the spelling. -/
def decodeTextResult (fmt : FloatFormat) (val : String) : Json :=
  let cs := val.toList
  match (strip "d:".toList cs).bind TypedValue.parseI64 with
  | some bits => .ofF64 (fmt.ofBits bits)
  | none =>
    if val = "true" then .bool true
    else if val = "false" then .bool false
    else
      match TypedValue.parseI64 cs with
      | some n => .integer n
      | none => if isFloat cs then .ofF64 (fmt.ofText cs) else .string val

def resultValue (fmt : FloatFormat) : Option String → Json
  | some text => decodeTextResult fmt text
  | none => .null

end PgMentat

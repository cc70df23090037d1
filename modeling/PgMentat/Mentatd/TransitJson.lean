import PgMentat.Mentatd.SerdeJson
import PgMentat.Mentatd.Transit

namespace PgMentat

open JsonRead

inductive AnomalyCategory where
  | incorrect
  | forbidden
  | notFound
  | unavailable
  | interrupted
  | fault

def AnomalyCategory.asKeyword : AnomalyCategory → String
  | incorrect => ":cognitect.anomalies/incorrect"
  | forbidden => ":cognitect.anomalies/forbidden"
  | notFound => ":cognitect.anomalies/not-found"
  | unavailable => ":cognitect.anomalies/unavailable"
  | interrupted => ":cognitect.anomalies/interrupted"
  | fault => ":cognitect.anomalies/fault"

structure Anomaly where
  category : AnomalyCategory
  message : String
  dbError : Option String

inductive MentatdResponse where
  | success (result : ResponseValue)
  | error (anomaly : Anomaly)

/-- `write!(output, "\"~m{}\"", …)` and the like: a tag, and a text put in as it is. -/
def taggedText (tag : String) (raw : List Char) : List Char := quoted (tag.toList ++ raw)

/-- A finite float with a fraction of zero gets one decimal place. -/
structure FloatWriter where
  finite : F64 → List Char

def floatToTransitJson (floats : FloatWriter) : F64 → List Char
  | .nan => taggedText "~z" "NaN".toList
  | .infinity false => taggedText "~z" "INF".toList
  | .infinity true => taggedText "~z" "-INF".toList
  | f => floats.finite f

def stringToTransitJson (s : String) : List Char :=
  match s.toList with
  | '~' :: _ => taggedText "~" (escapeBasic s.toList)
  | '^' :: _ => taggedText "~" (escapeBasic s.toList)
  | _ => quoted (escapeBasic s.toList)

/-- Integers outside 32 bits are written as strings. -/
def integerToTransitJson (n : Int64) : List Char :=
  if 2147483647 < n.toInt ∨ n.toInt < -2147483648 then taggedText "~i" (toString n.toInt).toList
  else (toString n.toInt).toList

mutual

def valueToTransitJson (floats : FloatWriter) : ResponseValue → List Char
  | .nil => "null".toList
  | .string s => stringToTransitJson s
  | .boolean b => (toString b).toList
  | .integer n => integerToTransitJson n
  | .float f => floatToTransitJson floats f
  | .keyword k => taggedText "~:" k.toList
  | .instant micros => taggedText "~m" (toString (micros / 1000).toInt).toList
  | .uuid u => taggedText "~u" u.toList
  | .list items => arrayText [quoted "~#list".toList, arrayText (itemsToTransitJson floats items)]
  | .vector items => arrayText (itemsToTransitJson floats items)
  | .map entries => arrayText (quoted "^ ".toList :: entriesToTransitJson floats entries)
  | .dbSnapshot dbId basisT =>
    arrayText [quoted "~#db".toList, arrayText [quoted dbId.toList, (toString basisT.toInt).toList]]

def itemsToTransitJson (floats : FloatWriter) : List ResponseValue → List (List Char)
  | [] => []
  | item :: items => valueToTransitJson floats item :: itemsToTransitJson floats items

def entriesToTransitJson (floats : FloatWriter) :
    List (ResponseValue × ResponseValue) → List (List Char)
  | [] => []
  | (key, value) :: entries =>
    valueToTransitJson floats key :: valueToTransitJson floats value ::
      entriesToTransitJson floats entries

end

def anomalyToTransitJson (anomaly : Anomaly) : List Char :=
  arrayText [quoted "^ ".toList, taggedText "~:" "error".toList, arrayText ([quoted "^ ".toList,
    taggedText "~:" "cognitect.anomalies/category".toList,
    taggedText "~:" (anomaly.category.asKeyword.toList.drop 1),
    taggedText "~:" "cognitect.anomalies/message".toList,
    quoted (escapeBasic anomaly.message.toList)] ++
    match anomaly.dbError with
    | some dbError => [taggedText "~:" "db/error".toList, taggedText "~:" dbError.toList]
    | none => [])]

def serializeTransitJson (floats : FloatWriter) : MentatdResponse → List Char
  | .success result =>
    arrayText [quoted "^ ".toList, taggedText "~:" "result".toList,
      valueToTransitJson floats result]
  | .error anomaly => anomalyToTransitJson anomaly

def nestingExceeded : String := "Transit nesting depth exceeds maximum (64)"

def scalarToTransit : Json → TransitValue
  | .null => .nil
  | .bool b => .bool b
  | .integer n => .integer n
  | .unsigned n => .integer n.toInt64
  | .float f => .float f
  | .string s => decodeTransitTaggedString s

/-- The string that may say what an array stands for. -/
def JsonValue.marker : JsonValue → Option String
  | .scalar (.string s) => some s
  | _ => none

mutual

def jsonToTransitBounded : JsonValue → Nat → Except String TransitValue
  | v, depth =>
    if maxNestingDepth < depth then .error nestingExceeded
    else
      match v with
      | .scalar j => .ok (scalarToTransit j)
      | .array items => decodeTransitArrayBounded items (depth + 1)
      | .object entries => (membersToTransit entries (depth + 1)).map .map

def decodeTransitArrayBounded : List JsonValue → Nat → Except String TransitValue
  | [], _ => .ok (.array [])
  | first :: rest, depth =>
    if first.marker = some "^ " then (cmapToTransit rest depth).map .map
    else if first.marker = some "~#list" ∨ first.marker = some "~#set" then
      match rest with
      | .array items :: _ => (itemsToTransit items depth).map .array
      | _ => .ok (.array [])
    else do
      let value ← jsonToTransitBounded first depth
      let values ← itemsToTransit rest depth
      return .array (value :: values)

def itemsToTransit : List JsonValue → Nat → Except String (List TransitValue)
  | [], _ => .ok []
  | item :: items, depth => do
    let first ← jsonToTransitBounded item depth
    let rest ← itemsToTransit items depth
    return first :: rest

/-- Keys and values alternate; a last key without a value is dropped. -/
def cmapToTransit : List JsonValue → Nat → Except String (List (TransitValue × TransitValue))
  | key :: value :: rest, depth => do
    let key ← jsonToTransitBounded key depth
    let value ← jsonToTransitBounded value depth
    let entries ← cmapToTransit rest depth
    return (key, value) :: entries
  | _, _ => .ok []

def membersToTransit : List (String × JsonValue) → Nat →
    Except String (List (TransitValue × TransitValue))
  | [], _ => .ok []
  | (key, value) :: members, depth => do
    let value ← jsonToTransitBounded value depth
    let entries ← membersToTransit members depth
    return (decodeTransitTaggedString key, value) :: entries

end

example : (jsonToTransitBounded (.array [.string "~#list", .array [.string "~:a"]]) 0).toOption =
    some (.array [.keyword "a"]) := by rfl

end PgMentat

import PgMentat.Mentatd.QueryCache
import PgMentat.JsonValue
import PgMentat.Lib.JsonText
import PgMentat.Query.Compile
import PgMentat.Transact.Body

namespace PgMentat

inductive ResponseValue where
  | nil
  | boolean (b : Bool)
  | integer (n : Int64)
  | float (f : F64)
  | string (s : String)
  | keyword (s : String)
  | instant (micros : Int64)
  | uuid (s : String)
  | list (items : List ResponseValue)
  | vector (items : List ResponseValue)
  | map (entries : List (ResponseValue × ResponseValue))
  | dbSnapshot (dbId : String) (basisT : Int64)

def scalarResponse : Json → ResponseValue
  | .null => .nil
  | .bool b => .boolean b
  | .integer n => .integer n
  | .unsigned n => .string (toString n)
  | .float f => .float f
  | .string s =>
    match s.toList with
    | ':' :: stripped => .keyword (String.ofList stripped)
    | _ => .string s

/-- `as_f64`; an integer becomes the double that its digits spell. -/
def JsonValue.asF64 (fmt : FloatFormat) : JsonValue → Option F64
  | scalar (.float f) => some f
  | scalar (.integer n) => some (fmt.ofText (toString n.toInt).toList)
  | scalar (.unsigned n) => some (fmt.ofText (toString n).toList)
  | _ => none

/-- The objects that carry a type in `_t`. -/
def taggedResponse (fmt : FloatFormat) (entries : List (String × JsonValue)) :
    Option ResponseValue :=
  match entries.lookup "_t", entries.lookup "v" with
  | some (.scalar (.string tag)), some v =>
    if tag = "inst" then v.asI64.map .instant
    else if tag = "uuid" then
      match v with
      | .scalar (.string s) => some (.uuid s)
      | _ => none
    else if tag = "double" then (v.asF64 fmt).map .float
    else none
  | _, _ => none

mutual

def jsonToResponseValue (fmt : FloatFormat) : JsonValue → ResponseValue
  | .scalar j => scalarResponse j
  | .array items => .vector (itemsResponse fmt items)
  | .object entries => (taggedResponse fmt entries).getD (.map (entriesResponse fmt entries))

def itemsResponse (fmt : FloatFormat) : List JsonValue → List ResponseValue
  | [] => []
  | item :: items => jsonToResponseValue fmt item :: itemsResponse fmt items

def entriesResponse (fmt : FloatFormat) :
    List (String × JsonValue) → List (ResponseValue × ResponseValue)
  | [] => []
  | (key, value) :: entries =>
    (.keyword key, jsonToResponseValue fmt value) :: entriesResponse fmt entries

end

theorem itemsResponse_eq_map (fmt : FloatFormat) (items : List JsonValue) :
    itemsResponse fmt items = items.map (jsonToResponseValue fmt) := by
  induction items with
  | nil => rfl
  | cons item items ih => rw [itemsResponse, ih, List.map_cons]

inductive ServerError where
  | internal (message : String)
  | query (e : QueryError)
  | transact (e : MentatError)

def rowResponse (fmt : FloatFormat) (row : JsonValue) : Except ServerError ResponseValue :=
  match row.asArray with
  | some cols => .ok (.vector (itemsResponse fmt cols))
  | none => .error (.internal "Expected array for result row")

def parseQueryResults (fmt : FloatFormat) (json : JsonValue) :
    Except ServerError (List ResponseValue) :=
  match (json.get? "results").bind JsonValue.asArray with
  | some results => results.mapM (rowResponse fmt)
  | none => .error (.internal "Missing 'results' in query response")

/-- Tempids keep their spelling; every other key becomes a keyword. -/
def tempidsResponse (fmt : FloatFormat) : JsonValue → ResponseValue
  | .object entries =>
    .map (entries.map fun entry => (.string entry.1, jsonToResponseValue fmt entry.2))
  | other => jsonToResponseValue fmt other

/-- `parse_tx_report` on a text that is JSON. -/
def txReportResponse (fmt : FloatFormat) (report : JsonValue) : ResponseValue :=
  let field (key : String) (read : JsonValue → ResponseValue) :
      List (ResponseValue × ResponseValue) :=
    ((report.get? key).map fun value => (ResponseValue.keyword key, read value)).toList
  .map (field "db-before" (jsonToResponseValue fmt) ++ field "db-after" (jsonToResponseValue fmt) ++
    field "tx-data" (jsonToResponseValue fmt) ++ field "tempids" (tempidsResponse fmt) ++
    field "tx-id" (jsonToResponseValue fmt) ++ field "tx-instant" (jsonToResponseValue fmt) ++
    field "datoms-inserted" (jsonToResponseValue fmt))

/-- Every integer of the result rows. -/
def extractResultEntities (json : JsonValue) : List Int64 :=
  match (json.get? "results").bind JsonValue.asArray with
  | some rows => (rows.flatMap fun row => (row.asArray.getD []).filterMap JsonValue.asI64).dedup
  | none => []

def extractChangedEntities (report : JsonValue) : List Int64 :=
  match (report.get? "tx-data").bind JsonValue.asArray with
  | some datoms =>
    (datoms.filterMap fun datom => (datom.asArray.bind List.head?).bind JsonValue.asI64).dedup
  | none => []

mutual

def collectEntityIds : JsonValue → List Int64
  | .scalar (.integer n) => [n]
  | .scalar _ => []
  | .array items => collectItems items
  | .object entries => collectEntries entries

def collectItems : List JsonValue → List Int64
  | [] => []
  | item :: items => collectEntityIds item ++ collectItems items

def collectEntries : List (String × JsonValue) → List Int64
  | [] => []
  | (_, value) :: entries => collectEntityIds value ++ collectEntries entries

end

/-- The value that `format_typed_value_for_json` spells; `spelled` is the number a double's digits
spell. -/
def TypedValue.reportJson (spelled : F64 → JsonValue) : TypedValue → JsonValue
  | ref id => .integer id
  | boolean b => .scalar (.bool b)
  | long n => .integer n
  | double f => .object [("_t", .string "double"), ("v", spelled f)]
  | instant micros => .object [("_t", .string "inst"), ("v", .integer micros)]
  | text s => .string s
  | keyword s => .string (":" ++ s)
  | uuid u => .object [("_t", .string "uuid"), ("v", .string (String.ofList u.chars))]
  | bytes bs => .string (String.ofList (TextCodec.hexEncode bs))

/-- The value that the text of a report is meant to spell. -/
def TxReport.json (spelled : F64 → JsonValue) (report : TxReport) : JsonValue :=
  .object [
    ("db-before", .object [("basis-t", .integer report.dbBefore)]),
    ("db-after", .object [("basis-t", .integer report.dbAfter)]),
    ("tx-data", .array (report.txData.map fun r =>
      .array [.integer r.e, .integer r.a, r.v.reportJson spelled, .integer r.tx,
        .scalar (.bool r.added)])),
    ("tempids", .object (report.tempids.map fun tempid => (tempid.1, .integer tempid.2))),
    ("schema_changed", .scalar (.bool report.schemaChanged))]

theorem mem_extractChangedEntities {spelled : F64 → JsonValue} {report : TxReport} {e : Int64} :
    e ∈ extractChangedEntities (report.json spelled) ↔ ∃ r ∈ report.txData, r.e = e := by
  have hdata : ((report.json spelled).get? "tx-data").bind JsonValue.asArray =
      some (report.txData.map fun r => .array [.integer r.e, .integer r.a,
        r.v.reportJson spelled, .integer r.tx, .scalar (.bool r.added)]) := rfl
  simp [extractChangedEntities, hdata, JsonValue.asArray, JsonValue.integer, JsonValue.asI64]

/-- The arguments as JSON, with the basis of a snapshot after them. -/
def cacheKeySuffix (args : List String) (basis : Option Int64) : String :=
  String.ofList (JsonText.arrayText args ++
    (basis.map fun t => '@' :: (toString t.toInt).toList).getD [])

def queryKey (text : String) (args : List String) (basis : Option Int64) : CacheKey :=
  (text, cacheKeySuffix args basis)

def pullKey (pattern : String) (entityId : Int64) : CacheKey :=
  ("__pull__:" ++ pattern, toString entityId.toInt)

theorem queryKey_inj {text text' : String} {args args' : List String} {basis basis' : Option Int64}
    (h : queryKey text args basis = queryKey text' args' basis') :
    text = text' ∧ args = args' ∧ basis = basis' := by
  obtain ⟨htext, hsuffix⟩ := Prod.mk.inj h
  obtain ⟨hargs, hbasis⟩ := JsonText.arrayText_append_inj (String.ofList_injective hsuffix)
  refine ⟨htext, hargs, ?_⟩
  cases basis with
  | none =>
    cases basis' with
    | none => rfl
    | some t' => cases hbasis
  | some t =>
    cases basis' with
    | none => cases hbasis
    | some t' =>
      have hdigits : toString t.toInt = toString t'.toInt :=
        String.toList_inj.mp (List.cons.inj hbasis).2
      rw [Int64.toInt_inj.mp (TextCodec.toString_int_inj hdigits)]

theorem pullKey_inj {pattern pattern' : String} {e e' : Int64}
    (h : pullKey pattern e = pullKey pattern' e') : pattern = pattern' ∧ e = e' := by
  obtain ⟨hpattern, he⟩ := Prod.mk.inj h
  exact ⟨by simpa using hpattern, Int64.toInt_inj.mp (TextCodec.toString_int_inj he)⟩

theorem queryKey_ne_pullKey {text pattern : String} {args : List String} {basis : Option Int64}
    {e : Int64} : queryKey text args basis ≠ pullKey pattern e := by
  intro h
  have hnumber : (cacheKeySuffix args basis).toList.head? = (toString e.toInt).toList.head? := by
    rw [(Prod.mk.inj h).2]
  have harray : (cacheKeySuffix args basis).toList.head? = some '[' := by
    rw [cacheKeySuffix, String.toList_ofList]
    cases args <;> rfl
  have hparse := TextCodec.parseInt_toString e.toInt
  cases hcs : (toString e.toInt).toList with
  | nil =>
    rw [harray, hcs] at hnumber
    cases hnumber
  | cons c cs =>
    rw [harray, hcs, List.head?_cons, Option.some.injEq] at hnumber
    rw [hcs, ← hnumber] at hparse
    simp [TextCodec.parseInt, TextCodec.parseNat] at hparse

end PgMentat

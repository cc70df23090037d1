import PgMentat.Mentatd.SerdeJson
import PgMentat.Run

namespace PgMentat

open List JsonRead

/-- `format!("\x7b\x7d", f)` of a double. -/
structure DoubleDisplay where
  text : F64 → List Char

/-- `\x7b"_t":tag,"v":value\x7d`. -/
def taggedObject (tag : String) (value : List Char) : List Char :=
  objectText [memberText "_t".toList (quoted tag.toList), memberText "v".toList value]

def formatTypedValueForJson (doubles : DoubleDisplay) : TypedValue → List Char
  | .ref id => (toString id.toInt).toList
  | .boolean b => (toString b).toList
  | .long n => (toString n.toInt).toList
  | .double f => taggedObject "double" (doubles.text f)
  | .instant micros => taggedObject "inst" (toString micros.toInt).toList
  | .text s => quoted (escapeBasic s.toList)
  | .keyword s => quoted (':' :: s.toList)
  | .uuid u => taggedObject "uuid" (quoted u.chars)
  | .bytes bs => quoted (TextCodec.hexEncode bs)

/-- `[e,a,v,tx,added]`. -/
def rowText (doubles : DoubleDisplay) (r : LogRow) : List Char :=
  arrayText [(toString r.e.toInt).toList, (toString r.a.toInt).toList,
    formatTypedValueForJson doubles r.v, (toString r.tx.toInt).toList, (toString r.added).toList]

def basisText (t : Int64) : List Char :=
  objectText [memberText "basis-t".toList (toString t.toInt).toList]

/-- The string that `mentat_transact` returns. The names of tempids go in as they are. -/
def TxReport.text (doubles : DoubleDisplay) (report : TxReport) : List Char :=
  objectText [
    memberText "db-before".toList (basisText report.dbBefore),
    memberText "db-after".toList (basisText report.dbAfter),
    memberText "tx-data".toList (arrayText (report.txData.map (rowText doubles))),
    memberText "tempids".toList (objectText (report.tempids.map fun tempid =>
      memberText tempid.1.toList (toString tempid.2.toInt).toList)),
    memberText "schema_changed".toList (toString report.schemaChanged).toList]

def parseTxReport (fmt : FloatFormat) (text : List Char) : Except ServerError ResponseValue :=
  match fromStr fmt text with
  | some report => .ok (txReportResponse fmt report)
  | none => .error (.internal "Failed to parse tx report")

def TypedValue.response : TypedValue → Option ResponseValue
  | ref id => some (.integer id)
  | boolean b => some (.boolean b)
  | long n => some (.integer n)
  | instant micros => some (.instant micros)
  | text s => some (.string s)
  | keyword s => some (.keyword s)
  | uuid u => some (.uuid (String.ofList u.chars))
  | double _ => none
  | bytes _ => none

/-- The entry of `tx-data` for a row. -/
def LogRow.Reported (r : LogRow) (entry : ResponseValue) : Prop :=
  ∃ v, r.v.response = some v ∧
    entry = .vector [.integer r.e, .integer r.a, v, .integer r.tx, .boolean r.added]

/-- The text is read, the keys of `tempids` are the names and `tx-data` has an entry for each
datom. -/
def Acknowledges (fmt : FloatFormat) (text : List Char) (datoms : List LogRow)
    (names : List String) : Prop :=
  ∃ fields data tempids, parseTxReport fmt text = .ok (.map fields) ∧
    (ResponseValue.keyword "tx-data", ResponseValue.vector data) ∈ fields ∧
    (ResponseValue.keyword "tempids", ResponseValue.map tempids) ∈ fields ∧
    List.Forall₂ LogRow.Reported datoms data ∧
    ∀ key, key ∈ tempids.map Prod.fst ↔ ∃ name ∈ names, key = .string name

/-- Nothing in the value needs an escape that the writer leaves out; doubles and bytes are left
out. -/
def TypedValue.Spelled : TypedValue → Prop
  | text s => LegibleText s
  | keyword s => PlainText s
  | double _ => False
  | bytes _ => False
  | _ => True

def TypedValue.tree : TypedValue → Tree
  | ref id => .number (toString id.toInt).toList
  | boolean b => .bool b
  | long n => .number (toString n.toInt).toList
  | instant micros =>
    .object [("_t", .string "inst"), ("v", .number (toString micros.toInt).toList)]
  | text s => .string s
  | keyword s => .string (":" ++ s)
  | uuid u => .object [("_t", .string "uuid"), ("v", .string (String.ofList u.chars))]
  | double _ => .null
  | bytes _ => .null

def LogRow.tree (r : LogRow) : Tree :=
  .array [.number (toString r.e.toInt).toList, .number (toString r.a.toInt).toList, r.v.tree,
    .number (toString r.tx.toInt).toList, .bool r.added]

def basisTree (t : Int64) : Tree := .object [("basis-t", .number (toString t.toInt).toList)]

def tempidMembers (tempids : Tempids) : List (String × Tree) :=
  tempids.map fun tempid => (tempid.1, .number (toString tempid.2.toInt).toList)

def TxReport.tree (report : TxReport) : Tree :=
  .object [("db-before", basisTree report.dbBefore), ("db-after", basisTree report.dbAfter),
    ("tx-data", .array (report.txData.map LogRow.tree)),
    ("tempids", .object (tempidMembers report.tempids)),
    ("schema_changed", .bool report.schemaChanged)]

section Reading

variable (doubles : DoubleDisplay)

theorem readsTo_key {key : String} {value : List Char} {tree : Tree} (hkey : PlainText key)
    (h : ReadsTo value tree) : ReadsToMember (memberText key.toList value) (key, tree) :=
  readsTo_member (readString_of_plain hkey) h

theorem readsTo_taggedObject {tag : String} {value : List Char} {tree : Tree}
    (htag : PlainText tag) (h : ReadsTo value tree) :
    ReadsTo (taggedObject tag value) (.object [("_t", .string tag), ("v", tree)]) :=
  readsTo_object (.cons (readsTo_key (by decide) (readsTo_plain htag))
    (.cons (readsTo_key (by decide) h) .nil))

theorem plain_hexEncode (bs : List UInt8) : ∀ c ∈ TextCodec.hexEncode bs, Plain c := by
  have hdigit : ∀ n, Plain (TextCodec.hexDigit n) := by
    intro n
    have hfin : ∀ k : Fin 16, Plain (Nat.digitChar k.val) := by decide
    exact hfin ⟨n % 16, Nat.mod_lt n (by decide)⟩
  induction bs with
  | nil => exact fun _ hc => nomatch hc
  | cons b bs ih =>
    exact forall_mem_cons.mpr ⟨hdigit _, forall_mem_cons.mpr ⟨hdigit _, ih⟩⟩

theorem plainText_uuid (u : Uuid) : PlainText (String.ofList u.chars) := by
  have hhyphen : ∀ {cs : List Char}, (∀ c ∈ cs, Plain c) → ∀ c ∈ '-' :: cs, Plain c :=
    fun h => forall_mem_cons.mpr ⟨by decide, h⟩
  rw [PlainText, String.toList_ofList, Uuid.chars]
  simp only [forall_mem_append]
  exact ⟨⟨⟨⟨plain_hexEncode _, hhyphen (plain_hexEncode _)⟩, hhyphen (plain_hexEncode _)⟩,
    hhyphen (plain_hexEncode _)⟩, hhyphen (plain_hexEncode _)⟩

theorem readsTo_formatForJson {v : TypedValue} (h : v.Spelled) :
    ReadsTo (formatTypedValueForJson doubles v) v.tree := by
  cases v with
  | ref id => exact readsTo_int id.toInt
  | boolean b => exact readsTo_bool b
  | long n => exact readsTo_int n.toInt
  | double f => exact h.elim
  | instant micros => exact readsTo_taggedObject (by decide) (readsTo_int micros.toInt)
  | text s => exact readsTo_escapeBasic h
  | keyword s =>
    have hplain : PlainText (":" ++ s) := plainText_append.mpr ⟨by decide, h⟩
    have hread := readsTo_plain hplain
    rwa [String.toList_append] at hread
  | uuid u =>
    have hread := readsTo_plain (plainText_uuid u)
    rw [String.toList_ofList] at hread
    exact readsTo_taggedObject (by decide) hread
  | bytes bs => exact h.elim

theorem readsTo_row {r : LogRow} (h : r.v.Spelled) :
    ReadsTo (rowText doubles r) r.tree :=
  readsTo_array (.cons (readsTo_int r.e.toInt) (.cons (readsTo_int r.a.toInt)
    (.cons (readsTo_formatForJson doubles h) (.cons (readsTo_int r.tx.toInt)
    (.cons (readsTo_bool r.added) .nil)))))

theorem readsTo_tempids {tempids : Tempids} (h : ∀ tempid ∈ tempids, PlainText tempid.1) :
    ReadsTo (objectText (tempids.map fun tempid =>
      memberText tempid.1.toList (toString tempid.2.toInt).toList))
      (.object (tempidMembers tempids)) := by
  apply readsTo_object
  rw [tempidMembers, List.forall₂_map_left_iff, List.forall₂_map_right_iff]
  exact List.forall₂_same.mpr fun tempid htempid =>
    readsTo_key (h tempid htempid) (readsTo_int tempid.2.toInt)

theorem readsTo_basis (t : Int64) : ReadsTo (basisText t) (basisTree t) :=
  readsTo_object (.cons (readsTo_key (by decide) (readsTo_int t.toInt)) .nil)

theorem readsTo_report {report : TxReport} (hdata : ∀ r ∈ report.txData, r.v.Spelled)
    (htempids : ∀ tempid ∈ report.tempids, PlainText tempid.1) :
    ReadsTo (report.text doubles) report.tree := by
  have hrows : Forall₂ ReadsTo (report.txData.map (rowText doubles))
      (report.txData.map LogRow.tree) := by
    rw [List.forall₂_map_left_iff, List.forall₂_map_right_iff]
    exact List.forall₂_same.mpr fun r hr => readsTo_row doubles (hdata r hr)
  exact readsTo_object (.cons (readsTo_key (by decide) (readsTo_basis report.dbBefore))
    (.cons (readsTo_key (by decide) (readsTo_basis report.dbAfter))
    (.cons (readsTo_key (by decide) (readsTo_array hrows))
    (.cons (readsTo_key (by decide) (readsTo_tempids htempids))
    (.cons (readsTo_key (by decide) (readsTo_bool report.schemaChanged)) .nil)))))

end Reading

/-- A text that is not taken for a keyword. -/
def TypedValue.Uncoloned : TypedValue → Prop
  | text s => s.toList.head? ≠ some ':'
  | _ => True

section Response

variable (fmt : FloatFormat)

theorem mem_keys_insertSorted {m : JsonObject} {key key' : String} {v : JsonValue} :
    key' ∈ (m.insertSorted key v).map Prod.fst ↔ key' = key ∨ key' ∈ m.map Prod.fst := by
  induction m with
  | nil => simp [JsonObject.insertSorted]
  | cons entry rest ih =>
    obtain ⟨k, w⟩ := entry
    unfold JsonObject.insertSorted
    by_cases hk : key = k
    · subst hk
      simp
    · rw [if_neg hk]
      by_cases hlt : key < k
      · rw [if_pos hlt, map_cons, mem_cons]
      · rw [if_neg hlt, map_cons, mem_cons, ih, map_cons, mem_cons]
        exact or_left_comm

theorem mem_keys_serdeMembers {members : List (String × Tree)} {m : JsonObject} {key : String} :
    key ∈ (serdeMembers fmt members m).map Prod.fst ↔
      key ∈ members.map Prod.fst ∨ key ∈ m.map Prod.fst := by
  induction members generalizing m with
  | nil => simp [serdeMembers]
  | cons member members ih =>
    obtain ⟨name, value⟩ := member
    rw [serdeMembers, ih, mem_keys_insertSorted, map_cons, mem_cons]
    tauto

theorem jsonToResponseValue_integer (n : Int64) :
    jsonToResponseValue fmt (serdeValue fmt (.number (toString n.toInt).toList)) = .integer n := by
  rw [serdeValue, serdeNumber_toString]
  rfl

theorem scalarResponse_string_iff {s : String} :
    scalarResponse (.string s) = .string s ↔ s.toList.head? ≠ some ':' := by
  unfold scalarResponse
  dsimp only
  split
  · rename_i stripped hs
    rw [hs]
    exact iff_of_false (fun h => by cases h) (fun h => h rfl)
  · rename_i hne
    refine iff_of_true rfl fun hhead => ?_
    obtain ⟨cs, hs⟩ := List.head?_eq_some_iff.mp hhead
    exact hne cs hs

theorem serdeValue_tagged (tag : String) (value : Tree) :
    serdeValue fmt (.object [("_t", .string tag), ("v", value)]) =
      .object [("_t", .string tag), ("v", serdeValue fmt value)] := by
  have hne : "v" ≠ "_t" := by decide
  have hlt : ¬ "v" < "_t" := by decide
  simp only [serdeValue, serdeMembers, JsonObject.insertSorted, if_neg hne, if_neg hlt]

theorem response_iff {v : TypedValue} (h : v.Spelled) :
    v.response = some (jsonToResponseValue fmt (serdeValue fmt v.tree)) ↔ v.Uncoloned := by
  cases v with
  | ref id =>
    rw [TypedValue.tree, jsonToResponseValue_integer]
    exact iff_of_true rfl trivial
  | boolean b => exact iff_of_true rfl trivial
  | long n =>
    rw [TypedValue.tree, jsonToResponseValue_integer]
    exact iff_of_true rfl trivial
  | double f => exact h.elim
  | instant micros =>
    rw [TypedValue.tree, serdeValue_tagged, serdeValue, serdeNumber_toString]
    exact iff_of_true rfl trivial
  | text s =>
    have heq : jsonToResponseValue fmt (serdeValue fmt (TypedValue.text s).tree) =
      scalarResponse (.string s) := rfl
    rw [heq, TypedValue.response, Option.some.injEq, eq_comm, scalarResponse_string_iff]
    rfl
  | keyword s =>
    have hlist : (":" ++ s).toList = ':' :: s.toList := String.toList_append
    have heq : jsonToResponseValue fmt (serdeValue fmt (TypedValue.keyword s).tree) =
        .keyword s := by
      rw [TypedValue.tree, serdeValue, JsonValue.string, jsonToResponseValue, scalarResponse]
      simp only [hlist, String.ofList_toList]
    rw [heq]
    exact iff_of_true rfl trivial
  | uuid u =>
    rw [TypedValue.tree, serdeValue_tagged]
    exact iff_of_true rfl trivial
  | bytes bs => exact h.elim

theorem itemsResponse_tree (items : List Tree) :
    itemsResponse fmt (serdeItems fmt items) =
      items.map fun item => jsonToResponseValue fmt (serdeValue fmt item) := by
  rw [itemsResponse_eq_map, serdeItems_eq_map, map_map]
  rfl

def LogRow.readEntry (r : LogRow) : ResponseValue :=
  .vector [.integer r.e, .integer r.a, jsonToResponseValue fmt (serdeValue fmt r.v.tree),
    .integer r.tx, .boolean r.added]

theorem jsonToResponseValue_row (r : LogRow) :
    jsonToResponseValue fmt (serdeValue fmt r.tree) = r.readEntry fmt := by
  rw [LogRow.tree, serdeValue, jsonToResponseValue, itemsResponse_tree]
  simp only [map_cons, map_nil, jsonToResponseValue_integer]
  rfl

theorem reported_readEntry_iff {r : LogRow} (h : r.v.Spelled) :
    r.Reported (r.readEntry fmt) ↔ r.v.Uncoloned := by
  rw [← response_iff fmt h]
  constructor
  · rintro ⟨v, hv, heq⟩
    simp only [LogRow.readEntry, ResponseValue.vector.injEq, List.cons.injEq] at heq
    rw [hv, heq.2.2.1]
  · intro h
    exact ⟨_, h, rfl⟩

theorem get?_report (report : TxReport) (key : String) :
    (serdeValue fmt report.tree).get? key =
      if key = "schema_changed" then some (.scalar (.bool report.schemaChanged))
      else if key = "tempids" then
        some (.object (serdeMembers fmt (tempidMembers report.tempids) []))
      else if key = "tx-data" then
        some (.array (serdeItems fmt (report.txData.map LogRow.tree)))
      else if key = "db-after" then some (serdeValue fmt (basisTree report.dbAfter))
      else if key = "db-before" then some (serdeValue fmt (basisTree report.dbBefore))
      else none := by
  simp only [TxReport.tree, serdeValue, JsonValue.get?, serdeMembers,
    JsonObject.lookup_insertSorted, lookup_nil]

theorem txReportResponse_tree (report : TxReport) :
    txReportResponse fmt (serdeValue fmt report.tree) = .map [
      (.keyword "db-before", jsonToResponseValue fmt (serdeValue fmt (basisTree report.dbBefore))),
      (.keyword "db-after", jsonToResponseValue fmt (serdeValue fmt (basisTree report.dbAfter))),
      (.keyword "tx-data", .vector (report.txData.map (LogRow.readEntry fmt))),
      (.keyword "tempids", tempidsResponse fmt
        (.object (serdeMembers fmt (tempidMembers report.tempids) [])))] := by
  have hdata : jsonToResponseValue fmt (.array (serdeItems fmt (report.txData.map LogRow.tree))) =
      .vector (report.txData.map (LogRow.readEntry fmt)) := by
    rw [jsonToResponseValue, itemsResponse_tree, map_map]
    exact congrArg _ (map_congr_left fun r _ => jsonToResponseValue_row fmt r)
  simp [txReportResponse, get?_report, hdata]

theorem parseTxReport_text (doubles : DoubleDisplay) {report : TxReport}
    (hdata : ∀ r ∈ report.txData, r.v.Spelled)
    (htempids : ∀ tempid ∈ report.tempids, PlainText tempid.1) :
    parseTxReport fmt (report.text doubles) =
      .ok (txReportResponse fmt (serdeValue fmt report.tree)) := by
  rw [parseTxReport, fromStr, (readsTo_report doubles hdata htempids).parse]
  rfl

theorem mem_tempidKeys (report : TxReport) (key : ResponseValue) :
    key ∈ ((serdeMembers fmt (tempidMembers report.tempids) []).map fun entry =>
      (ResponseValue.string entry.1, jsonToResponseValue fmt entry.2)).map Prod.fst ↔
      ∃ name ∈ report.tempids.map Prod.fst, key = .string name := by
  have hkeys : ∀ name, name ∈ (serdeMembers fmt (tempidMembers report.tempids) []).map Prod.fst ↔
      name ∈ report.tempids.map Prod.fst := by
    intro name
    rw [mem_keys_serdeMembers, tempidMembers, map_map]
    simp
  rw [map_map, mem_map]
  constructor
  · rintro ⟨entry, hentry, rfl⟩
    exact ⟨entry.1, (hkeys _).mp (mem_map_of_mem hentry), rfl⟩
  · rintro ⟨name, hname, rfl⟩
    obtain ⟨entry, hentry, rfl⟩ := mem_map.mp ((hkeys name).mpr hname)
    exact ⟨entry, hentry, rfl⟩

theorem acknowledged_iff_uncoloned (doubles : DoubleDisplay) {report : TxReport}
    (hdata : ∀ r ∈ report.txData, r.v.Spelled)
    (htempids : ∀ tempid ∈ report.tempids, PlainText tempid.1) :
    Acknowledges fmt (report.text doubles) report.txData (report.tempids.map Prod.fst) ↔
      ∀ r ∈ report.txData, r.v.Uncoloned := by
  have hparse := parseTxReport_text fmt doubles hdata htempids
  rw [txReportResponse_tree, tempidsResponse] at hparse
  have hrows : Forall₂ LogRow.Reported report.txData
      (report.txData.map (LogRow.readEntry fmt)) ↔ ∀ r ∈ report.txData, r.v.Uncoloned := by
    rw [List.forall₂_map_right_iff, List.forall₂_same]
    exact forall₂_congr fun r hr => reported_readEntry_iff fmt (hdata r hr)
  constructor
  · rintro ⟨fields, data, tempids, hread, hfield, -, hreported, -⟩
    rw [hparse] at hread
    cases hread
    simp only [mem_cons, Prod.mk.injEq, ResponseValue.keyword.injEq, not_mem_nil,
      or_false] at hfield
    rcases hfield with ⟨h, -⟩ | ⟨h, -⟩ | ⟨-, h⟩ | ⟨h, -⟩
    · exact absurd h (by decide)
    · exact absurd h (by decide)
    · cases h
      exact hrows.mp hreported
    · exact absurd h (by decide)
  · intro h
    exact ⟨_, _, _, hparse, by simp, by simp, hrows.mpr h, mem_tempidKeys fmt report⟩

end Response

/-- Neither a double nor bytes. -/
def TypedValue.Exchanged : TypedValue → Prop
  | double _ => False
  | bytes _ => False
  | _ => True

theorem spelled_of_legible {v : TypedValue} (hvalue : v.Exchanged)
    (hkeyword : ∀ s, v = .keyword s → PlainText s) (htext : ∀ s, v = .text s → LegibleText s) :
    v.Spelled := by
  cases v with
  | text s => exact htext s rfl
  | keyword s => exact hkeyword s rfl
  | double f | bytes bs => exact hvalue
  | _ => trivial

section Control

variable (doubles : DoubleDisplay)

/-- What a text has if it is read. -/
def TypedValue.Legible (v : TypedValue) : Prop := ∀ s, v = .text s → LegibleText s

theorem strict_value {v : TypedValue} (hvalue : v.Exchanged)
    (hkeyword : ∀ s, v = .keyword s → PlainText s) :
    Strict (formatTypedValueForJson doubles v) v.Legible := by
  by_cases htext : ∃ s, v = .text s
  · obtain ⟨s, rfl⟩ := htext
    refine exact_escapeBasic fun hlegible _ s' hs => ?_
    cases hs
    exact hlegible
  · have hspelled := spelled_of_legible hvalue hkeyword fun s hs => absurd ⟨s, hs⟩ htext
    exact (strict_of_readsTo (readsTo_formatForJson doubles hspelled)).mono fun _ s hs =>
      absurd ⟨s, hs⟩ htext

theorem strict_row {r : LogRow} (h : Strict (formatTypedValueForJson doubles r.v) r.v.Legible) :
    Strict (rowText doubles r) r.v.Legible := by
  have hint (n : Int64) := strict_of_readsTo (readsTo_int n.toInt)
  have hparts : ∀ part ∈ [((toString r.e.toInt).toList, True), ((toString r.a.toInt).toList, True),
      (formatTypedValueForJson doubles r.v, r.v.Legible), ((toString r.tx.toInt).toList, True),
      ((toString r.added).toList, True)], Strict part.1 part.2 := by
    simp only [forall_mem_cons]
    exact ⟨hint r.e, hint r.a, h, hint r.tx, strict_of_readsTo (readsTo_bool r.added),
      fun _ h => nomatch h⟩
  refine (strict_array hparts).mono fun hconds => ?_
  exact hconds (formatTypedValueForJson doubles r.v, r.v.Legible) (by simp)

theorem strict_report {report : TxReport}
    (hdata : ∀ r ∈ report.txData, Strict (formatTypedValueForJson doubles r.v) r.v.Legible)
    (htempids : ∀ tempid ∈ report.tempids, PlainText tempid.1) :
    Strict (report.text doubles) (∀ r ∈ report.txData, r.v.Legible) := by
  have hrows := strict_array fun r hr => strict_row doubles (hdata r hr)
  have hbasis (t : Int64) := strict_of_readsTo (readsTo_basis t)
  have hmembers : ∀ m ∈ [("db-before", basisText report.dbBefore, True),
      ("db-after", basisText report.dbAfter, True),
      ("tx-data", arrayText (report.txData.map (rowText doubles)),
        ∀ r ∈ report.txData, r.v.Legible),
      ("tempids", objectText (report.tempids.map fun tempid =>
        memberText tempid.1.toList (toString tempid.2.toInt).toList), True),
      ("schema_changed", (toString report.schemaChanged).toList, True)],
      PlainText m.1 ∧ Strict m.2.1 m.2.2 := by
    simp only [forall_mem_cons]
    exact ⟨⟨by decide, hbasis _⟩, ⟨by decide, hbasis _⟩, ⟨by decide, hrows⟩,
      ⟨by decide, strict_of_readsTo (readsTo_tempids htempids)⟩,
      ⟨by decide, strict_of_readsTo (readsTo_bool _)⟩, fun _ h => nomatch h⟩
  refine (strict_object hmembers).mono fun hconds => ?_
  exact hconds ("tx-data", arrayText (report.txData.map (rowText doubles)), _) (by simp)

end Control

namespace Call

def tempids (call : Call) (db : Db) : Tempids :=
  match call.prepared db with
  | some prepared => prepared.tempids
  | none => []

/-- The datoms of a call: the instant of its transaction, and what it asks for under its id. -/
def datoms (call : Call) (db : Db) : List LogRow :=
  ⟨call.backend.txId, Entids.dbTxInstant, .instant call.backend.now, call.backend.txId, true⟩ ::
    (call.pending db).map fun d => ⟨d.e, d.a, d.v, call.backend.txId, d.added⟩

/-- The text tells the datoms of the call and the names of its tempids. -/
def Acknowledged (call : Call) (db : Db) (fmt : FloatFormat) (text : List Char) : Prop :=
  Acknowledges fmt text (call.datoms db) ((call.tempids db).map Prod.fst)

/-- Tempids and keywords need no escape in JSON. -/
def PlainNames (call : Call) (db : Db) : Prop :=
  (∀ tempid ∈ call.tempids db, PlainText tempid.1) ∧
    ∀ d ∈ call.pending db, ∀ s, d.v = .keyword s → PlainText s

/-- And the texts have no control character that the writer leaves, and do not begin like a
keyword. -/
def SpelledOut (call : Call) (db : Db) : Prop :=
  call.PlainNames db ∧ ∀ d ∈ call.pending db, ∀ s, d.v = .text s →
    LegibleText s ∧ s.toList.head? ≠ some ':'

end Call

theorem report_of_transact {call : Call} {db db' : Db} {report : TxReport}
    (h : mentatTransact call db = .ok (report, db')) :
    report.tempids = call.tempids db ∧ report.txData = call.datoms db := by
  obtain ⟨entities, ids, prepared, b, mid, b', hdoc, hbegin, rfl, -⟩ := mentatTransact_begin h
  have hprepared := Call.prepared_eq hdoc hbegin
  have hbegun := beginTransaction_ensures _ _ _ hbegin
  constructor
  · rw [Call.tempids, hprepared]
    rfl
  · rw [Call.datoms, Call.pending, hprepared, ← hbegun.tx_eq, ← hbegun.instant_eq]
    rfl

theorem forall_datoms {call : Call} {db : Db} {P : TypedValue → Prop}
    (hinstant : ∀ micros, P (.instant micros)) :
    (∀ r ∈ call.datoms db, P r.v) ↔ ∀ d ∈ call.pending db, P d.v := by
  rw [Call.datoms, forall_mem_cons, forall_mem_map]
  exact and_iff_right (hinstant _)

section Acknowledged

variable (fmt : FloatFormat) (doubles : DoubleDisplay) {call : Call} {db db' : Db}
  {report : TxReport}

theorem uncoloned_iff {v : TypedValue} :
    v.Uncoloned ↔ ∀ s, v = .text s → s.toList.head? ≠ some ':' := by
  cases v with
  | text s | _ => simp [TypedValue.Uncoloned]

theorem acknowledged_iff_of_legible (h : mentatTransact call db = .ok (report, db'))
    (hvalues : ∀ d ∈ call.pending db, d.v.Exchanged) (hnames : call.PlainNames db)
    (htexts : ∀ d ∈ call.pending db, ∀ s, d.v = .text s → LegibleText s) :
    call.Acknowledged db fmt (report.text doubles) ↔
      ∀ d ∈ call.pending db, ∀ s, d.v = .text s → s.toList.head? ≠ some ':' := by
  obtain ⟨htempids, hdatoms⟩ := report_of_transact h
  have hspelled : ∀ r ∈ call.datoms db, r.v.Spelled := (forall_datoms fun _ => trivial).mpr
    fun d hd => spelled_of_legible (hvalues d hd) (hnames.2 d hd) (htexts d hd)
  have huncoloned := acknowledged_iff_uncoloned fmt doubles (hdatoms ▸ hspelled)
    (htempids ▸ hnames.1)
  rw [hdatoms, htempids, forall_datoms fun _ => trivial] at huncoloned
  exact huncoloned.trans (forall₂_congr fun d _ => uncoloned_iff)

theorem parse_of_acknowledged {text : List Char} (hack : call.Acknowledged db fmt text) :
    ∃ tree, parse text = some tree := by
  obtain ⟨fields, data, tempids, hparse, -⟩ := hack
  unfold parseTxReport fromStr at hparse
  cases htree : parse text with
  | some tree => exact ⟨tree, rfl⟩
  | none =>
    rw [htree] at hparse
    cases hparse

theorem legible_of_acknowledged (h : mentatTransact call db = .ok (report, db'))
    (hvalues : ∀ d ∈ call.pending db, d.v.Exchanged) (hnames : call.PlainNames db)
    (hack : call.Acknowledged db fmt (report.text doubles)) :
    ∀ d ∈ call.pending db, d.v.Legible := by
  obtain ⟨tree, htree⟩ := parse_of_acknowledged fmt hack
  obtain ⟨htempids, hdatoms⟩ := report_of_transact h
  have hdata : ∀ r ∈ call.datoms db,
      Strict (formatTypedValueForJson doubles r.v) r.v.Legible :=
    (forall_datoms (P := fun v => Strict (formatTypedValueForJson doubles v) v.Legible)
      fun _ => strict_value doubles trivial fun _ hs => nomatch hs).mpr
      fun d hd => strict_value doubles (hvalues d hd) (hnames.2 d hd)
  have hstrict := strict_report doubles (hdatoms ▸ hdata) (htempids ▸ hnames.1)
  rw [hdatoms] at hstrict
  exact (forall_datoms fun _ _ hs => nomatch hs).mp (hstrict.of_parse htree trivial)

end Acknowledged

def noDoubleDisplay : DoubleDisplay := ⟨fun _ => []⟩

/-- `[[:db/add name :db/doc doc]]`, the name being a tempid. -/
def describeNamed (name doc : String) : Call :=
  ⟨⟨1735689600000000, 1000000000001, [1000001], .heap, 8⟩, .vector [.vector
    [.keyword (.namespaced "db" "add"), .text name, .keyword (.namespaced "db" "doc"), .text doc]]⟩

def describeQuoted : Call := describeNamed "ada" "a \"quoted\" text"

end PgMentat

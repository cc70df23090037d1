import PgMentat.Mentatd.TransitJson
import PgMentat.Mentatd.MsgpackRoundTrip

namespace PgMentat

open List JsonRead

namespace ResponseValue

mutual

def tree : ResponseValue → Tree
  | .nil => .null
  | .string s => .string (escapeTilde s)
  | .boolean b => .bool b
  | .integer n =>
    if 2147483647 < n.toInt ∨ n.toInt < -2147483648 then .string ("~i" ++ toString n.toInt)
    else .number (toString n.toInt).toList
  -- floats are left out
  | .float _ => .null
  | .keyword k => .string ("~:" ++ k)
  | .instant micros => .string ("~m" ++ toString (micros / 1000).toInt)
  | .uuid u => .string ("~u" ++ u)
  | .list items => .array [.string "~#list", .array (treeItems items)]
  | .vector items => .array (treeItems items)
  | .map entries => .array (.string "^ " :: treeEntries entries)
  | .dbSnapshot dbId basisT =>
    .array [.string "~#db", .array [.string dbId, .number (toString basisT.toInt).toList]]

def treeItems : List ResponseValue → List Tree
  | [] => []
  | item :: items => item.tree :: treeItems items

def treeEntries : List (ResponseValue × ResponseValue) → List Tree
  | [] => []
  | (key, value) :: entries => key.tree :: value.tree :: treeEntries entries

end

mutual

def levels : ResponseValue → Nat
  | .list items => levelsItems items
  | .vector items => levelsItems items
  | .map entries => levelsEntries entries
  | .dbSnapshot _ _ => 2
  | _ => 0

def levelsItems : List ResponseValue → Nat
  | [] => 0
  | item :: items => max (1 + item.levels) (levelsItems items)

def levelsEntries : List (ResponseValue × ResponseValue) → Nat
  | [] => 0
  | (key, value) :: entries => max (1 + max key.levels value.levels) (levelsEntries entries)

end

def NoFloat : ResponseValue → Prop
  | .float _ => False
  | _ => True

/-- The name of a snapshot is read as a string, and not as a tag or a marker. -/
def UntaggedName (s : String) : Prop :=
  Untagged s ∧ s ≠ "^ " ∧ s ≠ "~#list" ∧ s ≠ "~#set"

def Unbroken : ResponseValue → Prop
  | .string s => LegibleText s
  | .keyword k => PlainText k
  | .uuid u => PlainText u
  | .dbSnapshot dbId _ => PlainText dbId ∧ UntaggedName dbId
  | _ => True

end ResponseValue

open ResponseValue (tree treeItems treeEntries levels levelsItems levelsEntries NoFloat Unbroken
  UntaggedName Every transitItems transitEntries)

variable {s : String}

theorem readsTo_taggedText (tag : String) (htag : PlainText tag) (h : PlainText s) :
    ReadsTo (taggedText tag s.toList) (.string (tag ++ s)) := by
  have hread := readsTo_plain (plainText_append.mpr ⟨htag, h⟩)
  rwa [String.toList_append] at hread

namespace ResponseValue

theorem treeItems_eq_map (items : List ResponseValue) : treeItems items = items.map tree := by
  induction items with
  | nil => rfl
  | cons item items ih => rw [treeItems, ih, map_cons]

end ResponseValue

section Written

variable (floats : FloatWriter)

theorem itemsToTransitJson_eq_map (items : List ResponseValue) :
    itemsToTransitJson floats items = items.map (valueToTransitJson floats) := by
  induction items with
  | nil => rfl
  | cons item items ih => rw [itemsToTransitJson, ih, map_cons]

theorem stringToTransitJson_eq (s : String) :
    stringToTransitJson s = quoted (escapeBasic (escapeTilde s).toList) := by
  have htilde : taggedText "~" (escapeBasic s.toList) = quoted (escapeBasic ("~" ++ s).toList) := by
    rw [escapeBasic_eq_flatMap, escapeBasic_eq_flatMap, String.toList_append, flatMap_append]
    rfl
  unfold stringToTransitJson
  split
  · rename_i rest hs
    have hescape : escapeTilde s = "~" ++ s := by simp only [escapeTilde, hs]
    rw [hescape, htilde]
  · rename_i rest hs
    have hescape : escapeTilde s = "~" ++ s := by simp only [escapeTilde, hs]
    rw [hescape, htilde]
  · rename_i hne hne'
    have hescape : escapeTilde s = s := by
      unfold escapeTilde
      split
      · rename_i hs
        exact absurd hs (hne _)
      · rename_i hs
        exact absurd hs (hne' _)
      · rfl
    rw [hescape]

theorem legibleText_escapeTilde {s : String} : LegibleText (escapeTilde s) ↔ LegibleText s := by
  have htilde : LegibleText ("~" ++ s) ↔ LegibleText s := by
    have hplain : LegibleText "~" := by
      intro c hc hcontrol
      rw [mem_singleton.mp hc] at hcontrol
      exact absurd hcontrol (by decide)
    simp only [LegibleText, String.toList_append, forall_mem_append]
    exact ⟨fun h => h.2, fun h => ⟨hplain, h⟩⟩
  unfold escapeTilde
  split
  · exact htilde
  · exact htilde
  · rfl

theorem readsTo_integer (n : Int64) :
    ReadsTo (integerToTransitJson n) (ResponseValue.integer n).tree := by
  unfold integerToTransitJson
  rw [tree]
  split
  · exact readsTo_taggedText _ (by decide) (plainText_toString _)
  · exact readsTo_int _

variable {v : ResponseValue}

theorem readsTo_atom (hatom : v.IsAtom) (hfloat : v.NoFloat) (h : v.Unbroken) :
    ReadsTo (valueToTransitJson floats v) v.tree := by
  cases v with
  | nil => exact readsTo_null
  | boolean b => exact readsTo_bool b
  | integer n => exact readsTo_integer n
  | float f => exact hfloat.elim
  | string s =>
    rw [valueToTransitJson, stringToTransitJson_eq]
    exact readsTo_escapeBasic (legibleText_escapeTilde.mpr h)
  | keyword k => exact readsTo_taggedText _ (by decide) h
  | instant micros => exact readsTo_taggedText _ (by decide) (plainText_toString _)
  | uuid u => exact readsTo_taggedText _ (by decide) h
  | dbSnapshot dbId basisT =>
    have hinner := readsTo_array (.cons (readsTo_plain h.1) (.cons (readsTo_int basisT.toInt) .nil))
    exact readsTo_array (.cons (readsTo_plain (s := "~#db") (by decide)) (.cons hinner .nil))
  | list items | vector items | map entries => exact hatom.elim

theorem readsTo_items {items : List ResponseValue}
    (h : ∀ item ∈ items, ReadsTo (valueToTransitJson floats item) item.tree) :
    Forall₂ ReadsTo (itemsToTransitJson floats items) (treeItems items) := by
  rw [itemsToTransitJson_eq_map, ResponseValue.treeItems_eq_map, List.forall₂_map_left_iff,
    List.forall₂_map_right_iff]
  exact List.forall₂_same.mpr h

theorem readsTo_entries {entries : List (ResponseValue × ResponseValue)}
    (h : ∀ entry ∈ entries, ReadsTo (valueToTransitJson floats entry.1) entry.1.tree ∧
      ReadsTo (valueToTransitJson floats entry.2) entry.2.tree) :
    Forall₂ ReadsTo (entriesToTransitJson floats entries)
      (treeEntries entries) := by
  induction entries with
  | nil => exact .nil
  | cons entry entries ih =>
    obtain ⟨⟨hkey, hvalue⟩, hentries⟩ := forall_mem_cons.mp h
    exact .cons hkey (.cons hvalue (ih hentries))

theorem readsTo_value {v : ResponseValue} (hfloat : v.Every NoFloat) (h : v.Every Unbroken) :
    ReadsTo (valueToTransitJson floats v) v.tree := by
  refine Every.inductMem (fun v hatom hfloat h => readsTo_atom floats hatom hfloat h)
    (fun items _ ih => ?_) (fun items _ ih => ?_) (fun entries _ ih => ?_) hfloat h
  · have hitems := readsTo_items floats fun item hitem => (ih item hitem).2
    exact readsTo_array (.cons (readsTo_plain (s := "~#list") (by decide))
      (.cons (readsTo_array hitems) .nil))
  · exact readsTo_array (readsTo_items floats fun item hitem => (ih item hitem).2)
  · exact readsTo_array (.cons (readsTo_plain (s := "^ ") (by decide))
      (readsTo_entries floats ih))

end Written

def IsMarker (s : String) : Prop := s = "^ " ∨ s = "~#list" ∨ s = "~#set"

theorem not_isMarker_of_tag {c : Char} {rest : List Char} (hs : s.toList = '~' :: c :: rest)
    (hc : c ≠ '#') : ¬ IsMarker s := by
  rintro (rfl | rfl | rfl)
  · cases hs
  · cases hs
    exact hc rfl
  · cases hs
    exact hc rfl

theorem not_isMarker_escapeTilde (s : String) : ¬ IsMarker (escapeTilde s) := by
  unfold escapeTilde
  split
  · rename_i rest hs
    have hlist : ("~" ++ s).toList = '~' :: '~' :: rest := by
      rw [String.toList_append, hs]
      rfl
    exact not_isMarker_of_tag hlist (by decide)
  · rename_i rest hs
    have hlist : ("~" ++ s).toList = '~' :: '^' :: rest := by
      rw [String.toList_append, hs]
      rfl
    exact not_isMarker_of_tag hlist (by decide)
  · rename_i htilde hcaret
    rintro (rfl | rfl | rfl)
    · exact hcaret _ rfl
    · exact htilde _ rfl
    · exact htilde _ rfl

section Decoded

variable (fmt : FloatFormat)

variable {depth : Nat} {items : List JsonValue} {v : ResponseValue}

theorem jsonToTransit_scalar {j : Json} (h : depth ≤ maxNestingDepth) :
    jsonToTransitBounded (.scalar j) depth = .ok (scalarToTransit j) := by
  rw [jsonToTransitBounded, if_neg (Nat.not_lt.mpr h)]

theorem decode_string {s : String} (h : depth ≤ maxNestingDepth) :
    jsonToTransitBounded (.string s) depth = .ok (decodeTransitTaggedString s) :=
  jsonToTransit_scalar h

theorem jsonToTransit_array (h : depth ≤ maxNestingDepth) :
    jsonToTransitBounded (.array items) depth = decodeTransitArrayBounded items (depth + 1) := by
  rw [jsonToTransitBounded, if_neg (Nat.not_lt.mpr h)]

/-- A value that is not taken for the head of a map or of a tagged sequence. -/
def JsonValue.Unmarked (v : JsonValue) : Prop := ∀ m, v.marker = some m → ¬ IsMarker m

theorem decodeArray_unmarked {first : JsonValue} {rest : List JsonValue} (h : first.Unmarked) :
    decodeTransitArrayBounded (first :: rest) depth =
      (itemsToTransit (first :: rest) depth).map .array := by
  have htagged : ¬ (first.marker = some "~#list" ∨ first.marker = some "~#set") := by
    rintro (hm | hm)
    · exact h _ hm (.inr (.inl rfl))
    · exact h _ hm (.inr (.inr rfl))
  rw [decodeTransitArrayBounded.eq_def]
  dsimp only
  rw [if_neg (fun hm => h _ hm (.inl rfl)), if_neg htagged, itemsToTransit]
  cases jsonToTransitBounded first depth with
  | error e => rfl
  | ok value =>
    cases itemsToTransit rest depth with
    | error e | ok values => rfl

theorem decodeArray_of_items {values : List TransitValue}
    (hhead : ∀ first ∈ items.head?, first.Unmarked) (h : itemsToTransit items depth = .ok values) :
    decodeTransitArrayBounded items depth = .ok (.array values) := by
  cases items with
  | nil =>
    cases h
    rfl
  | cons first rest =>
    rw [decodeArray_unmarked (hhead first rfl), h]
    rfl

theorem unmarked_tree (v : ResponseValue) : (serdeValue fmt v.tree).Unmarked := by
  intro m hm
  cases v with
  | nil | boolean b | float f => cases hm
  | string s =>
    cases hm
    exact not_isMarker_escapeTilde s
  | keyword k =>
    cases hm
    exact not_isMarker_of_tag (c := ':') String.toList_append (by decide)
  | uuid u =>
    cases hm
    exact not_isMarker_of_tag (c := 'u') String.toList_append (by decide)
  | instant micros =>
    cases hm
    exact not_isMarker_of_tag (c := 'm') String.toList_append (by decide)
  | integer n =>
    rw [tree] at hm
    split at hm
    · cases hm
      exact not_isMarker_of_tag (c := 'i') String.toList_append (by decide)
    · rw [serdeValue, serdeNumber_toString] at hm
      cases hm
  | list items | vector items | map entries | dbSnapshot dbId basisT => cases hm

theorem decode_taggedList (items rest : List JsonValue) (depth : Nat) :
    decodeTransitArrayBounded (.string "~#list" :: .array items :: rest) depth =
      (itemsToTransit items depth).map .array := by
  rw [decodeTransitArrayBounded.eq_def]
  dsimp only
  rw [if_neg (by decide), if_pos (.inl rfl)]

theorem decode_cmap (rest : List JsonValue) (depth : Nat) :
    decodeTransitArrayBounded (.string "^ " :: rest) depth =
      (cmapToTransit rest depth).map .map := by
  rw [decodeTransitArrayBounded.eq_def]
  dsimp only
  rw [if_pos (show (JsonValue.string "^ ").marker = some "^ " from rfl)]

theorem itemsToTransit_treeItems {items : List ResponseValue} (depth : Nat)
    (h : ∀ item ∈ items,
      jsonToTransitBounded (serdeValue fmt item.tree) depth = .ok item.transit) :
    itemsToTransit (serdeItems fmt (treeItems items)) depth =
      .ok (transitItems items) := by
  induction items with
  | nil => rfl
  | cons item items ih =>
    obtain ⟨hitem, hitems⟩ := forall_mem_cons.mp h
    rw [treeItems, serdeItems, itemsToTransit, hitem, ih hitems]
    rfl

theorem cmapToTransit_treeEntries {entries : List (ResponseValue × ResponseValue)} (depth : Nat)
    (h : ∀ entry ∈ entries,
      jsonToTransitBounded (serdeValue fmt entry.1.tree) depth = .ok entry.1.transit ∧
        jsonToTransitBounded (serdeValue fmt entry.2.tree) depth = .ok entry.2.transit) :
    cmapToTransit (serdeItems fmt (treeEntries entries)) depth =
      .ok (transitEntries entries) := by
  induction entries with
  | nil => rfl
  | cons entry entries ih =>
    obtain ⟨⟨hkey, hvalue⟩, hentries⟩ := forall_mem_cons.mp h
    rw [treeEntries, serdeItems, serdeItems, cmapToTransit, hkey, hvalue,
      ih hentries]
    rfl

theorem levels_lt_of_mem {items : List ResponseValue} {item : ResponseValue} (h : item ∈ items) :
    item.levels < levelsItems items := by
  induction items with
  | nil => exact nomatch h
  | cons first rest ih =>
    rw [levelsItems]
    rcases mem_cons.mp h with rfl | h
    · omega
    · have := ih h
      omega

theorem levels_lt_of_mem_entries {entries : List (ResponseValue × ResponseValue)}
    {entry : ResponseValue × ResponseValue} (h : entry ∈ entries) :
    entry.1.levels < levelsEntries entries ∧
      entry.2.levels < levelsEntries entries := by
  induction entries with
  | nil => exact nomatch h
  | cons first rest ih =>
    rw [levelsEntries]
    rcases mem_cons.mp h with rfl | h
    · omega
    · have := ih h
      omega

theorem decode_snapshot {dbId : String} (basisT : Int64) (hname : UntaggedName dbId)
    (hdepth : depth + 2 ≤ maxNestingDepth) :
    jsonToTransitBounded (serdeValue fmt (ResponseValue.dbSnapshot dbId basisT).tree) depth =
      .ok (ResponseValue.dbSnapshot dbId basisT).transit := by
  obtain ⟨huntagged, hcaret, hlist, hset⟩ := hname
  have hunmarked : (JsonValue.string dbId).Unmarked := by
    intro m hm
    cases hm
    rintro (h | h | h)
    · exact hcaret h
    · exact hlist h
    · exact hset h
  have hdb : (JsonValue.string "~#db").Unmarked := by
    intro m hm
    cases hm
    simp [IsMarker]
  have hname : jsonToTransitBounded (.string dbId) (depth + 2) = .ok (.string dbId) := by
    rw [JsonValue.string, jsonToTransit_scalar hdepth, scalarToTransit,
      decode_eq_string_iff.mpr huntagged]
  have hbasis : jsonToTransitBounded (.scalar (.integer basisT)) (depth + 2) =
      .ok (.integer basisT) := jsonToTransit_scalar hdepth
  have hinner : decodeTransitArrayBounded [.string dbId, .scalar (.integer basisT)] (depth + 2) =
      .ok (.array [.string dbId, .integer basisT]) := by
    rw [decodeArray_unmarked hunmarked, itemsToTransit, itemsToTransit, itemsToTransit, hname,
      hbasis]
    rfl
  have htag : jsonToTransitBounded (.string "~#db") (depth + 1) = .ok (.string "~#db") :=
    jsonToTransit_scalar (by omega)
  rw [tree, serdeValue, jsonToTransit_array (by omega), serdeItems, serdeItems,
    serdeItems, serdeValue, serdeValue, serdeItems, serdeItems, serdeItems, serdeValue, serdeValue,
    serdeNumber_toString, decodeArray_unmarked hdb, itemsToTransit, itemsToTransit, itemsToTransit,
    htag, jsonToTransit_array (by omega), hinner]
  rfl

theorem decode_atom (hatom : v.IsAtom) (hfloat : v.NoFloat) (h : v.Unbroken)
    (hdepth : depth + v.levels ≤ maxNestingDepth) :
    jsonToTransitBounded (serdeValue fmt v.tree) depth = .ok v.transit := by
  have hle : depth ≤ maxNestingDepth := by omega
  cases v with
  | nil | boolean b => exact jsonToTransit_scalar hle
  | integer n =>
    rw [tree]
    split
    · rw [serdeValue, JsonValue.string, jsonToTransit_scalar hle, scalarToTransit, decode_integer]
      rfl
    · rw [serdeValue, jsonToTransit_scalar hle, serdeNumber_toString]
      rfl
  | float f => exact hfloat.elim
  | string s =>
    rw [tree, serdeValue, JsonValue.string, jsonToTransit_scalar hle,
      scalarToTransit, decode_escapeTilde]
    rfl
  | keyword k =>
    rw [tree, serdeValue, JsonValue.string, jsonToTransit_scalar hle,
      scalarToTransit, decode_keyword]
    rfl
  | instant micros =>
    rw [tree, serdeValue, JsonValue.string, jsonToTransit_scalar hle,
      scalarToTransit, decode_instant]
    rfl
  | uuid u =>
    rw [tree, serdeValue, JsonValue.string, jsonToTransit_scalar hle,
      scalarToTransit, decode_uuid]
    rfl
  | dbSnapshot dbId basisT => exact decode_snapshot fmt basisT h.2 hdepth
  | list items | vector items | map entries => exact hatom.elim

theorem decode_value (hfloat : v.Every NoFloat) (h : v.Every Unbroken)
    (hdepth : depth + v.levels ≤ maxNestingDepth) :
    jsonToTransitBounded (serdeValue fmt v.tree) depth = .ok v.transit := by
  suffices h : ∀ depth, depth + v.levels ≤ maxNestingDepth →
      jsonToTransitBounded (serdeValue fmt v.tree) depth = .ok v.transit from h depth hdepth
  refine Every.inductMem (fun v hatom hfloat h depth hdepth => ?_)
    (fun items _ ih depth hdepth => ?_) (fun items _ ih depth hdepth => ?_)
    (fun entries _ ih depth hdepth => ?_) hfloat h
  · exact decode_atom fmt hatom hfloat h hdepth
  · rw [levels] at hdepth
    have hitems := itemsToTransit_treeItems fmt (depth + 1) fun item hitem =>
      have hlt := levels_lt_of_mem hitem
      (ih item hitem).2 _ (by omega)
    rw [tree, serdeValue, jsonToTransit_array (by omega), serdeItems, serdeItems,
      serdeItems, serdeValue, serdeValue, decode_taggedList, hitems]
    rfl
  · rw [levels] at hdepth
    have hitems := itemsToTransit_treeItems fmt (depth + 1) fun item hitem =>
      have hlt := levels_lt_of_mem hitem
      (ih item hitem).2 _ (by omega)
    rw [tree, serdeValue, jsonToTransit_array (by omega)]
    refine decodeArray_of_items (fun first hfirst => ?_) hitems
    cases items with
    | nil => cases hfirst
    | cons item items =>
      cases hfirst
      exact unmarked_tree fmt item
  · rw [levels] at hdepth
    have hentries := cmapToTransit_treeEntries fmt (depth + 1) fun entry hentry =>
      have hlt := levels_lt_of_mem_entries hentry
      ⟨(ih entry hentry).1 _ (by omega), (ih entry hentry).2 _ (by omega)⟩
    rw [tree, serdeValue, jsonToTransit_array (by omega), serdeItems, serdeValue,
      decode_cmap, hentries]
    rfl

end Decoded

/-- The category without its colon. -/
def AnomalyCategory.name (category : AnomalyCategory) : String :=
  String.ofList (category.asKeyword.toList.drop 1)

namespace Anomaly

def transit (anomaly : Anomaly) : TransitValue :=
  .map ([(.keyword "cognitect.anomalies/category", .keyword anomaly.category.name),
    (.keyword "cognitect.anomalies/message", .string anomaly.message)] ++
    (anomaly.dbError.map fun e => (TransitValue.keyword "db/error", TransitValue.keyword e)).toList)

/-- The message is no tag, and nothing in it or in the error is left unescaped. -/
def Unbroken (anomaly : Anomaly) : Prop :=
  (LegibleText anomaly.message ∧ Untagged anomaly.message) ∧
  ∀ e ∈ anomaly.dbError, PlainText e

end Anomaly

namespace MentatdResponse

def transit : MentatdResponse → TransitValue
  | success result => .map [(.keyword "result", result.transit)]
  | error anomaly => .map [(.keyword "error", anomaly.transit)]

def Unbroken : MentatdResponse → Prop
  | success result => result.Every ResponseValue.Unbroken
  | error anomaly => anomaly.Unbroken

def Readable : MentatdResponse → Prop
  | success result => result.Every NoFloat ∧ result.levels < maxNestingDepth
  | error _ => True

/-- The body is JSON and is decoded as what it is meant to say. -/
def ReadBack (fmt : FloatFormat) (floats : FloatWriter) (response : MentatdResponse) : Prop :=
  ∃ json, fromStr fmt (serializeTransitJson floats response) = some json ∧
    jsonToTransitBounded json 0 = .ok response.transit

end MentatdResponse

section Responses

variable (fmt : FloatFormat) (floats : FloatWriter)

theorem readBack_of_readsTo {response : MentatdResponse} {tree : Tree}
    (hread : ReadsTo (serializeTransitJson floats response) tree)
    (hdecode : jsonToTransitBounded (serdeValue fmt tree) 0 = .ok response.transit) :
    response.ReadBack fmt floats := by
  refine ⟨serdeValue fmt tree, ?_, hdecode⟩
  rw [fromStr, hread.parse]
  rfl

theorem readBack_success {result : ResponseValue} (hfloat : result.Every NoFloat)
    (hlevels : result.levels < maxNestingDepth) (h : result.Every Unbroken) :
    (MentatdResponse.success result).ReadBack fmt floats := by
  have hread := readsTo_array (.cons (readsTo_plain (s := "^ ") (by decide))
    (.cons (readsTo_taggedText "~:" (s := "result") (by decide) (by decide))
    (.cons (readsTo_value floats hfloat h) .nil)))
  refine readBack_of_readsTo fmt floats hread ?_
  have hkey : jsonToTransitBounded (.string ("~:" ++ "result")) 1 = .ok (.keyword "result") := by
    rw [decode_string (by decide), decode_keyword]
  have hvalue : jsonToTransitBounded (serdeValue fmt result.tree) 1 = .ok result.transit :=
    decode_value fmt hfloat h (by omega)
  rw [serdeValue, jsonToTransit_array (by decide), serdeItems, serdeItems, serdeItems, serdeItems,
    serdeValue, serdeValue, decode_cmap, cmapToTransit, hkey, hvalue]
  rfl

theorem plainText_category (category : AnomalyCategory) : PlainText category.name := by
  cases category <;> decide

theorem readsTo_category (category : AnomalyCategory) :
    ReadsTo (taggedText "~:" (category.asKeyword.toList.drop 1))
      (.string ("~:" ++ category.name)) := by
  have hread := readsTo_taggedText "~:" (by decide) (plainText_category category)
  rwa [AnomalyCategory.name, String.toList_ofList] at hread

theorem readBack_error {anomaly : Anomaly} (h : anomaly.Unbroken) :
    (MentatdResponse.error anomaly).ReadBack fmt floats := by
  obtain ⟨category, message, dbError⟩ := anomaly
  obtain ⟨⟨hmessage, huntagged⟩, herror⟩ := h
  have hdecode := decode_eq_string_iff.mpr huntagged
  have hmarker := readsTo_plain (s := "^ ") (by decide)
  have hkey := readsTo_taggedText "~:" (s := "error") (by decide) (by decide)
  have hcategoryKey := readsTo_taggedText "~:" (s := "cognitect.anomalies/category")
    (by decide) (by decide)
  have hmessageKey := readsTo_taggedText "~:" (s := "cognitect.anomalies/message")
    (by decide) (by decide)
  have hcategory := readsTo_category category
  have hmessage := readsTo_escapeBasic hmessage
  have hinner : ∀ s, jsonToTransitBounded (.string s) 2 = .ok (decodeTransitTaggedString s) :=
    fun s => decode_string (by decide)
  have houter : jsonToTransitBounded (.string ("~:" ++ "error")) 1 = .ok (.keyword "error") := by
    rw [decode_string (by decide), decode_keyword]
  cases dbError with
  | none =>
    have hread := readsTo_array (.cons hmarker (.cons hkey (.cons (readsTo_array (.cons hmarker
      (.cons hcategoryKey (.cons hcategory (.cons hmessageKey (.cons hmessage .nil)))))) .nil)))
    refine readBack_of_readsTo fmt floats hread ?_
    simp only [serdeValue, serdeItems, jsonToTransit_array (Nat.zero_le _), decode_cmap,
      cmapToTransit, houter, jsonToTransit_array (show 1 ≤ maxNestingDepth by decide), hinner,
      decode_keyword, hdecode]
    rfl
  | some e =>
    have herrorKey := readsTo_taggedText "~:" (s := "db/error") (by decide) (by decide)
    have herror := readsTo_taggedText "~:" (by decide) (herror e rfl)
    have hread := readsTo_array (.cons hmarker (.cons hkey (.cons (readsTo_array (.cons hmarker
      (.cons hcategoryKey (.cons hcategory (.cons hmessageKey (.cons hmessage
      (.cons herrorKey (.cons herror .nil)))))))) .nil)))
    refine readBack_of_readsTo fmt floats hread ?_
    simp only [serdeValue, serdeItems, jsonToTransit_array (Nat.zero_le _), decode_cmap,
      cmapToTransit, houter, jsonToTransit_array (show 1 ≤ maxNestingDepth by decide), hinner,
      decode_keyword, hdecode]
    rfl

end Responses

end PgMentat

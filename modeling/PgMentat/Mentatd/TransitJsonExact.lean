import PgMentat.Mentatd.TransitJsonRoundTrip

namespace PgMentat

open List JsonRead

open Unification (bind_eq_ok map_eq_ok)

/-- A text, the value it is meant to be decoded as, and what holds if it is. -/
structure Part where
  text : List Char
  value : TransitValue
  cond : Prop

section Parts

variable (fmt : FloatFormat)

def Decodes (value : TransitValue) (tree : Tree) : Prop :=
  ∃ depth, jsonToTransitBounded (serdeValue fmt tree) depth = .ok value

def Part.slot (p : Part) : Slot := ⟨p.text, Decodes fmt p.value, p.cond⟩

def Part.Exact (p : Part) : Prop := (p.slot fmt).Exact

variable {fmt}

variable {depth : Nat} {s : String} {cond : Prop} {parts : List Part} {trees : List Tree}
  {items : List JsonValue}

variable {value : TransitValue} {tree : Tree} {entries : List (Part × Part)}

theorem depth_le_of_ok {v : JsonValue} (h : jsonToTransitBounded v depth = .ok value) :
    depth ≤ maxNestingDepth := by
  by_contra hlt
  rw [jsonToTransitBounded.eq_def] at h
  dsimp only at h
  rw [if_pos (Nat.not_le.mp hlt)] at h
  cases h

theorem decodes_string (h : Decodes fmt value (.string s)) :
    decodeTransitTaggedString s = value := by
  obtain ⟨depth, h⟩ := h
  rw [serdeValue, decode_string (depth_le_of_ok h)] at h
  exact Except.ok.inj h

theorem decodes_array {items : List Tree} (h : Decodes fmt value (.array items)) :
    ∃ depth, decodeTransitArrayBounded (serdeItems fmt items) depth = .ok value := by
  obtain ⟨depth, h⟩ := h
  have hle := depth_le_of_ok h
  rw [serdeValue, jsonToTransit_array hle] at h
  exact ⟨depth + 1, h⟩

theorem Part.Exact.congr {p q : Part} (h : p.Exact fmt) (htext : q.text = p.text)
    (hvalue : q.value = p.value) (hcond : p.cond → q.cond) : q.Exact fmt := by
  obtain ⟨text, value, cond⟩ := q
  cases htext
  cases hvalue
  refine ⟨h.start, fun n rest tree out hends hread hfits => ?_⟩
  obtain ⟨hp, hout⟩ := h.read n rest tree out hends hread hfits
  exact ⟨hcond hp, hout⟩

theorem itemsToTransit_fits
    (h : itemsToTransit (serdeItems fmt trees) depth = .ok (parts.map Part.value)) :
    Fit (parts.map (Part.slot fmt)) trees := by
  induction parts generalizing trees with
  | nil => exact fun _ hp => nomatch hp
  | cons part parts ih =>
    cases trees with
    | nil => cases h
    | cons tree trees =>
      rw [serdeItems, itemsToTransit] at h
      obtain ⟨value, hvalue, h⟩ := bind_eq_ok h
      obtain ⟨values, hvalues, h⟩ := bind_eq_ok h
      have heq := List.cons.inj (Except.ok.inj h)
      rw [heq.1] at hvalue
      rw [heq.2] at hvalues
      exact forall_mem_cons.mpr ⟨⟨depth, hvalue⟩, ih hvalues⟩

def flatParts (entries : List (Part × Part)) : List Part :=
  entries.flatMap fun entry => [entry.1, entry.2]

theorem mem_flatParts {entry : Part × Part} (h : entry ∈ entries) : entry.2 ∈ flatParts entries :=
  mem_flatMap.mpr ⟨entry, h, mem_cons_of_mem _ mem_cons_self⟩

theorem cmapToTransit_fits
    (h : cmapToTransit (serdeItems fmt trees) depth =
      .ok (entries.map fun entry => (entry.1.value, entry.2.value))) :
    Fit ((flatParts entries).map (Part.slot fmt)) trees := by
  induction entries generalizing trees with
  | nil => exact fun _ hp => nomatch hp
  | cons entry entries ih =>
    match trees with
    | [] => cases h
    | [tree] => cases h
    | key :: value :: trees =>
      rw [serdeItems, serdeItems, cmapToTransit] at h
      obtain ⟨key', hkey, h⟩ := bind_eq_ok h
      obtain ⟨value', hvalue, h⟩ := bind_eq_ok h
      obtain ⟨entries', hentries, h⟩ := bind_eq_ok h
      obtain ⟨hhead, htail⟩ := List.cons.inj (Except.ok.inj h)
      obtain ⟨rfl, rfl⟩ := Prod.mk.inj hhead
      rw [htail] at hentries
      exact forall_mem_cons.mpr ⟨⟨depth, hkey⟩,
        forall_mem_cons.mpr ⟨⟨depth, hvalue⟩, ih hentries⟩⟩

theorem exact_marked {m : String} (hm : PlainText m) {slots : List Slot}
    (hslots : ∀ s ∈ slots, s.Exact) {fits : Tree → Prop}
    (hfits : ∀ items, fits (.array (.string m :: items)) → Fit slots items)
    (hcond : (∀ s ∈ slots, s.cond) → cond) :
    Slot.Exact ⟨arrayText (quoted m.toList :: slots.map Slot.text), fits, cond⟩ := by
  have harray : Slot.Exact ⟨arrayText
      ((⟨quoted m.toList, fun _ => True, True⟩ :: slots).map Slot.text), fits, cond⟩ := by
    refine exact_array (forall_mem_cons.mpr ⟨exact_of_readsTo (readsTo_plain hm) fun _ => trivial,
      hslots⟩) ?_ fun hconds => hcond (forall_mem_cons.mp hconds).2
    intro items hfirst hfit
    obtain ⟨item, hitem, n, rest, out, hends, hread⟩ := hfirst _ rfl
    obtain ⟨items, rfl⟩ := List.head?_eq_some_iff.mp hitem
    rw [((readsTo_plain hm).eq_of_read hends hread).1] at hfit ⊢
    exact forall_mem_cons.mpr ⟨trivial, hfits items hfit⟩
  exact harray

theorem exact_vector (h : ∀ p ∈ parts, p.Exact fmt)
    (hhead : ∀ p ∈ parts.head?, ∀ n rest tree out, EndsNumber rest →
      readValue n (p.text ++ rest) = some (tree, out) → (serdeValue fmt tree).Unmarked) :
    (Part.mk (arrayText (parts.map Part.text)) (.array (parts.map Part.value))
      (∀ p ∈ parts, p.cond)).Exact fmt := by
  have harray : Slot.Exact ⟨arrayText ((parts.map (Part.slot fmt)).map Slot.text),
      Decodes fmt (.array (parts.map Part.value)), ∀ p ∈ parts, p.cond⟩ := by
    refine exact_array (forall_mem_map.mpr h) ?_ forall_mem_map.mp
    intro items hfirst hfits
    obtain ⟨depth, hdecode⟩ := decodes_array hfits
    cases parts with
    | nil => exact fun _ hp => nomatch hp
    | cons part parts =>
      obtain ⟨item, hitem, n, rest, out, hends, hread⟩ := hfirst (part.slot fmt) rfl
      obtain ⟨items, rfl⟩ := List.head?_eq_some_iff.mp hitem
      have hunmarked := hhead part rfl n rest item out hends hread
      rw [serdeItems, decodeArray_unmarked hunmarked] at hdecode
      obtain ⟨values, hvalues, heq⟩ := map_eq_ok hdecode
      cases heq
      have hfit : Fit ((part :: parts).map (Part.slot fmt)) (item :: items) :=
        itemsToTransit_fits hvalues
      exact hfit
  rwa [map_map] at harray

theorem exact_cmap (h : ∀ p ∈ flatParts entries, p.Exact fmt) :
    (Part.mk (arrayText (quoted "^ ".toList :: (flatParts entries).map Part.text))
      (.map (entries.map fun entry => (entry.1.value, entry.2.value)))
      (∀ p ∈ flatParts entries, p.cond)).Exact fmt := by
  have harray : Slot.Exact ⟨arrayText (quoted "^ ".toList ::
      ((flatParts entries).map (Part.slot fmt)).map Slot.text),
      Decodes fmt (.map (entries.map fun entry => (entry.1.value, entry.2.value))),
      ∀ p ∈ flatParts entries, p.cond⟩ := by
    refine exact_marked (by decide) (forall_mem_map.mpr h) ?_ forall_mem_map.mp
    intro items hfits
    obtain ⟨depth, hdecode⟩ := decodes_array hfits
    rw [serdeItems, serdeValue, decode_cmap] at hdecode
    obtain ⟨values, hvalues, heq⟩ := map_eq_ok hdecode
    cases heq
    exact cmapToTransit_fits hvalues
  rwa [map_map] at harray

theorem decode_taggedList_inv {values : List TransitValue}
    (h : decodeTransitArrayBounded (.string "~#list" :: items) depth = .ok (.array values))
    (hne : values ≠ []) :
    ∃ inner rest, items = .array inner :: rest ∧ itemsToTransit inner depth = .ok values := by
  rw [decodeTransitArrayBounded.eq_def] at h
  dsimp only at h
  rw [if_neg (by decide), if_pos (.inl rfl)] at h
  split at h
  · rename_i inner rest
    obtain ⟨values', hvalues, heq⟩ := map_eq_ok h
    cases heq
    exact ⟨inner, rest, rfl, hvalues⟩
  · cases h
    exact absurd rfl hne

theorem eq_array_of_serdeValue (h : serdeValue fmt tree = .array items) :
    ∃ trees, tree = .array trees ∧ items = serdeItems fmt trees := by
  cases tree with
  | array trees =>
    cases h
    exact ⟨trees, rfl, rfl⟩
  | null | bool b | number literal | string s | object members => cases h

theorem exact_list (h : ∀ p ∈ parts, p.Exact fmt) :
    (Part.mk (arrayText [quoted "~#list".toList, arrayText (parts.map Part.text)])
      (.array (parts.map Part.value)) (∀ p ∈ parts, p.cond)).Exact fmt := by
  have hmarker : PlainText "~#list" := by decide
  by_cases hne : parts = []
  · subst hne
    -- nothing is left open in this text
    have hread := readsTo_array (.cons (readsTo_plain hmarker) (.cons (readsTo_array .nil) .nil))
    exact exact_of_readsTo hread fun _ p hp => nomatch hp
  have hinner : Slot.Exact ⟨arrayText ((parts.map (Part.slot fmt)).map Slot.text),
      fun tree => ∃ items, tree = .array items ∧
        Fit (parts.map (Part.slot fmt)) items, ∀ p ∈ parts, p.cond⟩ := by
    refine exact_array (forall_mem_map.mpr h) ?_ forall_mem_map.mp
    rintro items - ⟨items', heq, hfit⟩
    cases heq
    exact hfit
  rw [map_map] at hinner
  refine exact_marked hmarker (forall_mem_singleton.mpr hinner) ?_
    fun hconds => hconds _ mem_cons_self
  intro items hfits
  obtain ⟨depth, hdecode⟩ := decodes_array hfits
  rw [serdeItems, serdeValue] at hdecode
  obtain ⟨inner, rest, heq, hvalues⟩ := decode_taggedList_inv hdecode (by simpa using hne)
  cases items with
  | nil => cases heq
  | cons item items =>
    obtain ⟨hitem, -⟩ := List.cons.inj heq
    obtain ⟨trees, rfl, rfl⟩ := eq_array_of_serdeValue hitem
    exact forall_mem_cons.mpr ⟨⟨trees, rfl, itemsToTransit_fits hvalues⟩, by simp⟩

end Parts

section Strings

variable {fmt : FloatFormat}

theorem getD_ne_keyword {α : Type} {o : Option α} {f : α → TransitValue} {s k : String}
    (hf : ∀ a, f a ≠ .keyword k) : (o.map f).getD (.string s) ≠ .keyword k := by
  cases o with
  | none =>
    intro h
    cases h
  | some a => exact hf a

theorem eq_of_decode_keyword {s k : String} (h : decodeTransitTaggedString s = .keyword k) :
    s = "~:" ++ k := by
  unfold decodeTransitTaggedString at h
  split at h
  · rename_i rest hs
    cases h
    apply String.toList_inj.mp
    rw [hs, String.toList_append]
    simp
  · cases h
  · exact absurd h (getD_ne_keyword fun _ h => by cases h)
  · exact absurd h (getD_ne_keyword fun _ h => by cases h)
  · exact absurd h (getD_ne_keyword fun _ h => by cases h)
  · split at h
    · cases h
    · split at h
      · cases h
      · split at h
        · cases h
        · cases h
  · cases h
  · cases h
  · cases h

theorem read_taggedText {tag : String} (htag : PlainText tag) {raw rest out : List Char}
    {tree : Tree} {n : Nat} (h : readValue n (taggedText tag raw ++ rest) = some (tree, out)) :
    ∃ cs, tree = .string (tag ++ String.ofList cs) ∧
      readString (raw ++ '"' :: rest) = some (cs, out) := by
  cases n with
  | zero => cases h
  | succ n =>
    rw [taggedText, readValue_quoted, append_assoc] at h
    obtain ⟨⟨cs, out'⟩, hread, heq⟩ := Option.map_eq_some_iff.mp h
    cases heq
    obtain ⟨cs', rfl, hraw⟩ := readString_plain_append htag hread
    exact ⟨cs', by rw [String.ofList_append, String.ofList_toList], hraw⟩

theorem exact_keyword (k : String) :
    (Part.mk (taggedText "~:" k.toList) (.keyword k) (PlainText k)).Exact fmt := by
  refine ⟨⟨_, _, rfl, rfl, by decide⟩, fun n rest tree out hends hread hfits => ?_⟩
  obtain ⟨cs, rfl, hcs⟩ := read_taggedText (by decide) hread
  have hs := eq_of_decode_keyword (decodes_string hfits)
  have heq : cs = k.toList := by
    have := congrArg String.toList hs
    simpa [String.toList_append] using this
  rw [heq] at hcs
  exact readString_raw_self hcs

theorem plain_of_hexValue {c : Char} {n : Nat} (h : TextCodec.hexValue c.toLower = some n) :
    Plain c := by
  have hsome : (TextCodec.hexValue c.toLower).isSome = true := by rw [h]; rfl
  refine ⟨?_, ?_, ?_⟩
  · rintro rfl
    exact absurd hsome (by decide)
  · rintro rfl
    exact absurd hsome (by decide)
  · by_contra hcontrol
    have hnone : ∀ n < 32, TextCodec.hexValue (Char.ofNat n).toLower = none := by decide
    have hc := hnone c.toNat (Nat.not_le.mp hcontrol)
    rw [Char.ofNat_toNat, h] at hc
    cases hc

theorem plain_of_hexDecode : ∀ {cs : List Char} {bs : List UInt8},
    TextCodec.hexDecode (Uuid.hexLower cs) = some bs → ∀ c ∈ cs, Plain c
  | [], _, _ => fun _ hc => nomatch hc
  | [_], _, h => by cases h
  | c :: d :: cs, _, h => by
    simp only [Uuid.hexLower, map_cons, TextCodec.hexDecode] at h
    split at h
    · rename_i m n bs hc hd hcs
      exact forall_mem_cons.mpr ⟨plain_of_hexValue hc,
        forall_mem_cons.mpr ⟨plain_of_hexValue hd, plain_of_hexDecode hcs⟩⟩
    · cases h

variable {cs : List Char} {u : Uuid}

theorem plain_of_parseSimple (h : Uuid.parseSimple cs = some u) : ∀ c ∈ cs, Plain c := by
  unfold Uuid.parseSimple at h
  split at h
  · cases h
  · rename_i bs hbs
    exact plain_of_hexDecode hbs

theorem plain_drop {k m : Nat} (hhyphen : cs[k + m]? = some '-')
    (hgroup : ∀ c ∈ (cs.drop k).take m, Plain c) (hrest : ∀ c ∈ cs.drop (k + m + 1), Plain c) :
    ∀ c ∈ cs.drop k, Plain c := by
  obtain ⟨hlt, hget⟩ := List.getElem?_eq_some_iff.mp hhyphen
  rw [← take_append_drop m (cs.drop k), drop_drop, drop_eq_getElem_cons hlt, hget]
  exact forall_mem_append.mpr ⟨hgroup, forall_mem_cons.mpr ⟨by decide, hrest⟩⟩

theorem plain_of_parseHyphenated (h : Uuid.parseHyphenated cs = some u) : ∀ c ∈ cs, Plain c := by
  unfold Uuid.parseHyphenated at h
  split at h
  · rename_i hhyphens
    have hparts := plain_of_parseSimple h
    simp only [forall_mem_append] at hparts
    obtain ⟨⟨⟨⟨h1, h2⟩, h3⟩, h4⟩, h5⟩ := hparts
    simp only [all_cons, all_nil, Bool.and_true, Bool.and_eq_true,
      decide_eq_true_eq] at hhyphens
    obtain ⟨h8, h13, h18, h23⟩ := hhyphens
    exact plain_drop (k := 0) (m := 8) h8 h1 (plain_drop (m := 4) h13 h2
      (plain_drop (m := 4) h18 h3 (plain_drop (m := 4) h23 h4 h5)))
  · cases h

theorem plain_of_parseStr (h : Uuid.parseStr cs = some u) : ∀ c ∈ cs, Plain c := by
  unfold Uuid.parseStr at h
  split at h
  · exact plain_of_parseSimple h
  · split at h
    · exact plain_of_parseHyphenated h
    · split at h
      · rename_i hbraces
        obtain ⟨hlen, hopen, hclose⟩ := hbraces
        obtain ⟨inner, rfl⟩ := List.head?_eq_some_iff.mp hopen
        obtain ⟨front, hfront⟩ := List.getLast?_eq_some_iff.mp hclose
        cases front with
        | nil =>
          cases hfront
        | cons c front =>
          obtain ⟨-, hinner⟩ : '{' = c ∧ inner = front ++ ['}'] := List.cons.inj hfront
          rw [hinner, tail_cons, dropLast_concat] at h
          rw [hinner]
          exact forall_mem_cons.mpr ⟨by decide,
            forall_mem_append.mpr ⟨plain_of_parseHyphenated h, by decide⟩⟩
      · split at h
        · rename_i hurn
          have hinner := plain_of_parseHyphenated h
          rw [← take_append_drop 9 cs, hurn.2]
          exact forall_mem_append.mpr ⟨by decide, hinner⟩
        · cases h

theorem exact_uuid (u : String) :
    (Part.mk (taggedText "~u" u.toList) (ResponseValue.uuid u).transit
      (PlainText u)).Exact fmt := by
  cases hparse : Uuid.parseStr u.toList with
  | some id =>
    have hplain : PlainText u := plain_of_parseStr hparse
    exact exact_of_readsTo (readsTo_taggedText "~u" (by decide) hplain) fun _ => hplain
  | none =>
    have hvalue : (ResponseValue.uuid u).transit = .string ("~u" ++ u) := by
      rw [ResponseValue.transit, hparse]
      rfl
    refine ⟨⟨_, _, rfl, rfl, by decide⟩, fun n rest tree out hends hread hfits => ?_⟩
    obtain ⟨cs, rfl, hcs⟩ := read_taggedText (by decide) hread
    have hdecode := decodes_string hfits
    rw [hvalue, decode_uuid] at hdecode
    have heq : cs = u.toList := by
      cases hread : Uuid.parseStr (String.ofList cs).toList with
      | some id =>
        rw [hread] at hdecode
        cases hdecode
      | none =>
        rw [hread] at hdecode
        have hstring := congrArg String.toList (TransitValue.string.inj hdecode)
        simpa [String.toList_append] using hstring
    rw [heq] at hcs
    exact readString_raw_self hcs

end Strings

open ResponseValue (everyItem_iff everyEntry_iff transit transitItems transitItems_eq_map
  transitEntries transitEntries_eq_map NoFloat UntaggedName Every EveryItem EveryEntry Unbroken)

section Values

variable {fmt : FloatFormat} (floats : FloatWriter)

def ResponseValue.part (v : ResponseValue) : Part :=
  ⟨valueToTransitJson floats v, v.transit, v.Every Unbroken⟩

open ResponseValue (part)

variable {v : ResponseValue} {dbId : String}

theorem unmarked_of_read (hfloat : v.NoFloat) {n : Nat} {rest out : List Char} {tree : Tree}
    (hends : EndsNumber rest)
    (h : readValue n (valueToTransitJson floats v ++ rest) = some (tree, out)) :
    (serdeValue fmt tree).Unmarked := by
  have hfixed : v.IsAtom → v.Unbroken → (serdeValue fmt tree).Unmarked := by
    intro hatom hunbroken
    rw [((readsTo_atom floats hatom hfloat hunbroken).eq_of_read hends h).1]
    exact unmarked_tree fmt v
  have harray : ∀ {cs : List Char}, readValue n ('[' :: cs) = some (tree, out) →
      (serdeValue fmt tree).Unmarked := by
    intro cs h
    obtain ⟨items, rfl⟩ := eq_array_of_read h
    intro m hm
    cases hm
  cases v with
  | nil | boolean b | integer n | instant micros => exact hfixed trivial trivial
  | float f => exact hfloat.elim
  | string s =>
    rw [valueToTransitJson, stringToTransitJson_eq] at h
    obtain ⟨-, rfl, -⟩ := read_escapeBasic h
    intro m hm
    cases hm
    exact not_isMarker_escapeTilde s
  | keyword k =>
    obtain ⟨cs, rfl, -⟩ := read_taggedText (by decide) h
    intro m hm
    cases hm
    exact not_isMarker_of_tag (c := ':') String.toList_append (by decide)
  | uuid u =>
    obtain ⟨cs, rfl, -⟩ := read_taggedText (by decide) h
    intro m hm
    cases hm
    exact not_isMarker_of_tag (c := 'u') String.toList_append (by decide)
  | list items | vector items | map entries | dbSnapshot dbId basisT => exact harray h

theorem untaggedName_of_decode {basisT : Int64} {depth : Nat}
    (h : decodeTransitArrayBounded [.string dbId, .scalar (.integer basisT)] depth =
      .ok (.array [.string dbId, .integer basisT])) : UntaggedName dbId := by
  by_cases hcaret : dbId = "^ "
  · subst hcaret
    rw [decode_cmap] at h
    cases h
  by_cases htagged : dbId = "~#list" ∨ dbId = "~#set"
  · rw [decodeTransitArrayBounded.eq_def] at h
    dsimp only at h
    rw [if_neg (by simpa [JsonValue.marker, JsonValue.string] using hcaret),
      if_pos (by simpa [JsonValue.marker, JsonValue.string] using htagged)] at h
    cases h
  · have hunmarked : (JsonValue.string dbId).Unmarked := by
      intro m hm
      cases hm
      rintro (h | h)
      · exact hcaret h
      · exact htagged h
    rw [decodeArray_unmarked hunmarked] at h
    obtain ⟨values, hvalues, heq⟩ := map_eq_ok h
    cases heq
    rw [itemsToTransit] at hvalues
    obtain ⟨name, hname, hrest⟩ := bind_eq_ok hvalues
    obtain ⟨rest, -, hpair⟩ := bind_eq_ok hrest
    obtain ⟨rfl, -⟩ := List.cons.inj (Except.ok.inj hpair)
    rw [decode_string (depth_le_of_ok hname)] at hname
    refine ⟨decode_eq_string_iff.mp (Except.ok.inj hname), hcaret, ?_, ?_⟩
    · exact fun h => htagged (.inl h)
    · exact fun h => htagged (.inr h)

theorem exact_snapshot (basisT : Int64) (hplain : PlainText dbId) :
    ((ResponseValue.dbSnapshot dbId basisT).part floats).Exact fmt := by
  have hinner := readsTo_array
    (.cons (readsTo_plain hplain) (.cons (readsTo_int basisT.toInt) .nil))
  have hread := readsTo_array (.cons (readsTo_plain (s := "~#db") (by decide)) (.cons hinner .nil))
  refine exact_of_readsTo hread fun hdecode => ⟨hplain, ?_⟩
  obtain ⟨depth, hdecode⟩ := decodes_array hdecode
  have hdb : (serdeValue fmt (.string "~#db")).Unmarked := by
    intro m hm
    cases hm
    simp [IsMarker]
  rw [serdeItems, decodeArray_unmarked hdb] at hdecode
  obtain ⟨values, hvalues, heq⟩ := map_eq_ok hdecode
  cases heq
  rw [itemsToTransit] at hvalues
  obtain ⟨tag, -, hvalues⟩ := bind_eq_ok hvalues
  obtain ⟨rest, hrest, hvalues⟩ := bind_eq_ok hvalues
  obtain ⟨-, rfl⟩ := List.cons.inj (Except.ok.inj hvalues)
  rw [serdeItems, itemsToTransit] at hrest
  obtain ⟨pair, hpair, hrest⟩ := bind_eq_ok hrest
  obtain ⟨empty, -, hrest⟩ := bind_eq_ok hrest
  obtain ⟨rfl, -⟩ := List.cons.inj (Except.ok.inj hrest)
  obtain ⟨depth', hpair⟩ := decodes_array ⟨_, hpair⟩
  rw [serdeItems, serdeItems, serdeItems, serdeValue, serdeValue, serdeNumber_toString] at hpair
  exact untaggedName_of_decode hpair

/-- The writer of snapshots puts their names in as they are. -/
def ResponseValue.PlainName : ResponseValue → Prop
  | .dbSnapshot dbId _ => PlainText dbId
  | _ => True

theorem exact_atom (hatom : v.IsAtom) (hfloat : v.NoFloat) (hname : v.PlainName) :
    (v.part floats).Exact fmt := by
  have hfixed : v.Unbroken → v.Every Unbroken → (v.part floats).Exact fmt := by
    intro hunbroken hevery
    exact exact_of_readsTo (readsTo_atom floats hatom hfloat hunbroken) fun _ => hevery
  cases v with
  | nil | boolean b | integer n | instant micros => exact hfixed trivial trivial
  | float f => exact hfloat.elim
  | string s =>
    have hs : (Part.mk (quoted (escapeBasic (escapeTilde s).toList)) (.string s)
        (LegibleText s)).Exact fmt :=
      exact_escapeBasic fun h _ => legibleText_escapeTilde.mp h
    exact hs.congr (stringToTransitJson_eq s) rfl id
  | keyword k => exact exact_keyword k
  | uuid u => exact exact_uuid u
  | dbSnapshot dbId basisT => exact exact_snapshot floats basisT hname
  | list items | vector items | map entries => exact hatom.elim

theorem map_text_part (items : List ResponseValue) :
    itemsToTransitJson floats items = (items.map (part floats)).map Part.text := by
  rw [itemsToTransitJson_eq_map, map_map]
  rfl

theorem map_value_part (items : List ResponseValue) :
    transitItems items = (items.map (part floats)).map Part.value := by
  rw [transitItems_eq_map, map_map]
  rfl

def entryParts (entries : List (ResponseValue × ResponseValue)) : List (Part × Part) :=
  entries.map fun entry => (entry.1.part floats, entry.2.part floats)

theorem map_text_entryParts (entries : List (ResponseValue × ResponseValue)) :
    entriesToTransitJson floats entries =
      (flatParts (entryParts floats entries)).map Part.text := by
  induction entries with
  | nil => rfl
  | cons entry entries ih =>
    rw [entriesToTransitJson, ih]
    rfl

theorem map_value_entryParts (entries : List (ResponseValue × ResponseValue)) :
    transitEntries entries =
      (entryParts floats entries).map fun entry => (entry.1.value, entry.2.value) := by
  rw [transitEntries_eq_map, entryParts, map_map]
  rfl

theorem forall_mem_entryParts {P : Part → Prop} {entries : List (ResponseValue × ResponseValue)} :
    (∀ p ∈ flatParts (entryParts floats entries), P p) ↔
      ∀ entry ∈ entries, P (entry.1.part floats) ∧ P (entry.2.part floats) := by
  induction entries with
  | nil => simp [entryParts, flatParts]
  | cons entry entries ih =>
    rw [forall_mem_cons, ← ih]
    change (∀ p ∈ entry.1.part floats :: entry.2.part floats ::
      flatParts (entryParts floats entries), P p) ↔ _
    rw [forall_mem_cons, forall_mem_cons, and_assoc]

theorem exact_value (hfloat : v.Every NoFloat)
    (hname : v.Every ResponseValue.PlainName) : (v.part floats).Exact fmt := by
  refine Every.inductMem (fun v hatom hfloat hname => exact_atom floats hatom hfloat hname)
    (fun items _ ih => ?_) (fun items _ ih => ?_) (fun entries _ ih => ?_) hfloat hname
  · have hparts : ∀ p ∈ items.map (part floats), p.Exact fmt :=
      forall_mem_map.mpr fun item hitem => (ih item hitem).2
    refine (exact_list hparts).congr ?_ ?_ fun hcond => ⟨trivial, ?_⟩
    · rw [part, valueToTransitJson, map_text_part]
    · rw [part, transit, map_value_part floats]
    · exact everyItem_iff.mpr fun item hitem => hcond _ (mem_map_of_mem hitem)
  · have hparts : ∀ p ∈ items.map (part floats), p.Exact fmt :=
      forall_mem_map.mpr fun item hitem => (ih item hitem).2
    refine (exact_vector hparts ?_).congr ?_ ?_ fun hcond => ⟨trivial, ?_⟩
    · intro p hp n rest tree out hends hread
      obtain ⟨item, hitem, rfl⟩ := mem_map.mp (mem_of_mem_head? hp)
      exact unmarked_of_read floats (ih item hitem).1 hends hread
    · rw [part, valueToTransitJson, map_text_part]
    · rw [part, transit, map_value_part floats]
    · exact everyItem_iff.mpr fun item hitem => hcond _ (mem_map_of_mem hitem)
  · refine (exact_cmap ((forall_mem_entryParts floats).mpr ih)).congr ?_ ?_
      fun hcond => ⟨trivial, ?_⟩
    · rw [part, valueToTransitJson, map_text_entryParts]
    · rw [part, transit, map_value_entryParts floats]
    · exact everyEntry_iff.mpr ((forall_mem_entryParts floats).mp hcond)

end Values

section Responses

variable {fmt : FloatFormat} {floats : FloatWriter}

theorem cond_of_readBack {response : MentatdResponse} {cond : Prop}
    (hexact : (Part.mk (serializeTransitJson floats response) response.transit cond).Exact fmt)
    (h : response.ReadBack fmt floats) : cond := by
  obtain ⟨json, hjson, hdecode⟩ := h
  obtain ⟨tree, hparse, rfl⟩ := Option.map_eq_some_iff.mp hjson
  exact hexact.of_parse hparse ⟨0, hdecode⟩

/-- A key that the writer puts in. -/
def keyPart (key : String) : Part := ⟨taggedText "~:" key.toList, .keyword key, True⟩

theorem exact_keyPart {key : String} (h : PlainText key) : (keyPart key).Exact fmt :=
  exact_of_readsTo (readsTo_taggedText "~:" (by decide) h) fun _ => trivial

theorem unbroken_of_success {result : ResponseValue}
    (hfloat : result.Every NoFloat) (hname : result.Every ResponseValue.PlainName)
    (h : (MentatdResponse.success result).ReadBack fmt floats) :
    result.Every Unbroken := by
  let entries := [(keyPart "result", result.part floats)]
  have hparts : ∀ p ∈ flatParts entries, p.Exact fmt :=
    forall_mem_cons.mpr ⟨exact_keyPart (by decide),
      forall_mem_singleton.mpr (exact_value floats hfloat hname)⟩
  have hconds : ∀ p ∈ flatParts entries, p.cond := cond_of_readBack (exact_cmap hparts) h
  exact hconds (result.part floats) (mem_flatParts mem_cons_self)

namespace Anomaly

def categoryPart (anomaly : Anomaly) : Part :=
  ⟨taggedText "~:" (anomaly.category.asKeyword.toList.drop 1), .keyword anomaly.category.name, True⟩

def messagePart (anomaly : Anomaly) : Part :=
  ⟨quoted (escapeBasic anomaly.message.toList), .string anomaly.message,
    LegibleText anomaly.message ∧ Untagged anomaly.message⟩

def errorPart (e : String) : Part := ⟨taggedText "~:" e.toList, .keyword e, PlainText e⟩

def entries (anomaly : Anomaly) : List (Part × Part) :=
  [(keyPart "cognitect.anomalies/category", anomaly.categoryPart),
    (keyPart "cognitect.anomalies/message", anomaly.messagePart)] ++
    match anomaly.dbError with
    | some e => [(keyPart "db/error", errorPart e)]
    | none => []

def part (anomaly : Anomaly) : Part :=
  ⟨arrayText (quoted "^ ".toList :: (flatParts anomaly.entries).map Part.text), anomaly.transit,
    ∀ p ∈ flatParts anomaly.entries, p.cond⟩

end Anomaly

theorem exact_anomaly (anomaly : Anomaly) : anomaly.part.Exact fmt := by
  have hparts : ∀ p ∈ flatParts anomaly.entries, p.Exact fmt := by
    have hcategory : anomaly.categoryPart.Exact fmt :=
      exact_of_readsTo (readsTo_category anomaly.category) fun _ => trivial
    have hmessage : anomaly.messagePart.Exact fmt :=
      exact_escapeBasic fun hlegible hfits =>
        ⟨hlegible, decode_eq_string_iff.mp (decodes_string hfits)⟩
    have hcategoryKey : (keyPart "cognitect.anomalies/category").Exact fmt :=
      exact_keyPart (by decide)
    have hmessageKey : (keyPart "cognitect.anomalies/message").Exact fmt :=
      exact_keyPart (by decide)
    have herrorKey : (keyPart "db/error").Exact fmt := exact_keyPart (by decide)
    have herror : ∀ e, (Anomaly.errorPart e).Exact fmt := fun e => exact_keyword e
    obtain ⟨category, message, dbError⟩ := anomaly
    cases dbError with
    | none =>
      exact forall_mem_cons.mpr ⟨hcategoryKey, forall_mem_cons.mpr ⟨hcategory,
        forall_mem_cons.mpr ⟨hmessageKey, forall_mem_singleton.mpr hmessage⟩⟩⟩
    | some e =>
      exact forall_mem_cons.mpr ⟨hcategoryKey, forall_mem_cons.mpr ⟨hcategory,
        forall_mem_cons.mpr ⟨hmessageKey, forall_mem_cons.mpr ⟨hmessage,
        forall_mem_cons.mpr ⟨herrorKey, forall_mem_singleton.mpr (herror e)⟩⟩⟩⟩⟩
  refine (exact_cmap hparts).congr rfl ?_ id
  obtain ⟨category, message, dbError⟩ := anomaly
  cases dbError with
  | none | some e => rfl

theorem anomalyText_eq (anomaly : Anomaly) :
    anomalyToTransitJson anomaly = arrayText (quoted "^ ".toList ::
      (flatParts [(keyPart "error", anomaly.part)]).map Part.text) := by
  obtain ⟨category, message, dbError⟩ := anomaly
  cases dbError with
  | none | some e => rfl

variable {anomaly : Anomaly}

theorem unbroken_of_part (h : ∀ p ∈ flatParts anomaly.entries, p.cond) : anomaly.Unbroken := by
  have hmessage : (keyPart "cognitect.anomalies/message", anomaly.messagePart) ∈
      anomaly.entries := mem_append_left _ (mem_cons_of_mem _ mem_cons_self)
  refine ⟨h _ (mem_flatParts hmessage), fun e he => ?_⟩
  have herror : (keyPart "db/error", Anomaly.errorPart e) ∈ anomaly.entries := by
    refine mem_append_right _ ?_
    rw [Option.mem_def.mp he]
    exact mem_cons_self
  exact h _ (mem_flatParts herror)

theorem unbroken_of_error (h : (MentatdResponse.error anomaly).ReadBack fmt floats) :
    anomaly.Unbroken := by
  have hparts : ∀ p ∈ flatParts [(keyPart "error", anomaly.part)], p.Exact fmt :=
    forall_mem_cons.mpr ⟨exact_keyPart (by decide),
      forall_mem_singleton.mpr (exact_anomaly anomaly)⟩
  have hbody : (Part.mk (anomalyToTransitJson anomaly) (MentatdResponse.error anomaly).transit
      (∀ p ∈ flatParts [(keyPart "error", anomaly.part)], p.cond)).Exact fmt :=
    (exact_cmap hparts).congr (anomalyText_eq anomaly) rfl id
  have hconds : ∀ p ∈ flatParts [(keyPart "error", anomaly.part)], p.cond :=
    cond_of_readBack hbody h
  exact unbroken_of_part (hconds anomaly.part (mem_flatParts mem_cons_self))

def MentatdResponse.PlainNames : MentatdResponse → Prop
  | success result => result.Every ResponseValue.PlainName
  | error _ => True

/-- A body is read back if its texts need no escape that the writer leaves out; and, where the
names of snapshots are plain, only then. -/
theorem readBack_iff_unbroken (fmt : FloatFormat) (floats : FloatWriter)
    {response : MentatdResponse} (h : response.Readable) :
    (response.Unbroken → response.ReadBack fmt floats) ∧
      (response.PlainNames → response.ReadBack fmt floats → response.Unbroken) := by
  cases response with
  | success result =>
    exact ⟨readBack_success fmt floats h.1 h.2, fun hnames => unbroken_of_success h.1 hnames⟩
  | error anomaly => exact ⟨readBack_error fmt floats, fun _ => unbroken_of_error⟩

end Responses

def noFloatWriter : FloatWriter := ⟨fun _ => []⟩

def namedRow : MentatdResponse :=
  .success (.map [(.keyword "person/name", .vector [.string "~Ada \"L\"", .integer 7])])

theorem readBack_iff_unbroken_namedRow :
    namedRow.Readable ∧ namedRow.ReadBack noFloatFormat noFloatWriter := by
  have hreadable : namedRow.Readable := by
    refine ⟨?_, by decide⟩
    simp [Every, EveryEntry, EveryItem,
      NoFloat]
  refine ⟨hreadable, (readBack_iff_unbroken noFloatFormat noFloatWriter hreadable).1 ?_⟩
  have hname : PlainText "person/name" := by decide
  have htext : LegibleText "~Ada \"L\"" := by decide
  exact ⟨trivial, ⟨hname, trivial, htext, trivial, trivial⟩, trivial⟩

/-- A text with a control character, a keyword with a quote, and an error message that begins like
a keyword of Transit. -/
theorem not_readBack_unescaped :
    ¬ (MentatdResponse.success (.string "\x01")).ReadBack noFloatFormat noFloatWriter ∧
      ¬ (MentatdResponse.success (.keyword "a\"b")).ReadBack noFloatFormat noFloatWriter ∧
      ¬ (MentatdResponse.error ⟨.incorrect, "~:x", none⟩).ReadBack noFloatFormat noFloatWriter := by
  refine ⟨fun h => ?_, fun h => ?_, fun h => ?_⟩
  · have hunbroken : (ResponseValue.string "\x01").Every Unbroken :=
      unbroken_of_success trivial trivial h
    have hlegible : LegibleText "\x01" := hunbroken
    exact absurd hlegible (by decide)
  · have hunbroken : (ResponseValue.keyword "a\"b").Every Unbroken :=
      unbroken_of_success trivial trivial h
    have hplain : PlainText "a\"b" := hunbroken
    exact absurd hplain (by decide)
  · have hdecode := decode_eq_string_iff.mpr (unbroken_of_error h).1.2
    cases hdecode

end PgMentat

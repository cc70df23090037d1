import Mathlib
import PgMentat.StoreCatalog
import PgMentat.Lib.Unification

namespace PgMentat

open List SqlIdentifier

variable {c : Char} {name : String} {row : StoreRow}

theorem isUpper_of_isPlainChar (h : isPlainChar c = true) : c.isUpper = false := by
  simp only [isPlainChar, Bool.or_eq_true, decide_eq_true_eq] at h
  rcases h with (h | h) | rfl
  · exact Bool.eq_false_iff.mpr (Char.not_isUpper_of_isLower h)
  · simp only [Char.isDigit, Bool.and_eq_true, decide_eq_true_eq, UInt32.le_iff_toNat_le] at h
    simp only [Char.isUpper, decide_eq_false_iff_not, ge_iff_le, UInt32.le_iff_toNat_le]
    have hA : 'A'.val.toNat = 65 := rfl
    have h9 : '9'.val.toNat = 57 := rfl
    omega
  · rfl

theorem isPlainChar_of_accepted (h : c.isAlphanum = true ∨ c = '_') (hup : c.isUpper = false) :
    isPlainChar c = true := by
  rcases h with h | rfl
  · simp only [Char.isAlphanum, Char.isAlpha, hup, Bool.false_or, Bool.or_eq_true] at h
    simp only [isPlainChar, Bool.or_eq_true]
    exact .inl h
  · rfl

theorem inWord_of_accepted (h : c.isAlphanum = true ∨ c = '_') : inWord c = true := by
  rcases h with h | rfl
  · simp only [Char.isAlphanum, Bool.or_eq_true] at h
    simp only [inWord, startsWord, Bool.or_eq_true]
    exact h.elim (fun hc => .inl (.inl (.inl (.inl hc)))) fun hc => .inl (.inr hc)
  · rfl

variable {s : List Char} {p : Char → Bool}

theorem map_toLower_of_plain (h : ∀ c ∈ s, c.isUpper = false) : s.map Char.toLower = s := by
  calc s.map Char.toLower = s.map id :=
        map_congr_left fun c hc => Char.toLower_eq_of_not_isUpper (by simp [h c hc])
    _ = s := map_id s

theorem map_toLower_idem (s : List Char) :
    (s.map Char.toLower).map Char.toLower = s.map Char.toLower := by
  simp only [map_map]
  apply map_congr_left
  intro c _
  exact Char.toLower_toLower_eq_toLower c

structure AcceptedName (name : String) : Prop where
  nonempty : name.toList ≠ []
  chars : ∀ c ∈ name.toList, c.isAlphanum = true ∨ c = '_'
  notDefault : name ≠ "default"

theorem accepted_of_validate (h : validateStoreName name = .ok ()) : AcceptedName name := by
  unfold validateStoreName at h
  split at h
  · cases h
  next first rest hname =>
  split at h
  · cases h
  split at h
  · cases h
  split at h
  · cases h
  next hchars =>
  split at h
  · cases h
  next hreserved =>
  refine ⟨by simp [hname], ?_, ?_⟩
  · intro c hc
    simp only [Bool.not_eq_true, Bool.not_eq_false', all_eq_true, Bool.or_eq_true,
      decide_eq_true_eq] at hchars
    exact hchars c hc
  · intro hdefault
    apply hreserved
    subst hdefault
    decide +kernel

def schemaStem : List Char := "mentat_".toList

theorem toList_getSchemaForStore (h : AcceptedName name) :
    (getSchemaForStore name).toList = schemaStem ++ name.toList := by
  rw [getSchemaForStore, if_neg h.notDefault, String.toList_append]
  rfl

theorem isWord_schema (h : AcceptedName name) : isWord (schemaStem ++ name.toList) = true := by
  change (startsWord 'm' && (("entat_".toList ++ name.toList).all inWord)) = true
  rw [all_append, Bool.and_eq_true, Bool.and_eq_true, all_eq_true (l := name.toList)]
  exact ⟨rfl, rfl, fun c hc => inWord_of_accepted (h.chars c hc)⟩

theorem isPlainChar_of_isSimple (h : isSimple s = true) : ∀ c ∈ s, isPlainChar c = true := by
  cases s with
  | nil => cases h
  | cons first rest =>
    simp only [isSimple, Bool.and_eq_true, all_eq_true] at h
    exact h.2

theorem isWord_of_isSimple (h : isSimple s = true) : isWord s = true := by
  have hplain := isPlainChar_of_isSimple h
  cases s with
  | nil => cases h
  | cons first rest =>
    simp only [isSimple, Bool.and_eq_true, Bool.or_eq_true, decide_eq_true_eq] at h
    simp only [isWord, Bool.and_eq_true, all_eq_true]
    constructor
    · rcases h.1 with hc | rfl
      · simp [startsWord, Char.isAlpha, hc]
      · rfl
    · intro c hc
      have hc := hplain c (mem_cons_of_mem first hc)
      simp only [isPlainChar, Bool.or_eq_true, decide_eq_true_eq] at hc
      rcases hc with (hc | hc) | rfl
      · simp [inWord, startsWord, Char.isAlpha, hc]
      · simp [inWord, hc]
      · rfl

/-- `quote_ident` keeps the name that PostgreSQL reads, up to the cut. -/
theorem readIdentifier_quoteIdent {s : String} (hs : s.toList ≠ []) :
    readIdentifier (quoteIdent s) = .ok (quotedSchema s) := by
  unfold quoteIdent
  split
  · next hsimple =>
    have hplain : ∀ c ∈ s.toList, c.isUpper = false := fun c hc =>
      isUpper_of_isPlainChar (isPlainChar_of_isSimple hsimple c hc)
    rw [readIdentifier, denoted_word _ (isWord_of_isSimple hsimple), map_toLower_of_plain hplain]
    rfl
  · rw [readIdentifier, String.toList_ofList, denoted_delimited _ hs]
    rfl

theorem readIdentifier_word {s : String} (hs : isWord s.toList = true) :
    readIdentifier s = .ok (unquotedSchema s) := by
  rw [readIdentifier, denoted_word _ hs, unquotedSchema, truncateIdentifier, String.toLower,
    String.toList_map]
  rfl

/-- What PostgreSQL keeps of the store name where the schema is not quoted. -/
def foldedPart (name : String) : List Char := (name.toList.take 56).map Char.toLower

theorem take_schema (cs : List Char) : (schemaStem ++ cs).take 63 = schemaStem ++ cs.take 56 := by
  rw [take_append]
  rfl

theorem toList_quotedSchema (h : AcceptedName name) :
    (quotedSchema (getSchemaForStore name)).toList = schemaStem ++ name.toList.take 56 := by
  rw [quotedSchema, truncateIdentifier, String.toList_ofList, toList_getSchemaForStore h]
  exact take_schema name.toList

theorem toList_unquotedSchema (h : AcceptedName name) :
    (unquotedSchema (getSchemaForStore name)).toList = schemaStem ++ foldedPart name := by
  rw [unquotedSchema, truncateIdentifier, String.toList_ofList, String.toLower,
    String.toList_map, toList_getSchemaForStore h, map_append, foldedPart, map_take]
  exact take_schema (name.toList.map Char.toLower)

/-- The callers that put the schema through `quote_ident`. -/
def StoreCaller.quotes : StoreCaller → Bool
  | management | transact | query | timeTravel => true
  | pull | schemaCache | excision => false

theorem StoreCaller.schema_eq (h : AcceptedName name) (caller : StoreCaller) :
    caller.schema name = .ok (if caller.quotes then quotedSchema (getSchemaForStore name)
      else unquotedSchema (getSchemaForStore name)) := by
  have hword : isWord (getSchemaForStore name).toList = true := by
    rw [toList_getSchemaForStore h]
    exact isWord_schema h
  have hne : (getSchemaForStore name).toList ≠ [] := by
    intro hnil
    rw [hnil] at hword
    cases hword
  cases caller
  case management | transact | query | timeTravel => exact readIdentifier_quoteIdent hne
  case pull | schemaCache | excision => exact readIdentifier_word hword

theorem StoreCaller.toLower_schema {name s : String} (h : AcceptedName name)
    {caller : StoreCaller} (hs : caller.schema name = .ok s) :
    s.toList.map Char.toLower = schemaStem ++ foldedPart name := by
  rw [StoreCaller.schema_eq h] at hs
  injection hs with hs
  have hstem : schemaStem.map Char.toLower = schemaStem := rfl
  split at hs
  · rw [← hs, toList_quotedSchema h, map_append, hstem]
    rfl
  · rw [← hs, toList_unquotedSchema h, map_append, hstem, foldedPart, map_toLower_idem]

/-- Some statement about the one store names the schema that a statement about the other names. -/
def SharesSchema (n m : String) : Prop :=
  ∃ (caller caller' : StoreCaller) (s : String), caller.schema n = .ok s ∧ caller'.schema m = .ok s

theorem sharesSchema_iff {n m : String} (hn : AcceptedName n) (hm : AcceptedName m) :
    SharesSchema n m ↔ foldedPart n = foldedPart m := by
  constructor
  · intro h
    obtain ⟨caller, caller', s, hs, hs'⟩ := h
    have heq := (StoreCaller.toLower_schema hn hs).symm.trans (StoreCaller.toLower_schema hm hs')
    exact append_cancel_left heq
  · intro h
    refine ⟨.pull, .pull, _, StoreCaller.schema_eq hn .pull, ?_⟩
    rw [StoreCaller.schema_eq hm]
    have heq : unquotedSchema (getSchemaForStore m) = unquotedSchema (getSchemaForStore n) := by
      apply String.toList_inj.mp
      rw [toList_unquotedSchema hm, toList_unquotedSchema hn, h]
    exact congrArg Except.ok heq

theorem storeNameOfSchema_stem (name : String) :
    storeNameOfSchema (schemaStem ++ name.toList) = some name := by
  have hne : schemaStem ++ name.toList ≠ "mentat".toList := by
    intro h
    have hlen := congrArg List.length h
    rw [length_append] at hlen
    change 7 + _ = 6 at hlen
    omega
  have hstem : "mentat_".toList.isPrefixOf (schemaStem ++ name.toList) = true :=
    isPrefixOf_iff_prefix.mpr (prefix_append _ _)
  rw [storeNameOfSchema, if_neg hne, stripPrefix, if_pos hstem]
  change some (String.ofList ((schemaStem ++ name.toList).drop schemaStem.length)) = _
  rw [drop_left, String.ofList_toList]

theorem storeNameOfSchema_delimited (s : List Char) : storeNameOfSchema (delimited s) = none := rfl

theorem Catalog.record_eq {c : Catalog} (hrow : row ∈ c.stores) :
    c.record row.storeName = some row := by
  have hsome : (c.record row.storeName).isSome = true := by
    rw [record, List.find?_isSome]
    exact ⟨row, hrow, by simp⟩
  obtain ⟨found, hfound⟩ := Option.isSome_iff_exists.mp hsome
  have hname : found.storeName = row.storeName := by simpa using List.find?_some hfound
  rw [hfound, inj_on_of_nodup_map c.unique (mem_of_find?_eq_some hfound) hrow hname]

theorem Catalog.lookupStoreId_stem {c : Catalog} (hrow : row ∈ c.stores)
    (unknownSchema : StoreError) (notFound : String → StoreError) :
    c.lookupStoreId (schemaStem ++ row.storeName.toList) unknownSchema notFound =
      .ok row.storeId := by
  rw [Catalog.lookupStoreId, storeNameOfSchema_stem]
  simp only [c.record_eq hrow]

/-- `quote_ident` leaves the schema plain exactly where the name has no capital letter. -/
theorem isSimple_schema_iff (h : AcceptedName name) :
    isSimple (schemaStem ++ name.toList) = true ↔ ∀ c ∈ name.toList, c.isUpper = false := by
  constructor
  · intro hsimple c hc
    exact isUpper_of_isPlainChar
      (isPlainChar_of_isSimple hsimple c (mem_append_right schemaStem hc))
  · intro hup
    change (true && (schemaStem ++ name.toList).all isPlainChar) = true
    rw [Bool.true_and, all_append, Bool.and_eq_true, all_eq_true (l := name.toList)]
    exact ⟨rfl, fun c hc => isPlainChar_of_accepted (h.chars c hc) (hup c hc)⟩

theorem escape_of_not_mem (h : ∀ c ∈ s, c ≠ '"') : escape s = s := by
  induction s with
  | nil => rfl
  | cons c s ih =>
    have hstep : escape (c :: s) = (if c = '"' then ['"', '"'] else [c]) ++ escape s := rfl
    rw [hstep, if_neg (h c (mem_cons_self ..)),
      ih fun d hd => h d (mem_cons_of_mem c hd)]
    rfl

theorem rdropWhile_of_not (h : ∀ c ∈ s, p c = false) : s.rdropWhile p = s := by
  apply rdropWhile_eq_self_iff.mpr
  intro hs
  simp [h _ (getLast_mem hs)]

theorem trimMatches_of_not (h : ∀ c ∈ s, p c = false) : Query.trimMatches p s = s := by
  have hdrop : s.dropWhile p = s := by
    cases s with
    | nil => rfl
    | cons c s => rw [dropWhile_cons_of_neg (by simp [h c (mem_cons_self ..)])]
  rw [Query.trimMatches, hdrop, rdropWhile_of_not h]

theorem not_mark_of_schema (h : AcceptedName name) :
    ∀ c ∈ schemaStem ++ name.toList, c ≠ '"' ∧ c ≠ '.' := by
  intro c hc
  rw [mem_append] at hc
  rcases hc with hc | hc
  · revert c
    decide
  · have hchar := h.chars c hc
    constructor
    · rintro rfl
      revert hchar
      decide
    · rintro rfl
      revert hchar
      decide

theorem trim_schemaPrefix (h : AcceptedName name) :
    Query.trimMatches (· = '"') ((resolveSchemaPrefix name).toList.rdropWhile (· = '.')) =
      schemaStem ++ name.toList := by
  have hmarks := not_mark_of_schema h
  have hquote : ∀ c ∈ schemaStem ++ name.toList, decide (c = '"') = false := fun c hc =>
    decide_eq_false (hmarks c hc).1
  have hdot : ∀ c ∈ schemaStem ++ name.toList, decide (c = '.') = false := fun c hc =>
    decide_eq_false (hmarks c hc).2
  have hconcat : (resolveSchemaPrefix name).toList =
      (quoteIdent (getSchemaForStore name)).toList ++ ['.'] := String.toList_append
  rw [hconcat, rdropWhile_concat_pos _ _ _ (by decide)]
  unfold quoteIdent
  rw [toList_getSchemaForStore h]
  split
  · rw [toList_getSchemaForStore h, rdropWhile_of_not hdot, trimMatches_of_not hquote]
  · rw [String.toList_ofList, delimited, escape_of_not_mem fun c hc => (hmarks c hc).1]
    rw [← cons_append, rdropWhile_concat_neg _ _ _ (by decide)]
    have hopen : ('"' :: (schemaStem ++ name.toList) ++ ['"']).dropWhile (· = '"') =
        schemaStem ++ name.toList ++ ['"'] := rfl
    rw [Query.trimMatches, hopen, rdropWhile_concat_pos _ _ _ (by decide),
      rdropWhile_of_not hquote]

section Finding

variable {c : Catalog} {row : StoreRow}

theorem Transact.storeId_eq_iff (hrow : row ∈ c.stores)
    (hvalid : validateStoreName row.storeName = .ok ()) :
    Transact.storeId c row.storeName = .ok row.storeId ↔
      ∀ ch ∈ row.storeName.toList, ch.isUpper = false := by
  have h := accepted_of_validate hvalid
  have hresolve : Transact.resolveStoreSchema row.storeName =
      .ok (getSchemaForStore row.storeName) := by
    rw [Transact.resolveStoreSchema, if_neg h.notDefault, hvalid]
    rfl
  rw [Transact.storeId, hresolve, ← isSimple_schema_iff h]
  change Transact.getStoreIdFromSchema none c (quoteIdent _) = _ ↔ _
  rw [Transact.getStoreIdFromSchema, quoteIdent, toList_getSchemaForStore h]
  constructor
  · intro hid
    by_contra hsimple
    rw [if_neg hsimple, String.toList_ofList, Catalog.lookupStoreId,
      storeNameOfSchema_delimited] at hid
    cases hid
  · intro hsimple
    rw [if_pos hsimple, toList_getSchemaForStore h]
    exact c.lookupStoreId_stem hrow _ _

theorem Query.storeId_eq (hrow : row ∈ c.stores)
    (h : AcceptedName row.storeName) : Query.storeId c row.storeName = .ok row.storeId := by
  rw [Query.storeId, Query.resolveStoreId, trim_schemaPrefix h]
  exact c.lookupStoreId_stem hrow _ _

theorem Pull.storeId_eq (hrow : row ∈ c.stores)
    (h : AcceptedName row.storeName) : Pull.storeId c row.storeName = .ok row.storeId := by
  rw [Pull.storeId, Pull.getStoreIdFromSchema, toList_getSchemaForStore h]
  exact c.lookupStoreId_stem hrow _ _

theorem TimeTravel.storeId_eq (hrow : row ∈ c.stores)
    (h : AcceptedName row.storeName) : TimeTravel.storeId c row.storeName = .ok row.storeId := by
  rw [TimeTravel.storeId, TimeTravel.getStoreIdForSchema, toList_getSchemaForStore h]
  exact c.lookupStoreId_stem hrow _ _

end Finding

/-- All four functions find the `store_id` that is registered. -/
def FindsStore (c : Catalog) (row : StoreRow) : Prop :=
  Transact.storeId c row.storeName = .ok row.storeId ∧
  Query.storeId c row.storeName = .ok row.storeId ∧
  Pull.storeId c row.storeName = .ok row.storeId ∧
  TimeTravel.storeId c row.storeName = .ok row.storeId

/-- A store has no schema in common with another name if and only if the first 56 characters of
the names differ by more than capital letters. It is found from its schema if and only if its name
has no capital letter. -/
theorem storage_apart_iff {c : Catalog} {row : StoreRow} (hrow : row ∈ c.stores)
    (hvalid : validateStoreName row.storeName = .ok ()) {other : String}
    (hother : validateStoreName other = .ok ()) (_hne : other ≠ row.storeName) :
    (¬ SharesSchema row.storeName other ↔ foldedPart row.storeName ≠ foldedPart other) ∧
      (FindsStore c row ↔ ∀ ch ∈ row.storeName.toList, ch.isUpper = false) := by
  have h := accepted_of_validate hvalid
  constructor
  · exact not_congr (sharesSchema_iff h (accepted_of_validate hother))
  · constructor
    · intro hfinds
      exact (Transact.storeId_eq_iff hrow hvalid).mp hfinds.1
    · intro hup
      exact ⟨(Transact.storeId_eq_iff hrow hvalid).mpr hup, Query.storeId_eq hrow h,
        Pull.storeId_eq hrow h, TimeTravel.storeId_eq hrow h⟩

def withStore (name : String) (h : name ≠ "default") : Catalog where
  stores := [⟨0, "default"⟩, ⟨1, name⟩]
  unique := by simpa using h.symm

/-- A store with a short name in lower case. -/
theorem storage_apart_iff_short :
    ¬ SharesSchema "a" "b" ∧ FindsStore (withStore "a" (by decide)) ⟨1, "a"⟩ := by
  have ha : validateStoreName "a" = .ok () := by decide +kernel
  have hb : validateStoreName "b" = .ok () := by decide +kernel
  have hrow : ⟨1, "a"⟩ ∈ (withStore "a" (by decide)).stores := by decide
  have h := storage_apart_iff hrow ha hb (by decide)
  exact ⟨h.1.mpr (by decide +kernel), h.2.mpr (by decide +kernel)⟩

/-- Names of 57 characters that differ in the last one. -/
def longName (last : Char) : String := String.ofList (List.replicate 56 'a' ++ [last])

/-- Two names share their schema. A store with a capital letter is not found by a transaction, and
pull reads the schema of the store with the small letter. -/
theorem storage_shared :
    (validateStoreName (longName 'b') = .ok () ∧ validateStoreName (longName 'c') = .ok () ∧
      longName 'b' ≠ longName 'c' ∧
      StoreCaller.management.schema (longName 'b') = StoreCaller.management.schema (longName 'c')) ∧
    (validateStoreName "Ab" = .ok () ∧
      Transact.storeId (withStore "Ab" (by decide)) "Ab" =
        .error (badSchema "\"mentat_Ab\"") ∧
      StoreCaller.pull.schema "Ab" = StoreCaller.management.schema "ab") := by
  decide +kernel

end PgMentat

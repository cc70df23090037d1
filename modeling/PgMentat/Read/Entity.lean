import PgMentat.JsonValue
import PgMentat.Lib.Depiction
import PgMentat.ValueCodec

namespace PgMentat

open List TextCodec Depiction KeyedTable

/-- The result of an operation on `BIGINT`. -/
def bigint (n : Int) : Except String Int64 :=
  if -2 ^ 63 ≤ n ∧ n < 2 ^ 63 then .ok (Int64.ofInt n) else .error "bigint out of range"

/-- `EXTRACT(EPOCH FROM v)::BIGINT * 1000000 + EXTRACT(MICROSECOND FROM v)::BIGINT % 1000000`:
the seconds are rounded, then the fraction is added to them. -/
def extractMicros (micros : Int64) : Except String Int64 := do
  let whole ← bigint (TypedValue.roundedSeconds micros.toInt * 1000000)
  bigint (whole.toInt + micros.toInt % 1000000)

/-- The text column of the statement, by the table it comes from. -/
def entityText : TypedValue → Except String String
  | .ref id => .ok (toString id.toInt)
  | .boolean b => .ok (boolText b)
  | .long n => .ok (toString n.toInt)
  | .double f => .ok (String.ofList f.text)
  | .instant micros => do
    let n ← extractMicros micros
    return toString n.toInt
  | .text s => .ok s
  | .keyword s => .ok s
  | .uuid u => .ok (String.ofList u.chars)
  | .bytes bs => .ok (String.ofList (hexEncode bs))

/-- `decode_text_value`. -/
def decodeTextValue (type : ValueType) (s : String) : Except String JsonValue :=
  let orCorrupt {α : Type} (name : String) (wrap : α → JsonValue) :
      Option α → Except String JsonValue
    | some a => .ok (wrap a)
    | none => .error ("Invalid " ++ name ++ " value: " ++ s)
  match type with
  | .ref => orCorrupt "ref" .integer (TypedValue.parseI64 s.toList)
  | .boolean =>
    if s = "t" ∨ s = "true" then .ok (.scalar (.bool true))
    else if s = "f" ∨ s = "false" then .ok (.scalar (.bool false))
    else .error ("Invalid boolean value: " ++ s)
  | .long => orCorrupt "long" .integer (TypedValue.parseI64 s.toList)
  | .double => orCorrupt "double" (fun f => .scalar (.ofF64 f)) (F64.parse s.toList)
  | .instant => orCorrupt "instant" .integer (TypedValue.parseI64 s.toList)
  | .string => .ok (.string s)
  | .keyword => .ok (.string (":" ++ s))
  | .uuid => .ok (.string s)
  | .bytes => .ok (.string s)

/-- A reference is shown as the ident of its target in `schema`, or as `{":db/id": id}`. -/
def refJson (c : SchemaCache) (id : Int64) : JsonValue :=
  match c.getAttribute id with
  | some info => .string info.ident
  | none => .object [(":db/id", .integer id)]

def entityValue (c : SchemaCache) (v : TypedValue) : Except String JsonValue := do
  let text ← entityText v
  if v.valueType = .ref then
    match TypedValue.parseI64 text.toList with
    | some id => return refJson c id
    | none => throw ("Invalid ref value: " ++ text)
  else decodeTextValue v.valueType text

/-- Values of one attribute are collected into an array from the second on. -/
def accumulate (m : JsonObject) (ident : String) (v : JsonValue) : JsonObject :=
  match m.lookup ident with
  | some (.array items) => m.insert ident (.array (items ++ [v]))
  | some existing => m.insert ident (.array [existing, v])
  | none => m.insert ident v

/-- The asserted rows of the entity, one arm of the `UNION ALL` for each type. -/
def entityRows (scan : ScanOrder) (db : Db) (e : Int64) : List LogRow :=
  ValueType.all.flatMap fun t =>
    (scan.log db.log).filter fun r => r.v.valueType = t ∧ r.e = e ∧ r.added

/-- One row, joined with `schema`. -/
def entityRow (c : SchemaCache) (m : JsonObject) (r : LogRow) : Except String JsonObject :=
  match c.getAttribute r.a with
  | none => .ok m
  | some info => do
    let v ← entityValue c r.v
    return accumulate m info.ident v

def mentatEntity (scan : ScanOrder) (db : Db) (e : Int64) : Except String JsonObject :=
  (entityRows scan db e).foldlM (entityRow db.cache) [(":db/id", .integer e)]

/-- The value of a named target is its ident, or any object that has the target's `:db/id`. -/
def Shows (c : SchemaCache) (j : JsonValue) : TypedValue → Prop
  | .ref id => j = refJson c id ∨
      ∃ m : JsonObject, j = .object m ∧ m.lookup ":db/id" = some (.integer id)
  | .boolean b => j = .scalar (.bool b)
  | .long n => j = .integer n
  | .double f => j = .scalar (.float f)
  | .instant micros => j = .integer micros
  | .text s => j = .string s
  | .keyword s => j = .string (":" ++ s)
  | .uuid u => j = .string (String.ofList u.chars)
  | .bytes bs => j = .string (String.ofList (hexEncode bs))

/-- The extraction stays within `BIGINT`. -/
def TypedValue.Extractable : TypedValue → Prop
  | .instant micros => (extractMicros micros).isOk = true
  | _ => True

/-- A double that JSON has, and an instant that the extraction does not move. -/
def TypedValue.Exact : TypedValue → Prop
  | .instant micros => (extractMicros micros).toOption = some micros
  | .double f => Json.ofF64 f = .float f
  | _ => True

instance : ∀ v : TypedValue, Decidable v.Extractable
  | .instant micros => inferInstanceAs (Decidable ((extractMicros micros).isOk = true))
  | .ref _ | .boolean _ | .long _ | .double _ | .text _ | .keyword _ | .uuid _ | .bytes _ =>
    isTrue trivial

instance : ∀ v : TypedValue, Decidable v.Exact
  | .instant micros => inferInstanceAs (Decidable ((extractMicros micros).toOption = some micros))
  | .double f => inferInstanceAs (Decidable (Json.ofF64 f = .float f))
  | .ref _ | .boolean _ | .long _ | .text _ | .keyword _ | .uuid _ | .bytes _ => isTrue trivial

theorem extractMicros_of_extractable {micros : Int64}
    (h : (TypedValue.instant micros).Extractable) :
    ∃ n, extractMicros micros = .ok n ∧ ((TypedValue.instant micros).Exact → n = micros) := by
  change (extractMicros micros).isOk = true at h
  cases hn : extractMicros micros with
  | error msg =>
    rw [hn] at h
    cases h
  | ok n =>
    refine ⟨n, rfl, fun hexact => ?_⟩
    change (extractMicros micros).toOption = some micros at hexact
    rw [hn] at hexact
    exact Option.some.inj hexact

theorem refJson_single (c : SchemaCache) (id : Int64) : (refJson c id).Single := by
  unfold refJson
  split <;> trivial

theorem entityValue_ok {v : TypedValue} (c : SchemaCache) (h : v.Extractable) :
    ∃ j, entityValue c v = .ok j ∧ j.Single ∧ (v.Exact → Shows c j v) := by
  cases v with
  | ref id =>
    refine ⟨refJson c id, ?_, refJson_single c id, fun _ => .inl rfl⟩
    simp only [entityValue, entityText, TypedValue.valueType, bind, Except.bind, if_true,
      TypedValue.parseI64_toString]
    rfl
  | boolean b => exact ⟨.scalar (.bool b), by cases b <;> rfl, trivial, fun _ => rfl⟩
  | long n =>
    refine ⟨.integer n, ?_, trivial, fun _ => rfl⟩
    simp only [entityValue, entityText, TypedValue.valueType, bind, Except.bind, reduceCtorEq,
      if_false, decodeTextValue, TypedValue.parseI64_toString]
  | double f =>
    refine ⟨.scalar (.ofF64 f), ?_, trivial, fun hexact => congrArg JsonValue.scalar hexact⟩
    have hparse : F64.parse (String.ofList f.text).toList = some f := by
      rw [String.toList_ofList, F64.parse_text]
    simp only [entityValue, entityText, TypedValue.valueType, bind, Except.bind, reduceCtorEq,
      if_false, decodeTextValue, hparse]
  | instant micros =>
    obtain ⟨n, hn, hexact⟩ := extractMicros_of_extractable h
    refine ⟨.integer n, ?_, trivial, fun he => congrArg JsonValue.integer (hexact he)⟩
    simp only [entityValue, entityText, hn, TypedValue.valueType, bind, Except.bind, pure,
      Except.pure, reduceCtorEq, if_false, decodeTextValue, TypedValue.parseI64_toString]
  | text s => exact ⟨.string s, rfl, trivial, fun _ => rfl⟩
  | keyword s => exact ⟨.string (":" ++ s), rfl, trivial, fun _ => rfl⟩
  | uuid u => exact ⟨.string (String.ofList u.chars), rfl, trivial, fun _ => rfl⟩
  | bytes bs => exact ⟨.string (String.ofList (hexEncode bs)), rfl, trivial, fun _ => rfl⟩

variable {e : Int64} {m : JsonObject} {ident : String} {v : JsonValue} {c : SchemaCache}

theorem mem_entityRows {scan : ScanOrder} {db : Db} {r : LogRow} :
    r ∈ entityRows scan db e ↔ r ∈ db.log ∧ r.e = e ∧ r.added = true := by
  unfold entityRows
  rw [mem_flatMap]
  constructor
  · rintro ⟨t, -, hr⟩
    obtain ⟨hr, hcond⟩ := mem_filter.mp hr
    simp only [decide_eq_true_eq] at hcond
    exact ⟨(scan.log_perm _).mem_iff.mp hr, hcond.2⟩
  · rintro ⟨hr, he, hadded⟩
    refine ⟨r.v.valueType, ValueType.mem_all _, mem_filter.mpr ⟨?_, ?_⟩⟩
    · exact (scan.log_perm _).mem_iff.mpr hr
    · simp [he, hadded]

theorem values_accumulate (h : v.Single) :
    (accumulate m ident v).values ident = m.values ident ++ [v] := by
  unfold accumulate
  split
  · rename_i items hlookup
    rw [JsonObject.values_insert_array, JsonObject.values, hlookup]
  · rename_i existing hnot hlookup
    rw [JsonObject.values_insert_array, JsonObject.values, hlookup]
    cases existing with
    | array items => exact absurd rfl (hnot items)
    | _ => rfl
  · rename_i hlookup
    rw [JsonObject.values_insert h, JsonObject.values, hlookup]
    rfl

theorem values_accumulate_ne {ident ident' : String} (h : ident' ≠ ident) :
    (accumulate m ident v).values ident' = m.values ident' := by
  unfold accumulate
  split <;> exact JsonObject.values_insert_ne _ _ h

theorem SchemaCache.mem_of_getAttribute {a : Int64} {info : SchemaRow}
    (h : c.getAttribute a = some info) : info ∈ c.schema ∧ info.entid = a := by
  unfold SchemaCache.getAttribute at h
  exact ⟨mem_of_find?_eq_some h, by simpa using List.find?_some h⟩

theorem eq_of_ident_eq (hident : KeyUnique SchemaRow.ident c.schema) {a a' : Int64}
    {info info' : SchemaRow} (ha : c.getAttribute a = some info)
    (ha' : c.getAttribute a' = some info') (heq : info'.ident = info.ident) : a' = a := by
  obtain ⟨hmem, hentid⟩ := SchemaCache.mem_of_getAttribute ha
  obtain ⟨hmem', hentid'⟩ := SchemaCache.mem_of_getAttribute ha'
  have hinfo : info' = info := hident info' hmem' info hmem heq
  rw [← hentid, ← hentid', hinfo]

theorem values_idOnly (h : ident ≠ ":db/id") :
    JsonObject.values [(":db/id", .integer e)] ident = [] := by
  rw [JsonObject.values, JsonObject.lookup_cons, if_neg h]
  rfl

section Entity

variable {scan : ScanOrder} {db : Db} {e : Int64}

def Entered (db : Db) (rows done : List LogRow) (m : JsonObject) : Prop :=
  ∀ a info, db.cache.getAttribute a = some info → (∀ r ∈ rows, r.a = a → r.v.Exact) →
    Depicts (Shows db.cache) (m.values info.ident) fun v => ∃ r ∈ done, r.a = a ∧ r.v = v

theorem Entered.step {rows done : List LogRow} {m : JsonObject} {r : LogRow}
    (hident : KeyUnique SchemaRow.ident db.schema) (h : Entered db rows done m) (hr : r ∈ rows)
    (hextract : r.v.Extractable) :
    ∃ m', entityRow db.cache m r = .ok m' ∧ Entered db rows (done ++ [r]) m' := by
  have hdone (a : Int64) (v : TypedValue) : (∃ x ∈ done ++ [r], x.a = a ∧ x.v = v) ↔
      (∃ x ∈ done, x.a = a ∧ x.v = v) ∨ r.a = a ∧ r.v = v := by
    simp only [mem_append, mem_singleton, or_and_right, exists_or, exists_eq_left]
  have hskip {m' : JsonObject} {a : Int64} {info : SchemaRow} (hne : r.a ≠ a)
      (hvalues : m'.values info.ident = m.values info.ident)
      (hold : Depicts (Shows db.cache) (m.values info.ident) fun v =>
        ∃ x ∈ done, x.a = a ∧ x.v = v) :
      Depicts (Shows db.cache) (m'.values info.ident) fun v =>
        ∃ x ∈ done ++ [r], x.a = a ∧ x.v = v := by
    rw [hvalues]
    refine hold.congr fun v => ?_
    rw [hdone, or_iff_left fun hv => hne hv.1]
  unfold entityRow
  cases hattr : db.cache.getAttribute r.a with
  | none =>
    refine ⟨m, rfl, fun a info ha hexact => hskip ?_ rfl (h a info ha hexact)⟩
    intro heq
    rw [heq, ha] at hattr
    cases hattr
  | some info' =>
    obtain ⟨j, hj, hsingle, hshows⟩ := entityValue_ok db.cache hextract
    refine ⟨accumulate m info'.ident j, by rw [hj]; rfl, fun a info ha hexact => ?_⟩
    by_cases heq : r.a = a
    · have hinfo : info' = info := by
        rw [heq, ha] at hattr
        exact (Option.some.inj hattr).symm
      rw [hinfo, values_accumulate hsingle]
      refine ((h a info ha hexact).snoc (hshows (hexact r hr heq))).congr fun v => ?_
      rw [hdone, eq_comm (a := v), and_iff_right heq]
    · apply hskip heq _ (h a info ha hexact)
      apply values_accumulate_ne
      intro hsame
      exact heq (eq_of_ident_eq hident ha hattr hsame.symm)

theorem mentatEntity_ok (scan : ScanOrder) (e : Int64)
    (hident : KeyUnique SchemaRow.ident db.schema)
    (hnamed : ∀ row ∈ db.schema, row.ident ≠ ":db/id")
    (hextract : ∀ r ∈ db.log, r.v.Extractable) :
    ∃ m, mentatEntity scan db e = .ok m ∧ ∀ a info, db.cache.getAttribute a = some info →
      (∀ r ∈ db.log, r.e = e → r.a = a → r.added = true → r.v.Exact) →
      Depicts (Shows db.cache) (m.values info.ident) fun v =>
        ∃ r ∈ db.log, r.e = e ∧ r.a = a ∧ r.added = true ∧ r.v = v := by
  have hinit : Entered db (entityRows scan db e) [] [(":db/id", .integer e)] := by
    intro a info ha _
    rw [values_idOnly (hnamed info (SchemaCache.mem_of_getAttribute ha).1)]
    apply Depicts.nil
    rintro v ⟨r, hr, -⟩
    exact nomatch hr
  have hfold := foldlM_ok hinit fun done r m hr hI =>
    hI.step hident hr (hextract r (mem_entityRows.mp hr).1)
  obtain ⟨m, hm, hentered⟩ := hfold
  refine ⟨m, hm, fun a info ha hexact => ?_⟩
  have hrows : ∀ r ∈ entityRows scan db e, r.a = a → r.v.Exact := by
    intro r hr heq
    obtain ⟨hlog, he, hadded⟩ := mem_entityRows.mp hr
    exact hexact r hlog he heq hadded
  refine (hentered a info ha hrows).congr fun v => ?_
  constructor
  · rintro ⟨r, hr, heq, hv⟩
    obtain ⟨hlog, he, hadded⟩ := mem_entityRows.mp hr
    exact ⟨r, hlog, he, heq, hadded, hv⟩
  · rintro ⟨r, hlog, he, heq, hadded, hv⟩
    exact ⟨r, mem_entityRows.mpr ⟨hlog, he, hadded⟩, heq, hv⟩

end Entity

end PgMentat

import PgMentat.Read.Entity
import Mathlib.Data.List.Sort

namespace PgMentat

open List TextCodec Depiction KeyedTable

/-- How the session prints timestamps and doubles. -/
structure SessionFormat where
  /-- The seconds that its `TimeZone` is ahead of UTC at an instant. -/
  offset : Int64 → Int
  /-- The texts of a `DateStyle` other than ISO. -/
  dateStyle : Option (Int64 → String)
  /-- The texts of doubles where `extra_float_digits` leaves digits out. -/
  shortened : Option (F64 → String)

def zoneText (offset : Int) : String :=
  let seconds : Int := offset.natAbs
  (if offset < 0 then "-" else "+") ++ padded 2 (seconds / 3600) ++
    if seconds % 60 ≠ 0 then ":" ++ padded 2 (seconds / 60 % 60) ++ ":" ++ padded 2 (seconds % 60)
    else if seconds / 60 % 60 ≠ 0 then ":" ++ padded 2 (seconds / 60 % 60)
    else ""

/-- The fraction of a second, without zeros at its end. -/
def fractionText (micros : Int) : String :=
  if micros = 0 then ""
  else "." ++ String.ofList ((padded 6 micros).toList.reverse.dropWhile (· = '0')).reverse

/-- The ISO spelling of an instant in a time zone with the given offset. -/
def isoText (offset micros : Int) : String :=
  let zoned := micros + offset * 1000000
  let date := civilDate (zoned / 86400000000)
  dateText date ++ " " ++ timeText (zoned % 86400000000) ++ fractionText (zoned % 1000000) ++
    zoneText offset ++ if date.1 ≤ 0 then " BC" else ""

/-- `v::TEXT`. -/
def SessionFormat.text (session : SessionFormat) (micros : Int64) : String :=
  match session.dateStyle with
  | none => isoText (session.offset micros) micros.toInt
  | some text => text micros

/-- `to_char(v, 'YYYY-MM-DD"T"HH24:MI:SS.US"Z"')`, which writes local time with a `Z`. -/
def SessionFormat.toChar (session : SessionFormat) (micros : Int64) : String :=
  instantText (micros.toInt + session.offset micros * 1000000)

def SessionFormat.doubleText (session : SessionFormat) (f : F64) : String :=
  match session.shortened with
  | none => String.ofList f.text
  | some text => text f

structure FactRow where
  entityId : Int64
  attr : String
  value : String
  valueType : String
  tx : Int64
  txTime : Option Int64
  deriving DecidableEq, Repr

def factText (session : SessionFormat) (db : Db) : TypedValue → String
  | .ref id =>
    ((db.idents.find? fun r => r.entid = id).map IdentRow.ident).getD (toString id.toInt)
  | .boolean b => boolText b
  | .long n => toString n.toInt
  | .double f => session.doubleText f
  | .instant micros => session.text micros
  | .text s => s
  | .keyword s => ":" ++ s
  | .uuid u => String.ofList u.chars
  | .bytes bs => String.ofList (hexEncode bs)

def factRow (session : SessionFormat) (db : Db) (r : LogRow) : FactRow where
  entityId := r.e
  attr := ((db.cache.getAttribute r.a).map SchemaRow.ident).getD ("entid:" ++ toString r.a.toInt)
  value := factText session db r.v
  valueType := r.v.valueType.name
  tx := r.tx
  txTime := (db.transactions.find? fun t => t.tx = r.tx).map TxRow.txInstant

def factsView (session : SessionFormat) (db : Db) : List FactRow :=
  ((db.log.filter LogRow.added).insertionSort fun x y => x.e < y.e ∨ x.e = y.e ∧ x.a ≤ y.a).map
    (factRow session db)

variable {db : Db} {a : Int64} {info : SchemaRow} {rows : List LogRow}

theorem mem_factsView {session : SessionFormat} {f : FactRow} :
    f ∈ factsView session db ↔ ∃ r ∈ db.log, r.added = true ∧ factRow session db r = f := by
  simp only [factsView, mem_map, mem_insertionSort, mem_filter, and_assoc]

/-- The rows of one entity and attribute, as a client selects them from the view. -/
def factsOf (session : SessionFormat) (db : Db) (e : Int64) (ident : String) : List FactRow :=
  (factsView session db).filter fun f => f.entityId = e ∧ f.attr = ident

/-- Four digits of a year and no era are read as a year of the common era. -/
def CommonEra (micros : Int) : Prop := 0 < (civilDate (micros / 86400000000)).1

/-- What a reader who knows the type takes a text for: a reference is named or numbered, a keyword
may have its colon, and an instant has the offset of its zone, or a `Z` for UTC. -/
def TextShows (db : Db) (text : String) : TypedValue → Prop
  | .ref id => (∃ row ∈ db.idents, row.ident = text ∧ row.entid = id) ∨
      parseInt text.toList = some id.toInt
  | .boolean b => text = "true" ∧ b = true ∨ text = "false" ∧ b = false
  | .long n => parseInt text.toList = some n.toInt
  | .double f => F64.parse text.toList = some f
  | .instant micros => (∃ offset, text = isoText offset micros.toInt) ∨
      text = instantText micros.toInt ∧ CommonEra micros.toInt
  | .text s => text = s
  | .keyword s => text = ":" ++ s ∨ text = s
  | .uuid u => Uuid.parse text.toList = some u
  | .bytes bs => hexDecode text.toList = some bs

/-- The session writes an instant in the ISO style and in UTC, and a double with all its digits. -/
def SessionFormat.SpellsOut (session : SessionFormat) : TypedValue → Prop
  | .instant micros =>
    session.dateStyle.isNone ∧ session.offset micros = 0 ∧ CommonEra micros.toInt
  | .double _ => session.shortened.isNone
  | _ => True

theorem textShows_factText {session : SessionFormat} {v : TypedValue} (h : session.SpellsOut v) :
    TextShows db (factText session db v) v := by
  cases v with
  | ref id =>
    cases hfind : db.idents.find? fun r => r.entid = id with
    | none =>
      refine .inr ?_
      simp only [factText, hfind, Option.map_none, Option.getD_none, parseInt_toString]
    | some row =>
      refine .inl ⟨row, mem_of_find?_eq_some hfind, ?_, by simpa using find?_some hfind⟩
      simp only [factText, hfind, Option.map_some, Option.getD_some]
  | boolean b => cases b <;> simp [TextShows, factText, boolText]
  | long n => exact parseInt_toString n.toInt
  | double f =>
    simp only [factText, SessionFormat.doubleText, Option.isNone_iff_eq_none.mp h]
    simpa [TextShows] using F64.parse_text f
  | instant micros =>
    refine .inl ⟨session.offset micros, ?_⟩
    simp only [factText, SessionFormat.text, Option.isNone_iff_eq_none.mp h.1]
  | text s => rfl
  | keyword s => exact .inl rfl
  | uuid u => simpa [TextShows, factText] using Uuid.parse_chars u
  | bytes bs => simpa [TextShows, factText] using hexDecode_hexEncode bs

def FactRow.Shows (db : Db) (f : FactRow) (v : TypedValue) : Prop :=
  TextShows db f.value v ∧ f.valueType = v.valueType.name

theorem factsOf_depicts (session : SessionFormat) (e : Int64)
    (hident : KeyUnique SchemaRow.ident db.schema)
    (hdeclared : ∀ r ∈ db.log, r.added = true → ∃ info, db.cache.getAttribute r.a = some info)
    (ha : db.cache.getAttribute a = some info)
    (hspelled : ∀ r ∈ db.log, r.e = e → r.a = a → r.added = true → session.SpellsOut r.v) :
    Depicts (FactRow.Shows db) (factsOf session db e info.ident) fun v =>
      ∃ r ∈ db.log, r.e = e ∧ r.a = a ∧ r.added = true ∧ r.v = v := by
  have hattr {r : LogRow} {info' : SchemaRow} (h : db.cache.getAttribute r.a = some info') :
      (factRow session db r).attr = info'.ident := by
    simp only [factRow, h, Option.map_some, Option.getD_some]
  constructor
  · intro f hf
    obtain ⟨hview, hcond⟩ := mem_filter.mp hf
    obtain ⟨r, hr, hadded, rfl⟩ := mem_factsView.mp hview
    obtain ⟨he, hname⟩ := of_decide_eq_true hcond
    obtain ⟨info', hinfo'⟩ := hdeclared r hr hadded
    have hra : r.a = a := eq_of_ident_eq hident ha hinfo' ((hattr hinfo').symm.trans hname)
    have hshows : TextShows db _ r.v := textShows_factText (hspelled r hr he hra hadded)
    exact ⟨r.v, ⟨r, hr, he, hra, hadded, rfl⟩, hshows, rfl⟩
  · rintro v ⟨r, hr, he, rfl, hadded, rfl⟩
    have hshows : TextShows db _ r.v := textShows_factText (hspelled r hr he rfl hadded)
    refine ⟨factRow session db r, mem_filter.mpr ⟨?_, ?_⟩, hshows, rfl⟩
    · exact mem_factsView.mpr ⟨r, hr, hadded, rfl⟩
    · exact decide_eq_true ⟨he, hattr ha⟩

def currentText (session : SessionFormat) : TypedValue → String
  | .ref id => toString id.toInt
  | .boolean b => boolText b
  | .long n => toString n.toInt
  | .double f => session.doubleText f
  | .instant micros => session.toChar micros
  | .text s => s
  | .keyword s => s
  | .uuid u => String.ofList u.chars
  | .bytes bs => String.ofList (hexEncode bs)

theorem textShows_currentText {session : SessionFormat} {v : TypedValue} (h : session.SpellsOut v) :
    TextShows db (currentText session v) v := by
  cases v with
  | ref id => exact .inr (parseInt_toString id.toInt)
  | instant micros =>
    obtain ⟨-, hoffset, hera⟩ := h
    refine .inr ⟨?_, hera⟩
    simp only [currentText, SessionFormat.toChar, hoffset, zero_mul, add_zero]
  | keyword s => exact .inr rfl
  -- the other values are spelled as in the view
  | boolean _ | long _ | double _ | text _ | uuid _ | bytes _ =>
    exact textShows_factText (show session.SpellsOut _ from h)

/-- `ORDER BY tx DESC LIMIT 1`. -/
def newestRow : List LogRow → Option LogRow
  | [] => none
  | r :: rest =>
    match newestRow rest with
    | some newest => if r.tx < newest.tx then some newest else some r
    | none => some r

/-- The table of the declared type, or all tables for an attribute that is not declared. -/
def mentatCurrent (session : SessionFormat) (scan : ScanOrder) (db : Db) (e a : Int64) :
    Option String :=
  let rows := (scan.log db.log).filter fun r => r.e = e ∧ r.a = a ∧ r.added ∧
    ∀ info ∈ db.cache.getAttribute a, r.v.valueType = info.valueType
  (newestRow rows).map fun r => currentText session r.v

theorem mem_of_newestRow {r : LogRow} (h : newestRow rows = some r) : r ∈ rows := by
  induction rows generalizing r with
  | nil => cases h
  | cons x rest ih =>
    unfold newestRow at h
    split at h
    · rename_i newest hnewest
      split at h <;> cases h
      · exact mem_cons_of_mem x (ih hnewest)
      · exact mem_cons_self
    · cases h
      exact mem_cons_self

theorem newestRow_eq_none : newestRow rows = none ↔ rows = [] := by
  cases rows with
  | nil => exact iff_of_true rfl rfl
  | cons x rest =>
    refine iff_of_false (fun h => ?_) (cons_ne_nil _ _)
    unfold newestRow at h
    split at h
    · split at h <;> cases h
    · cases h

theorem mentatCurrent_cases (session : SessionFormat) (scan : ScanOrder) (e : Int64)
    (ha : db.cache.getAttribute a = some info) :
    (∃ r ∈ db.log, r.e = e ∧ r.a = a ∧ r.added = true ∧ r.v.valueType = info.valueType ∧
      mentatCurrent session scan db e a = some (currentText session r.v)) ∨
    ((∀ r ∈ db.log, r.e = e → r.a = a → r.added = true → r.v.valueType ≠ info.valueType) ∧
      mentatCurrent session scan db e a = none) := by
  have hmem (r : LogRow) : r ∈ (scan.log db.log).filter (fun r => r.e = e ∧ r.a = a ∧ r.added ∧
      ∀ info ∈ db.cache.getAttribute a, r.v.valueType = info.valueType) ↔
      r ∈ db.log ∧ r.e = e ∧ r.a = a ∧ r.added = true ∧ r.v.valueType = info.valueType := by
    simp only [mem_filter, (scan.log_perm _).mem_iff, ha, Option.mem_def,
      Option.some.injEq, forall_eq', decide_eq_true_eq]
  cases hnewest : newestRow ((scan.log db.log).filter fun r => r.e = e ∧ r.a = a ∧ r.added ∧
      ∀ info ∈ db.cache.getAttribute a, r.v.valueType = info.valueType) with
  | some r =>
    obtain ⟨hr, he, hra, hadded, htype⟩ := (hmem r).mp (mem_of_newestRow hnewest)
    exact .inl ⟨r, hr, he, hra, hadded, htype, congrArg (Option.map _) hnewest⟩
  | none =>
    refine .inr ⟨fun r hr he hra hadded htype => ?_, congrArg (Option.map _) hnewest⟩
    have hin := (hmem r).mpr ⟨hr, he, hra, hadded, htype⟩
    rw [newestRow_eq_none.mp hnewest] at hin
    exact nomatch hin

end PgMentat

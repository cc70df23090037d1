import PgMentat.AsOf

namespace PgMentat

open LatestWins

/-- The value columns of `mentat.datoms`; `none` is `NULL`. -/
structure ValueColumns where
  vRef : Option Int64 := none
  vBool : Option Bool := none
  vLong : Option Int64 := none
  vDouble : Option F64 := none
  vText : Option String := none
  vKeyword : Option String := none
  vInstant : Option Int64 := none
  vUuid : Option Uuid := none
  vBytes : Option (List UInt8) := none
  deriving DecidableEq, Repr

def TypedValue.columns : TypedValue → ValueColumns
  | ref id => { vRef := some id }
  | boolean b => { vBool := some b }
  | long n => { vLong := some n }
  | double f => { vDouble := some f }
  | text s => { vText := some s }
  | keyword s => { vKeyword := some s }
  | instant micros => { vInstant := some micros }
  | uuid u => { vUuid := some u }
  | bytes bs => { vBytes := some bs }

structure DatomRow where
  e : Int64
  a : Int64
  valueTypeTag : Nat
  columns : ValueColumns
  tx : Int64
  added : Bool
  deriving DecidableEq, Repr

def LogRow.datom (r : LogRow) : DatomRow :=
  ⟨r.e, r.a, r.v.valueType.toTag, r.v.columns, r.tx, r.added⟩

/-- The tables one after the other. -/
def Db.datomsView (db : Db) : List DatomRow :=
  ValueType.all.flatMap fun t => (db.log.filter fun r => r.v.valueType = t).map LogRow.datom

/-- `mentat.resolve_ident`. -/
def Db.resolveKeyword (db : Db) (keyword : String) : Except String Int64 :=
  match db.idents.find? fun r => r.ident = keyword with
  | some r => .ok r.entid
  | none => .error ("Unknown keyword ident: " ++ keyword)

/-- A later row takes the assertion back. The columns of the value are compared by
`IS NOT DISTINCT FROM`. -/
def DatomRow.TakesBack (asOfTx : Int64) (r d : DatomRow) : Prop :=
  r.e = d.e ∧ r.a = d.a ∧ r.valueTypeTag = d.valueTypeTag ∧ r.tx ≤ asOfTx ∧ d.tx < r.tx ∧
    r.added = false ∧ r.columns = d.columns

instance decidableTakesBack (asOfTx : Int64) (r d : DatomRow) :
    Decidable (r.TakesBack asOfTx d) :=
  inferInstanceAs (Decidable (_ ∧ _ ∧ _ ∧ _ ∧ _ ∧ _ ∧ _))

/-- The rows that the `WHERE` keeps. -/
def Db.standingDatoms (db : Db) (eid attrEntid asOfTx : Int64) : List DatomRow :=
  db.datomsView.filter fun d => d.e = eid ∧ d.a = attrEntid ∧ d.tx ≤ asOfTx ∧ d.added = true ∧
    ¬ ∃ r ∈ db.datomsView, r.TakesBack asOfTx d

/-- `ORDER BY tx DESC LIMIT 1`. -/
def newestDatom (rows : List DatomRow) : Option DatomRow :=
  rows.find? fun d => ∀ z ∈ rows, z.tx ≤ d.tx

/-- An ident that is not known has raised before. -/
def datomValueAtTx (db : Db) (eid : Int64) (attrIdent : String) (asOfTx : Int64) :
    Except String (Option DatomRow) := do
  let attrEntid ← db.resolveKeyword attrIdent
  return newestDatom (db.standingDatoms eid attrEntid asOfTx)

/-- The latest row of its datom up to the transaction, and an assertion. -/
def Db.LiveAt (db : Db) (tx : Int64) (r : LogRow) : Prop :=
  HoldsAt LogRow.triple (fun r => r.tx.toInt) LogRow.added db.log tx.toInt r

/-- The value is read back from the column that is not `NULL`. -/
def ValueColumns.value? (c : ValueColumns) : Option TypedValue :=
  c.vRef.map .ref <|> c.vBool.map .boolean <|> c.vLong.map .long <|> c.vDouble.map .double <|>
    c.vText.map .text <|> c.vKeyword.map .keyword <|> c.vInstant.map .instant <|>
    c.vUuid.map .uuid <|> c.vBytes.map .bytes

section Rows

variable {db : Db} {eid a asOfTx : Int64} {r z : LogRow} {d : DatomRow}

theorem value?_columns (v : TypedValue) : v.columns.value? = some v := by
  cases v <;> rfl

theorem columns_inj {v w : TypedValue} (h : v.columns = w.columns) : v = w := by
  have hvalue := congrArg ValueColumns.value? h
  rwa [value?_columns, value?_columns, Option.some.injEq] at hvalue

theorem mem_datomsView : d ∈ db.datomsView ↔ ∃ r ∈ db.log, r.datom = d := by
  simp only [Db.datomsView, List.mem_flatMap, List.mem_map, List.mem_filter, decide_eq_true_eq]
  constructor
  · rintro ⟨t, -, r, ⟨hr, -⟩, rfl⟩
    exact ⟨r, hr, rfl⟩
  · rintro ⟨r, hr, rfl⟩
    exact ⟨_, ValueType.mem_all _, r, ⟨hr, rfl⟩, rfl⟩

theorem takesBack_datom_iff : z.datom.TakesBack asOfTx r.datom ↔
    z.triple = r.triple ∧ z.tx.toInt ≤ asOfTx.toInt ∧ r.tx.toInt < z.tx.toInt ∧
      z.added = false := by
  simp only [DatomRow.TakesBack, LogRow.datom, LogRow.triple, Prod.mk.injEq,
    ← Int64.le_iff_toInt_le, ← Int64.lt_iff_toInt_lt]
  constructor
  · rintro ⟨he, ha, -, hle, hlt, hadded, hcolumns⟩
    exact ⟨⟨he, ha, columns_inj hcolumns⟩, hle, hlt, hadded⟩
  · rintro ⟨⟨he, ha, hv⟩, hle, hlt, hadded⟩
    exact ⟨he, ha, by rw [hv], hle, hlt, hadded, by rw [hv]⟩

theorem mem_standingDatoms : d ∈ db.standingDatoms eid a asOfTx ↔
    ∃ r, Standing LogRow.triple (fun r => r.tx.toInt) LogRow.added db.log asOfTx.toInt r ∧
      r.e = eid ∧ r.a = a ∧ r.datom = d := by
  simp only [Db.standingDatoms, List.mem_filter, mem_datomsView, decide_eq_true_eq]
  constructor
  · rintro ⟨⟨r, hr, rfl⟩, he, ha, htx, hadded, hnone⟩
    refine ⟨r, ⟨hr, hadded, Int64.le_iff_toInt_le.mp htx, fun z hz hk hzt hlater => ?_⟩, he, ha,
      rfl⟩
    by_contra hflag
    exact hnone ⟨_, ⟨z, hz, rfl⟩,
      takesBack_datom_iff.mpr ⟨hk, hzt, hlater, eq_false_of_ne_true hflag⟩⟩
  · rintro ⟨r, ⟨hr, hadded, htx, hstands⟩, he, ha, rfl⟩
    refine ⟨⟨r, hr, rfl⟩, he, ha, Int64.le_iff_toInt_le.mpr htx, hadded, ?_⟩
    rintro ⟨_, ⟨z, hz, rfl⟩, hback⟩
    obtain ⟨hk, hzt, hlater, hflag⟩ := takesBack_datom_iff.mp hback
    rw [hstands z hz hk hzt hlater] at hflag
    cases hflag

end Rows

theorem of_mem_newestDatom {rows : List DatomRow} {d : DatomRow} (h : d ∈ newestDatom rows) :
    d ∈ rows ∧ ∀ z ∈ rows, z.tx ≤ d.tx :=
  ⟨List.mem_of_find?_eq_some h, by simpa using List.find?_some h⟩

theorem newestDatom_isSome {rows : List DatomRow} {d : DatomRow} (h : d ∈ rows) :
    (newestDatom rows).isSome := by
  obtain ⟨z, hz, -, hlatest⟩ : ∃ z ∈ rows, () = () ∧
      ∀ y ∈ rows, () = () → y.tx.toInt ≤ z.tx.toInt := exists_latest ⟨d, h, rfl⟩
  apply List.find?_isSome.mpr
  refine ⟨z, hz, ?_⟩
  simpa [Int64.le_iff_toInt_le] using hlatest

/-- A row is returned if and only if a datom of the entity and the attribute is live at the
transaction, and it is the one of them that was asserted last. -/
theorem datomValueAtTx_live (db : Db) (eid asOfTx : Int64) {ident : String} {a : Int64}
    (hident : db.resolveKeyword ident = .ok a) :
    ∃ result, datomValueAtTx db eid ident asOfTx = .ok result ∧
      (result.isSome ↔ ∃ r, db.LiveAt asOfTx r ∧ r.e = eid ∧ r.a = a) ∧
      ∀ d ∈ result, ∃ r, db.LiveAt asOfTx r ∧ r.e = eid ∧ r.a = a ∧ d = r.datom ∧
        ∀ r', db.LiveAt asOfTx r' → r'.e = eid → r'.a = a → r'.tx ≤ r.tx := by
  have hstanding (r : LogRow) (hlive : db.LiveAt asOfTx r) (he : r.e = eid) (ha : r.a = a) :
      r.datom ∈ db.standingDatoms eid a asOfTx :=
    mem_standingDatoms.mpr ⟨r, hlive.standing, he, ha, rfl⟩
  have hnewest : ∀ d ∈ newestDatom (db.standingDatoms eid a asOfTx),
      ∃ r, db.LiveAt asOfTx r ∧ r.e = eid ∧ r.a = a ∧ d = r.datom ∧
        ∀ r', db.LiveAt asOfTx r' → r'.e = eid → r'.a = a → r'.tx ≤ r.tx := by
    intro d hd
    obtain ⟨hmem, hlatest⟩ := of_mem_newestDatom hd
    obtain ⟨r, hr, he, ha, rfl⟩ := mem_standingDatoms.mp hmem
    have hmax (z : LogRow) (hz : z.datom ∈ db.standingDatoms eid a asOfTx) :
        z.datom.tx.toInt ≤ r.datom.tx.toInt :=
      Int64.le_iff_toInt_le.mp (hlatest z.datom hz)
    refine ⟨r, hr.holdsAt fun z hz hk => ?_, he, ha, rfl, fun r' hlive he' ha' => ?_⟩
    · simp only [LogRow.triple, Prod.mk.injEq] at hk
      exact hmax z (mem_standingDatoms.mpr ⟨z, hz, hk.1.trans he, hk.2.1.trans ha, rfl⟩)
    · exact Int64.le_iff_toInt_le.mpr (hmax r' (hstanding r' hlive he' ha'))
  refine ⟨_, by rw [datomValueAtTx, hident]; rfl, ?_, hnewest⟩
  constructor
  · intro hsome
    obtain ⟨d, hd⟩ := Option.isSome_iff_exists.mp hsome
    obtain ⟨r, hlive, he, ha, -⟩ := hnewest d hd
    exact ⟨r, hlive, he, ha⟩
  · rintro ⟨r, hlive, he, ha⟩
    exact newestDatom_isSome (hstanding r hlive he ha)

/-- A doc string that was replaced. -/
theorem datomValueAtTx_live_doc : ∃ db ∈ stateAfter [firstDoc, replaceDoc], ∃ d r,
    datomValueAtTx db 500 ":db/doc" 1000000000002 = .ok (some d) ∧
    d.columns.vText = some "second" ∧ db.LiveAt 1000000000002 r ∧ d = r.datom := by
  have hstate : ∃ db ∈ stateAfter [firstDoc, replaceDoc],
      db.resolveKeyword ":db/doc" = .ok Entids.dbDoc ∧
      ∃ d ∈ (datomValueAtTx db 500 ":db/doc" 1000000000002).toOption.join,
        d.columns.vText = some "second" := by
    decide +kernel
  obtain ⟨db, hdb, hident, d, hd, htext⟩ := hstate
  obtain ⟨result, hresult, -, hlive⟩ := datomValueAtTx_live db 500 1000000000002 hident
  rw [hresult] at hd
  have hd : d ∈ result := hd
  obtain ⟨r, hr, -, -, heq, -⟩ := hlive d hd
  exact ⟨db, hdb, d, r, hresult.trans (congrArg Except.ok hd), htext, hr, heq⟩

end PgMentat

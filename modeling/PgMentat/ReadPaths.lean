import PgMentat.Typing
import PgMentat.Read.Pull
import PgMentat.Read.Views

namespace PgMentat

open TextCodec TypedValue Depiction KeyedTable StatementProgram Program

theorem keyUnique_putSchema {schema : List SchemaRow} {row : SchemaRow}
    (h : KeyUnique SchemaRow.ident schema)
    (hfree : ¬ ∃ r ∈ schema, r.ident = row.ident ∧ r.entid ≠ row.entid) :
    KeyUnique SchemaRow.ident (put SchemaRow.entid schema row) := by
  have hnew {y : SchemaRow} (hy : y ∈ schema) (hne : y.entid ≠ row.entid) : y.ident ≠ row.ident :=
    fun heq => hfree ⟨y, hy, heq, hne⟩
  intro x hx y hy heq
  rcases mem_put.mp hx with rfl | ⟨hxold, hxne⟩ <;>
    rcases mem_put.mp hy with rfl | ⟨hyold, hyne⟩
  · rfl
  · exact absurd heq.symm (hnew hyold hyne)
  · exact absurd heq (hnew hxold hxne)
  · exact h x hxold y hyold heq

variable {s : Stmt} {b b' : Backend} {db : Db} {ops : List RowWrite} {a : Int64} {call : Call}

theorem schema_of_answer {x : s.Reply} (hs : ∀ row, s ≠ .upsertSchema row)
    (h : s.answer b db = .ok (x, b', ops)) : (server.writeAll db ops).schema = db.schema := by
  by_cases hro : s.ReadOnly
  · rw [writes_of_readOnly hro h]
    rfl
  · cases s <;> simp only [Stmt.ReadOnly, not_true_eq_false] at hro
    case upsertSchema row => exact absurd rfl (hs row)
    case deleteLogEa | deleteLogEav =>
      cases h
      rw [writeAll_delLog]
    case deleteCurrentEa | deleteCurrent =>
      cases h
      rw [writeAll_delCurrent]
    case insertLog =>
      simp only [Stmt.answer] at h
      split at h <;> cases h
      rw [writeAll_putLog]
    case upsertCurrent =>
      simp only [Stmt.answer] at h
      split at h <;> cases h
      rw [writeAll_putCurrent]
    case insertDatomsView =>
      cases h
      split <;> rfl
    case nextvalTx | selectBasis | insertFulltext =>
      cases h
      rfl
    case insertTransaction | upsertIdent =>
      simp only [Stmt.answer] at h
      split at h <;> cases h
      rfl

theorem keyUnique_of_answer {x : s.Reply} (hident : KeyUnique SchemaRow.ident db.schema)
    (h : s.answer b db = .ok (x, b', ops)) :
    KeyUnique SchemaRow.ident (server.writeAll db ops).schema := by
  by_cases hs : ∀ row, s ≠ .upsertSchema row
  · rwa [schema_of_answer hs h]
  · simp only [not_forall, not_not] at hs
    obtain ⟨row, rfl⟩ := hs
    simp only [Stmt.answer] at h
    split at h <;> cases h
    exact keyUnique_putSchema hident ‹_›

theorem ensures_keyUnique {α : Type} {p : Tx α} {b : Backend}
    (hident : KeyUnique SchemaRow.ident db.schema) :
    server.Ensures p b db fun _ _ db' => KeyUnique SchemaRow.ident db'.schema :=
  Server.ensures_of_answer (I := fun _ (db' : Db) => KeyUnique SchemaRow.ident db'.schema)
    (fun _ _ _ _ _ _ hI h => keyUnique_of_answer hI h) hident

theorem exists_entid_foldl_put {rows schema : List SchemaRow}
    (h : ∃ info ∈ schema, info.entid = a) :
    ∃ info ∈ rows.foldl (put SchemaRow.entid) schema, info.entid = a := by
  induction rows generalizing schema with
  | nil => exact h
  | cons row rows ih =>
    apply ih
    obtain ⟨info, hinfo, rfl⟩ := h
    by_cases heq : info.entid = row.entid
    · exact ⟨row, mem_put.mpr (.inl rfl), heq.symm⟩
    · exact ⟨info, mem_put.mpr (.inr ⟨hinfo, heq⟩), rfl⟩

structure Db.Catalogued (db : Db) : Prop extends db.LogSound where
  ident : KeyUnique SchemaRow.ident db.schema
  instant : ∃ info ∈ db.schema, info.entid = Entids.dbTxInstant
  declared : ∀ r ∈ db.log, r.added = true → ∃ info ∈ db.schema, info.entid = r.a

theorem exists_getAttribute {c : SchemaCache} (h : ∃ info ∈ c.schema, info.entid = a) :
    ∃ info, c.getAttribute a = some info := by
  obtain ⟨info, hinfo, heq⟩ := h
  cases hfind : c.getAttribute a with
  | some info' => exact ⟨info', rfl⟩
  | none =>
    have hnone := List.find?_eq_none.mp hfind info hinfo
    simp [heq] at hnone

theorem Committed.declared {db mid loop db' : Db} {rows : List LogRow}
    (h : Committed call db mid loop db' rows) (ha : ∃ info ∈ db.schema, info.entid = a) :
    ∃ info ∈ db'.schema, info.entid = a := by
  obtain ⟨changed, hchanged⟩ := h.mid_schema
  rw [h.schema_eq, hchanged]
  exact exists_entid_foldl_put ha

theorem Db.Catalogued.transact {db db' : Db} {report : TxReport} (hinv : db.Catalogued)
    (hcall : mentatTransact call db = .ok (report, db')) : db'.Catalogued := by
  obtain ⟨entities, ids, prepared, b, mid, b', hdoc, hbegin, -, hinsert⟩ :=
    mentatTransact_begin hcall
  obtain ⟨loop, rows, h⟩ := committed_of_begin hdoc hbegin hinsert
  have hmid : KeyUnique SchemaRow.ident mid.schema := ensures_keyUnique hinv.ident _ _ _ hbegin
  refine ⟨h.logSound hinv.toLogSound, ?_, h.declared hinv.instant, fun r hr hadded => ?_⟩
  · rw [h.schema_eq]
    exact hmid
  · rcases h.mem_log.mp hr with hr | ⟨hr, -⟩
    · obtain ⟨d, -, info, hc, rfl⟩ := (h.origin r (mem_of_mem_dedupRows hr)).of_added hadded
      obtain ⟨hmem, hentid⟩ := SchemaCache.mem_of_getAttribute hc.attr
      rw [h.schema_eq]
      exact ⟨info, hmem, hentid⟩
    · rcases h.mem_mid_log.mp (h.run.log_kept.1 r hr) with hr | ⟨rfl, -⟩
      · exact h.declared (hinv.declared r hr hadded)
      · exact h.declared hinv.instant

theorem catalogued_bootstrapDb : bootstrapDb.Catalogued where
  toLogSound := logSound_bootstrapDb
  ident := by decide +kernel
  instant := by decide +kernel
  declared := fun _ hr => nomatch hr

theorem catalogued_of_reaches {ok : Db → Call → Db → Prop} (hrun : Reaches ok bootstrapDb db) :
    db.Catalogued := by
  refine hrun.invariant (I := Db.Catalogued) ?_ catalogued_bootstrapDb
  intro mid db' call report hinv hcall _
  exact hinv.transact hcall

/-- A row of `[:find ?v ..]` shows a value if it has the value's own type and spelling. -/
def RowShows (row : List Json) : TypedValue → Prop
  | .ref id => row = [.integer id]
  | .boolean b => row = [.bool b]
  | .long n => row = [.integer n]
  | .double f => row = [.float f]
  | .instant micros => row = [.string (instantText micros.toInt)] ∧ CommonEra micros.toInt
  | .text s => row = [.string s]
  | .keyword s => row = [.string (":" ++ s)]
  | .uuid u => row = [.string (String.ofList u.chars)]
  | .bytes bs => row = [.string (String.ofList (hexEncode bs))]

/-- A double that survives the way through its bits, and an instant whose era goes without
saying. -/
def TypedValue.Portable (fmt : FloatFormat) : TypedValue → Prop
  | .double f => fmt.ofBits (fmt.bits f) = f
  | .instant micros => CommonEra micros.toInt
  | _ => True

def TypedValue.Plain (fmt : FloatFormat) (v : TypedValue) : Prop :=
  v.Exact ∧ v.Unguessed ∧ v.Portable fmt

theorem rowShows_json {fmt : FloatFormat} {v : TypedValue} (h : v.Plain fmt) :
    RowShows [v.json fmt] v := by
  obtain ⟨hexact, hunguessed, hportable⟩ := h
  have hstring {s : String} (h : ¬ Guessed s) : [decodeTextResult fmt s] = [.string s] :=
    congrArg (fun j => [j]) (decodeTextResult_eq_string.mpr ⟨rfl, h⟩)
  cases v with
  | ref id => exact congrArg (fun j => [j]) (json_ref id)
  | boolean b => exact congrArg (fun j => [j]) (json_boolean b)
  | long n => exact congrArg (fun j => [j]) (json_long n)
  | double f =>
    change fmt.ofBits (fmt.bits f) = f at hportable
    change [decodeTextResult fmt ("d:" ++ toString (fmt.bits f).toInt)] = [.float f]
    have hchars : ("d:" ++ toString (fmt.bits f).toInt).toList =
        "d:".toList ++ (toString (fmt.bits f).toInt).toList := String.toList_append
    have hstrip : strip "d:".toList ("d:" ++ toString (fmt.bits f).toInt).toList =
        some (toString (fmt.bits f).toInt).toList := by
      rw [hchars, strip, if_pos (List.prefix_append _ _), List.drop_left]
    simp only [decodeTextResult, hstrip, Option.bind_some, parseI64_toString, hportable]
    exact congrArg (fun j => [j]) hexact
  | instant micros => exact ⟨hstring (not_guessed_instant _), hportable⟩
  | text s => exact hstring hunguessed
  | keyword s => exact hstring (not_guessed_keyword s)
  | uuid u => exact hstring (not_guessed_uuid u)
  | bytes bs => exact hstring hunguessed

/-- Nothing that was asserted for the attribute on the entity has been retracted or replaced
since; its live values have the declared type, are one for a single-valued attribute, and are
spelled unmistakably; no attribute is called `:db/id`, and no instant is out of reach. -/
structure Db.Settled (fmt : FloatFormat) (session : SessionFormat) (db : Db) (e : Int64)
    (info : SchemaRow) : Prop where
  asserted : ∀ r ∈ db.log, r.e = e → r.a = info.entid → r.added = true → db.Live r.triple
  typed : ∀ x ∈ db.current, x.e = e → x.a = info.entid → x.v.valueType = info.valueType
  single : info.cardinality = .one → ∀ x ∈ db.current, ∀ y ∈ db.current, x.e = e →
    x.a = info.entid → y.e = e → y.a = info.entid → x.v = y.v
  plain : ∀ x ∈ db.current, x.e = e → x.a = info.entid → x.v.Plain fmt
  spelled : ∀ x ∈ db.current, x.e = e → x.a = info.entid → session.SpellsOut x.v
  named : ∀ row ∈ db.schema, row.ident ≠ ":db/id"
  extractable : ∀ r ∈ db.log, r.v.Extractable

/-- What every path reports for the attribute on the entity are its live values. -/
structure ReadsAgree (fmt : FloatFormat) (maxRows : Nat) (session : SessionFormat)
    (scan : ScanOrder) (db : Db) (e : Int64) (attr : PatternNonValuePlace) (info : SchemaRow) :
    Prop where
  entity : ∃ m, mentatEntity scan db e = .ok m ∧
    Depicts (Shows db.cache) (m.values info.ident) fun v => db.Live (e, info.entid, v)
  pull : ∃ m, mentatPullAll scan db e = .ok m ∧
    Depicts (Shows db.cache) (m.values info.ident) fun v => db.Live (e, info.entid, v)
  query : ∃ rows, mentatQuery fmt maxRows {} (valueQuery e attr) db =
      (if 0 < maxRows ∧ maxRows < rows.length then .error (.resultLimitExceeded maxRows)
      else .ok rows) ∧
    Depicts RowShows rows fun v => db.Live (e, info.entid, v)
  facts : Depicts (FactRow.Shows db) (factsOf session db e info.ident) fun v =>
    db.Live (e, info.entid, v)
  current : info.cardinality = .one →
    (∀ v, db.Live (e, info.entid, v) →
      ∃ text, mentatCurrent session scan db e info.entid = some text ∧ TextShows db text v) ∧
    ((∀ v, ¬ db.Live (e, info.entid, v)) → mentatCurrent session scan db e info.entid = none)

section Settled

variable {fmt : FloatFormat} {session : SessionFormat} {db : Db} {e : Int64} {info : SchemaRow}

theorem live_iff {a : Int64} {v : TypedValue} :
    db.Live (e, a, v) ↔ ∃ x ∈ db.current, x.e = e ∧ x.a = a ∧ x.v = v := by
  simp only [Db.Live, CurrentRow.triple, Prod.mk.injEq]

theorem Db.Settled.asserted_iff (h : db.Settled fmt session e info) (hinv : db.Catalogued)
    (v : TypedValue) :
    (∃ r ∈ db.log, r.e = e ∧ r.a = info.entid ∧ r.added = true ∧ r.v = v) ↔
      db.Live (e, info.entid, v) := by
  constructor
  · rintro ⟨r, hr, he, ha, hadded, rfl⟩
    have hlive := h.asserted r hr he ha hadded
    rwa [LogRow.triple, he, ha] at hlive
  · intro hlive
    obtain ⟨r, hr, hadded, htriple⟩ := hinv.live e info.entid v hlive
    simp only [LogRow.triple, Prod.mk.injEq] at htriple
    exact ⟨r, hr, htriple.1, htriple.2.1, hadded, htriple.2.2⟩

theorem Db.Settled.current_extractable (h : db.Settled fmt session e info) (hinv : db.Catalogued)
    {x : CurrentRow} (hx : x ∈ db.current) : x.v.Extractable := by
  obtain ⟨r, hr, -, htriple⟩ := hinv.live x.e x.a x.v ⟨x, hx, rfl⟩
  simp only [LogRow.triple, Prod.mk.injEq] at htriple
  rw [← htriple.2.2]
  exact h.extractable r hr

theorem forall_live {p : TypedValue → Prop}
    (h : ∀ x ∈ db.current, x.e = e → x.a = info.entid → p x.v) {v : TypedValue}
    (hlive : db.Live (e, info.entid, v)) : p v := by
  obtain ⟨x, hx, he, ha, rfl⟩ := live_iff.mp hlive
  exact h x hx he ha

theorem Db.Settled.query (h : db.Settled fmt session e info) (hidents : db.PlainIdents)
    {attr : PatternNonValuePlace} (hconst : attr.IsConstant)
    (hdenotes : ∀ σ, attr.Denotes db.attributeNamed σ info.entid)
    (ha : db.cache.getAttribute info.entid = some info) (maxRows : Nat) :
    ∃ rows, mentatQuery fmt maxRows {} (valueQuery e attr) db =
        (if 0 < maxRows ∧ maxRows < rows.length then .error (.resultLimitExceeded maxRows)
        else .ok rows) ∧
      Depicts RowShows rows fun v => db.Live (e, info.entid, v) := by
  obtain ⟨s, hbuild, hacc⟩ := valueQuery_build (e := e) hconst hdenotes
  have hshows {v : TypedValue} (hlive : db.Live (e, info.entid, v)) : RowShows [v.json fmt] v :=
    rowShows_json (forall_live h.plain hlive)
  have htype : db.declaredType info.entid = some info.valueType := congrArg (Option.map _) ha
  refine ⟨s.json fmt db, mentatQuery_eq hbuild hacc, fun row hrow => ?_, fun v hlive => ?_⟩
  · obtain ⟨x, hx, he, hxa, -, rfl⟩ :=
      (mem_valueQuery_row hidents hconst hdenotes hbuild hacc).mp hrow
    have hlive : db.Live (e, info.entid, x.v) := live_iff.mpr ⟨x, hx, he, hxa, rfl⟩
    exact ⟨x.v, hlive, hshows hlive⟩
  · refine ⟨[v.json fmt], ?_, hshows hlive⟩
    apply (mem_valueQuery_row hidents hconst hdenotes hbuild hacc).mpr
    obtain ⟨x, hx, he, hxa, rfl⟩ := live_iff.mp hlive
    refine ⟨x, hx, he, hxa, fun t ht => ?_, rfl⟩
    rw [h.typed x hx he hxa]
    exact Option.some.inj (htype.symm.trans ht)

theorem Db.Settled.newest (h : db.Settled fmt session e info) (hinv : db.Catalogued)
    (ha : db.cache.getAttribute info.entid = some info) (scan : ScanOrder)
    (hone : info.cardinality = .one) :
    (∀ v, db.Live (e, info.entid, v) →
      ∃ text, mentatCurrent session scan db e info.entid = some text ∧ TextShows db text v) ∧
    ((∀ v, ¬ db.Live (e, info.entid, v)) → mentatCurrent session scan db e info.entid = none) := by
  rcases mentatCurrent_cases session scan e ha with
    ⟨r, hr, he, hra, hadded, -, hcurrent⟩ | ⟨hnone, hcurrent⟩
  · have hlive := (h.asserted_iff hinv r.v).mp ⟨r, hr, he, hra, hadded, rfl⟩
    refine ⟨fun v hv => ?_, fun hempty => absurd hlive (hempty r.v)⟩
    obtain ⟨x, hx, hxe, hxa, rfl⟩ := live_iff.mp hv
    obtain ⟨y, hy, hye, hya, hyv⟩ := live_iff.mp hlive
    refine ⟨_, hcurrent, ?_⟩
    rw [h.single hone x hx y hy hxe hxa hye hya, hyv]
    exact textShows_currentText (forall_live h.spelled hlive)
  · refine ⟨fun v hv => ?_, fun _ => hcurrent⟩
    obtain ⟨r, hr, he, hra, hadded, rfl⟩ := (h.asserted_iff hinv v).mpr hv
    have htype : r.v.valueType = info.valueType :=
      forall_live (p := fun v => v.valueType = info.valueType) h.typed hv
    exact absurd htype (hnone r hr he hra hadded)

end Settled

/-- In every state that successful calls reach, all read paths agree with the projection on a
settled attribute of an entity. -/
theorem readsAgree_of_settled {ok : Db → Call → Db → Prop} {db : Db} {fmt : FloatFormat}
    {e : Int64} {attr : PatternNonValuePlace} {info : SchemaRow} (maxRows : Nat)
    (session : SessionFormat) (scan : ScanOrder) (hrun : Reaches ok bootstrapDb db)
    (ha : db.cache.getAttribute info.entid = some info) (hidents : db.PlainIdents)
    (hconst : attr.IsConstant) (hdenotes : ∀ σ, attr.Denotes db.attributeNamed σ info.entid)
    (hsettled : db.Settled fmt session e info) :
    ReadsAgree fmt maxRows session scan db e attr info := by
  have hinv := catalogued_of_reaches hrun
  constructor
  · obtain ⟨m, hm, hvalues⟩ := mentatEntity_ok scan e hinv.ident hsettled.named
      hsettled.extractable
    refine ⟨m, hm, (hvalues info.entid info ha ?_).congr (hsettled.asserted_iff hinv)⟩
    intro r hr he hra hadded
    have hlive := (hsettled.asserted_iff hinv r.v).mp ⟨r, hr, he, hra, hadded, rfl⟩
    exact (forall_live hsettled.plain hlive).1
  · obtain ⟨m, hm, hpulled⟩ := mentatPullAll_ok scan e hinv.ident hsettled.named
      fun x hx => hsettled.current_extractable hinv hx
    refine ⟨m, hm, ?_⟩
    have hexact : ∀ x ∈ db.current, x.e = e → x.a = info.entid → x.v.Exact :=
      fun x hx he hxa => (hsettled.plain x hx he hxa).1
    exact (hpulled.values info.entid info ha hexact hsettled.single).congr fun v => live_iff.symm
  · exact hsettled.query hidents hconst hdenotes ha maxRows
  · have hdeclared : ∀ r ∈ db.log, r.added = true →
        ∃ info, db.cache.getAttribute r.a = some info :=
      fun r hr hadded => exists_getAttribute (hinv.declared r hr hadded)
    refine (factsOf_depicts session e hinv.ident hdeclared ha ?_).congr
      (hsettled.asserted_iff hinv)
    intro r hr he hra hadded
    exact forall_live hsettled.spelled
      ((hsettled.asserted_iff hinv r.v).mp ⟨r, hr, he, hra, hadded, rfl⟩)
  · exact hsettled.newest hinv ha scan

instance : ∀ v : TypedValue, Decidable v.Unguessed
  | .text s => inferInstanceAs (Decidable (¬ Guessed s))
  | .bytes bs => inferInstanceAs (Decidable (¬ Guessed (String.ofList (hexEncode bs))))
  | .ref _ | .boolean _ | .long _ | .double _ | .keyword _ | .instant _ | .uuid _ => isTrue trivial

instance (fmt : FloatFormat) : ∀ v : TypedValue, Decidable (v.Portable fmt)
  | .double f => inferInstanceAs (Decidable (fmt.ofBits (fmt.bits f) = f))
  | .instant _ => inferInstanceAs (Decidable (0 < _))
  | .ref _ | .boolean _ | .long _ | .text _ | .keyword _ | .uuid _ | .bytes _ => isTrue trivial

instance (session : SessionFormat) : ∀ v : TypedValue, Decidable (session.SpellsOut v)
  | .instant micros => inferInstanceAs (Decidable (session.dateStyle.isNone ∧
      session.offset micros = 0 ∧ 0 < (civilDate (micros.toInt / 86400000000)).1))
  | .double _ => inferInstanceAs (Decidable (session.shortened.isNone = true))
  | .ref _ | .boolean _ | .long _ | .text _ | .keyword _ | .uuid _ | .bytes _ => isTrue trivial

instance (fmt : FloatFormat) (v : TypedValue) : Decidable (v.Plain fmt) :=
  inferInstanceAs (Decidable (v.Exact ∧ v.Unguessed ∧ v.Portable fmt))

/-- The conditions on one live row, and on two. -/
instance (fmt : FloatFormat) (session : SessionFormat) (db : Db) (e : Int64) (info : SchemaRow) :
    Decidable (∀ x ∈ db.current, x.e = e → x.a = info.entid →
      x.v.valueType = info.valueType ∧ x.v.Plain fmt ∧ session.SpellsOut x.v ∧
      (info.cardinality = .one →
        ∀ y ∈ db.current, y.e = e → y.a = info.entid → x.v = y.v)) :=
  inferInstance

instance (fmt : FloatFormat) (session : SessionFormat) (db : Db) (e : Int64) (info : SchemaRow) :
    Decidable (db.Settled fmt session e info) :=
  decidable_of_iff
    ((∀ r ∈ db.log, r.e = e → r.a = info.entid → r.added = true → db.Live r.triple) ∧
      (∀ x ∈ db.current, x.e = e → x.a = info.entid →
        x.v.valueType = info.valueType ∧ x.v.Plain fmt ∧ session.SpellsOut x.v ∧
        (info.cardinality = .one →
          ∀ y ∈ db.current, y.e = e → y.a = info.entid → x.v = y.v)) ∧
      (∀ row ∈ db.schema, row.ident ≠ ":db/id") ∧ ∀ r ∈ db.log, r.v.Extractable)
    ⟨fun ⟨hlog, hrows, hnamed, hextract⟩ => {
        asserted := hlog
        typed := fun x hx he ha => (hrows x hx he ha).1
        single := fun hone x hx y hy he ha => (hrows x hx he ha).2.2.2 hone y hy
        plain := fun x hx he ha => (hrows x hx he ha).2.1
        spelled := fun x hx he ha => (hrows x hx he ha).2.2.1
        named := hnamed
        extractable := hextract },
      fun h => ⟨h.asserted, fun x hx he ha => ⟨h.typed x hx he ha, h.plain x hx he ha,
        h.spelled x hx he ha, fun hone y hy => h.single hone x hx y hy he ha⟩,
      h.named, h.extractable⟩⟩

def utcSession : SessionFormat := ⟨fun _ => 0, none, none⟩

def txInstantAttribute : PatternNonValuePlace := .ident (.namespaced "db" "txInstant")

/-- A doc string that was given once, and the instant of its transaction. -/
theorem readsAgree_of_settled_doc :
    ∃ db doc instant, stateAfter [describeCall] = some db ∧
      doc.ident = ":db/doc" ∧ db.Live (500, doc.entid, .text "x") ∧
      ReadsAgree noDoubles 0 utcSession .heap db 500 docAttribute doc ∧
      instant.ident = ":db/txInstant" ∧
      db.Live (1000000000001, instant.entid, .instant 1735689600000000) ∧
      ReadsAgree noDoubles 0 utcSession .heap db 1000000000001 txInstantAttribute instant := by
  have hmeets : RunMeets (fun d call _ => TxIncreasing d call) [describeCall] bootstrapDb := by
    decide +kernel
  have hstate : ∃ db, stateAfter [describeCall] = some db ∧ db.PlainIdents ∧
      (∃ doc ∈ db.cache.getAttribute Entids.dbDoc, doc.entid = Entids.dbDoc ∧
        doc.ident = ":db/doc" ∧ db.attributeNamed (.namespaced "db" "doc") = some doc.entid ∧
        db.Live (500, doc.entid, .text "x") ∧ db.Settled noDoubles utcSession 500 doc) ∧
      ∃ instant ∈ db.cache.getAttribute Entids.dbTxInstant, instant.entid = Entids.dbTxInstant ∧
        instant.ident = ":db/txInstant" ∧
        db.attributeNamed (.namespaced "db" "txInstant") = some instant.entid ∧
        db.Live (1000000000001, instant.entid, .instant 1735689600000000) ∧
        db.Settled noDoubles utcSession 1000000000001 instant := by
    decide +kernel
  obtain ⟨db, hdb, hrun, hidents, ⟨doc, hdoc, hentid, hname, hnamed, hlive, hsettled⟩, instant,
    hinstant, hentid', hname', hnamed', hlive', hsettled'⟩ := hmeets.exists_reaches hstate
  refine ⟨db, doc, instant, hdb, hname, hlive, ?_, hname', hlive', ?_⟩
  · exact readsAgree_of_settled 0 utcSession .heap hrun (hentid ▸ hdoc) hidents trivial
      (fun _ => hnamed) hsettled
  · exact readsAgree_of_settled 0 utcSession .heap hrun (hentid' ▸ hinstant) hidents trivial
      (fun _ => hnamed') hsettled'

def describe (txId : Int64) (op : EdnValue) : Call := plainCall txId 1735689600000000 [op]

/-- `"a"`, then `"b"` in its place. -/
def docReplaced : List Call :=
  [describe 1000000000001 (addDatom 500 Entids.dbDoc (.text "a")),
   describe 1000000000002 (addDatom 500 Entids.dbDoc (.text "b"))]

/-- `as_str`. -/
def JsonValue.asStr : JsonValue → Option String
  | .scalar (.string s) => some s
  | _ => none

/-- A doc string that was replaced is still reported by the entity and by `facts`. One that was
retracted is still the current value. -/
theorem reads_disagree :
    (∃ db m, stateAfter docReplaced = some db ∧
      (db.current.filter fun x => x.e = 500 ∧ x.a = Entids.dbDoc).map CurrentRow.v = [.text "b"] ∧
      mentatEntity .heap db 500 = .ok m ∧
      (m.values ":db/doc").map JsonValue.asStr = [some "a", some "b"] ∧
      (factsOf utcSession db 500 ":db/doc").map FactRow.value = ["a", "b"]) ∧
    ∃ db, stateAfter (docReplaced ++
        [describe 1000000000003 (retractDatom 500 Entids.dbDoc (.text "b"))]) = some db ∧
      (db.current.filter fun x => x.e = 500 ∧ x.a = Entids.dbDoc) = [] ∧
      mentatCurrent utcSession .heap db 500 Entids.dbDoc = some "b" := by
  constructor
  · have hstate : ∃ db, stateAfter docReplaced = some db ∧
        (db.current.filter fun x => x.e = 500 ∧ x.a = Entids.dbDoc).map CurrentRow.v =
          [.text "b"] ∧
        ∃ m, mentatEntity .heap db 500 = .ok m ∧
          (m.values ":db/doc").map JsonValue.asStr = [some "a", some "b"] ∧
          (factsOf utcSession db 500 ":db/doc").map FactRow.value = ["a", "b"] := by
      decide +kernel
    obtain ⟨db, hdb, hlive, m, hm⟩ := hstate
    exact ⟨db, m, hdb, hlive, hm⟩
  · decide +kernel

end PgMentat

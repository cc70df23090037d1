import PgMentat.QueryResults
import PgMentat.Naming

namespace PgMentat

open List TypedValue StatementProgram Program Server KeyedTable

def SchemaCache.declaredType (c : SchemaCache) (a : Int64) : Option ValueType :=
  (c.getAttribute a).map SchemaRow.valueType

def LogRow.Typed (c : SchemaCache) (r : LogRow) : Prop := c.declaredType r.a = some r.v.valueType

def Call.RetractsTyped (call : Call) (db : Db) : Prop :=
  ∀ d ∈ call.pending db, d.added = false → (d.row call.backend.txId).Typed (call.cache db)

/-- `:db/txInstant` and the attributes that have rows keep their type. -/
def Call.KeepsTypes (call : Call) (db : Db) : Prop :=
  ∀ a ∈ Entids.dbTxInstant :: db.log.map LogRow.a, ∀ t ∈ db.declaredType a,
    (call.cache db).declaredType a = some t

instance (c : SchemaCache) (r : LogRow) : Decidable (r.Typed c) :=
  inferInstanceAs (Decidable (_ = _))

instance (call : Call) (db : Db) : Decidable (call.RetractsTyped db) :=
  inferInstanceAs (Decidable (∀ d ∈ call.pending db, d.added = false →
    (d.row call.backend.txId).Typed (call.cache db)))

instance (call : Call) (db : Db) : Decidable (call.KeepsTypes db) :=
  List.decidableBAll (fun a => ∀ t ∈ db.declaredType a, (call.cache db).declaredType a = some t) _

section Commit

variable {call : Call} {db mid loop db' : Db} {rows : List LogRow}

theorem Checked.typed {c : SchemaCache} {all : List PendingDatom} {d : PendingDatom}
    {info : SchemaRow} (h : Checked c all d info) : c.declaredType d.a = some d.v.valueType := by
  rw [SchemaCache.declaredType, h.attr, h.type_eq]
  rfl

/-- The rows of a class that were typed before, with those of the class that the call retracts
explicitly, are typed after it. -/
theorem Committed.typed (h : Committed call db mid loop db' rows) {sel : LogRow → Prop}
    (hinstant : db'.declaredType Entids.dbTxInstant = some .instant)
    (hold : ∀ r ∈ db.log, sel r → r.Typed db'.cache)
    (hretract : ∀ d ∈ call.pending db, d.added = false → sel (d.row call.backend.txId) →
      (d.row call.backend.txId).Typed db'.cache) :
    ∀ r ∈ db'.log, sel r → r.Typed db'.cache := by
  intro r hr hsel
  rcases h.mem_log.mp hr with hr | ⟨hr, -⟩
  · rw [h.cache_eq] at hretract ⊢
    -- a row of the call: only explicit retractions have not been checked
    cases h.origin r (mem_of_mem_dedupRows hr) with
    | retracted hd hadded => exact hretract _ hd hadded hsel
    | asserted hd hc => exact hc.typed
    | replaced hd hc _ _ _ _ _ _ hread =>
      exact hc.typed.trans (congrArg some (valueType_of_parseFromTag hread).symm)
  · rcases h.mem_mid_log.mp (h.run.log_kept.1 r hr) with hr | ⟨rfl, -⟩
    · exact hold r hr hsel
    · exact hinstant

/-- Every row of the log lies in the table of the type that its attribute declares. -/
structure Db.WellTyped (db : Db) : Prop extends db.LogSound where
  instant : db.declaredType Entids.dbTxInstant = some .instant
  log : ∀ r ∈ db.log, r.Typed db.cache

theorem Committed.wellTyped (h : Committed call db mid loop db' rows) (hinv : db.WellTyped)
    (hkeeps : call.KeepsTypes db) (hretracts : call.RetractsTyped db) : db'.WellTyped := by
  rw [Call.RetractsTyped, h.cache_mid, ← h.cache_eq] at hretracts
  rw [Call.KeepsTypes, h.cache_mid, ← h.cache_eq] at hkeeps
  have hinstant : db'.declaredType Entids.dbTxInstant = some .instant :=
    hkeeps _ List.mem_cons_self _ hinv.instant
  have hold (r : LogRow) (hr : r ∈ db.log) : r.Typed db'.cache := by
    apply hkeeps r.a _ _ (hinv.log r hr)
    exact List.mem_cons_of_mem _ (List.mem_map_of_mem hr)
  have htyped : ∀ r ∈ db'.log, True → r.Typed db'.cache :=
    h.typed hinstant (fun r hr _ => hold r hr) fun d hd hadded _ => hretracts d hd hadded
  exact ⟨h.logSound hinv.toLogSound, hinstant, fun r hr => htyped r hr trivial⟩

end Commit

theorem Db.WellTyped.current {db : Db} (h : db.WellTyped) {x : CurrentRow} (hx : x ∈ db.current) :
    db.declaredType x.a = some x.v.valueType := by
  obtain ⟨r, hr, -, hk⟩ := h.toLogSound.live x.e x.a x.v ⟨x, hx, rfl⟩
  simp only [LogRow.triple, Prod.mk.injEq] at hk
  have htyped : db.declaredType r.a = some r.v.valueType := h.log r hr
  rwa [hk.2.1, hk.2.2] at htyped

theorem wellTyped_bootstrapDb : bootstrapDb.WellTyped :=
  ⟨logSound_bootstrapDb, rfl, fun _ hr => nomatch hr⟩

section Idents

/-- The keywords among the values of an entity of a document. -/
def EdnValue.keywordValues : EdnValue → List Keyword
  | .vector (_ :: _ :: _ :: .keyword k :: _) => [k]
  | .map entries => entries.filterMap fun
      | (_, .keyword k) => some k
      | _ => none
  | _ => []

/-- No keyword of these has two colons in front: the reader of documents makes none. -/
def SingleColons (entities : List EdnValue) : Prop :=
  ∀ entity ∈ entities, ∀ k ∈ entity.keywordValues, k.display.toList[1]? ≠ some ':'

instance (entities : List EdnValue) : Decidable (SingleColons entities) :=
  inferInstanceAs (Decidable (∀ entity ∈ entities, ∀ k ∈ entity.keywordValues, _))

def Call.SingleColons (call : Call) : Prop :=
  match call.document with
  | .vector entities => PgMentat.SingleColons entities
  | _ => True

instance (call : Call) : Decidable call.SingleColons := by
  unfold Call.SingleColons
  split <;> infer_instance

variable {db : Db} {b : Backend} {builders : EntidMap SchemaBuilder} {entities : List EdnValue}

theorem Scanned.singleColons {scan : ScanOrder} {st : ScanState}
    (h : Scanned scan db entities.zipIdx st) (hcolons : SingleColons entities) :
    ∀ e ident, BuilderNames st.builders e ident → ident.toList[1]? ≠ some ':' := by
  intro e ident hb
  obtain ⟨entity, hentity, k, hnames, rfl⟩ := h.named e ident hb
  refine hcolons _ (fst_mem_of_mem_zipIdx hentity) k ?_
  cases hnames with
  | add => exact mem_singleton_self k
  | map _ hentry => exact mem_filterMap.mpr ⟨_, hentry, rfl⟩

theorem installSchemaAttributes_plainIdents (h : db.PlainIdents)
    (hcolons : ∀ e ident, BuilderNames builders e ident → ident.toList[1]? ≠ some ':') :
    server.Ensures (installSchemaAttributes builders) b db fun _ _ mid => mid.PlainIdents := by
  refine ensures_foldlM (fun _ (_ : Unit) (_ : Backend) (mid : Db) => mid.PlainIdents) h
    fun done entry rest _ b1 mid hxs hmid => ?_
  have hident {i : String} (hi : entry.2.ident = some i) : i.toList[1]? ≠ some ':' :=
    hcolons entry.1 i ⟨entry, hxs ▸ mem_append_right _ mem_cons_self, rfl, hi⟩
  have hput {i : String} (hi : entry.2.ident = some i) :
      server.Ensures (spi (.upsertIdent ⟨i, entry.1⟩)) b1 mid
        fun _ _ db' => db'.PlainIdents := by
    refine (ensures_issue _).mpr fun _ b2 ops hans => ?_
    simp only [server, Stmt.answer] at hans
    split at hans <;> cases hans
    refine ⟨hmid.1, fun r hr => ?_⟩
    rcases mem_put.mp hr with rfl | ⟨hr, -⟩
    · exact hident hi
    · exact hmid.2 r hr
  rw [ensures_bind, ensures_ofExcept]
  intro plan hplan
  cases planned_of_planInstallation hplan with
  | nothing => exact (ensures_ret _).mpr hmid
  | named hi => exact hput hi
  | declared hi _ hrow =>
    rw [install, ensures_bind]
    refine (hput hi).mono fun _ b2 db2 h2 => (ensures_issue _).mpr fun _ b3 ops hans => ?_
    simp only [server, Stmt.answer] at hans
    split at hans <;> cases hans
    refine ⟨fun r hr => ?_, h2.2⟩
    rcases mem_put.mp hr with rfl | ⟨hr, -⟩
    · exact hrow ▸ hident hi
    · exact h2.1 r hr

theorem beginTransaction_plainIdents {depth : Nat} (h : db.PlainIdents)
    (hcolons : SingleColons entities) :
    server.Ensures (beginTransaction depth entities) b db fun _ _ mid => mid.PlainIdents := by
  have hread {α : Type} {p : Tx α} {b db} (hp : p.Only Stmt.ReadOnly) :
      server.Ensures p b db fun _ _ db' => db' = db := ensures_readOnly hp
  unfold beginTransaction prepareDatoms
  simp only [ensures_bind]
  refine (allocateTxId_ensures _ _).mono fun ids b1 db1 h1 => ?_
  refine (recordTxInstant_ensures _ _ _ _).mono fun _ b2 db2 h2 => ?_
  have hdb2 : db2.PlainIdents := by
    rw [h2, h1.2.2.2.2]
    exact h
  refine (ensures_issue _).mpr fun before b3 ops hans => ?_
  cases hans
  rw [writeAll_nil]
  refine (scanEntities_ensures entities).mono fun scan b4 db4 h4 => ?_
  rw [h4.2.1]
  refine (installSchemaAttributes_plainIdents hdb2 (h4.2.2.singleColons hcolons)).mono ?_
  intro _ b5 db5 h5
  refine (hread ((only_issue Stmt.selectSchema).mpr trivial)).mono fun cache b6 db6 h6 => ?_
  refine (hread (expandEntities_only _ _ _ _)).mono fun expanded b7 db7 h7 => ?_
  refine (hread (resolveUpserts_only _ _)).mono fun resolved b8 db8 h8 => ?_
  rw [h8, h7, h6]
  exact (ensures_ret _).mpr ((ensures_ret _).mpr h5)

theorem plainIdents_of_reaches
    (hrun : Reaches (fun _ call _ => call.SingleColons) bootstrapDb db) : db.PlainIdents := by
  refine hrun.invariant (I := Db.PlainIdents) ?_ (by decide +kernel)
  intro mid db' call report hmid hcall hcolons
  obtain ⟨entities, ids, prepared, b, begun, b', hdoc, hbegin, -, hinsert⟩ :=
    mentatTransact_begin hcall
  obtain ⟨_, rows, h⟩ := committed_of_begin hdoc hbegin hinsert
  rw [Call.SingleColons, hdoc] at hcolons
  rw [Db.PlainIdents, h.schema_eq, h.idents_eq]
  exact beginTransaction_plainIdents hmid hcolons _ _ _ hbegin

end Idents

/-- In a run whose calls keep the types of attributes that have rows and retract values of the
declared types only, every row lies in the table of the declared type, and every live value is
seen by a pattern that names its attribute and returned by a query with that pattern. -/
theorem rows_typed_of_keepsTypes {db : Db}
    (hrun : Reaches (fun d call _ => call.KeepsTypes d ∧ call.RetractsTyped d) bootstrapDb db) :
    (∀ r ∈ db.log, ∀ t ∈ db.declaredType r.a, r.v.valueType = t) ∧
    (Reaches (fun _ call _ => call.SingleColons) bootstrapDb db → db.PlainIdents) ∧
    ∀ x ∈ db.current, db.PlainIdents → ∀ attr : PatternNonValuePlace, attr.IsConstant →
      (∀ σ, attr.Denotes db.attributeNamed σ x.a) →
      (∀ p : Pattern, p.attr = attr → p.Sees db {} x.live) ∧
      ∀ fmt maxRows, ∃ rows : List (List Json),
        mentatQuery fmt maxRows {} (valueQuery x.e attr) db =
          (if 0 < maxRows ∧ maxRows < rows.length then .error (.resultLimitExceeded maxRows)
          else .ok rows) ∧ [x.v.json fmt] ∈ rows := by
  have hinv : db.WellTyped := by
    refine hrun.invariant (I := Db.WellTyped) ?_ wellTyped_bootstrapDb
    intro mid db' call report hinv hcall ⟨hkeeps, hretracts⟩
    obtain ⟨_, _, _, h⟩ := mentatTransact_committed hcall
    exact h.wellTyped hinv hkeeps hretracts
  refine ⟨fun r hr t ht => ?_, plainIdents_of_reaches,
    fun x hx hidents attr hconst ha => ⟨?_, fun fmt maxRows => ?_⟩⟩
  · exact Option.some.inj ((hinv.log r hr).symm.trans ht)
  · rintro p rfl
    refine sees_live hidents hx (ha fun _ => default) fun t ht => ?_
    rw [resolvePatternValueType_of_constant hconst (ha fun _ => default)] at ht
    exact Option.some.inj ((hinv.current hx).symm.trans ht)
  · obtain ⟨s, hbuild, hacc⟩ := valueQuery_build (e := x.e) hconst ha
    refine ⟨s.json fmt db, mentatQuery_eq hbuild hacc, ?_⟩
    rw [mem_valueQuery hidents hconst ha hbuild hacc]
    refine ⟨x, hx, rfl, rfl, fun t ht => ?_, rfl⟩
    exact Option.some.inj ((hinv.current hx).symm.trans ht)

/-- `:person/name` is a string. -/
def defineName : Call :=
  defineCall 1000000000001 1735689600000000 1000001
    [("ident", .namespaced "person" "name"), ("valueType", .namespaced "db.type" "string"),
     ("cardinality", .namespaced "db.cardinality" "one")]

def nameAttribute : PatternNonValuePlace := .ident (.namespaced "person" "name")

/-- A name that is given and taken back, and another. -/
def nameCalls : List Call :=
  [defineName,
   plainCall 1000000000002 1735689601000000 [addDatom 500 1000001 (.text "Ann")],
   plainCall 1000000000003 1735689602000000
     [retractDatom 500 1000001 (.text "Ann"), addDatom 501 1000001 (.text "Bob")]]

theorem rows_typed_of_keepsTypes_name :
    ∃ db rows, stateAfter nameCalls = some db ∧
      (∀ r ∈ db.log, ∀ t ∈ db.declaredType r.a, r.v.valueType = t) ∧
      mentatQuery noDoubles 0 {} (valueQuery 501 nameAttribute) db = .ok rows ∧
      [(TypedValue.text "Bob").json noDoubles] ∈ rows := by
  have hmeets : RunMeets (fun d call _ => call.KeepsTypes d ∧ call.RetractsTyped d) nameCalls
      bootstrapDb := by
    decide +kernel
  have hcolons : RunMeets (fun _ call _ => call.SingleColons) nameCalls bootstrapDb := by
    decide +kernel
  have hstate : ∃ db, stateAfter nameCalls = some db ∧
      db.attributeNamed (.namespaced "person" "name") = some 1000001 ∧
      ∃ x ∈ db.current, x.e = 501 ∧ x.a = 1000001 ∧ x.v = .text "Bob" := by
    decide +kernel
  obtain ⟨db, hdb, hrun, hparsed, hnamed, ⟨e, a, v, tx⟩, hx, rfl, rfl, rfl⟩ :=
    hmeets.exists_reaches (hcolons.exists_reaches hstate)
  obtain ⟨htyped, hplain, hfound⟩ := rows_typed_of_keepsTypes hrun
  have hconst : nameAttribute.IsConstant := trivial
  obtain ⟨rows, hrows, hmem⟩ :=
    (hfound _ hx (hplain hparsed) _ hconst fun _ => hnamed).2 noDoubles 0
  exact ⟨db, rows, hdb, htyped, hrows, hmem⟩

def retractKeyword : Call :=
  plainCall 1000000000001 1735689600000000
    [retractDatom 500 Entids.dbDoc (.keyword (.plain "kw"))]

/-- `:person/name` becomes a long. -/
def redefineName : Call :=
  plainCall 1000000000003 1735689602000000 [.map
    [(.keyword (.namespaced "db" "id"), .integer 1000001),
     (.keyword (.namespaced "db" "ident"), .keyword (.namespaced "person" "name")),
     (.keyword (.namespaced "db" "valueType"), .keyword (.namespaced "db.type" "long")),
     (.keyword (.namespaced "db" "cardinality"), .keyword (.namespaced "db.cardinality" "one"))]]

/-- Retracting a keyword writes a row of the string attribute to the table of keywords. Declaring
an attribute again leaves its value live, where no pattern with the attribute sees it. -/
theorem rows_not_typed :
    (∃ db, stateAfter [retractKeyword] = some db ∧
      ∃ r ∈ db.log, r.a = Entids.dbDoc ∧ r.v = .keyword "kw" ∧
        db.declaredType Entids.dbDoc = some .string) ∧
    ∃ db, stateAfter [defineName,
        plainCall 1000000000002 1735689601000000 [addDatom 500 1000001 (.text "Ann")],
        redefineName] = some db ∧
      db.Live (500, 1000001, .text "Ann") ∧
      mentatQuery noDoubles 0 {} (valueQuery 500 nameAttribute) db = .ok [] := by
  decide +kernel

end PgMentat

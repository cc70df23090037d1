import PgMentat.Naming
import PgMentat.Transact.Merging
import PgMentat.Transact.Success

namespace PgMentat

open List StatementProgram Program Remaps

/-- An entity id, an ident or a lookup ref. -/
def EdnValue.isLiteralPlace : EdnValue → Bool
  | .integer _ | .keyword _ | .vector _ => true
  | _ => false

def entityPlaces : EdnValue → List EdnValue
  | .vector (.keyword _ :: place :: _) => [place]
  | .map entries => if entries.any fun entry => !isDbId entry.1 then (mapId entries).toList else []
  | _ => []

def isRefAttribute (c : SchemaCache) (attr : EdnValue) : Bool :=
  match resolveAttribute c attr with
  | .ok a => lookupValueType c a = some .ref
  | .error _ => false

def valuePlaces (c : SchemaCache) : EdnValue → List EdnValue
  | .vector (.keyword k :: args) =>
    match recognizeTxFn k, args with
    | some .retractEntity, _ => []
    | some .cas, [_, attr, old, new] => if isRefAttribute c attr then [old, new] else []
    | _, _ :: attr :: value :: _ => if isRefAttribute c attr then [value] else []
    | _, _ => []
  | .map entries =>
    (entries.filter fun entry => !isDbId entry.1 && isRefAttribute c entry.1).map Prod.snd
  | _ => []

namespace Call

def entities (call : Call) : List EdnValue :=
  match call.document with
  | .vector entities => entities
  | _ => []

/-- The ids drawn for tempid strings and for maps without `:db/id`. -/
def drawn (call : Call) (db : Db) : List Int64 :=
  match call.reading db with
  | some reading =>
    reading.expanded.tempids.map Prod.snd ++ reading.scan.mapEntityIds.map Prod.snd
  | none => []

/-- A literal among some places of the document stands for the entity. -/
def WritesAt (call : Call) (db : Db) (places : EdnValue → List EdnValue) (x : Int64) : Prop :=
  ∃ entity ∈ call.entities, ∃ place ∈ places entity, place.isLiteralPlace = true ∧
    StandsFor (call.cache db) [] call.backend.scan (db.begun call.backend) place x

/-- The entity of a datom was not drawn, or is written by a literal. -/
def NamesEntity (call : Call) (db : Db) (x : Int64) : Prop :=
  x ∉ call.drawn db ∨ call.WritesAt db entityPlaces x

def NamesValue (call : Call) (db : Db) (x : Int64) : Prop :=
  x ∉ call.drawn db ∨ call.WritesAt db (valuePlaces (call.cache db)) x

def remaps (call : Call) (db : Db) : Remaps :=
  match server.run (readDocument call.backend.stackDepth call.entities) call.backend db with
  | .ok (reading, b, mid) =>
    match server.run (upsertRemaps reading.cache reading.expanded.pending) b mid with
    | .ok (remaps, _, _) => remaps
    | .error _ => []
  | .error _ => []

def recorded (call : Call) (db : Db) (d : PendingDatom) : PendingDatom :=
  remapDatom (call.remaps db) d

end Call

theorem firstHolder_congr {scan : ScanOrder} {db db' : Db} (h : db'.log = db.log) :
    firstHolder scan db' = firstHolder scan db := by
  funext a v
  rw [firstHolder, firstHolder, h]

theorem remapDatom_nil (d : PendingDatom) : remapDatom [] d = d := by
  obtain ⟨e, a, v, added⟩ := d
  cases v <;> rfl

/-- What the beginning of a successful call has computed. -/
structure Resolution (call : Call) (db : Db) : Prop where
  pending : ∃ tempids, call.pending db =
    (applyRemaps ⟨tempids, call.asked db⟩ (call.remaps db)).pending
  kept : ∀ x, applyRemap (call.remaps db) x = x ↔ KeepsPlace (call.cache db) call.backend.scan
    (db.begun call.backend) (call.asked db) x

theorem mentatTransact_resolution {call : Call} {db db' : Db} {report : TxReport}
    (h : mentatTransact call db = .ok (report, db')) : Resolution call db := by
  obtain ⟨entities, ids, prepared, b, mid, b', hdoc, hbegin, -, hinsert⟩ := mentatTransact_begin h
  obtain ⟨loop, rows, hcommitted⟩ := committed_of_begin hdoc hbegin hinsert
  obtain ⟨reading, b1, resolved, b2, hread, hresolve, hcache, hpending⟩ :=
    readDocument_of_begin hbegin
  have hentities : call.entities = entities := by simp only [Call.entities, hdoc]
  have hasked : call.asked db = reading.expanded.pending := by
    simp only [Call.asked, Call.reading, hdoc, hread]
  have hcall : call.pending db = resolved.pending := by
    simp only [Call.pending, Call.prepared_eq hdoc hbegin, hpending]
  have hschema : call.cache db = reading.cache := by
    simp only [Call.cache, Call.prepared_eq hdoc hbegin, hcache]
  have hscan : b1.scan = call.backend.scan := (ensures_sameSession _ _ _ hread).2.2.1
  have hlog : mid.log = (db.begun call.backend).log := hcommitted.mid_log
  rw [resolveUpserts_run] at hresolve
  cases hremaps : server.run (upsertRemaps reading.cache reading.expanded.pending) b1 mid with
  | error e =>
    rw [hremaps] at hresolve
    cases hresolve
  | ok out =>
    obtain ⟨remaps, b3, mid'⟩ := out
    rw [hremaps] at hresolve
    cases hresolve
    have heq : call.remaps db = remaps := by
      simp only [Call.remaps, hentities, hread, hremaps]
    obtain ⟨-, -, hkept⟩ := upsertRemaps_ensures _ _ _ _ _ _ _ hremaps
    refine ⟨⟨reading.expanded.tempids, ?_⟩, fun x => ?_⟩
    · rw [hcall, hasked, heq]
    · rw [heq, hkept x, hschema, hasked, hscan]
      have hlink : LogLink reading.cache call.backend.scan mid reading.expanded.pending =
          LogLink reading.cache call.backend.scan (db.begun call.backend)
            reading.expanded.pending := by
        funext y z
        simp only [LogLink, firstHolder_congr hlog]
      constructor
      · intro hkeeps
        exact ⟨hlink ▸ hkeeps.log, hlink ▸ hkeeps.leads⟩
      · intro hkeeps
        exact ⟨hlink ▸ hkeeps.log, hlink ▸ hkeeps.leads⟩

/-- What the document names is recorded as it is named. -/
structure Call.RedirectsTempidsOnly (call : Call) (db : Db) : Prop where
  entity : ∀ d ∈ call.asked db, call.NamesEntity db d.e → (call.recorded db d).e = d.e
  value : ∀ d ∈ call.asked db, ∀ y, d.v = .ref y → call.NamesValue db y →
    (call.recorded db d).v = .ref y

/-- Every entity that the document names is asserted no identity value that the log has for
another one, and leads the entities that identity values connect it with. -/
structure Call.NamedLead (call : Call) (db : Db) : Prop where
  entity : ∀ d ∈ call.asked db, call.NamesEntity db d.e →
    KeepsPlace (call.cache db) call.backend.scan (db.begun call.backend) (call.asked db) d.e
  value : ∀ d ∈ call.asked db, ∀ y, d.v = .ref y → call.NamesValue db y →
    KeepsPlace (call.cache db) call.backend.scan (db.begun call.backend) (call.asked db) y

theorem recorded_ref {call : Call} {db : Db} {d : PendingDatom} {y : Int64} (h : d.v = .ref y) :
    (call.recorded db d).v = .ref y ↔ applyRemap (call.remaps db) y = y := by
  simp only [Call.recorded, remapDatom, h, TypedValue.ref.injEq]

theorem redirectsTempidsOnly_iff_namedLead {call : Call} {db db' : Db} {report : TxReport}
    (h : mentatTransact call db = .ok (report, db')) :
    call.RedirectsTempidsOnly db ↔ call.NamedLead db := by
  have hresolution := mentatTransact_resolution h
  constructor
  · intro hredirects
    constructor
    · intro d hd hnames
      exact (hresolution.kept d.e).mp (hredirects.entity d hd hnames)
    · intro d hd y hy hnames
      exact (hresolution.kept y).mp ((recorded_ref hy).mp (hredirects.value d hd y hy hnames))
  · intro hlead
    constructor
    · intro d hd hnames
      exact (hresolution.kept d.e).mpr (hlead.entity d hd hnames)
    · intro d hd y hy hnames
      exact (recorded_ref hy).mpr ((hresolution.kept y).mpr (hlead.value d hd y hy hnames))

def defineLogin : Call :=
  defineCall 1000000000001 1735689600000000 1000001
    [("ident", .namespaced "user" "login"), ("valueType", .namespaced "db.type" "string"),
     ("cardinality", .namespaced "db.cardinality" "one"),
     ("unique", .namespaced "db.unique" "identity")]

def addLogin : Call := plainCall 1000000000002 1735689601000000 [addDatom 400 1000001 (.text "a")]

/-- A tempid for the user that has the login, and an entity id. -/
def describeLogin : Call :=
  ⟨⟨1735689602000000, 1000000000003, [1000002], .heap, 8⟩,
    .vector [.vector [.keyword (.namespaced "db" "add"), .text "user", .integer 1000001, .text "a"],
      addDatom 500 Entids.dbDoc (.text "other")]⟩

theorem redirectsTempidsOnly_iff_namedLead_login :
    ∃ db, stateAfter [defineLogin, addLogin] = some db ∧
      describeLogin.recorded db ⟨1000002, 1000001, .text "a", true⟩ =
        ⟨400, 1000001, .text "a", true⟩ ∧
      describeLogin.RedirectsTempidsOnly db := by
  have hfacts : ∃ db ∈ stateAfter [defineLogin, addLogin],
      (∃ report db', mentatTransact describeLogin db = .ok (report, db') ∧ True) ∧
      describeLogin.recorded db ⟨1000002, 1000001, .text "a", true⟩ =
        ⟨400, 1000001, .text "a", true⟩ ∧
      describeLogin.drawn db = [1000002] ∧
      describeLogin.asked db =
        [⟨1000002, 1000001, .text "a", true⟩, ⟨500, Entids.dbDoc, .text "other", true⟩] ∧
      (describeLogin.asked db).filter (isIdentityAssertion (describeLogin.cache db)) =
        [⟨1000002, 1000001, .text "a", true⟩] := by
    decide +kernel
  obtain ⟨db, hdb, ⟨report, db', hcall, -⟩, hrecorded, hdrawn, hasked, hidentities⟩ := hfacts
  refine ⟨db, hdb, hrecorded, (redirectsTempidsOnly_iff_namedLead hcall).mpr ⟨?_, ?_⟩⟩
  · intro d hd hnames
    rw [hasked, mem_cons, mem_singleton] at hd
    rcases hd with rfl | rfl
    · -- the id of the tempid is written nowhere
      rcases hnames with hout | ⟨entity, hentity, place, hplace, hliteral, hstands⟩
      · exact absurd (hdrawn ▸ mem_cons_self) hout
      · have hentities : describeLogin.entities = [.vector [.keyword (.namespaced "db" "add"),
            .text "user", .integer 1000001, .text "a"],
            addDatom 500 Entids.dbDoc (.text "other")] := rfl
        rw [hentities, mem_cons, mem_singleton] at hentity
        rcases hentity with rfl | rfl
        · rw [mem_singleton.mp hplace] at hliteral
          cases hliteral
        · rw [mem_singleton.mp hplace] at hstands
          cases hstands
    · constructor
      · rintro y ⟨d, hd, hidentity, he, -⟩
        have hmem := mem_filter.mpr ⟨hd, hidentity⟩
        rw [hidentities, mem_singleton] at hmem
        rw [hmem] at he
        exact absurd he (by decide)
      · intro pre f rest hsplit d hd
        have hlength := congrArg List.length (hidentities.symm.trans hsplit)
        simp only [length_append, length_cons, length_nil] at hlength
        have hrest := length_pos_of_mem hd
        omega
  · intro d hd y hy
    rw [hasked, mem_cons, mem_singleton] at hd
    rcases hd with rfl | rfl <;> cases hy

/-- An entity id with a login that another user has. -/
def claimLogin : Call :=
  plainCall 1000000000003 1735689602000000
    [addDatom 500 1000001 (.text "a"), addDatom 500 Entids.dbDoc (.text "mine")]

/-- The datoms of the entity 500 are recorded for the entity 400. -/
theorem not_redirectsTempidsOnly_claimed :
    ∃ db, stateAfter [defineLogin, addLogin] = some db ∧
      (∃ report db', mentatTransact claimLogin db = .ok (report, db') ∧
        db'.Live (400, Entids.dbDoc, .text "mine") ∧
        ¬ db'.Live (500, Entids.dbDoc, .text "mine")) ∧
      ¬ claimLogin.RedirectsTempidsOnly db := by
  have hfacts : ∃ db, stateAfter [defineLogin, addLogin] = some db ∧
      (∃ report db', mentatTransact claimLogin db = .ok (report, db') ∧
        db'.Live (400, Entids.dbDoc, .text "mine") ∧
        ¬ db'.Live (500, Entids.dbDoc, .text "mine")) ∧
      claimLogin.drawn db = [] ∧
      ⟨500, Entids.dbDoc, .text "mine", true⟩ ∈ claimLogin.asked db ∧
      (claimLogin.recorded db ⟨500, Entids.dbDoc, .text "mine", true⟩).e = 400 := by
    decide +kernel
  obtain ⟨db, hdb, hcall, hdrawn, hasked, hrecorded⟩ := hfacts
  refine ⟨db, hdb, hcall, fun hredirects => ?_⟩
  have hnames : claimLogin.NamesEntity db 500 := by
    refine .inl ?_
    rw [hdrawn]
    exact not_mem_nil
  have hkept := hredirects.entity _ hasked hnames
  rw [hrecorded] at hkept
  exact absurd hkept (by decide)

end PgMentat

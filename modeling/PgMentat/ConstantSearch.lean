import PgMentat.Redirects
import PgMentat.UniqueClaims
import PgMentat.ReportedWrites
import PgMentat.QueryResults

namespace PgMentat

open List StatementProgram TypedValue Server

inductive EntidOrIdent where
  | entid (a : Int64)
  | ident (k : Keyword)
  deriving DecidableEq, Repr

namespace EntidOrIdent

def edn : EntidOrIdent → EdnValue
  | entid a => .integer a
  | ident k => .keyword k

def place : EntidOrIdent → PatternNonValuePlace
  | entid a => .entid a
  | ident k => .ident k

/-- The attribute, where an ident is looked up among the attributes. -/
def Names (db : Db) (attr : EntidOrIdent) (a : Int64) : Prop :=
  ∀ σ, attr.place.Denotes db.attributeNamed σ a

theorem names_of_denotes {db : Db} {a : Int64} {σ : Assignment} (attr : EntidOrIdent)
    (h : attr.place.Denotes db.attributeNamed σ a) : attr.Names db a := by
  cases attr with
  | entid id | ident k => exact fun _ => h

end EntidOrIdent

inductive Constant where
  | integer (i : Int64)
  | text (s : String)
  | keyword (k : Keyword)
  | boolean (b : Bool)
  | uuid (u : Uuid)
  | instant (micros : Int64)
  deriving DecidableEq, Repr

namespace Constant

def edn : Constant → EdnValue
  | integer i => .integer i
  | text s => .text s
  | keyword k => .keyword k
  | boolean b => .boolean b
  | uuid u => .uuid u
  | instant micros => .instant micros

/-- `PatternValuePlace::from_value`. -/
def place : Constant → PatternValuePlace
  | integer i => .entidOrInteger i
  | text s => .constant (.text s)
  | keyword k => .identOrKeyword k
  | boolean b => .constant (.boolean b)
  | uuid u => .constant (.uuid u)
  | instant micros => .constant (.instant micros)

/-- The value that a pattern looks for next to an attribute of the type. -/
def searched (type : Option ValueType) : Constant → TypedValue
  | integer i => if type = some .ref then .ref i else .long i
  | text s => .text s
  | keyword k => .keyword k.stored
  | boolean b => .boolean b
  | uuid u => .uuid u
  | instant micros => .instant micros

def isInteger : Constant → Bool
  | integer _ => true
  | _ => false

variable {c : Constant} {σ : Assignment}

variable {type : Option ValueType}

theorem reads_iff {v : TypedValue} : c.place.Reads type σ v ↔ v = c.searched type := by
  cases c with
  | integer i | keyword k => exact Iff.rfl
  | _ => exact Option.some_inj.trans eq_comm

theorem denotes_searched {db : Db} (h : ∀ t ∈ type, (c.searched type).valueType = t) :
    c.place.Denotes db type σ (c.searched type) := by
  cases c with
  | integer i => exact rfl
  | keyword k =>
    have hnot : type ≠ some .ref := by
      intro href
      cases h .ref href
    rw [place, PatternValuePlace.Denotes, if_neg hnot]
    rfl
  | _ => exact rfl

theorem searched_ne_double : (c.searched type).valueType ≠ .double := by
  cases c with
  | integer i =>
    rw [searched]
    split <;> nofun
  | _ => nofun

theorem searched_ref : (c.searched (some .ref)).valueType = .ref ↔ c.isInteger = true := by
  cases c <;> simp [searched, isInteger, TypedValue.valueType]

end Constant

/-- `[:find ?x :where [?x attr c]]`. -/
def holderQuery (attr : EntidOrIdent) (c : Constant) : Query where
  find := ["?x"]
  patterns := [{ entity := .variable "?x", attr := attr.place, value := c.place }]

section Search

variable {fmt : FloatFormat} {db : Db} {attr : EntidOrIdent} {c : Constant} {a e : Int64}

theorem names_iff {k : Keyword} :
    (EntidOrIdent.ident k).Names db a ↔ db.attributeNamed k = some a :=
  ⟨fun h => h fun _ => default, fun h _ => h⟩

theorem resolveAttribute_of_names (h : attr.Names db a) :
    resolveAttribute db.cache attr.edn = .ok a := by
  cases attr with
  | entid id => exact congrArg Except.ok (h fun _ => default)
  | ident k =>
    have hresolve := resolveIdent_of_attributeNamed (names_iff.mp h)
    simp only [EntidOrIdent.edn, resolveAttribute, hresolve]

theorem resolvePatternValueType_of_resolves (h : resolveAttribute db.cache attr.edn = .ok a) :
    resolvePatternValueType db.cache attr.place = db.declaredType a := by
  cases attr with
  | entid id => cases h; rfl
  | ident k =>
    have hresolve : db.cache.resolveIdent k.display = some a := by
      simp only [EntidOrIdent.edn, resolveAttribute] at h
      split at h
      · rename_i hsome
        rw [hsome, Except.ok.inj h]
      · cases h
    rw [EntidOrIdent.place, resolvePatternValueType, hresolve]
    rfl

theorem bindValue_constant (type : Option ValueType) (c : Constant) :
    ∃ clause : Clause, (∀ b, bindValue 0 type b c.place = .ok (b.push clause)) ∧
      clause.Accepted := by
  cases c with
  | integer i =>
    by_cases href : type = some .ref
    · refine ⟨.constant 0 .vRef (.bigint i) ValueType.ref.toTag, fun b => ?_, trivial⟩
      simp only [Constant.place, bindValue, bindConstantValue, if_pos href]
      rfl
    · refine ⟨.constant 0 .vLong (.bigint i) ValueType.long.toTag, fun b => ?_, trivial⟩
      simp only [Constant.place, bindValue, bindConstantValue, if_neg href]
      rfl
  | _ => exact ⟨_, fun b => rfl, trivial⟩

theorem bindAttribute_constant (h : resolveAttribute db.cache attr.edn = .ok a) :
    ∃ clause : Clause, (∀ b, bindAttribute db.cache 0 b attr.place = .ok (b.push clause)) ∧
      clause.Accepted := by
  cases attr with
  | entid id => exact ⟨_, fun b => rfl, trivial⟩
  | ident k =>
    have hresolve : db.cache.resolveIdent k.display ≠ none := by
      intro hnone
      simp only [EntidOrIdent.edn, resolveAttribute, hnone] at h
      cases h
    exact ⟨.entid 0 .a .schema k.display, fun b => if_neg hresolve, trivial⟩

theorem holderQuery_build (h : resolveAttribute db.cache attr.edn = .ok a) (c : Constant) :
    ∃ s, buildExtendedPatternQuery db.cache {} (holderQuery attr c) = .ok s ∧ s.Accepted := by
  obtain ⟨clause, hbind, hclause⟩ := bindAttribute_constant h
  obtain ⟨constant, hbindValue, hconstant⟩ :=
    bindValue_constant (resolvePatternValueType db.cache attr.place) c
  refine ⟨⟨[.column 0 .e], [patternSource db.cache {} attr.place],
    [clause, constant, .param 0 .added (.boolean true)]⟩, ?_, ?_⟩
  · simp only [buildExtendedPatternQuery, holderQuery, List.zipIdx, List.foldlM, compilePattern,
      hbind, hbindValue]
    rfl
  · intro x hx
    simp only [mem_cons, not_mem_nil, or_false] at hx
    rcases hx with rfl | rfl | rfl
    · exact hclause
    · exact hconstant
    · trivial

/-- The search returns the entities that have the value it looks for, provided that this is a value
of the declared type and the ident is one of an attribute. -/
theorem mem_holderQuery {s : Select} (hidents : db.PlainIdents)
    (h : resolveAttribute db.cache attr.edn = .ok a)
    (hbuild : buildExtendedPatternQuery db.cache {} (holderQuery attr c) = .ok s)
    (hacc : s.Accepted) {row : List Json} :
    row ∈ s.json fmt db ↔ ∃ x, row = [.integer x] ∧ attr.Names db a ∧
      (∀ t ∈ db.declaredType a, (c.searched (db.declaredType a)).valueType = t) ∧
      db.Live (x, a, c.searched (db.declaredType a)) := by
  have htype := resolvePatternValueType_of_resolves h
  have hsees (σ : Assignment) (p : Pattern) (hp : p ∈ (holderQuery attr c).patterns) :
      (∃ r, p.Sees db {} r ∧ p.Reads db σ r) ↔
        ∃ x, (x ∈ db.current ∧ ∀ t ∈ db.declaredType a, x.v.valueType = t) ∧
          p.Reads db σ x.live := by
    have hattr : p.attr = attr.place := by rw [mem_singleton.mp hp]
    rw [exists_sees_iff hidents, hattr, htype]
  have hjson : row ∈ {row | row ∈ s.json fmt db} ↔ _ :=
    Set.ext_iff.mp (mem_json_iff hbuild hacc hsees) row
  refine hjson.trans ?_
  constructor
  · rintro ⟨answer, ⟨σ, hpattern, hfind⟩, hj⟩
    obtain ⟨r, ⟨hr, hrt⟩, he, ha, hv, -⟩ := hpattern _ mem_cons_self
    have hname : attr.Names db r.a := attr.names_of_denotes ha
    have hra : r.a = a := Except.ok.inj ((resolveAttribute_of_names hname).symm.trans h)
    have hrv : r.v = c.searched (db.declaredType a) := htype ▸ Constant.reads_iff.mp hv
    refine ⟨r.e, ?_, hra ▸ hname, hrv ▸ hrt, r, hr, ?_⟩
    · rw [← hj, ← hfind]
      exact congrArg (fun v => [v.json fmt]) he |>.trans (congrArg (fun j => [j]) (json_ref r.e))
    · rw [CurrentRow.triple, hra, hrv]
  · rintro ⟨x, hrow, hname, htyped, r, hr, htriple⟩
    obtain ⟨rfl, rfl, hrv⟩ : r.e = x ∧ r.a = a ∧ r.v = c.searched (db.declaredType a) := by
      simpa only [CurrentRow.triple, Prod.mk.injEq] using htriple
    refine ⟨[.ref r.e], ⟨fun _ => .ref r.e, fun p hp => ?_, rfl⟩, ?_⟩
    · refine ⟨r, ⟨hr, hrv ▸ htyped⟩, ?_⟩
      rw [mem_singleton.mp hp]
      refine ⟨rfl, hname _, ?_, trivial, trivial⟩
      exact Constant.reads_iff.mpr (htype ▸ hrv)
    · rw [hrow]
      exact congrArg (fun j => [j]) (json_ref r.e)

end Search

/-- The call is `[[:db/add e attr c]]`. -/
def Call.Adds (call : Call) (e : Int64) (attr : EntidOrIdent) (c : Constant) : Prop :=
  ∃ k : Keyword, k.name = "add" ∧ call.document = .vector [addEntity k e attr.edn c.edn]

section Assert

variable {call : Call} {db db' : Db} {report : TxReport} {e : Int64} {attr : EntidOrIdent}
  {c : Constant}

variable {b : Backend} {depth : Nat} {k : Keyword} {d : PendingDatom}

theorem encodeForAttribute_constant {cache : SchemaCache} {tempids : Tempids} {a : Int64} :
    server.Ensures (encodeForAttribute cache tempids a c.edn) b db fun out _ _ =>
      (lookupValueType cache a = some .ref → c.isInteger = true) →
        out.1 = c.searched (lookupValueType cache a) := by
  unfold encodeForAttribute
  by_cases href : lookupValueType cache a = some .ref
  · rw [if_pos href]
    intro out b' db' hrun hplain
    cases c with
    | integer i =>
      cases hrun
      rw [Constant.searched, if_pos href]
    | _ => cases hplain href
  · rw [if_neg href]
    intro out b' db' hrun hplain
    cases c with
    | integer i =>
      cases hrun
      rw [Constant.searched, if_neg href]
    | _ => cases hrun; rfl

theorem expandEntities_constant {cache : SchemaCache} {builders : EntidMap SchemaBuilder}
    (hk : k.name = "add") :
    server.Ensures (expandEntities cache depth { builders } [addEntity k e attr.edn c.edn]) b db
      fun st _ _ => ∃ a v, st.pending = [⟨e, a, v, true⟩] ∧
        resolveAttribute cache attr.edn = .ok a ∧
        ((lookupValueType cache a = some .ref → c.isInteger = true) →
          v = c.searched (lookupValueType cache a)) := by
  have hop : recognizeTxFn k = none := by
    unfold recognizeTxFn
    split <;> simp_all
  simp only [expandEntities, addEntity, zipIdx_singleton, foldlM_cons, foldlM_nil,
    expandEntity, expandOperation, hop, hk, if_true, expandDatom, resolveEntityPlace,
    ensures_bind, Program.pure_eq_ret, ensures_ret, ensures_ofExcept]
  intro a ha
  refine encodeForAttribute_constant.mono fun out b1 db1 hout => ?_
  exact ⟨a, out.1, rfl, ha, hout⟩

theorem readDocument_constant (hk : k.name = "add") :
    server.Ensures (readDocument depth [addEntity k e attr.edn c.edn]) b db fun reading _ _ =>
      reading.cache.schema = db.schema ∧ ∃ a v, reading.expanded.pending = [⟨e, a, v, true⟩] ∧
        resolveAttribute reading.cache attr.edn = .ok a ∧
        ((db.declaredType a = some .ref → c.isInteger = true) →
          v = c.searched (db.declaredType a)) := by
  unfold readDocument
  rw [ensures_bind]
  refine (allocateTxId_ensures _ _).mono fun ids b1 db1 h1 => ?_
  rw [ensures_bind]
  refine (recordTxInstant_ensures _ _ _ _).mono fun _ b2 db2 h2 => ?_
  rw [ensures_bind]
  refine selectSchema_ensures.mono fun before b3 db3 h3 => ?_
  obtain ⟨builders, hscan, hbuilders⟩ := scanEntities_add before e attr.edn c.edn hk
  rw [hscan, Program.ret_bind, ensures_bind]
  refine (installSchemaAttributes_ensures hbuilders).mono fun _ b4 db4 h4 => ?_
  have hschema : db4.schema = db.schema := by rw [h4.1, h3.2, h2, h1.2.2.2.2]
  rw [ensures_bind]
  refine selectSchema_ensures.mono fun cache b5 db5 h5 => ?_
  rw [ensures_bind]
  refine (expandEntities_constant hk).mono fun st b6 db6 h6 => (ensures_ret _).mpr ?_
  obtain ⟨a, v, hpending, hattr, hv⟩ := h6
  have hcache : cache.schema = db.schema := h5.1 ▸ hschema
  have htype : lookupValueType cache a = db.declaredType a := by
    simp only [lookupValueType, Db.declaredType, SchemaCache.getAttribute, Db.cache, hcache]
  exact ⟨hcache, a, v, hpending, hattr, htype ▸ hv⟩

theorem Call.Adds.asked (hadd : call.Adds e attr c)
    (h : mentatTransact call db = .ok (report, db')) :
    (call.cache db).schema = db.schema ∧ ∃ a v, call.asked db = [⟨e, a, v, true⟩] ∧
      resolveAttribute (call.cache db) attr.edn = .ok a ∧
      ((db.declaredType a = some .ref → c.isInteger = true) →
        v = c.searched (db.declaredType a)) := by
  obtain ⟨k, hk, hdoc⟩ := hadd
  obtain ⟨entities, ids, prepared, b, mid, b', hdoc', hbegin, -, -⟩ := mentatTransact_begin h
  cases hdoc.symm.trans hdoc'
  obtain ⟨reading, b1, resolved, b2, hread, -, hcache, -⟩ := readDocument_of_begin hbegin
  have hasked : call.asked db = reading.expanded.pending := by
    simp only [Call.asked, Call.reading, hdoc, hread]
  have hcall : call.cache db = reading.cache := by
    simp only [Call.cache, Call.prepared_eq hdoc hbegin, hcache]
  rw [hasked, hcall]
  exact readDocument_constant hk _ _ _ hread

theorem keepsPlace_single {cache : SchemaCache} {scan : ScanOrder} {x : Int64} :
    KeepsPlace cache scan db [d] x ↔ ∀ y, ¬ LogLink cache scan db [d] x y := by
  refine ⟨fun h => h.log, fun h => ⟨h, fun pre f rest hds d' hd' => ?_⟩⟩
  have hlength := (filter_sublist (p := isIdentityAssertion cache) (l := [d])).length_le
  have hrest := length_pos_of_mem hd'
  rw [hds, length_append, length_cons, length_singleton] at hlength
  omega

theorem Resolution.pending_single (h : Resolution call db) (hasked : call.asked db = [d]) :
    call.pending db = [call.recorded db d] := by
  obtain ⟨tempids, hpending⟩ := h.pending
  rw [hpending, hasked, applyRemaps]
  by_cases hempty : call.remaps db = []
  · rw [if_pos hempty, Call.recorded, hempty, remapDatom_nil]
  · rw [if_neg hempty]
    simp [dedupAssertions, Call.recorded]

theorem Resolution.recorded_single (h : Resolution call db) (hasked : call.asked db = [d])
    (hstays : applyRemap (call.remaps db) d.e = d.e) : call.recorded db d = d := by
  obtain ⟨e, a, v, added⟩ := d
  have hvalue (y : Int64) : applyRemap (call.remaps db) y = y := by
    by_cases hy : y = e
    · rwa [hy]
    · rw [h.kept, hasked, keepsPlace_single]
      rintro z ⟨d, hd, -, hde, -⟩
      rw [mem_singleton.mp hd] at hde
      exact hy hde.symm
  cases v with
  | ref y | _ => simp only [Call.recorded, remapDatom, hvalue]

end Assert

section Leave

variable {cache : SchemaCache} {tx : Int64} {scan : ScanOrder} {db db' : Db} {rows : List LogRow}
  {d : PendingDatom}

variable {k : Triple}

theorem QueueStep.live_other (h : QueueStep cache [d] tx scan db [] d db' rows) (hk : k.1 ≠ d.e) :
    lastRow rows k = none ∧ (db'.Live k ↔ db.Live k) := by
  constructor
  · have hrows : ∀ r ∈ rows, r.e = d.e := by
      cases h <;> simp [PendingDatom.row]
    rw [lastRow_eq_none]
    intro r hr htriple
    exact hk (htriple ▸ hrows r hr)
  · cases h with
    | pruneOne =>
      rw [live_pruneCurrent, and_iff_left fun hea => hk hea.1]
      rfl
    | _ => exact Iff.rfl

theorem QueueStep.skips_or_asserts (h : QueueStep cache [d] tx scan db [] d db' rows)
    (hadded : d.added = true) (hdouble : d.v.valueType ≠ .double) :
    (Skips cache scan db d ∧ rows = [] ∧ db' = db) ∨
      (¬ Skips cache scan db d ∧ lastRow rows d.triple = some (d.row tx)) := by
  have hlast (earlier : List LogRow) : lastRow (earlier ++ [d.row tx]) d.triple =
      some (d.row tx) := by
    rw [lastRow_append]
    exact if_pos rfl
  -- a value that differs is not the value that the projection reads back
  have hdiffers {old : TypedValue} (hread : ReadsBack scan db d old)
      (hne : old.partialEq d.v = false) : ¬ ReadsBack scan db d d.v := by
    intro hsame
    rw [hread.unique hsame, (partialEq_iff hdouble).mpr rfl] at hne
    cases hne
  cases h with
  | retract hretract => exact absurd hadded (Bool.eq_false_iff.mp hretract)
  | skipOne hv hone hread => exact .inl ⟨(skips_one hv.attr hone).mpr hread, rfl, rfl⟩
  | skipMany hv hmany hlive => exact .inl ⟨(skips_many hv.attr hmany).mpr hlive, rfl, rfl⟩
  | assertOne hv hone _ hnone =>
    exact .inr ⟨mt (skips_one hv.attr hone).mp (not_readsBack hnone), hlast []⟩
  | replaceOne hv hone _ hread hne =>
    exact .inr ⟨mt (skips_one hv.attr hone).mp (hdiffers hread hne), hlast _⟩
  | assertMany hv hmany _ hnew => exact .inr ⟨mt (skips_many hv.attr hmany).mp hnew, hlast []⟩
  | pruneOne hv hone _ hne =>
    refine .inr ⟨mt (skips_one hv.attr hone).mp fun hread => ?_, hlast []⟩
    exact hdiffers hread (hne _ hread) hread
  | pruneMany hv hmany _ hnew => exact .inr ⟨mt (skips_many hv.attr hmany).mp hnew, hlast []⟩

variable {call : Call} {mid loop : Db}

namespace Committed

variable (h : Committed call db mid loop db' rows)

include h

theorem step_single (hpending : call.pending db = [d]) :
    QueueStep mid.cache [d] call.backend.txId call.backend.scan mid [] d loop rows := by
  have hrun : QueueRun mid.cache [d] call.backend.txId call.backend.scan mid ([] ++ [d]) loop
      rows := hpending ▸ h.run
  obtain ⟨db1, rows1, hnil, hstep⟩ := hrun.snoc_inv
  obtain ⟨rfl, rfl⟩ := hnil.nil_inv
  exact hstep

theorem live_other (hpending : call.pending db = [d]) (hk : k.1 ≠ d.e) :
    db'.Live k ↔ mid.Live k := by
  obtain ⟨hnone, hlive⟩ := (h.step_single hpending).live_other hk
  rw [h.live_iff_of_no_row hnone, hlive]

theorem live_single (hpending : call.pending db = [d]) (hadded : d.added = true)
    (hdouble : d.v.valueType ≠ .double) :
    db'.Live d.triple ↔ mid.Live d.triple ∨ ¬ Skips mid.cache call.backend.scan mid d := by
  rcases (h.step_single hpending).skips_or_asserts hadded hdouble with
    ⟨hskips, rfl, rfl⟩ | ⟨hnew, hlast⟩
  · rw [h.live_iff_of_no_row rfl, or_iff_left (not_not_intro hskips)]
  · rw [h.live_iff_of_lastRow hlast]
    exact iff_of_true hadded (.inr hnew)

end Committed

end Leave

/-- The rows hold the entity, and only entities that have what the constant denotes for the
attribute. -/
structure Db.ReturnsHolders (db : Db) (e : Int64) (attr : EntidOrIdent) (c : Constant)
    (rows : List (List Json)) : Prop where
  found : [.integer e] ∈ rows
  live : ∀ row ∈ rows, ∃ x a v, row = [.integer x] ∧ resolveAttribute db.cache attr.edn = .ok a ∧
    (∀ σ, c.place.Denotes db (db.declaredType a) σ v) ∧ db.Live (x, a, v)

/-- The log has the identity value of a datom for another entity. -/
def Call.Redirects (call : Call) (db : Db) (d : PendingDatom) : Prop :=
  isIdentityAssertion db.cache d = true ∧
    ∃ y, firstHolder call.backend.scan (db.begun call.backend) d.a d.v = some y ∧ y ≠ d.e

/-- The constant is searched for as it is written, and the entity has it or is given it. -/
structure Call.Agrees (call : Call) (db : Db) (e : Int64) (attr : EntidOrIdent) (c : Constant)
    (a : Int64) : Prop where
  /-- The ident is one of an attribute, not only of an entity that is one. -/
  named : attr.Names db a
  /-- No name stands for an entity. -/
  entity : db.declaredType a = some .ref → c.isInteger = true
  lands : (db.begun call.backend).Live (e, a, c.searched (db.declaredType a)) ∨
    (¬ call.Redirects db ⟨e, a, c.searched (db.declaredType a), true⟩ ∧
      ¬ PgMentat.Skips db.cache call.backend.scan (db.begun call.backend)
        ⟨e, a, c.searched (db.declaredType a), true⟩)

section Agree

variable {call : Call} {db db' : Db} {report : TxReport} {e a : Int64} {attr : EntidOrIdent}
  {c : Constant}

theorem keepsPlace_iff_not_redirects {d : PendingDatom}
    (hschema : (call.cache db).schema = db.schema) :
    KeepsPlace (call.cache db) call.backend.scan (db.begun call.backend) [d] d.e ↔
      ¬ call.Redirects db d := by
  have hidentity : isIdentityAssertion (call.cache db) d = isIdentityAssertion db.cache d := by
    simp only [isIdentityAssertion, SchemaCache.getAttribute, hschema]
    rfl
  rw [keepsPlace_single, ← not_exists]
  apply not_congr
  constructor
  · rintro ⟨y, d', hd', hd, -, hholder, hne⟩
    rw [mem_singleton.mp hd'] at hd hholder
    exact ⟨hidentity ▸ hd, y, hholder, hne⟩
  · rintro ⟨hd, y, hholder, hne⟩
    exact ⟨y, d, mem_singleton_self d, hidentity ▸ hd, rfl, hholder, hne⟩

variable {v : TypedValue}

theorem live_iff_lands (h : mentatTransact call db = .ok (report, db'))
    (hasked : call.asked db = [⟨e, a, v, true⟩]) (hschema : (call.cache db).schema = db.schema)
    (hdouble : v.valueType ≠ .double) :
    db'.Live (e, a, v) ↔ (db.begun call.backend).Live (e, a, v) ∨
      (¬ call.Redirects db ⟨e, a, v, true⟩ ∧
        ¬ Skips db.cache call.backend.scan (db.begun call.backend) ⟨e, a, v, true⟩) := by
  have hresolution := mentatTransact_resolution h
  have hpending := hresolution.pending_single hasked
  have hkeeps := hresolution.kept e
  rw [hasked] at hkeeps
  obtain ⟨mid, loop, rows, hcommitted⟩ := mentatTransact_committed h
  have hcurrent : mid.current = (db.begun call.backend).current := hcommitted.mid_current
  have hmid : mid.Live (e, a, v) ↔ (db.begun call.backend).Live (e, a, v) := by
    simp only [Db.Live, hcurrent]
  by_cases hredirects : call.Redirects db ⟨e, a, v, true⟩
  · have hmoved : (call.recorded db ⟨e, a, v, true⟩).e ≠ e := by
      intro hstays
      exact (keepsPlace_iff_not_redirects hschema).mp (hkeeps.mp hstays) hredirects
    rw [hcommitted.live_other hpending (Ne.symm hmoved), hmid, or_iff_left]
    exact fun hlands => hlands.1 hredirects
  · have hstays := hkeeps.mpr ((keepsPlace_iff_not_redirects hschema).mpr hredirects)
    rw [hresolution.recorded_single hasked hstays] at hpending
    have hskips : Skips mid.cache call.backend.scan mid ⟨e, a, v, true⟩ ↔
        Skips db.cache call.backend.scan (db.begun call.backend) ⟨e, a, v, true⟩ := by
      rw [skips_congr hcurrent, ← hcommitted.cache_mid]
      simp only [Skips, SchemaCache.getAttribute, hschema, Db.cache]
    have hlive := hcommitted.live_single hpending rfl hdouble
    rw [PendingDatom.triple, hmid, hskips] at hlive
    rw [hlive, and_iff_right hredirects]

theorem declaredType_of_asked (h : mentatTransact call db = .ok (report, db'))
    (hasked : call.asked db = [⟨e, a, v, true⟩]) (hschema : (call.cache db).schema = db.schema) :
    db.declaredType a = some v.valueType := by
  obtain ⟨mid, loop, rows, hcommitted⟩ := mentatTransact_committed h
  have hpending := (mentatTransact_resolution h).pending_single hasked
  have hmem : call.recorded db ⟨e, a, v, true⟩ ∈ call.pending db := by
    rw [hpending]
    exact mem_singleton_self _
  obtain ⟨info, hchecked⟩ := hcommitted.run.checked _ hmem rfl
  have htype : (call.recorded db ⟨e, a, v, true⟩).v.valueType = v.valueType := by
    cases v <;> rfl
  have hinfo : db.cache.getAttribute a = some info := by
    have hattr := hchecked.attr
    rw [← hcommitted.cache_mid, SchemaCache.getAttribute, hschema] at hattr
    exact hattr
  rw [Db.declaredType, hinfo, Option.map_some, ← hchecked.type_eq, htype]

/-- After `[:db/add e attr c]` the search for `[?x attr c]` returns `e`, and only entities that
have the value, exactly if the two read the constant alike and the entity gets it. -/
theorem returnsHolders_iff_agrees (fmt : FloatFormat) (hadd : call.Adds e attr c)
    (h : mentatTransact call db = .ok (report, db')) (hidents : db'.PlainIdents) :
    ∃ rows : List (List Json),
      (∀ maxRows, mentatQuery fmt maxRows {} (holderQuery attr c) db' =
        if 0 < maxRows ∧ maxRows < rows.length then .error (.resultLimitExceeded maxRows)
        else .ok rows) ∧
      (db'.ReturnsHolders e attr c rows ↔ ∃ a, call.Agrees db e attr c a) := by
  obtain ⟨hschema, a, v, hasked, hattr, hv⟩ := hadd.asked h
  obtain ⟨mid, loop, rows, hcommitted⟩ := mentatTransact_committed h
  have hcache : db'.cache = call.cache db :=
    hcommitted.cache_eq.trans hcommitted.cache_mid.symm
  have hschema' : db'.schema = db.schema := (congrArg SchemaCache.schema hcache).trans hschema
  have hdeclared : db'.declaredType a = db.declaredType a := by
    simp only [Db.declaredType, SchemaCache.getAttribute, Db.cache, hschema']
  have hnamed : db'.attributeNamed = db.attributeNamed := by
    funext k
    simp only [Db.attributeNamed, IdentTable.entid, hschema']
  have hnames (a' : Int64) : attr.Names db' a' ↔ attr.Names db a' := by
    simp only [EntidOrIdent.Names, hnamed]
  rw [← hcache] at hattr
  obtain ⟨s, hbuild, hacc⟩ := holderQuery_build hattr c
  refine ⟨s.json fmt db', fun maxRows => mentatQuery_eq hbuild hacc, ?_⟩
  constructor
  · intro hreturns
    obtain ⟨x, hx, hname, htyped, hlive⟩ :=
      (mem_holderQuery hidents hattr hbuild hacc).mp hreturns.found
    cases hx
    rw [hdeclared] at htyped hlive
    have hentity (href : db.declaredType a = some .ref) : c.isInteger = true := by
      rw [href] at htyped
      exact Constant.searched_ref.mp (htyped .ref rfl)
    refine ⟨a, (hnames a).mp hname, hentity, ?_⟩
    rw [← hv hentity] at hlive ⊢
    exact (live_iff_lands h hasked hschema (hv hentity ▸ Constant.searched_ne_double)).mp hlive
  · rintro ⟨a', hagrees⟩
    have hname := (hnames a').mpr hagrees.named
    obtain rfl : a' = a := Except.ok.inj ((resolveAttribute_of_names hname).symm.trans hattr)
    have hvalue := hv hagrees.entity
    have hlands := hagrees.lands
    have htype := declaredType_of_asked h hasked hschema
    rw [← hvalue] at hlands
    have hlive : db'.Live (e, a', v) :=
      (live_iff_lands h hasked hschema (hvalue ▸ Constant.searched_ne_double)).mpr hlands
    constructor
    · rw [mem_holderQuery hidents hattr hbuild hacc, hdeclared, ← hvalue]
      refine ⟨e, rfl, hname, fun t ht => ?_, hlive⟩
      exact Option.some.inj (htype.symm.trans ht)
    · intro row hrow
      obtain ⟨x, hx, -, htyped, hlive⟩ := (mem_holderQuery hidents hattr hbuild hacc).mp hrow
      exact ⟨x, a', _, hx, hattr, fun σ => Constant.denotes_searched htyped, hlive⟩

end Agree

/-- A `:db/doc` is found by its text. -/
theorem returnsHolders_iff_agrees_doc :
    ∃ report db' rows, mentatTransact firstDoc bootstrapDb = .ok (report, db') ∧
      mentatQuery noDoubles 0 {} (holderQuery (.entid Entids.dbDoc) (.text "first")) db' =
        .ok rows ∧
      db'.ReturnsHolders 500 (.entid Entids.dbDoc) (.text "first") rows := by
  have hstate : ∃ report db', mentatTransact firstDoc bootstrapDb = .ok (report, db') ∧
      db'.PlainIdents := by
    decide +kernel
  have htype : bootstrapDb.declaredType Entids.dbDoc = some .string := by decide +kernel
  have hplain : isIdentityAssertion bootstrapDb.cache ⟨500, Entids.dbDoc, .text "first", true⟩ =
      false := by decide +kernel
  have hnone : firstCurrent .heap (bootstrapDb.begun firstDoc.backend) .string 500 Entids.dbDoc =
      none := by decide +kernel
  have hone : ∀ info ∈ bootstrapDb.cache.getAttribute Entids.dbDoc, info.cardinality = .one := by
    decide +kernel
  obtain ⟨report, db', hrun, hidents⟩ := hstate
  have hadd : firstDoc.Adds 500 (.entid Entids.dbDoc) (.text "first") :=
    ⟨.namespaced "db" "add", rfl, rfl⟩
  obtain ⟨rows, hquery, hreturns⟩ := returnsHolders_iff_agrees noDoubles hadd hrun hidents
  refine ⟨report, db', rows, hrun, hquery 0, hreturns.mpr ⟨Entids.dbDoc, fun _ => rfl, ?_, ?_⟩⟩
  · rw [htype]
    nofun
  · refine .inr ⟨fun hredirects => ?_, fun hskips => ?_⟩
    · exact Bool.eq_false_iff.mp hplain hredirects.1
    · obtain ⟨info, hinfo, -⟩ := id hskips
      exact not_readsBack hnone ((skips_one hinfo (hone info hinfo)).mp hskips)

/-- `[[:db/add 500 :db.install/attribute :db/doc]]`. -/
def installDoc : Call :=
  plainCall 1000000000001 1735689600000000
    [.vector [.keyword (.namespaced "db" "add"), .integer 500,
      .keyword (.namespaced "db.install" "attribute"), .keyword (.namespaced "db" "doc")]]

/-- A ref that is written by an ident is not found by the ident. -/
theorem not_returnsHolders_ident :
    ∃ report db', mentatTransact installDoc bootstrapDb = .ok (report, db') ∧
      db'.Live (500, 61, .ref Entids.dbDoc) ∧
      mentatQuery noDoubles 0 {} (holderQuery (.ident (.namespaced "db.install" "attribute"))
        (.keyword (.namespaced "db" "doc"))) db' = .ok [] := by
  decide +kernel

end PgMentat

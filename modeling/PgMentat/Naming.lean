import PgMentat.Transact.Merging
import PgMentat.CardinalityOne
import PgMentat.UniqueHolders

namespace PgMentat

open List StatementProgram Program KeyedTable TypedValue Server

/-- Every ident has one entity in `idents`, in `schema` and among the live datoms. The bootstrap
idents have no datoms. -/
structure Db.IdentsAgree (db : Db) : Prop where
  schema : ∀ r ∈ db.schema, ⟨r.ident, r.entid⟩ ∈ db.idents
  live : ∀ e v, db.Live (e, Entids.dbIdent, v) → ∃ i, v = .keyword i ∧ ⟨":" ++ i, e⟩ ∈ db.idents
  datom : ∀ r ∈ db.idents, r ∈ bootstrapDb.idents ∨
    ∃ i, r.ident = ":" ++ i ∧ db.Live (r.entid, Entids.dbIdent, .keyword i)
  ident : KeyUnique IdentRow.ident db.idents
  schemaIdent : KeyUnique SchemaRow.ident db.schema

structure Reading where
  scan : ScanState
  cache : SchemaCache
  expanded : ExpandState

def readDocument (depth : Nat) (entities : List EdnValue) : Tx Reading := do
  let ids ← allocateTxId
  recordTxInstant ids.tx ids.instant
  let before ← spi .selectSchema
  let scan ← scanEntities before entities
  installSchemaAttributes scan.builders
  let cache ← spi .selectSchema
  let expanded ← expandEntities cache depth scan entities
  return { scan, cache, expanded }

def Call.reading (call : Call) (db : Db) : Option Reading :=
  match call.document with
  | .vector entities =>
    match server.run (readDocument call.backend.stackDepth entities) call.backend db with
    | .ok (reading, _, _) => some reading
    | .error _ => none
  | _ => none

def Call.definitions (call : Call) (db : Db) : EntidMap SchemaBuilder :=
  match call.reading db with
  | some reading => reading.scan.builders
  | none => []

/-- The datoms of the document, with tempids, lookup refs and transaction functions resolved. -/
def Call.asked (call : Call) (db : Db) : List PendingDatom :=
  match call.reading db with
  | some reading => reading.expanded.pending
  | none => []

def Call.Defines (call : Call) (db : Db) (e : Int64) : Prop :=
  ∃ entry ∈ call.definitions db, entry.1 = e ∧ entry.2.ident ≠ none

def Call.claimants (call : Call) (db : Db) (a : Int64) (v : TypedValue) : List Int64 :=
  ((txInstantRow call.backend.txId call.backend.now :: db.log).filter fun r =>
      r.added ∧ r.a = a ∧ r.v = v).map LogRow.e ++
    ((call.asked db).filter fun d => d.added ∧ d.a = a ∧ d.v = v).map PendingDatom.e

/-- The call gives idents to entities that have them or to new ones, and does not merge the
entities it names with others. -/
structure Call.NamesInPlace (call : Call) (db : Db) : Prop where
  /-- An ident that exists is given to the entity that has it. -/
  ident : ∀ entry ∈ call.definitions db, ∀ i ∈ entry.2.ident, ∀ r ∈ db.idents, r.ident = i →
    r.entid = entry.1
  /-- An identity value that a named entity has is claimed by no other entity. -/
  identity : ∀ d ∈ call.asked db, isIdentityAssertion (call.cache db) d = true →
    ∀ e ∈ call.claimants db d.a d.v, call.Defines db e → ∀ e' ∈ call.claimants db d.a d.v, e' = e
  /-- Idents are not retracted and not swapped by `:db.fn/cas`. -/
  asked : ∀ d ∈ call.asked db, d.a = Entids.dbIdent → d.added = true ∧ call.Defines db d.e
  /-- The attribute `:db/ident` is not defined anew. -/
  declared : ∀ entry ∈ call.definitions db, entry.1 = Entids.dbIdent → entry.2.valueType = none

inductive Planned (e : Int64) (b : SchemaBuilder) : Installation → Prop
  | nothing (h : b.ident = none) : Planned e b .nothing
  | named {i} (h : b.ident = some i) : Planned e b (.ident ⟨i, e⟩)
  | declared {i row} (h : b.ident = some i) (hentid : row.entid = e) (hident : row.ident = i)
      (htype : b.valueType ≠ none) : Planned e b (.attribute ⟨i, e⟩ row)

theorem planned_of_planInstallation {e : Int64} {b : SchemaBuilder} {plan : Installation}
    (h : planInstallation e b = .ok plan) : Planned e b plan := by
  unfold planInstallation at h
  split at h <;> cases h
  · exact .nothing ‹_›
  · exact .named ‹_›
  · rename_i ident valueType cardinality hi ht hc
    exact .declared hi rfl rfl (by simp [ht])

/-- The rows of `schema` and `idents` after the definitions `done` of `builders` have been
installed. -/
structure Installed (c : SchemaCache) (builders done : EntidMap SchemaBuilder)
    (c' : SchemaCache) : Prop where
  kept : ∀ r ∈ c.idents, r ∈ c'.idents
  origin : ∀ r ∈ c'.idents, r ∈ c.idents ∨ BuilderNames builders r.entid r.ident
  covered : ∀ entry ∈ done, ∀ i ∈ entry.2.ident, ∃ r ∈ c'.idents, r.ident = i
  ident : KeyUnique IdentRow.ident c'.idents
  entid : KeyUnique IdentRow.entid c'.idents
  schema : ∀ r ∈ c'.schema, r ∈ c.schema ∨ BuilderNames builders r.entid r.ident
  schemaEntid : KeyUnique SchemaRow.entid c'.schema
  declared : c'.getAttribute Entids.dbIdent = c.getAttribute Entids.dbIdent

section Install

variable {c c' : SchemaCache} {builders done : EntidMap SchemaBuilder}
  {entry : Int64 × SchemaBuilder} {i : String}

theorem Installed.putIdent (h : Installed c builders done c') (hmem : entry ∈ builders)
    (hi : entry.2.ident = some i) (hplace : ∀ r ∈ c.idents, r.ident = i → r.entid = entry.1)
    (hfree : ∀ r ∈ c'.idents, r.entid = entry.1 → r.ident = i) :
    Installed c builders (done ++ [entry])
      { c' with idents := put IdentRow.ident c'.idents ⟨i, entry.1⟩ } where
  kept := by
    intro r hr
    refine mem_put.mpr ?_
    by_cases hri : r.ident = i
    · left
      rw [← hri, ← hplace r hr hri]
    · exact .inr ⟨h.kept r hr, hri⟩
  origin := by
    intro r hr
    rcases mem_put.mp hr with rfl | ⟨hr, -⟩
    · exact .inr ⟨entry, hmem, rfl, hi⟩
    · exact h.origin r hr
  covered := by
    intro entry' hentry' j hj
    by_cases hji : j = i
    · exact ⟨⟨i, entry.1⟩, mem_put.mpr (.inl rfl), hji.symm⟩
    · rcases mem_append.mp hentry' with hentry' | hentry'
      · obtain ⟨r, hr, hrj⟩ := h.covered entry' hentry' j hj
        exact ⟨r, mem_put.mpr (.inr ⟨hr, fun heq => hji (hrj.symm.trans heq)⟩), hrj⟩
      · rw [mem_singleton.mp hentry', hi] at hj
        exact absurd (Option.some.inj hj).symm hji
  ident := h.ident.put _
  entid := by
    intro r hr r' hr' heq
    rcases mem_put.mp hr with rfl | ⟨hr, hne⟩ <;> rcases mem_put.mp hr' with rfl | ⟨hr', hne'⟩
    · rfl
    · exact absurd (hfree r' hr' heq.symm) hne'
    · exact absurd (hfree r hr heq) hne
    · exact h.entid r hr r' hr' heq
  schema := h.schema
  schemaEntid := h.schemaEntid
  declared := h.declared

theorem Installed.skip (h : Installed c builders done c') (hi : entry.2.ident = none) :
    Installed c builders (done ++ [entry]) c' :=
  { h with
    covered := by
      intro entry' hentry' j hj
      rcases mem_append.mp hentry' with hentry' | hentry'
      · exact h.covered entry' hentry' j hj
      · rw [mem_singleton.mp hentry', hi] at hj
        cases hj }

variable {e : Int64}

theorem getAttribute_put {row : SchemaRow} (h : row.entid ≠ e) :
    SchemaCache.getAttribute { c' with schema := put SchemaRow.entid c'.schema row } e =
      c'.getAttribute e := by
  simp only [SchemaCache.getAttribute, put, del, List.find?_append, List.find?_filter,
    List.find?_singleton, h, decide_false, Bool.false_eq_true, if_false, Option.or_none]
  refine congrArg (fun p => List.find? p c'.schema) (funext fun r => ?_)
  by_cases hr : r.entid = e
  · simp [hr, h.symm]
  · simp [hr]

theorem Installed.putSchema (h : Installed c builders done c') (hmem : entry ∈ builders)
    (hi : entry.2.ident = some i) {row : SchemaRow} (hentid : row.entid = entry.1)
    (hident : row.ident = i) (hne : entry.1 ≠ Entids.dbIdent) :
    Installed c builders done { c' with schema := put SchemaRow.entid c'.schema row } :=
  { h with
    schema := by
      intro r hr
      rcases mem_put.mp hr with rfl | ⟨hr, -⟩
      · exact .inr ⟨entry, hmem, hentid.symm, hi.trans (congrArg some hident.symm)⟩
      · exact h.schema r hr
    schemaEntid := h.schemaEntid.put _
    declared := (getAttribute_put (hentid ▸ hne)).trans h.declared }

/-- `install_schema_attributes` keeps the idents that exist, if their entities are not changed. -/
theorem installSchemaAttributes_installed {b : Backend} {db : Db}
    (hstart : Installed c builders [] db.cache)
    (hplace : ∀ entry ∈ builders, ∀ i ∈ entry.2.ident, ∀ r ∈ c.idents, r.ident = i →
      r.entid = entry.1)
    (hdeclared : ∀ entry ∈ builders, entry.1 = Entids.dbIdent → entry.2.valueType = none) :
    server.Ensures (installSchemaAttributes builders) b db fun _ _ mid =>
      Installed c builders builders mid.cache := by
  refine ensures_foldlM (fun done (_ : Unit) (_ : Backend) (mid : Db) =>
    Installed c builders done mid.cache) hstart fun done entry rest _ b1 mid hxs h => ?_
  have hmem : entry ∈ builders := hxs ▸ mem_append_right _ mem_cons_self
  rw [ensures_bind, ensures_ofExcept]
  intro plan hplan
  cases planned_of_planInstallation hplan with
  | nothing hi => exact (ensures_ret _).mpr (h.skip hi)
  | named hi =>
    refine (ensures_issue _).mpr fun _ b2 ops hans => ?_
    simp only [server, Stmt.answer] at hans
    split at hans <;> cases hans
    rename_i hfree
    push Not at hfree
    exact h.putIdent hmem hi (hplace entry hmem _ hi) hfree
  | declared hi hentid hident htype =>
    have hne : entry.1 ≠ Entids.dbIdent := fun heq => htype (hdeclared entry hmem heq)
    rw [install, ensures_bind]
    refine (ensures_issue _).mpr fun _ b2 ops hans => ?_
    simp only [server, Stmt.answer] at hans
    split at hans <;> cases hans
    rename_i hfree
    push Not at hfree
    refine (ensures_issue _).mpr fun _ b3 ops hans => ?_
    simp only [server, Stmt.answer] at hans
    split at hans <;> cases hans
    exact (h.putIdent hmem hi (hplace entry hmem _ hi) hfree).putSchema hmem hi hentid hident hne

theorem resolveIdent_of_mem (hschema : ∀ r ∈ c.schema, r.ident = i → r.entid = e)
    (hident : KeyUnique IdentRow.ident c.idents) (hmem : ⟨i, e⟩ ∈ c.idents) :
    c.resolveIdent i = some e := by
  unfold SchemaCache.resolveIdent
  split
  · rename_i r hfind
    refine congrArg some (hschema r (mem_of_find?_eq_some hfind) ?_)
    simpa using List.find?_some hfind
  · have hfind := hident.find?_eq hmem
    simp only at hfind
    rw [hfind]
    rfl

theorem mem_of_resolveIdent (hschema : ∀ r ∈ c.schema, ⟨r.ident, r.entid⟩ ∈ c.idents)
    (h : c.resolveIdent i = some e) : ⟨i, e⟩ ∈ c.idents := by
  unfold SchemaCache.resolveIdent at h
  split at h
  · rename_i r hfind
    have hr : r.ident = i := by simpa using List.find?_some hfind
    have hmem := hschema r (mem_of_find?_eq_some hfind)
    rwa [hr, Option.some.inj h] at hmem
  · obtain ⟨r, hfind, rfl⟩ := Option.map_eq_some_iff.mp h
    have hr : r.ident = i := by simpa using List.find?_some hfind
    rw [← hr]
    exact mem_of_find?_eq_some hfind

theorem Installed.extends_cache (h : Installed c builders done c')
    (hschema : ∀ r ∈ c.schema, ⟨r.ident, r.entid⟩ ∈ c.idents)
    (hident : KeyUnique IdentRow.ident c.idents)
    (hplace : ∀ entry ∈ builders, ∀ i ∈ entry.2.ident, ∀ r ∈ c.idents, r.ident = i →
      r.entid = entry.1) : c'.Extends c := by
  intro j e hj
  have hmem : ⟨j, e⟩ ∈ c.idents := mem_of_resolveIdent hschema hj
  refine resolveIdent_of_mem (fun r hr hrj => ?_) h.ident (h.kept _ hmem)
  rcases h.schema r hr with hr | ⟨entry, hentry, he, hi⟩
  · exact congrArg IdentRow.entid (hident _ (hschema r hr) _ hmem hrj)
  · exact (he.symm.trans (hplace entry hentry _ hi _ hmem hrj.symm).symm)

end Install

section Upsert

variable {named : Int64 → Prop} {remaps : Remaps}

variable {earlier ds : List PendingDatom} {d : PendingDatom}

theorem mem_of_mem_dedupAssertions (h : d ∈ dedupAssertions earlier ds) : d ∈ ds := by
  induction ds generalizing earlier with
  | nil => exact h
  | cons x rest ih =>
    unfold dedupAssertions at h
    split at h
    · exact mem_cons_of_mem x (ih h)
    · rcases mem_cons.mp h with rfl | h
      · exact mem_cons_self
      · exact mem_cons_of_mem x (ih h)

theorem mem_dedupAssertions (h : d ∈ ds) : d ∈ earlier ∨ d ∈ dedupAssertions earlier ds := by
  induction ds generalizing earlier with
  | nil => exact nomatch h
  | cons x rest ih =>
    unfold dedupAssertions
    split
    · rename_i hdrop
      have hx : x ∈ earlier := by
        obtain ⟨y, hy, hsame⟩ := any_eq_true.mp hdrop.2
        simp only [Bool.and_eq_true, decide_eq_true_eq] at hsame
        obtain ⟨⟨⟨hadded, he⟩, ha⟩, hv⟩ := hsame
        have hv := eq_of_partialEq hv
        have hxadded := hdrop.1
        cases x
        cases y
        simp_all
      rcases mem_cons.mp h with rfl | h
      · exact .inl hx
      · rcases ih h with h | h
        · rcases mem_append.mp h with h | h
          · exact .inl h
          · exact .inl (mem_singleton.mp h ▸ hx)
        · exact .inr h
    · rcases mem_cons.mp h with rfl | h
      · exact .inr mem_cons_self
      · rcases ih h with h | h
        · rcases mem_append.mp h with h | h
          · exact .inl h
          · exact .inr (mem_singleton.mp h ▸ mem_cons_self)
        · exact .inr (mem_cons_of_mem x h)

/-- The datoms of named entities are written where the document asks for them. -/
structure Resolved (named : Int64 → Prop) (asked pending : List PendingDatom) : Prop where
  kept : ∀ d ∈ asked, named d.e → (∀ e, d.v ≠ .ref e) → d ∈ pending
  origin : ∀ d ∈ pending, ∃ d' ∈ asked, d.a = d'.a ∧ d.added = d'.added ∧
    ((∀ e, d.v ≠ .ref e) → d.v = d'.v) ∧ (named d'.e → d.e = d'.e)

theorem Resolved.refl (pending : List PendingDatom) : Resolved named pending pending :=
  ⟨fun _ hd _ _ => hd, fun d hd => ⟨d, hd, rfl, rfl, fun _ => rfl, fun _ => rfl⟩⟩

theorem resolved_of_applyRemap (h : ∀ e, named e → applyRemap remaps e = e)
    (asked : List PendingDatom) :
    Resolved named asked (dedupAssertions [] (asked.map (remapDatom remaps))) where
  kept := by
    intro d hd hnamed hv
    have heq : remapDatom remaps d = d := by
      obtain ⟨e, a, v, added⟩ := d
      unfold remapDatom
      rw [h e hnamed]
      split
      · rename_i id hid
        exact absurd hid (hv id)
      · rfl
    have hmem : d ∈ asked.map (remapDatom remaps) := mem_map.mpr ⟨d, hd, heq⟩
    exact (mem_dedupAssertions hmem).resolve_left not_mem_nil
  origin := by
    intro d hd
    obtain ⟨d', hd', rfl⟩ := mem_map.mp (mem_of_mem_dedupAssertions hd)
    refine ⟨d', hd', rfl, rfl, fun hv => ?_, fun hnamed => h d'.e hnamed⟩
    unfold remapDatom at hv ⊢
    dsimp only at hv ⊢
    split
    · rename_i href
      simp only [href] at hv
      exact absurd rfl (hv _)
    · rfl

section

variable {c : SchemaCache} {b : Backend} {mid : Db} {st : ExpandState}
  (hlog : ∀ d ∈ st.pending, isIdentityAssertion c d = true →
    ∀ e, firstHolder b.scan mid d.a d.v = some e → e ≠ d.e → ¬ named d.e ∧ ¬ named e)
  (hpair : ∀ d ∈ st.pending, ∀ d' ∈ st.pending, isIdentityAssertion c d = true →
    isIdentityAssertion c d' = true → d.a = d'.a → d.v = d'.v → d.e ≠ d'.e →
    ¬ named d.e ∧ ¬ named d'.e)

include hlog hpair

theorem keepsPlace_of_named {x : Int64} (hx : named x) :
    KeepsPlace c b.scan mid st.pending x := by
  have hapart {y z : Int64} (h : ¬ named y ∧ ¬ named z) : y = x ↔ z = x :=
    iff_of_false (fun heq => h.1 (heq ▸ hx)) fun heq => h.2 (heq ▸ hx)
  have hsame {d d' : PendingDatom} (hd : d ∈ st.pending.filter (isIdentityAssertion c))
      (hd' : d' ∈ st.pending.filter (isIdentityAssertion c)) (h : SameIdentity d d') :
      d.e = x ↔ d'.e = x := by
    obtain ⟨hd, hidentity⟩ := mem_filter.mp hd
    obtain ⟨hd', hidentity'⟩ := mem_filter.mp hd'
    by_cases he : d.e = d'.e
    · rw [he]
    · exact hapart (hpair d hd d' hd' hidentity hidentity' h.1 (eq_of_partialEq h.2) he)
  constructor
  · rintro y ⟨d, hd, hidentity, rfl, hholder, hne⟩
    exact (hlog d hd hidentity y hholder hne).1 hx
  · intro pre f rest hds d hd hsecond hclass
    have hmem : ∀ d ∈ f :: rest, d ∈ st.pending.filter (isIdentityAssertion c) :=
      fun d hd => hds ▸ mem_append_right _ hd
    have hdx : d.e = x := by
      refine (Pointers.eqvGen_congr (P := (· = x)) ?_ hclass).mpr rfl
      rintro y z (⟨d, hd, hidentity, rfl, hholder, hne⟩ | ⟨d, hd, d', hd', hpair, rfl, rfl⟩)
      · exact hapart (hlog d hd hidentity z hholder hne)
      · exact hsame (hds ▸ mem_append_left _ hd) hd' hpair
    rw [(hsame (hmem f mem_cons_self) (hmem d (mem_cons_of_mem _ hd)) hsecond).mpr hdx]
    exact .refl x

theorem resolveUpserts_ensures : server.Ensures (resolveUpserts c st) b mid fun st' _ _ =>
    Resolved named st.pending st'.pending := by
  intro st' b' mid' hrun
  rw [resolveUpserts_run] at hrun
  split at hrun
  · rename_i remaps b1 mid1 hremaps
    cases hrun
    unfold applyRemaps
    split
    · exact .refl _
    · refine resolved_of_applyRemap (fun e he => ?_) _
      exact ((upsertRemaps_ensures c st.pending b mid _ _ _ hremaps).2.2 e).mpr
        (keepsPlace_of_named hlog hpair he)
  · cases hrun

end

end Upsert

/-- What the runs below keep: the agreement, and what makes the tables keep it. -/
structure Db.NamesSound (db : Db) : Prop extends db.IdentsAgree where
  entid : KeyUnique IdentRow.entid db.idents
  schemaEntid : KeyUnique SchemaRow.entid db.schema
  declared : db.cache.getAttribute Entids.dbIdent = bootstrapDb.cache.getAttribute Entids.dbIdent

section Call

variable {call : Call} {db mid loop db' : Db} {rows : List LogRow}

theorem Db.NamesSound.installed (h : db.NamesSound) (builders : EntidMap SchemaBuilder) :
    Installed db.cache builders [] db.cache where
  kept := fun _ hr => hr
  origin := fun _ hr => .inl hr
  covered := fun _ hentry => nomatch hentry
  ident := h.ident
  entid := h.entid
  schema := fun _ hr => .inl hr
  schemaEntid := h.schemaEntid
  declared := rfl

variable {depth : Nat} {d : PendingDatom} {e : Int64} {v : TypedValue} {i k : String}

theorem readDocument_of_begin {entities : List EdnValue} {ids : TxIds} {prepared : Prepared}
    {b b' : Backend}
    (h : server.run (beginTransaction depth entities) b db = .ok ((ids, prepared), b', mid)) :
    ∃ reading b1 resolved b2,
      server.run (readDocument depth entities) b db = .ok (reading, b1, mid) ∧
      server.run (resolveUpserts reading.cache reading.expanded) b1 mid =
        .ok (resolved, b2, mid) ∧
      prepared.cache = reading.cache ∧ prepared.pending = resolved.pending := by
  obtain ⟨ids, b1, db1, h1, h⟩ := run_bind_eq_ok _ h
  obtain ⟨_, b2, db2, h2, h⟩ := run_bind_eq_ok _ h
  obtain ⟨prepared, b3, db3, h3, h⟩ := run_bind_eq_ok _ h
  cases h
  obtain ⟨before, b4, db4, h4, h3⟩ := run_bind_eq_ok _ h3
  obtain ⟨scan, b5, db5, h5, h3⟩ := run_bind_eq_ok _ h3
  obtain ⟨_, b6, db6, h6, h3⟩ := run_bind_eq_ok _ h3
  obtain ⟨cache, b7, db7, h7, h3⟩ := run_bind_eq_ok _ h3
  obtain ⟨expanded, b8, db8, h8, h3⟩ := run_bind_eq_ok _ h3
  obtain ⟨resolved, b9, db9, h9, h3⟩ := run_bind_eq_ok _ h3
  cases h3
  have hdb : mid = db8 := ensures_readOnly (resolveUpserts_only _ _) _ _ _ h9
  subst hdb
  refine ⟨⟨scan, cache, expanded⟩, b8, resolved, _, ?_, h9, rfl, rfl⟩
  simp only [readDocument, run_bind, h1, h2, h4, h5, h6, h7, h8]
  rfl

/-- A call that names entities in place installs its definitions beside what exists, and asks for
the `:db/ident` datom of each. -/
theorem readDocument_installed {entities : List EdnValue} {reading : Reading} {b b' : Backend}
    (hinv : db.NamesSound)
    (h : server.run (readDocument depth entities) b db = .ok (reading, b', mid))
    (hplace : ∀ entry ∈ reading.scan.builders, ∀ i ∈ entry.2.ident, ∀ r ∈ db.idents,
      r.ident = i → r.entid = entry.1)
    (hdeclared : ∀ entry ∈ reading.scan.builders, entry.1 = Entids.dbIdent →
      entry.2.valueType = none) :
    b'.scan = b.scan ∧ reading.cache = mid.cache ∧
      Installed db.cache reading.scan.builders reading.scan.builders mid.cache ∧
      ∀ e i, BuilderNames reading.scan.builders e i → ∃ k, i = ":" ++ k ∧
        ⟨e, Entids.dbIdent, .keyword k, true⟩ ∈ reading.expanded.pending := by
  have hsession := ensures_sameSession _ _ _ h
  obtain ⟨ids, b1, db1, h1, h⟩ := run_bind_eq_ok _ h
  obtain ⟨_, b2, db2, h2, h⟩ := run_bind_eq_ok _ h
  obtain ⟨before, b3, db3, h3, h⟩ := run_bind_eq_ok _ h
  obtain ⟨scan, b4, db4, h4, h⟩ := run_bind_eq_ok _ h
  obtain ⟨_, b5, db5, h5, h⟩ := run_bind_eq_ok _ h
  obtain ⟨cache, b6, db6, h6, h⟩ := run_bind_eq_ok _ h
  obtain ⟨expanded, b7, db7, h7, h⟩ := run_bind_eq_ok _ h
  cases h
  cases h3
  cases h6
  -- up to the first pass only the transaction itself has been recorded
  have hcache : db2.cache = db.cache := by
    rw [recordTxInstant_ensures _ _ _ _ _ _ _ h2, (allocateTxId_ensures _ _ _ _ _ h1).2.2.2.2]
    rfl
  obtain ⟨-, rfl, hscanned⟩ := scanEntities_ensures _ _ _ _ h4
  have hstart : Installed db.cache scan.builders [] db4.cache := by
    rw [hcache]
    exact hinv.installed scan.builders
  have hinstalled : Installed db.cache scan.builders scan.builders db5.cache :=
    installSchemaAttributes_installed hstart hplace hdeclared _ _ _ h5
  have hlog := (ensures_schemaChange (installSchemaAttributes_only _) _ _ _ h5).log_eq
  have hmid : AfterInstall db4 db5 := by
    refine ⟨?_, hlog, ?_⟩
    · rw [hcache]
      exact hinstalled.extends_cache hinv.schema hinv.ident hplace
    · rw [lookupValueType, hinstalled.declared.trans hinv.declared]
      decide
  obtain rfl := ensures_readOnly (expandEntities_only _ _ _ _) _ _ _ h7
  refine ⟨hsession.2.2.1, rfl, hinstalled, fun e i hnames => ?_⟩
  obtain ⟨entity, hentity, k, hk, rfl⟩ := hscanned.named e i hnames
  refine ⟨k.stored, k.display_eq, ?_⟩
  have hscan : b5.scan = b2.scan := by
    rw [(ensures_sameSession _ _ _ h5).2.2.1, (ensures_sameSession _ _ _ h4).2.2.1]
  exact expandEntities_ensures hmid _ _ _ _ _ _ h7 entity hentity e k (hscan ▸ hk)

structure CallNames (call : Call) (db mid : Db) : Prop where
  installed : Installed db.cache (call.definitions db) (call.definitions db) mid.cache
  asserted : ∀ e i, BuilderNames (call.definitions db) e i → ∃ k, i = ":" ++ k ∧
    ⟨e, Entids.dbIdent, .keyword k, true⟩ ∈ call.asked db
  resolved : Resolved (call.Defines db) (call.asked db) (call.pending db)

/-- A committed call that names entities in place, from a state where the names are sound. -/
structure NamedCommit (call : Call) (db mid loop db' : Db) (rows : List LogRow) : Prop
    extends Committed call db mid loop db' rows where
  before : db.NamesSound
  inPlace : call.NamesInPlace db
  names : CallNames call db mid

theorem mem_claimants_of_asked (hd : d ∈ call.asked db) (hadded : d.added = true) :
    d.e ∈ call.claimants db d.a d.v := by
  refine mem_append_right _ (mem_map.mpr ⟨d, mem_filter.mpr ⟨hd, ?_⟩, rfl⟩)
  simp [hadded]

theorem mem_claimants_of_holder {scan : ScanOrder} {a : Int64}
    (hlog : ∀ r ∈ mid.log, r ∈ txInstantRow call.backend.txId call.backend.now :: db.log)
    (h : firstHolder scan mid a v = some e) : e ∈ call.claimants db a v := by
  obtain ⟨r, hr, rfl, ha, hv, hadded⟩ := firstHolder_eq_some h
  refine mem_append_left _ (mem_map.mpr ⟨r, mem_filter.mpr ⟨hlog r hr, ?_⟩, rfl⟩)
  simp [ha, hv, hadded]

theorem mentatTransact_namedCommit {report : TxReport} (hinv : db.NamesSound)
    (hplace : call.NamesInPlace db) (h : mentatTransact call db = .ok (report, db')) :
    ∃ mid loop rows, NamedCommit call db mid loop db' rows := by
  obtain ⟨entities, ids, prepared, b, mid, b', hdoc, hbegin, -, hinsert⟩ := mentatTransact_begin h
  obtain ⟨loop, rows, hcommitted⟩ := committed_of_begin hdoc hbegin hinsert
  refine ⟨mid, loop, rows, hcommitted, hinv, hplace, ?_⟩
  obtain ⟨reading, b1, resolved, b2, hread, hresolve, hcache, hpending⟩ :=
    readDocument_of_begin hbegin
  have hreading : call.reading db = some reading := by
    simp only [Call.reading, hdoc, hread]
  have hdefinitions : call.definitions db = reading.scan.builders := by
    simp only [Call.definitions, hreading]
  have hasked : call.asked db = reading.expanded.pending := by
    simp only [Call.asked, hreading]
  have hcall : call.pending db = resolved.pending := by
    simp only [Call.pending, Call.prepared_eq hdoc hbegin, hpending]
  have hschema : call.cache db = reading.cache := by
    simp only [Call.cache, Call.prepared_eq hdoc hbegin, hcache]
  obtain ⟨-, -, hinstalled, hasserted⟩ := readDocument_installed hinv hread
    (hdefinitions ▸ hplace.ident) (hdefinitions ▸ hplace.declared)
  refine ⟨hdefinitions ▸ hinstalled, hdefinitions ▸ hasked ▸ hasserted, ?_⟩
  rw [hcall, hasked]
  -- two claimants of one identity value are not named
  have happart {d : PendingDatom} (hd : d ∈ call.asked db)
      (hidentity : isIdentityAssertion (call.cache db) d = true) {e e' : Int64}
      (he : e ∈ call.claimants db d.a d.v) (he' : e' ∈ call.claimants db d.a d.v) (hne : e ≠ e') :
      ¬ call.Defines db e ∧ ¬ call.Defines db e' := by
    refine ⟨fun hdef => hne ?_, fun hdef => hne ?_⟩
    · exact (hplace.identity d hd hidentity e he hdef e' he').symm
    · exact hplace.identity d hd hidentity e' he' hdef e he
  have hadded {d : PendingDatom} (hidentity : isIdentityAssertion (call.cache db) d = true) :
      d.added = true := by
    simp only [isIdentityAssertion, decide_eq_true_eq] at hidentity
    exact hidentity.1
  have hlog : ∀ r ∈ mid.log, r ∈ txInstantRow call.backend.txId call.backend.now :: db.log := by
    intro r hr
    rcases hcommitted.mem_mid_log.mp hr with hr | ⟨rfl, -⟩
    · exact mem_cons_of_mem _ hr
    · exact mem_cons_self
  refine resolveUpserts_ensures (fun d hd hidentity e he hne => ?_)
    (fun d hd d' hd' hidentity hidentity' ha hv hne => ?_) _ _ _ hresolve
  · rw [← hasked] at hd
    rw [← hschema] at hidentity
    exact happart hd hidentity (mem_claimants_of_asked hd (hadded hidentity))
      (mem_claimants_of_holder hlog he) hne.symm
  · rw [← hasked] at hd hd'
    rw [← hschema] at hidentity hidentity'
    have hd'claims := mem_claimants_of_asked hd' (hadded hidentity')
    rw [← ha, ← hv] at hd'claims
    exact happart hd hidentity (mem_claimants_of_asked hd (hadded hidentity)) hd'claims hne

namespace NamedCommit

variable (h : NamedCommit call db mid loop db' rows)

include h

/-- The declaration of `:db/ident`, as `06_bootstrap_data.sql` has it. -/
theorem identRow {info : SchemaRow} (hinfo : mid.cache.getAttribute Entids.dbIdent = some info) :
    info.valueType = .keyword ∧ info.cardinality = .one ∧ info.noHistory = false := by
  have hrow := h.names.installed.declared.trans h.before.declared
  rw [hinfo, show bootstrapDb.cache.getAttribute Entids.dbIdent = some _ from rfl] at hrow
  obtain rfl := Option.some.inj hrow
  decide

theorem distinct {e' : Int64} (he : BuilderNames (call.definitions db) e i)
    (he' : BuilderNames (call.definitions db) e' i) : e' = e := by
  obtain ⟨k, rfl, hk⟩ := h.names.asserted e i he
  obtain ⟨k', hkk', hk'⟩ := h.names.asserted e' _ he'
  obtain rfl : k = k' := by simpa using hkk'
  have hidentity : isIdentityAssertion (call.cache db)
      ⟨e, Entids.dbIdent, .keyword k, true⟩ = true := by
    rw [isIdentityAssertion, h.cache_mid, h.names.installed.declared.trans h.before.declared]
    exact decide_eq_true ⟨rfl, rfl⟩
  obtain ⟨entry, hentry, hentid, hident⟩ := he
  refine h.inPlace.identity _ hk hidentity e (mem_claimants_of_asked hk rfl) ?_ e'
    (mem_claimants_of_asked hk' rfl)
  exact ⟨entry, hentry, hentid, by simp [hident]⟩

theorem defined (he : BuilderNames (call.definitions db) e i) : ⟨i, e⟩ ∈ mid.idents := by
  obtain ⟨entry, hentry, rfl, hident⟩ := he
  obtain ⟨⟨j, e⟩, hr, rfl⟩ := h.names.installed.covered entry hentry i hident
  -- whichever definition or row has given the ident its row, the entity is this one
  have heq : e = entry.1 := by
    rcases h.names.installed.origin _ hr with hold | hnew
    · exact h.inPlace.ident entry hentry _ hident _ hold rfl
    · exact h.distinct ⟨entry, hentry, rfl, hident⟩ hnew
  exact heq ▸ hr

/-- The call asserts the ident that it installs, and no other, for an entity whose ident it
touches. -/
theorem assertsIdent (he : call.Defines db e) : ∃ k, ⟨":" ++ k, e⟩ ∈ mid.idents ∧
    call.AssertsOnly db e Entids.dbIdent (.keyword k) := by
  obtain ⟨entry, hentry, rfl, hsome⟩ := he
  obtain ⟨i, hi⟩ := Option.ne_none_iff_exists'.mp hsome
  have hbuilder : BuilderNames (call.definitions db) entry.1 i := ⟨entry, hentry, rfl, hi⟩
  obtain ⟨k, rfl, hk⟩ := h.names.asserted _ _ hbuilder
  have hmem := h.names.resolved.kept _ hk ⟨entry, hentry, rfl, hsome⟩ (by simp)
  refine ⟨k, h.defined hbuilder, hmem, fun d hd hde hda => ?_⟩
  obtain ⟨d', hd', ha, hadded, -, -⟩ := h.names.resolved.origin d hd
  have hdadded : d.added = true := hadded.trans (h.inPlace.asked d' hd' (ha.symm.trans hda)).1
  obtain ⟨info, hc⟩ := h.run.checked _ hmem rfl
  exact hc.eq_of_ea (h.identRow hc.attr).2.1 hmem hd hdadded hde hda

theorem defines (hd : d ∈ call.pending db) (ha : d.a = Entids.dbIdent) :
    call.Defines db d.e := by
  obtain ⟨d', hd', ha', -, -, he⟩ := h.names.resolved.origin d hd
  have hdef := (h.inPlace.asked d' hd' (ha'.symm.trans ha)).2
  rwa [he hdef]

theorem live_of_assertsIdent (honly : call.AssertsOnly db e Entids.dbIdent (.keyword k)) :
    db'.Live (e, Entids.dbIdent, .keyword k) := by
  have hread : ReadBack (fun _ => False) mid.cache (call.pending db) mid e Entids.dbIdent := by
    refine ⟨fun info hinfo => (h.identRow hinfo).2.1, ?_, ?_⟩
    · exact fun _ _ _ _ _ _ _ _ _ hfalse => hfalse.elim
    · intro d hd _ he ha r _ _ _ htype
      rw [honly.2 d hd he ha] at htype
      exact .inl (wholeSecond_of_ne (by rw [htype]; simp [valueType]))
  refine h.live_of_assertsOnly hread (fun hself => ?_) honly
  simp [partialEq] at hself

theorem live_kept (hlive : db.Live (e, Entids.dbIdent, .keyword k)) :
    db'.Live (e, Entids.dbIdent, .keyword k) := by
  obtain ⟨j, hj, hold⟩ := h.before.live e _ hlive
  cases hj
  by_cases hdef : call.Defines db e
  · -- the call gives the entity an ident again: it is the same one
    obtain ⟨k', hnew, honly⟩ := h.assertsIdent hdef
    have hsame := h.names.installed.entid _ (h.names.installed.kept _ hold) _ hnew rfl
    obtain rfl : k = k' := by simpa using congrArg IdentRow.ident hsame
    exact h.live_of_assertsIdent honly
  · have hnone : lastRow rows (e, Entids.dbIdent, .keyword k) = none := by
      refine lastRow_eq_none.mpr fun r hr hk => hdef ?_
      simp only [LogRow.triple, Prod.mk.injEq] at hk
      obtain ⟨rfl, ha, -⟩ := hk
      cases h.origin r hr with
      | retracted hd | asserted hd | replaced hd => exact h.defines hd ha
    obtain ⟨x, hx, hk⟩ := hlive
    have hxa : x.a = Entids.dbIdent := congrArg (·.2.1) hk
    have hmid : x ∈ mid.current := by
      refine h.mem_mid_current.mpr (.inr ⟨hx, fun heq => ?_⟩)
      have ha : x.a = Entids.dbTxInstant := congrArg (·.2.1) heq
      exact absurd (hxa.symm.trans ha) (by decide)
    rcases h.run.current_kept x hmid with hloop | ⟨info, hinfo, hhist⟩
    · exact ⟨x, (h.projection x).mpr (.inr ⟨hk ▸ hnone, hloop⟩), hk⟩
    · rw [hxa] at hinfo
      exact absurd hhist (Bool.eq_false_iff.mp (h.identRow hinfo).2.2)

theorem ident_of_live (hlive : db'.Live (e, Entids.dbIdent, v)) :
    ∃ k, v = .keyword k ∧ ⟨":" ++ k, e⟩ ∈ mid.idents := by
  obtain ⟨x, hx, hk⟩ := hlive
  rcases (h.projection x).mp hx with ⟨r, hlast, hadded, -⟩ | ⟨-, hx⟩
  · obtain ⟨d, hd, info, hc, -, hdk⟩ := h.asserted_of_lastRow hlast hadded
    obtain ⟨rfl, ha, rfl⟩ : d.e = e ∧ d.a = Entids.dbIdent ∧ d.v = v := by
      simpa [PendingDatom.triple] using hdk.trans hk
    obtain ⟨k, hident, honly⟩ := h.assertsIdent (h.defines hd ha)
    exact ⟨k, congrArg PendingDatom.v (honly.2 d hd rfl ha), hident⟩
  · rcases h.mem_mid_current.mp (h.run.current_subset x hx) with rfl | ⟨hx, -⟩
    · have ha : Entids.dbTxInstant = Entids.dbIdent := congrArg (·.2.1) hk
      exact absurd ha (by decide)
    · obtain ⟨k, hv, hmem⟩ := h.before.live e v ⟨x, hx, hk⟩
      exact ⟨k, hv, h.names.installed.kept _ hmem⟩

theorem namesSound : db'.NamesSound := by
  have hinstalled := h.names.installed
  have hschema : ∀ r ∈ mid.schema, ⟨r.ident, r.entid⟩ ∈ mid.idents := by
    intro r hr
    rcases hinstalled.schema r hr with hr | hr
    · exact hinstalled.kept _ (h.before.schema r hr)
    · exact h.defined hr
  refine ⟨⟨?_, ?_, ?_, ?_, ?_⟩, ?_, ?_, ?_⟩
  · rw [h.schema_eq, h.idents_eq]
    exact hschema
  · intro e v hlive
    rw [h.idents_eq]
    exact h.ident_of_live hlive
  · intro r hr
    rw [h.idents_eq] at hr
    rcases hinstalled.origin r hr with hold | hnew
    · refine (h.before.datom r hold).imp_right ?_
      rintro ⟨k, hk, hlive⟩
      exact ⟨k, hk, h.live_kept hlive⟩
    · obtain ⟨entry, hentry, he, hi⟩ := hnew
      have hdef : call.Defines db r.entid := ⟨entry, hentry, he, by simp [hi]⟩
      obtain ⟨k, hident, honly⟩ := h.assertsIdent hdef
      have hsame := hinstalled.entid _ hr _ hident rfl
      refine .inr ⟨k, congrArg IdentRow.ident hsame, ?_⟩
      exact h.live_of_assertsIdent honly
  · rw [h.idents_eq]
    exact hinstalled.ident
  · rw [h.schema_eq]
    intro r hr r' hr' hident
    refine hinstalled.schemaEntid r hr r' hr' ?_
    have hsame := hinstalled.ident _ (hschema r hr) _ (hschema r' hr') hident
    exact congrArg IdentRow.entid hsame
  · rw [h.idents_eq]
    exact hinstalled.entid
  · rw [h.schema_eq]
    exact hinstalled.schemaEntid
  · rw [h.cache_eq, hinstalled.declared, h.before.declared]

end NamedCommit

end Call

theorem namesSound_bootstrapDb : bootstrapDb.NamesSound where
  schema := by decide +kernel
  live := fun _ _ ⟨_, hr, _⟩ => nomatch hr
  datom := fun _ hr => .inl hr
  ident := by decide +kernel
  schemaIdent := by decide +kernel
  entid := by decide +kernel
  schemaEntid := by decide +kernel
  declared := rfl

/-- In a run whose calls name entities in place, every ident has one entity in `idents`, in
`schema` and among the live `:db/ident` datoms, and no two schema rows share an ident. -/
theorem identsAgree_of_namesInPlace {db : Db}
    (hrun : Reaches (fun d call _ => call.NamesInPlace d) bootstrapDb db) : db.IdentsAgree := by
  have hinv : db.NamesSound := by
    apply hrun.invariant (I := Db.NamesSound) ?_ namesSound_bootstrapDb
    intro mid db' call report hinv hcall hplace
    obtain ⟨_, _, _, h⟩ := mentatTransact_namedCommit hinv hplace hcall
    exact h.namesSound
  exact hinv.toIdentsAgree

instance (call : Call) (db : Db) (e : Int64) : Decidable (call.Defines db e) :=
  inferInstanceAs (Decidable (∃ entry ∈ call.definitions db, entry.1 = e ∧ entry.2.ident ≠ none))

-- over the list, since the type of entity ids is finite too
instance (call : Call) (db : Db) (a : Int64) (v : TypedValue) :
    Decidable (∀ e ∈ call.claimants db a v, call.Defines db e →
      ∀ e' ∈ call.claimants db a v, e' = e) :=
  letI (e : Int64) : Decidable (∀ e' ∈ call.claimants db a v, e' = e) :=
    List.decidableBAll (fun e' => e' = e) _
  List.decidableBAll (fun e => call.Defines db e → ∀ e' ∈ call.claimants db a v, e' = e) _

instance (call : Call) (db : Db) : Decidable (call.NamesInPlace db) :=
  decidable_of_iff
    ((∀ entry ∈ call.definitions db, ∀ i ∈ entry.2.ident, ∀ r ∈ db.idents, r.ident = i →
        r.entid = entry.1) ∧
      (∀ d ∈ call.asked db, isIdentityAssertion (call.cache db) d = true →
        ∀ e ∈ call.claimants db d.a d.v, call.Defines db e →
          ∀ e' ∈ call.claimants db d.a d.v, e' = e) ∧
      (∀ d ∈ call.asked db, d.a = Entids.dbIdent → d.added = true ∧ call.Defines db d.e) ∧
      ∀ entry ∈ call.definitions db, entry.1 = Entids.dbIdent → entry.2.valueType = none)
    ⟨fun h => ⟨h.1, h.2.1, h.2.2.1, h.2.2.2⟩, fun h => ⟨h.ident, h.identity, h.asked, h.declared⟩⟩

/-- A call that names an entity under a tempid. -/
def nameStatus (txId now entid : Int64) : Call :=
  defineCall txId now entid [("ident", .namespaced "status" "open")]

/-- `:status/open` is named, named again at its place, and described. -/
def statusCalls : List Call :=
  [nameStatus 1000000000001 1735689600000000 1000001,
   plainCall 1000000000002 1735689601000000 [.map
     [(.keyword (.namespaced "db" "id"), .keyword (.namespaced "status" "open")),
      (.keyword (.namespaced "db" "ident"), .keyword (.namespaced "status" "open")),
      (.keyword (.namespaced "db" "doc"), .text "open")]]]

theorem identsAgree_of_namesInPlace_status :
    ∃ db, stateAfter statusCalls = some db ∧ ⟨":status/open", 1000001⟩ ∈ db.idents ∧
      db.IdentsAgree := by
  have hmeets : RunMeets (fun d call _ => call.NamesInPlace d) statusCalls bootstrapDb := by
    decide +kernel
  have hstate : ∃ db, stateAfter statusCalls = some db ∧ ⟨":status/open", 1000001⟩ ∈ db.idents := by
    decide +kernel
  obtain ⟨db, hdb, hrun, hmem⟩ := hmeets.exists_reaches hstate
  exact ⟨db, hdb, hmem, identsAgree_of_namesInPlace hrun⟩

/-- `:status/open` becomes an attribute, under a tempid. -/
def declareStatus : Call :=
  defineCall 1000000000002 1735689601000000 1000002
    [("ident", .namespaced "status" "open"), ("valueType", .namespaced "db.type" "boolean"),
     ("cardinality", .namespaced "db.cardinality" "one")]

/-- The definition under a tempid moves the ident to the new id and installs the attribute there.
The upsert then leaves the datom with the entity that had the ident. -/
theorem idents_disagree :
    ∃ db, stateAfter [nameStatus 1000000000001 1735689600000000 1000001, declareStatus] = some db ∧
      ⟨":status/open", 1000002⟩ ∈ db.idents ∧
      (∃ r ∈ db.schema, r.ident = ":status/open" ∧ r.entid = 1000002) ∧
      db.Live (1000001, Entids.dbIdent, .keyword "status/open") ∧ ¬ db.IdentsAgree := by
  have hstate : ∃ db ∈ stateAfter [nameStatus 1000000000001 1735689600000000 1000001,
        declareStatus],
      ⟨":status/open", 1000002⟩ ∈ db.idents ∧
      (∃ r ∈ db.schema, r.ident = ":status/open" ∧ r.entid = 1000002) ∧
      db.Live (1000001, Entids.dbIdent, .keyword "status/open") ∧
      ⟨":status/open", 1000001⟩ ∉ db.idents := by
    decide +kernel
  obtain ⟨db, hdb, hident, hschema, hlive, hnot⟩ := hstate
  refine ⟨db, hdb, hident, hschema, hlive, fun hagree => ?_⟩
  obtain ⟨k, hk, hmem⟩ := hagree.live _ _ hlive
  cases hk
  exact hnot hmem

end PgMentat

import PgMentat.Cas
import PgMentat.Timestamp
import PgMentat.UniqueHolders
import PgMentat.Transact.Success
import PgMentat.Lib.Walk

namespace PgMentat

open List StatementProgram Program

/-- The attributes and values that the log asserts of an entity, as a scan finds them. -/
def assertedOf (scan : ScanOrder) (db : Db) (e : Int64) : List (Int64 × TypedValue) :=
  ((scan.log db.log).filter fun r => r.e = e ∧ r.added).map fun r => (r.a, r.v)

def componentsOf (c : SchemaCache) (scan : ScanOrder) (db : Db) (e : Int64) : List Int64 :=
  (assertedOf scan db e).filterMap (componentTarget c)

variable {v : TypedValue}

theorem mem_assertedOf {scan : ScanOrder} {db : Db} {e a : Int64} :
    (a, v) ∈ assertedOf scan db e ↔ db.Asserted e a v := by
  simp only [assertedOf, Db.Asserted, mem_map, mem_filter, (scan.log_perm _).mem_iff,
    decide_eq_true_eq, Prod.mk.injEq, LogRow.triple]
  constructor
  · rintro ⟨r, ⟨hr, he, hadded⟩, ha, hv⟩
    exact ⟨r, hr, hadded, he, ha, hv⟩
  · rintro ⟨r, hr, hadded, he, ha, hv⟩
    exact ⟨r, ⟨hr, he, hadded⟩, ha, hv⟩

section Walk

variable {c : SchemaCache} {b : Backend} {db : Db}

def Retracted (scan : ScanOrder) (db : Db) (st : RetractState) (visited : List Int64)
    (pending : List PendingDatom) : Prop :=
  ∀ d, d ∈ pending ↔ d ∈ st.pending ∨
    (d.e ∈ visited ∧ d.e ∉ st.visited ∧ d.added = false ∧ (d.a, d.v) ∈ assertedOf scan db d.e)

theorem Retracted.refl (scan : ScanOrder) (db : Db) (st : RetractState) :
    Retracted scan db st st.visited st.pending := by
  intro d
  constructor
  · exact .inl
  · rintro (hd | ⟨hin, hout, -⟩)
    · exact hd
    · exact absurd hin hout

variable {scan : ScanOrder} {st : RetractState} {visited : List Int64}

theorem Retracted.trans {st' : RetractState} {pending : List PendingDatom}
    (h : Retracted scan db st st'.visited st'.pending) (h' : Retracted scan db st' visited pending)
    (hsub : ∀ x ∈ st.visited, x ∈ st'.visited) (hsub' : ∀ x ∈ st'.visited, x ∈ visited) :
    Retracted scan db st visited pending := by
  intro d
  rw [h' d, h d]
  constructor
  · rintro ((hd | ⟨hin, hout, hrow⟩) | ⟨hin, hout, hrow⟩)
    · exact .inl hd
    · exact .inr ⟨hsub' _ hin, hout, hrow⟩
    · exact .inr ⟨hin, fun hmem => hout (hsub _ hmem), hrow⟩
  · rintro (hd | ⟨hin, hout, hrow⟩)
    · exact .inl (.inl hd)
    · by_cases hmid : d.e ∈ st'.visited
      · exact .inl (.inr ⟨hmid, hout, hrow⟩)
      · exact .inr ⟨hin, hmid, hrow⟩

def RetractState.enter (st : RetractState) (scan : ScanOrder) (db : Db) (e : Int64) :
    RetractState :=
  ⟨e :: st.visited, st.pending ++ (assertedOf scan db e).map fun row => ⟨e, row.1, row.2, false⟩⟩

theorem Retracted.enter {e : Int64} (he : e ∉ st.visited) :
    Retracted scan db st (st.enter scan db e).visited (st.enter scan db e).pending := by
  intro d
  rw [RetractState.enter, mem_append, mem_map]
  refine or_congr Iff.rfl ⟨?_, ?_⟩
  · rintro ⟨row, hrow, rfl⟩
    exact ⟨mem_cons_self, he, rfl, hrow⟩
  · rintro ⟨hin, hout, hadded, hrow⟩
    have hde : d.e = e := (mem_cons.mp hin).resolve_right hout
    rw [hde] at hrow
    refine ⟨_, hrow, ?_⟩
    rw [← hde, ← hadded]

theorem foldlM_retract_run {depth : Nat} (ih : ∀ (st : RetractState) (e : Int64) visited,
      Walk.walk (componentsOf c b.scan db) depth st.visited e = some visited →
      ∃ pending, server.run (executeRetractEntityRecursive c depth st e) b db =
        .ok (⟨visited, pending⟩, b, db) ∧ Retracted b.scan db st visited pending)
    (targets : List Int64) (st : RetractState)
    (h : targets.foldlM (Walk.walk (componentsOf c b.scan db) depth) st.visited = some visited) :
    ∃ pending, server.run (targets.foldlM (executeRetractEntityRecursive c depth) st) b db =
      .ok (⟨visited, pending⟩, b, db) ∧ Retracted b.scan db st visited pending ∧
      ∀ x ∈ st.visited, x ∈ visited := by
  induction targets generalizing st with
  | nil =>
    cases h
    exact ⟨st.pending, rfl, .refl b.scan db st, fun x hx => hx⟩
  | cons e targets ihs =>
    rw [foldlM_cons] at h
    obtain ⟨mid, hmid, hrest⟩ := Option.bind_eq_some_iff.mp h
    obtain ⟨pending1, hrun1, hretracted1⟩ := ih st e mid hmid
    obtain ⟨pending2, hrun2, hretracted2, hsub⟩ := ihs ⟨mid, pending1⟩ hrest
    have hgrow : ∀ x ∈ st.visited, x ∈ mid := fun x hx => Walk.mem_walk_of_mem hmid hx
    refine ⟨pending2, ?_, hretracted1.trans hretracted2 hgrow hsub, ?_⟩
    · rw [foldlM_cons, Server.run_bind, hrun1]
      exact hrun2
    · exact fun x hx => hsub x (hgrow x hx)

theorem executeRetractEntityRecursive_run (depth : Nat) (st : RetractState) (e : Int64)
    (h : Walk.walk (componentsOf c b.scan db) depth st.visited e = some visited) :
    ∃ pending, server.run (executeRetractEntityRecursive c depth st e) b db =
      .ok (⟨visited, pending⟩, b, db) ∧ Retracted b.scan db st visited pending := by
  induction depth generalizing st e visited with
  | zero => cases h
  | succ depth ih =>
    unfold executeRetractEntityRecursive
    by_cases he : e ∈ st.visited
    · rw [Walk.walk_of_mem he] at h
      cases h
      rw [if_pos he]
      exact ⟨st.pending, rfl, .refl b.scan db st⟩
    · rw [Walk.walk_of_not_mem he] at h
      rw [if_neg he]
      have hselect : server.run (spi (.selectDatomsOf e)) b db =
          .ok (assertedOf b.scan db e, b, db) := rfl
      rw [Server.run_bind, hselect]
      dsimp only
      obtain ⟨pending, hrun, hretracted, hsub⟩ := foldlM_retract_run
        (fun st e visited h => ih st e h) (componentsOf c b.scan db e) (st.enter b.scan db e) h
      refine ⟨pending, hrun, (Retracted.enter he).trans hretracted ?_ hsub⟩
      exact fun x hx => mem_cons_of_mem e hx

end Walk

def Db.IsComponent (db : Db) (a : Int64) : Prop :=
  ∃ info, db.cache.getAttribute a = some info ∧ info.component = true

def Db.LiveComponent (db : Db) (x y : Int64) : Prop :=
  ∃ a, db.IsComponent a ∧ db.Live (x, a, .ref y)

def Db.AssertedComponent (db : Db) (x y : Int64) : Prop :=
  ∃ a, db.IsComponent a ∧ db.Asserted x a (.ref y)

def Db.LiveReach (db : Db) : Int64 → Int64 → Prop := Relation.ReflTransGen db.LiveComponent

def Db.AssertedReach (db : Db) : Int64 → Int64 → Prop := Relation.ReflTransGen db.AssertedComponent

/-- `[[:db/retractEntity e]]`, under any of its names. -/
structure Call.RetractsEntity (call : Call) (db : Db) (e : Int64) : Prop where
  document : ∃ k, recognizeTxFn k = some .retractEntity ∧
    call.document = .vector [.vector [.keyword k, .integer e]]
  tx_new : ∀ r ∈ db.transactions, r.tx ≠ call.backend.txId
  /-- The stack is deep enough for a recursion over all entities that the log mentions. -/
  stack : db.log.length + 1 < call.backend.stackDepth
  /-- The instants that are read are written back as they are. -/
  stored : ∀ r ∈ db.log, r.added = true → db.AssertedReach e r.e → r.v.Stored
  /-- `0.0` and `-0.0`, here one value, are one key of the tables under two literals. -/
  zeros : ∀ r ∈ db.log, ∀ r' ∈ db.log, r.added = true → r'.added = true →
    db.AssertedReach e r.e → r'.e = r.e → r'.a = r.a → r.v = .double .zero →
    r'.v = .double .zero → r' = r

section Passes

variable {b : Backend} {db : Db} {e : Int64} {k : Keyword}

theorem prepareDatoms_retractEntity {depth : Nat} {visited : List Int64}
    (hk : recognizeTxFn k = some .retractEntity)
    (h : Walk.walk (componentsOf db.cache b.scan db) depth [] e = some visited) :
    ∃ pending, server.run (prepareDatoms depth [.vector [.keyword k, .integer e]]) b db =
        .ok (⟨db.cache, [], pending, false⟩, b, db) ∧
      ∀ d, d ∈ pending ↔ d.e ∈ visited ∧ d.added = false ∧
        (d.a, d.v) ∈ assertedOf b.scan db d.e := by
  obtain ⟨pending, hrun, hretracted⟩ := executeRetractEntityRecursive_run depth { pending :=
    [] } e h
  have hpending : ∀ d, d ∈ pending ↔ d.e ∈ visited ∧ d.added = false ∧
      (d.a, d.v) ∈ assertedOf b.scan db d.e := by
    intro d
    rw [hretracted d]
    simp
  refine ⟨pending, ?_, hpending⟩
  have hselect : server.run (spi .selectSchema) b db = .ok (db.cache, b, db) := rfl
  have hscan : scanEntities db.cache [.vector [.keyword k, .integer e]] = .ret {} := rfl
  have hexpand : expandEntities db.cache depth {} [.vector [.keyword k, .integer e]] =
      (executeRetractEntityFn db.cache depth e [] >>= fun pending => .ret ⟨[], pending⟩)
        >>= .ret := by
    simp only [expandEntities, zipIdx_singleton, foldlM_cons, foldlM_nil,
      expandEntity, expandOperation, hk, expandTxFn, resolveEntityPlace, pure_eq_ret,
      ret_bind]
  have hresolve : resolveUpserts db.cache ⟨[], pending⟩ = .ret ⟨[], pending⟩ := by
    apply resolveUpserts_eq_ret
    intro d hd
    simp [isIdentityAssertion, ((hpending d).mp hd).2.1]
  unfold prepareDatoms
  simp only [Server.run_bind, hselect, hscan, installSchemaAttributes, foldlM_nil,
    pure_eq_ret, ret_bind, hexpand, executeRetractEntityFn, hrun]
  simp only [Server.run, hresolve]
  rfl

end Passes

section Rows

variable {c : SchemaCache} {all done : List PendingDatom} {tx : Int64} {scan : ScanOrder}
  {db db' : Db} {rows : List LogRow}

theorem QueueRun.rows_of_retractions (h : QueueRun c all tx scan db done db' rows)
    (hall : ∀ d ∈ done, d.added = false) : db' = db ∧ rows = done.map fun d => d.row tx := by
  induction h with
  | nil => exact ⟨rfl, rfl⟩
  | @snoc done mid rows d db' rows' _ hstep ih =>
    obtain ⟨rfl, rfl⟩ := ih fun d' hd' => hall d' (mem_append_left [d] hd')
    have hadded := hall d (mem_append_right done mem_cons_self)
    cases hstep with
    | retract => exact ⟨rfl, by simp⟩
    | _ => exact absurd (‹Validated _ _ _ _ _ _›).added (Bool.eq_false_iff.mp hadded)

theorem insertDatoms_completes_retractions {b : Backend} {pending : List PendingDatom}
    (hall : ∀ d ∈ pending, d.added = false) : Completes (insertDatoms c pending tx) b db := by
  apply insertDatoms_completes
  · intro done loop rows _ d hd hadded
    exact absurd hadded (Bool.eq_false_iff.mp (hall d hd))
  · intro loop rows hrun x hx y hy hkey
    obtain ⟨-, rfl⟩ := hrun.rows_of_retractions hall
    have hflag : ∀ r ∈ dedupRows (pending.map fun d => d.row tx), r.added = false := by
      intro r hr
      obtain ⟨d, hd, rfl⟩ := mem_map.mp (mem_of_mem_dedupRows hr)
      exact hall d hd
    have hx := hflag x hx
    have hy := hflag y hy
    obtain ⟨e, a, v, t, added⟩ := x
    obtain ⟨e', a', v', t', added'⟩ := y
    cases hkey
    cases hx
    cases hy
    rfl

end Rows

theorem Committed.live_iff_of_retractions {call : Call} {db mid loop db' : Db} {rows : List LogRow}
    (h : Committed call db mid loop db' rows) (hall : ∀ d ∈ call.pending db, d.added = false)
    {k : Triple} : db'.Live k ↔ (db.Live k ∨ k = call.instantRow.triple) ∧
      ∀ d ∈ call.pending db, d.triple ≠ k := by
  obtain ⟨rfl, hrows⟩ := h.run.rows_of_retractions hall
  rw [← h.mid_live_iff]
  cases hlast : lastRow rows k with
  | none =>
    rw [h.live_iff_of_no_row hlast, iff_self_and]
    intro _ d hd htriple
    refine lastRow_eq_none.mp hlast (d.row call.backend.txId) ?_ htriple
    rw [hrows]
    exact mem_map_of_mem hd
  | some r =>
    obtain ⟨hr, htriple⟩ := mem_of_lastRow hlast
    rw [hrows] at hr
    obtain ⟨d, hd, rfl⟩ := mem_map.mp hr
    rw [h.live_iff_of_lastRow hlast]
    have hadded : (d.row call.backend.txId).added = false := hall d hd
    rw [hadded]
    refine iff_of_false (by decide) fun hlive => ?_
    exact hlive.2 d hd htriple

theorem Db.LogSound.assertedReach {db : Db} (h : db.LogSound) {x y : Int64}
    (hreach : db.LiveReach x y) : db.AssertedReach x y := by
  refine Relation.ReflTransGen.mono ?_ x y hreach
  intro x y hedge
  obtain ⟨a, hcomponent, hlive⟩ := hedge
  exact ⟨a, hcomponent, h.live x a (.ref y) hlive⟩

theorem componentTarget_eq_some {c : SchemaCache} {a y : Int64} :
    componentTarget c (a, v) = some y ↔
      v = .ref y ∧ ∃ info, c.getAttribute a = some info ∧ info.component = true := by
  unfold componentTarget
  split
  · rename_i target info hv hattr
    cases hv
    split
    · rename_i hcomponent
      simp [hattr, hcomponent]
    · rename_i hcomponent
      simp [hattr, hcomponent]
  · rename_i hnone
    constructor
    · intro h
      cases h
    · rintro ⟨rfl, info, hattr, -⟩
      exact absurd hattr (hnone y info rfl)

section Begun

variable {b : Backend} {db : Db}

theorem Db.LogSound.tx_ne (h : db.LogSound) (hnew : ∀ r ∈ db.transactions, r.tx ≠ b.txId) :
    ∀ r ∈ db.log, r.tx ≠ b.txId := by
  intro r hr heq
  obtain ⟨t, ht, htx⟩ := h.tx r hr
  exact hnew t ht (htx.trans heq)

section

variable (hlog : ∀ r ∈ db.log, r.tx ≠ b.txId)

include hlog

theorem mem_begun_log {r : LogRow} :
    r ∈ (db.begun b).log ↔ r ∈ db.log ∨ r = txInstantRow b.txId b.now := by
  rw [Db.begun, KeyedTable.mem_insertNew]
  refine or_congr Iff.rfl (and_iff_left_of_imp fun _ y hy hkey => ?_)
  exact hlog y hy (Prod.mk.inj hkey).2

theorem mem_componentsOf_begun {x y : Int64} :
    y ∈ componentsOf db.cache b.scan (db.begun b) x ↔ db.AssertedComponent x y := by
  simp only [componentsOf, mem_filterMap, Prod.exists, mem_assertedOf, Db.Asserted,
    mem_begun_log hlog, componentTarget_eq_some]
  constructor
  · rintro ⟨a, v, ⟨r, hr | rfl, hadded, htriple⟩, rfl, hcomponent⟩
    · exact ⟨a, hcomponent, r, hr, hadded, htriple⟩
    · cases htriple
  · rintro ⟨a, hcomponent, r, hr, hadded, htriple⟩
    exact ⟨a, .ref y, ⟨r, .inl hr, hadded, htriple⟩, rfl, hcomponent⟩

theorem reaches_componentsOf_begun {x y : Int64} :
    Walk.Reaches (componentsOf db.cache b.scan (db.begun b)) x y ↔ db.AssertedReach x y := by
  have hedges : (fun x y => y ∈ componentsOf db.cache b.scan (db.begun b) x) =
      db.AssertedComponent := by
    funext x y
    exact propext (mem_componentsOf_begun hlog)
  rw [Walk.Reaches, hedges, Db.AssertedReach]

theorem exists_walk_begun (hdepth : db.log.length + 1 < b.stackDepth) (e : Int64) :
    ∃ visited, Walk.walk (componentsOf db.cache b.scan (db.begun b)) b.stackDepth [] e =
      some visited := by
  have hnodes : ∀ x, componentsOf db.cache b.scan (db.begun b) x ≠ [] →
      x ∈ db.log.map LogRow.e := by
    intro x hx
    obtain ⟨y, hy⟩ := exists_mem_of_ne_nil _ hx
    obtain ⟨a, -, r, hr, -, htriple⟩ := (mem_componentsOf_begun hlog).mp hy
    have he : r.e = x := congrArg Prod.fst htriple
    rw [← he]
    exact mem_map_of_mem hr
  apply Walk.exists_walk hnodes
  have hle : (Walk.unvisited (db.log.map LogRow.e) []).length ≤ (db.log.map LogRow.e).length :=
    length_filter_le _ _
  rw [length_map] at hle
  omega

end

end Begun

/-- The call ends, and takes the live datoms of what live component refs reach from `e`. -/
def Call.RetractsComponents (call : Call) (db : Db) (e : Int64) : Prop :=
  ∃ report db', mentatTransact call db = .ok (report, db') ∧ ∀ k, db'.Live k ↔
    (db.Live k ∧ ¬ db.LiveReach e k.1) ∨ k = call.instantRow.triple

/-- What asserted component refs reach and is live is reached by live ones, and the transaction
itself is not reached. -/
structure Db.ReachesLive (db : Db) (call : Call) (e : Int64) : Prop where
  live : ∀ k, db.Live k → db.AssertedReach e k.1 → db.LiveReach e k.1
  own : ¬ db.AssertedReach e call.backend.txId

section Call

variable {call : Call} {db : Db} {e : Int64}

theorem Call.RetractsEntity.outcome (h : call.RetractsEntity db e) (hsound : db.LogSound) :
    ∃ report db', mentatTransact call db = .ok (report, db') ∧ ∀ k, db'.Live k ↔
      (db.Live k ∨ k = call.instantRow.triple) ∧ ¬ db.AssertedReach e k.1 := by
  obtain ⟨⟨op, hop, hdoc⟩, hnew, hstack⟩ := h
  have hlog := hsound.tx_ne hnew
  obtain ⟨visited, hwalk⟩ := exists_walk_begun hlog hstack e
  have hwalk' : Walk.walk (componentsOf (db.begun call.backend).cache call.backend.scan
      (db.begun call.backend)) call.backend.stackDepth [] e = some visited := hwalk
  obtain ⟨pending, hprepare, hpending⟩ := prepareDatoms_retractEntity hop hwalk'
  have hbegin : server.run (beginTransaction call.backend.stackDepth
      [.vector [.keyword op, .integer e]]) call.backend db =
      .ok ((⟨db.basisBelow call.backend.txId, call.backend.txId, call.backend.now⟩,
        ⟨db.cache, [], pending, false⟩), call.backend, db.begun call.backend) := by
    rw [beginTransaction_run hnew, hprepare]
    rfl
  have hall : ∀ d ∈ pending, d.added = false := fun d hd => ((hpending d).mp hd).2.1
  obtain ⟨report, db', hcall⟩ :=
    mentatTransact_of_begin hdoc hbegin (insertDatoms_completes_retractions hall)
  obtain ⟨mid, loop, rows, hc⟩ := mentatTransact_committed hcall
  have hcallPending : call.pending db = pending := by
    rw [Call.pending, Call.prepared_eq hdoc hbegin]
  refine ⟨report, db', hcall, fun k => ?_⟩
  rw [hc.live_iff_of_retractions (hcallPending ▸ hall), hcallPending]
  refine and_congr_right fun hk => ?_
  -- what is live is asserted, so it is retracted as soon as its entity is entered
  have hasserted : (db.begun call.backend).Asserted k.1 k.2.1 k.2.2 := by
    rcases hk with hk | rfl
    · apply (hsound.live k.1 k.2.1 k.2.2 hk).mono
      intro r hr
      exact (mem_begun_log hlog).mpr (.inl hr)
    · exact ⟨_, (mem_begun_log hlog).mpr (.inr rfl), rfl, rfl⟩
  rw [← reaches_componentsOf_begun hlog, ← Walk.mem_walk_iff hwalk]
  constructor
  · intro hkept hvisited
    exact hkept ⟨k.1, k.2.1, k.2.2, false⟩
      ((hpending _).mpr ⟨hvisited, rfl, mem_assertedOf.mpr hasserted⟩) rfl
  · rintro hout d hd rfl
    exact hout ((hpending d).mp hd).1

end Call

theorem retractsEntity_of_log {call : Call} {db : Db} {e : Int64} {k : Keyword}
    (hk : recognizeTxFn k = some .retractEntity)
    (hdoc : call.document = .vector [.vector [.keyword k, .integer e]])
    (hnew : ∀ r ∈ db.transactions, r.tx ≠ call.backend.txId)
    (hstack : db.log.length + 1 < call.backend.stackDepth)
    (hvalues : ∀ r ∈ db.log, r.v.Stored ∧ r.v ≠ .double .zero) : call.RetractsEntity db e where
  document := ⟨k, hk, hdoc⟩
  tx_new := hnew
  stack := hstack
  stored := fun r hr _ _ => (hvalues r hr).1
  zeros := fun r hr _ _ _ _ _ _ _ hzero => absurd hzero (hvalues r hr).2

def defineLine : Call :=
  ⟨⟨1735689601000000, 1000000000001, [1000001], .heap, 8⟩, .vector [.map
    [(.keyword (.namespaced "db" "id"), .text "line"),
     (.keyword (.namespaced "db" "ident"), .keyword (.namespaced "order" "line")),
     (.keyword (.namespaced "db" "valueType"), .keyword (.namespaced "db.type" "ref")),
     (.keyword (.namespaced "db" "cardinality"), .keyword (.namespaced "db.cardinality" "many")),
     (.keyword (.namespaced "db" "isComponent"), .boolean true)]]⟩

/-- An order and its line, which refers back to the order. -/
def addLine : Call :=
  plainCall 1000000000002 1735689602000000 [addDatom 500 1000001 (.integer 600),
    addDatom 600 1000001 (.integer 500), addDatom 600 Entids.dbDoc (.text "line")]

def retractOrder (tx : Int64) : Call :=
  ⟨⟨1735689604000000, tx, [], .heap, 64⟩,
    .vector [.vector [.keyword (.namespaced "db" "retractEntity"), .integer 500]]⟩

def removeLine : Call :=
  plainCall 1000000000003 1735689603000000 [retractDatom 500 1000001 (.integer 600)]

end PgMentat

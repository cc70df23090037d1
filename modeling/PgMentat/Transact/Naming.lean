import PgMentat.Transact.Queue

namespace PgMentat

open List StatementProgram Program Server

theorem Keyword.display_eq (k : Keyword) : k.display = ":" ++ k.stored := by
  unfold display stored
  cases k.ns with
  | none => rfl
  | some ns => simp only [String.append_assoc]

inductive StandsFor (c : SchemaCache) (tempids : Tempids) (scan : ScanOrder) (db : Db) :
    EdnValue → Int64 → Prop
  | entid {e} : StandsFor c tempids scan db (.integer e) e
  | tempid {s e} (h : tempids.lookup s = some e) : StandsFor c tempids scan db (.text s) e
  | ident {k e} (h : c.resolveIdent k.display = some e) :
      StandsFor c tempids scan db (.keyword k) e
  | lookupRef {k value a v e} (ha : c.resolveIdent k.display = some a)
      (hv : encodeValue value = .ok v) (he : firstHolder scan db a v = some e) :
      StandsFor c tempids scan db (.vector [.keyword k, value]) e

theorem lookup_kept {α β : Type} [BEq α] {xs ys : List (α × β)} (h : xs <+: ys) {a : α} {b : β}
    (hb : xs.lookup a = some b) : ys.lookup a = some b := by
  obtain ⟨rest, rfl⟩ := h
  rw [lookup_append, hb]
  rfl

section

variable {tempids tempids' : Tempids} {scan : ScanOrder} {place : EdnValue} {e : Int64}
  {c c' : SchemaCache}

theorem StandsFor.mono {c : SchemaCache} {db : Db} (h : StandsFor c tempids scan db place e)
    (ht : tempids <+: tempids') : StandsFor c tempids' scan db place e := by
  cases h with
  | entid => exact .entid
  | tempid h => exact .tempid (lookup_kept ht h)
  | ident h => exact .ident h
  | lookupRef ha hv he => exact .lookupRef ha hv he

/-- Every ident keeps its entity. -/
def SchemaCache.Extends (c' c : SchemaCache) : Prop :=
  ∀ ident e, c.resolveIdent ident = some e → c'.resolveIdent ident = some e

theorem StandsFor.eq {db db' : Db} {e e' : Int64} (h : StandsFor c tempids scan db place e)
    (h' : StandsFor c' tempids' scan db' place e') (hc : c'.Extends c) (ht : tempids <+: tempids')
    (hlog : db'.log = db.log) : e' = e := by
  cases h with
  | entid =>
    cases h'
    rfl
  | tempid h =>
    cases h' with
    | tempid h' => exact Option.some.inj (h'.symm.trans (lookup_kept ht h))
  | ident h =>
    cases h' with
    | ident h' => exact Option.some.inj (h'.symm.trans (hc _ _ h))
  | lookupRef ha hv he =>
    cases h' with
    | lookupRef ha' hv' he' =>
      cases ha'.symm.trans (hc _ _ ha)
      cases hv'.symm.trans hv
      rw [firstHolder, hlog] at he'
      exact Option.some.inj (he'.symm.trans he)

end

section Reads

variable {α : Type} {p : Tx α} {b : Backend} {db : Db}

theorem ensures_reading {Q : α → Backend → Db → Prop} (hp : p.Only Stmt.ReadOnly)
    (h : server.Ensures p b db Q) :
    server.Ensures p b db fun a b' db' => b'.scan = b.scan ∧ db' = db ∧ Q a b' db' :=
  (ensures_sameSession.and ((ensures_readOnly hp).and h)).mono fun _ _ _ h =>
    ⟨h.1.2.2.1, h.2.1, h.2.2⟩

theorem resolveLookupRef_ensures (k : Keyword) (value : EdnValue) (tempids : Tempids) :
    server.Ensures (resolveLookupRef db.cache (.keyword k) value) b db fun e _ _ =>
      StandsFor db.cache tempids b.scan db (.vector [.keyword k, value]) e := by
  unfold resolveLookupRef
  rw [ensures_bind, ensures_ofExcept]
  intro a ha
  have hident : db.cache.resolveIdent k.display = some a := by
    simp only [resolveAttribute] at ha
    split at ha <;> cases ha
    assumption
  split
  · exact ensures_fail _
  · split
    · exact ensures_fail _
    · rw [ensures_bind, ensures_ofExcept]
      intro v hv
      rw [ensures_bind]
      refine (checkUniqueTypedValue_ensures a v b db).mono fun holder b1 db1 h => ?_
      split
      · rename_i e
        exact (ensures_ret _).mpr (.lookupRef hident hv h.1.symm)
      · exact ensures_fail _

theorem find?_idents_of_resolveIdent {ident : String} (h : db.cache.resolveIdent ident = none) :
    db.idents.find? (fun r => r.ident = ident) = none := by
  simp only [SchemaCache.resolveIdent] at h
  split at h
  · cases h
  · exact Option.map_eq_none_iff.mp h

theorem resolveEntityPlace_ensures (tempids : Tempids) (place : EdnValue) :
    server.Ensures (resolveEntityPlace db.cache tempids place) b db fun out _ _ =>
      tempids <+: out.2 ∧ StandsFor db.cache out.2 b.scan db place out.1 := by
  unfold resolveEntityPlace
  split
  · exact (ensures_ret _).mpr ⟨prefix_refl _, .entid⟩
  · rename_i s
    cases hid : tempids.lookup s with
    | some id => exact (ensures_ret _).mpr ⟨prefix_refl _, .tempid hid⟩
    | none =>
      dsimp only
      rw [ensures_bind]
      refine (ensures_issue _).mpr fun id b1 ops _ => ?_
      refine (ensures_ret _).mpr ⟨prefix_append _ _, .tempid ?_⟩
      simp [lookup_append, hid]
  · rename_i k
    cases hid : db.cache.resolveIdent k.display with
    | some id => exact (ensures_ret _).mpr ⟨prefix_refl _, .ident hid⟩
    | none =>
      dsimp only
      rw [ensures_bind]
      refine (ensures_issue _).mpr fun id b1 ops h => ?_
      cases h
      rw [find?_idents_of_resolveIdent hid]
      exact ensures_fail _
  · rename_i k value
    rw [ensures_bind]
    refine (resolveLookupRef_ensures k value tempids).mono fun e b1 db1 h => ?_
    exact (ensures_ret _).mpr ⟨prefix_refl _, h⟩
  · exact ensures_fail _
  · exact ensures_fail _

theorem encodeForAttribute_ensures (tempids : Tempids) (a : Int64) (value : EdnValue) :
    server.Ensures (encodeForAttribute db.cache tempids a value) b db fun out _ _ =>
      tempids <+: out.2 ∧ (lookupValueType db.cache a ≠ some .ref →
        encodeValue value = .ok out.1) := by
  unfold encodeForAttribute
  split
  · rename_i href
    unfold encodeRefValue
    rw [ensures_bind]
    refine (resolveEntityPlace_ensures tempids value).mono fun out b1 db1 h => ?_
    exact (ensures_ret _).mpr ⟨h.1, fun hne => absurd href hne⟩
  · rw [ensures_bind, ensures_ofExcept]
    intro v hv
    exact (ensures_ret _).mpr ⟨prefix_refl _, fun _ => hv⟩

end Reads

/-- The entity of a map: its `:db/id`, or the id that pass 1 has drawn for it. -/
inductive MapStandsFor (c : SchemaCache) (tempids : Tempids) (mapIds : List (Nat × Int64))
    (scan : ScanOrder) (db : Db) (entries : List (EdnValue × EdnValue)) (index : Nat) :
    Int64 → Prop
  | id {place e} (h : mapId entries = some place) (hplace : StandsFor c tempids scan db place e) :
      MapStandsFor c tempids mapIds scan db entries index e
  | fresh {e} (h : mapId entries = none) (he : mapIds.lookup index = some e) :
      MapStandsFor c tempids mapIds scan db entries index e

/-- An entity of the document, with its index, gives an ident. -/
inductive Names (c : SchemaCache) (tempids : Tempids) (mapIds : List (Nat × Int64))
    (scan : ScanOrder) (db : Db) : EdnValue × Nat → Int64 → Keyword → Prop
  | add {op place attr k rest index e} (hop : op.name = "add")
      (hplace : StandsFor c tempids scan db place e)
      (hattr : tryResolveAttribute c attr = some Entids.dbIdent) :
      Names c tempids mapIds scan db
        (.vector (.keyword op :: place :: attr :: .keyword k :: rest), index) e k
  | map {entries index e key k} (hmap : MapStandsFor c tempids mapIds scan db entries index e)
      (hentry : (key, .keyword k) ∈ entries) (hkey : isDbId key = false)
      (hattr : tryResolveAttribute c key = some Entids.dbIdent) :
      Names c tempids mapIds scan db (.map entries, index) e k

section Scan

variable {c : SchemaCache} {tempids tempids' : Tempids} {mapIds mapIds' : List (Nat × Int64)}
  {scan : ScanOrder} {b : Backend} {db : Db}

variable {entries : List (EdnValue × EdnValue)} {entity : EdnValue × Nat}
  {builders : EntidMap SchemaBuilder} {e e' : Int64} {ident : String} {done : List (EdnValue × Nat)}
  {st : ScanState}

theorem MapStandsFor.mono {index : Nat} {e : Int64}
    (h : MapStandsFor c tempids mapIds scan db entries index e) (ht : tempids <+: tempids')
    (hm : mapIds <+: mapIds') : MapStandsFor c tempids' mapIds' scan db entries index e := by
  cases h with
  | id h hplace => exact .id h (hplace.mono ht)
  | fresh h he => exact .fresh h (lookup_kept hm he)

theorem Names.mono {e : Int64} {k : Keyword} (h : Names c tempids mapIds scan db entity e k)
    (ht : tempids <+: tempids') (hm : mapIds <+: mapIds') :
    Names c tempids' mapIds' scan db entity e k := by
  cases h with
  | add hop hplace hattr => exact .add hop (hplace.mono ht) hattr
  | map hmap hentry hkey hattr => exact .map (hmap.mono ht hm) hentry hkey hattr

/-- The builders give the ident to the entity. -/
def BuilderNames (builders : EntidMap SchemaBuilder) (e : Int64) (ident : String) : Prop :=
  ∃ entry ∈ builders, entry.1 = e ∧ entry.2.ident = some ident

theorem EntidMap.mem_insert {β : Type} {m : EntidMap β} {k : Int64} {v : β} {x : Int64 × β}
    (h : x ∈ m.insert k v) : x = (k, v) ∨ x ∈ m := by
  induction m with
  | nil => simpa [insert] using h
  | cons y rest ih =>
    unfold insert at h
    split at h
    · rcases mem_cons.mp h with h | h
      · exact .inl h
      · exact .inr (mem_cons_of_mem _ h)
    · split at h
      · simpa using h
      · rcases mem_cons.mp h with h | h
        · exact .inr (mem_cons.mpr (.inl h))
        · exact (ih h).imp_right (mem_cons_of_mem _)

theorem mem_of_lookup {α β : Type} [BEq α] [LawfulBEq α] {xs : List (α × β)} {a : α} {b : β}
    (h : xs.lookup a = some b) : (a, b) ∈ xs := by
  obtain ⟨before, after, rfl, -⟩ := lookup_eq_some_iff.mp h
  exact mem_append_right _ mem_cons_self

theorem BuilderNames.of_modify {f : SchemaBuilder → SchemaBuilder}
    (h : BuilderNames (modifyBuilder builders e f) e' ident) :
    BuilderNames builders e' ident ∨
      (e' = e ∧ ∃ builder, (f builder).ident = some ident ∧
        (builder.ident = some ident → BuilderNames builders e ident)) := by
  obtain ⟨entry, hentry, he, hident⟩ := h
  rcases EntidMap.mem_insert hentry with rfl | hentry
  · refine .inr ⟨he.symm, _, hident, fun hsome => ?_⟩
    cases hlookup : builders.lookup e with
    | none =>
      rw [hlookup] at hsome
      cases hsome
    | some builder =>
      rw [hlookup] at hsome
      exact ⟨_, mem_of_lookup hlookup, rfl, hsome⟩
  · exact .inl ⟨entry, hentry, he, hident⟩

theorem BuilderNames.of_collect {e a e' : Int64} {value : EdnValue}
    (h : BuilderNames (collectSchemaAssertion e a value builders) e' ident) :
    BuilderNames builders e' ident ∨
      (e' = e ∧ a = Entids.dbIdent ∧ ∃ k, value = .keyword k ∧ ident = k.display) := by
  -- the other attributes leave the ident of the builder alone
  have hother {f : SchemaBuilder → SchemaBuilder}
      (h : BuilderNames (modifyBuilder builders e f) e' ident)
      (hf : ∀ builder, (f builder).ident = builder.ident) : BuilderNames builders e' ident := by
    rcases h.of_modify with h | ⟨rfl, builder, hident, hold⟩
    · exact h
    · exact hold ((hf builder).symm.trans hident)
  unfold collectSchemaAssertion at h
  split at h
  · rename_i k
    split at h
    · rename_i ha
      rcases h.of_modify with h | ⟨rfl, builder, hident, -⟩
      · exact .inl h
      · exact .inr ⟨rfl, ha, k, rfl, (Option.some.inj hident).symm⟩
    · refine .inl ?_
      repeat' split at h
      all_goals first
        | exact h
        | exact hother h fun _ => rfl
  · refine .inl ?_
    repeat' split at h
    all_goals first
      | exact h
      | exact hother h fun _ => rfl
  · exact .inl h

/-- What pass 1 has found after the entities `done`: every ident is given by one of them. -/
structure Scanned (scan : ScanOrder) (db : Db) (done : List (EdnValue × Nat)) (st : ScanState) :
    Prop where
  named : ∀ e ident, BuilderNames st.builders e ident → ∃ entity ∈ done, ∃ k,
    Names db.cache st.tempids st.mapEntityIds scan db entity e k ∧ ident = k.display
  indices : ∀ entry ∈ st.mapEntityIds, entry.1 < done.length

theorem Scanned.grow {st st' : ScanState} (h : Scanned scan db done st)
    (ht : st.tempids <+: st'.tempids) (hm : st.mapEntityIds <+: st'.mapEntityIds)
    (hindices : ∀ entry ∈ st'.mapEntityIds, entry ∈ st.mapEntityIds ∨ entry.1 = done.length)
    (hnew : ∀ e ident, BuilderNames st'.builders e ident → BuilderNames st.builders e ident ∨
      ∃ k, Names db.cache st'.tempids st'.mapEntityIds scan db entity e k ∧ ident = k.display) :
    Scanned scan db (done ++ [entity]) st' := by
  refine ⟨fun e ident hb => ?_, fun entry hentry => ?_⟩
  · rcases hnew e ident hb with hb | ⟨k, hk, hident⟩
    · obtain ⟨entity', hmem, k, hk, hident⟩ := h.named e ident hb
      exact ⟨entity', mem_append_left _ hmem, k, hk.mono ht hm, hident⟩
    · exact ⟨entity, mem_append_right _ mem_cons_self, k, hk, hident⟩
  · rw [length_append, length_singleton]
    rcases hindices entry hentry with hentry | hentry
    · exact Nat.lt_succ_of_lt (h.indices entry hentry)
    · omega

theorem BuilderNames.of_entries
    (h : BuilderNames (entries.foldl (fun builders entry =>
      if isDbId entry.1 then builders
      else
        match tryResolveAttribute c entry.1 with
        | none => builders
        | some a => collectSchemaAssertion e a entry.2 builders) builders) e' ident) :
    BuilderNames builders e' ident ∨ (e' = e ∧ ∃ key k, (key, .keyword k) ∈ entries ∧
      isDbId key = false ∧ tryResolveAttribute c key = some Entids.dbIdent ∧
      ident = k.display) := by
  induction entries generalizing builders with
  | nil => exact .inl h
  | cons entry rest ih =>
    obtain ⟨key, value⟩ := entry
    rw [foldl_cons] at h
    rcases ih h with h | ⟨he, key', k, hmem, hrest⟩
    · dsimp only at h
      split at h
      · exact .inl h
      · rename_i hkey
        split at h
        · exact .inl h
        · rename_i a ha
          rcases h.of_collect with h | ⟨he, rfl, k, rfl, hident⟩
          · exact .inl h
          · refine .inr ⟨he, key, k, mem_cons_self, ?_, ha, hident⟩
            exact Bool.eq_false_iff.mpr hkey
    · exact .inr ⟨he, key', k, mem_cons_of_mem _ hmem, hrest⟩

theorem scanMapId_ensures (h : Scanned b.scan db done st) (entries : List (EdnValue × EdnValue)) :
    server.Ensures (scanMapId db.cache st entries done.length) b db fun out _ _ =>
      st.tempids <+: out.2.tempids ∧ st.mapEntityIds <+: out.2.mapEntityIds ∧
      (∀ entry ∈ out.2.mapEntityIds, entry ∈ st.mapEntityIds ∨ entry.1 = done.length) ∧
      out.2.builders = st.builders ∧
      MapStandsFor db.cache out.2.tempids out.2.mapEntityIds b.scan db entries done.length
        out.1 := by
  unfold scanMapId
  split
  · rename_i place hid
    rw [ensures_bind]
    refine (resolveEntityPlace_ensures st.tempids place).mono fun out b1 db1 hout => ?_
    refine (ensures_ret _).mpr ⟨hout.1, prefix_refl _, ?_, rfl, .id hid hout.2⟩
    exact fun entry hentry => .inl hentry
  · rename_i hid
    rw [ensures_bind]
    refine (ensures_issue _).mpr fun id b1 ops _ => ?_
    refine (ensures_ret _).mpr
      ⟨prefix_refl _, prefix_append _ _, fun entry hentry => ?_, rfl, .fresh hid ?_⟩
    · rcases mem_append.mp hentry with hentry | hentry
      · exact .inl hentry
      · exact .inr (congrArg Prod.fst (mem_singleton.mp hentry))
    · -- the index is new, so the lookup finds the id just drawn
      have hnew : st.mapEntityIds.lookup done.length = none := by
        refine lookup_eq_none_iff.mpr fun entry hentry => ?_
        have hlt := h.indices entry hentry
        simp only [bne_iff_ne, ne_eq]
        omega
      simp [lookup_append, hnew]

theorem scanEntity_ensures (h : Scanned b.scan db done st) (entity : EdnValue) :
    server.Ensures (scanEntity db.cache st (entity, done.length)) b db fun st' _ _ =>
      Scanned b.scan db (done ++ [(entity, done.length)]) st' := by
  have hsame : Scanned b.scan db (done ++ [(entity, done.length)]) st :=
    h.grow (prefix_refl _) (prefix_refl _) (fun _ hentry => .inl hentry)
      fun _ _ hb => .inl hb
  unfold scanEntity
  split
  · rename_i op place attr value rest hentity
    cases hentity
    split
    · rename_i hop
      rw [ensures_bind]
      refine (resolveEntityPlace_ensures st.tempids place).mono fun out b1 db1 hout => ?_
      have hindices : ∀ entry ∈ st.mapEntityIds, entry ∈ st.mapEntityIds ∨ entry.1 = done.length :=
        fun _ hentry => .inl hentry
      dsimp only
      split
      · refine (ensures_ret _).mpr ?_
        exact h.grow hout.1 (prefix_refl _) hindices fun _ _ hb => .inl hb
      · rename_i a ha
        refine (ensures_ret _).mpr ?_
        refine h.grow hout.1 (prefix_refl _) hindices fun e ident hb => ?_
        rcases hb.of_collect with hb | ⟨rfl, rfl, k, rfl, hident⟩
        · exact .inl hb
        · exact .inr ⟨k, .add hop hout.2 ha, hident⟩
    · exact (ensures_ret _).mpr hsame
  · rename_i entries hentity
    cases hentity
    rw [ensures_bind]
    refine (scanMapId_ensures h entries).mono fun out b1 db1 hout => ?_
    obtain ⟨ht, hm, hindices, hbuilders, hmap⟩ := hout
    refine (ensures_ret _).mpr (h.grow ht hm hindices fun e ident hb => ?_)
    rw [← hbuilders]
    rcases hb.of_entries with hb | ⟨rfl, key, k, hentry, hkey, hattr, hident⟩
    · exact .inl hb
    · exact .inr ⟨k, .map hmap hentry hkey hattr, hident⟩
  · exact (ensures_ret _).mpr hsame

theorem index_eq_of_zipIdx {α : Type} {xs : List α} {done rest : List (α × Nat)} {x : α × Nat}
    (h : xs.zipIdx = done ++ x :: rest) : x.2 = done.length := by
  have hget := congrArg (fun l => l[done.length]?) h
  simp only [List.getElem?_zipIdx, Nat.zero_add, le_refl, List.getElem?_append_right,
    Nat.sub_self, List.getElem?_cons_zero] at hget
  obtain ⟨y, -, rfl⟩ := Option.map_eq_some_iff.mp hget
  rfl

theorem scanEntities_ensures (entities : List EdnValue) :
    server.Ensures (scanEntities db.cache entities) b db fun st b' db' =>
      b'.scan = b.scan ∧ db' = db ∧ Scanned b.scan db entities.zipIdx st := by
  refine ensures_foldlM (fun done st (b' : Backend) db' =>
    b'.scan = b.scan ∧ db' = db ∧ Scanned b.scan db done st) ⟨rfl, rfl, ?_⟩ ?_
  · refine ⟨fun e ident hb => ?_, fun entry hentry => nomatch hentry⟩
    obtain ⟨entry, hentry, -⟩ := hb
    exact nomatch hentry
  · intro done entity rest st b1 db1 hxs h
    obtain ⟨hscan, rfl, hscanned⟩ := h
    obtain ⟨entity, index⟩ := entity
    obtain rfl : index = done.length := index_eq_of_zipIdx hxs
    rw [← hscan] at hscanned ⊢
    exact ensures_reading (scanEntity_only _ _ _) (scanEntity_ensures hscanned entity)

end Scan

/-- Tempids and datoms are only added. -/
structure ExpandState.Grows (st st' : ExpandState) : Prop where
  tempids : st.tempids <+: st'.tempids
  pending : st.pending <+: st'.pending

theorem ExpandState.Grows.refl (st : ExpandState) : st.Grows st :=
  ⟨prefix_refl _, prefix_refl _⟩

theorem ExpandState.Grows.trans {st1 st2 st3 : ExpandState} (h : st1.Grows st2)
    (h' : st2.Grows st3) : st1.Grows st3 :=
  ⟨h.tempids.trans h'.tempids, h.pending.trans h'.pending⟩

theorem ExpandState.Grows.push {st st' : ExpandState} (h : st.Grows st') (d : PendingDatom) :
    st.Grows (st'.push d) :=
  ⟨h.tempids, h.pending.trans (prefix_append _ _)⟩

/-- The datoms have the one that an attribute and a value of the document ask for. -/
def Written (c : SchemaCache) (pending : List PendingDatom) (e : Int64) (attr value : EdnValue)
    (added : Bool) : Prop :=
  ∃ a v, resolveAttribute c attr = .ok a ∧
    (lookupValueType c a ≠ some .ref → encodeValue value = .ok v) ∧ ⟨e, a, v, added⟩ ∈ pending

theorem Written.mono {c : SchemaCache} {pending pending' : List PendingDatom}
    {attr value : EdnValue} {added : Bool} (h : Written c pending e attr value added)
    (hpre : pending <+: pending') : Written c pending' e attr value added := by
  obtain ⟨a, v, ha, hv, hmem⟩ := h
  exact ⟨a, v, ha, hv, hpre.subset hmem⟩

theorem Written.ident {pending : List PendingDatom} {attr : EdnValue} {k : Keyword}
    (h : Written c' pending e attr (.keyword k) true)
    (hattr : tryResolveAttribute c attr = some Entids.dbIdent) (hc : c'.Extends c)
    (href : lookupValueType c' Entids.dbIdent ≠ some .ref) :
    ⟨e, Entids.dbIdent, .keyword k.stored, true⟩ ∈ pending := by
  obtain ⟨a, v, ha, hv, hmem⟩ := h
  have hident : a = Entids.dbIdent := by
    unfold tryResolveAttribute at hattr
    unfold resolveAttribute at ha
    split at hattr
    · cases hattr
      cases ha
      rfl
    · simp only [hc _ _ hattr] at ha
      cases ha
      rfl
    · cases hattr
  subst hident
  cases hv href
  exact hmem

section Expand

variable {b : Backend} {db : Db}

theorem executeRetractEntityRecursive_ensures (depth : Nat) (st : RetractState) (e : Int64) :
    server.Ensures (executeRetractEntityRecursive db.cache depth st e) b db fun st' _ _ =>
      st.pending <+: st'.pending := by
  induction depth generalizing st e b with
  | zero => exact ensures_fail _
  | succ depth ih =>
    unfold executeRetractEntityRecursive
    split
    · exact (ensures_ret _).mpr (prefix_refl _)
    · rw [ensures_bind]
      refine (ensures_issue _).mpr fun rows b1 ops hans => ?_
      cases hans
      rw [writeAll_nil]
      refine (ensures_foldlM (fun _ (st' : RetractState) (_ : Backend) db' =>
        db' = db ∧ st.pending <+: st'.pending) ⟨rfl, prefix_append _ _⟩ ?_).mono
        fun _ _ _ h => h.2
      intro done e' rest st1 b2 db2 _ h
      obtain ⟨rfl, hpre⟩ := h
      refine (ensures_reading (executeRetractEntityRecursive_only _ _ _ _) (ih _ _)).mono ?_
      exact fun st2 b3 db3 h3 => ⟨h3.2.1, hpre.trans h3.2.2⟩

theorem executeCasFn_grows (e a : Int64) (old new : EdnValue) (st : ExpandState) :
    server.Ensures (executeCasFn db.cache e a old new st) b db fun st' _ _ => st.Grows st' := by
  unfold executeCasFn
  rw [ensures_bind]
  refine (ensures_issue _).mpr fun current b1 ops hans => ?_
  cases hans
  rw [writeAll_nil]
  split
  · exact ensures_fail _
  · split
    · split
      · rw [ensures_bind]
        refine (encodeForAttribute_ensures st.tempids a new).mono fun out b2 db2 h => ?_
        refine (ensures_ret _).mpr (ExpandState.Grows.push ?_ _)
        exact ⟨h.1, prefix_refl _⟩
      · exact ensures_fail _
    · rw [ensures_bind]
      refine (ensures_reading (encodeForAttribute_only _ _ _ _)
        (encodeForAttribute_ensures st.tempids a old)).mono fun out b2 db2 h => ?_
      obtain ⟨-, rfl, hout⟩ := h
      dsimp only
      split
      · split
        · rw [ensures_bind]
          refine (encodeForAttribute_ensures out.2 a new).mono fun out' b3 db3 h' => ?_
          refine (ensures_ret _).mpr (ExpandState.Grows.push (.push ?_ _) _)
          exact ⟨hout.1.trans h'.1, prefix_refl _⟩
        · exact ensures_fail _
      · exact ensures_fail _

theorem expandTxFn_grows (depth : Nat) (st : ExpandState) (f : BuiltinTxFn)
    (args : List EdnValue) :
    server.Ensures (expandTxFn db.cache depth st f args) b db fun st' _ _ => st.Grows st' := by
  unfold expandTxFn
  split
  · rename_i place
    rw [ensures_bind]
    refine (ensures_reading (resolveEntityPlace_only _ _ _)
      (resolveEntityPlace_ensures st.tempids place)).mono fun out b1 db1 h => ?_
    obtain ⟨-, rfl, hout⟩ := h
    dsimp only
    unfold executeRetractEntityFn
    rw [ensures_bind, ensures_bind]
    refine (executeRetractEntityRecursive_ensures _ _ _).mono fun st' b2 db2 h' => ?_
    exact (ensures_ret _).mpr ((ensures_ret _).mpr ⟨hout.1, h'⟩)
  · exact ensures_fail _
  · rename_i place attr old new
    rw [ensures_bind]
    refine (ensures_reading (resolveEntityPlace_only _ _ _)
      (resolveEntityPlace_ensures st.tempids place)).mono fun out b1 db1 h => ?_
    obtain ⟨-, rfl, hout⟩ := h
    rw [ensures_bind, ensures_ofExcept]
    intro a _
    have hgrows : st.Grows { st with tempids := out.2 } := ⟨hout.1, prefix_refl _⟩
    exact (executeCasFn_grows _ a old new _).mono fun st' b2 db2 h' => hgrows.trans h'
  · exact ensures_fail _

theorem expandDatom_ensures (st : ExpandState) (place attr value : EdnValue) (added : Bool) :
    server.Ensures (expandDatom db.cache st place attr value added) b db fun st' _ _ =>
      st.Grows st' ∧ ∃ e, StandsFor db.cache st'.tempids b.scan db place e ∧
        Written db.cache st'.pending e attr value added := by
  unfold expandDatom
  rw [ensures_bind]
  refine (ensures_reading (resolveEntityPlace_only _ _ _)
    (resolveEntityPlace_ensures st.tempids place)).mono fun out b1 db1 h => ?_
  obtain ⟨-, rfl, hplace⟩ := h
  rw [ensures_bind, ensures_ofExcept]
  intro a ha
  rw [ensures_bind]
  refine (encodeForAttribute_ensures out.2 a value).mono fun out' b2 db2 hvalue => ?_
  have hgrows : st.Grows { st with tempids := out'.2 } :=
    ⟨hplace.1.trans hvalue.1, prefix_refl _⟩
  exact (ensures_ret _).mpr ⟨hgrows.push _, out.1, hplace.2.mono hvalue.1, a, out'.1, ha,
    hvalue.2, mem_append_right _ mem_cons_self⟩

theorem expandOperation_grows (depth : Nat) (st : ExpandState) (k : Keyword)
    (args : List EdnValue) :
    server.Ensures (expandOperation db.cache depth st k args) b db fun st' _ _ => st.Grows st' := by
  unfold expandOperation
  split
  · exact expandTxFn_grows depth st _ _
  · split
    · exact (expandDatom_ensures st _ _ _ true).mono fun _ _ _ h => h.1
    · split
      · exact (expandDatom_ensures st _ _ _ false).mono fun _ _ _ h => h.1
      · exact ensures_fail _
  · exact ensures_fail _

theorem expandMapEntry_ensures (e : Int64) (st : ExpandState) (entry : EdnValue × EdnValue) :
    server.Ensures (expandMapEntry db.cache e st entry) b db fun st' _ _ =>
      st.Grows st' ∧ (isDbId entry.1 = false →
        Written db.cache st'.pending e entry.1 entry.2 true) := by
  unfold expandMapEntry
  split
  · rename_i hid
    exact (ensures_ret _).mpr ⟨.refl st, fun h => absurd hid (Bool.eq_false_iff.mp h)⟩
  · rw [ensures_bind, ensures_ofExcept]
    intro a ha
    rw [ensures_bind]
    refine (encodeForAttribute_ensures st.tempids a entry.2).mono fun out b1 db1 hvalue => ?_
    have hgrows : st.Grows { st with tempids := out.2 } := ⟨hvalue.1, prefix_refl _⟩
    exact (ensures_ret _).mpr ⟨hgrows.push _, fun _ => ⟨a, out.1, ha, hvalue.2,
      mem_append_right _ mem_cons_self⟩⟩

theorem expandMapEntries_ensures (e : Int64) (st : ExpandState)
    (entries : List (EdnValue × EdnValue)) :
    server.Ensures (entries.foldlM (expandMapEntry db.cache e) st) b db fun st' _ _ =>
      st.Grows st' ∧ ∀ entry ∈ entries, isDbId entry.1 = false →
        Written db.cache st'.pending e entry.1 entry.2 true := by
  refine (ensures_foldlM (fun done st' (_ : Backend) db' => db' = db ∧ st.Grows st' ∧
    ∀ entry ∈ done, isDbId entry.1 = false → Written db.cache st'.pending e entry.1 entry.2 true)
    ⟨rfl, .refl st, fun entry hentry => nomatch hentry⟩ ?_).mono fun _ _ _ h => h.2
  intro done entry rest st1 b1 db1 _ h
  obtain ⟨rfl, hgrows, hdone⟩ := h
  refine (ensures_reading (expandMapEntry_only _ _ _ _)
    (expandMapEntry_ensures e st1 entry)).mono fun st2 b2 db2 h2 => ?_
  obtain ⟨-, rfl, hgrows2, hentry⟩ := h2
  refine ⟨rfl, hgrows.trans hgrows2, fun entry' hmem hid => ?_⟩
  rcases mem_append.mp hmem with hmem | hmem
  · exact (hdone entry' hmem hid).mono hgrows2.pending
  · obtain rfl := mem_singleton.mp hmem
    exact hentry hid

theorem expandMapId_ensures (mapIds : List (Nat × Int64)) (st : ExpandState)
    (entries : List (EdnValue × EdnValue)) (index : Nat) :
    server.Ensures (expandMapId db.cache mapIds st entries index) b db fun out _ _ =>
      st.Grows out.2 ∧ ((mapIds.lookup index).isSome = true ∨ mapId entries ≠ none →
        MapStandsFor db.cache out.2.tempids mapIds b.scan db entries index out.1) := by
  unfold expandMapId
  split
  · rename_i place hid
    rw [ensures_bind]
    refine (resolveEntityPlace_ensures st.tempids place).mono fun out b1 db1 h => ?_
    exact (ensures_ret _).mpr ⟨⟨h.1, prefix_refl _⟩, fun _ => .id hid h.2⟩
  · rename_i id hid he
    exact (ensures_ret _).mpr ⟨.refl st, fun _ => .fresh hid he⟩
  · rename_i hid hnone
    rw [ensures_bind]
    refine (ensures_issue _).mpr fun id b1 ops _ => ?_
    refine (ensures_ret _).mpr ⟨.refl st, fun h => ?_⟩
    rw [hnone] at h
    exact absurd hid (h.resolve_left (by decide))

end Expand

section Names

/-- The state in which pass 2 runs, after that of pass 1. -/
structure AfterInstall (db mid : Db) : Prop where
  idents : mid.cache.Extends db.cache
  log : mid.log = db.log
  identType : lookupValueType mid.cache Entids.dbIdent ≠ some .ref

variable {b : Backend} {db mid : Db} {tempids : Tempids} {mapIds : List (Nat × Int64)}

theorem MapStandsFor.eq {entries : List (EdnValue × EdnValue)} {index : Nat} {tempids' : Tempids}
    {scan : ScanOrder} {e e' : Int64}
    (h : MapStandsFor db.cache tempids mapIds scan db entries index e)
    (h' : MapStandsFor mid.cache tempids' mapIds scan mid entries index e')
    (hmid : AfterInstall db mid) (ht : tempids <+: tempids') : e' = e := by
  cases h with
  | id hid hplace =>
    cases h' with
    | id hid' hplace' =>
      cases hid'.symm.trans hid
      exact hplace.eq hplace' hmid.idents ht hmid.log
    | fresh hid' => cases hid.symm.trans hid'
  | fresh hid he =>
    cases h' with
    | id hid' => cases hid.symm.trans hid'
    | fresh _ he' => exact Option.some.inj (he'.symm.trans he)

theorem expandEntity_ensures (hmid : AfterInstall db mid) {depth : Nat} {st : ExpandState}
    (ht : tempids <+: st.tempids) (entity : EdnValue × Nat) :
    server.Ensures (expandEntity mid.cache depth mapIds st entity) b mid fun st' _ _ =>
      st.Grows st' ∧ ∀ e k, Names db.cache tempids mapIds b.scan db entity e k →
        ⟨e, Entids.dbIdent, .keyword k.stored, true⟩ ∈ st'.pending := by
  obtain ⟨entity, index⟩ := entity
  unfold expandEntity
  dsimp only
  split
  · rename_i op args
    refine ((expandOperation_grows depth st op args).and ?_).mono fun _ _ _ h => h
    intro st' b' mid' hrun e k hnames
    cases hnames with
    | @add _ place attr _ rest _ _ hop hplace hattr =>
      have hfn : recognizeTxFn op = none := by
        unfold recognizeTxFn
        split <;> first
          | rfl
          | (rename_i hname; rw [hop] at hname; revert hname; decide)
      simp only [expandOperation, hfn, hop] at hrun
      obtain ⟨hgrows, e', hplace', hwritten⟩ := expandDatom_ensures _ _ _ _ _ _ _ _ hrun
      obtain rfl := hplace.eq hplace' hmid.idents (ht.trans hgrows.tempids) hmid.log
      exact hwritten.ident hattr hmid.idents hmid.identType
  · rename_i entries
    rw [ensures_bind]
    refine (ensures_reading (expandMapId_only _ _ _ _ _)
      (expandMapId_ensures mapIds st entries index)).mono fun out b1 mid1 h => ?_
    obtain ⟨-, rfl, hgrows, hmap'⟩ := h
    refine (expandMapEntries_ensures out.1 out.2 entries).mono fun st' b2 mid2 h' => ?_
    refine ⟨hgrows.trans h'.1, fun e k hnames => ?_⟩
    cases hnames with
    | map hmap hentry hkey hattr =>
      have hfound : (mapIds.lookup index).isSome = true ∨ mapId entries ≠ none := by
        cases hmap with
        | id hid => exact .inr (by simp [hid])
        | fresh _ he => exact .inl (by simp [he])
      obtain rfl := hmap.eq (hmap' hfound) hmid (ht.trans hgrows.tempids)
      exact (h'.2 _ hentry hkey).ident hattr hmid.idents hmid.identType
  · refine (ensures_ret _).mpr ⟨.refl st, fun e k hnames => ?_⟩
    cases hnames <;> simp_all

theorem expandEntities_ensures (hmid : AfterInstall db mid) (depth : Nat) (scan : ScanState)
    (entities : List EdnValue) :
    server.Ensures (expandEntities mid.cache depth scan entities) b mid fun st _ _ =>
      ∀ entity ∈ entities.zipIdx, ∀ e k,
        Names db.cache scan.tempids scan.mapEntityIds b.scan db entity e k →
        ⟨e, Entids.dbIdent, .keyword k.stored, true⟩ ∈ st.pending := by
  refine (ensures_foldlM (fun done st (b' : Backend) mid' => b'.scan = b.scan ∧
    mid' = mid ∧ scan.tempids <+: st.tempids ∧ ∀ entity ∈ done, ∀ e k,
      Names db.cache scan.tempids scan.mapEntityIds b.scan db entity e k →
      ⟨e, Entids.dbIdent, .keyword k.stored, true⟩ ∈ st.pending)
    ⟨rfl, rfl, prefix_refl _, fun _ h => nomatch h⟩ ?_).mono
    fun _ _ _ h => h.2.2.2
  intro done entity rest st b1 mid1 _ h
  obtain ⟨hscan, rfl, ht, hdone⟩ := h
  refine (ensures_reading (expandEntity_only _ _ _ _ _)
    (expandEntity_ensures hmid ht entity)).mono fun st' b2 mid2 h2 => ?_
  obtain ⟨hscan2, rfl, hgrows, hnew⟩ := h2
  refine ⟨hscan2.trans hscan, rfl, ht.trans hgrows.tempids, fun entity' hmem e k hnames => ?_⟩
  rcases mem_append.mp hmem with hmem | hmem
  · exact hgrows.pending.subset (hdone entity' hmem e k hnames)
  · obtain rfl := mem_singleton.mp hmem
    exact hnew e k (hscan ▸ hnames)

end Names

end PgMentat

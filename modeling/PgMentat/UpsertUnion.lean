import PgMentat.Transact.Merging
import PgMentat.Bootstrap

namespace PgMentat

open StatementProgram Program Server Relation Pointers Remaps

/-- Every id is connected with one that has no pointer. -/
def Remaps.Rooted (remaps : Remaps) : Prop :=
  ∀ x, ∃ r, next remaps r = none ∧ Connected (next remaps) x r

/-- The states of the loops of both phases. -/
inductive Remaps.Reached (start : Remaps) : Remaps → Prop
  | start : Reached start start
  | pair {m} (h : Reached start m) (f d : PendingDatom) : Reached start (mergePair f m d)
  | flatten {m} (h : Reached start m) (k : Int64) : Reached start (flattenKey m k)

section Roots

variable {remaps : Remaps} {x y k : Int64}

namespace Remaps.Rooted

variable (h : Rooted remaps)

include h

theorem next_resolveRoot (x : Int64) : next remaps (resolveRoot remaps x) = none := by
  obtain ⟨r, hr, hx⟩ := h x
  rwa [(resolveRoot_eq_iff hr).mpr hx]

theorem resolveRoot_eq_resolveRoot_iff :
    resolveRoot remaps x = resolveRoot remaps y ↔ Connected (next remaps) x y := by
  have hy : Connected (next remaps) y (resolveRoot remaps y) := connected_resolveRoot
  rw [resolveRoot_eq_iff (h.next_resolveRoot y)]
  exact ⟨fun hx => .trans _ _ _ hx (.symm _ _ hy), fun hxy => .trans _ _ _ hxy hy⟩

theorem mergePair (f d : PendingDatom) : Rooted (mergePair f remaps d) := by
  by_cases hsame : SameIdentity f d
  · by_cases heq : resolveRoot remaps f.e = resolveRoot remaps d.e
    · rwa [mergePair_of_eq heq]
    · have hjoined := connected_mergePair (fun x y => Iff.refl (Connected (next remaps) x y)) hsame
      have hkept {x y : Int64} (hxy : Connected (next remaps) x y) :
          Connected (next (PgMentat.mergePair f remaps d)) x y :=
        (hjoined x y).mpr (eqvGen_withPair_of_eqvGen hxy)
      intro x
      by_cases hx : resolveRoot remaps x = resolveRoot remaps d.e
      · -- the roots of the two ids become one
        refine ⟨resolveRoot remaps f.e, ?_, ?_⟩
        · rw [mergePair_of_ne hsame heq, next_insert, Function.update_of_ne heq]
          exact h.next_resolveRoot f.e
        · have hpair := (hjoined f.e d.e).mpr eqvGen_withPair_self
          exact .trans _ _ _ (hkept (h.resolveRoot_eq_resolveRoot_iff.mp hx))
            (.trans _ _ _ (.symm _ _ hpair) (hkept connected_resolveRoot))
      · refine ⟨resolveRoot remaps x, ?_, hkept connected_resolveRoot⟩
        rw [mergePair_of_ne hsame heq, next_insert, Function.update_of_ne hx]
        exact h.next_resolveRoot x
  · rwa [mergePair_of_not hsame]

theorem flattenKey (k : Int64) : Rooted (flattenKey remaps k) ∧
    ∀ x, resolveRoot (flattenKey remaps k) x = resolveRoot remaps x := by
  unfold PgMentat.flattenKey
  split
  · exact ⟨h, fun _ => rfl⟩
  · rename_i hne
    have hroot (x : Int64) : next (remaps.insert k (resolveRoot remaps k))
        (resolveRoot remaps x) = none := by
      have hx : resolveRoot remaps x ≠ k := by
        intro hx
        apply hne
        rw [resolveRoot_eq_iff (hx ▸ h.next_resolveRoot x)]
        exact .refl k
      rw [next_insert, Function.update_of_ne hx]
      exact h.next_resolveRoot x
    have hconnected (x : Int64) : Connected (next (remaps.insert k (resolveRoot remaps k))) x
        (resolveRoot remaps x) := by
      rw [next_insert]
      exact connected_update_end (h.next_resolveRoot k) connected_resolveRoot
        (h.next_resolveRoot x) connected_resolveRoot
    exact ⟨fun x => ⟨_, hroot x, hconnected x⟩, fun x => (resolveRoot_eq_iff (hroot x)).mpr
      (hconnected x)⟩

theorem reached {m : Remaps} (hm : Reached remaps m) : Rooted m := by
  induction hm with
  | start => exact h
  | pair _ f d ih => exact ih.mergePair f d
  | flatten _ k ih => exact (ih.flattenKey k).1

end Remaps.Rooted

theorem applyRemap_flattenKey (h : Rooted remaps) : applyRemap (flattenKey remaps k) x =
    if x = k then resolveRoot remaps k else applyRemap remaps x := by
  unfold flattenKey
  split
  · rename_i hroot
    split
    · rename_i hx
      have hnone : remaps.lookup k = none := hroot ▸ h.next_resolveRoot k
      rw [hx, hroot, applyRemap, hnone]
      rfl
    · rfl
  · rw [applyRemap, EntidMap.lookup_insert]
    split <;> rfl

theorem applyRemap_foldl_flattenKey (h : Rooted remaps) (keys : List Int64) :
    applyRemap (keys.foldl flattenKey remaps) x =
      if x ∈ keys then resolveRoot remaps x else applyRemap remaps x := by
  induction keys generalizing remaps with
  | nil => rfl
  | cons k keys ih =>
    obtain ⟨hrooted, hroots⟩ := h.flattenKey k
    rw [List.foldl_cons, ih hrooted, hroots, applyRemap_flattenKey h]
    by_cases hx : x = k
    · simp [hx]
    · simp [hx]

theorem applyRemap_flattenRemaps (h : Rooted remaps) :
    applyRemap (flattenRemaps remaps) x = resolveRoot remaps x := by
  refine (applyRemap_foldl_flattenKey h _).trans ?_
  split
  · rfl
  · rename_i hx
    have hnone : next remaps x = none := by
      refine List.lookup_eq_none_iff.mpr fun entry hentry => ?_
      refine bne_iff_ne.mpr fun heq => hx ?_
      rw [heq]
      exact List.mem_map_of_mem hentry
    rw [applyRemap, ← next, hnone]
    exact ((resolveRoot_eq_iff hnone).mpr (.refl x)).symm

end Roots

/-- The ids of identity assertions are new: no entity has them. -/
def FreshIds (c : SchemaCache) (db : Db) (pending : List PendingDatom) : Prop :=
  ∀ d ∈ pending, isIdentityAssertion c d = true → ∀ r ∈ db.log, r.e ≠ d.e

/-- The remaps of upserts on new ids: no pointer leads to an id that has one, in every state of the
loops the walks end at roots, and ids are sent to one id exactly if values in the log or in the
transaction connect them. -/
theorem upsertRemaps_union {c : SchemaCache} {db : Db} {pending : List PendingDatom}
    (hfresh : FreshIds c db pending) (b : Backend) :
    server.Ensures (upsertRemaps c pending) b db fun remaps _ _ =>
      (∀ x y, next remaps x = some y → next remaps y = none) ∧
      (∃ start, (∀ x y, next start x = some y ↔ LogLink c b.scan db pending x y) ∧
        Reached start remaps ∧
        ∀ m, Reached start m → ∀ x, next m (resolveRoot m x) = none) ∧
      ∀ x y, applyRemap remaps x = applyRemap remaps y ↔
        EqvGen (Linked (LogLink c b.scan db pending) (pending.filter (isIdentityAssertion c))
          (pending.filter (isIdentityAssertion c))) x y := by
  unfold upsertRemaps
  rw [ensures_bind]
  refine (foldlM_resolveAgainstLog_ensures pending).mono fun start b1 db1 h => ?_
  obtain ⟨rfl, rfl, hlog⟩ := h
  obtain ⟨hproper, hclasses⟩ := proper_connected_of_logLink hlog
  -- an id with a pointer is new, and what it points at is in the log
  have hrooted : Rooted start := by
    intro x
    cases hx : next start x with
    | none => exact ⟨x, hx, .refl x⟩
    | some y =>
      refine ⟨y, ?_, .rel x y hx⟩
      obtain ⟨d', -, -, -, hholder, -⟩ := (hlog x y).mp hx
      obtain ⟨r, hr, hry, -⟩ := firstHolder_eq_some hholder
      refine Option.eq_none_iff_forall_ne_some.mpr fun z hz => ?_
      obtain ⟨d, hd, hidentity, hdy, -⟩ := (hlog y z).mp hz
      exact hfresh d hd hidentity r hr (hry.trans hdy.symm)
  generalize pending.filter (isIdentityAssertion c) = ds
  have hreached : Reached start (mergeIdentities ds start) :=
    mergeIdentities_induction (fun _ f d h => h.pair f d) ds .start
  have hflat : Reached start (flattenRemaps (mergeIdentities ds start)) :=
    List.foldlRecOn _ flattenKey hreached fun _ hm k _ => hm.flatten k
  have hmerged := hrooted.reached hreached
  refine (ensures_ret _).mpr ⟨fun x y hxy => ?_, ⟨start, hlog, hflat,
    fun m hm => (hrooted.reached hm).next_resolveRoot⟩, fun x y => ?_⟩
  · have hy : applyRemap (flattenRemaps (mergeIdentities ds start)) x = y := by
      rw [applyRemap, ← next, hxy]
      rfl
    rw [applyRemap_flattenRemaps hmerged] at hy
    rw [(flattenRemaps_spec (hproper.mergeIdentities ds)).2, ← hy]
    exact hmerged.next_resolveRoot x
  · rw [applyRemap_flattenRemaps hmerged, applyRemap_flattenRemaps hmerged,
      hmerged.resolveRoot_eq_resolveRoot_iff]
    exact connected_mergeIdentities rfl (connected_iff_linked_nil hclasses ds)

def sameIdent : List PendingDatom :=
  [⟨500, Entids.dbIdent, .keyword ":x", true⟩, ⟨501, Entids.dbIdent, .keyword ":x", true⟩]

theorem upsertRemaps_union_sameIdent :
    FreshIds bootstrapDb.cache bootstrapDb sameIdent ∧
    (server.run (upsertRemaps bootstrapDb.cache sameIdent) ⟨0, 0, [], .heap, 0⟩
      bootstrapDb).toOption.isSome ∧
    server.Ensures (upsertRemaps bootstrapDb.cache sameIdent) ⟨0, 0, [], .heap, 0⟩ bootstrapDb
      fun remaps _ _ => applyRemap remaps 500 = applyRemap remaps 501 := by
  have hfresh : FreshIds bootstrapDb.cache bootstrapDb sameIdent := by
    unfold FreshIds
    decide +kernel
  refine ⟨hfresh, by decide +kernel, (upsertRemaps_union hfresh _).mono fun remaps _ _ h => ?_⟩
  refine (h.2.2 500 501).mpr (.rel _ _ (.inr ?_))
  unfold SameIdentity
  decide +kernel

end PgMentat

import PgMentat.Mentatd.Handlers

namespace PgMentat

open List KeyedTable Multimap

namespace QueryCache

variable {ρ : Type}

def insert (qc : QueryCache ρ) (now : Nat) (key : CacheKey) (result : ρ) : QueryCache ρ :=
  qc.insertWithDeps now key result []

inductive Operation (ρ : Type) where
  | get (now : Nat) (key : CacheKey)
  | insert (now : Nat) (key : CacheKey) (result : ρ)
  | insertWithDeps (now : Nat) (key : CacheKey) (result : ρ) (deps : List Int64)
  | invalidateEntities (entities : List Int64)
  | invalidate

def Operation.apply (qc : QueryCache ρ) : Operation ρ → QueryCache ρ
  | get now key => (qc.get now key).2
  | insert now key result => qc.insert now key result
  | insertWithDeps now key result deps => qc.insertWithDeps now key result deps
  | invalidateEntities entities => (qc.invalidateEntities entities).2
  | invalidate => qc.invalidate

/-- The sentinel is no entity. -/
def Operation.Proper : Operation ρ → Prop
  | insertWithDeps _ _ _ deps => untrackedSentinel ∉ deps
  | _ => True

/-- No dependency is the sentinel, and no bucket is empty. -/
structure Tidy (qc : QueryCache ρ) : Prop where
  proper : ∀ key deps, value? qc.dependencies key = some deps → untrackedSentinel ∉ deps
  filled : Filled qc.entityToKeys

variable {qc : QueryCache ρ} {key : CacheKey}

theorem tidy_of_nil (hdeps : qc.dependencies = []) (hindex : qc.entityToKeys = []) : qc.Tidy := by
  refine ⟨fun key deps h => ?_, fun b hb => ?_⟩
  · rw [hdeps] at h
    cases h
  · rw [hindex] at hb
    cases hb

namespace Tidy

variable (h : qc.Tidy)

include h

theorem removeReverseIndexForKey : (qc.removeReverseIndexForKey key).Tidy :=
  ⟨h.proper, foldlRecOn _ _ h.filled fun _ hm x _ => hm.remove key x⟩

theorem removeDepsForKey : (qc.removeDepsForKey key).Tidy := by
  refine ⟨fun k deps hdeps => ?_, h.removeReverseIndexForKey.filled⟩
  rw [value?_removeDepsForKey] at hdeps
  split at hdeps
  · cases hdeps
  · exact h.proper k deps hdeps

theorem addDepsForKey {deps : List Int64} (hproper : untrackedSentinel ∉ deps) :
    (qc.addDepsForKey key deps).Tidy := by
  refine ⟨fun k d hd => ?_, foldlRecOn _ _ h.filled fun _ hm x _ => hm.add key x⟩
  rw [value?_addDepsForKey] at hd
  split at hd
  · cases hd
    exact hproper
  · exact h.proper k d hd

theorem get (now : Nat) : (qc.get now key).2.Tidy := by
  unfold QueryCache.get
  split
  · split
    · exact h
    · split
      · exact removeDepsForKey ⟨h.proper, h.filled⟩
      · exact ⟨h.proper, h.filled⟩
  · exact h

theorem insertWithDeps (now : Nat) (result : ρ) {deps : List Int64}
    (hproper : untrackedSentinel ∉ deps) : (qc.insertWithDeps now key result deps).Tidy := by
  have hremoved : (qc.removeReverseIndexForKey key).Tidy := h.removeReverseIndexForKey
  unfold QueryCache.insertWithDeps
  split
  · dsimp only
    split
    · refine addDepsForKey (removeDepsForKey ?_) hproper
      exact ⟨hremoved.proper, hremoved.filled⟩
    · refine addDepsForKey ?_ hproper
      exact ⟨hremoved.proper, hremoved.filled⟩
  · exact h

theorem invalidateEntities (hc : qc.Consistent) (entities : List Int64) :
    (qc.invalidateEntities entities).2.Tidy := by
  unfold QueryCache.invalidateEntities
  split
  · dsimp only
    split
    · have hforgotten : Forgotten (qc.keysToRemove entities) (qc.dependencies, qc.entityToKeys) _ :=
        foldl_forget_forgotten hc.index hc.indexed
      refine ⟨fun k deps hdeps => ?_, fun b hb => by simpa using (mem_filter.mp hb).2⟩
      rw [hforgotten.dependencies] at hdeps
      split at hdeps
      · cases hdeps
      · exact h.proper k deps hdeps
    · exact h
  · exact h

end Tidy

theorem apply_consistent (hc : qc.Consistent) (h : qc.Tidy) {op : Operation ρ} (hop : op.Proper) :
    (op.apply qc).Consistent ∧ (op.apply qc).Tidy := by
  cases op with
  | get now key => exact ⟨get_consistent hc now, h.get now⟩
  | insert now key result =>
    exact ⟨insertWithDeps_consistent hc now result [], h.insertWithDeps now result not_mem_nil⟩
  | insertWithDeps now key result deps =>
    exact ⟨insertWithDeps_consistent hc now result deps, h.insertWithDeps now result hop⟩
  | invalidateEntities entities =>
    exact ⟨invalidateEntities_consistent hc entities, h.invalidateEntities hc entities⟩
  | invalidate => exact ⟨invalidate_consistent qc, tidy_of_nil rfl rfl⟩

/-- The entry depends on one of the entities, or on nothing that is known. -/
def Affected (qc : QueryCache ρ) (entities : List Int64) (key : CacheKey) : Prop :=
  ∃ deps, value? qc.dependencies key = some deps ∧ (deps = [] ∨ ∃ x ∈ deps, x ∈ entities)

theorem mem_filedUnder {x : Int64} : x ∈ filedUnder qc.dependencies key ↔
    ∃ deps, value? qc.dependencies key = some deps ∧
      (deps = [] ∧ x = untrackedSentinel ∨ x ∈ deps) := by
  unfold filedUnder
  cases value? qc.dependencies key with
  | none => simp
  | some deps =>
    by_cases hnil : deps = []
    · simp [bucketsOf, hnil]
    · simp [bucketsOf, hnil]

theorem mem_keysToRemove_iff (hc : qc.Consistent) (h : qc.Tidy) {entities : List Int64} :
    key ∈ qc.keysToRemove entities ↔ qc.Affected entities key := by
  simp only [mem_keysToRemove hc, mem_filedUnder]
  constructor
  · rintro ⟨x, hx, deps, hdeps, ⟨hnil, -⟩ | hmem⟩
    · exact ⟨deps, hdeps, .inl hnil⟩
    · rcases mem_cons.mp hx with rfl | hx
      · exact absurd hmem (h.proper key deps hdeps)
      · exact ⟨deps, hdeps, .inr ⟨x, hmem, hx⟩⟩
  · rintro ⟨deps, hdeps, hnil | ⟨x, hmem, hx⟩⟩
    · exact ⟨_, mem_cons_self, deps, hdeps, .inl ⟨hnil, rfl⟩⟩
    · exact ⟨x, mem_cons_of_mem _ hx, deps, hdeps, .inr hmem⟩

theorem invalidateEntities_eq (hon : qc.enabled = true) {entities : List Int64}
    (hne : entities ≠ []) :
    (qc.invalidateEntities entities).1 = (qc.keysToRemove entities).length ∧
      (qc.invalidateEntities entities).2.cache =
        qc.cache.filter fun entry => entry.key ∉ qc.keysToRemove entities := by
  unfold QueryCache.invalidateEntities
  rw [if_pos ⟨hon, hne⟩]
  dsimp only
  split
  · exact ⟨rfl, rfl⟩
  · rename_i hnone
    have hnil : qc.keysToRemove entities = [] := length_eq_zero_iff.mp (by omega)
    simp [hnil]

theorem length_keysToRemove (hc : qc.Consistent) (entities : List Int64) :
    (qc.keysToRemove entities).length +
      (qc.cache.filter fun entry => entry.key ∉ qc.keysToRemove entities).length =
        qc.cache.length := by
  have hperm : ((qc.cache.filter fun entry => entry.key ∈ qc.keysToRemove entities).map
      CacheEntry.key).Perm (qc.keysToRemove entities) := by
    refine (perm_ext_iff_of_nodup (hc.entries.sublist (filter_sublist.map _))
      (nodup_dedup _)).mpr fun key => ?_
    rw [mem_map]
    constructor
    · rintro ⟨entry, hentry, rfl⟩
      exact of_decide_eq_true (mem_filter.mp hentry).2
    · intro hkey
      obtain ⟨x, -, hx⟩ := (mem_keysToRemove hc).mp hkey
      obtain ⟨deps, hdeps, -⟩ := mem_filedUnder.mp hx
      obtain ⟨entry, hentry, rfl⟩ := (hc.tracked key).mpr ⟨deps, hdeps⟩
      exact ⟨entry, mem_filter.mpr ⟨hentry, decide_eq_true hkey⟩, rfl⟩
  have hlength := hperm.length_eq
  rw [length_map] at hlength
  have hsplit := length_eq_length_filter_add (l := qc.cache)
    fun entry => decide (entry.key ∈ qc.keysToRemove entities)
  simp only [decide_not]
  omega

/-- What the dependency map and the reverse index say of the cache. -/
structure Tracks (qc : QueryCache ρ) : Prop where
  keys : ∀ key, (∃ entry ∈ qc.cache, entry.key = key) ↔
    ∃ deps, value? qc.dependencies key = some deps
  bucket : ∀ key x, x ≠ untrackedSentinel → (key ∈ bucket qc.entityToKeys x ↔
    ∃ deps, value? qc.dependencies key = some deps ∧ x ∈ deps)
  untracked : ∀ key, key ∈ Multimap.bucket qc.entityToKeys untrackedSentinel ↔
    value? qc.dependencies key = some []
  filled : Filled qc.entityToKeys
  removed : ∀ entities, entities ≠ [] →
    (∀ entry, entry ∈ (qc.invalidateEntities entities).2.cache ↔
      entry ∈ qc.cache ∧ ¬ qc.Affected entities entry.key) ∧
    (qc.invalidateEntities entities).1 + (qc.invalidateEntities entities).2.cache.length =
      qc.cache.length

theorem Tidy.tracks (h : qc.Tidy) (hc : qc.Consistent) : qc.Tracks := by
  refine ⟨hc.tracked, fun key x hx => ?_, fun key => ?_, h.filled, fun entities hne => ?_⟩
  · rw [hc.indexed key x, mem_filedUnder]
    simp [hx]
  · rw [hc.indexed, mem_filedUnder]
    constructor
    · rintro ⟨deps, hdeps, ⟨rfl, -⟩ | hmem⟩
      · exact hdeps
      · exact absurd hmem (h.proper key deps hdeps)
    · intro hdeps
      exact ⟨[], hdeps, .inl ⟨rfl, rfl⟩⟩
  · cases hon : qc.enabled with
    | false =>
      have hoff : qc.invalidateEntities entities = (0, qc) := by
        simp [QueryCache.invalidateEntities, hon]
      simp [hoff, hc.disabled hon]
    | true =>
      obtain ⟨hcount, hcache⟩ := invalidateEntities_eq hon hne
      rw [hcount, hcache]
      refine ⟨fun entry => ?_, length_keysToRemove hc entities⟩
      rw [mem_filter, decide_eq_true_iff, mem_keysToRemove_iff hc h]

theorem foldl_apply_consistent {ops : List (Operation ρ)} (hops : ∀ op ∈ ops, op.Proper)
    (hc : qc.Consistent) (h : qc.Tidy) :
    (ops.foldl Operation.apply qc).Consistent ∧ (ops.foldl Operation.apply qc).Tidy := by
  induction ops generalizing qc with
  | nil => exact ⟨hc, h⟩
  | cons op ops ih =>
    obtain ⟨hop, hops⟩ := forall_mem_cons.mp hops
    obtain ⟨hc', h'⟩ := apply_consistent hc h hop
    exact ih hops hc' h'

/-- After any calls, one at a time, that name only entities, the maps track the cache. -/
theorem tracks_foldl_apply {ops : List (Operation ρ)} (hops : ∀ op ∈ ops, op.Proper)
    (capacity ttl : Nat) : (ops.foldl Operation.apply (new capacity ttl)).Tracks := by
  obtain ⟨hc, h⟩ := foldl_apply_consistent hops (new_consistent capacity ttl) (tidy_of_nil rfl rfl)
  exact h.tracks hc

/-- The second entry takes the place of the first. -/
theorem tracks_foldl_apply_evicting : (foldl Operation.apply (new 1 60)
    [.insertWithDeps 0 ("a", "[]") 1 [7], .insert 1 ("b", "[]") 2] : QueryCache Nat).Tracks :=
  tracks_foldl_apply (by simp [Operation.Proper, show untrackedSentinel ≠ 7 by decide]) 1 60

end QueryCache

end PgMentat

import PgMentat.Lib.Multimap
import Mathlib.Data.List.Dedup

namespace PgMentat

open List KeyedTable Multimap

/-- The query text and the JSON text of its arguments. -/
abbrev CacheKey := String × String

structure CacheEntry (ρ : Type) where
  key : CacheKey
  result : ρ
  insertedAt : Nat

structure QueryCache (ρ : Type) where
  cache : List (CacheEntry ρ)
  capacity : Nat
  dependencies : List (CacheKey × List Int64)
  entityToKeys : List (Int64 × List CacheKey)
  ttl : Nat
  enabled : Bool

def untrackedSentinel : Int64 := Int64.minValue

def bucketsOf (deps : List Int64) : List Int64 := if deps = [] then [untrackedSentinel] else deps

/-- The buckets that the dependencies of a key call for; a key that is not tracked has none. -/
def filedUnder (dependencies : List (CacheKey × List Int64)) (key : CacheKey) : List Int64 :=
  ((value? dependencies key).map bucketsOf).getD []

namespace QueryCache

variable {ρ : Type}

/-- A capacity of 0 disables the cache. -/
def new (capacity ttl : Nat) : QueryCache ρ where
  cache := []
  capacity := max capacity 1
  dependencies := []
  entityToKeys := []
  ttl := ttl
  enabled := decide (0 < capacity)

def removeReverseIndexForKey (qc : QueryCache ρ) (key : CacheKey) : QueryCache ρ :=
  { qc with entityToKeys := (filedUnder qc.dependencies key).foldl (remove key) qc.entityToKeys }

def removeDepsForKey (qc : QueryCache ρ) (key : CacheKey) : QueryCache ρ :=
  { qc.removeReverseIndexForKey key with dependencies := del Prod.fst qc.dependencies key }

def addDepsForKey (qc : QueryCache ρ) (key : CacheKey) (deps : List Int64) : QueryCache ρ :=
  { qc with
    dependencies := put Prod.fst qc.dependencies (key, deps)
    entityToKeys := (bucketsOf deps).foldl (add key) qc.entityToKeys }

def entry? (qc : QueryCache ρ) (key : CacheKey) : Option (CacheEntry ρ) :=
  qc.cache.find? fun entry => entry.key = key

/-- A hit becomes the most recently used entry; an expired one is dropped. -/
def get (qc : QueryCache ρ) (now : Nat) (key : CacheKey) : Option ρ × QueryCache ρ :=
  if qc.enabled then
    match qc.entry? key with
    | none => (none, qc)
    | some entry =>
      if qc.ttl < now - entry.insertedAt then
        (none, { qc with cache := del CacheEntry.key qc.cache key }.removeDepsForKey key)
      else (some entry.result, { qc with cache := put CacheEntry.key qc.cache entry })
  else (none, qc)

/-- `LruCache::put` drops the least recently used entry to make room for a new key. -/
def insertWithDeps (qc : QueryCache ρ) (now : Nat) (key : CacheKey) (result : ρ)
    (deps : List Int64) : QueryCache ρ :=
  if qc.enabled then
    let qc := qc.removeReverseIndexForKey key
    let full := qc.cache.length = qc.capacity ∧ qc.entry? key = none
    match if full then qc.cache.head? else none with
    | some evicted =>
      let qc := { qc with cache := put CacheEntry.key qc.cache.tail ⟨key, result, now⟩ }
      (qc.removeDepsForKey evicted.key).addDepsForKey key deps
    | none =>
      { qc with cache := put CacheEntry.key qc.cache ⟨key, result, now⟩ }.addDepsForKey key deps
  else qc

/-- The keys that depend on one of the entities, and the untracked ones. -/
def keysToRemove (qc : QueryCache ρ) (entities : List Int64) : List CacheKey :=
  ((untrackedSentinel :: entities).flatMap (bucket qc.entityToKeys)).dedup

def forget (tracking : List (CacheKey × List Int64) × List (Int64 × List CacheKey))
    (key : CacheKey) : List (CacheKey × List Int64) × List (Int64 × List CacheKey) :=
  match value? tracking.1 key with
  | none => tracking
  | some deps =>
    (del Prod.fst tracking.1 key, (bucketsOf deps).foldl (erase key) tracking.2)

def invalidateEntities (qc : QueryCache ρ) (entities : List Int64) : Nat × QueryCache ρ :=
  if qc.enabled ∧ entities ≠ [] then
    let keys := qc.keysToRemove entities
    let tracking := keys.foldl forget (qc.dependencies, qc.entityToKeys)
    if 0 < keys.length then
      (keys.length, { qc with
        cache := qc.cache.filter fun entry => entry.key ∉ keys
        dependencies := tracking.1
        entityToKeys := compact tracking.2 })
    else (0, qc)
  else (0, qc)

def invalidate (qc : QueryCache ρ) : QueryCache ρ :=
  { qc with cache := [], dependencies := [], entityToKeys := [] }

theorem filedUnder_del (dependencies : List (CacheKey × List Int64)) (key : CacheKey) :
    filedUnder (del Prod.fst dependencies key) =
      Function.update (filedUnder dependencies) key [] := by
  funext k
  rw [filedUnder, value?_del]
  by_cases hk : key = k
  · simp [hk]
  · simp [hk, Ne.symm hk, filedUnder]

/-- The cached keys are the tracked ones, and the reverse index inverts the dependencies. -/
structure Consistent (qc : QueryCache ρ) : Prop where
  entries : (qc.cache.map CacheEntry.key).Nodup
  tracked : ∀ key, (∃ entry ∈ qc.cache, entry.key = key) ↔
    ∃ deps, value? qc.dependencies key = some deps
  index : KeyUnique Prod.fst qc.entityToKeys
  indexed : Inverts qc.entityToKeys (filedUnder qc.dependencies)
  disabled : qc.enabled = false → qc.cache = []

theorem new_consistent (capacity ttl : Nat) : (new capacity ttl : QueryCache ρ).Consistent where
  entries := nodup_nil
  tracked := by simp [new, value?]
  index := fun _ hx => nomatch hx
  indexed := by simp [Inverts, bucket, filedUnder, new, value?]
  disabled := fun _ => rfl

variable {qc : QueryCache ρ} {key : CacheKey}

theorem inverts_removeReverseIndexForKey {f : CacheKey → List Int64}
    (h : Inverts qc.entityToKeys f) (hf : f key = filedUnder qc.dependencies key) :
    Inverts (qc.removeReverseIndexForKey key).entityToKeys (Function.update f key []) := by
  have htake := h.foldl_take (k := key) mem_bucket_remove
  rw [hf] at htake
  exact htake

theorem keyUnique_removeReverseIndexForKey (h : KeyUnique Prod.fst qc.entityToKeys) :
    KeyUnique Prod.fst (qc.removeReverseIndexForKey key).entityToKeys :=
  foldlRecOn _ _ h fun _ hm x _ => keyUnique_remove key hm x

theorem value?_removeDepsForKey (k : CacheKey) :
    value? (qc.removeDepsForKey key).dependencies k =
      if key = k then none else value? qc.dependencies k := value?_del _ _ _

theorem value?_addDepsForKey (deps : List Int64) (k : CacheKey) :
    value? (qc.addDepsForKey key deps).dependencies k =
      if key = k then some deps else value? qc.dependencies k := value?_put _ _ _ _

theorem removeDepsForKey_consistent (h : qc.Consistent) :
    { qc with cache := del CacheEntry.key qc.cache key }.removeDepsForKey key |>.Consistent where
  entries := nodup_del h.entries key
  tracked := by
    intro k
    rw [value?_removeDepsForKey]
    show (∃ entry ∈ del CacheEntry.key qc.cache key, entry.key = k) ↔ _
    by_cases hk : key = k
    · simp [hk]
    · rw [if_neg hk, ← h.tracked k]
      constructor
      · rintro ⟨entry, hentry, rfl⟩
        exact ⟨entry, (mem_del.mp hentry).1, rfl⟩
      · rintro ⟨entry, hentry, rfl⟩
        exact ⟨entry, mem_del.mpr ⟨hentry, Ne.symm hk⟩, rfl⟩
  index := keyUnique_removeReverseIndexForKey h.index
  indexed := by
    show Inverts _ (filedUnder (del Prod.fst qc.dependencies key))
    rw [filedUnder_del]
    exact inverts_removeReverseIndexForKey h.indexed rfl
  disabled := by
    intro hoff
    show del CacheEntry.key qc.cache key = []
    rw [h.disabled hoff]
    rfl

theorem get_consistent (h : qc.Consistent) (now : Nat) : (qc.get now key).2.Consistent := by
  unfold get
  split
  · rename_i hon
    split
    · exact h
    · rename_i entry hentry
      split
      · exact removeDepsForKey_consistent h
      · have hkey : entry.key = key := by simpa using List.find?_some hentry
        have hmem : entry ∈ qc.cache := mem_of_find?_eq_some hentry
        have hcache (e : CacheEntry ρ) : e ∈ put CacheEntry.key qc.cache entry ↔ e ∈ qc.cache := by
          rw [mem_put]
          constructor
          · rintro (rfl | ⟨he, -⟩)
            · exact hmem
            · exact he
          · intro he
            by_cases hek : e.key = entry.key
            · exact .inl (inj_on_of_nodup_map h.entries he hmem hek)
            · exact .inr ⟨he, hek⟩
        refine ⟨nodup_put h.entries entry, fun k => ?_, h.index, h.indexed, fun hoff => ?_⟩
        · simp only [hcache]
          exact h.tracked k
        · rw [hon] at hoff
          cases hoff
  · exact h

/-- What an insertion leaves: the new entry, and the old ones but for the key itself and the least
recently used entry, which may have been evicted. -/
structure Inserted (qc qc' : QueryCache ρ) (entry : CacheEntry ρ) (deps : List Int64)
    (evicted : Option CacheKey) : Prop where
  entries : (qc'.cache.map CacheEntry.key).Nodup
  cache : ∀ e, e ∈ qc'.cache ↔ e = entry ∨ (e ∈ qc.cache ∧ e.key ≠ entry.key ∧ some e.key ≠ evicted)
  dependencies : ∀ k, value? qc'.dependencies k =
    if entry.key = k then some deps else if evicted = some k then none
    else value? qc.dependencies k
  index : KeyUnique Prod.fst qc'.entityToKeys
  indexed : Inverts qc'.entityToKeys fun k =>
    if entry.key = k then bucketsOf deps else if evicted = some k then []
    else filedUnder qc.dependencies k
  enabled : qc'.enabled = true

theorem insertWithDeps_inserted (h : qc.Consistent) (hon : qc.enabled = true) (now : Nat)
    (result : ρ) (deps : List Int64) :
    ∃ evicted, Inserted qc (qc.insertWithDeps now key result deps) ⟨key, result, now⟩ deps
      evicted := by
  have hfirst := inverts_removeReverseIndexForKey h.indexed
    (show filedUnder qc.dependencies key = _ from rfl)
  have hunique : KeyUnique Prod.fst (qc.removeReverseIndexForKey key).entityToKeys :=
    keyUnique_removeReverseIndexForKey h.index
  unfold insertWithDeps
  rw [if_pos hon]
  dsimp only
  split
  · rename_i evicted hhead
    obtain ⟨⟨-, habsent⟩, hhead⟩ : (qc.cache.length = qc.capacity ∧ qc.entry? key = none) ∧
        qc.cache.head? = some evicted := by
      split at hhead
      · exact ⟨‹_›, hhead⟩
      · cases hhead
    obtain ⟨rest, hcache⟩ : ∃ rest, qc.cache = evicted :: rest := by
      cases hc : qc.cache with
      | nil => rw [hc] at hhead; cases hhead
      | cons e rest =>
        rw [hc] at hhead
        exact ⟨rest, by rw [Option.some.inj hhead]⟩
    have hmem : evicted ∈ qc.cache := by simp [hcache]
    have hne : evicted.key ≠ key := by
      have hnone := List.find?_eq_none.mp habsent evicted hmem
      simpa using hnone
    have htail : (qc.cache.tail.map CacheEntry.key).Nodup :=
      h.entries.sublist (qc.cache.tail_sublist.map _)
    have hrest : ∀ e ∈ rest, e.key ≠ evicted.key := by
      intro e he hkey
      have hnodup := h.entries
      rw [hcache, map_cons, nodup_cons] at hnodup
      exact hnodup.1 (hkey ▸ mem_map_of_mem he)
    refine ⟨some evicted.key, nodup_put htail _, fun e => ?_, fun k => ?_, ?_, ?_, hon⟩
    · have hsplit : e ∈ rest ∧ e.key ≠ key ↔
          (e = evicted ∨ e ∈ rest) ∧ e.key ≠ key ∧ e.key ≠ evicted.key := by
        constructor
        · intro ⟨he, hkey⟩
          exact ⟨.inr he, hkey, hrest e he⟩
        · rintro ⟨rfl | he, hkey, hevicted⟩
          · exact absurd rfl hevicted
          · exact ⟨he, hkey⟩
      simpa [addDepsForKey, removeDepsForKey, removeReverseIndexForKey, hcache] using
        or_congr_right hsplit
    · rw [value?_addDepsForKey, value?_removeDepsForKey]
      simp [removeReverseIndexForKey]
    · exact foldlRecOn _ _ (keyUnique_removeReverseIndexForKey hunique)
        fun _ hm x _ => keyUnique_add key hm x
    · have hsecond := inverts_removeReverseIndexForKey hfirst
        (Function.update_of_ne hne [] (filedUnder qc.dependencies))
      have hkey : Function.update (Function.update (filedUnder qc.dependencies) key [])
          evicted.key [] key = [] := by
        rw [Function.update_of_ne (Ne.symm hne), Function.update_self]
      refine (hsecond.foldl_add hkey (bucketsOf deps)).congr fun k => ?_
      by_cases hk : key = k
      · simp [hk]
      · by_cases hev : evicted.key = k
        · simp [hk, Ne.symm hk, hev]
        · simp [hk, Ne.symm hk, hev, Ne.symm hev]
  · rename_i hhead
    refine ⟨none, nodup_put h.entries _, fun e => ?_, fun k => ?_, ?_, ?_, hon⟩
    · simp [addDepsForKey, removeReverseIndexForKey]
    · rw [value?_addDepsForKey]
      simp [removeReverseIndexForKey]
    · exact foldlRecOn _ _ hunique fun _ hm x _ => keyUnique_add key hm x
    · have hadd := hfirst.foldl_add (Function.update_self key [] (filedUnder qc.dependencies))
        (bucketsOf deps)
      refine hadd.congr fun k => ?_
      by_cases hk : key = k
      · simp [hk]
      · simp [hk, Ne.symm hk]

theorem Inserted.consistent {qc' : QueryCache ρ} {entry : CacheEntry ρ} {deps : List Int64}
    {evicted : Option CacheKey} (h : qc.Consistent) (hins : Inserted qc qc' entry deps evicted) :
    qc'.Consistent where
  entries := hins.entries
  tracked := by
    intro k
    rw [hins.dependencies]
    by_cases hk : entry.key = k
    · simp only [hk, if_true, Option.some.injEq, exists_eq', iff_true]
      exact ⟨entry, (hins.cache entry).mpr (.inl rfl), hk⟩
    · rw [if_neg hk]
      by_cases hev : evicted = some k
      · simp only [hev, if_true, reduceCtorEq, exists_false, iff_false]
        rintro ⟨e, he, rfl⟩
        rcases (hins.cache e).mp he with rfl | ⟨-, -, hne⟩
        · exact hk rfl
        · exact hne hev.symm
      · rw [if_neg hev, ← h.tracked k]
        constructor
        · rintro ⟨e, he, rfl⟩
          rcases (hins.cache e).mp he with rfl | ⟨he, -, -⟩
          · exact absurd rfl hk
          · exact ⟨e, he, rfl⟩
        · rintro ⟨e, he, rfl⟩
          exact ⟨e, (hins.cache e).mpr (.inr ⟨he, Ne.symm hk, Ne.symm hev⟩), rfl⟩
  index := hins.index
  indexed := by
    refine hins.indexed.congr fun k => ?_
    unfold filedUnder
    rw [hins.dependencies]
    by_cases hk : entry.key = k
    · simp [hk]
    · by_cases hev : evicted = some k
      · simp [hk, hev]
      · simp [hk, hev]
  disabled := by
    intro hoff
    rw [hins.enabled] at hoff
    cases hoff

theorem insertWithDeps_consistent (h : qc.Consistent) (now : Nat) (result : ρ)
    (deps : List Int64) : (qc.insertWithDeps now key result deps).Consistent := by
  cases hon : qc.enabled with
  | true =>
    obtain ⟨evicted, hins⟩ := insertWithDeps_inserted h hon now result deps
    exact hins.consistent h
  | false =>
    rw [insertWithDeps, hon]
    exact h

structure Forgotten (keys : List CacheKey)
    (before after : List (CacheKey × List Int64) × List (Int64 × List CacheKey)) : Prop where
  dependencies : ∀ k, value? after.1 k = if k ∈ keys then none else value? before.1 k
  index : KeyUnique Prod.fst after.2
  indexed : Inverts after.2 (filedUnder after.1)

variable {tracking : List (CacheKey × List Int64) × List (Int64 × List CacheKey)}

theorem forget_forgotten (hindex : KeyUnique Prod.fst tracking.2)
    (hindexed : Inverts tracking.2 (filedUnder tracking.1)) (key : CacheKey) :
    Forgotten [key] tracking (forget tracking key) := by
  unfold forget
  split
  · rename_i hnone
    refine ⟨fun k => ?_, hindex, hindexed⟩
    by_cases hk : k = key
    · simp [hk, hnone]
    · simp [hk]
  · rename_i deps hsome
    refine ⟨fun k => ?_, foldlRecOn _ _ hindex fun _ hm x _ => keyUnique_erase key hm x, ?_⟩
    · simp [value?_del, eq_comm]
    · have htake := hindexed.foldl_take (k := key) mem_bucket_erase
      rw [filedUnder_del]
      rw [show filedUnder tracking.1 key = bucketsOf deps by simp [filedUnder, hsome]] at htake
      exact htake

theorem foldl_forget_forgotten {keys : List CacheKey} (hindex : KeyUnique Prod.fst tracking.2)
    (hindexed : Inverts tracking.2 (filedUnder tracking.1)) :
    Forgotten keys tracking (keys.foldl forget tracking) := by
  induction keys generalizing tracking with
  | nil => exact ⟨fun k => by simp, hindex, hindexed⟩
  | cons key keys ih =>
    have hone := forget_forgotten hindex hindexed key
    have hrest := ih hone.index hone.indexed
    refine ⟨fun k => ?_, hrest.index, hrest.indexed⟩
    rw [foldl_cons, hrest.dependencies, hone.dependencies]
    by_cases hkeys : k ∈ keys
    · simp [hkeys]
    · simp [hkeys]

theorem mem_keysToRemove (h : qc.Consistent) {entities : List Int64} :
    key ∈ qc.keysToRemove entities ↔
      ∃ x ∈ untrackedSentinel :: entities, x ∈ filedUnder qc.dependencies key := by
  rw [keysToRemove, mem_dedup, mem_flatMap]
  exact exists_congr fun x => and_congr_right fun _ => h.indexed key x

theorem invalidateEntities_consistent (h : qc.Consistent) (entities : List Int64) :
    (qc.invalidateEntities entities).2.Consistent := by
  unfold invalidateEntities
  split
  · rename_i hon
    dsimp only
    split
    · have hforgotten : Forgotten (qc.keysToRemove entities) (qc.dependencies, qc.entityToKeys) _ :=
        foldl_forget_forgotten h.index h.indexed
      refine ⟨h.entries.sublist (filter_sublist.map _), fun k => ?_,
        fun a ha b hb => hforgotten.index a (mem_filter.mp ha).1 b (mem_filter.mp hb).1,
        hforgotten.indexed.compact hforgotten.index, fun hoff => ?_⟩
      · rw [hforgotten.dependencies]
        by_cases hk : k ∈ qc.keysToRemove entities
        · simp only [hk, if_true, reduceCtorEq, exists_false, iff_false]
          rintro ⟨e, he, rfl⟩
          have hkept := (mem_filter.mp he).2
          simp [hk] at hkept
        · rw [if_neg hk, ← h.tracked k]
          constructor
          · rintro ⟨e, he, rfl⟩
            exact ⟨e, (mem_filter.mp he).1, rfl⟩
          · rintro ⟨e, he, rfl⟩
            exact ⟨e, mem_filter.mpr ⟨he, by simpa using hk⟩, rfl⟩
      · rw [hon.1] at hoff
        cases hoff
    · exact h
  · exact h

theorem invalidate_consistent (qc : QueryCache ρ) : qc.invalidate.Consistent where
  entries := nodup_nil
  tracked := by simp [invalidate, value?]
  index := fun _ hx => nomatch hx
  indexed := by simp [Inverts, bucket, filedUnder, invalidate, value?]
  disabled := fun _ => rfl

/-- The key is cached with this result and these dependencies. -/
def Holds (qc : QueryCache ρ) (key : CacheKey) (result : ρ) (deps : List Int64) : Prop :=
  ∃ entry ∈ qc.cache, entry.key = key ∧ entry.result = result ∧
    value? qc.dependencies key = some deps

theorem not_holds_new {capacity ttl : Nat} {result : ρ} {deps : List Int64} :
    ¬ (new capacity ttl : QueryCache ρ).Holds key result deps := by
  rintro ⟨entry, hentry, -⟩
  exact not_mem_nil hentry

variable {k : CacheKey} {result r : ρ} {deps d : List Int64} {now : Nat}

theorem holds_of_get (h : qc.Consistent) (hget : (qc.get now key).1 = some result) :
    ∃ deps, qc.Holds key result deps := by
  unfold get at hget
  split at hget
  · split at hget
    · cases hget
    · rename_i entry hentry
      split at hget
      · cases hget
      · have hkey : entry.key = key := by simpa using List.find?_some hentry
        have hmem : entry ∈ qc.cache := mem_of_find?_eq_some hentry
        obtain ⟨deps, hdeps⟩ := (h.tracked key).mp ⟨entry, hmem, hkey⟩
        exact ⟨deps, entry, hmem, hkey, Option.some.inj hget, hdeps⟩
  · cases hget

theorem Holds.of_get (h : (qc.get now key).2.Holds k r d) : qc.Holds k r d := by
  unfold get at h
  split at h
  · split at h
    · exact h
    · rename_i entry hentry
      split at h
      · obtain ⟨e, he, hk, hr, hd⟩ := h
        rw [value?_removeDepsForKey] at hd
        split at hd
        · cases hd
        · exact ⟨e, (mem_del.mp he).1, hk, hr, hd⟩
      · obtain ⟨e, he, hrest⟩ := h
        rcases mem_put.mp he with rfl | ⟨he, -⟩
        · exact ⟨e, mem_of_find?_eq_some hentry, hrest⟩
        · exact ⟨e, he, hrest⟩
  · exact h

theorem Holds.of_insertWithDeps (hc : qc.Consistent)
    (h : (qc.insertWithDeps now key result deps).Holds k r d) :
    (k = key ∧ r = result ∧ d = deps) ∨ qc.Holds k r d := by
  cases hon : qc.enabled with
  | false =>
    rw [insertWithDeps, hon] at h
    exact .inr h
  | true =>
    obtain ⟨evicted, hins⟩ : ∃ evicted, Inserted qc (qc.insertWithDeps now key result deps)
        ⟨key, result, now⟩ deps evicted := insertWithDeps_inserted hc hon now result deps
    obtain ⟨e, he, rfl, rfl, hd⟩ := h
    rw [hins.dependencies] at hd
    rcases (hins.cache e).mp he with rfl | ⟨he, hne, hev⟩
    · rw [if_pos rfl] at hd
      exact .inl ⟨rfl, rfl, (Option.some.inj hd).symm⟩
    · rw [if_neg (Ne.symm hne), if_neg (Ne.symm hev)] at hd
      exact .inr ⟨e, he, rfl, rfl, hd⟩

theorem Holds.of_invalidateEntities (hc : qc.Consistent) {entities : List Int64}
    (hne : entities ≠ []) (h : (qc.invalidateEntities entities).2.Holds k r d) :
    qc.Holds k r d ∧ d ≠ [] ∧ ∀ x ∈ d, x ∉ entities := by
  have hkept : qc.Holds k r d ∧ k ∉ qc.keysToRemove entities := by
    unfold invalidateEntities at h
    split at h
    · dsimp only at h
      split at h
      · have hforgotten : Forgotten (qc.keysToRemove entities)
            (qc.dependencies, qc.entityToKeys) _ := foldl_forget_forgotten hc.index hc.indexed
        obtain ⟨e, he, rfl, hr, hd⟩ := h
        obtain ⟨hmem, hkey⟩ := mem_filter.mp he
        have hkey : e.key ∉ qc.keysToRemove entities := by simpa using hkey
        rw [hforgotten.dependencies, if_neg hkey] at hd
        exact ⟨⟨e, hmem, rfl, hr, hd⟩, hkey⟩
      · rename_i hnone
        have hnil : qc.keysToRemove entities = [] := by
          rw [← length_eq_zero_iff]
          omega
        exact ⟨h, hnil ▸ not_mem_nil⟩
    · rename_i hoff
      have hoff : qc.enabled = false := by
        simpa [hne] using hoff
      obtain ⟨e, he, -⟩ := h
      rw [hc.disabled hoff] at he
      exact nomatch he
  obtain ⟨hholds, hkey⟩ := hkept
  have hfiled : filedUnder qc.dependencies k = bucketsOf d := by
    obtain ⟨e, -, -, -, hd⟩ := hholds
    simp [filedUnder, hd]
  rw [mem_keysToRemove hc, hfiled] at hkey
  push Not at hkey
  have htracked : d ≠ [] := by
    intro hd
    apply hkey untrackedSentinel mem_cons_self
    simp [bucketsOf, hd]
  refine ⟨hholds, htracked, fun x hx hentity => ?_⟩
  apply hkey x (mem_cons_of_mem _ hentity)
  simpa [bucketsOf, htracked] using hx

theorem not_holds_invalidate : ¬ qc.invalidate.Holds k r d := by
  rintro ⟨e, he, -⟩
  exact not_mem_nil he

end QueryCache

end PgMentat

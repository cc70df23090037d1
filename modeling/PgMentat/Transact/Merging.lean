import PgMentat.Transact.Naming
import PgMentat.Lib.Pointers

namespace PgMentat

open StatementProgram Program Relation Pointers Server

theorem EntidMap.lookup_insert {β : Type} (m : EntidMap β) (k x : Int64) (v : β) :
    (m.insert k v).lookup x = if x = k then some v else m.lookup x := by
  induction m with
  | nil =>
    rw [insert, List.lookup_cons]
    by_cases h : x = k
    · simp [h]
    · simp [h, beq_false_of_ne h]
  | cons entry rest ih =>
    obtain ⟨k', v'⟩ := entry
    unfold insert
    by_cases hk : k = k'
    · rw [if_pos hk, List.lookup_cons, List.lookup_cons, ← hk]
      by_cases h : x = k
      · simp [h]
      · simp [h, beq_false_of_ne h]
    · rw [if_neg hk]
      by_cases hlt : k < k'
      · rw [if_pos hlt, List.lookup_cons]
        by_cases h : x = k
        · simp [h]
        · simp [h, beq_false_of_ne h]
      · rw [if_neg hlt, List.lookup_cons, List.lookup_cons, ih]
        by_cases h : x = k'
        · have hx : x ≠ k := fun hxk => hk (hxk.symm.trans h)
          simp [h, Ne.symm hk]
        · simp [beq_false_of_ne h]

namespace Remaps

def next (remaps : Remaps) (x : Int64) : Option Int64 := remaps.lookup x

theorem next_insert (remaps : Remaps) (k v : Int64) :
    next (EntidMap.insert remaps k v) = Function.update (next remaps) k (some v) := by
  funext x
  rw [next, EntidMap.lookup_insert, Function.update_apply]
  rfl

theorem bounded_next (remaps : Remaps) : Bounded (next remaps) remaps.length := by
  refine ⟨remaps.map Prod.fst, by rw [List.length_map], fun x hx => ?_⟩
  obtain ⟨y, hy⟩ := Option.ne_none_iff_exists'.mp hx
  exact List.mem_map_of_mem (mem_of_lookup hy)

end Remaps

open Remaps

theorem followRemaps_eq_iterate (remaps : Remaps) (steps : Nat) (e : Int64) :
    followRemaps remaps steps e = (step (next remaps))^[steps] e := by
  induction steps generalizing e with
  | zero => rfl
  | succ steps ih =>
    rw [Function.iterate_succ_apply]
    unfold followRemaps
    cases h : remaps.lookup e with
    | none =>
      have hfixed : step (next remaps) e = e := step_of_none h
      rw [hfixed, Function.iterate_fixed hfixed]
    | some y =>
      have hstep : step (next remaps) e = y := step_of_some h
      dsimp only
      by_cases hy : y = e
      · rw [if_pos hy, hstep, hy, Function.iterate_fixed (hstep.trans hy)]
      · rw [if_neg hy, hstep, ih]

section Roots

variable {remaps : Remaps} {e r : Int64}

theorem connected_resolveRoot : Connected (next remaps) e (resolveRoot remaps e) := by
  rw [resolveRoot, followRemaps_eq_iterate]
  exact connected_iterate _ _ _

theorem resolveRoot_eq_iff (hr : next remaps r = none) :
    resolveRoot remaps e = r ↔ Connected (next remaps) e r := by
  rw [resolveRoot, followRemaps_eq_iterate]
  exact iterate_eq_iff_connected (bounded_next remaps) (Nat.le_succ _) hr

end Roots

/-- Two assertions of one identity value. -/
def SameIdentity (d d' : PendingDatom) : Prop := d.a = d'.a ∧ d.v.partialEq d'.v = true

theorem SameIdentity.symm {d d' : PendingDatom} (h : SameIdentity d d') : SameIdentity d' d := by
  have hv := TypedValue.eq_of_partialEq h.2
  refine ⟨h.1.symm, ?_⟩
  rw [← hv]
  have hself := h.2
  rwa [← hv] at hself

section Pair

variable {R : Int64 → Int64 → Prop} {remaps : Remaps} {f d : PendingDatom} {x : Int64}

theorem mergePair_of_not (h : ¬ SameIdentity f d) : mergePair f remaps d = remaps := if_neg h

theorem mergePair_of_eq (h : resolveRoot remaps f.e = resolveRoot remaps d.e) :
    mergePair f remaps d = remaps := by
  unfold mergePair
  split
  · exact if_pos h
  · rfl

theorem mergePair_of_ne (h : SameIdentity f d)
    (hne : resolveRoot remaps f.e ≠ resolveRoot remaps d.e) :
    mergePair f remaps d = remaps.insert (resolveRoot remaps d.e) (resolveRoot remaps f.e) := by
  have hpair : f.a = d.a ∧ f.v.partialEq d.v = true := h
  unfold mergePair
  rw [if_pos hpair]
  exact if_neg hne

theorem connected_mergePair (hR : ∀ x y, Connected (next remaps) x y ↔ EqvGen R x y)
    (h : SameIdentity f d) (x y : Int64) :
    Connected (next (mergePair f remaps d)) x y ↔ EqvGen (WithPair R f.e d.e) x y := by
  by_cases heq : resolveRoot remaps f.e = resolveRoot remaps d.e
  · rw [mergePair_of_eq heq, hR]
    have hroot : Connected (next remaps) d.e (resolveRoot remaps d.e) := connected_resolveRoot
    have hclass : Connected (next remaps) f.e d.e := by
      rw [← heq] at hroot
      exact .trans _ _ _ connected_resolveRoot (.symm _ _ hroot)
    exact (eqvGen_withPair_iff_of_eqvGen ((hR _ _).mp hclass)).symm
  · rw [mergePair_of_ne h heq, next_insert]
    have hend : resolveRoot remaps d.e = (step (next remaps))^[remaps.length + 1] d.e :=
      followRemaps_eq_iterate remaps _ d.e
    rw [hend]
    exact connected_update_iff hR (bounded_next remaps) (Nat.le_succ _) connected_resolveRoot

theorem next_mergePair_eq_none (hR : ∀ x y, Connected (next remaps) x y ↔ EqvGen R x y)
    (h : SameIdentity f d) (hx : next remaps x = none) :
    next (mergePair f remaps d) x = none ↔ (EqvGen R d.e x → EqvGen R f.e x) := by
  rw [← hR, ← hR, ← resolveRoot_eq_iff hx, ← resolveRoot_eq_iff hx]
  by_cases heq : resolveRoot remaps f.e = resolveRoot remaps d.e
  · rw [mergePair_of_eq heq, heq]
    exact iff_of_true hx id
  · rw [mergePair_of_ne h heq, next_insert, Function.update_apply]
    by_cases hroot : x = resolveRoot remaps d.e
    · rw [if_pos hroot]
      refine iff_of_false (Option.some_ne_none _) fun hlead => ?_
      exact heq ((hlead hroot.symm).trans hroot)
    · rw [if_neg hroot]
      exact iff_of_true hx fun hd => absurd hd.symm hroot

theorem next_mergePair_ne_none (hx : next remaps x ≠ none) :
    next (mergePair f remaps d) x ≠ none := by
  by_cases h : SameIdentity f d
  · by_cases heq : resolveRoot remaps f.e = resolveRoot remaps d.e
    · rwa [mergePair_of_eq heq]
    · rw [mergePair_of_ne h heq, next_insert, Function.update_apply]
      split
      · exact Option.some_ne_none _
      · exact hx
  · rwa [mergePair_of_not h]

end Pair

section Inner

variable {R : Int64 → Int64 → Prop} {remaps : Remaps} {f : PendingDatom}
  {rest : List PendingDatom} {x : Int64}

/-- What a row of pairs with one first assertion joins. -/
def JoinedAll (R : Int64 → Int64 → Prop) (f : PendingDatom) (rest : List PendingDatom)
    (x y : Int64) : Prop :=
  R x y ∨ ∃ d ∈ rest, SameIdentity f d ∧ x = f.e ∧ y = d.e

theorem joinedAll_nil : JoinedAll R f [] = R := by
  funext x y
  simp [JoinedAll]

theorem joinedAll_cons_of_not {d : PendingDatom} (h : ¬ SameIdentity f d) :
    JoinedAll R f (d :: rest) = JoinedAll R f rest := by
  funext x y
  simp [JoinedAll, h]

theorem joinedAll_cons {d : PendingDatom} (h : SameIdentity f d) :
    JoinedAll R f (d :: rest) = JoinedAll (WithPair R f.e d.e) f rest := by
  funext x y
  simp [JoinedAll, WithPair, h, or_assoc]

theorem connected_foldl_mergePair (hR : ∀ x y, Connected (next remaps) x y ↔ EqvGen R x y)
    (x y : Int64) : Connected (next (rest.foldl (mergePair f) remaps)) x y ↔
      EqvGen (JoinedAll R f rest) x y := by
  induction rest generalizing R remaps with
  | nil =>
    rw [joinedAll_nil]
    exact hR x y
  | cons d rest ih =>
    rw [List.foldl_cons]
    by_cases h : SameIdentity f d
    · rw [joinedAll_cons h]
      exact ih (connected_mergePair hR h)
    · rw [joinedAll_cons_of_not h, mergePair_of_not h]
      exact ih hR

theorem next_foldl_mergePair_ne_none (hx : next remaps x ≠ none) :
    next (rest.foldl (mergePair f) remaps) x ≠ none := by
  induction rest generalizing remaps with
  | nil => exact hx
  | cons d rest ih => exact ih (next_mergePair_ne_none hx)

/-- A representative stays if the first assertion is of its class as soon as one of the others
is; which pairs have been joined before makes no difference. -/
theorem next_foldl_mergePair_eq_none (hR : ∀ x y, Connected (next remaps) x y ↔ EqvGen R x y)
    (hx : next remaps x = none) : next (rest.foldl (mergePair f) remaps) x = none ↔
      ∀ d ∈ rest, SameIdentity f d → EqvGen R d.e x → EqvGen R f.e x := by
  induction rest generalizing R remaps with
  | nil => exact iff_of_true hx fun d hd => nomatch hd
  | cons d rest ih =>
    rw [List.foldl_cons, List.forall_mem_cons]
    by_cases h : SameIdentity f d
    · by_cases hstay : next (mergePair f remaps d) x = none
      · have hlead := (next_mergePair_eq_none hR h hx).mp hstay
        rw [ih (connected_mergePair hR h) hstay]
        by_cases hf : EqvGen R f.e x
        · have hf' : EqvGen (WithPair R f.e d.e) f.e x := eqvGen_withPair_of_eqvGen hf
          exact iff_of_true (fun _ _ _ _ => hf') ⟨fun _ _ => hf, fun _ _ _ _ => hf⟩
        · -- two other classes are joined
          have hd : ¬ EqvGen R d.e x := fun hd => hf (hlead hd)
          have hsame (y : Int64) : EqvGen (WithPair R f.e d.e) y x ↔ EqvGen R y x :=
            eqvGen_withPair_iff_of_not hf hd
          simp only [hsame]
          exact (and_iff_right fun _ => hlead).symm
      · refine iff_of_false (next_foldl_mergePair_ne_none hstay) fun hall => ?_
        exact hstay ((next_mergePair_eq_none hR h hx).mpr (hall.1 h))
    · rw [mergePair_of_not h, ih hR hx]
      exact (and_iff_right fun hsame => absurd hsame h).symm

end Inner

/-- Entities that the log connects, or assertions of one identity value of which one is among the
first assertions already processed. -/
def Linked (log : Int64 → Int64 → Prop) (pre ds : List PendingDatom) (x y : Int64) : Prop :=
  log x y ∨ ∃ d ∈ pre, ∃ d' ∈ ds, SameIdentity d d' ∧ x = d.e ∧ y = d'.e

/-- Whenever an identity value is asserted of an entity connected with `x`, by the log and the
values first asserted before, its first assertion is of such an entity too. -/
def Leads (log : Int64 → Int64 → Prop) (ds : List PendingDatom) (x : Int64) : Prop :=
  ∀ pre f rest, ds = pre ++ f :: rest → ∀ d ∈ rest, SameIdentity f d →
    EqvGen (Linked log pre ds) d.e x → EqvGen (Linked log pre ds) f.e x

section Outer

variable {log : Int64 → Int64 → Prop} {remaps : Remaps} {pre ds rest : List PendingDatom}
  {f : PendingDatom} {x y : Int64}

theorem eqvGen_joinedAll_linked (hds : ds = pre ++ f :: rest) :
    EqvGen (JoinedAll (Linked log pre ds) f rest) x y ↔
      EqvGen (Linked log (pre ++ [f]) ds) x y := by
  constructor
  · apply eqvGen_of_imp
    rintro x y ((hlog | ⟨d, hd, d', hd', hpair⟩) | ⟨d, hd, hpair⟩)
    · exact .rel x y (.inl hlog)
    · exact .rel x y (.inr ⟨d, List.mem_append_left _ hd, d', hd', hpair⟩)
    · refine .rel x y (.inr ⟨f, List.mem_append_right _ List.mem_cons_self, d, ?_, hpair⟩)
      rw [hds]
      exact List.mem_append_right _ (List.mem_cons_of_mem f hd)
  · apply eqvGen_of_imp
    rintro x y (hlog | ⟨d, hd, d', hd', hsame, rfl, rfl⟩)
    · exact .rel x y (.inl (.inl hlog))
    · rcases List.mem_append.mp hd with hd | hd
      · exact .rel _ _ (.inl (.inr ⟨d, hd, d', hd', hsame, rfl, rfl⟩))
      · rw [List.mem_singleton.mp hd] at hsame ⊢
        rw [hds, List.mem_append, List.mem_cons] at hd'
        rcases hd' with hd' | rfl | hd'
        · refine .symm _ _ (.rel _ _ (.inl (.inr ⟨d', hd', f, ?_, hsame.symm, rfl, rfl⟩)))
          rw [hds]
          exact List.mem_append_right _ List.mem_cons_self
        · exact .refl _
        · exact .rel _ _ (.inr ⟨d', hd', hsame, rfl, rfl⟩)

theorem mergeIdentities_induction {P : Remaps → Prop}
    (hpair : ∀ m f d, P m → P (mergePair f m d)) (ds : List PendingDatom) (h : P remaps) :
    P (mergeIdentities ds remaps) := by
  induction ds generalizing remaps with
  | nil => exact h
  | cons f rest ih => exact ih (List.foldlRecOn rest _ h fun m hm d _ => hpair m f d hm)

theorem next_mergeIdentities_ne_none (hx : next remaps x ≠ none) :
    next (mergeIdentities ds remaps) x ≠ none :=
  mergeIdentities_induction (P := fun m => next m x ≠ none)
    (fun _ _ _ h => next_mergePair_ne_none h) ds hx

theorem connected_foldl_linked (hds : ds = pre ++ f :: rest)
    (hR : ∀ x y, Connected (next remaps) x y ↔ EqvGen (Linked log pre ds) x y) (x y : Int64) :
    Connected (next (rest.foldl (mergePair f) remaps)) x y ↔
      EqvGen (Linked log (pre ++ [f]) ds) x y :=
  (connected_foldl_mergePair hR x y).trans (eqvGen_joinedAll_linked hds)

theorem connected_mergeIdentities (hds : ds = pre ++ rest)
    (hR : ∀ x y, Connected (next remaps) x y ↔ EqvGen (Linked log pre ds) x y) :
    Connected (next (mergeIdentities rest remaps)) x y ↔ EqvGen (Linked log ds ds) x y := by
  induction rest generalizing pre remaps with
  | nil =>
    rw [hds, List.append_nil]
    rw [hds, List.append_nil] at hR
    exact hR x y
  | cons f rest ih => exact ih (by rw [hds]; simp) (connected_foldl_linked hds hR)

theorem next_mergeIdentities_suffix (hds : ds = pre ++ rest)
    (hR : ∀ x y, Connected (next remaps) x y ↔ EqvGen (Linked log pre ds) x y)
    (hx : next remaps x = none) : next (mergeIdentities rest remaps) x = none ↔
      ∀ mid f rest', rest = mid ++ f :: rest' → ∀ d ∈ rest', SameIdentity f d →
        EqvGen (Linked log (pre ++ mid) ds) d.e x → EqvGen (Linked log (pre ++ mid) ds) f.e x := by
  induction rest generalizing pre remaps with
  | nil =>
    refine iff_of_true hx fun mid f rest' hnil => ?_
    cases mid <;> cases hnil
  | cons f rest ih =>
    rw [mergeIdentities]
    have hds' : ds = (pre ++ [f]) ++ rest := by
      rw [hds]
      simp
    have hfirst : next (rest.foldl (mergePair f) remaps) x = none ↔ ∀ d ∈ rest,
        SameIdentity f d → EqvGen (Linked log pre ds) d.e x → EqvGen (Linked log pre ds) f.e x :=
      next_foldl_mergePair_eq_none hR hx
    by_cases hstay : next (rest.foldl (mergePair f) remaps) x = none
    · rw [ih hds' (connected_foldl_linked hds hR) hstay]
      constructor
      · intro hall mid g rest' hsplit d hd
        cases mid with
        | nil =>
          cases hsplit
          rw [List.append_nil]
          exact hfirst.mp hstay d hd
        | cons f' mid =>
          cases hsplit
          have hg := hall mid g rest' rfl d hd
          rwa [List.append_assoc, List.singleton_append] at hg
      · intro hall mid g rest' hsplit d hd
        have hg := hall (f :: mid) g rest' (by rw [hsplit, List.cons_append]) d hd
        rwa [List.append_assoc, List.singleton_append]
    · refine iff_of_false (next_mergeIdentities_ne_none hstay) fun hall => ?_
      refine hstay (hfirst.mpr fun d hd => ?_)
      have hf := hall [] f rest rfl d hd
      rwa [List.append_nil] at hf

variable (hlog : ∀ x y, Connected (next remaps) x y ↔ EqvGen log x y)

include hlog

theorem connected_iff_linked_nil (ds : List PendingDatom) (x y : Int64) :
    Connected (next remaps) x y ↔ EqvGen (Linked log [] ds) x y := by
  have hnil : Linked log [] ds = log := by
    funext x y
    simp [Linked]
  rw [hnil, hlog]

/-- An entity without a pointer in the log's remaps stays its own representative exactly if it
leads its class. -/
theorem next_mergeIdentities_eq_none (hx : next remaps x = none) :
    next (mergeIdentities ds remaps) x = none ↔ Leads log ds x :=
  next_mergeIdentities_suffix rfl (connected_iff_linked_nil hlog ds) hx

end Outer

/-- No entity points at itself. -/
def Remaps.Proper (remaps : Remaps) : Prop := ∀ x, next remaps x ≠ some x

section Apply

variable {remaps : Remaps} {x : Int64}

theorem Remaps.Proper.insert (h : Proper remaps) {k v : Int64} (hne : v ≠ k) :
    Proper (EntidMap.insert remaps k v) := by
  intro y hy
  rw [next_insert, Function.update_apply] at hy
  split at hy
  · rename_i heq
    exact hne ((Option.some.inj hy).trans heq)
  · exact h y hy

theorem Remaps.Proper.mergePair (h : Proper remaps) (f d : PendingDatom) :
    Proper (mergePair f remaps d) := by
  by_cases hsame : SameIdentity f d
  · by_cases heq : resolveRoot remaps f.e = resolveRoot remaps d.e
    · rwa [mergePair_of_eq heq]
    · rw [mergePair_of_ne hsame heq]
      exact h.insert heq
  · rwa [mergePair_of_not hsame]

theorem Remaps.Proper.mergeIdentities (h : Proper remaps) (ds : List PendingDatom) :
    Proper (mergeIdentities ds remaps) :=
  mergeIdentities_induction (fun _ f d h => h.mergePair f d) ds h

theorem next_ne_none_of_mem {k : Int64} (hk : k ∈ remaps.map Prod.fst) : next remaps k ≠ none := by
  obtain ⟨entry, hentry, rfl⟩ := List.mem_map.mp hk
  intro hnone
  have hne := List.lookup_eq_none_iff.mp hnone entry hentry
  simp at hne

def flattenKey (remaps : Remaps) (k : Int64) : Remaps :=
  if resolveRoot remaps k = k then remaps else remaps.insert k (resolveRoot remaps k)

theorem flattenRemaps_spec (h : Proper remaps) : Proper (flattenRemaps remaps) ∧
    ∀ x, next (flattenRemaps remaps) x = none ↔ next remaps x = none := by
  refine List.foldlRecOn (motive := fun m => Proper m ∧ ∀ x, next m x = none ↔ next remaps x = none)
    _ flattenKey ⟨h, fun _ => Iff.rfl⟩ fun m hm k hk => ?_
  unfold flattenKey
  split
  · exact hm
  · rename_i hroot
    refine ⟨hm.1.insert hroot, fun x => ?_⟩
    rw [next_insert, Function.update_apply]
    split
    · rename_i hx
      rw [hx]
      exact iff_of_false (Option.some_ne_none _) (next_ne_none_of_mem hk)
    · exact hm.2 x

theorem applyRemap_eq_self_iff (h : Proper remaps) :
    applyRemap remaps x = x ↔ next remaps x = none := by
  rw [applyRemap, ← next]
  cases hx : next remaps x with
  | none => simp
  | some y =>
    have hne : y ≠ x := fun heq => h x (heq ▸ hx)
    simp [hne]

end Apply

/-- The first pointers: an identity value asserted of `x` for which a scan of the log finds another
entity `y`. -/
def LogLink (c : SchemaCache) (scan : ScanOrder) (db : Db) (pending : List PendingDatom)
    (x y : Int64) : Prop :=
  ∃ d ∈ pending, isIdentityAssertion c d = true ∧ d.e = x ∧
    firstHolder scan db d.a d.v = some y ∧ y ≠ x

section Log

variable {c : SchemaCache} {b : Backend} {db : Db}

theorem resolveAgainstLog_ensures {done : List PendingDatom} {remaps : Remaps} {d : PendingDatom}
    (h : ∀ x y, next remaps x = some y ↔ LogLink c b.scan db done x y) :
    server.Ensures (resolveAgainstLog c remaps d) b db fun remaps' b' db' => b' = b ∧ db' = db ∧
      ∀ x y, next remaps' x = some y ↔ LogLink c b.scan db (done ++ [d]) x y := by
  -- what the new assertion adds
  have hlink (x y : Int64) : LogLink c b.scan db (done ++ [d]) x y ↔
      LogLink c b.scan db done x y ∨ (isIdentityAssertion c d = true ∧ d.e = x ∧
        firstHolder b.scan db d.a d.v = some y ∧ y ≠ x) := by
    simp only [LogLink, List.mem_append, List.mem_singleton, or_and_right, exists_or,
      exists_eq_left]
  have hsame (hnone : ∀ x y, ¬ (isIdentityAssertion c d = true ∧ d.e = x ∧
      firstHolder b.scan db d.a d.v = some y ∧ y ≠ x)) :
      ∀ x y, next remaps x = some y ↔ LogLink c b.scan db (done ++ [d]) x y := by
    intro x y
    rw [hlink, h, or_iff_left (hnone x y)]
  unfold resolveAgainstLog
  split
  · rename_i hidentity
    rw [ensures_bind]
    refine (checkUniqueTypedValue_ensures d.a d.v b db).mono fun holder b1 db1 h1 => ?_
    obtain ⟨rfl, rfl, rfl⟩ := h1
    cases hholder : firstHolder b1.scan db1 d.a d.v with
    | none =>
      refine (ensures_ret _).mpr ⟨rfl, rfl, hsame ?_⟩
      rintro x y ⟨-, -, hsome, -⟩
      cases hholder.symm.trans hsome
    | some existing =>
      dsimp only
      split
      · rename_i heq
        refine (ensures_ret _).mpr ⟨rfl, rfl, hsame ?_⟩
        rintro x y ⟨-, rfl, hsome, hne⟩
        cases hholder.symm.trans hsome
        exact hne heq
      · rename_i hne
        have hnew (x y : Int64) : (isIdentityAssertion c d = true ∧ d.e = x ∧
            firstHolder b1.scan db1 d.a d.v = some y ∧ y ≠ x) ↔ x = d.e ∧ y = existing := by
          constructor
          · rintro ⟨-, rfl, hsome, -⟩
            cases hholder.symm.trans hsome
            exact ⟨rfl, rfl⟩
          · rintro ⟨rfl, rfl⟩
            exact ⟨hidentity, rfl, hholder, hne⟩
        split
        · rename_i hlookup
          refine (ensures_ret _).mpr ⟨rfl, rfl, fun x y => ?_⟩
          rw [next_insert, Function.update_apply, hlink, hnew, ← h]
          have hfree : next remaps d.e = none := hlookup
          by_cases hx : x = d.e
          · rw [if_pos hx, hx, hfree]
            simp [eq_comm]
          · rw [if_neg hx]
            simp [hx]
        · rename_i prev hlookup
          split
          · rename_i heq
            have hprev : next remaps d.e = some existing := heq ▸ hlookup
            refine (ensures_ret _).mpr ⟨rfl, rfl, fun x y => ?_⟩
            rw [hlink, hnew, ← h]
            constructor
            · exact .inl
            · rintro (hxy | ⟨rfl, rfl⟩)
              · exact hxy
              · exact hprev
          · exact ensures_fail _
  · rename_i hidentity
    refine (ensures_ret _).mpr ⟨rfl, rfl, hsame ?_⟩
    rintro x y ⟨htrue, -⟩
    exact hidentity htrue

theorem foldlM_resolveAgainstLog_ensures (pending : List PendingDatom) :
    server.Ensures (pending.foldlM (resolveAgainstLog c) []) b db fun remaps b' db' =>
      b' = b ∧ db' = db ∧ ∀ x y, next remaps x = some y ↔ LogLink c b.scan db pending x y := by
  refine ensures_foldlM (fun done remaps b' db' => b' = b ∧ db' = db ∧
    ∀ x y, next remaps x = some y ↔ LogLink c b.scan db done x y) ⟨rfl, rfl, ?_⟩ ?_
  · intro x y
    refine iff_of_false (fun h => by cases h) ?_
    rintro ⟨d, hd, -⟩
    exact nomatch hd
  · intro done d rest remaps b1 db1 _ hI
    obtain ⟨rfl, rfl, h⟩ := hI
    exact resolveAgainstLog_ensures h

end Log

def upsertRemaps (c : SchemaCache) (pending : List PendingDatom) : Tx Remaps := do
  let fromLog ← pending.foldlM (resolveAgainstLog c) []
  return flattenRemaps (mergeIdentities (pending.filter (isIdentityAssertion c)) fromLog)

def applyRemaps (st : ExpandState) (remaps : Remaps) : ExpandState :=
  if remaps = [] then st
  else {
    tempids := st.tempids.map fun entry => (entry.1, applyRemap remaps entry.2)
    pending := dedupAssertions [] (st.pending.map (remapDatom remaps)) }

theorem resolveUpserts_run (c : SchemaCache) (st : ExpandState) (b : Backend) (db : Db) :
    server.run (resolveUpserts c st) b db =
      match server.run (upsertRemaps c st.pending) b db with
      | .ok (remaps, b', db') => .ok (applyRemaps st remaps, b', db')
      | .error e => .error e := by
  unfold resolveUpserts upsertRemaps
  rw [run_bind, run_bind]
  cases server.run (st.pending.foldlM (resolveAgainstLog c) []) b db with
  | error e => rfl
  | ok out =>
    simp only [pure_eq_ret, Server.run]
    unfold applyRemaps
    by_cases hempty : flattenRemaps (mergeIdentities
        (st.pending.filter (isIdentityAssertion c)) out.1) = []
    · rw [if_pos hempty, if_pos hempty]
      rfl
    · rw [if_neg hempty, if_neg hempty]
      rfl

/-- The entity is asserted no identity value that the log has for another one, and it leads its
class. -/
structure KeepsPlace (c : SchemaCache) (scan : ScanOrder) (db : Db) (pending : List PendingDatom)
    (x : Int64) : Prop where
  log : ∀ y, ¬ LogLink c scan db pending x y
  leads : Leads (LogLink c scan db pending) (pending.filter (isIdentityAssertion c)) x

theorem proper_connected_of_logLink {c : SchemaCache} {scan : ScanOrder} {db : Db}
    {pending : List PendingDatom} {remaps : Remaps}
    (h : ∀ x y, next remaps x = some y ↔ LogLink c scan db pending x y) : Proper remaps ∧
      ∀ x y, Connected (next remaps) x y ↔ EqvGen (LogLink c scan db pending) x y := by
  have hrel : (fun x y => next remaps x = some y) = LogLink c scan db pending := by
    funext x y
    exact propext (h x y)
  refine ⟨fun y hy => ?_, fun x y => by rw [Connected, hrel]⟩
  obtain ⟨-, -, -, -, -, hne⟩ := (h y y).mp hy
  exact hne rfl

theorem upsertRemaps_ensures (c : SchemaCache) (pending : List PendingDatom) (b : Backend)
    (db : Db) : server.Ensures (upsertRemaps c pending) b db fun remaps b' db' =>
      b' = b ∧ db' = db ∧ ∀ x, applyRemap remaps x = x ↔ KeepsPlace c b.scan db pending x := by
  unfold upsertRemaps
  rw [ensures_bind]
  refine (foldlM_resolveAgainstLog_ensures pending).mono fun fromLog b1 db1 h => ?_
  obtain ⟨rfl, rfl, hlog⟩ := h
  refine (ensures_ret _).mpr ⟨rfl, rfl, fun x => ?_⟩
  obtain ⟨hproper, hclasses⟩ := proper_connected_of_logLink hlog
  obtain ⟨hflat, hkeys⟩ := flattenRemaps_spec
    (hproper.mergeIdentities (pending.filter (isIdentityAssertion c)))
  rw [applyRemap_eq_self_iff hflat, hkeys]
  have hfree : next fromLog x = none ↔ ∀ y, ¬ LogLink c b1.scan db1 pending x y := by
    rw [Option.eq_none_iff_forall_ne_some]
    exact forall_congr' fun y => not_congr (hlog x y)
  by_cases hx : next fromLog x = none
  · rw [next_mergeIdentities_eq_none hclasses hx]
    exact ⟨fun hleads => ⟨hfree.mp hx, hleads⟩, fun hkeeps => hkeeps.leads⟩
  · refine iff_of_false (next_mergeIdentities_ne_none hx) fun hkeeps => ?_
    exact hx (hfree.mpr hkeeps.log)

end PgMentat

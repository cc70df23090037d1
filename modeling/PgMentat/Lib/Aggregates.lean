import Mathlib.Algebra.BigOperators.Finprod
import Mathlib.Data.Set.Card
import Mathlib.Data.Set.Finite.Lemmas

namespace Aggregates

open List

variable {ι : Type}

inductive AggregateFn where
  | count | sum | min | max
  deriving DecidableEq, Repr

def values (T : Set (ι × ℤ)) : Set ℤ := {n | ∃ i, (i, n) ∈ T}

/-- `r` is the aggregate of the family: `count` is that of the different integers, and the other
three have none on the empty family. -/
def AggregateFn.Of (f : AggregateFn) (T : Set (ι × ℤ)) (r : Option ℤ) : Prop :=
  match f with
  | count => r = some ((values T).ncard : ℤ)
  | sum => (T = ∅ ∧ r = none) ∨ (T.Nonempty ∧ r = some (∑ᶠ p ∈ T, p.2))
  | min => (T = ∅ ∧ r = none) ∨ ∃ n, IsLeast (values T) n ∧ r = some n
  | max => (T = ∅ ∧ r = none) ∨ ∃ n, IsGreatest (values T) n ∧ r = some n

def AggregateFn.eval (f : AggregateFn) (ns : List ℤ) : Option ℤ :=
  match f with
  | count => some (ns.dedup.length : ℤ)
  | sum => if ns = [] then none else some ns.sum
  | min => ns.min?
  | max => ns.max?

/-- The family that a list of indices enumerates; an index without a value is left out. -/
def family (l : List ι) (val : ι → Option ℤ) : Set (ι × ℤ) := {p | p.1 ∈ l ∧ val p.1 = some p.2}

section Family

variable {l : List ι} {val : ι → Option ℤ} {f : AggregateFn} {r : Option ℤ}

theorem mem_values_family {n : ℤ} : n ∈ values (family l val) ↔ n ∈ l.filterMap val := by
  rw [mem_filterMap]
  exact Iff.rfl

theorem family_eq_empty : family l val = ∅ ↔ l.filterMap val = [] := by
  rw [filterMap_eq_nil_iff, Set.eq_empty_iff_forall_notMem]
  constructor
  · intro h i hi
    cases hval : val i with
    | none => rfl
    | some n => exact absurd ⟨hi, hval⟩ (h (i, n))
  · rintro h ⟨i, n⟩ ⟨hi, hval⟩
    cases (h i hi).symm.trans hval

theorem ncard_values_family :
    (values (family l val)).ncard = (l.filterMap val).dedup.length := by
  have hvalues : values (family l val) = ((l.filterMap val).toFinset : Set ℤ) := by
    ext n
    rw [mem_values_family, Finset.mem_coe, mem_toFinset]
  rw [hvalues, Set.ncard_coe_finset, card_toFinset]

theorem family_cons_none {i : ι} (h : val i = none) : family (i :: l) val = family l val := by
  ext ⟨j, n⟩
  refine and_congr_left fun hj => ?_
  rw [mem_cons]
  refine or_iff_right ?_
  rintro rfl
  cases h.symm.trans hj

theorem family_cons_some {i : ι} {n : ℤ} (h : val i = some n) :
    family (i :: l) val = insert (i, n) (family l val) := by
  ext ⟨j, m⟩
  rw [Set.mem_insert_iff, Prod.mk.injEq]
  show j ∈ i :: l ∧ val j = some m ↔ _ ∨ j ∈ l ∧ val j = some m
  rw [mem_cons, or_and_right]
  refine or_congr_left (and_congr_right ?_)
  rintro rfl
  rw [h, Option.some.injEq, eq_comm]

theorem finite_family : (family l val).Finite := by
  induction l with
  | nil => exact Set.Finite.subset Set.finite_empty fun p hp => absurd hp.1 not_mem_nil
  | cons i l ih =>
    cases h : val i with
    | none => rwa [family_cons_none h]
    | some n =>
      rw [family_cons_some h]
      exact ih.insert _

theorem finsum_family (hnodup : l.Nodup) :
    ∑ᶠ p ∈ family l val, p.2 = (l.filterMap val).sum := by
  induction l with
  | nil =>
    have hempty : family ([] : List ι) val = ∅ := family_eq_empty.mpr rfl
    rw [hempty, finsum_mem_empty]
    rfl
  | cons i l ih =>
    obtain ⟨hi, hnodup⟩ := nodup_cons.mp hnodup
    cases h : val i with
    | none => rw [family_cons_none h, filterMap_cons_none h, ih hnodup]
    | some n =>
      have hnew : (i, n) ∉ family l val := fun hp => hi hp.1
      rw [family_cons_some h, finsum_mem_insert _ hnew finite_family, ih hnodup,
        filterMap_cons_some h, sum_cons]

theorem isLeast_family {n : ℤ} :
    IsLeast (values (family l val)) n ↔ (l.filterMap val).min? = some n := by
  rw [List.min?_eq_some_iff, IsLeast, mem_values_family]
  refine and_congr_right fun _ => ⟨fun h m hm => ?_, fun h m hm => ?_⟩
  · exact h (mem_values_family.mpr hm)
  · exact h m (mem_values_family.mp hm)

theorem isGreatest_family {n : ℤ} :
    IsGreatest (values (family l val)) n ↔ (l.filterMap val).max? = some n := by
  rw [List.max?_eq_some_iff, IsGreatest, mem_values_family]
  refine and_congr_right fun _ => ⟨fun h m hm => ?_, fun h m hm => ?_⟩
  · exact h (mem_values_family.mpr hm)
  · exact h m (mem_values_family.mp hm)

theorem AggregateFn.of_family (hnodup : l.Nodup) :
    f.Of (family l val) r ↔ r = f.eval (l.filterMap val) := by
  cases f with
  | count =>
    rw [AggregateFn.Of, ncard_values_family]
    exact Iff.rfl
  | sum =>
    show _ ∨ _ ↔ r = if _ then _ else _
    rw [finsum_family hnodup, Set.nonempty_iff_ne_empty, ne_eq, family_eq_empty]
    split <;> simp [*]
  | min =>
    show _ ∨ _ ↔ r = (l.filterMap val).min?
    simp only [isLeast_family, family_eq_empty, ← List.min?_eq_none_iff]
    cases (l.filterMap val).min? <;> simp [eq_comm]
  | max =>
    show _ ∨ _ ↔ r = (l.filterMap val).max?
    simp only [isGreatest_family, family_eq_empty, ← List.max?_eq_none_iff]
    cases (l.filterMap val).max? <;> simp [eq_comm]

end Family

section Congr

variable {κ : Type} {T : Set (ι × ℤ)} {T' : Set (κ × ℤ)} {f : AggregateFn} {r : Option ℤ}

/-- As `Of`, except that `count` is that of the indices. -/
def AggregateFn.OverIndices (f : AggregateFn) (T : Set (ι × ℤ)) (r : Option ℤ) : Prop :=
  match f with
  | count => r = some (T.ncard : ℤ)
  | f => f.Of T r

theorem values_eq_empty : values T = ∅ ↔ T = ∅ := by
  constructor
  · intro h
    apply Set.eq_empty_of_forall_notMem
    intro p hp
    exact Set.notMem_empty p.2 (h ▸ ⟨p.1, hp⟩)
  · intro h
    apply Set.eq_empty_of_forall_notMem
    intro n hn
    obtain ⟨i, hi⟩ := hn
    exact Set.notMem_empty (i, n) (h ▸ hi)

theorem AggregateFn.of_congr_values (hf : f ≠ .sum) (h : values T = values T') :
    f.Of T r ↔ f.Of T' r := by
  have hempty : T = ∅ ↔ T' = ∅ := by rw [← values_eq_empty, h, values_eq_empty]
  cases f with
  | count => simp only [AggregateFn.Of, h]
  | sum => exact absurd rfl hf
  | min | max => simp only [AggregateFn.Of, h, hempty]

theorem AggregateFn.Of.unique {r' : Option ℤ} (h : f.Of T r) (h' : f.Of T r') : r = r' := by
  have hmem {n : ℤ} (hn : n ∈ values T) : T ≠ ∅ := by
    obtain ⟨i, hi⟩ := hn
    exact Set.nonempty_iff_ne_empty.mp ⟨_, hi⟩
  cases f with
  | count => exact Eq.trans h (Eq.symm h')
  | sum =>
    rcases h with ⟨h0, rfl⟩ | ⟨hne, rfl⟩ <;> rcases h' with ⟨h0', rfl⟩ | ⟨hne', rfl⟩
    · rfl
    · exact absurd h0 (Set.nonempty_iff_ne_empty.mp hne')
    · exact absurd h0' (Set.nonempty_iff_ne_empty.mp hne)
    · rfl
  | min =>
    rcases h with ⟨h0, rfl⟩ | ⟨n, hn, rfl⟩ <;> rcases h' with ⟨h0', rfl⟩ | ⟨n', hn', rfl⟩
    · rfl
    · exact absurd h0 (hmem hn'.1)
    · exact absurd h0' (hmem hn.1)
    · rw [hn.unique hn']
  | max =>
    rcases h with ⟨h0, rfl⟩ | ⟨n, hn, rfl⟩ <;> rcases h' with ⟨h0', rfl⟩ | ⟨n', hn', rfl⟩
    · rfl
    · exact absurd h0 (hmem hn'.1)
    · exact absurd h0' (hmem hn.1)
    · rw [hn.unique hn']

theorem AggregateFn.Of.of_none (h : f.Of T none) : f ≠ .count ∧ T = ∅ := by
  cases f with
  | count => cases h
  | sum =>
    rcases h with ⟨hempty, -⟩ | ⟨-, h⟩
    · exact ⟨nofun, hempty⟩
    · cases h
  | min | max =>
    rcases h with ⟨hempty, -⟩ | ⟨n, -, h⟩
    · exact ⟨nofun, hempty⟩
    · cases h

theorem AggregateFn.of_empty (hf : f ≠ .count) : f.Of (∅ : Set (ι × ℤ)) none := by
  cases f with
  | count => exact absurd rfl hf
  | sum | min | max => exact .inl ⟨rfl, rfl⟩

theorem AggregateFn.exists_of (h : (values T).Finite) : ∃ r, f.Of T r := by
  by_cases hempty : T = ∅
  · cases f with
    | count => exact ⟨_, rfl⟩
    | sum | min | max => exact ⟨none, .inl ⟨hempty, rfl⟩⟩
  · have hne := Set.nonempty_iff_ne_empty.mpr (mt values_eq_empty.mp hempty)
    cases f with
    | count => exact ⟨_, rfl⟩
    | sum => exact ⟨_, .inr ⟨Set.nonempty_iff_ne_empty.mpr hempty, rfl⟩⟩
    | min =>
      obtain ⟨n, hn, hle⟩ := Set.exists_min_image _ id h hne
      exact ⟨some n, .inr ⟨n, ⟨hn, hle⟩, rfl⟩⟩
    | max =>
      obtain ⟨n, hn, hle⟩ := Set.exists_max_image _ id h hne
      exact ⟨some n, .inr ⟨n, ⟨hn, hle⟩, rfl⟩⟩

/-- What the aggregate takes from the integers `V` is in `V'`. -/
def AggregateFn.Takes (f : AggregateFn) (V V' : Set ℤ) : Prop :=
  match f with
  | count | sum => V ⊆ V'
  | min => ∀ n, IsLeast V n → n ∈ V'
  | max => ∀ n, IsGreatest V n → n ∈ V'

/-- Part of a family has its aggregate exactly if it has what the aggregate takes. -/
theorem AggregateFn.of_iff_takes (hf : f ≠ .sum) (hsubset : values T' ⊆ values T)
    (hfinite : (values T).Finite) (h : f.Of T r) :
    f.Of T' r ↔ f.Takes (values T) (values T') := by
  have hempty (hT : T = ∅) : T' = ∅ := by
    rw [← values_eq_empty, ← Set.subset_empty_iff, ← values_eq_empty.mpr hT]
    exact hsubset
  have hmem {n : ℤ} (hn : n ∈ values T) : T ≠ ∅ := by
    obtain ⟨i, hi⟩ := hn
    exact Set.nonempty_iff_ne_empty.mp ⟨_, hi⟩
  cases f with
  | count =>
    cases h
    constructor
    · intro h'
      refine (Set.eq_of_subset_of_ncard_le hsubset ?_ hfinite).ge
      exact_mod_cast (Option.some.inj h').le
    · intro h'
      rw [AggregateFn.Of, hsubset.antisymm h']
  | sum => exact absurd rfl hf
  | min =>
    rcases h with ⟨hT, rfl⟩ | ⟨n, hn, rfl⟩
    · exact ⟨fun _ m hm => absurd hT (hmem hm.1), fun _ => .inl ⟨hempty hT, rfl⟩⟩
    · constructor
      · rintro (⟨-, h'⟩ | ⟨m, hm, h'⟩) k hk
        · cases h'
        · cases h'
          rw [hk.unique hn]
          exact hm.1
      · exact fun h' => .inr ⟨n, ⟨h' n hn, fun m hm => hn.2 (hsubset hm)⟩, rfl⟩
  | max =>
    rcases h with ⟨hT, rfl⟩ | ⟨n, hn, rfl⟩
    · exact ⟨fun _ m hm => absurd hT (hmem hm.1), fun _ => .inl ⟨hempty hT, rfl⟩⟩
    · constructor
      · rintro (⟨-, h'⟩ | ⟨m, hm, h'⟩) k hk
        · cases h'
        · cases h'
          rw [hk.unique hn]
          exact hm.1
      · exact fun h' => .inr ⟨n, ⟨h' n hn, fun m hm => hn.2 (hsubset hm)⟩, rfl⟩

theorem AggregateFn.overIndices_iff (hf : f ≠ .count) : f.OverIndices T r ↔ f.Of T r := by
  cases f with
  | count => exact absurd rfl hf
  | _ => exact Iff.rfl

theorem AggregateFn.OverIndices.unique {r' : Option ℤ} (h : f.OverIndices T r)
    (h' : f.OverIndices T r') : r = r' := by
  by_cases hf : f = .count
  · subst hf
    exact Eq.trans h (Eq.symm h')
  · exact ((AggregateFn.overIndices_iff hf).mp h).unique ((AggregateFn.overIndices_iff hf).mp h')

theorem values_eq_image : values T = Prod.snd '' T := by
  ext n
  constructor
  · rintro ⟨i, hi⟩
    exact ⟨(i, n), hi, rfl⟩
  · rintro ⟨⟨i, m⟩, hi, rfl⟩
    exact ⟨i, hi⟩

/-- There are as many indices as integers exactly if no two indices have the same integer. -/
theorem ncard_eq_ncard_values (hT : T.Finite) :
    T.ncard = (values T).ncard ↔ ∀ p ∈ T, ∀ p' ∈ T, p.2 = p'.2 → p = p' := by
  rw [values_eq_image, eq_comm, Set.ncard_image_iff hT]
  exact ⟨fun h p hp p' hp' => h hp hp', fun h p hp p' hp' => h p hp p' hp'⟩

/-- Part of a family of positive integers has a smaller sum. -/
theorem AggregateFn.surjOn_of_sum {g : ι × ℤ → κ × ℤ} (hfinite : T'.Finite)
    (hmaps : Set.MapsTo g T T') (hinj : Set.InjOn g T) (hvalue : ∀ p ∈ T, (g p).2 = p.2)
    (hpos : ∀ p ∈ T', 0 < p.2) (h : sum.Of T r) (h' : sum.Of T' r) : Set.SurjOn g T T' := by
  rcases h with ⟨-, rfl⟩ | ⟨hne, rfl⟩
  · rcases h' with ⟨rfl, -⟩ | ⟨-, hr⟩
    · exact Set.surjOn_empty g T
    · cases hr
  · rcases h' with ⟨-, hr⟩ | ⟨-, hsum⟩
    · cases hr
    · have himage : g '' T ⊆ T' := hmaps.image_subset
      have hcongr : ∑ᶠ p ∈ T, p.2 = ∑ᶠ p ∈ g '' T, p.2 := by
        rw [finsum_mem_image hinj]
        exact finsum_mem_congr rfl fun p hp => (hvalue p hp).symm
      rw [Option.some.injEq, hcongr,
        finsum_mem_eq_finite_toFinset_sum _ (hfinite.subset himage),
        finsum_mem_eq_finite_toFinset_sum _ hfinite] at hsum
      intro p hp
      by_contra hout
      refine hsum.not_lt (Finset.sum_lt_sum_of_subset ?_ (hfinite.mem_toFinset.mpr hp) ?_
        (hpos p hp) fun p' hp' _ => (hpos p' (hfinite.mem_toFinset.mp hp')).le)
      · exact Set.Finite.toFinset_subset_toFinset.mpr himage
      · exact fun hmem => hout ((Set.Finite.mem_toFinset _).mp hmem)

theorem AggregateFn.sum_of_bijOn {g : ι × ℤ → κ × ℤ} (hg : Set.BijOn g T T')
    (hvalue : ∀ p ∈ T, (g p).2 = p.2) : sum.Of T r ↔ sum.Of T' r := by
  have hempty : T = ∅ ↔ T' = ∅ := by
    rw [← hg.image_eq, Set.image_eq_empty]
  have hsum : ∑ᶠ p ∈ T, p.2 = ∑ᶠ p ∈ T', p.2 :=
    finsum_mem_eq_of_bijOn g hg fun p hp => (hvalue p hp).symm
  simp only [AggregateFn.Of, hsum, hempty, Set.nonempty_iff_ne_empty, ne_eq]

end Congr

end Aggregates

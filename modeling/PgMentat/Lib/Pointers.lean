import Mathlib.Data.Finset.Card

namespace Pointers

open Relation

variable {α : Type}

/-- Where the pointer of an element leads; an element without one stays. -/
def step (next : α → Option α) (x : α) : α := (next x).getD x

def Connected (next : α → Option α) : α → α → Prop := EqvGen fun x y => next x = some y

/-- There are at most `n` pointers. -/
def Bounded (next : α → Option α) (n : Nat) : Prop :=
  ∃ keys : List α, keys.length ≤ n ∧ ∀ x, next x ≠ none → x ∈ keys

section Generated

variable {R S : α → α → Prop} {x y i j : α}

theorem eqvGen_of_imp (h : ∀ x y, R x y → EqvGen S x y) (hxy : EqvGen R x y) : EqvGen S x y := by
  induction hxy with
  | rel x y hxy => exact h x y hxy
  | refl x => exact .refl x
  | symm x y _ ih => exact .symm x y ih
  | trans x y z _ _ ih ih' => exact .trans x y z ih ih'

theorem eqvGen_congr {P : α → Prop} (h : ∀ x y, R x y → (P x ↔ P y)) (hxy : EqvGen R x y) :
    P x ↔ P y := by
  induction hxy with
  | rel x y hxy => exact h x y hxy
  | refl x => exact Iff.rfl
  | symm x y _ ih => exact ih.symm
  | trans x y z _ _ ih ih' => exact ih.trans ih'

def WithPair (R : α → α → Prop) (i j : α) (x y : α) : Prop := R x y ∨ (x = i ∧ y = j)

theorem eqvGen_withPair_of_eqvGen (h : EqvGen R x y) : EqvGen (WithPair R i j) x y := by
  apply eqvGen_of_imp _ h
  intro x y hxy
  exact .rel x y (.inl hxy)

theorem eqvGen_withPair_self : EqvGen (WithPair R i j) i j := .rel i j (.inr ⟨rfl, rfl⟩)

theorem eqvGen_withPair_iff_of_eqvGen (h : EqvGen R i j) :
    EqvGen (WithPair R i j) x y ↔ EqvGen R x y := by
  refine ⟨eqvGen_of_imp ?_, eqvGen_withPair_of_eqvGen⟩
  rintro x y (hxy | ⟨rfl, rfl⟩)
  · exact .rel x y hxy
  · exact h

theorem eqvGen_withPair_iff_of_not (hi : ¬ EqvGen R i y) (hj : ¬ EqvGen R j y) :
    EqvGen (WithPair R i j) x y ↔ EqvGen R x y := by
  refine ⟨fun h => ?_, eqvGen_withPair_of_eqvGen⟩
  -- membership in the class of `y` is kept along every pair
  refine (eqvGen_congr (P := (EqvGen R · y)) (fun u w hpair => ?_) h).mpr (.refl y)
  rcases hpair with hpair | ⟨rfl, rfl⟩
  · have huw : EqvGen R u w := .rel u w hpair
    exact ⟨fun h => (huw.symm).trans _ _ _ h, fun h => huw.trans _ _ _ h⟩
  · exact iff_of_false hi hj

end Generated

section Follow

variable {next : α → Option α} {n m : Nat} {x y r : α}

theorem step_of_none (h : next x = none) : step next x = x := by
  rw [step, h, Option.getD_none]

theorem step_of_some (h : next x = some y) : step next x = y := by
  rw [step, h, Option.getD_some]

theorem connected_step (next : α → Option α) (x : α) : Connected next x (step next x) := by
  cases h : next x with
  | none =>
    rw [step_of_none h]
    exact .refl x
  | some y =>
    rw [step_of_some h]
    exact .rel x y h

theorem connected_iterate (next : α → Option α) (n : Nat) (x : α) :
    Connected next x ((step next)^[n] x) := by
  induction n generalizing x with
  | zero => exact .refl x
  | succ n ih =>
    rw [Function.iterate_succ_apply]
    exact .trans _ _ _ (connected_step next x) (ih (step next x))

theorem exists_iterate_of_connected (hr : next r = none) (h : Connected next x r) :
    ∃ k, (step next)^[k] x = r := by
  refine (eqvGen_congr (P := fun u => ∃ k, (step next)^[k] u = r) (fun u w hpair => ?_) h).mpr
    ⟨0, rfl⟩
  constructor
  · rintro ⟨k, hk⟩
    cases k with
    | zero =>
      have hu : u = r := hk
      rw [hu, hr] at hpair
      cases hpair
    | succ k =>
      rw [Function.iterate_succ_apply, step_of_some hpair] at hk
      exact ⟨k, hk⟩
  · rintro ⟨k, hk⟩
    refine ⟨k + 1, ?_⟩
    rw [Function.iterate_succ_apply, step_of_some hpair, hk]

theorem eq_of_connected {s : α} (hr : next r = none) (hs : next s = none)
    (h : Connected next r s) : r = s := by
  obtain ⟨n, hn⟩ := exists_iterate_of_connected hs h
  rwa [Function.iterate_fixed (step_of_none hr)] at hn

theorem exists_period (h : Bounded next n) (hm : n ≤ m) (x : α) :
    ∃ p, 0 < p ∧ (step next)^[p] ((step next)^[m] x) = (step next)^[m] x := by
  classical
  obtain ⟨keys, hlength, hkeys⟩ := h
  by_cases hall : ∀ i ≤ m, next ((step next)^[i] x) ≠ none
  · -- more elements with a pointer have been met than there are
    have hcard : keys.toFinset.card < (Finset.range (m + 1)).card := by
      rw [Finset.card_range]
      have hle := List.toFinset_card_le keys
      omega
    have hmaps : ∀ i ∈ Finset.range (m + 1), (step next)^[i] x ∈ keys.toFinset := by
      intro i hi
      rw [List.mem_toFinset]
      exact hkeys _ (hall i (Nat.lt_succ_iff.mp (Finset.mem_range.mp hi)))
    have hrepeat : ∃ i j, i < j ∧ j ≤ m ∧ (step next)^[i] x = (step next)^[j] x := by
      obtain ⟨i, hi, j, hj, hne, heq⟩ :=
        Finset.exists_ne_map_eq_of_card_lt_of_maps_to hcard hmaps
      rw [Finset.mem_range] at hi hj
      rcases Nat.lt_or_gt_of_ne hne with hlt | hlt
      · exact ⟨i, j, hlt, by omega, heq⟩
      · exact ⟨j, i, hlt, by omega, heq.symm⟩
    obtain ⟨i, j, hij, hjm, heq⟩ := hrepeat
    refine ⟨j - i, by omega, ?_⟩
    have hj : (j - i) + m = (m - i) + j := by omega
    have hi : m = (m - i) + i := by omega
    rw [← Function.iterate_add_apply, hj, Function.iterate_add_apply, ← heq,
      ← Function.iterate_add_apply, ← hi]
  · push Not at hall
    obtain ⟨i, him, hnone⟩ := hall
    have hfixed := step_of_none hnone
    have hm : m = (m - i) + i := by omega
    refine ⟨1, Nat.one_pos, ?_⟩
    rw [hm, Function.iterate_add_apply, Function.iterate_fixed hfixed, Function.iterate_one, hfixed]

theorem iterate_eq_iff_connected (h : Bounded next n) (hm : n ≤ m) (hr : next r = none) :
    (step next)^[m] x = r ↔ Connected next x r := by
  constructor
  · intro heq
    exact heq ▸ connected_iterate next m x
  · intro hconnected
    obtain ⟨p, hp, hperiod⟩ := exists_period h hm x
    have hclass : Connected next ((step next)^[m] x) r :=
      .trans _ _ _ (.symm _ _ (connected_iterate next m x)) hconnected
    obtain ⟨k, hk⟩ := exists_iterate_of_connected hr hclass
    generalize (step next)^[m] x = z at hperiod hk
    -- going round `k` times leads past the end and back
    have hround : (step next)^[p * k] z = z := by
      rw [Function.iterate_mul]
      exact Function.iterate_fixed hperiod k
    have hsplit : p * k = (p * k - k) + k := by
      have hle : k ≤ p * k := Nat.le_mul_of_pos_left k hp
      omega
    rw [hsplit, Function.iterate_add_apply, hk,
      Function.iterate_fixed (step_of_none hr)] at hround
    exact hround.symm

end Follow

section Redirect

variable [DecidableEq α] {next : α → Option α} {n m : Nat} {R : α → α → Prop} {i j k v x y r : α}

theorem connected_update_of_period {p : Nat} (hp : 0 < p) (hk : (step next)^[p] k = k) :
    Connected (Function.update next k (some v)) (step next k) k := by
  have hwalk : ∀ q, Connected (Function.update next k (some v)) (step next k) k ∨
      Connected (Function.update next k (some v)) (step next k) ((step next)^[q + 1] k) := by
    intro q
    induction q with
    | zero => exact .inr (.refl _)
    | succ q ih =>
      rcases ih with ih | ih
      · exact .inl ih
      · by_cases hback : (step next)^[q + 1] k = k
        · rw [hback] at ih
          exact .inl ih
        · refine .inr (.trans _ _ _ ih ?_)
          have hstep := connected_step (Function.update next k (some v)) ((step next)^[q + 1] k)
          rw [step, Function.update_of_ne hback] at hstep
          have hsucc : (step next)^[q + 1 + 1] k = step next ((step next)^[q + 1] k) :=
            Function.iterate_succ_apply' _ _ _
          rw [hsucc]
          exact hstep
  rcases hwalk (p - 1) with h | h
  · exact h
  · rwa [Nat.sub_add_cancel hp, hk] at h

/-- Redirecting the pointer of the element at the end of `j` joins the class of `j` to that of
`v`, and nothing is lost. -/
theorem connected_update_iff (hR : ∀ x y, Connected next x y ↔ EqvGen R x y)
    (h : Bounded next n) (hm : n ≤ m) (hv : Connected next i v) :
    Connected (Function.update next ((step next)^[m] j) (some v)) x y ↔
      EqvGen (WithPair R i j) x y := by
  obtain ⟨p, hp, hperiod⟩ := exists_period h hm j
  have hj : Connected next j ((step next)^[m] j) := connected_iterate next m j
  generalize (step next)^[m] j = k at hperiod hj
  have hpointer : Connected (Function.update next k (some v)) k v :=
    .rel k v (Function.update_self k (some v) next)
  have hkept : ∀ x y, Connected next x y → Connected (Function.update next k (some v)) x y := by
    intro x y hxy
    apply eqvGen_of_imp _ hxy
    intro x y hedge
    by_cases hx : x = k
    · have hcycle : Connected (Function.update next k (some v)) (step next k) k :=
        connected_update_of_period hp hperiod
      rw [← hx, step_of_some hedge, hx] at hcycle
      rw [hx]
      exact .symm _ _ hcycle
    · refine .rel x y ?_
      rw [Function.update_of_ne hx]
      exact hedge
  constructor
  · apply eqvGen_of_imp
    intro x y hedge
    by_cases hx : x = k
    · rw [hx, Function.update_self] at hedge
      cases hedge
      rw [hx]
      have hjk : EqvGen (WithPair R i j) j k := eqvGen_withPair_of_eqvGen ((hR j k).mp hj)
      have hiv : EqvGen (WithPair R i j) i v := eqvGen_withPair_of_eqvGen ((hR i v).mp hv)
      exact .trans _ _ _ (.symm _ _ hjk) (.trans _ _ _ (.symm _ _ eqvGen_withPair_self) hiv)
    · rw [Function.update_of_ne hx] at hedge
      exact eqvGen_withPair_of_eqvGen ((hR x y).mp (.rel x y hedge))
  · apply eqvGen_of_imp
    rintro x y (hxy | ⟨rfl, rfl⟩)
    · exact hkept x y ((hR x y).mpr (.rel x y hxy))
    · exact .trans _ _ _ (hkept _ _ hv) (.trans _ _ _ (.symm _ _ hpointer)
        (.symm _ _ (hkept _ _ hj)))

theorem connected_update_end {s : α} (hr : next r = none) (hk : Connected next k r)
    (hs : next s = none) (h : Connected next x s) :
    Connected (Function.update next k (some r)) x s := by
  obtain ⟨n, hn⟩ := exists_iterate_of_connected hs h
  induction n generalizing x with
  | zero => exact hn ▸ .refl x
  | succ n ih =>
    by_cases hx : x = k
    · subst hx
      rw [← eq_of_connected hr hs (.trans _ _ _ (.symm _ _ hk) h)]
      exact .rel x r (Function.update_self x (some r) next)
    · have hstep := connected_step (Function.update next k (some r)) x
      rw [step, Function.update_of_ne hx] at hstep
      refine .trans _ _ _ hstep (ih ?_ hn)
      exact .trans _ _ _ (.symm _ _ (connected_step next x)) h

end Redirect

end Pointers

import Mathlib.Data.List.Nodup
import Mathlib.Data.List.Sections

namespace Unification

open List

variable {V C K D : Type}

/-- The cells of the variables met so far, and the clauses emitted. -/
structure Bindings (V C K : Type) where
  cells : List (V × C) := []
  clauses : List K := []

namespace Bindings

def push (b : Bindings V C K) (k : K) : Bindings V C K := { b with clauses := b.clauses ++ [k] }

variable [DecidableEq V]

def cell (b : Bindings V C K) (x : V) : Option C := b.cells.lookup x

/-- Compare `c` with the cell of `x`, or make it the cell of `x`. -/
def bindVar (b : Bindings V C K) (x : V) (c : C) (clause : C → K) : Bindings V C K :=
  match b.cell x with
  | some first => b.push (clause first)
  | none => { b with cells := (x, c) :: b.cells }

variable {b : Bindings V C K} {k : K} {x : V} {c : C} {clause : C → K} {p : K → Prop} {ks : List K}

omit [DecidableEq V] in
theorem mem_push {k' : K} : k' ∈ (b.push k).clauses ↔ k' ∈ b.clauses ∨ k' = k := by
  rw [push, mem_append, mem_singleton]

theorem mem_bindVar (h : k ∈ b.clauses) : k ∈ (b.bindVar x c clause).clauses := by
  unfold bindVar
  split
  · exact mem_push.mpr (.inl h)
  · exact h

omit [DecidableEq V] in
theorem forall_push (h : ∀ k' ∈ b.clauses, p k') (hk : p k) : ∀ k' ∈ (b.push k).clauses, p k' := by
  intro k' hk'
  rcases mem_push.mp hk' with hk' | rfl
  · exact h k' hk'
  · exact hk

theorem forall_bindVar (h : ∀ k ∈ b.clauses, p k) (hclause : ∀ first, p (clause first)) :
    ∀ k ∈ (b.bindVar x c clause).clauses, p k := by
  unfold bindVar
  split
  · exact forall_push h (hclause _)
  · exact h

omit [DecidableEq V] in
theorem mem_foldl_push : k ∈ (ks.foldl push b).clauses ↔ k ∈ b.clauses ∨ k ∈ ks := by
  induction ks generalizing b with
  | nil => simp
  | cons k' ks ih => rw [foldl_cons, ih, mem_push, mem_cons, or_assoc]

@[simp] theorem cell_push : (b.push k).cell x = b.cell x := rfl

theorem cell_cons {y : V} :
    cell { b with cells := (x, c) :: b.cells } y = if y = x then some c else b.cell y := by
  unfold cell
  rw [lookup_cons]
  by_cases h : y = x
  · rw [if_pos h, beq_iff_eq.mpr h]
  · rw [if_neg h, beq_eq_false_iff_ne.mpr h]

theorem cell_bindVar_ne_none {y : V} :
    (b.bindVar x c clause).cell y ≠ none ↔ b.cell y ≠ none ∨ y = x := by
  unfold bindVar
  cases hx : b.cell x with
  | some first =>
    refine ⟨.inl, fun h => ?_⟩
    rcases h with h | rfl
    · exact h
    · rw [cell_push, hx]
      exact Option.some_ne_none first
  | none =>
    rw [cell_cons]
    by_cases h : y = x <;> simp [h]

theorem cell_bindVar_eq_some {y : V} {c' : C} (h : (b.bindVar x c clause).cell y = some c') :
    b.cell y = some c' ∨ y = x ∧ c' = c := by
  unfold bindVar at h
  cases hx : b.cell x with
  | some first =>
    rw [hx] at h
    exact .inl h
  | none =>
    rw [hx, cell_cons] at h
    by_cases hy : y = x
    · rw [if_pos hy] at h
      exact .inr ⟨hy, (Option.some.inj h).symm⟩
    · rw [if_neg hy] at h
      exact .inl h

theorem cell_foldl_push : (ks.foldl push b).cell x = b.cell x := by
  induction ks generalizing b with
  | nil => rfl
  | cons k ks ih => rw [foldl_cons, ih, cell_push]

end Bindings

variable [DecidableEq V] {holds : K → Prop} {val : C → D} {b : Bindings V C K}
  {P : (V → D) → Prop}

/-- An assignment solves the conjunction iff the clauses hold and it agrees with the cells. -/
def Represents (holds : K → Prop) (val : C → D) (b : Bindings V C K) (P : (V → D) → Prop) : Prop :=
  ∀ σ, P σ ↔ (∀ k ∈ b.clauses, holds k) ∧ ∀ x c, b.cell x = some c → σ x = val c

theorem represents_empty : Represents holds val ({} : Bindings V C K) fun _ => True := by
  intro σ
  refine ⟨fun _ => ⟨fun k hk => absurd hk List.not_mem_nil, fun x c h => ?_⟩, fun _ => trivial⟩
  cases h

theorem Represents.push (h : Represents holds val b P) (k : K) :
    Represents holds val (b.push k) fun σ => P σ ∧ holds k := by
  intro σ
  show P σ ∧ holds k ↔ _
  rw [h σ]
  constructor
  · rintro ⟨⟨hclauses, hcells⟩, hk⟩
    refine ⟨fun k' hk' => ?_, hcells⟩
    rcases Bindings.mem_push.mp hk' with hk' | rfl
    · exact hclauses k' hk'
    · exact hk
  · rintro ⟨hclauses, hcells⟩
    refine ⟨⟨fun k' hk' => ?_, hcells⟩, ?_⟩
    · exact hclauses k' (Bindings.mem_push.mpr (.inl hk'))
    · exact hclauses k (Bindings.mem_push.mpr (.inr rfl))

theorem Represents.bindVar (h : Represents holds val b P) {x : V} {c : C} {clause : C → K}
    (hclause : ∀ first, b.cell x = some first → (holds (clause first) ↔ val c = val first)) :
    Represents holds val (b.bindVar x c clause) fun σ => P σ ∧ σ x = val c := by
  unfold Bindings.bindVar
  split
  · rename_i first hfirst
    intro σ
    rw [← h.push (clause first) σ, hclause first hfirst]
    refine and_congr_right fun hP => ?_
    rw [((h σ).mp hP).2 x first hfirst, eq_comm]
  · rename_i hnone
    intro σ
    show P σ ∧ σ x = val c ↔ _
    rw [h σ, and_assoc]
    refine and_congr_right fun _ => ⟨?_, fun hcells => ⟨fun y c' hy => ?_, ?_⟩⟩
    · rintro ⟨hcells, hx⟩ y c' hy
      rw [Bindings.cell_cons] at hy
      split at hy
      · rename_i hyx
        rw [hyx, hx, Option.some.inj hy]
      · exact hcells y c' hy
    · have hne : y ≠ x := by
        rintro rfl
        rw [hnone] at hy
        cases hy
      exact hcells y c' (by rw [Bindings.cell_cons, if_neg hne, hy])
    · exact hcells x c (by rw [Bindings.cell_cons, if_pos rfl])

theorem Represents.congr {Q : (V → D) → Prop} (h : Represents holds val b P)
    (hPQ : ∀ σ, P σ ↔ Q σ) : Represents holds val b Q :=
  fun σ => (hPQ σ).symm.trans (h σ)

variable {cs : List C} {α β : Type} {xs : List α} {ys : List β} {R : α → β → Prop}

theorem map_eq_of_agrees {σ : V → D} {xs : List V}
    (hcells : Forall₂ (fun x c => b.cell x = some c) xs cs)
    (hσ : ∀ x c, b.cell x = some c → σ x = val c) : xs.map σ = cs.map val := by
  induction hcells with
  | nil => rfl
  | cons hx _ ih => rw [map_cons, map_cons, ih, hσ _ _ hx]

theorem Represents.exists_map_iff [Inhabited D] (h : Represents holds val b P) {xs : List V}
    (hcells : Forall₂ (fun x c => b.cell x = some c) xs cs) {ys : List D} :
    (∃ σ, P σ ∧ xs.map σ = ys) ↔ (∀ k ∈ b.clauses, holds k) ∧ cs.map val = ys := by
  constructor
  · rintro ⟨σ, hP, rfl⟩
    obtain ⟨hclauses, hσ⟩ := (h σ).mp hP
    exact ⟨hclauses, (map_eq_of_agrees hcells hσ).symm⟩
  · rintro ⟨hclauses, rfl⟩
    -- variables without a cell are free
    let σ : V → D := fun x => ((b.cell x).map val).getD default
    have hσ : ∀ x c, b.cell x = some c → σ x = val c := by
      intro x c hx
      simp only [σ, hx, Option.map_some, Option.getD_some]
    exact ⟨σ, (h σ).mpr ⟨hclauses, hσ⟩, map_eq_of_agrees hcells hσ⟩

theorem bind_eq_ok {ε α β : Type} {x : Except ε α} {f : α → Except ε β} {b : β}
    (h : (x >>= f) = .ok b) : ∃ a, x = .ok a ∧ f a = .ok b := by
  cases x with
  | error e => cases h
  | ok a => exact ⟨a, rfl, h⟩

theorem map_eq_ok {ε : Type} {x : Except ε α} {f : α → β} {b : β} (h : x.map f = .ok b) :
    ∃ a, x = .ok a ∧ f a = b := by
  cases x with
  | error e => cases h
  | ok a => exact ⟨a, rfl, Except.ok.inj h⟩

theorem forall₂_of_mapM_ok {ε : Type} {f : α → Except ε β} (h : xs.mapM f = .ok ys) :
    Forall₂ (fun x y => f x = .ok y) xs ys := by
  induction xs generalizing ys with
  | nil =>
    cases h
    exact .nil
  | cons x xs ih =>
    rw [mapM_cons] at h
    obtain ⟨y, hy, h⟩ := bind_eq_ok h
    obtain ⟨ys', hys, h⟩ := bind_eq_ok h
    cases h
    exact .cons hy (ih hys)

theorem exists_forall₂_iff : (∃ ys, Forall₂ R xs ys) ↔ ∀ x ∈ xs, ∃ y, R x y := by
  induction xs with
  | nil => exact ⟨fun _ x hx => absurd hx List.not_mem_nil, fun _ => ⟨[], .nil⟩⟩
  | cons x xs ih =>
    rw [List.forall_mem_cons, ← ih]
    constructor
    · rintro ⟨_, h⟩
      cases h with
      | cons hx hxs => exact ⟨⟨_, hx⟩, _, hxs⟩
    · rintro ⟨⟨y, hx⟩, ys, hxs⟩
      exact ⟨y :: ys, .cons hx hxs⟩

theorem exists_mem_of_forall₂ (h : Forall₂ R xs ys) : ∀ x ∈ xs, ∃ y ∈ ys, R x y := by
  induction h with
  | nil => exact fun x hx => nomatch hx
  | @cons x y xs ys hxy _ ih =>
    refine forall_mem_cons.mpr ⟨⟨y, mem_cons_self, hxy⟩, fun x' hx' => ?_⟩
    obtain ⟨y', hy', hR⟩ := ih x' hx'
    exact ⟨y', mem_cons_of_mem _ hy', hR⟩

theorem forall_mem_iff_of_forall₂ {P : α → Prop} {Q : β → Prop}
    (h : Forall₂ (fun x y => P x ↔ Q y) xs ys) : (∀ x ∈ xs, P x) ↔ ∀ y ∈ ys, Q y := by
  induction h with
  | nil => simp
  | cons hxy _ ih => rw [forall_mem_cons, forall_mem_cons, hxy, ih]

theorem nodup_sections {ls : List (List α)} (h : ∀ l ∈ ls, l.Nodup) : ls.sections.Nodup := by
  induction ls with
  | nil => exact nodup_singleton _
  | cons l ls ih =>
    obtain ⟨hl, hls⟩ := forall_mem_cons.mp h
    rw [List.sections, nodup_flatMap]
    refine ⟨fun s _ => hl.map fun a b hab => (List.cons.inj hab).1, ?_⟩
    refine (ih hls).imp fun {s t} hst => ?_
    intro u hs ht
    obtain ⟨a, -, rfl⟩ := mem_map.mp hs
    obtain ⟨b, -, hb⟩ := mem_map.mp ht
    exact hst (List.cons.inj hb).2.symm

end Unification

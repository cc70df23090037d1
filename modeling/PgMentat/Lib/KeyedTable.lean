import Mathlib.Data.List.Nodup

namespace KeyedTable

open List

variable {ρ κ : Type} [DecidableEq κ] (key : ρ → κ)

def del (t : List ρ) (k : κ) : List ρ := t.filter fun x => key x ≠ k

def put (t : List ρ) (x : ρ) : List ρ := del key t (key x) ++ [x]

/-- `INSERT .. ON CONFLICT DO NOTHING`. -/
def insertNew (t : List ρ) (x : ρ) : List ρ :=
  if ∃ y ∈ t, key y = key x then t else t ++ [x]

variable {key}

variable {t : List ρ} {x y : ρ} {p : ρ → Bool} {sel : ρ → Prop}

@[simp] theorem mem_del {k : κ} : x ∈ del key t k ↔ x ∈ t ∧ key x ≠ k := by
  simp [del]

@[simp] theorem mem_put : y ∈ put key t x ↔ y = x ∨ (y ∈ t ∧ key y ≠ key x) := by
  simp [put, or_comm]

theorem mem_insertNew : y ∈ insertNew key t x ↔ y ∈ t ∨ (y = x ∧ ∀ z ∈ t, key z ≠ key x) := by
  unfold insertNew
  split
  · rename_i h
    obtain ⟨z, hz, hzx⟩ := h
    constructor
    · exact .inl
    · rintro (hy | ⟨-, hnew⟩)
      · exact hy
      · exact absurd hzx (hnew z hz)
  · rename_i h
    push Not at h
    simp only [mem_append, mem_singleton]
    exact ⟨fun hy => hy.imp id fun hyx => ⟨hyx, h⟩, fun hy => hy.imp id And.left⟩

theorem put_of_new (h : ∀ y ∈ t, key y ≠ key x) : put key t x = t ++ [x] := by
  have hdel : del key t (key x) = t := filter_eq_self.mpr fun y hy => by simpa using h y hy
  rw [put, hdel]

theorem foldl_del_filter (hp : ∀ x y, key x = key y → p x = p y) (t : List ρ) :
    ((t.filter p).map key).foldl (del key) t = t.filter fun x => !p x := by
  have hdel : ∀ (ks : List κ) (t : List ρ),
      ks.foldl (del key) t = t.filter fun x => key x ∉ ks := by
    intro ks
    induction ks with
    | nil => simp
    | cons k ks ih =>
      intro t
      simp only [foldl_cons, ih, del, filter_filter, mem_cons, not_or]
      exact filter_congr fun x _ => by simp [Bool.and_comm]
  rw [hdel]
  refine filter_congr fun x hx => ?_
  cases hpx : p x with
  | true =>
    have hmem : key x ∈ (t.filter p).map key :=
      mem_map_of_mem (mem_filter.mpr ⟨hx, hpx⟩)
    simp [hmem]
  | false =>
    have hmem : key x ∉ (t.filter p).map key := by
      intro h
      obtain ⟨y, hy, hyx⟩ := mem_map.mp h
      have hpy : p y = true := (mem_filter.mp hy).2
      rw [hp y x hyx, hpx] at hpy
      cases hpy
    simp [hmem]

/-- Rows with distinct keys upserted one after another: each is there, and so are the old rows
of every other key. -/
theorem mem_foldl_put {xs : List ρ} (hxs : (xs.map key).Nodup) :
    y ∈ xs.foldl (put key) t ↔ y ∈ xs ∨ (y ∈ t ∧ key y ∉ xs.map key) := by
  induction xs generalizing t with
  | nil => simp
  | cons x xs ih =>
    obtain ⟨hx, hxs⟩ := nodup_cons.mp hxs
    rw [foldl_cons, ih hxs, mem_put]
    constructor
    · rintro (hy | ⟨rfl | ⟨hy, hyx⟩, hys⟩)
      · exact .inl (mem_cons_of_mem x hy)
      · exact .inl mem_cons_self
      · exact .inr ⟨hy, by simpa [hyx] using hys⟩
    · rintro (hy | ⟨hy, hys⟩)
      · rcases mem_cons.mp hy with rfl | hy
        · exact .inr ⟨.inl rfl, hx⟩
        · exact .inl hy
      · obtain ⟨hyx, hys⟩ : key y ≠ key x ∧ key y ∉ xs.map key := by simpa using hys
        exact .inr ⟨.inr ⟨hy, hyx⟩, hys⟩

/-- `t'` is `t` after the selected rows were upserted. -/
def Upserted (key : ρ → κ) (rows : List ρ) (sel : ρ → Prop) (t t' : List ρ) : Prop :=
  ∀ x, x ∈ t' ↔ (x ∈ rows ∧ sel x) ∨ (x ∈ t ∧ ∀ y ∈ rows, sel y → key y ≠ key x)

omit [DecidableEq κ] in
theorem Upserted.refl (rows t : List ρ) : Upserted key rows (fun _ => False) t t :=
  fun x => by simp

omit [DecidableEq κ] in
theorem Upserted.congr {rows t' : List ρ} {sel' : ρ → Prop} (h : Upserted key rows sel t t')
    (hsel : ∀ x ∈ rows, sel x ↔ sel' x) : Upserted key rows sel' t t' := by
  intro x
  rw [h x]
  refine or_congr (and_congr_right fun hx => hsel x hx) (and_congr_right fun _ => ?_)
  exact forall₂_congr fun y hy => imp_congr_left (hsel y hy)

theorem Upserted.step {rows t' : List ρ} (h : Upserted key rows sel t t')
    (hp : ∀ x y, key x = key y → p x = p y) (hnodup : ((rows.filter p).map key).Nodup) :
    Upserted key rows (fun x => sel x ∨ p x = true) t ((rows.filter p).foldl (put key) t') := by
  intro x
  rw [mem_foldl_put hnodup, h x]
  constructor
  · rintro (hx | ⟨⟨hx, hsel⟩ | ⟨hx, hold⟩, hkey⟩)
    · exact .inl ⟨(mem_filter.mp hx).1, .inr (mem_filter.mp hx).2⟩
    · exact .inl ⟨hx, .inl hsel⟩
    · refine .inr ⟨hx, fun y hy hsel heq => ?_⟩
      rcases hsel with hsel | hpy
      · exact hold y hy hsel heq
      · exact hkey (heq ▸ mem_map_of_mem (mem_filter.mpr ⟨hy, hpy⟩))
  · rintro (⟨hx, hsel⟩ | ⟨hx, hold⟩)
    · by_cases hpx : p x = true
      · exact .inl (mem_filter.mpr ⟨hx, hpx⟩)
      · refine .inr ⟨.inl ⟨hx, hsel.resolve_right hpx⟩, fun hmem => ?_⟩
        obtain ⟨y, hy, hyx⟩ := mem_map.mp hmem
        exact hpx (hp y x hyx ▸ (mem_filter.mp hy).2)
    · refine .inr ⟨.inr ⟨hx, fun y hy hsel => hold y hy (.inl hsel)⟩, fun hmem => ?_⟩
      obtain ⟨y, hy, hyx⟩ := mem_map.mp hmem
      exact hold y (mem_filter.mp hy).1 (.inr (mem_filter.mp hy).2) hyx

def KeyUnique (key : ρ → κ) (t : List ρ) : Prop :=
  ∀ x ∈ t, ∀ y ∈ t, key x = key y → x = y

instance [DecidableEq ρ] (t : List ρ) : Decidable (KeyUnique key t) :=
  inferInstanceAs (Decidable (∀ x ∈ t, ∀ y ∈ t, key x = key y → x = y))

theorem KeyUnique.put {t : List ρ} (h : KeyUnique key t) (x : ρ) : KeyUnique key (put key t x) := by
  intro y hy z hz hyz
  rcases mem_put.mp hy with rfl | ⟨hy, hyx⟩ <;> rcases mem_put.mp hz with rfl | ⟨hz, hzx⟩
  · rfl
  · exact absurd hyz.symm hzx
  · exact absurd hyz hyx
  · exact h y hy z hz hyz

theorem KeyUnique.del {t : List ρ} (h : KeyUnique key t) (k : κ) : KeyUnique key (del key t k) :=
  fun y hy z hz => h y (mem_del.mp hy).1 z (mem_del.mp hz).1

theorem KeyUnique.insertNew {t : List ρ} (h : KeyUnique key t) (x : ρ) :
    KeyUnique key (insertNew key t x) := by
  intro y hy z hz hyz
  rcases mem_insertNew.mp hy with hyt | ⟨rfl, hnew⟩ <;>
    rcases mem_insertNew.mp hz with hzt | ⟨rfl, hnew'⟩
  · exact h y hyt z hzt hyz
  · exact absurd hyz (hnew' y hyt)
  · exact absurd hyz.symm (hnew z hzt)
  · rfl

omit [DecidableEq κ] in
theorem KeyUnique.filter (h : KeyUnique key t) (p : ρ → Bool) : KeyUnique key (t.filter p) :=
  fun y hy z hz => h y (mem_filter.mp hy).1 z (mem_filter.mp hz).1

theorem KeyUnique.find?_eq (h : KeyUnique key t) (hx : x ∈ t) :
    t.find? (fun y => key y = key x) = some x := by
  cases hfind : t.find? fun y => key y = key x with
  | none =>
    have hnone := List.find?_eq_none.mp hfind x hx
    simp at hnone
  | some y =>
    have hkey : key y = key x := by simpa using List.find?_some hfind
    rw [h y (mem_of_find?_eq_some hfind) x hx hkey]

theorem nodup_del (h : (t.map key).Nodup) (k : κ) : ((del key t k).map key).Nodup :=
  h.sublist (filter_sublist.map key)

theorem nodup_put (h : (t.map key).Nodup) (x : ρ) : ((put key t x).map key).Nodup := by
  rw [put, map_append, nodup_append]
  refine ⟨nodup_del h _, nodup_singleton _, ?_⟩
  intro k hk k' hk'
  obtain ⟨y, hy, rfl⟩ := mem_map.mp hk
  rw [mem_singleton.mp hk']
  exact (mem_del.mp hy).2

end KeyedTable

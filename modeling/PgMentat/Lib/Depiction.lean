import Mathlib.Data.List.Basic

namespace Depiction

open List

variable {ρ ν : Type}

structure Depicts (shows : ρ → ν → Prop) (reported : List ρ) (values : ν → Prop) : Prop where
  sound : ∀ j ∈ reported, ∃ v, values v ∧ shows j v
  complete : ∀ v, values v → ∃ j ∈ reported, shows j v

variable {shows : ρ → ν → Prop} {reported : List ρ} {values values' : ν → Prop}

theorem Depicts.congr (h : Depicts shows reported values) (heq : ∀ v, values v ↔ values' v) :
    Depicts shows reported values' := by
  have hvalues : values = values' := funext fun v => propext (heq v)
  exact hvalues ▸ h

theorem Depicts.nil (h : ∀ v, ¬ values v) : Depicts shows [] values :=
  ⟨fun _ hj => absurd hj List.not_mem_nil, fun v hv => absurd hv (h v)⟩

theorem Depicts.snoc (h : Depicts shows reported values) {j : ρ} {v : ν} (hj : shows j v) :
    Depicts shows (reported ++ [j]) fun w => values w ∨ w = v := by
  constructor
  · intro i hi
    rcases mem_append.mp hi with hi | hi
    · obtain ⟨w, hw, hshow⟩ := h.sound i hi
      exact ⟨w, .inl hw, hshow⟩
    · rw [mem_singleton.mp hi]
      exact ⟨v, .inr rfl, hj⟩
  · intro w hw
    rcases hw with hw | rfl
    · obtain ⟨i, hi, hshow⟩ := h.complete w hw
      exact ⟨i, mem_append_left [j] hi, hshow⟩
    · exact ⟨j, mem_append_right reported mem_cons_self, hj⟩

theorem Depicts.single {j : ρ} {v : ν} (hj : shows j v) :
    Depicts shows [j] fun w => w = v := by
  constructor
  · intro i hi
    rw [mem_singleton.mp hi]
    exact ⟨v, rfl, hj⟩
  · intro w hw
    exact ⟨j, mem_cons_self, hw ▸ hj⟩

section Except

variable {ε α β : Type} {xs : List α}

theorem foldlM_ok {f : β → α → Except ε β} {I : List α → β → Prop} {b : β} (hinit : I [] b)
    (hstep : ∀ done x b, x ∈ xs → I done b → ∃ b', f b x = .ok b' ∧ I (done ++ [x]) b') :
    ∃ b', xs.foldlM f b = .ok b' ∧ I xs b' := by
  have hrun : ∀ done b, I done b → ∃ b', xs.foldlM f b = .ok b' ∧ I (done ++ xs) b' := by
    clear hinit
    induction xs with
    | nil =>
      intro done b hI
      exact ⟨b, rfl, by simpa using hI⟩
    | cons x xs ih =>
      intro done b hI
      obtain ⟨b1, hb1, hI1⟩ := hstep done x b mem_cons_self hI
      obtain ⟨b', hb', hI'⟩ := ih (fun done y b hy => hstep done y b (mem_cons_of_mem x hy))
        (done ++ [x]) b1 hI1
      refine ⟨b', ?_, by simpa using hI'⟩
      rw [foldlM_cons, hb1]
      exact hb'
  exact hrun [] b hinit

theorem mapM_ok {f : α → Except ε β} (h : ∀ x ∈ xs, ∃ y, f x = .ok y) :
    ∃ ys, xs.mapM f = .ok ys ∧ (∀ y ∈ ys, ∃ x ∈ xs, f x = .ok y) ∧
      ∀ x ∈ xs, ∃ y ∈ ys, f x = .ok y := by
  induction xs with
  | nil => exact ⟨[], rfl, by simp, by simp⟩
  | cons x xs ih =>
    obtain ⟨y, hy⟩ := h x mem_cons_self
    obtain ⟨ys, hys, hfrom, hto⟩ := ih fun x' hx' => h x' (mem_cons_of_mem x hx')
    refine ⟨y :: ys, ?_, ?_, ?_⟩
    · rw [mapM_cons, hy, hys]
      rfl
    · intro z hz
      rcases mem_cons.mp hz with rfl | hz
      · exact ⟨x, mem_cons_self, hy⟩
      · obtain ⟨x', hx', hz'⟩ := hfrom z hz
        exact ⟨x', mem_cons_of_mem x hx', hz'⟩
    · intro x' hx'
      rcases mem_cons.mp hx' with rfl | hx'
      · exact ⟨y, mem_cons_self, hy⟩
      · obtain ⟨z, hz, hz'⟩ := hto x' hx'
        exact ⟨z, mem_cons_of_mem y hz, hz'⟩

end Except

end Depiction

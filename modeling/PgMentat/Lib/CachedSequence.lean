import Mathlib.Data.Int.Order.Basic

namespace CachedSequence

structure Params where
  cache : Nat
  maxValue : Int
  cache_pos : 0 < cache

/-- The values from `next` to `last`. -/
structure Block where
  next : Int
  last : Int

def Block.Holds (b : Block) (v : Int) : Prop := b.next ≤ v ∧ v ≤ b.last

/-- The values from `fresh` on are in no block. -/
structure Sequence (p : Params) (ι : Type) where
  fresh : Int
  block : ι → Block
  lt_fresh : ∀ s v, (block s).Holds v → v < fresh
  le_max : ∀ s v, (block s).Holds v → v ≤ p.maxValue
  disjoint : ∀ s s' v, (block s).Holds v → (block s').Holds v → s = s'

variable {p : Params} {ι : Type}

def Sequence.start (p : Params) (ι : Type) (first : Int) : Sequence p ι where
  fresh := first
  block _ := ⟨first, first - 1⟩
  lt_fresh := by
    intro s v h
    simp only [Block.Holds] at h
    omega
  le_max := by
    intro s v h
    simp only [Block.Holds] at h
    omega
  disjoint := by
    intro s s' v h
    simp only [Block.Holds] at h
    omega

variable [DecidableEq ι]

/-- The session's block becomes `b`, where `b` takes values of the old block or fresh ones. -/
def Sequence.setBlock (q : Sequence p ι) (s : ι) (b : Block) (fresh : Int)
    (hfresh : q.fresh ≤ fresh) (hlt : ∀ v, b.Holds v → v < fresh)
    (hmax : ∀ v, b.Holds v → v ≤ p.maxValue)
    (hown : ∀ v, b.Holds v → q.fresh ≤ v ∨ (q.block s).Holds v) : Sequence p ι where
  fresh
  block s' := if s' = s then b else q.block s'
  lt_fresh := by
    intro s' v h
    split at h
    · exact hlt v h
    · exact lt_of_lt_of_le (q.lt_fresh s' v h) hfresh
  le_max := by
    intro s' v h
    split at h
    · exact hmax v h
    · exact q.le_max s' v h
  disjoint := by
    have hother : ∀ s' v, b.Holds v → (q.block s').Holds v → s = s' := fun s' v hb h =>
      (hown v hb).elim (fun hv => absurd (q.lt_fresh s' v h) (not_lt.mpr hv))
        fun hv => q.disjoint s s' v hv h
    intro s₁ s₂ v h₁ h₂
    split at h₁ <;> split at h₂
    · exact ‹s₁ = s›.trans ‹s₂ = s›.symm
    · exact ‹s₁ = s›.trans (hother s₂ v h₁ h₂)
    · exact (‹s₂ = s›.trans (hother s₁ v h₂ h₁)).symm
    · exact q.disjoint s₁ s₂ v h₁ h₂

/-- `nextval` in a session; without a value if the sequence is exhausted. -/
def Sequence.nextval (s : ι) (q : Sequence p ι) : Option (Int × Sequence p ι) :=
  if h : (q.block s).next ≤ (q.block s).last then
    some ((q.block s).next, q.setBlock s ⟨(q.block s).next + 1, (q.block s).last⟩ q.fresh
      (le_refl _) (fun v hv => q.lt_fresh s v ⟨le_of_lt hv.1, hv.2⟩)
      (fun v hv => q.le_max s v ⟨le_of_lt hv.1, hv.2⟩)
      fun v hv => Or.inr ⟨le_of_lt hv.1, hv.2⟩)
  else if hmax : q.fresh ≤ p.maxValue then
    some (q.fresh, q.setBlock s ⟨q.fresh + 1, min (q.fresh + p.cache - 1) p.maxValue⟩
      (min (q.fresh + p.cache - 1) p.maxValue + 1)
      (by have := p.cache_pos; omega) (fun v hv => Int.lt_add_one_of_le hv.2)
      (fun v hv => le_trans hv.2 (min_le_right _ _)) fun v hv => Or.inl (le_of_lt hv.1))
  else none

/-- No session has been given the value. -/
def Sequence.Unissued (q : Sequence p ι) (v : Int) : Prop :=
  q.fresh ≤ v ∨ ∃ s, (q.block s).Holds v

/-- The value does not lie beyond the block that the session has preallocated, if it has one. -/
def Sequence.NotBeyond (q : Sequence p ι) (s : ι) (v : Int) : Prop :=
  (q.block s).next ≤ (q.block s).last → v ≤ (q.block s).last

instance (q : Sequence p ι) (s : ι) (v : Int) : Decidable (q.NotBeyond s v) :=
  inferInstanceAs (Decidable (_ → _))

variable {q q' : Sequence p ι} {s : ι} {v w : Int}

theorem Sequence.unissued_setBlock {b : Block} {fresh : Int} {hfresh hlt hmax hown}
    (h : (q.setBlock s b fresh hfresh hlt hmax hown).Unissued w) :
    fresh ≤ w ∨ b.Holds w ∨ ∃ s', s' ≠ s ∧ (q.block s').Holds w := by
  rcases h with h | ⟨s', h⟩
  · exact .inl h
  · simp only [setBlock] at h
    split at h
    · exact .inr (.inl h)
    · exact .inr (.inr ⟨s', ‹s' ≠ s›, h⟩)

theorem Sequence.unissued_of_nextval (h : q.nextval s = some (v, q')) (hw : q'.Unissued w) :
    q.Unissued w ∧ w ≠ v := by
  unfold nextval at h
  split at h
  · rename_i hblock
    cases h
    rcases unissued_setBlock hw with hw | hw | ⟨s', hs', hw⟩
    · exact ⟨.inl hw, ne_of_gt (lt_of_lt_of_le (q.lt_fresh s _ ⟨le_refl _, hblock⟩) hw)⟩
    · exact ⟨.inr ⟨s, le_of_lt hw.1, hw.2⟩, ne_of_gt hw.1⟩
    · exact ⟨.inr ⟨s', hw⟩, fun heq => hs' (q.disjoint s' s _ hw (heq ▸ ⟨le_refl _, hblock⟩))⟩
  · split at h
    · rename_i hmax
      have hpos := p.cache_pos
      cases h
      rcases unissued_setBlock hw with hw | hw | ⟨s', -, hw⟩
      · have hlt : q.fresh < w := by omega
        exact ⟨.inl (le_of_lt hlt), ne_of_gt hlt⟩
      · exact ⟨.inl (le_of_lt hw.1), ne_of_gt hw.1⟩
      · exact ⟨.inr ⟨s', hw⟩, ne_of_lt (q.lt_fresh s' w hw)⟩
    · cases h

theorem Sequence.nextval_unissued (h : q.nextval s = some (v, q')) :
    q.Unissued v ∧ v ≤ p.maxValue := by
  unfold nextval at h
  split at h
  · rename_i hblock
    cases h
    exact ⟨.inr ⟨s, le_refl _, hblock⟩, q.le_max s _ ⟨le_refl _, hblock⟩⟩
  · split at h
    · cases h
      exact ⟨.inl (le_refl _), ‹_›⟩
    · cases h

theorem Sequence.lt_nextval_iff (h : q.nextval s = some (v, q')) (hw : ¬ q.Unissued w) :
    w < v ↔ q.NotBeyond s w := by
  have hfresh : w < q.fresh := not_le.mp fun hle => hw (.inl hle)
  unfold nextval at h
  split at h
  · rename_i hblock
    cases h
    have hout : ¬ (q.block s).Holds w := fun hb => hw (.inr ⟨s, hb⟩)
    refine ⟨fun hlt _ => le_trans (le_of_lt hlt) hblock, fun hle => not_le.mp fun hge => ?_⟩
    exact hout ⟨hge, hle hblock⟩
  · rename_i hblock
    split at h
    · cases h
      exact iff_of_true hfresh fun hle => absurd hle hblock
    · cases h

end CachedSequence

import Mathlib.Order.Lattice
import Mathlib.Data.List.Basic

namespace LatestWins

open List

variable {ρ κ τ : Type} [LinearOrder τ] (key : ρ → κ) (time : ρ → τ) (flag : ρ → Bool)

/-- The latest row of the key is flagged. -/
def Holds (log : List ρ) (k : κ) : Prop :=
  ∃ r ∈ log, key r = k ∧ flag r = true ∧ ∀ r' ∈ log, key r' = k → time r' ≤ time r

variable {key time flag} {log log' : List ρ} {k : κ}

theorem not_holds_of_no_row (h : ∀ r ∈ log, key r ≠ k) : ¬ Holds key time flag log k := by
  rintro ⟨r, hr, hk, -⟩
  exact h r hr hk

theorem holds_congr (h : ∀ r, key r = k → (r ∈ log' ↔ r ∈ log)) :
    Holds key time flag log' k ↔ Holds key time flag log k := by
  constructor
  · rintro ⟨r, hr, hk, hflag, hmax⟩
    exact ⟨r, (h r hk).mp hr, hk, hflag, fun r' hr' hk' => hmax r' ((h r' hk').mpr hr') hk'⟩
  · rintro ⟨r, hr, hk, hflag, hmax⟩
    exact ⟨r, (h r hk).mpr hr, hk, hflag, fun r' hr' hk' => hmax r' ((h r' hk').mp hr') hk'⟩

theorem holds_iff_of_newest {r : ρ} (hr : r ∈ log) (hk : key r = k)
    (hmax : ∀ r' ∈ log, key r' = k → time r' ≤ time r)
    (halone : ∀ r' ∈ log, key r' = k → time r' = time r → flag r' = flag r) :
    Holds key time flag log k ↔ flag r = true := by
  constructor
  · rintro ⟨r', hr', hk', hflag, hmax'⟩
    have htime : time r' = time r := le_antisymm (hmax r' hr' hk') (hmax' r hr hk)
    exact (halone r' hr' hk' htime).symm.trans hflag
  · intro hflag
    exact ⟨r, hr, hk, hflag, hmax⟩

theorem exists_latest (h : ∃ r ∈ log, key r = k) :
    ∃ r ∈ log, key r = k ∧ ∀ r' ∈ log, key r' = k → time r' ≤ time r := by
  induction log with
  | nil =>
    obtain ⟨r, hr, -⟩ := h
    cases hr
  | cons x log ih =>
    by_cases hrest : ∃ r ∈ log, key r = k
    · obtain ⟨r, hr, hk, hmax⟩ := ih hrest
      by_cases hx : key x = k ∧ time r ≤ time x
      · refine ⟨x, mem_cons_self, hx.1, fun r' hr' hk' => ?_⟩
        rcases mem_cons.mp hr' with rfl | hr'
        · exact le_refl _
        · exact le_trans (hmax r' hr' hk') hx.2
      · refine ⟨r, mem_cons_of_mem x hr, hk, fun r' hr' hk' => ?_⟩
        rcases mem_cons.mp hr' with rfl | hr'
        · exact le_of_not_ge fun hle => hx ⟨hk', hle⟩
        · exact hmax r' hr' hk'
    · obtain ⟨r, hr, hk⟩ := h
      obtain rfl := (mem_cons.mp hr).resolve_right fun hr => hrest ⟨r, hr, hk⟩
      refine ⟨r, hr, hk, fun r' hr' hk' => ?_⟩
      obtain rfl := (mem_cons.mp hr').resolve_right fun hr' => hrest ⟨r', hr', hk'⟩
      exact le_refl _

theorem exists_later_of_not_holds (halone : ∀ r ∈ log, ∀ r' ∈ log, key r = key r' →
    time r = time r' → r = r') (hno : ¬ Holds key time flag log k) {r : ρ} (hr : r ∈ log)
    (hk : key r = k) (hflag : flag r = true) :
    ∃ z ∈ log, key z = k ∧ flag z = false ∧ time r < time z := by
  obtain ⟨z, hz, hzk, hmax⟩ : ∃ z ∈ log, key z = k ∧ ∀ r' ∈ log, key r' = k → time r' ≤ time z :=
    exists_latest ⟨r, hr, hk⟩
  have hzflag : flag z = false := by
    by_contra h
    exact hno ⟨z, hz, hzk, eq_true_of_ne_false h, hmax⟩
  refine ⟨z, hz, hzk, hzflag, lt_of_le_of_ne (hmax r hr hk) fun heq => ?_⟩
  rw [halone r hr z hz (hk.trans hzk.symm) heq, hzflag] at hflag
  cases hflag

section AsOf

variable {γ : Type} (key time flag) (group : ρ → γ) (single : γ → Prop) (log)

/-- The row is flagged and the latest of its key up to the time. -/
def HoldsAt (t : τ) (r : ρ) : Prop :=
  r ∈ log ∧ flag r = true ∧ time r ≤ t ∧
    ∀ r' ∈ log, key r' = key r → time r' ≤ t → time r' ≤ time r

/-- A log in which a flagged row of a single group is followed by one that is not flagged when,
and only when, another flagged row of the group takes its place; in other groups it stands for
good. -/
structure Serial : Prop where
  alone : ∀ r ∈ log, ∀ r' ∈ log, key r = key r' → time r = time r' → r = r'
  withdrawn : ∀ r ∈ log, ∀ r' ∈ log, flag r = true → flag r' = true → single (group r) →
    group r' = group r → key r' ≠ key r → time r < time r' →
    ∃ z ∈ log, key z = key r ∧ time r < time z ∧ time z ≤ time r'
  replaced : ∀ z ∈ log, ∀ r ∈ log, flag z = false → flag r = true → key z = key r →
    time r < time z → single (group r) ∧
      ∃ r' ∈ log, flag r' = true ∧ group r' = group r ∧ time r < time r' ∧ time r' ≤ time z
  once : ∀ r ∈ log, ∀ r' ∈ log, flag r = true → flag r' = true → key r' = key r →
    time r < time r' → single (group r)

/-- The row is flagged, and no later row of its key takes that back up to the time. -/
def Standing (t : τ) (r : ρ) : Prop :=
  r ∈ log ∧ flag r = true ∧ time r ≤ t ∧
    ∀ z ∈ log, key z = key r → time z ≤ t → time r < time z → flag z = true

variable {key time flag group single log} {t : τ} {r : ρ}

theorem HoldsAt.standing (h : HoldsAt key time flag log t r) : Standing key time flag log t r := by
  obtain ⟨hr, hflag, ht, hmax⟩ := h
  exact ⟨hr, hflag, ht, fun z hz hk hzt hlater => absurd (hmax z hz hk hzt) (not_le_of_gt hlater)⟩

theorem Standing.holdsAt (h : Standing key time flag log t r)
    (hmax : ∀ z, Standing key time flag log t z → key z = key r → time z ≤ time r) :
    HoldsAt key time flag log t r := by
  obtain ⟨hr, hflag, ht, hstands⟩ := h
  refine ⟨hr, hflag, ht, fun r' hr' hk ht' => ?_⟩
  have hseen : ∃ z ∈ log.filter (time · ≤ t), key z = key r :=
    ⟨r', mem_filter.mpr ⟨hr', by simpa using ht'⟩, hk⟩
  obtain ⟨z, hz, hzk, hlatest⟩ : ∃ z ∈ log.filter (time · ≤ t), key z = key r ∧
      ∀ y ∈ log.filter (time · ≤ t), key y = key r → time y ≤ time z := exists_latest hseen
  simp only [mem_filter, decide_eq_true_eq] at hz hlatest
  have hle : time r' ≤ time z := hlatest r' ⟨hr', ht'⟩ hk
  by_contra hlater
  -- the latest row of the key would be flagged, and so stand as well
  have hrz : time r < time z := lt_of_lt_of_le (lt_of_not_ge hlater) hle
  have hzflag := hstands z hz.1 hzk hz.2 hrz
  have hzstands : Standing key time flag log t z :=
    ⟨hz.1, hzflag, hz.2, fun y hy hyk hyt hzy =>
      absurd (hlatest y ⟨hy, hyt⟩ (hyk.trans hzk)) (not_le_of_gt hzy)⟩
  exact absurd (hmax z hzstands hzk) (not_le_of_gt hrz)

theorem Serial.holdsAt_of_single (h : Serial key time flag log group single)
    (hgroup : ∀ r r', key r = key r' → group r = group r') (hr : r ∈ log)
    (hflag : flag r = true) (ht : time r ≤ t) (hsingle : single (group r)) :
    HoldsAt key time flag log t r ↔
      ∀ r' ∈ log, flag r' = true → group r' = group r → time r' ≤ t → time r' ≤ time r := by
  constructor
  · rintro ⟨-, -, -, hmax⟩ r' hr' hflag' hg ht'
    by_contra hlater
    by_cases hk : key r' = key r
    · exact hlater (hmax r' hr' hk ht')
    · obtain ⟨z, hz, hzk, hrz, hzr'⟩ :=
        h.withdrawn r hr r' hr' hflag hflag' hsingle hg hk (lt_of_not_ge hlater)
      exact absurd (hmax z hz hzk (le_trans hzr' ht')) (not_le_of_gt hrz)
  · intro hmax
    refine ⟨hr, hflag, ht, fun r' hr' hk ht' => ?_⟩
    by_contra hlater
    cases hflag' : flag r' with
    | true => exact hlater (hmax r' hr' hflag' (hgroup r' r hk) ht')
    | false =>
      obtain ⟨-, w, hw, hwflag, hwg, hrw, hwr'⟩ :=
        h.replaced r' hr' r hr hflag' hflag hk (lt_of_not_ge hlater)
      exact absurd (hmax w hw hwflag hwg (le_trans hwr' ht')) (not_le_of_gt hrw)

theorem Serial.holdsAt_of_not_single (h : Serial key time flag log group single)
    (hr : r ∈ log) (hflag : flag r = true) (ht : time r ≤ t) (hmany : ¬ single (group r)) :
    HoldsAt key time flag log t r := by
  refine ⟨hr, hflag, ht, fun r' hr' hk _ => ?_⟩
  by_contra hlater
  cases hflag' : flag r' with
  | true => exact hmany (h.once r hr r' hr' hflag hflag' hk (lt_of_not_ge hlater))
  | false => exact hmany (h.replaced r' hr' r hr hflag' hflag hk (lt_of_not_ge hlater)).1

end AsOf

end LatestWins

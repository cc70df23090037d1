import PgMentat.Lib.Binary64
import PgMentat.Value
import Mathlib.Tactic.LinearCombination

namespace PgMentat

open Binary64

/-- The microseconds that PostgreSQL has for `to_timestamp(micros::double precision / 1000000.0)`.
Timestamps are counted from 2000, and every operation rounds to a double. -/
def toTimestamp (micros : Int) : Int :=
  let seconds := ofRat (ofRat micros / 1000000)
  roundEven (ofRat (ofRat (seconds - 946684800) * 1000000)) + 946684800000000

section Near

variable {micros : Int}

theorem toTimestamp_eq_of_close (hexact : ofRat micros = micros) {t : ℚ} (n : Int) (error : ℚ)
    (ht : ofRat (ofRat ((micros : ℚ) / 1000000) - 946684800) = t)
    (hclose : |t - ((micros : ℚ) / 1000000 - 946684800)| ≤ error)
    (hsize : |t * 1000000| < 2 ^ n) (hsum : 2 ^ (n - 54) + error * 1000000 < 1 / 2) :
    toTimestamp micros = micros := by
  have hround := abs_ofRat_sub_le hsize
  have hscaled : |t * 1000000 - ((micros - 946684800000000 : Int) : ℚ)| ≤ error * 1000000 := by
    have heq : t * 1000000 - ((micros - 946684800000000 : Int) : ℚ) =
        (t - ((micros : ℚ) / 1000000 - 946684800)) * 1000000 := by
      push_cast
      ring
    rw [heq, abs_mul, abs_of_pos (by norm_num : (0 : ℚ) < 1000000)]
    exact mul_le_mul_of_nonneg_right hclose (by norm_num)
  have hnearest : roundEven (ofRat (t * 1000000)) = micros - 946684800000000 :=
    roundEven_eq ((abs_sub_le _ _ _).trans_lt ((add_le_add hround hscaled).trans_lt hsum))
  unfold toTimestamp
  dsimp only
  rw [hexact, ht, hnearest, sub_add_cancel]

/-- From 2000 on the difference to the epoch needs no more bits than the seconds do. -/
theorem ofRat_sub_epoch {s : ℚ} (hlo : 946684800 ≤ s) (hhi : s < 4294967296) :
    ofRat (ofRat s - 946684800) = ofRat s - 946684800 := by
  have hpos : 0 < s := by linarith
  have hseconds : |ofRat s - s| ≤ 1 / 4194304 := by
    have h := abs_ofRat_sub_le (q := s) (n := 32) (by rw [abs_of_pos hpos]; norm_num; linarith)
    norm_num at h
    exact h
  rw [abs_le] at hseconds
  have hbound := lt_two_zpow_binade hpos
  have hbinade : binade s < 32 := binade_lt hpos (by norm_num; linarith)
  obtain ⟨k, hk⟩ : ∃ k : ℕ, binade s - 52 = -k := ⟨(52 - binade s).toNat, by omega⟩
  have hunit : unit s = 2 ^ (-(k : Int)) := by rw [unit, abs_of_pos hpos, hk]
  have hone : (2 : ℚ) ^ k * 2 ^ (-(k : Int)) = 1 := by
    rw [zpow_neg, zpow_natCast, mul_inv_cancel₀ (by positivity)]
  refine ofRat_eq_self (n := binade s + 1) (m := roundEven (s / unit s) - 946684800 * 2 ^ k) ?_ ?_
  · rw [show binade s + 1 - 53 = -(k : Int) by omega, ofRat, hunit]
    push_cast
    linear_combination 946684800 * hone
  · rw [abs_lt]
    constructor <;> linarith

/-- Microseconds are stored exactly from 1970 to 2106. -/
theorem toTimestamp_eq_self (hlo : 0 ≤ micros) (hhi : micros < 4294967296000000) :
    toTimestamp micros = micros := by
  have hlo' : (0 : ℚ) ≤ micros := by exact_mod_cast hlo
  have hhi' : (micros : ℚ) < 4294967296000000 := by exact_mod_cast hhi
  have hexact : ofRat micros = micros := by
    refine ofRat_eq_self (n := 53) (m := micros) (by simp) ?_
    rw [abs_of_nonneg hlo']
    norm_num
    linarith
  by_cases hearly : micros < 946684800000000
  · -- before 2000 all numbers are so small that the errors may add up
    have hearly' : (micros : ℚ) < 946684800000000 := by exact_mod_cast hearly
    have herror {q : ℚ} (hq : |q| < 1073741824) : |ofRat q - q| ≤ 1 / 16777216 := by
      have h := abs_ofRat_sub_le (q := q) (n := 30) (by norm_num; exact hq)
      norm_num at h
      exact h
    have hseconds := herror (q := (micros : ℚ) / 1000000) (by rw [abs_lt]; constructor <;> linarith)
    rw [abs_le] at hseconds
    have hepoch := herror (q := ofRat ((micros : ℚ) / 1000000) - 946684800)
      (by rw [abs_lt]; constructor <;> linarith)
    rw [abs_le] at hepoch
    refine toTimestamp_eq_of_close hexact 50 (1 / 8388608) rfl ?_ ?_ (by norm_num)
    · rw [abs_le]
      constructor <;> linarith
    · rw [abs_lt]
      norm_num
      constructor <;> linarith
  · have hlate : (946684800000000 : ℚ) ≤ micros := by exact_mod_cast not_lt.mp hearly
    have hdiff := ofRat_sub_epoch (s := (micros : ℚ) / 1000000) (by linarith) (by linarith)
    have hseconds := abs_ofRat_sub_le (q := (micros : ℚ) / 1000000) (n := 32) (by
      rw [abs_of_nonneg (by positivity)]
      norm_num
      linarith)
    norm_num at hseconds
    rw [abs_le] at hseconds
    refine toTimestamp_eq_of_close hexact 52 (1 / 4194304) hdiff ?_ ?_ (by norm_num)
    · rw [abs_le]
      constructor <;> linarith
    · rw [abs_lt]
      norm_num
      constructor <;> linarith

end Near

/-- The last millisecond of the year 9999. -/
example : toTimestamp 253402300799999000 = 253402300799999008 := by decide +kernel

/-- The tables hold an instant as it was given. -/
def TypedValue.Stored : TypedValue → Prop
  | .instant micros => toTimestamp micros.toInt = micros.toInt
  | _ => True

theorem TypedValue.stored_instant {micros : Int64} (hlo : 0 ≤ micros.toInt)
    (hhi : micros.toInt < 4294967296000000) : (TypedValue.instant micros).Stored :=
  toTimestamp_eq_self hlo hhi

instance TypedValue.decidableStored : ∀ v : TypedValue, Decidable v.Stored
  | .instant _ => inferInstanceAs (Decidable (_ = _))
  | .ref _ | .boolean _ | .long _ | .double _ | .text _ | .keyword _ | .uuid _ | .bytes _ =>
    isTrue trivial

end PgMentat

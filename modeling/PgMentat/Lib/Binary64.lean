import Mathlib.Algebra.Order.Floor.Ring
import Mathlib.Data.Rat.Floor
import Mathlib.Tactic.Linarith
import Mathlib.Tactic.NormNum
import Mathlib.Tactic.Positivity
import Mathlib.Tactic.GCongr
import Mathlib.Tactic.Ring

namespace Binary64

/-- The nearest integer, and the even one of two. -/
def roundEven (q : ℚ) : ℤ :=
  if q - q.floor < 1 / 2 ∨ q - q.floor = 1 / 2 ∧ q.floor % 2 = 0 then q.floor else q.floor + 1

/-- The exponent of the largest power of two that is not above a positive number. -/
def binade (q : ℚ) : ℤ :=
  let e : ℤ := q.num.natAbs.log2 - q.den.log2
  if (2 : ℚ) ^ e ≤ q then e else e - 1

/-- The distance of the doubles around a number. -/
def unit (q : ℚ) : ℚ := 2 ^ (binade |q| - 52)

/-- The nearest double of a number in the range of normal ones. -/
def ofRat (q : ℚ) : ℚ := roundEven (q / unit q) * unit q

theorem abs_roundEven_sub_le (q : ℚ) : |roundEven q - q| ≤ 1 / 2 := by
  have hlo : (q.floor : ℚ) ≤ q := Rat.floor_le q
  have hhi : q < q.floor + 1 := by exact_mod_cast Rat.lt_floor_add_one q
  unfold roundEven
  rw [abs_le]
  split
  · rename_i h
    constructor <;> rcases h with h | h <;> linarith
  · rename_i h
    have hfrac : 1 / 2 ≤ q - q.floor := not_lt.mp fun hlt => h (.inl hlt)
    push_cast
    constructor <;> linarith

theorem roundEven_eq {q : ℚ} {n : ℤ} (h : |q - n| < 1 / 2) : roundEven q = n := by
  have hround := abs_roundEven_sub_le q
  rw [abs_lt] at h
  rw [abs_le] at hround
  have hlo : (n : ℚ) - 1 < roundEven q := by linarith
  have hhi : (roundEven q : ℚ) < n + 1 := by linarith
  have hlo' : n - 1 < roundEven q := by exact_mod_cast hlo
  have hhi' : roundEven q < n + 1 := by exact_mod_cast hhi
  omega

theorem roundEven_intCast (n : ℤ) : roundEven n = n := roundEven_eq (by norm_num)

theorem unit_pos (q : ℚ) : 0 < unit q := zpow_pos two_pos _

theorem ofRat_zero : ofRat 0 = 0 := by
  have hround : roundEven 0 = 0 := roundEven_intCast 0
  rw [ofRat, zero_div, hround, Int.cast_zero, zero_mul]

theorem two_zpow_binade_le {q : ℚ} (h : 0 < q) : (2 : ℚ) ^ binade q ≤ q := by
  unfold binade
  dsimp only
  split
  · assumption
  · have hnum : 0 < q.num := Rat.num_pos.mpr h
    have hlog : 2 ^ q.num.natAbs.log2 ≤ q.num.natAbs := Nat.log2_self_le (by omega)
    have hden : q.den < 2 ^ (q.den.log2 + 1) := Nat.lt_log2_self
    have hcast : (q.num.natAbs : ℚ) = q.num := by
      rw [← Int.cast_natCast, Int.natAbs_of_nonneg hnum.le]
    have hlog' : (2 : ℚ) ^ q.num.natAbs.log2 ≤ q.num := by
      rw [← hcast]
      exact_mod_cast hlog
    have hden' : (q.den : ℚ) ≤ 2 ^ (q.den.log2 + 1) := by exact_mod_cast hden.le
    have hpos : (0 : ℚ) < q.den := by exact_mod_cast q.den_pos
    have heq : (2 : ℚ) ^ ((q.num.natAbs.log2 : ℤ) - q.den.log2 - 1) =
        2 ^ q.num.natAbs.log2 / 2 ^ (q.den.log2 + 1) := by
      rw [sub_sub, zpow_sub₀ two_ne_zero]
      norm_cast
    rw [heq]
    conv_rhs => rw [← Rat.num_div_den q]
    gcongr

theorem lt_two_zpow_binade {q : ℚ} (h : 0 < q) : q < 2 ^ (binade q + 1) := by
  unfold binade
  dsimp only
  split
  · have hnum : 0 < q.num := Rat.num_pos.mpr h
    have hlog : q.num.natAbs < 2 ^ (q.num.natAbs.log2 + 1) := Nat.lt_log2_self
    have hden : 2 ^ q.den.log2 ≤ q.den := Nat.log2_self_le q.den_nz
    have hcast : (q.num.natAbs : ℚ) = q.num := by
      rw [← Int.cast_natCast, Int.natAbs_of_nonneg hnum.le]
    have hlog' : (q.num : ℚ) < 2 ^ (q.num.natAbs.log2 + 1) := by
      rw [← hcast]
      exact_mod_cast hlog
    have hden' : (2 : ℚ) ^ q.den.log2 ≤ q.den := by exact_mod_cast hden
    have heq : (2 : ℚ) ^ ((q.num.natAbs.log2 : ℤ) - q.den.log2 + 1) =
        2 ^ (q.num.natAbs.log2 + 1) / 2 ^ q.den.log2 := by
      rw [sub_add_eq_add_sub, zpow_sub₀ two_ne_zero]
      norm_cast
    rw [heq]
    conv_lhs => rw [← Rat.num_div_den q]
    exact div_lt_div₀ hlog' hden' (by positivity) (by positivity)
  · rw [sub_add_cancel]
    exact not_le.mp ‹_›

theorem binade_lt {q : ℚ} {n : ℤ} (h : 0 < q) (hq : q < 2 ^ n) : binade q < n :=
  (zpow_lt_zpow_iff_right₀ one_lt_two).mp ((two_zpow_binade_le h).trans_lt hq)

theorem abs_ofRat_sub_le {q : ℚ} {n : ℤ} (h : |q| < 2 ^ n) : |ofRat q - q| ≤ 2 ^ (n - 54) := by
  rcases eq_or_ne q 0 with rfl | hne
  · rw [ofRat_zero, sub_zero, abs_zero]
    exact (zpow_pos two_pos _).le
  · have hunit := unit_pos q
    have hbinade := binade_lt (abs_pos.mpr hne) h
    have hle : unit q ≤ 2 ^ (n - 53) := zpow_le_zpow_right₀ one_le_two (by omega)
    have hsplit : ofRat q - q = (roundEven (q / unit q) - q / unit q) * unit q := by
      rw [ofRat, sub_mul, div_mul_cancel₀ _ hunit.ne']
    have hhalf : (2 : ℚ) ^ (n - 54) = 1 / 2 * 2 ^ (n - 53) := by
      rw [show n - 54 = -1 + (n - 53) by ring, zpow_add₀ two_ne_zero, zpow_neg_one, one_div]
    rw [hsplit, abs_mul, abs_of_pos hunit, hhalf]
    exact mul_le_mul (abs_roundEven_sub_le _) hle hunit.le (by norm_num)

/-- A multiple of a power of two that has no more than 53 bits is a double. -/
theorem ofRat_eq_self {q : ℚ} {n m : ℤ} (hm : q = m * 2 ^ (n - 53)) (hq : |q| < 2 ^ n) :
    ofRat q = q := by
  rcases eq_or_ne q 0 with rfl | hne
  · exact ofRat_zero
  · have hbinade := binade_lt (abs_pos.mpr hne) hq
    -- the unit divides the power of two
    obtain ⟨k, hk⟩ : ∃ k : ℕ, n - 53 = binade |q| - 52 + k :=
      ⟨(n - 53 - (binade |q| - 52)).toNat, by omega⟩
    have hdiv : q / unit q = ((m * 2 ^ k : ℤ) : ℚ) := by
      rw [div_eq_iff (unit_pos q).ne', unit]
      conv_lhs => rw [hm, hk, zpow_add₀ two_ne_zero, zpow_natCast]
      push_cast
      ring
    rw [ofRat, hdiv, roundEven_intCast, ← hdiv, div_mul_cancel₀ _ (unit_pos q).ne']

end Binary64

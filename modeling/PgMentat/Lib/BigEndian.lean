import Mathlib.Algebra.Group.Nat.Defs
import Mathlib.Data.List.Induction
import Mathlib.Data.Nat.Init
import Mathlib.Tactic.Common

namespace BigEndian

/-- The last `k` bytes of a number, the highest first. -/
def bigEndian : Nat → Nat → List UInt8
  | 0, _ => []
  | k + 1, n => bigEndian k (n / 256) ++ [UInt8.ofNat n]

def ofBigEndian (bs : List UInt8) : Nat := bs.foldl (fun n b => 256 * n + b.toNat) 0

/-- The number that `k` bytes hold in two's complement. -/
def signed (k : Nat) (n : Nat) : Int := if 2 * n < 256 ^ k then n else n - (256 ^ k : Nat)

theorem length_bigEndian (k n : Nat) : (bigEndian k n).length = k := by
  induction k generalizing n with
  | zero => rfl
  | succ k ih => simp [bigEndian, ih]

theorem ofBigEndian_bigEndian (k n : Nat) : ofBigEndian (bigEndian k n) = n % 256 ^ k := by
  induction k generalizing n with
  | zero => simp [bigEndian, ofBigEndian, Nat.mod_one]
  | succ k ih =>
    have hlast : (UInt8.ofNat n).toNat = n % 256 := UInt8.toNat_ofNat'
    have hfirst := ih (n / 256)
    unfold ofBigEndian at hfirst ⊢
    rw [bigEndian, List.foldl_append, hfirst, List.foldl_cons, List.foldl_nil, hlast]
    rw [Nat.pow_succ, Nat.mul_comm (256 ^ k) 256, Nat.mod_mul]
    omega

theorem ofBigEndian_lt (bs : List UInt8) : ofBigEndian bs < 256 ^ bs.length := by
  induction bs using List.reverseRecOn with
  | nil => exact Nat.one_pos
  | append_singleton bs b ih =>
    have hbyte : b.toNat < 256 := b.toNat_lt
    unfold ofBigEndian at ih ⊢
    rw [List.foldl_append, List.foldl_cons, List.foldl_nil, List.length_append,
      List.length_singleton, Nat.pow_succ]
    omega

theorem signed_emod {k : Nat} {m : Int} (hlo : -(256 ^ k : Nat) ≤ 2 * m)
    (hhi : 2 * m < (256 ^ k : Nat)) : signed k (m % (256 ^ k : Nat)).toNat = m := by
  have hpos : 0 < 256 ^ k := Nat.pow_pos (by decide)
  unfold signed
  generalize 256 ^ k = b at *
  by_cases hm : 0 ≤ m
  · have hmod : m % (b : Int) = m := Int.emod_eq_of_lt hm (by omega)
    rw [hmod, if_pos (by omega)]
    omega
  · have hmod : m % (b : Int) = m + b := by
      rw [← Int.add_emod_right]
      exact Int.emod_eq_of_lt (by omega) (by omega)
    rw [hmod, if_neg (by omega)]
    omega

end BigEndian

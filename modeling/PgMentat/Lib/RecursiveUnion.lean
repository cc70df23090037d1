import Mathlib.Data.List.Perm.Basic

namespace RecursiveUnion

open List

variable {Row : Type} {step : Row → List Row} {n m : Nat} {working : List Row}

def fetch (step : Row → List Row) : Nat → Option Nat → List Row → Option (List Row)
  | 0, _, _ => none
  | fuel + 1, limit, working =>
    if working.isEmpty then some []
    else
      match limit with
      | none => (fetch step fuel none (working.flatMap step)).map (working ++ ·)
      | some n =>
        if n ≤ working.length then some (working.take n)
        else (fetch step fuel (some (n - working.length)) (working.flatMap step)).map (working ++ ·)

/-- The rows that the step leads to in at most `n` rounds. -/
def within (step : Row → List Row) : Nat → List Row → List Row
  | 0, working => working
  | n + 1, working => working ++ within step n (working.flatMap step)

theorem within_nil (step : Row → List Row) (n : Nat) : within step n [] = [] := by
  induction n with
  | zero => rfl
  | succ n ih => simpa [within] using ih

theorem take_within (h : n ≤ working.length) : (within step m working).take n = working.take n := by
  cases m with
  | zero => rfl
  | succ m => rw [within, take_append_of_le_length h]

/-- A round that is not the last one returns a row, so that a limit of `n` rows ends the query after
`n` rounds, also if the step leads round in circles. -/
theorem fetch_limit {fuel : Nat} (hfuel : n < fuel) (hm : n ≤ m) :
    fetch step fuel (some n) working = some ((within step m working).take n) := by
  induction fuel generalizing n m working with
  | zero => omega
  | succ fuel ih =>
    rw [fetch]
    by_cases hempty : working.isEmpty
    · rw [if_pos hempty, isEmpty_iff.mp hempty, within_nil, take_nil]
    · rw [if_neg hempty]
      have hpos : 0 < working.length := by
        apply length_pos_iff.mpr
        simpa using hempty
      by_cases hlimit : n ≤ working.length
      · simp only [if_pos hlimit, take_within hlimit]
      · obtain ⟨m, rfl⟩ : ∃ k, m = k + 1 := ⟨m - 1, by omega⟩
        have hrest : fetch step fuel (some (n - working.length)) (working.flatMap step) =
            some ((within step m (working.flatMap step)).take (n - working.length)) :=
          ih (by omega) (by omega)
        simp only [if_neg hlimit, hrest, Option.map_some, within]
        rw [take_append, take_of_length_le (l := working) (by omega)]

/-- A limit on the rows is no limit on the rounds: what is fetched is what `n` rounds lead to only
if these are at most `n` rows. -/
theorem perm_take_within_iff :
    ((within step n working).take n).Perm (within step n working) ↔
      (within step n working).length ≤ n := by
  constructor
  · intro h
    have hlength := h.length_eq
    rw [length_take] at hlength
    omega
  · intro h
    rw [take_of_length_le h]

end RecursiveUnion

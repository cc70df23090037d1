import Mathlib.Tactic.Common

namespace PgMentat

/-- The seconds that chrono can represent. -/
structure ChronoRange where
  first : Int
  last : Int
  first_le : first ≤ 0
  le_last : 0 ≤ last

/-- Seconds after the epoch, and nanoseconds after those. -/
structure DateTime where
  timestamp : Int
  subsecNanos : Nat
  deriving DecidableEq

namespace DateTime

/-- The time denoted, in nanoseconds after the epoch. -/
def sinceEpoch (d : DateTime) : Int := d.timestamp * 1000000000 + d.subsecNanos

def toMicros (d : DateTime) : Int := d.timestamp * 1000000 + (d.subsecNanos / 1000 : Nat)

def toMillis (d : DateTime) : Int := d.timestamp * 1000 + (d.subsecNanos / 1000000 : Nat)

section Conversions

variable (range : ChronoRange) (perSecond : Int) (ts : Int64)

def timestampOpt (secs : Int) (nanos : Nat) : Option DateTime :=
  if range.first ≤ secs ∧ secs ≤ range.last ∧ nanos < 1000000000 then some ⟨secs, nanos⟩ else none

/-- From units of which a second has so many. A panic of `unwrap` is `none`. -/
def fromUnits : Option DateTime :=
  timestampOpt range (ts.toInt.tdiv perSecond) ((ts.toInt.tmod perSecond).natAbs * 1000)

def fromMicros : Option DateTime := fromUnits range 1000000 ts

def fromMillis : Option DateTime := fromUnits range 1000 ts

def Represents : Prop :=
  range.first ≤ ts.toInt / perSecond ∧ ts.toInt / perSecond ≤ range.last

end Conversions

variable {range : ChronoRange}

/-- Where there is a remainder before the epoch, the seconds are rounded up, and the remainder is
the distance to them. -/
theorem tdiv_tmod_cases {perSecond : Int} (hper : perSecond = 1000000 ∨ perSecond = 1000)
    (t : Int) :
    (0 ≤ t ∨ t % perSecond = 0) ∧ t.tdiv perSecond = t / perSecond ∧
        (t.tmod perSecond).natAbs = t % perSecond ∨
      t < 0 ∧ t % perSecond ≠ 0 ∧ t.tdiv perSecond = t / perSecond + 1 ∧
        (t.tmod perSecond).natAbs = perSecond - t % perSecond := by
  rw [Int.tdiv_eq_ediv, Int.tmod_eq_emod, Int.sign_eq_one_of_pos (by omega)]
  obtain rfl | rfl := hper
  · split <;> omega
  · split <;> omega

/-- The conversions never panic. Microseconds are converted to the time they denote, and back,
exactly after the epoch and on whole seconds, milliseconds only on whole seconds. -/
theorem conversions_inverse_iff {micros millis : Int64} (hmicros : Represents range 1000000 micros)
    (hmillis : Represents range 1000 millis) :
    (∃ d, fromMicros range micros = some d ∧
      (toMicros d = micros.toInt ∧ d.sinceEpoch = micros.toInt * 1000 ↔
        0 ≤ micros.toInt ∨ micros.toInt % 1000000 = 0)) ∧
    ∃ d, fromMillis range millis = some d ∧
      (toMillis d = millis.toInt ∧ d.sinceEpoch = millis.toInt * 1000000 ↔
        millis.toInt % 1000 = 0) := by
  have hfirst := range.first_le
  have hlast := range.le_last
  have hmicro := tdiv_tmod_cases (.inl rfl) micros.toInt
  have hmilli := tdiv_tmod_cases (.inr rfl) millis.toInt
  unfold Represents at hmicros hmillis
  refine ⟨⟨_, if_pos ⟨by omega, by omega, by omega⟩, ?_⟩, _,
    if_pos ⟨by omega, by omega, by omega⟩, ?_⟩
  · simp only [toMicros, sinceEpoch]
    omega
  · simp only [toMillis, sinceEpoch]
    omega

/-- The years -262143 to 262142. -/
def chronoRange : ChronoRange := ⟨-8334601228800, 8210266876799, by decide, by decide⟩

theorem conversions_inverse_iff_seconds :
    (∃ d, fromMicros chronoRange 1500000 = some d ∧ toMicros d = 1500000 ∧
      d.sinceEpoch = 1500000000) ∧
    ∃ d, fromMillis chronoRange (-2000) = some d ∧ toMillis d = -2000 ∧
      d.sinceEpoch = -2000000000 := by
  have hmicros : Represents chronoRange 1000000 1500000 := ⟨by decide, by decide⟩
  have hmillis : Represents chronoRange 1000 (-2000) := ⟨by decide, by decide⟩
  obtain ⟨⟨d, hd, hiff⟩, d', hd', hiff'⟩ := conversions_inverse_iff hmicros hmillis
  exact ⟨⟨d, hd, hiff.mpr (by decide)⟩, d', hd', hiff'.mpr (by decide)⟩

/-- A microsecond before the epoch becomes one after it, and a millisecond becomes a microsecond,
which is read back as no millisecond. -/
theorem conversions_not_inverse :
    (fromMicros chronoRange (-1)).map toMicros = some 1 ∧
      (fromMicros chronoRange (-1)).map sinceEpoch = some 1000 ∧
      (fromMillis chronoRange 1).map toMillis = some 0 ∧
      (fromMillis chronoRange 1).map sinceEpoch = some 1000 := by
  decide

end DateTime

end PgMentat

import PgMentat.Read.Pull
import PgMentat.Run

namespace PgMentat

/-- The least `timestamptz`, 4713-11-24 BC, in microseconds. -/
def minTimestamptz : Int := -210866803200000000

/-- The seconds of the instant are rounded down: its fraction is less than half a second, or it is
half a second before the epoch, where the cast rounds away from zero. -/
def RoundsDown (micros : Int) : Prop :=
  micros % 1000000 < 500000 ∨ (micros % 1000000 = 500000 ∧ micros < 0)

instance RoundsDown.decidable (micros : Int) : Decidable (RoundsDown micros) :=
  inferInstanceAs (Decidable (_ ∨ _))

namespace TypedValue

theorem roundedSeconds_eq (micros : Int) :
    roundedSeconds micros =
      if RoundsDown micros then micros / 1000000 else micros / 1000000 + 1 := by
  by_cases hdown : RoundsDown micros
  · rw [if_pos hdown]
    unfold RoundsDown at hdown
    unfold roundedSeconds
    split <;> omega
  · rw [if_neg hdown]
    unfold RoundsDown at hdown
    unfold roundedSeconds
    split <;> omega

theorem roundedSeconds_add_fraction (micros : Int) :
    roundedSeconds micros * 1000000 + micros % 1000000 =
      if RoundsDown micros then micros else micros + 1000000 := by
  rw [roundedSeconds_eq]
  split <;> omega

end TypedValue

theorem bigint_of_bounds {n : Int} (hlo : -2 ^ 63 ≤ n) (hhi : n < 2 ^ 63) :
    bigint n = .ok (Int64.ofInt n) := if_pos ⟨hlo, hhi⟩

theorem toInt_of_bigint {n : Int} {m : Int64} (h : bigint n = .ok m) : m.toInt = n := by
  unfold bigint at h
  split at h
  · next hn =>
    cases h
    exact Int64.toInt_ofInt_of_le hn.1 hn.2
  · cases h

theorem toInt_of_extractMicros {micros n : Int64} (h : extractMicros micros = .ok n) :
    n.toInt = if RoundsDown micros.toInt then micros.toInt else micros.toInt + 1000000 := by
  obtain ⟨whole, hwhole, hsum⟩ := Unification.bind_eq_ok h
  rw [toInt_of_bigint hsum, toInt_of_bigint hwhole]
  exact TypedValue.roundedSeconds_add_fraction micros.toInt

theorem extractMicros_of_roundsDown {micros : Int64} (hmin : minTimestamptz ≤ micros.toInt)
    (h : RoundsDown micros.toInt) : extractMicros micros = .ok micros := by
  have hmax := Int64.toInt_lt micros
  have hwhole : TypedValue.roundedSeconds micros.toInt = micros.toInt / 1000000 := by
    rw [TypedValue.roundedSeconds_eq, if_pos h]
  have hsum : micros.toInt / 1000000 * 1000000 + micros.toInt % 1000000 = micros.toInt := by
    omega
  unfold minTimestamptz at hmin
  have hlo : -2 ^ 63 ≤ micros.toInt / 1000000 * 1000000 := by omega
  have hhi : micros.toInt / 1000000 * 1000000 < 2 ^ 63 := by omega
  unfold extractMicros
  rw [hwhole, bigint_of_bounds hlo hhi]
  change bigint ((Int64.ofInt _).toInt + _) = _
  rw [Int64.toInt_ofInt_of_le hlo hhi, hsum, bigint_of_bounds (by omega) hmax, Int64.ofInt_toInt]

theorem extractMicros_eq_iff {micros : Int64} (hmin : minTimestamptz ≤ micros.toInt) :
    extractMicros micros = .ok micros ↔ RoundsDown micros.toInt := by
  constructor
  · intro h
    by_contra hup
    have hn := toInt_of_extractMicros h
    rw [if_neg hup] at hn
    omega
  · exact extractMicros_of_roundsDown hmin

theorem decodeRowTypedValue_instant (micros : Int64) :
    decodeRowTypedValue (.instant micros) = (extractMicros micros).map .integer := by
  simp only [decodeRowTypedValue]
  cases extractMicros micros <;> rfl

theorem entityValue_instant (c : SchemaCache) (micros : Int64) :
    entityValue c (.instant micros) = (extractMicros micros).map .integer := by
  simp only [entityValue, entityText]
  cases extractMicros micros with
  | error msg => rfl
  | ok n =>
    change decodeTextValue .instant (toString n.toInt) = _
    simp only [decodeTextValue, TypedValue.parseI64_toString]
    rfl

theorem JsonValue.integer_injective : Function.Injective JsonValue.integer := by
  intro n m h
  injection h with h
  injection h

theorem map_integer_eq_iff {x : Except String Int64} {n : Int64} :
    x.map JsonValue.integer = .ok (.integer n) ↔ x = .ok n := by
  cases x with
  | error msg =>
    constructor
    · intro h
      cases h
    · intro h
      cases h
  | ok m =>
    constructor
    · intro h
      injection h with h
      rw [JsonValue.integer_injective h]
    · intro h
      injection h with h
      rw [h]
      rfl

/-- Both functions return the microseconds of a stored instant if and only if its seconds are
rounded down. -/
theorem instant_readback_iff (c : SchemaCache) (micros : Int64)
    (hmin : minTimestamptz ≤ micros.toInt) :
    (decodeRowTypedValue (.instant micros) = .ok (.integer micros) ∧
      entityValue c (.instant micros) = .ok (.integer micros)) ↔ RoundsDown micros.toInt := by
  rw [decodeRowTypedValue_instant, entityValue_instant, map_integer_eq_iff, and_self,
    extractMicros_eq_iff hmin]

/-- Three quarters of a second before the epoch. -/
theorem instant_readback_iff_quarter :
    decodeRowTypedValue (.instant (-750000)) = .ok (.integer (-750000)) ∧
      entityValue ⟨[], []⟩ (.instant (-750000)) = .ok (.integer (-750000)) :=
  (instant_readback_iff ⟨[], []⟩ (-750000) (by decide)).mpr (by decide)

/-- A transaction 1.6 seconds after the epoch. -/
def lateCall : Call := plainCall 1000000000001 1600000 []

/-- The instant of the transaction is stored as it is, and read as 2.6 seconds. -/
theorem instant_readback_late :
    ∃ db entity pulled, stateAfter [lateCall] = some db ∧
      (db.current.filter fun x => x.e = 1000000000001).map CurrentRow.v = [.instant 1600000] ∧
      mentatEntity .heap db 1000000000001 = .ok entity ∧
      (entity.values ":db/txInstant").map JsonValue.asI64 = [some 2600000] ∧
      mentatPullAll .heap db 1000000000001 = .ok pulled ∧
      (pulled.values ":db/txInstant").map JsonValue.asI64 = [some 2600000] := by
  have hstate : ∃ db, stateAfter [lateCall] = some db ∧
      (db.current.filter fun x => x.e = 1000000000001).map CurrentRow.v = [.instant 1600000] ∧
      ∃ m, mentatEntity .heap db 1000000000001 = .ok m ∧
        (m.values ":db/txInstant").map JsonValue.asI64 = [some 2600000] ∧
      ∃ m', mentatPullAll .heap db 1000000000001 = .ok m' ∧
        (m'.values ":db/txInstant").map JsonValue.asI64 = [some 2600000] := by
    decide +kernel
  obtain ⟨db, hdb, hstored, m, hm, hread, m', hm'⟩ := hstate
  exact ⟨db, m, m', hdb, hstored, hm, hread, hm'⟩

end PgMentat

import Mathlib.Algebra.Group.Nat.Defs
import PgMentat.Lib.JsonRead
import PgMentat.Mentatd.Protocol
import PgMentat.ValueCodec

namespace PgMentat

open JsonRead TextCodec

def serdeNumber (fmt : FloatFormat) (literal : List Char) : Json :=
  -- the negative zero is a float
  if literal = ['-', '0'] then .float (fmt.ofText literal)
  else
    match TypedValue.parseI64 literal with
    | some n => .integer n
    | none =>
      match parseNat literal with
      | some n => if n < 2 ^ 64 then .unsigned (UInt64.ofNat n) else .float (fmt.ofText literal)
      | none => .float (fmt.ofText literal)

/-- `BTreeMap::insert`. -/
def JsonObject.insertSorted (m : JsonObject) (key : String) (v : JsonValue) : JsonObject :=
  match m with
  | [] => [(key, v)]
  | (k, w) :: rest =>
    if key = k then (key, v) :: rest
    else if key < k then (key, v) :: (k, w) :: rest
    else (k, w) :: insertSorted rest key v

mutual

def serdeValue (fmt : FloatFormat) : Tree → JsonValue
  | .null => .scalar .null
  | .bool b => .scalar (.bool b)
  | .number literal => .scalar (serdeNumber fmt literal)
  | .string s => .string s
  | .array items => .array (serdeItems fmt items)
  | .object members => .object (serdeMembers fmt members [])

def serdeItems (fmt : FloatFormat) : List Tree → List JsonValue
  | [] => []
  | item :: items => serdeValue fmt item :: serdeItems fmt items

def serdeMembers (fmt : FloatFormat) : List (String × Tree) → JsonObject → JsonObject
  | [], m => m
  | (key, value) :: members, m =>
    serdeMembers fmt members (m.insertSorted key (serdeValue fmt value))

end

def fromStr (fmt : FloatFormat) (text : List Char) : Option JsonValue :=
  (parse text).map (serdeValue fmt)

section

variable (fmt : FloatFormat)

theorem serdeItems_eq_map (items : List Tree) :
    serdeItems fmt items = items.map (serdeValue fmt) := by
  induction items with
  | nil => rfl
  | cons item items ih => rw [serdeItems, ih, List.map_cons]

theorem serdeNumber_toString (n : Int64) :
    serdeNumber fmt (toString n.toInt).toList = .integer n := by
  have hzero : (toString n.toInt).toList ≠ ['-', '0'] := by
    intro h
    have hparse := parseInt_toString n.toInt
    rw [h] at hparse
    have hn : n.toInt = 0 := Option.some.inj hparse.symm
    rw [hn] at h
    exact absurd h (by decide)
  rw [serdeNumber, if_neg hzero, TypedValue.parseI64_toString]

theorem JsonObject.lookup_insertSorted (m : JsonObject) (key key' : String) (v : JsonValue) :
    (m.insertSorted key v).lookup key' = if key' = key then some v else m.lookup key' := by
  induction m with
  | nil => exact lookup_cons [] key key' v
  | cons entry rest ih =>
    obtain ⟨k, w⟩ := entry
    unfold insertSorted
    by_cases hk : key = k
    · subst hk
      rw [if_pos rfl, lookup_cons, lookup_cons]
      by_cases h : key' = key <;> simp only [h, if_true, if_false]
    · rw [if_neg hk]
      by_cases hlt : key < k
      · rw [if_pos hlt, lookup_cons]
      · rw [if_neg hlt, lookup_cons, lookup_cons, ih]
        by_cases h : key' = k
        · rw [if_pos h, if_neg (fun h' => hk (h'.symm.trans h)), if_pos h]
        · rw [if_neg h, if_neg h]

end

/-- For texts without floats. -/
def noFloatFormat : FloatFormat := ⟨fun _ => 0, fun _ => .nan, fun _ => .nan, fun _ _ => rfl⟩

end PgMentat

import PgMentat.Query.Render

namespace PgMentat

/-- `serde_json::Value`. -/
inductive JsonValue where
  | scalar (j : Json)
  | array (items : List JsonValue)
  | object (entries : List (String × JsonValue))

namespace JsonValue

def get? (key : String) : JsonValue → Option JsonValue
  | object entries => entries.lookup key
  | _ => none

def asArray : JsonValue → Option (List JsonValue)
  | array items => some items
  | _ => none

def asI64 : JsonValue → Option Int64
  | scalar (.integer n) => some n
  | _ => none

def integer (n : Int64) : JsonValue := scalar (.integer n)

def string (s : String) : JsonValue := scalar (.string s)

end JsonValue

/-- `serde_json::Map`. -/
abbrev JsonObject := List (String × JsonValue)

namespace JsonObject

def insert (m : JsonObject) (key : String) (v : JsonValue) : JsonObject :=
  match m with
  | [] => [(key, v)]
  | (k, w) :: rest => if k = key then (k, v) :: rest else (k, w) :: insert rest key v

def values (m : JsonObject) (key : String) : List JsonValue :=
  match m.lookup key with
  | none => []
  | some (.array items) => items
  | some v => [v]

theorem lookup_cons (m : JsonObject) (key key' : String) (v : JsonValue) :
    List.lookup key' ((key, v) :: m) = if key' = key then some v else m.lookup key' := by
  by_cases h : key' = key
  · rw [h, List.lookup_cons_self, if_pos rfl]
  · rw [List.lookup_cons, beq_false_of_ne h, if_neg h]

theorem lookup_insert (m : JsonObject) (key key' : String) (v : JsonValue) :
    (m.insert key v).lookup key' = if key' = key then some v else m.lookup key' := by
  induction m with
  | nil => exact lookup_cons [] key key' v
  | cons entry rest ih =>
    obtain ⟨k, w⟩ := entry
    unfold insert
    by_cases hk : k = key
    · subst hk
      rw [if_pos rfl, lookup_cons, lookup_cons]
      by_cases h : key' = k <;> simp only [h, if_true, if_false]
    · rw [if_neg hk, lookup_cons, lookup_cons, ih]
      by_cases h : key' = k
      · rw [if_pos h, if_neg (h ▸ hk), if_pos h]
      · rw [if_neg h, if_neg h]

theorem values_insert_ne (m : JsonObject) {key key' : String} (v : JsonValue) (h : key' ≠ key) :
    (m.insert key v).values key' = m.values key' := by
  rw [values, values, lookup_insert, if_neg h]

end JsonObject

/-- A value that stands for itself under a key. -/
def JsonValue.Single : JsonValue → Prop
  | .array _ => False
  | _ => True

theorem JsonObject.values_insert {m : JsonObject} {key : String} {v : JsonValue} (h : v.Single) :
    (m.insert key v).values key = [v] := by
  rw [values, lookup_insert, if_pos rfl]
  cases v with
  | array items => exact h.elim
  | _ => rfl

theorem JsonObject.values_insert_array {m : JsonObject} {key : String} {items : List JsonValue} :
    (m.insert key (.array items)).values key = items := by
  rw [values, lookup_insert, if_pos rfl]

end PgMentat

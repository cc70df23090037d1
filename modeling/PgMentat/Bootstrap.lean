import PgMentat.Transact.Body

namespace PgMentat

/-- A bootstrap attribute: single-valued, with no flag set. -/
def bootstrapRow (entid : Int64) (ident : String) (valueType : ValueType) : SchemaRow where
  entid := entid
  ident := ident
  valueType := valueType
  cardinality := .one
  uniqueConstraint := none
  indexed := false
  fulltext := false
  component := false
  noHistory := false

def bootstrapSchema : List SchemaRow :=
  [{ bootstrapRow 10 ":db/ident" .keyword with
      uniqueConstraint := some .identity, indexed := true },
   bootstrapRow 11 ":db/valueType" .ref,
   bootstrapRow 12 ":db/cardinality" .ref,
   bootstrapRow 13 ":db/unique" .ref,
   bootstrapRow 14 ":db/index" .boolean,
   bootstrapRow 15 ":db/fulltext" .boolean,
   bootstrapRow 16 ":db/component" .boolean,
   bootstrapRow 17 ":db/noHistory" .boolean,
   bootstrapRow 18 ":db/isComponent" .boolean,
   bootstrapRow 19 ":db/doc" .string,
   { bootstrapRow 50 ":db/txInstant" .instant with indexed := true },
   { bootstrapRow 60 ":db.install/partition" .ref with cardinality := .many },
   { bootstrapRow 61 ":db.install/attribute" .ref with cardinality := .many },
   bootstrapRow 70 ":db.type/ref" .ref,
   bootstrapRow 71 ":db.type/keyword" .ref,
   bootstrapRow 72 ":db.type/long" .ref,
   bootstrapRow 73 ":db.type/double" .ref,
   bootstrapRow 74 ":db.type/string" .ref,
   bootstrapRow 75 ":db.type/boolean" .ref,
   bootstrapRow 76 ":db.type/instant" .ref,
   bootstrapRow 77 ":db.type/uuid" .ref,
   bootstrapRow 78 ":db.type/bytes" .ref,
   bootstrapRow 80 ":db.cardinality/one" .ref,
   bootstrapRow 81 ":db.cardinality/many" .ref,
   bootstrapRow 82 ":db.unique/value" .ref,
   bootstrapRow 83 ":db.unique/identity" .ref,
   bootstrapRow 90 ":db.part/db" .ref,
   bootstrapRow 91 ":db.part/user" .ref,
   bootstrapRow 92 ":db.part/tx" .ref]

def bootstrapDb : Db where
  log := []
  current := []
  schema := bootstrapSchema
  idents := bootstrapSchema.map fun r => ⟨r.ident, r.entid⟩
  -- 2025-01-01T00:00:00Z
  transactions := [⟨1000000, 1735689600000000⟩]
  fulltext := []

end PgMentat

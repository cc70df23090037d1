import PgMentat.Query.Compile

namespace PgMentat

abbrev Assignment := String → TypedValue

instance : Inhabited TypedValue := ⟨.ref 0⟩

def Db.named (db : Db) (k : Keyword) : Option Int64 := IdentTable.idents.entid db k.display

def Db.attributeNamed (db : Db) (k : Keyword) : Option Int64 :=
  IdentTable.schema.entid db k.display

def Db.declaredType (db : Db) (a : Int64) : Option ValueType :=
  (db.cache.getAttribute a).map SchemaRow.valueType

def PatternNonValuePlace.Denotes (named : Keyword → Option Int64) (σ : Assignment) (id : Int64) :
    PatternNonValuePlace → Prop
  | .placeholder => True
  | .variable x => σ x = .ref id
  | .entid n => n = id
  | .ident k => named k = some id

def NonIntegerConstant.typed : NonIntegerConstant → Option TypedValue
  | boolean b => some (.boolean b)
  | bigInteger _ => none
  | float f => some (.double f)
  | text s => some (.text s)
  | instant micros => some (.instant micros)
  | uuid u => some (.uuid u)

/-- A value place next to an attribute of the given type, under which an integer or an ident may
stand for an entity. -/
def PatternValuePlace.Denotes (db : Db) (type : Option ValueType) (σ : Assignment)
    (v : TypedValue) : PatternValuePlace → Prop
  | .placeholder => True
  | .variable x => σ x = v
  | .entidOrInteger i => v = if type = some .ref then .ref i else .long i
  | .identOrKeyword k =>
    if type = some .ref then ∃ id, db.named k = some id ∧ v = .ref id else v = .keyword k.stored
  | .constant c => c.typed = some v

/-- The pattern is the datom `r`, its constants typed by the declared type of the attribute. -/
def Pattern.Matches (db : Db) (σ : Assignment) (p : Pattern) (r : CurrentRow) : Prop :=
  p.entity.Denotes db.named σ r.e ∧ p.attr.Denotes db.attributeNamed σ r.a ∧
    p.value.Denotes db (db.declaredType r.a) σ r.v ∧ p.tx.Denotes db.named σ r.tx

/-- The answers of a query over a relation of datoms. -/
def Query.Answers (db : Db) (R : CurrentRow → Prop) (q : Query) (row : List TypedValue) : Prop :=
  ∃ σ, (∀ p ∈ q.patterns, ∃ r, R r ∧ p.Matches db σ r) ∧ q.find.map σ = row

/-- The fifth place of a pattern is left out. -/
def Query.FourPlaces (q : Query) : Prop := ∀ p ∈ q.patterns, p.added = .placeholder

/-- A constant is taken for an entity only if it is an integer and the attribute is a constant. -/
def PatternValuePlace.Reads (type : Option ValueType) (σ : Assignment) (v : TypedValue) :
    PatternValuePlace → Prop
  | .placeholder => True
  | .variable x => σ x = v
  | .entidOrInteger i => v = if type = some .ref then .ref i else .long i
  | .identOrKeyword k => v = .keyword k.stored
  | .constant c => c.typed = some v

/-- An ident in the place of the transaction says nothing. -/
def PatternNonValuePlace.ReadsTx (σ : Assignment) (tx : Int64) : PatternNonValuePlace → Prop
  | .placeholder | .ident _ => True
  | .variable x => σ x = .ref tx
  | .entid n => n = tx

def PatternNonValuePlace.ReadsAdded (σ : Assignment) (added : Bool) : PatternNonValuePlace → Prop
  | .variable x => σ x = .boolean added
  | _ => True

def Pattern.Reads (db : Db) (σ : Assignment) (p : Pattern) (r : LogRow) : Prop :=
  p.entity.Denotes db.named σ r.e ∧ p.attr.Denotes db.attributeNamed σ r.a ∧
    p.value.Reads (resolvePatternValueType db.cache p.attr) σ r.v ∧ p.tx.ReadsTx σ r.tx ∧
    p.added.ReadsAdded σ r.added

/-- The rows that the temporal options let through. -/
def TemporalOption.Admits (temporal : TemporalOption) (db : Db) (attr : PatternNonValuePlace)
    (r : LogRow) : Prop :=
  (temporal.history = false → r.added = true) ∧
  (∀ tx ∈ temporal.asOf, r.tx ≤ tx ∧ (isCardinalityMany db.cache attr = false →
    ∀ newer ∈ newerRows db (resolvePatternValueType db.cache attr), ¬ r.SupersededBy tx newer)) ∧
  ∀ tx ∈ temporal.since, tx < r.tx

/-- A row of the pattern's subquery that the conditions on it let through. -/
def Pattern.Sees (db : Db) (temporal : TemporalOption) (p : Pattern) (r : LogRow) : Prop :=
  r ∈ (patternSource db.cache temporal p.attr).rows db ∧ temporal.Admits db p.attr r

def TypedValue.json (fmt : FloatFormat) (v : TypedValue) : Json :=
  decodeTextResult fmt (valueDecodeExpr fmt v)

end PgMentat

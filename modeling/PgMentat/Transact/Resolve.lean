import PgMentat.Statement

namespace PgMentat

open StatementProgram

structure PendingDatom where
  e : Int64
  a : Int64
  v : TypedValue
  added : Bool
  deriving DecidableEq, Repr

/-- `tempid_map`. -/
abbrev Tempids := List (String × Int64)

/-- A `BTreeMap` keyed by entity ids. -/
abbrev EntidMap (β : Type) := List (Int64 × β)

namespace EntidMap

variable {β : Type}

/-- Replace the value at `k`, or insert it at its place in the key order. -/
def insert (m : EntidMap β) (k : Int64) (v : β) : EntidMap β :=
  match m with
  | [] => [(k, v)]
  | (k', v') :: rest =>
    if k = k' then (k, v) :: rest
    else if k < k' then (k, v) :: (k', v') :: rest
    else (k', v') :: insert rest k v

end EntidMap

def keywordToValueType (k : Keyword) : Option ValueType :=
  match k.name with
  | "ref" => some .ref
  | "boolean" => some .boolean
  | "instant" => some .instant
  | "long" => some .long
  | "double" => some .double
  | "string" => some .string
  | "keyword" => some .keyword
  | "uuid" => some .uuid
  | "bytes" => some .bytes
  | _ => none

def keywordToCardinality (k : Keyword) : Option Cardinality :=
  match k.name with
  | "one" => some .one
  | "many" => some .many
  | _ => none

def keywordToUnique (k : Keyword) : Option UniqueType :=
  match k.name with
  | "value" => some .value
  | "identity" => some .identity
  | _ => none

def resolveAttribute (c : SchemaCache) : EdnValue → Except MentatError Int64
  | .integer i => .ok i
  | .keyword k =>
    match c.resolveIdent k.display with
    | some a => .ok a
    | none => .error (.attributeNotFound k.display)
  | other => .error (.invalidAttribute other.typeName other)

def tryResolveAttribute (c : SchemaCache) : EdnValue → Option Int64
  | .integer i => some i
  | .keyword k => c.resolveIdent k.display
  | _ => none

def encodeValue : EdnValue → Except MentatError TypedValue
  | .boolean b => .ok (.boolean b)
  | .integer i => .ok (.long i)
  | .text s => .ok (.text s)
  | .float f => .ok (.double f)
  | .instant micros => .ok (.instant micros)
  | .uuid u => .ok (.uuid u)
  | .bytes bs => .ok (.bytes bs)
  | .keyword k => .ok (.keyword k.stored)
  | other => .error (.unsupportedValueType other.typeName other)

def checkUniqueTypedValue (a : Int64) (v : TypedValue) : Tx (Option Int64) :=
  spi (.selectUnique a v)

/-- `[attr value]`, the attribute being a keyword. -/
def resolveLookupRef (c : SchemaCache) (attr value : EdnValue) : Tx Int64 := do
  let a ← .ofExcept (resolveAttribute c attr)
  match c.getAttribute a with
  | none => .fail (.attributeNotFound (c.display a))
  | some info =>
    if info.uniqueConstraint.isNone then .fail (.lookupRefRequiresUnique (c.display a))
    else do
      let v ← .ofExcept (encodeValue value)
      match ← checkUniqueTypedValue a v with
      | some e => return e
      | none => .fail (.lookupRefNotFound (c.display a)
          "Ensure an entity with this attribute value has been transacted.")

def resolveEntityPlace (c : SchemaCache) (tempids : Tempids) : EdnValue → Tx (Int64 × Tempids)
  | .integer i => return (i, tempids)
  | .text s =>
    match tempids.lookup s with
    | some id => return (id, tempids)
    | none => do
      let id ← spi .nextvalUser
      return (id, tempids ++ [(s, id)])
  | .keyword k =>
    match c.resolveIdent k.display with
    | some id => return (id, tempids)
    | none => do
      match ← spi (.selectIdent k.display) with
      | some id => return (id, tempids)
      | none => .fail (.entityNotFound k.display
          "Ensure this ident was previously defined via mentat_transact with :db/ident.")
  | .vector [.keyword k, value] => do
    let e ← resolveLookupRef c (.keyword k) value
    return (e, tempids)
  | .vector [other, _] => .fail (.invalidEntityPlace other.typeName
      "Lookup ref first element must be a keyword attribute, got " other)
  | other => .fail (.invalidEntityPlace other.typeName "" other)

def encodeRefValue (c : SchemaCache) (tempids : Tempids) (value : EdnValue) :
    Tx (TypedValue × Tempids) := do
  let (id, tempids) ← resolveEntityPlace c tempids value
  return (.ref id, tempids)

def lookupValueType (c : SchemaCache) (a : Int64) : Option ValueType :=
  (c.getAttribute a).map SchemaRow.valueType

/-- The value of a datom: an entity place for a ref attribute, a scalar otherwise. -/
def encodeForAttribute (c : SchemaCache) (tempids : Tempids) (a : Int64) (value : EdnValue) :
    Tx (TypedValue × Tempids) :=
  if lookupValueType c a = some .ref then encodeRefValue c tempids value
  else do
    let v ← .ofExcept (encodeValue value)
    return (v, tempids)

structure SchemaBuilder where
  ident : Option String := none
  valueType : Option ValueType := none
  cardinality : Option Cardinality := none
  unique : Option UniqueType := none
  indexed : Option Bool := none
  fulltext : Option Bool := none
  component : Option Bool := none
  noHistory : Option Bool := none
  deriving DecidableEq, Repr

/-- `builders.entry(e).or_default()`, then `f`. -/
def modifyBuilder (builders : EntidMap SchemaBuilder) (e : Int64)
    (f : SchemaBuilder → SchemaBuilder) : EntidMap SchemaBuilder :=
  builders.insert e (f ((builders.lookup e).getD {}))

def collectSchemaAssertion (e a : Int64) (value : EdnValue)
    (builders : EntidMap SchemaBuilder) : EntidMap SchemaBuilder :=
  match value with
  | .keyword k =>
    if a = Entids.dbIdent then
      modifyBuilder builders e fun b => { b with ident := some k.display }
    else if a = Entids.dbValueType then
      match keywordToValueType k with
      | some t => modifyBuilder builders e fun b => { b with valueType := some t }
      | none => builders
    else if a = Entids.dbCardinality then
      match keywordToCardinality k with
      | some t => modifyBuilder builders e fun b => { b with cardinality := some t }
      | none => builders
    else if a = Entids.dbUnique then
      match keywordToUnique k with
      | some t => modifyBuilder builders e fun b => { b with unique := some t }
      | none => builders
    else builders
  | .boolean f =>
    if a = Entids.dbIndex then
      modifyBuilder builders e fun b => { b with indexed := some f }
    else if a = Entids.dbFulltext then
      modifyBuilder builders e fun b => { b with fulltext := some f }
    else if a = Entids.dbComponent ∨ a = Entids.dbIsComponent then
      modifyBuilder builders e fun b => { b with component := some f }
    else if a = Entids.dbNoHistory then
      modifyBuilder builders e fun b => { b with noHistory := some f }
    else builders
  | _ => builders

/-- The rows one builder installs: an ident, and a schema row if it defines an attribute. -/
inductive Installation where
  | nothing
  | ident (row : IdentRow)
  | attribute (ident : IdentRow) (row : SchemaRow)

def requiresAll : String :=
  "A schema attribute requires :db/ident, :db/valueType, and :db/cardinality."

/-- An entity is an attribute definition if it has a value type or a cardinality; a definition
must be complete. -/
def planInstallation (entid : Int64) (b : SchemaBuilder) : Except MentatError Installation :=
  match b.ident, b.valueType, b.cardinality with
  | none, none, none => .ok .nothing
  | none, _, _ =>
    .error (.invalidTransaction ("incomplete schema attribute definition (entity " ++
      toString entid.toInt ++ "): missing :db/ident. " ++ requiresAll))
  | some ident, none, none => .ok (.ident ⟨ident, entid⟩)
  | some ident, none, some _ =>
    .error (.invalidTransaction ("incomplete schema attribute definition for '" ++ ident ++
      "': missing :db/valueType. " ++ requiresAll))
  | some ident, some _, none =>
    .error (.invalidTransaction ("incomplete schema attribute definition for '" ++ ident ++
      "': missing :db/cardinality. " ++ requiresAll))
  | some ident, some valueType, some cardinality =>
    .ok (.attribute ⟨ident, entid⟩
      { entid, ident, valueType, cardinality
        uniqueConstraint := b.unique
        indexed := b.indexed.getD false
        fulltext := b.fulltext.getD false
        component := b.component.getD false
        noHistory := b.noHistory.getD false })

def install : Installation → Tx Unit
  | .nothing => return ()
  | .ident row => spi (.upsertIdent row)
  | .attribute ident row => do
    spi (.upsertIdent ident)
    spi (.upsertSchema row)

def installSchemaAttributes (builders : EntidMap SchemaBuilder) : Tx Unit :=
  builders.foldlM (fun _ entry => do
    let plan ← .ofExcept (planInstallation entry.1 entry.2)
    install plan) ()

end PgMentat

import PgMentat.Read.Pull

namespace PgMentat

inductive LimitSpec where
  | count (n : Nat)
  | unlimited
  deriving DecidableEq, Repr

inductive RecursionDepth where
  | bounded (n : Nat)
  | unbounded
  deriving DecidableEq, Repr

/-- An attribute as it is written, and the attribute it stands for. -/
structure AttrName where
  ident : String
  reverse : Bool
  forwardIdent : String
  deriving DecidableEq, Repr

structure AttrSpec extends AttrName where
  rename : Option String := none
  default : Option JsonValue := none
  limit : Option LimitSpec := none

inductive PullAttrSpec where
  | attribute (spec : AttrSpec)
  | mapSpec (name : AttrName) (subPattern : List PullAttrSpec) (rename : Option String)
      (limit : Option LimitSpec)
  | recursiveSpec (name : AttrName) (depth : RecursionDepth) (rename : Option String)
  | wildcard

/-- `:person/_friends` stands for `:person/friends`, read backwards. -/
def parseKeyword (k : Keyword) : AttrName :=
  match k.name.toList with
  | '_' :: forward => ⟨k.display, true, Keyword.display { k with name := String.ofList forward }⟩
  | _ => ⟨k.display, false, k.display⟩

def parseLimitValue (display : EdnValue → String) : EdnValue → Except String LimitSpec
  | .integer n =>
    if n < 0 then
      .error (":db.error/invalid-limit :limit value must be non-negative, got " ++
        toString n.toInt ++ ". Use a positive integer or nil for unlimited.")
    else .ok (.count n.toInt.toNat)
  | .nil => .ok .unlimited
  | v =>
    .error (":db.error/invalid-limit :limit value must be a non-negative integer or nil " ++
      "(for unlimited), got: " ++ display v)

/-- `edn_to_json`, for defaults. -/
def ednToJson (display : EdnValue → String) : EdnValue → JsonValue
  | .nil => .scalar .null
  | .boolean b => .scalar (.bool b)
  | .integer n => .integer n
  | .float f => .scalar (.ofF64 f)
  | .text s => .string s
  | .keyword k => .string k.display
  | v => .string (display v)

def missingModifierValue (name : String) : String :=
  if name = "limit" then
    ":db.error/invalid-pull-pattern :limit modifier requires " ++
      "a value (integer or nil). Example: (:attr :limit 10)"
  else if name = "default" then
    ":db.error/invalid-pull-pattern :default modifier requires " ++
      "a value. Example: (:attr :default \"none\")"
  else
    ":db.error/invalid-pull-pattern :as modifier requires a " ++
      "string value. Example: (:attr :as \"Display Name\")"

/-- The pairs of modifiers and values behind an attribute. -/
def parseModifiers (display : EdnValue → String) (spec : AttrSpec) :
    List EdnValue → Except String AttrSpec
  | [] => .ok spec
  | .keyword k :: rest =>
    if k.name ∈ ["limit", "default", "as"] then
      match rest with
      | [] => .error (missingModifierValue k.name)
      | v :: rest =>
        if k.name = "limit" then
          match parseLimitValue display v with
          | .error err => .error err
          | .ok limit => parseModifiers display { spec with limit := some limit } rest
        else if k.name = "default" then
          parseModifiers display { spec with default := some (ednToJson display v) } rest
        else
          match v with
          | .text s => parseModifiers display { spec with rename := some s } rest
          | _ => .error (":db.error/invalid-pull-pattern :as value must be a string. " ++
              "Example: (:attr :as \"Display Name\")")
    else
      .error (":db.error/invalid-pull-pattern Unknown attribute modifier :" ++ k.name ++
        ". Valid modifiers: :limit, :default, :as")
  | v :: _ =>
    .error (":db.error/invalid-pull-pattern Expected keyword modifier (:limit, :default, " ++
      "or :as) in attribute expression, got: " ++ display v)

/-- `(:person/name :limit 5 :default "none" :as "Name")`, as a list or a vector. -/
def parseAttributeExpression (display : EdnValue → String) (attr : EdnValue)
    (modifiers : List EdnValue) : Except String AttrSpec :=
  match attr with
  | .keyword k => parseModifiers display { parseKeyword k with } modifiers
  | v =>
    .error (":db.error/invalid-pull-pattern Attribute expression must start with a keyword " ++
      "attribute, got: " ++ display v ++
      ". Expected: (:attr-keyword :limit N :default V :as \"name\")")

def unsupportedElement (display : EdnValue → String) (v : EdnValue) : String :=
  ":db.error/invalid-pull-pattern Unsupported pull pattern element: " ++ display v ++
    ". Valid elements: keyword attributes (:ns/name), wildcard (*), " ++
    "map specs (\x7b:attr [...]\x7d), or attribute expressions ((:attr :limit N))"

mutual

def parsePullPattern (display : EdnValue → String) :
    List EdnValue → Except String (List PullAttrSpec)
  | [] => .ok []
  | item :: items => do
    let specs ← parseElement display item
    let rest ← parsePullPattern display items
    return specs ++ rest

def parseElement (display : EdnValue → String) : EdnValue → Except String (List PullAttrSpec)
  | .plainSymbol s =>
    if s = "*" then .ok [.wildcard] else .error (unsupportedElement display (.plainSymbol s))
  | .keyword k => .ok [.attribute { parseKeyword k with }]
  | .map entries => parseMapSpecs display entries
  | .vector (attr :: modifiers) | .list (attr :: modifiers) => do
    let spec ← parseAttributeExpression display attr modifiers
    return [.attribute spec]
  | v => .error (unsupportedElement display v)

def parseMapSpecs (display : EdnValue → String) :
    List (EdnValue × EdnValue) → Except String (List PullAttrSpec)
  | [] => .ok []
  | entry :: entries => do
    let spec ← parseMapSpec display entry
    let rest ← parseMapSpecs display entries
    return spec :: rest

def parseMapSpec (display : EdnValue → String) : EdnValue × EdnValue → Except String PullAttrSpec
  | (.keyword k, .vector items) => do
    let subPattern ← parsePullPattern display items
    return .mapSpec (parseKeyword k) subPattern none none
  | (.keyword k, .integer n) =>
    .ok (.recursiveSpec (parseKeyword k) (.bounded n.toInt.toNat) none)
  | (.keyword k, v) =>
    match v with
    | .plainSymbol "..." => .ok (.recursiveSpec (parseKeyword k) .unbounded none)
    | v =>
      .error (":db.error/invalid-pull-pattern Map spec value must be a sub-pattern vector, " ++
        "'...' (unbounded recursion), or integer depth limit, got: " ++ display v ++
        ". Examples: \x7b:attr [:sub-attr]\x7d, \x7b:attr ...\x7d, \x7b:attr 3\x7d")
  | (k, _) =>
    .error (":db.error/invalid-pull-pattern Map spec keys must be keyword attributes, got: " ++
      display k ++ ". Expected format: \x7b:attribute [:sub-pattern]\x7d")

end

/-- `DEFAULT_MANY_LIMIT`. -/
def defaultManyLimit : Nat := 1000

/-- `resolve_limit`; no number of rows reaches `usize::MAX`. -/
def resolveLimit : Option LimitSpec → Option Nat
  | some (.count n) => some n
  | some .unlimited => none
  | none => some defaultManyLimit

def limitedTo {α : Type} (limit : Option LimitSpec) (xs : List α) : List α :=
  match resolveLimit limit with
  | some n => xs.take n
  | none => xs

def specFor (attrs : List AttrSpec) (ident : String) : Option AttrSpec :=
  attrs.findRev? fun attr => attr.forwardIdent = ident

def idOnly (e : Int64) : JsonObject := [(":db/id", .integer e)]

/-- The rows of some attributes of an entity, ordered by ident. -/
def askedRows (scan : ScanOrder) (db : Db) (attrs : List AttrSpec) (e : Int64) :
    Except String (List PullRow) := do
  let rows ← pullRows scan db e
  return rows.filter fun row => row.info.ident ∈ attrs.map fun attr => attr.forwardIdent

/-- The rows that the limits let through, given the idents of those that came before. -/
def limitRows (attrs : List AttrSpec) : List String → List PullRow → List PullRow
  | _, [] => []
  | taken, row :: rows =>
    let limit := resolveLimit ((specFor attrs row.info.ident).bind AttrSpec.limit)
    if limit.all fun n => taken.count row.info.ident < n then
      row :: limitRows attrs (row.info.ident :: taken) rows
    else limitRows attrs taken rows

def renamed (attrs : List AttrSpec) (row : PullRow) : PullRow :=
  let key := ((specFor attrs row.info.ident).bind AttrSpec.rename).getD row.info.ident
  { row with info := { row.info with ident := key } }

def PullRow.component (row : PullRow) : Option Int64 :=
  match row.v with
  | .ref id => if row.info.component then some id else none
  | _ => none

/-- A value that is not expanded; of an entity there is only the id. -/
def plainValue (row : PullRow) : JsonValue :=
  match row.v with
  | .ref id => .object (idOnly id)
  | _ => row.decoded

/-- Rows with components that have not been visited wait until the others have been entered. -/
def PullRow.waits (visited : List Int64) (row : PullRow) : Bool :=
  row.component.any fun id => id ∉ visited

/-- A component that waits is expanded in any case. -/
def expandPending (below : List Int64 → Int64 → Except String PullState) (st : PullState)
    (row : PullRow) : Except String PullState :=
  match row.component with
  | none => .ok st
  | some id => do
    let (sub, visited) ← below st.2 id
    return (insertValue st.1 row.info (.object sub), visited)

/-- Defaults for the attributes without a row. -/
def applyDefault (found : List String) (m : JsonObject) (attr : AttrSpec) : JsonObject :=
  match attr.default with
  | some d =>
    if attr.forwardIdent ∈ found then m else m.insert (attr.rename.getD attr.forwardIdent) d
  | none => m

/-- `pull_forward_attributes_batched`; at the last level no component waits. -/
def pullForwardAttributes (scan : ScanOrder) (db : Db)
    (below : List Int64 → Int64 → Except String PullState) (levels : Nat) (attrs : List AttrSpec)
    (e : Int64) (st : PullState) : Except String PullState := do
  let rows ← askedRows scan db attrs e
  let taken := limitRows attrs [] rows
  let keyed := taken.map (renamed attrs)
  let waits (row : PullRow) : Bool := 0 < levels && row.waits st.2
  let entered := (keyed.filter fun row => !waits row).foldl
    (fun m row => insertValue m row.info (plainValue row)) st.1
  let (m, visited) ← (keyed.filter waits).foldlM (expandPending below) (entered, st.2)
  return (attrs.foldl (applyDefault (taken.map fun row => row.info.ident)) m, visited)

/-- The entities that refer to `e`, as they are found. -/
def queryReverseRefs (scan : ScanOrder) (db : Db) (ident : String) (e : Int64) : List Int64 :=
  (scan.current db.current).filterMap fun r =>
    if r.v = .ref e ∧ ((db.cache.getAttribute r.a).map SchemaRow.ident) = some ident then some r.e
    else none

/-- The entities that `e` refers to, as they are found. -/
def queryForwardRefs (scan : ScanOrder) (db : Db) (ident : String) (e : Int64) : List Int64 :=
  (scan.current db.current).filterMap fun r =>
    match r.v with
    | .ref id =>
      if r.e = e ∧ ((db.cache.getAttribute r.a).map SchemaRow.ident) = some ident then some id
      else none
    | _ => none

/-- One of the attributes of `pull_reverse_attributes_batched`; its limit is that of the last spec
for the same attribute. -/
def pullReverseAttribute (scan : ScanOrder) (db : Db) (attrs : List AttrSpec) (e : Int64)
    (m : JsonObject) (attr : AttrSpec) : JsonObject :=
  let key := attr.rename.getD attr.ident
  let refs := (queryReverseRefs scan db attr.forwardIdent e).insertionSort (· ≤ ·)
  let limit := (specFor attrs attr.forwardIdent).bind AttrSpec.limit
  match limitedTo limit refs with
  | [] => match attr.default with
    | some d => m.insert key d
    | none => m
  | ids => m.insert key (.array (ids.map fun id => .object (idOnly id)))

def pullReverseAttributes (scan : ScanOrder) (db : Db) (attrs : List AttrSpec) (e : Int64)
    (m : JsonObject) : JsonObject :=
  attrs.foldl (pullReverseAttribute scan db attrs e) m

/-- A component, by the number of levels that are left. -/
def pullComponent (scan : ScanOrder) (db : Db) : Nat → List Int64 → Int64 → Except String PullState
  | 0 => fun visited id => .ok (idOnly id, visited)
  | levels + 1 => fun visited id => pullWildcard scan db levels (id :: visited) id

/-- `pull_wildcard` into what there is already; attributes with a spec of their own are skipped. -/
def pullWildcardInto (scan : ScanOrder) (db : Db)
    (below : List Int64 → Int64 → Except String PullState) (overrides : List String) (e : Int64)
    (st : PullState) : Except String PullState := do
  let rows ← pullRows scan db e
  (rows.filter fun row => row.info.ident ∉ overrides).foldlM (pullRow db.cache below) st

/-- An entity is among the visited ones while it is pulled. -/
def entering (pull : List Int64 → Int64 → Except String PullState) (visited : List Int64)
    (id : Int64) : Except String PullState := do
  let (sub, after) ← pull (id :: visited) id
  return (sub, if id ∈ visited then after else after.filter (· ≠ id))

def pullEach (pull : List Int64 → Int64 → Except String PullState) :
    List Int64 → List Int64 → Except String (List JsonValue × List Int64)
  | visited, [] => .ok ([], visited)
  | visited, id :: ids => do
    let (sub, visited) ← pull visited id
    let (subs, visited) ← pullEach pull visited ids
    return (.object sub :: subs, visited)

/-- `schema.cardinality(ident)`. -/
def cardinalityOf (db : Db) (ident : String) : Cardinality :=
  ((db.schema.find? fun row => row.ident = ident).map SchemaRow.cardinality).getD .one

/-- Follow references and enter what is pulled of them: a map for `one`, an array for `many`. -/
def pullRefs (cardinality : Cardinality) (key : String)
    (pull : List Int64 → Int64 → Except String PullState) (refs : List Int64) (st : PullState) :
    Except String PullState :=
  match cardinality, refs with
  | _, [] => .ok st
  | .one, id :: _ => do
    let (sub, visited) ← pull st.2 id
    return (st.1.insert key (.object sub), visited)
  | .many, ids => do
    let (subs, visited) ← pullEach pull st.2 ids
    return (st.1.insert key (.array subs), visited)

def AttrName.refs (scan : ScanOrder) (db : Db) (name : AttrName) (e : Int64) : List Int64 :=
  if name.reverse then queryReverseRefs scan db name.forwardIdent e
  else queryForwardRefs scan db name.forwardIdent e

/-- What refers backwards is always many. -/
def AttrName.cardinality (db : Db) (name : AttrName) : Cardinality :=
  if name.reverse then .many else cardinalityOf db name.forwardIdent

/-- `pull_all_attributes_for_recursive`. -/
def pullAllAttributesForRecursive (scan : ScanOrder) (db : Db) (levels : Nat)
    (recursive : String) (e : Int64) (st : PullState) : Except String PullState := do
  let rows ← pullRows scan db e
  (rows.filter fun row => row.info.ident ≠ recursive).foldlM (fun st row =>
    if 0 < levels && row.waits st.2 then expandPending (pullComponent scan db levels) st row
    else .ok (insertValue st.1 row.info (plainValue row), st.2)) st

def RecursionDepth.max : RecursionDepth → Nat
  | bounded n => n
  | unbounded => maxRecursionDepth

/-- `pull_recursive`, by the number of levels that are left of its own depth. -/
def pullRecursive (scan : ScanOrder) (db : Db) (name : AttrName) (rename : Option String) :
    Nat → Nat → Int64 → PullState → Except String PullState
  | 0, _, _, st => .ok st
  | n + 1, depth, e, st =>
    pullRefs (name.cardinality db) (rename.getD name.ident) (fun visited id =>
      if id ∈ visited then .ok (idOnly id, visited)
      else entering (fun visited id => do
        let st ← pullAllAttributesForRecursive scan db (maxRecursionDepth - (depth + 1))
          name.forwardIdent id (idOnly id, visited)
        pullRecursive scan db name rename n (depth + 1) id st) visited id)
      (limitedTo none (name.refs scan db e)) st

def PullAttrSpec.attr? : PullAttrSpec → Option AttrSpec
  | .attribute spec => some spec
  | _ => none

def PullAttrSpec.forwardIdent : PullAttrSpec → Option String
  | .attribute spec => some spec.forwardIdent
  | mapSpec name _ _ _ => some name.forwardIdent
  | recursiveSpec name _ _ => some name.forwardIdent
  | wildcard => none

def forwardAttrs (specs : List PullAttrSpec) : List AttrSpec :=
  (specs.filterMap PullAttrSpec.attr?).filter fun attr => !attr.reverse

def reverseAttrs (specs : List PullAttrSpec) : List AttrSpec :=
  (specs.filterMap PullAttrSpec.attr?).filter fun attr => attr.reverse

/-- The attributes that a wildcard leaves to other specs. -/
def overrideIdents (specs : List PullAttrSpec) : List String :=
  specs.filterMap PullAttrSpec.forwardIdent

/-- The first phase of `execute_pull`. -/
def pullAttributes (scan : ScanOrder) (db : Db)
    (below : List Int64 → Int64 → Except String PullState) (levels : Nat)
    (specs : List PullAttrSpec) (e : Int64) (st : PullState) : Except String PullState := do
  let (m, visited) ← pullForwardAttributes scan db below levels (forwardAttrs specs) e st
  return (pullReverseAttributes scan db (reverseAttrs specs) e m, visited)

mutual

/-- One spec of the second phase of `execute_pull`. -/
def pullSpec (scan : ScanOrder) (db : Db) (overrides : List String) (depth : Nat) (e : Int64)
    (st : PullState) : PullAttrSpec → Except String PullState
  | .attribute _ => .ok st
  | .wildcard =>
    pullWildcardInto scan db (pullComponent scan db (maxRecursionDepth - depth)) overrides e st
  | .mapSpec name subPattern rename limit =>
    pullRefs (name.cardinality db) (rename.getD name.ident) (entering fun visited id =>
      if depth < maxRecursionDepth then do
        let st ← pullAttributes scan db (pullComponent scan db (maxRecursionDepth - (depth + 1)))
          (maxRecursionDepth - (depth + 1)) subPattern id (idOnly id, visited)
        pullSpecs scan db (overrideIdents subPattern) (depth + 1) id st subPattern
      else .ok (idOnly id, visited))
      (limitedTo limit (name.refs scan db e)) st
  | .recursiveSpec name recursion rename =>
    pullRecursive scan db name rename (recursion.max - depth) depth e st

def pullSpecs (scan : ScanOrder) (db : Db) (overrides : List String) (depth : Nat) (e : Int64)
    (st : PullState) : List PullAttrSpec → Except String PullState
  | [] => .ok st
  | spec :: specs => do
    let st ← pullSpec scan db overrides depth e st spec
    pullSpecs scan db overrides depth e st specs

end

def executePull (scan : ScanOrder) (db : Db) (specs : List PullAttrSpec) (depth : Nat) (e : Int64)
    (st : PullState) : Except String PullState := do
  let levels := maxRecursionDepth - depth
  let st ← pullAttributes scan db (pullComponent scan db levels) levels specs e st
  pullSpecs scan db (overrideIdents specs) depth e st specs

/-- `pull` with a pattern that has been parsed. -/
def pullParsed (scan : ScanOrder) (db : Db) (specs : List PullAttrSpec) (e : Int64) :
    Except String JsonObject := do
  let (m, _) ← executePull scan db specs 0 e (idOnly e, [e])
  return m

/-- `pull`. -/
def mentatPull (display : EdnValue → String) (scan : ScanOrder) (db : Db) (pattern : EdnValue)
    (e : Int64) : Except String JsonObject :=
  match pattern with
  | .vector items => do
    let specs ← parsePullPattern display items
    pullParsed scan db specs e
  | _ =>
    .error (":db.error/invalid-pull-pattern Pull pattern must be a vector. " ++
      "Expected: [:person/name :person/age] or [*] or [\x7b:person/friends [:person/name]\x7d]. " ++
      "Got a non-vector EDN value.")

def PullAttrSpec.isAttribute (spec : PullAttrSpec) : Bool := spec.attr?.isSome

/-- The component entity as `pull_many_batched` shows it: one level, and all references as ids. -/
def shallowComponent (scan : ScanOrder) (db : Db) (id : Int64) : Except String JsonObject := do
  let rows ← pullRows scan db id
  return rows.foldl (fun m row => insertValue m row.info (plainValue row)) (idOnly id)

/-- Components are entered after all other values. -/
def enterShallow (scan : ScanOrder) (db : Db) (m : JsonObject) (row : PullRow) :
    Except String JsonObject :=
  match row.component with
  | none => .ok m
  | some id => (shallowComponent scan db id).map fun sub => insertValue m row.info (.object sub)

/-- Defaults for the keys that are missing. -/
def batchDefault (m : JsonObject) (attr : AttrSpec) : JsonObject :=
  match attr.default with
  | some d =>
    let key := attr.rename.getD attr.forwardIdent
    if (m.lookup key).isSome then m else m.insert key d
  | none => m

/-- The object of one entity in `pull_many_batched`. Limits are not read, and an attribute that is
to be read backwards is read forwards. -/
def batchedEntity (scan : ScanOrder) (db : Db) (attrs : List AttrSpec) (e : Int64) :
    Except String JsonObject := do
  let rows ← askedRows scan db attrs e
  let keyed := rows.map (renamed attrs)
  let entered := (keyed.filter fun row => row.component.isNone).foldl
    (fun m row => insertValue m row.info (plainValue row)) (idOnly e)
  let m ← keyed.foldlM (enterShallow scan db) entered
  return attrs.foldl batchDefault m

def handOut (results : List (Int64 × JsonObject)) : List Int64 → List JsonObject
  | [] => []
  | e :: ids =>
    (results.lookup e).getD (idOnly e) :: handOut (results.filter fun r => r.1 ≠ e) ids

def emptyInList : String := "syntax error at or near \")\""

/-- `pull_many_batched`. -/
def pullManyBatched (scan : ScanOrder) (db : Db) (attrs : List AttrSpec) (ids : List Int64) :
    Except String (List JsonObject) :=
  if ids = [] then .ok []
  else if attrs = [] then .error emptyInList
  else do
    let results ← ids.dedup.mapM fun e => (batchedEntity scan db attrs e).map fun m => (e, m)
    return handOut results ids

/-- `pull_many` with a pattern that has been parsed. -/
def pullManyParsed (scan : ScanOrder) (db : Db) (specs : List PullAttrSpec) (ids : List Int64) :
    Except String (List JsonObject) :=
  if specs.all PullAttrSpec.isAttribute then
    pullManyBatched scan db (specs.filterMap PullAttrSpec.attr?) ids
  else ids.mapM (pullParsed scan db specs)

/-- `pull_many`. -/
def mentatPullMany (display : EdnValue → String) (scan : ScanOrder) (db : Db) (pattern : EdnValue)
    (ids : List Int64) : Except String (List JsonObject) :=
  match pattern with
  | .vector items => do
    let specs ← parsePullPattern display items
    pullManyParsed scan db specs ids
  | _ => .error ":db.error/invalid-pull-pattern Pull pattern must be a vector."

end PgMentat

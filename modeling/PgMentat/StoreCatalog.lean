import PgMentat.Lib.SqlIdentifier
import PgMentat.Stores
import Mathlib.Data.List.DropRight

namespace PgMentat

inductive StoreError where
  | invalidStoreName (storeName reason : String)
  | storeNotFound (storeName : String)
  | invalidQuery (message suggestion : String)
  | postgres (message : String)
  deriving DecidableEq, Repr

def maxStoreNameLen : Nat := 63

def isReservedName (lower : List Char) : Bool :=
  lower = "default".toList || lower = "information_schema".toList ||
    "pg_".toList.isPrefixOf lower

/-- The name is ASCII once it has come as far as `to_lowercase`. -/
def validateStoreName (name : String) : Except StoreError Unit :=
  match name.toList with
  | [] => .error (.invalidStoreName name "Store name cannot be empty.")
  | first :: _ =>
    if maxStoreNameLen < name.utf8ByteSize then
      .error (.invalidStoreName name "Store name exceeds maximum length of 63 characters.")
    else if !first.isAlpha && first != '_' then
      .error (.invalidStoreName name "Store name must start with a letter or underscore.")
    else if !name.toList.all fun c => c.isAlphanum || c = '_' then
      .error (.invalidStoreName name
        "Store name must contain only letters, digits, and underscores.")
    else if isReservedName (name.toList.map Char.toLower) then
      .error (.invalidStoreName name ("'" ++ name ++ "' is a reserved name."))
    else .ok ()

/-- The characters `quote_ident` leaves plain. -/
def isPlainChar (c : Char) : Bool := c.isLower || c.isDigit || c = '_'

def isSimple (ident : List Char) : Bool :=
  match ident with
  | [] => false
  | first :: _ => (first.isLower || first = '_') && ident.all isPlainChar

def quoteIdent (ident : String) : String :=
  if isSimple ident.toList then ident
  else String.ofList (SqlIdentifier.delimited ident.toList)

/-- `NAMEDATALEN - 1`. -/
def identifierLimit : Nat := 63

/-- The name that an identifier in the text of a statement denotes. -/
def readIdentifier (text : String) : Except StoreError String :=
  match SqlIdentifier.denoted identifierLimit text.toList with
  | some name => .ok (String.ofList name)
  | none => .error (.postgres "syntax error")

/-- The table `mentat.stores`, whose `store_name` is unique. -/
structure Catalog where
  stores : List StoreRow
  unique : (stores.map StoreRow.storeName).Nodup

/-- `SELECT … FROM mentat.stores WHERE store_name = $1`. -/
def Catalog.record (c : Catalog) (name : String) : Option StoreRow :=
  c.stores.find? fun r => r.storeName = name

def stripPrefix (p s : List Char) : Option (List Char) :=
  if p.isPrefixOf s then some (s.drop p.length) else none

/-- `mentat` is the default store, `mentat_<name>` the store `<name>`. -/
def storeNameOfSchema (schema : List Char) : Option String :=
  if schema = "mentat".toList then some "default"
  else (stripPrefix "mentat_".toList schema).map String.ofList

/-- The look-up that transact, query, pull and time travel each have, with their own errors. -/
def Catalog.lookupStoreId (c : Catalog) (schema : List Char) (unknownSchema : StoreError)
    (notFound : String → StoreError) : Except StoreError Int64 :=
  match storeNameOfSchema schema with
  | none => .error unknownSchema
  | some name =>
    match c.record name with
    | some row => .ok row.storeId
    | none => .error (notFound name)

def badSchema (schema : String) : StoreError :=
  .invalidStoreName schema "Schema must be 'mentat' or 'mentat_*'"

namespace Transact

/-- `txStoreId` is the `store_id` that the running transaction has set. -/
def getStoreIdFromSchema (txStoreId : Option Int64) (c : Catalog) (schema : String) :
    Except StoreError Int64 :=
  match txStoreId with
  | some id => .ok id
  | none => c.lookupStoreId schema.toList (badSchema schema) .storeNotFound

def resolveStoreSchema (storeName : String) : Except StoreError String :=
  if storeName = "default" then .ok "mentat"
  else do
    validateStoreName storeName
    return getSchemaForStore storeName

def storeId (c : Catalog) (storeName : String) : Except StoreError Int64 := do
  let schema ← resolveStoreSchema storeName
  getStoreIdFromSchema none c (quoteIdent schema)

end Transact

def resolveSchemaPrefix (storeName : String) : String :=
  quoteIdent (getSchemaForStore storeName) ++ "."

namespace Query

def trimMatches (p : Char → Bool) (s : List Char) : List Char := (s.dropWhile p).rdropWhile p

def resolveStoreId (c : Catalog) (schemaPrefix : String) : Except StoreError Int64 :=
  let schema := trimMatches (· = '"') (schemaPrefix.toList.rdropWhile (· = '.'))
  c.lookupStoreId schema
    (.invalidQuery ("Cannot resolve store_id for schema '" ++ String.ofList schema ++ "'")
      "Schema must be 'mentat' or 'mentat_*'")
    fun name => .invalidQuery ("Store '" ++ name ++ "' not found in mentat.stores")
      "Create the store first with mentat_create_store()"

def storeId (c : Catalog) (storeName : String) : Except StoreError Int64 :=
  resolveStoreId c (resolveSchemaPrefix storeName)

end Query

namespace Pull

def getStoreIdFromSchema (c : Catalog) (schema : String) : Except StoreError Int64 :=
  c.lookupStoreId schema.toList (badSchema schema)
    fun name => .invalidStoreName name "Store not found in mentat.stores"

def storeId (c : Catalog) (storeName : String) : Except StoreError Int64 :=
  getStoreIdFromSchema c (getSchemaForStore storeName)

end Pull

namespace TimeTravel

def getStoreIdForSchema (c : Catalog) (schema : String) : Except StoreError Int64 :=
  c.lookupStoreId schema.toList (badSchema schema) .storeNotFound

/-- `mentat_log`. The other functions of time travel run a query. -/
def storeId (c : Catalog) (storeName : String) : Except StoreError Int64 :=
  getStoreIdForSchema c (getSchemaForStore storeName)

end TimeTravel

/-- The functions that name the schema of a store in the text of a statement. -/
inductive StoreCaller where
  | management | transact | query | timeTravel | pull | schemaCache | excision
  deriving DecidableEq, Repr

/-- Pull, the schema cache and excision put the schema into the text without `quote_ident`. -/
def StoreCaller.schemaText (caller : StoreCaller) (storeName : String) : String :=
  match caller with
  | management | transact | query | timeTravel => quoteIdent (getSchemaForStore storeName)
  | pull | schemaCache | excision => getSchemaForStore storeName

def StoreCaller.schema (caller : StoreCaller) (storeName : String) : Except StoreError String :=
  readIdentifier (caller.schemaText storeName)

end PgMentat

import PgMentat.Query.Extended
import PgMentat.Lib.ArithmeticText

namespace PgMentat

open ArithmeticText

structure WhereFn where
  operator : String
  args : List FnArg
  binding : Binding
  deriving DecidableEq, Repr

def varRef : List Char := "VAR_REF:".toList

def numVarRef : List Char := "NUM_VAR_REF:".toList

/-- `fn_arg_to_placeholder`; `display` writes a float. -/
def fnArgToPlaceholder (display : F64 → String) : FnArg → List Char
  | .variable x => varRef ++ x.toList
  | .entidOrInteger i => (toString i.toInt).toList
  | .constant (.float f) => (display f).toList
  | .constant (.boolean b) => (if b then "true" else "false").toList
  | _ => "NULL".toList

def fnArgToNumericPlaceholder (display : F64 → String) : FnArg → List Char
  | .variable x => numVarRef ++ x.toList
  | arg => fnArgToPlaceholder display arg

/-- What an arithmetic function is bound to. -/
structure Computation where
  op : Op
  left : FnArg
  right : FnArg
  deriving DecidableEq, Repr

def Computation.text (display : F64 → String) (c : Computation) : List Char :=
  '(' :: fnArgToNumericPlaceholder display c.left ++
    ([' ', c.op.char, ' '] ++ fnArgToNumericPlaceholder display c.right) ++ [')']

def sqlOp (operator : String) : Option Op :=
  if operator = "*" then some .mul
  else if operator = "+" then some .add
  else if operator = "-" then some .sub
  else if operator = "/" then some .div
  else none

def fnArity (operator : String) (got : Nat) : QueryError :=
  .query (":db.error/fn-arity Arithmetic function '" ++ operator ++
    "' requires exactly 2 arguments, got " ++ toString got ++ ". " ++
    "Example: [(" ++ operator ++ " ?x 2) ?result]")

def fnBinding (operator : String) : QueryError :=
  .query (":db.error/fn-binding Arithmetic function '" ++ operator ++
    "' requires a scalar binding (single variable). " ++
    "Example: [(" ++ operator ++ " ?x 2) ?result]")

def unsupportedWhereFn (operator : String) : QueryError :=
  .query (":db.error/unsupported-where-fn Where-function '" ++ operator ++
    "' is not supported. " ++
    "Supported functions: fulltext, ground, get-else, missing?, *, +, -, /")

/-- `build_where_fn_binding`, without the functions of extensions. -/
def buildWhereFnBinding (wf : WhereFn) : Except QueryError (Option (String × Computation)) :=
  match sqlOp wf.operator with
  | none => .ok none
  | some op =>
    match wf.args, wf.binding with
    | [left, right], .bindScalar x => .ok (some (x, ⟨op, left, right⟩))
    | [_, _], _ => .error (fnBinding wf.operator)
    | args, _ => .error (fnArity wf.operator args.length)

/-- The computed variables of a query; the last function that binds a variable counts. -/
def collectWhereFns : List WhereFn → Except QueryError (List (String × Computation))
  | wfs => wfs.foldlM (fun extra wf => do
      match ← buildWhereFnBinding wf with
      | some entry => .ok (entry :: extra)
      | none => .error (unsupportedWhereFn wf.operator)) []

def IsSqlName (s : String) : Prop := s ≠ "" ∧ ∀ c ∈ s.toList, (c.isAlphanum || c == '_') = true

/-- `var_to_alias`: the table alias and the column that a variable is bound to. -/
structure VarToAlias where
  get : String → Option (String × String)
  names : ∀ x table col, get x = some (table, col) → IsSqlName table ∧ IsSqlName col

/-- `build_numeric_value_decode_expr`. -/
def buildNumericValueDecodeExpr (table : String) : String :=
  "COALESCE(" ++ table ++ ".v_ref, " ++ table ++ ".v_long, " ++ table ++ ".v_double::BIGINT, " ++
    "EXTRACT(EPOCH FROM " ++ table ++ ".v_instant)::BIGINT * 1000000)"

/-- `build_value_decode_expr`. -/
def buildValueDecodeExpr (table : String) : String :=
  "CASE " ++ table ++ ".value_type_tag " ++
    "WHEN 0 THEN " ++ table ++ ".v_ref::TEXT " ++
    "WHEN 1 THEN " ++ table ++ ".v_bool::TEXT " ++
    "WHEN 2 THEN " ++ table ++ ".v_long::TEXT " ++
    "WHEN 3 THEN 'd:' || ('x' || encode(float8send(" ++ table ++
      ".v_double), 'hex'))::bit(64)::bigint::TEXT " ++
    "WHEN 4 THEN to_char(" ++ table ++
      ".v_instant AT TIME ZONE 'UTC', 'YYYY-MM-DD\"T\"HH24:MI:SS.US\"Z\"') " ++
    "WHEN 7 THEN " ++ table ++ ".v_text " ++
    "WHEN 8 THEN ':' || " ++ table ++ ".v_keyword " ++
    "WHEN 10 THEN " ++ table ++ ".v_uuid::TEXT " ++
    "WHEN 11 THEN encode(" ++ table ++ ".v_bytes, 'hex') " ++
    "ELSE NULL::TEXT END"

def findText (pattern : List Char) : List Char → Option Nat
  | [] => none
  | c :: cs =>
    if pattern.isPrefixOf (c :: cs) then some 0 else (findText pattern cs).map fun n => n + 1

def firstMarker (text : List Char) : Option (Nat × Nat × Bool) :=
  match findText numVarRef text, findText varRef text with
  | some n, some v => if n < v then some (n, 12, true) else some (v, 8, false)
  | some n, none => some (n, 12, true)
  | none, some v => some (v, 8, false)
  | none, none => none

/-- The characters that end the name of a variable. -/
def endsName (c : Char) : Bool :=
  c == ' ' || c == ')' || c == ',' || c == '+' || c == '-' || c == '*' || c == '/'

def inName (c : Char) : Bool := !endsName c

section Resolve

variable (display : F64 → String) (columns : VarToAlias) (extra : List (String × Computation))

def replacement (numeric : Bool) (x : String) : List Char :=
  match columns.get x with
  | some (table, col) =>
    if col = "v" then
      if numeric then '(' :: (buildNumericValueDecodeExpr table).toList ++ [')']
      else '(' :: (buildValueDecodeExpr table).toList ++ [')']
    else table.toList ++ '.' :: col.toList
  | none =>
    match extra.lookup x with
    | some c => c.text display
    | none => "NULL".toList

/-- The text with the marker at `start`, and the name behind it, replaced. -/
def replaceMarker (start length : Nat) (numeric : Bool) (text : List Char) : List Char :=
  let rest := text.drop (start + length)
  text.take start ++
    replacement display columns extra numeric (String.ofList (rest.takeWhile inName)) ++
    rest.dropWhile inName

/-- One round of the loop; `none` if there is no marker. -/
def resolveFirst (text : List Char) : Option (List Char) :=
  (firstMarker text).map fun m => replaceMarker display columns extra m.1 m.2.1 m.2.2 text

/-- `resolve_var_refs`, for less than `fuel` rounds of its loop. -/
def resolveVarRefs : Nat → List Char → Option (List Char)
  | 0, _ => none
  | fuel + 1, text =>
    match resolveFirst display columns extra text with
    | none => some text
    | some text' => resolveVarRefs fuel text'

end Resolve

end PgMentat

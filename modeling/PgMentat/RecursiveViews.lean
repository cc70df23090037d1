import PgMentat.Lib.RecursiveUnion
import PgMentat.StoreCatalog
import PgMentat.Lib.Unification
import PgMentat.Run

namespace PgMentat

open RecursiveUnion

inductive RecursiveError where
  | invalidQuery (message : String) (suggestion : Option String)
  | store (e : StoreError)
  deriving DecidableEq, Repr

def maxIdentLen : Nat := 63

def defaultMaxDepth : Int := 100

def validateIdentifier (name label : String) : Except RecursiveError Unit :=
  match name.toList with
  | [] => .error (.invalidQuery (label ++ " cannot be empty.") none)
  | first :: _ =>
    if maxIdentLen < name.utf8ByteSize then
      .error (.invalidQuery (label ++ " '" ++ name ++ "' exceeds maximum length of 63 characters.")
        none)
    else if !first.isAlpha && first != '_' then
      .error (.invalidQuery (label ++ " '" ++ name ++ "' must start with a letter or underscore.")
        none)
    else if !name.toList.all fun c => c.isAlphanum || c = '_' then
      .error (.invalidQuery (label ++ " '" ++ name ++
        "' must contain only letters, digits, and underscores.") none)
    else .ok ()

def containsText (s pattern : String) : Bool := s.toList.tails.any pattern.toList.isPrefixOf

/-- `char::is_whitespace`, the property `White_Space` of Unicode. -/
def isWhiteSpace (c : Char) : Bool :=
  let n := c.toNat
  (9 ≤ n ∧ n ≤ 13) ∨ (0x2000 ≤ n ∧ n ≤ 0x200a) ∨
    n ∈ [0x20, 0x85, 0xa0, 0x1680, 0x2028, 0x2029, 0x202f, 0x205f, 0x3000]

def trimText (s : String) : String :=
  String.ofList ((s.toList.dropWhile isWhiteSpace).rdropWhile isWhiteSpace)

def validateQueryFragment (sql label : String) : Except RecursiveError Unit :=
  if trimText sql = "" then .error (.invalidQuery (label ++ " cannot be empty.") none)
  else if containsText sql ";" then
    .error (.invalidQuery (label ++ " must not contain semicolons. " ++
      "Provide a single SELECT expression.") none)
  else if containsText sql "--" || containsText sql "/*" then
    .error (.invalidQuery (label ++ " must not contain SQL comments (-- or /*).") none)
  else .ok ()

def negativeDepth : RecursiveError :=
  .invalidQuery "max_depth must be non-negative." (some "Use 0 to disable the depth limit.")

def ruleNotReferenced (rule : String) : RecursiveError :=
  .invalidQuery ("Recursive query does not reference the rule name '" ++ rule ++ "'. " ++
    "The recursive step must join against '" ++ rule ++ "' to produce new rows.")
    (some ("Add a JOIN or reference to '" ++ rule ++ "' in your recursive query."))

structure RecursiveCall where
  storeName : String
  viewName : String
  ruleName : String
  baseQuery : String
  recursiveQuery : String
  maxDepth : Option Int

def RecursiveCall.depth (call : RecursiveCall) : Int := call.maxDepth.getD defaultMaxDepth

/-- `WITH RECURSIVE rule AS (base UNION ALL step) SELECT * FROM rule LIMIT limit`. -/
structure RecursiveView where
  schema : String
  name : String
  rule : String
  base : String
  step : String
  limit : Option Nat
  deriving DecidableEq, Repr

/-- The view that `recursive` creates, in a database with these schemas. -/
def recursive (schemas : List String) (call : RecursiveCall) :
    Except RecursiveError RecursiveView := do
  (validateStoreName call.storeName).mapError .store
  validateIdentifier call.viewName "View name"
  validateIdentifier call.ruleName "Rule name"
  validateQueryFragment call.baseQuery "Base query"
  validateQueryFragment call.recursiveQuery "Recursive query"
  if call.depth < 0 then .error negativeDepth
  else if !containsText call.recursiveQuery call.ruleName then
    .error (ruleNotReferenced call.ruleName)
  else if getSchemaForStore call.storeName ∉ schemas then
    .error (.store (.storeNotFound call.storeName))
  else
    return {
      schema := getSchemaForStore call.storeName
      name := call.viewName
      rule := call.ruleName
      base := trimText call.baseQuery
      step := trimText call.recursiveQuery
      limit := if 0 < call.depth then some call.depth.toNat else none }

theorem limit_of_recursive {schemas : List String} {call : RecursiveCall} {view : RecursiveView}
    (h : recursive schemas call = .ok view) {n : Nat} (hdepth : call.maxDepth = some ↑n)
    (hn : 0 < n) : view.limit = some n := by
  have hcall : call.depth = n := by rw [RecursiveCall.depth, hdepth, Option.getD_some]
  obtain ⟨-, -, h⟩ := Unification.bind_eq_ok h
  obtain ⟨-, -, h⟩ := Unification.bind_eq_ok h
  obtain ⟨-, -, h⟩ := Unification.bind_eq_ok h
  obtain ⟨-, -, h⟩ := Unification.bind_eq_ok h
  obtain ⟨-, -, h⟩ := Unification.bind_eq_ok h
  rw [hcall, if_neg (by omega)] at h
  split at h
  · cases h
  · split at h
    · cases h
    · cases h
      simp only [Int.natCast_pos, if_pos hn, Int.toNat_natCast]

/-- What PostgreSQL makes of the queries of a view. A recursive query refers to the working table
once, and returns what it returns for the single rows of it. -/
structure SqlEngine (Row : Type) where
  rows : String → List Row
  step : String → Row → List Row

variable {Row : Type}

def RecursiveView.select (view : RecursiveView) (engine : SqlEngine Row) (fuel : Nat) :
    Option (List Row) :=
  fetch (engine.step view.step) fuel view.limit (engine.rows view.base)

/-- The rows of the base query and of at most `n` applications of the recursive query. -/
def RecursiveView.rowsWithin (view : RecursiveView) (engine : SqlEngine Row) (n : Nat) :
    List Row :=
  within (engine.step view.step) n (engine.rows view.base)

/-- The query of the view ends, with exactly these rows. -/
def RecursiveView.RespectsDepth (view : RecursiveView) (engine : SqlEngine Row) (n : Nat) : Prop :=
  ∃ enough, ∀ fuel ≥ enough, ∃ rows, view.select engine fuel = some rows ∧
    rows.Perm (view.rowsWithin engine n)

section Select

variable {engine : SqlEngine Row} {view : RecursiveView} {n : Nat}

theorem select_eq (hlimit : view.limit = some n) {fuel : Nat} (hfuel : n + 1 ≤ fuel) :
    view.select engine fuel = some ((view.rowsWithin engine n).take n) := by
  rw [RecursiveView.select, hlimit]
  exact fetch_limit hfuel le_rfl

theorem respectsDepth_iff_length_le (hlimit : view.limit = some n) :
    view.RespectsDepth engine n ↔ (view.rowsWithin engine n).length ≤ n := by
  constructor
  · rintro ⟨enough, hrows⟩
    obtain ⟨rows, hfetch, hperm⟩ := hrows (max enough (n + 1)) (le_max_left _ _)
    rw [select_eq hlimit (le_max_right _ _)] at hfetch
    cases hfetch
    exact perm_take_within_iff.mp hperm
  · intro hlength
    exact ⟨n + 1, fun fuel hfuel =>
      ⟨_, select_eq hlimit hfuel, perm_take_within_iff.mpr hlength⟩⟩

end Select

/-- The query of a view with a depth always ends. It has the rows of this depth if and only if there
are not more of them than the depth. -/
theorem respectsDepth_iff (engine : SqlEngine Row) {schemas : List String} {call : RecursiveCall}
    {view : RecursiveView} (h : recursive schemas call = .ok view) {n : Nat}
    (hdepth : call.maxDepth = some ↑n) (hn : 0 < n) :
    (∃ enough, ∀ fuel ≥ enough, (view.select engine fuel).isSome) ∧
      (view.RespectsDepth engine n ↔ (view.rowsWithin engine n).length ≤ n) := by
  have hlimit := limit_of_recursive h hdepth hn
  refine ⟨⟨n + 1, fun fuel hfuel => ?_⟩, respectsDepth_iff_length_le hlimit⟩
  rw [select_eq hlimit hfuel]
  rfl

/-- The rule `next` of the entities that `line` leads to. -/
def nextCall (maxDepth : Int) : RecursiveCall where
  storeName := "shop"
  viewName := "reached"
  ruleName := "next"
  baseQuery := "SELECT e FROM line"
  recursiveQuery := "SELECT l.v FROM next JOIN line l ON l.e = next.e"
  maxDepth := some maxDepth

/-- Entities that lead to the following one, up to a last one. -/
def lineEngine (last : Nat) : SqlEngine Nat where
  rows _ := [0]
  step _ e := if e < last then [e + 1] else []

/-- Two entities that lead to each other. -/
def circleEngine : SqlEngine Nat where
  rows _ := [0, 1]
  step _ e := [1 - e]

theorem respectsDepth_iff_line : ∃ view ∈ (recursive ["mentat_shop"] (nextCall 5)).toOption,
    view.RespectsDepth (lineEngine 2) 5 := by
  have hview : ∃ view, recursive ["mentat_shop"] (nextCall 5) = .ok view ∧
      (view.rowsWithin (lineEngine 2) 5).length ≤ 5 := by decide +kernel
  obtain ⟨view, hok, hlength⟩ := hview
  have hdepth := respectsDepth_iff (lineEngine 2) hok (n := 5) rfl (by decide)
  exact ⟨view, congrArg Except.toOption hok, hdepth.2.mpr hlength⟩

/-- With a depth of one, only one of two rows of the base is returned. The default store is
refused. -/
theorem not_respectsDepth_circle :
    (∃ view ∈ (recursive ["mentat_shop"] (nextCall 1)).toOption,
      view.select circleEngine 2 = some [0] ∧ view.rowsWithin circleEngine 1 = [0, 1, 1, 0] ∧
      ¬ view.RespectsDepth circleEngine 1) ∧
    recursive ["mentat"] { nextCall 1 with storeName := "default" } =
      .error (.store (.invalidStoreName "default" "'default' is a reserved name.")) := by
  refine ⟨?_, by decide +kernel⟩
  have hview : ∃ view ∈ (recursive ["mentat_shop"] (nextCall 1)).toOption, view.limit = some 1 ∧
      view.select circleEngine 2 = some [0] ∧ view.rowsWithin circleEngine 1 = [0, 1, 1, 0] := by
    decide +kernel
  obtain ⟨view, hmem, hlimit, hselect, hrows⟩ := hview
  refine ⟨view, hmem, hselect, hrows, fun hdepth => ?_⟩
  rw [respectsDepth_iff_length_le hlimit, hrows] at hdepth
  exact absurd hdepth (by decide)

end PgMentat

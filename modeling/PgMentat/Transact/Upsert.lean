import PgMentat.Transact.Expand

namespace PgMentat

open StatementProgram

/-- `upsert_remaps`: an entity and the entity it is merged into. -/
abbrev Remaps := EntidMap Int64

def isIdentityAssertion (c : SchemaCache) (d : PendingDatom) : Bool :=
  d.added ∧ (c.getAttribute d.a).bind SchemaRow.uniqueConstraint = some .identity

/-- Phase A, for one datom: the entity the log already has for an identity value. -/
def resolveAgainstLog (c : SchemaCache) (remaps : Remaps) (d : PendingDatom) : Tx Remaps :=
  if isIdentityAssertion c d then do
    match ← checkUniqueTypedValue d.a d.v with
    | none => return remaps
    | some existing =>
      if existing = d.e then return remaps
      else
        match remaps.lookup d.e with
        | none => return remaps.insert d.e existing
        | some prev =>
          if prev = existing then return remaps
          else .fail (.invalidTransaction ("Conflicting upsert: tempid for entity " ++
            toString d.e.toInt ++ " resolves to both " ++ toString prev.toInt ++ " and " ++
            toString existing.toInt ++ " via different :db.unique/identity attributes"))
  else return remaps

/-- At most `steps` hops along the remaps. -/
def followRemaps (remaps : Remaps) : Nat → Int64 → Int64
  | 0, e => e
  | steps + 1, e =>
    match remaps.lookup e with
    | some next => if next = e then e else followRemaps remaps steps next
    | none => e

def resolveRoot (remaps : Remaps) (e : Int64) : Int64 :=
  followRemaps remaps (remaps.length + 1) e

/-- Phase B, for one pair: entities asserting one identity value are merged, the first wins. -/
def mergePair (first : PendingDatom) (remaps : Remaps) (second : PendingDatom) : Remaps :=
  if first.a = second.a ∧ first.v.partialEq second.v then
    let canonical := resolveRoot remaps first.e
    let merged := resolveRoot remaps second.e
    if canonical = merged then remaps else remaps.insert merged canonical
  else remaps

def mergeIdentities : List PendingDatom → Remaps → Remaps
  | [], remaps => remaps
  | d :: rest, remaps => mergeIdentities rest (rest.foldl (mergePair d) remaps)

def flattenRemaps (remaps : Remaps) : Remaps :=
  (remaps.map Prod.fst).foldl (fun remaps k =>
    let root := resolveRoot remaps k
    if root = k then remaps else remaps.insert k root) remaps

def applyRemap (remaps : Remaps) (e : Int64) : Int64 := (remaps.lookup e).getD e

def remapDatom (remaps : Remaps) (d : PendingDatom) : PendingDatom :=
  { d with
    e := applyRemap remaps d.e
    v := match d.v with
      | .ref id => .ref (applyRemap remaps id)
      | v => v }

/-- Drop the assertions an earlier datom of the list already makes. -/
def dedupAssertions (earlier : List PendingDatom) : List PendingDatom → List PendingDatom
  | [] => []
  | d :: rest =>
    if d.added ∧ earlier.any fun d' =>
        d'.added && d'.e = d.e && d'.a = d.a && d'.v.partialEq d.v then
      dedupAssertions (earlier ++ [d]) rest
    else d :: dedupAssertions (earlier ++ [d]) rest

def resolveUpserts (c : SchemaCache) (st : ExpandState) : Tx ExpandState := do
  let fromLog ← st.pending.foldlM (resolveAgainstLog c) []
  let merged := mergeIdentities (st.pending.filter (isIdentityAssertion c)) fromLog
  let remaps := flattenRemaps merged
  if remaps = [] then return st
  else
    return {
      tempids := st.tempids.map fun entry => (entry.1, applyRemap remaps entry.2)
      pending := dedupAssertions [] (st.pending.map (remapDatom remaps)) }

end PgMentat

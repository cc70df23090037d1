import PgMentat.Mentatd.Protocol
import PgMentat.ValueCodec

namespace PgMentat

open TextCodec

namespace Uuid

def hexLower (cs : List Char) : List Char := cs.map Char.toLower

def parseSimple (cs : List Char) : Option Uuid :=
  match hexDecode (hexLower cs) with
  | none => none
  | some bs => if h : bs.length = 16 then some ⟨bs, h⟩ else none

/-- 8-4-4-4-12 digits. -/
def parseHyphenated (cs : List Char) : Option Uuid :=
  if [8, 13, 18, 23].all fun i => cs[i]? = some '-' then
    parseSimple (cs.take 8 ++ (cs.drop 9).take 4 ++ (cs.drop 14).take 4 ++ (cs.drop 19).take 4 ++
      cs.drop 24)
  else none

/-- `Uuid::parse_str`: 32 digits, or the hyphenated form, which may be in braces or a URN. -/
def parseStr (cs : List Char) : Option Uuid :=
  if cs.length = 32 then parseSimple cs
  else if cs.length = 36 then parseHyphenated cs
  else if cs.length = 38 ∧ cs.head? = some '{' ∧ cs.getLast? = some '}' then
    parseHyphenated cs.tail.dropLast
  else if cs.length = 45 ∧ cs.take 9 = "urn:uuid:".toList then parseHyphenated (cs.drop 9)
  else none

end Uuid

inductive TransitValue where
  | nil
  | bool (b : Bool)
  | integer (n : Int64)
  | float (f : F64)
  | string (s : String)
  | keyword (s : String)
  | symbol (s : String)
  | uuid (u : Uuid)
  | instant (millis : Int64)
  | array (items : List TransitValue)
  | map (entries : List (TransitValue × TransitValue))

def maxNestingDepth : Nat := 64

/-- A string whose tag says what it stands for. -/
def decodeTransitTaggedString (s : String) : TransitValue :=
  match s.toList with
  | '~' :: ':' :: rest => .keyword (String.ofList rest)
  | '~' :: '$' :: rest => .symbol (String.ofList rest)
  | '~' :: 'i' :: rest => ((TypedValue.parseI64 rest).map .integer).getD (.string s)
  | '~' :: 'u' :: rest => ((Uuid.parseStr rest).map .uuid).getD (.string s)
  | '~' :: 'm' :: rest => ((TypedValue.parseI64 rest).map .instant).getD (.string s)
  | '~' :: 'z' :: rest =>
    if rest = "NaN".toList then .float .nan
    else if rest = "INF".toList then .float (.infinity false)
    else if rest = "-INF".toList then .float (.infinity true)
    else .string s
  | '~' :: '~' :: rest => .string (String.ofList ('~' :: rest))
  | '~' :: '^' :: rest => .string (String.ofList ('^' :: rest))
  | _ => .string s

/-- The text begins with no tag that is decoded. -/
def Untagged (s : String) : Prop :=
  match s.toList with
  | '~' :: tag :: rest =>
    tag ∉ [':', '$', '~', '^'] ∧ (tag = 'i' ∨ tag = 'm' → TypedValue.parseI64 rest = none) ∧
      (tag = 'u' → Uuid.parseStr rest = none) ∧
      (tag = 'z' → rest ∉ ["NaN".toList, "INF".toList, "-INF".toList])
  | _ => True

theorem decode_eq_string_iff {s : String} :
    decodeTransitTaggedString s = .string s ↔ Untagged s := by
  -- what is left of a tagged string is shorter than the string
  have hshort {rest : List Char} {c d : Char} (hs : s.toList = c :: d :: rest) :
      TransitValue.string (String.ofList (d :: rest)) ≠ .string s := by
    intro h
    have hlength := congrArg List.length (congrArg String.toList (TransitValue.string.inj h))
    rw [hs, String.toList_ofList] at hlength
    simp at hlength
  unfold decodeTransitTaggedString Untagged
  split
  case h_9 =>
    refine iff_of_true rfl ?_
    split
    · simp_all
    · trivial
  all_goals
    rename_i rest hs
    rw [hs]
  · simp
  · simp
  · cases h : TypedValue.parseI64 rest <;> simp [h]
  · cases h : Uuid.parseStr rest <;> simp [h]
  · cases h : TypedValue.parseI64 rest <;> simp [h]
  · split_ifs <;> simp_all
  · exact iff_of_false (hshort hs) fun h => h.1 (by decide)
  · exact iff_of_false (hshort hs) fun h => h.1 (by decide)

/-- A string that would read as a tag gets one `~` more. -/
def escapeTilde (s : String) : String :=
  match s.toList with
  | '~' :: _ => "~" ++ s
  | '^' :: _ => "~" ++ s
  | _ => s

theorem decode_escapeTilde (s : String) :
    decodeTransitTaggedString (escapeTilde s) = .string s := by
  unfold escapeTilde
  split
  · rename_i rest hs
    have hlist : ("~" ++ s).toList = '~' :: '~' :: rest := by
      rw [String.toList_append, hs]
      rfl
    simp only [decodeTransitTaggedString, hlist]
    rw [← hs, String.ofList_toList]
  · rename_i rest hs
    have hlist : ("~" ++ s).toList = '~' :: '^' :: rest := by
      rw [String.toList_append, hs]
      rfl
    simp only [decodeTransitTaggedString, hlist]
    rw [← hs, String.ofList_toList]
  · rename_i htilde hcaret
    unfold decodeTransitTaggedString
    split <;> first | rfl | exact absurd ‹_› (htilde _)

theorem decode_keyword (k : String) :
    decodeTransitTaggedString ("~:" ++ k) = .keyword k := by
  have hlist : ("~:" ++ k).toList = '~' :: ':' :: k.toList := String.toList_append
  simp only [decodeTransitTaggedString, hlist, String.ofList_toList]

theorem decode_uuid (u : String) :
    decodeTransitTaggedString ("~u" ++ u) =
      ((Uuid.parseStr u.toList).map .uuid).getD (.string ("~u" ++ u)) := by
  have hlist : ("~u" ++ u).toList = '~' :: 'u' :: u.toList := String.toList_append
  simp only [decodeTransitTaggedString, hlist]

theorem decode_integer (n : Int64) :
    decodeTransitTaggedString ("~i" ++ toString n.toInt) = .integer n := by
  have hlist : ("~i" ++ toString n.toInt).toList = '~' :: 'i' :: (toString n.toInt).toList :=
    String.toList_append
  simp only [decodeTransitTaggedString, hlist, TypedValue.parseI64_toString, Option.map_some,
    Option.getD_some]

theorem decode_instant (n : Int64) :
    decodeTransitTaggedString ("~m" ++ toString n.toInt) = .instant n := by
  have hlist : ("~m" ++ toString n.toInt).toList = '~' :: 'm' :: (toString n.toInt).toList :=
    String.toList_append
  simp only [decodeTransitTaggedString, hlist, TypedValue.parseI64_toString, Option.map_some,
    Option.getD_some]

namespace ResponseValue

mutual

def Every (P : ResponseValue → Prop) : ResponseValue → Prop
  | .list items => P (.list items) ∧ EveryItem P items
  | .vector items => P (.vector items) ∧ EveryItem P items
  | .map entries => P (.map entries) ∧ EveryEntry P entries
  | v => P v

def EveryItem (P : ResponseValue → Prop) : List ResponseValue → Prop
  | [] => True
  | item :: items => item.Every P ∧ EveryItem P items

def EveryEntry (P : ResponseValue → Prop) : List (ResponseValue × ResponseValue) → Prop
  | [] => True
  | (key, value) :: entries => (key.Every P ∧ value.Every P) ∧ EveryEntry P entries

end

mutual

def transit : ResponseValue → TransitValue
  | .nil => .nil
  | .boolean b => .bool b
  | .integer n => .integer n
  | .float f => .float f
  | .string s => .string s
  | .keyword s => .keyword s
  | .instant micros => .instant (micros / 1000)
  | .uuid s => ((Uuid.parseStr s.toList).map .uuid).getD (.string ("~u" ++ s))
  | .list items => .array (transitItems items)
  | .vector items => .array (transitItems items)
  | .map entries => .map (transitEntries entries)
  | .dbSnapshot dbId basisT => .array [.string "~#db", .array [.string dbId, .integer basisT]]

def transitItems : List ResponseValue → List TransitValue
  | [] => []
  | item :: items => item.transit :: transitItems items

def transitEntries : List (ResponseValue × ResponseValue) → List (TransitValue × TransitValue)
  | [] => []
  | (key, value) :: entries => (key.transit, value.transit) :: transitEntries entries

end

def IsAtom : ResponseValue → Prop
  | .list _ | .vector _ | .map _ => False
  | _ => True

variable {P : ResponseValue → Prop}

@[elab_as_elim]
theorem inductMem (atom : ∀ v, v.IsAtom → P v)
    (list : ∀ items, (∀ item ∈ items, P item) → P (.list items))
    (vector : ∀ items, (∀ item ∈ items, P item) → P (.vector items))
    (map : ∀ entries, (∀ entry ∈ entries, P entry.1 ∧ P entry.2) → P (.map entries))
    (v : ResponseValue) : P v := by
  refine @ResponseValue.rec P (fun items => ∀ item ∈ items, P item)
    (fun entries => ∀ entry ∈ entries, P entry.1 ∧ P entry.2) (fun entry => P entry.1 ∧ P entry.2)
    (atom _ trivial) (fun _ => atom _ trivial) (fun _ => atom _ trivial) (fun _ => atom _ trivial)
    (fun _ => atom _ trivial) (fun _ => atom _ trivial) (fun _ => atom _ trivial)
    (fun _ => atom _ trivial) list vector map (fun _ _ => atom _ trivial) ?_ ?_ ?_ ?_ ?_ v
  · simp
  · intro item items hitem hitems
    exact List.forall_mem_cons.mpr ⟨hitem, hitems⟩
  · simp
  · intro entry entries hentry hentries
    exact List.forall_mem_cons.mpr ⟨hentry, hentries⟩
  · exact fun _ _ hkey hvalue => ⟨hkey, hvalue⟩

theorem everyItem_iff {items : List ResponseValue} :
    EveryItem P items ↔ ∀ item ∈ items, item.Every P := by
  induction items with
  | nil => simp [EveryItem]
  | cons item items ih => simp [EveryItem, ih]

theorem everyEntry_iff {entries : List (ResponseValue × ResponseValue)} :
    EveryEntry P entries ↔ ∀ entry ∈ entries, entry.1.Every P ∧ entry.2.Every P := by
  induction entries with
  | nil => simp [EveryEntry]
  | cons entry entries ih => simp [EveryEntry, ih]

theorem Every.self {v : ResponseValue} (h : v.Every P) : P v := by
  cases v with
  | list | vector | map => exact h.1
  | _ => exact h

@[elab_as_elim]
theorem Every.inductMem {Q R : ResponseValue → Prop} {v : ResponseValue}
    (atom : ∀ v, v.IsAtom → Q v → R v → P v)
    (list : ∀ items, R (.list items) → (∀ item ∈ items, Q item ∧ P item) → P (.list items))
    (vector : ∀ items, R (.vector items) → (∀ item ∈ items, Q item ∧ P item) → P (.vector items))
    (map : ∀ entries, R (.map entries) → (∀ entry ∈ entries, P entry.1 ∧ P entry.2) →
      P (.map entries)) (hQ : v.Every Q) (hR : v.Every R) : P v := by
  have hitems {items : List ResponseValue} (ih : ∀ item ∈ items, item.Every Q → item.Every R →
      P item) (hQ : EveryItem Q items) (hR : EveryItem R items) :
      ∀ item ∈ items, Q item ∧ P item := fun item h =>
    have hitem := everyItem_iff.mp hQ item h
    ⟨hitem.self, ih item h hitem (everyItem_iff.mp hR item h)⟩
  induction v using ResponseValue.inductMem with
  | atom v hatom => exact atom v hatom hQ.self hR.self
  | list items ih => exact list items hR.1 (hitems ih hQ.2 hR.2)
  | vector items ih => exact vector items hR.1 (hitems ih hQ.2 hR.2)
  | map entries ih =>
    refine map entries hR.1 fun entry h => ?_
    have hQ := everyEntry_iff.mp hQ.2 entry h
    have hR := everyEntry_iff.mp hR.2 entry h
    exact ⟨(ih entry h).1 hQ.1 hR.1, (ih entry h).2 hQ.2 hR.2⟩

theorem transitItems_eq_map (items : List ResponseValue) :
    transitItems items = items.map transit := by
  induction items with
  | nil => rfl
  | cons item items ih => rw [transitItems, ih, List.map_cons]

theorem transitEntries_eq_map (entries : List (ResponseValue × ResponseValue)) :
    transitEntries entries = entries.map fun entry => (entry.1.transit, entry.2.transit) := by
  induction entries with
  | nil => rfl
  | cons entry entries ih => rw [transitEntries, ih, List.map_cons]

end ResponseValue

end PgMentat

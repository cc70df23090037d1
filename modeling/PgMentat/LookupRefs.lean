import PgMentat.UniqueHolders
import PgMentat.Transact.Naming
import PgMentat.Transact.Success
import PgMentat.JsonValue

namespace PgMentat

open StatementProgram Program TextCodec

/-- A JSON string is searched for as a keyword if it begins with a colon. -/
def keywordOrText (s : String) : TypedValue :=
  match s.toList with
  | ':' :: rest => .keyword (String.ofList rest)
  | _ => .text s

/-- The value that `lookup_ref_query` searches for; the JSON form decides its table. -/
def lookupRefKey (fmt : FloatFormat) : JsonValue → Option TypedValue
  | .scalar (.string s) => some (keywordOrText s)
  | .scalar (.integer n) => some (.long n)
  -- a number above `i64` is read as a double
  | .scalar (.unsigned n) => some (.double (fmt.ofText (toString n.toNat).toList))
  | .scalar (.float f) => some (.double f)
  | .scalar (.bool b) => some (.boolean b)
  | _ => none

def lookupRefQuery (fmt : FloatFormat) (scan : ScanOrder) (db : Db) (a : Int64)
    (value : JsonValue) : Option Int64 := do
  let v ← lookupRefKey fmt value
  firstHolder scan db a v

/-- `[attr value]`; that the attribute is unique is not checked here. -/
def resolveLookupRefToEid (fmt : FloatFormat) (scan : ScanOrder) (db : Db) :
    List JsonValue → Option Int64
  | [.scalar (.string attr), value] =>
    if attr.toList.head? = some ':' then do
      let a ← db.cache.resolveIdent attr
      lookupRefQuery fmt scan db a value
    else none
  | _ => none

/-- The entity that the constraint `alias.e = $n` of an input names. -/
def bindInputEntity (fmt : FloatFormat) (scan : ScanOrder) (db : Db) : JsonValue → Option Int64
  | .scalar (.integer i) => some i
  | .array items => resolveLookupRefToEid fmt scan db items
  | _ => none

/-- A value of a type that lookup refs are made for. -/
inductive LookupValue where
  | string (s : String)
  | keyword (k : Keyword)
  | long (n : Int64)
  | ref (id : Int64)
  | uuid (u : Uuid)

namespace LookupValue

def value : LookupValue → TypedValue
  | string s => .text s
  | keyword k => .keyword k.stored
  | long n => .long n
  | ref id => .ref id
  | uuid u => .uuid u

def edn : LookupValue → EdnValue
  | string s => .text s
  | keyword k => .keyword k
  | long n => .integer n
  | ref id => .integer id
  | uuid u => .uuid u

def json : LookupValue → JsonValue
  | string s => .string s
  | keyword k => .string k.display
  | long n => .integer n
  | ref id => .integer id
  | uuid u => .string (String.ofList u.chars)

/-- What a transaction searches for: an entity id is taken for a long. -/
def inTransaction : LookupValue → TypedValue
  | ref id => .long id
  | v => v.value

/-- What a query searches for: JSON has neither refs nor uuids. -/
def inQuery : LookupValue → TypedValue
  | string s => keywordOrText s
  | ref id => .long id
  | uuid u => .text (String.ofList u.chars)
  | v => v.value

theorem encodeValue_edn (v : LookupValue) : encodeValue v.edn = .ok v.inTransaction := by
  cases v <;> rfl

end LookupValue

theorem keywordOrText_display (k : Keyword) : keywordOrText k.display = .keyword k.stored := by
  have hchars : k.display.toList = ':' :: k.stored.toList := by
    rw [k.display_eq, String.toList_append]
    rfl
  simp only [keywordOrText, hchars, String.ofList_toList]

theorem keywordOrText_of_head {s : String} (h : s.toList.head? ≠ some ':') :
    keywordOrText s = .text s := by
  unfold keywordOrText
  split
  · rename_i rest hs
    rw [hs] at h
    exact absurd rfl h
  · rfl

theorem Uuid.head_chars (u : Uuid) : u.chars.head? ≠ some ':' := by
  obtain ⟨bytes, hlength⟩ := u
  cases bytes with
  | nil => cases hlength
  | cons b bytes =>
    have hdigit : hexDigit (b.toNat / 16) ≠ ':' := by
      intro heq
      have hvalue := hexValue_hexDigit (b.toNat / 16)
      rw [heq] at hvalue
      cases hvalue
    simpa [Uuid.chars, hexEncode] using hdigit

theorem LookupValue.lookupRefKey_json (fmt : FloatFormat) (v : LookupValue) :
    lookupRefKey fmt v.json = some v.inQuery := by
  cases v with
  | keyword k => exact congrArg some (keywordOrText_display k)
  | uuid u =>
    refine congrArg some (keywordOrText_of_head ?_)
    rw [String.toList_ofList]
    exact u.head_chars
  | _ => rfl

def ScanOrder.meeting (r : LogRow) : ScanOrder where
  log rows := if r ∈ rows then r :: rows.erase r else rows
  current := id
  log_perm rows := by
    split
    · rename_i hr
      exact (List.perm_cons_erase hr).symm
    · exact List.Perm.refl rows
  current_perm rows := List.Perm.refl rows

section Scan

variable {db : Db} {a : Int64} {w : TypedValue}

theorem Db.Asserted.of_firstHolder {scan : ScanOrder} {e : Int64}
    (h : firstHolder scan db a w = some e) : db.Asserted e a w := by
  obtain ⟨r, hr, he, ha, hv, hadded⟩ := firstHolder_eq_some h
  refine ⟨r, hr, hadded, ?_⟩
  rw [LogRow.triple, he, ha, hv]

theorem Db.Asserted.exists_firstHolder {scan : ScanOrder} {e : Int64} (h : db.Asserted e a w) :
    ∃ e', firstHolder scan db a w = some e' := by
  obtain ⟨r, hr, hadded, htriple⟩ := h
  cases hfirst : firstHolder scan db a w with
  | some e' => exact ⟨e', rfl⟩
  | none =>
    have ha : r.a = a := congrArg (fun k : Triple => k.2.1) htriple
    have hv : r.v = w := congrArg (fun k : Triple => k.2.2) htriple
    exact absurd hadded (Bool.eq_false_iff.mp (firstHolder_eq_none hfirst hr ha hv))

theorem Db.Asserted.firstHolder_meeting {e : Int64} (h : db.Asserted e a w) :
    ∃ scan, firstHolder scan db a w = some e := by
  obtain ⟨r, hr, hadded, htriple⟩ := h
  rw [LogRow.triple, Prod.mk.injEq, Prod.mk.injEq] at htriple
  obtain ⟨he, ha, hv⟩ := htriple
  refine ⟨.meeting r, ?_⟩
  simp [firstHolder, ScanOrder.meeting, hr, he, ha, hv, hadded]

theorem firstHolder_iff_forall {P : Int64 → Prop} :
    (∀ scan e, firstHolder scan db a w = some e ↔ P e) ↔
      (∀ e, db.Asserted e a w → P e ∧ ∀ e', P e' → e' = e) ∧
        ((∃ e, P e) → ∃ e, db.Asserted e a w) := by
  constructor
  · intro h
    constructor
    · intro e hasserted
      obtain ⟨scan, hscan⟩ := hasserted.firstHolder_meeting
      refine ⟨(h scan e).mp hscan, fun e' he' => ?_⟩
      have hscan' := (h scan e').mpr he'
      exact Option.some.inj (hscan'.symm.trans hscan)
    · rintro ⟨e, he⟩
      exact ⟨e, .of_firstHolder ((h .heap e).mpr he)⟩
  · rintro ⟨hholder, hfound⟩ scan e
    constructor
    · intro hscan
      exact (hholder e (.of_firstHolder hscan)).1
    · intro he
      obtain ⟨e0, hasserted⟩ := hfound ⟨e, he⟩
      have hsome : ∃ e', firstHolder scan db a w = some e' := hasserted.exists_firstHolder
      obtain ⟨e', hscan⟩ := hsome
      rw [hscan, (hholder e' (.of_firstHolder hscan)).2 e he]

end Scan

variable {db : Db} {e a : Int64} {w v : TypedValue}

theorem asserted_begun_iff {b : Backend} (v : LookupValue) :
    (db.begun b).Asserted e a v.inTransaction ↔ db.Asserted e a v.inTransaction := by
  constructor
  · rintro ⟨r, hr, hadded, htriple⟩
    rw [Db.begun, KeyedTable.mem_insertNew] at hr
    rcases hr with hr | ⟨rfl, -⟩
    · exact ⟨r, hr, hadded, htriple⟩
    · have hinstant : TypedValue.instant b.now = v.inTransaction :=
        congrArg (fun k : Triple => k.2.2) htriple
      cases v <;> cases hinstant
  · intro h
    apply h.mono
    intro r hr
    rw [Db.begun, KeyedTable.mem_insertNew]
    exact .inl hr

section Places

variable {db : Db} {k : Keyword} {a : Int64}

/-- The entity that a lookup ref stands for in a transaction; a transaction resolves its places
after it has recorded its own `:db/txInstant`. -/
def Db.PlaceYields (db : Db) (b : Backend) (k : Keyword) (v : LookupValue) (e : Int64) : Prop :=
  ∃ out b' db', server.run (resolveEntityPlace db.cache [] (.vector [.keyword k, v.edn])) b
    (db.begun b) = .ok (out, b', db') ∧ out.1 = e

theorem placeYields_iff (hk : db.cache.resolveIdent k.display = some a) (ha : db.UniqueAttr a)
    {b : Backend} {v : LookupValue} {e : Int64} :
    db.PlaceYields b k v e ↔ firstHolder b.scan (db.begun b) a v.inTransaction = some e := by
  obtain ⟨info, hinfo, hunique⟩ := ha
  have hattr : resolveAttribute db.cache (.keyword k) = .ok a := by
    simp only [resolveAttribute, hk]
  have hinfo : db.cache.getAttribute a = some info := hinfo
  have hconstraint : ¬ (info.uniqueConstraint.isNone = true) := by
    rw [Option.isNone_iff_eq_none]
    exact hunique
  have hselect : server.run (spi (.selectUnique a v.inTransaction)) b (db.begun b) =
      .ok (firstHolder b.scan (db.begun b) a v.inTransaction, b, db.begun b) := rfl
  have hlookup : server.run (resolveLookupRef db.cache (.keyword k) v.edn) b (db.begun b) =
      (firstHolder b.scan (db.begun b) a v.inTransaction).elim
        (.error (.lookupRefNotFound (db.cache.display a)
          "Ensure an entity with this attribute value has been transacted."))
        fun e => .ok (e, b, db.begun b) := by
    unfold resolveLookupRef
    simp only [hattr, Program.ofExcept, ret_bind, hinfo, if_neg hconstraint,
      v.encodeValue_edn, checkUniqueTypedValue, Server.run_bind, hselect]
    cases firstHolder b.scan (db.begun b) a v.inTransaction <;> rfl
  unfold Db.PlaceYields
  rw [resolveEntityPlace, Server.run_bind, hlookup]
  cases firstHolder b.scan (db.begun b) a v.inTransaction with
  | none => simp
  | some e' => simp [Server.run]

theorem bindInputEntity_eq (hk : db.cache.resolveIdent k.display = some a) (fmt : FloatFormat)
    (scan : ScanOrder) (v : LookupValue) :
    bindInputEntity fmt scan db (.array [.string k.display, v.json]) =
      firstHolder scan db a v.inQuery := by
  have hhead : k.display.toList.head? = some ':' := by
    rw [k.display_eq, String.toList_append]
    rfl
  have hresolve : resolveLookupRefToEid fmt scan db [.string k.display, v.json] =
      db.cache.resolveIdent k.display >>= fun a => lookupRefQuery fmt scan db a v.json :=
    if_pos hhead
  rw [bindInputEntity, hresolve, hk]
  simp only [Option.bind_eq_bind, Option.bind_some, lookupRefQuery, v.lookupRefKey_json]

end Places

/-- In both places, whatever the order of the scans, the lookup ref names the live holder. -/
structure Db.NamesLiveHolder (fmt : FloatFormat) (db : Db) (k : Keyword) (a : Int64)
    (v : LookupValue) : Prop where
  transaction : ∀ b e, db.PlaceYields b k v e ↔ db.Live (e, a, v.value)
  query : ∀ scan e, bindInputEntity fmt scan db (.array [.string k.display, v.json]) = some e ↔
    db.Live (e, a, v.value)

/-- Every entity that was once given `w` is the one live holder of `v`. -/
def Db.OnlyHolder (db : Db) (a : Int64) (w v : TypedValue) : Prop :=
  ∀ e, db.Asserted e a w → db.Live (e, a, v) ∧ ∀ e', db.Live (e', a, v) → e' = e

/-- If `v` has a live holder, some entity was once given `w`. -/
def Db.Stands (db : Db) (a : Int64) (w v : TypedValue) : Prop :=
  (∃ e, db.Live (e, a, v)) → ∃ e, db.Asserted e a w

/-- What is searched for was given to the live holder only, and a live value that is searched for
as another one is there as that other one. -/
structure Db.HeldLive (db : Db) (a : Int64) (v : LookupValue) : Prop where
  transaction : db.OnlyHolder a v.inTransaction v.value
  query : db.OnlyHolder a v.inQuery v.value
  inTransaction : v.inTransaction ≠ v.value → db.Stands a v.inTransaction v.value
  inQuery : v.inQuery ≠ v.value → db.Stands a v.inQuery v.value

section Holder

variable {db : Db} {k : Keyword} {a : Int64}

theorem Db.LogSound.stands (h : db.LogSound) {w v : TypedValue}
    (hne : w ≠ v → db.Stands a w v) : db.Stands a w v := by
  by_cases heq : w = v
  · rintro ⟨e, he⟩
    exact ⟨e, heq ▸ h.live e a v he⟩
  · exact hne heq

theorem transaction_iff (hk : db.cache.resolveIdent k.display = some a) (ha : db.UniqueAttr a)
    (v : LookupValue) : (∀ b e, db.PlaceYields b k v e ↔ db.Live (e, a, v.value)) ↔
      db.OnlyHolder a v.inTransaction v.value ∧ db.Stands a v.inTransaction v.value := by
  have hbegun (b : Backend) : (∀ scan e, firstHolder scan (db.begun b) a v.inTransaction = some e ↔
        db.Live (e, a, v.value)) ↔
      db.OnlyHolder a v.inTransaction v.value ∧ db.Stands a v.inTransaction v.value := by
    rw [firstHolder_iff_forall]
    simp only [asserted_begun_iff, Db.OnlyHolder, Db.Stands]
  constructor
  · intro h
    rw [← hbegun ⟨0, 0, [], .heap, 0⟩]
    intro scan e
    have hplace := h ⟨0, 0, [], scan, 0⟩ e
    rwa [placeYields_iff hk ha] at hplace
  · intro h b e
    rw [placeYields_iff hk ha]
    exact (hbegun b).mpr h b.scan e

theorem query_iff (hk : db.cache.resolveIdent k.display = some a) (fmt : FloatFormat)
    (v : LookupValue) : (∀ scan e, bindInputEntity fmt scan db
        (.array [.string k.display, v.json]) = some e ↔ db.Live (e, a, v.value)) ↔
      db.OnlyHolder a v.inQuery v.value ∧ db.Stands a v.inQuery v.value := by
  simp only [bindInputEntity_eq hk]
  exact firstHolder_iff_forall

end Holder

theorem namesLiveHolder_iff_heldLive {ok : Db → Call → Db → Prop} {db : Db} {k : Keyword}
    {a : Int64} (fmt : FloatFormat) (hdb : Reaches ok bootstrapDb db)
    (hk : db.cache.resolveIdent k.display = some a) (ha : db.UniqueAttr a) (v : LookupValue) :
    db.NamesLiveHolder fmt k a v ↔ db.HeldLive a v := by
  have hsound := logSound_of_reaches hdb
  constructor
  · intro h
    obtain ⟨hholder, hstands⟩ := (transaction_iff hk ha v).mp h.transaction
    obtain ⟨hholder', hstands'⟩ := (query_iff hk fmt v).mp h.query
    exact ⟨hholder, hholder', fun _ => hstands, fun _ => hstands'⟩
  · intro h
    constructor
    · exact (transaction_iff hk ha v).mpr ⟨h.transaction, hsound.stands h.inTransaction⟩
    · exact (query_iff hk fmt v).mpr ⟨h.query, hsound.stands h.inQuery⟩

def defineKey (type : String) : Call :=
  defineCall 1000000000001 1735689600000000 1000001
    [("ident", .namespaced "person" "key"), ("valueType", .namespaced "db.type" type),
     ("cardinality", .namespaced "db.cardinality" "one"),
     ("unique", .namespaced "db.unique" "value")]

def setKey (tx : Int64) (v : EdnValue) : Call :=
  plainCall tx 1735689601000000 [addDatom 500 1000001 v]

theorem Db.onlyHolder_of_rows {a : Int64}
    (h : ∀ r ∈ db.log, r.a = a ∧ r.v = w ∧ r.added = true → db.Live (r.e, a, v) ∧
      ∀ x ∈ db.current, x.a = a ∧ x.v = v → x.e = r.e) :
    db.OnlyHolder a w v := by
  intro e hasserted
  obtain ⟨r, hr, hadded, htriple⟩ := hasserted
  rw [LogRow.triple, Prod.mk.injEq, Prod.mk.injEq] at htriple
  obtain ⟨rfl, ha, hw⟩ := htriple
  obtain ⟨hlive, hall⟩ := h r hr ⟨ha, hw, hadded⟩
  refine ⟨hlive, fun e' hlive' => ?_⟩
  obtain ⟨x, hx, hxk⟩ := hlive'
  rw [CurrentRow.triple, Prod.mk.injEq, Prod.mk.injEq] at hxk
  rw [← hxk.1]
  exact hall x hx hxk.2

/-- A key that has been set once. -/
theorem namesLiveHolder_iff_heldLive_set :
    ∃ db, stateAfter [defineKey "string", setKey 1000000000002 (.text "a")] = some db ∧
      db.Live (500, 1000001, .text "a") ∧
      ∀ fmt, db.NamesLiveHolder fmt (.namespaced "person" "key") 1000001 (.string "a") := by
  have hmeets : RunMeets (fun _ _ _ => True)
      [defineKey "string", setKey 1000000000002 (.text "a")] bootstrapDb := by
    decide +kernel
  have hfacts : ∃ db, stateAfter [defineKey "string", setKey 1000000000002 (.text "a")] = some db ∧
      db.cache.resolveIdent (Keyword.namespaced "person" "key").display = some 1000001 ∧
      db.UniqueAttr 1000001 ∧ db.Live (500, 1000001, .text "a") ∧
      ∀ r ∈ db.log, r.a = 1000001 ∧ r.v = .text "a" ∧ r.added = true →
        db.Live (r.e, 1000001, .text "a") ∧
        ∀ x ∈ db.current, x.a = 1000001 ∧ x.v = .text "a" → x.e = r.e := by
    decide +kernel
  obtain ⟨db, hdb, hreach, hk, ha, hlive, hrows⟩ := hmeets.exists_reaches hfacts
  have hholder := Db.onlyHolder_of_rows hrows
  have hquery : (LookupValue.string "a").inQuery = .text "a" := by decide
  refine ⟨db, hdb, hlive, fun fmt => ?_⟩
  apply (namesLiveHolder_iff_heldLive fmt hreach hk ha (.string "a")).mpr
  refine ⟨hholder, ?_, fun hne => absurd rfl hne, fun hne => absurd hquery hne⟩
  rw [hquery]
  exact hholder

theorem Db.not_stands (hlive : db.Live (e, a, v)) (hnone : ∀ r ∈ db.log, r.v ≠ w) :
    ¬ db.Stands a w v := by
  intro hstands
  obtain ⟨_, r, hr, -, htriple⟩ := hstands ⟨e, hlive⟩
  exact hnone r hr (congrArg (fun k : Triple => k.2.2) htriple)

def someUuid : Uuid := ⟨List.replicate 16 0, rfl⟩

/-- A replaced string still names its entity; a live ref and, in queries, a live uuid name
nothing. -/
theorem not_namesLiveHolder_replaced :
    (∃ db, stateAfter [defineKey "string", setKey 1000000000002 (.text "a"),
        setKey 1000000000003 (.text "b")] = some db ∧ db.UniqueAttr 1000001 ∧
      ¬ db.Live (500, 1000001, .text "a") ∧
      db.PlaceYields (setKey 1000000000004 .nil).backend (.namespaced "person" "key")
        (.string "a") 500 ∧
      ∀ fmt, ¬ db.NamesLiveHolder fmt (.namespaced "person" "key") 1000001 (.string "a")) ∧
    (∃ db, stateAfter [defineKey "ref", setKey 1000000000002 (.integer 600)] = some db ∧
      db.UniqueAttr 1000001 ∧
      ∀ fmt, ¬ db.NamesLiveHolder fmt (.namespaced "person" "key") 1000001 (.ref 600)) ∧
    ∃ db, stateAfter [defineKey "uuid", setKey 1000000000002 (.uuid someUuid)] = some db ∧
      db.UniqueAttr 1000001 ∧
      ∀ fmt, ¬ db.NamesLiveHolder fmt (.namespaced "person" "key") 1000001 (.uuid someUuid) := by
  have hstring : ∃ db ∈ stateAfter [defineKey "string", setKey 1000000000002 (.text "a"),
        setKey 1000000000003 (.text "b")],
      db.cache.resolveIdent (Keyword.namespaced "person" "key").display = some 1000001 ∧
      db.UniqueAttr 1000001 ∧ ¬ db.Live (500, 1000001, .text "a") ∧
      firstHolder .heap (db.begun (setKey 1000000000004 .nil).backend) 1000001 (.text "a") =
        some 500 := by
    decide +kernel
  have href : ∃ db ∈ stateAfter [defineKey "ref", setKey 1000000000002 (.integer 600)],
      db.cache.resolveIdent (Keyword.namespaced "person" "key").display = some 1000001 ∧
      db.UniqueAttr 1000001 ∧ db.Live (500, 1000001, .ref 600) ∧ ∀ r ∈ db.log, r.v ≠ .long 600 := by
    decide +kernel
  have huuid : ∃ db ∈ stateAfter [defineKey "uuid", setKey 1000000000002 (.uuid someUuid)],
      db.cache.resolveIdent (Keyword.namespaced "person" "key").display = some 1000001 ∧
      db.UniqueAttr 1000001 ∧ db.Live (500, 1000001, .uuid someUuid) ∧
      ∀ r ∈ db.log, r.v ≠ .text (String.ofList someUuid.chars) := by
    decide +kernel
  refine ⟨?_, ?_, ?_⟩
  · obtain ⟨db, hdb, hk, ha, hdead, hfirst⟩ := hstring
    have hyields : db.PlaceYields (setKey 1000000000004 .nil).backend
        (.namespaced "person" "key") (.string "a") 500 := (placeYields_iff hk ha).mpr hfirst
    refine ⟨db, hdb, ha, hdead, hyields, fun fmt hnames => ?_⟩
    exact hdead ((hnames.transaction _ 500).mp hyields)
  · obtain ⟨db, hdb, hk, ha, hlive, hnone⟩ := href
    refine ⟨db, hdb, ha, fun fmt hnames => ?_⟩
    have hstands := ((transaction_iff hk ha (.ref 600)).mp hnames.transaction).2
    exact Db.not_stands hlive hnone hstands
  · obtain ⟨db, hdb, hk, ha, hlive, hnone⟩ := huuid
    refine ⟨db, hdb, ha, fun fmt hnames => ?_⟩
    have hstands := ((query_iff hk fmt (.uuid someUuid)).mp hnames.query).2
    exact Db.not_stands hlive hnone hstands

end PgMentat

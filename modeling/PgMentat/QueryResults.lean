import PgMentat.PatternQuery

namespace PgMentat

open List TextCodec TypedValue

/-- The text is taken for something other than a string. -/
def Guessed (s : String) : Prop :=
  ((strip "d:".toList s.toList).bind parseI64).isSome ∨ s = "true" ∨ s = "false" ∨
    isFloat s.toList = true

instance (s : String) : Decidable (Guessed s) :=
  inferInstanceAs (Decidable (_ ∨ _))

/-- The JSON value has the shape that the value asks for, and no other value of the type has it. -/
def TypedValue.Kept (fmt : FloatFormat) (type : ValueType) (v : TypedValue) : Prop :=
  (∀ w : TypedValue, w.valueType = type → w.json fmt = v.json fmt → w = v) ∧
    match v with
    | .text s => v.json fmt = .string s
    | .keyword s => v.json fmt = .string (":" ++ s)
    | .long n | .ref n => v.json fmt = .integer n
    | .boolean b => v.json fmt = .bool b
    | _ => True

/-- A string, or the hexadecimal spelling of bytes, that reads as nothing else. -/
def TypedValue.Unguessed : TypedValue → Prop
  | .text s => ¬ Guessed s
  | .bytes bs => ¬ Guessed (String.ofList (hexEncode bs))
  | _ => True

section Decode

variable {fmt : FloatFormat} {s t : String}

theorem isFloat_of_parseI64 {cs : List Char} {n : Int64} (h : parseI64 cs = some n) :
    isFloat cs = true := by
  unfold parseI64 at h
  split at h
  · exact isFloat_of_parseInt ‹_›
  · cases h

theorem Json.ofF64_ne_string (f : F64) : Json.ofF64 f ≠ .string t := by
  cases f <;> exact nofun

theorem decodeTextResult_eq_string :
    decodeTextResult fmt s = .string t ↔ t = s ∧ ¬ Guessed s := by
  unfold decodeTextResult Guessed
  dsimp only
  cases (strip "d:".toList s.toList).bind parseI64 with
  | some bits => simp [Json.ofF64_ne_string]
  | none =>
    by_cases htrue : s = "true"
    · simp [htrue]
    by_cases hfalse : s = "false"
    · simp [hfalse]
    cases hint : parseI64 s.toList with
    | some n => simp [htrue, hfalse, isFloat_of_parseI64 hint]
    | none =>
      cases isFloat s.toList
      · simp [htrue, hfalse, eq_comm]
      · simp [htrue, hfalse, Json.ofF64_ne_string]

theorem decodeTextResult_of_isDecimal {cs : List Char} (hdecimal : isDecimal cs = true)
    (hsign : stripSign cs = cs) :
    decodeTextResult fmt (String.ofList cs) =
      ((parseI64 cs).map Json.integer).getD (.ofF64 (fmt.ofText cs)) := by
  have hstrip : strip "d:".toList cs = none := by
    refine if_neg ?_
    rintro ⟨rest, rfl⟩
    cases hdecimal
  have hne (t : String) (ht : isDecimal t.toList = false) : String.ofList cs ≠ t := by
    rintro rfl
    rw [String.toList_ofList, hdecimal] at ht
    cases ht
  have hfloat : isFloat cs = true := by simp [isFloat, hsign, hdecimal]
  simp only [decodeTextResult, String.toList_ofList, hstrip, Option.bind_none, hfloat, if_true,
    if_neg (hne "true" (by decide)), if_neg (hne "false" (by decide))]
  cases parseI64 cs <;> rfl

theorem decodeTextResult_of_parseI64 {n : Int64} (h : parseI64 s.toList = some n) :
    decodeTextResult fmt s = .integer n := by
  have hstrip : strip "d:".toList s.toList = none := by
    refine if_neg ?_
    rintro ⟨rest, hrest⟩
    rw [← hrest] at h
    cases h
  have hne (t : String) (ht : parseI64 t.toList = none) : s ≠ t := by
    rintro rfl
    rw [h] at ht
    cases ht
  simp only [decodeTextResult, hstrip, Option.bind_none, h,
    if_neg (hne "true" (by decide)), if_neg (hne "false" (by decide))]

theorem parseI64_of_decodeTextResult {n : Int64} (h : decodeTextResult fmt s = .integer n) :
    parseI64 s.toList = some n := by
  have hfloat (f : F64) : Json.ofF64 f ≠ .integer n := by cases f <;> exact nofun
  unfold decodeTextResult at h
  dsimp only at h
  split at h
  · exact absurd h (hfloat _)
  · split at h
    · cases h
    · split at h
      · cases h
      · split at h
        · rename_i hparse
          cases h
          exact hparse
        · split at h
          · exact absurd h (hfloat _)
          · cases h

theorem decodeTextResult_boolText (b : Bool) :
    decodeTextResult fmt (boolText b) = .bool b := by
  cases b <;> simp [decodeTextResult, boolText, strip]

end Decode

theorem not_guessed_keyword (s : String) : ¬ Guessed (":" ++ s) := by
  have hcs : (":" ++ s).toList = ':' :: s.toList := by
    rw [String.toList_append]
    rfl
  have hne (t : String) (ht : t.toList.head? ≠ some ':') : ":" ++ s ≠ t := by
    rintro rfl
    rw [hcs] at ht
    exact ht rfl
  have hfloat : isFloat (':' :: s.toList) = false := by
    simp [isFloat, stripSign, isDecimal]
  rintro (h | h | h | h)
  · rw [hcs] at h
    cases h
  · exact hne "true" (by decide) h
  · exact hne "false" (by decide) h
  · rw [hcs, hfloat] at h
    cases h

def hexChars : List Char := "0123456789abcdef".toList

theorem hexDigit_mem (n : Nat) : hexDigit n ∈ hexChars := by
  have hall : ∀ k : Fin 16, Nat.digitChar k ∈ hexChars := by decide
  exact hall ⟨n % 16, Nat.mod_lt n (by decide)⟩

theorem mem_hexEncode {bs : List UInt8} {c : Char} (h : c ∈ hexEncode bs) : c ∈ hexChars := by
  induction bs with
  | nil => cases h
  | cons b bs ih =>
    simp only [hexEncode, mem_cons] at h
    rcases h with rfl | rfl | h
    · exact hexDigit_mem _
    · exact hexDigit_mem _
    · exact ih h

theorem isFloat_of_guessed {cs : List Char} (hcs : ∀ c ∈ cs, c = '-' ∨ c ∈ hexChars)
    (h : Guessed (String.ofList cs)) : isFloat cs = true := by
  have hnot (c : Char) (hc : ¬ (c = '-' ∨ c ∈ hexChars)) : c ∉ cs := fun hmem => hc (hcs c hmem)
  unfold Guessed at h
  rw [String.toList_ofList (l := cs)] at h
  rcases h with h | h | h | h
  · have hstrip : strip "d:".toList cs = none := by
      refine if_neg ?_
      rintro ⟨rest, rfl⟩
      exact hnot ':' (by decide) (mem_cons_of_mem _ mem_cons_self)
    rw [hstrip] at h
    cases h
  · have hlist := congrArg String.toList h
    rw [String.toList_ofList] at hlist
    exact absurd (hlist ▸ mem_cons_self) (hnot 't' (by decide))
  · have hlist := congrArg String.toList h
    rw [String.toList_ofList] at hlist
    exact absurd (hlist ▸ (by decide : 'l' ∈ "false".toList)) (hnot 'l' (by decide))
  · exact h

theorem stripSign_hexEncode (bs : List UInt8) : stripSign (hexEncode bs) = hexEncode bs := by
  unfold stripSign
  split
  · next cs hcs =>
    have hdash : '-' ∈ hexEncode bs := hcs ▸ mem_cons_self
    exact absurd (mem_hexEncode hdash) (by decide)
  · next cs hcs =>
    have hplus : '+' ∈ hexEncode bs := hcs ▸ mem_cons_self
    exact absurd (mem_hexEncode hplus) (by decide)
  · rfl

theorem isDecimal_of_guessed {bs : List UInt8} (h : Guessed (String.ofList (hexEncode bs))) :
    isDecimal (hexEncode bs) = true := by
  have hfloat := isFloat_of_guessed (fun c hc => .inr (mem_hexEncode hc)) h
  simp only [isFloat, stripSign_hexEncode, decide_eq_true_eq] at hfloat
  refine hfloat.resolve_left fun hspelled => ?_
  -- every name of a number that is not finite has an `n`, which is no hexadecimal digit
  have hn : 'n' ∈ (hexEncode bs).map Char.toLower := by
    simp only [mem_cons, not_mem_nil, or_false] at hspelled
    rcases hspelled with h | h | h <;> rw [h] <;> decide
  obtain ⟨c, hc, hlower⟩ := mem_map.mp hn
  have hall : (hexChars.all fun c => c.toLower != 'n') = true := by decide
  have hne := all_eq_true.mp hall c (mem_hexEncode hc)
  simp [hlower] at hne

theorem uuid_count (u : Uuid) : u.chars.count '-' = 4 := by
  have hhex (bs : List UInt8) : (hexEncode bs).count '-' = 0 :=
    count_eq_zero.mpr (Uuid.dash_not_mem_hexEncode bs)
  simp [Uuid.chars, count_append, hhex]

theorem not_guessed_uuid (u : Uuid) : ¬ Guessed (String.ofList u.chars) := by
  intro h
  have hcs : ∀ c ∈ u.chars, c = '-' ∨ c ∈ hexChars := by
    intro c hc
    simp only [Uuid.chars, mem_append, mem_cons] at hc
    rcases hc with (((hc | rfl | hc) | rfl | hc) | rfl | hc) | rfl | hc
    all_goals first | exact .inl rfl | exact .inr (mem_hexEncode hc)
  have hcount := count_of_isFloat (isFloat_of_guessed hcs h)
  rw [uuid_count] at hcount
  omega

theorem not_guessed_instant (micros : Int) : ¬ Guessed (instantText micros) := by
  -- two colons: one is left behind a `d:`, and no number has any
  have hcount : 2 ≤ (instantText micros).toList.count ':' := by
    simp only [instantText, timeText, String.toList_append, count_append]
    have hcolon : ":".toList.count ':' = 1 := by decide
    omega
  have hmem : ':' ∈ (instantText micros).toList := count_pos_iff.mp (by omega)
  rintro (h | h | h | h)
  · obtain ⟨n, hn⟩ := Option.isSome_iff_exists.mp h
    obtain ⟨rest, hrest, hparse⟩ := Option.bind_eq_some_iff.mp hn
    have hnot := colon_not_mem_of_isFloat (isFloat_of_parseI64 hparse)
    unfold strip at hrest
    split at hrest
    · rename_i hpre
      obtain ⟨tail, htail⟩ := hpre
      rw [← htail] at hrest hcount
      cases hrest
      have htwo : (2 : Nat) ≤ 1 + tail.count ':' := by
        simpa [count_append, Nat.add_comm] using hcount
      exact hnot (count_pos_iff.mp (by simp only [drop_left]; omega))
    · cases hrest
  · rw [h] at hmem
    exact absurd hmem (by decide)
  · rw [h] at hmem
    exact absurd hmem (by decide)
  · exact colon_not_mem_of_isFloat h hmem

section Kept

variable {fmt : FloatFormat}

theorem valueDecodeExpr_eq {v w : TypedValue} (hv : ¬ Guessed (valueDecodeExpr fmt v))
    (h : w.json fmt = v.json fmt) : valueDecodeExpr fmt w = valueDecodeExpr fmt v := by
  have hstring : v.json fmt = .string (valueDecodeExpr fmt v) :=
    decodeTextResult_eq_string.mpr ⟨rfl, hv⟩
  rw [hstring] at h
  exact (decodeTextResult_eq_string.mp h).1.symm

theorem json_long (n : Int64) : (TypedValue.long n).json fmt = .integer n :=
  decodeTextResult_of_parseI64 (parseI64_toString n)

theorem json_ref (n : Int64) : (TypedValue.ref n).json fmt = .integer n :=
  decodeTextResult_of_parseI64 (parseI64_toString n)

theorem json_boolean (b : Bool) : (TypedValue.boolean b).json fmt = .bool b :=
  decodeTextResult_boolText b

theorem kept_text {s : String} : (TypedValue.text s).Kept fmt .string ↔ ¬ Guessed s := by
  constructor
  · exact fun h => (decodeTextResult_eq_string.mp h.2).2
  · intro hs
    refine ⟨fun w hw h => ?_, decodeTextResult_eq_string.mpr ⟨rfl, hs⟩⟩
    cases w with
    | text t => exact congrArg text (valueDecodeExpr_eq (v := .text s) hs h)
    | _ => cases hw

theorem kept_keyword (s : String) : (TypedValue.keyword s).Kept fmt .keyword := by
  have hs := not_guessed_keyword s
  refine ⟨fun w hw h => ?_, decodeTextResult_eq_string.mpr ⟨rfl, hs⟩⟩
  cases w with
  | keyword t =>
    have heq := congrArg String.toList (valueDecodeExpr_eq (v := .keyword s) hs h)
    rw [valueDecodeExpr, valueDecodeExpr, String.toList_append, String.toList_append] at heq
    exact congrArg keyword (String.toList_inj.mp (append_cancel_left heq))
  | _ => cases hw

theorem kept_uuid (u : Uuid) : (TypedValue.uuid u).Kept fmt .uuid := by
  refine ⟨fun w hw h => ?_, trivial⟩
  cases w with
  | uuid u' =>
    have heq := congrArg String.toList (valueDecodeExpr_eq (v := .uuid u) (not_guessed_uuid u) h)
    rw [valueDecodeExpr, valueDecodeExpr, String.toList_ofList, String.toList_ofList] at heq
    exact congrArg uuid (Uuid.chars_inj heq)
  | _ => cases hw

theorem json_zero_bytes {bs : List UInt8} (h : Guessed (String.ofList (hexEncode bs))) :
    (TypedValue.bytes (0 :: bs)).json fmt = (TypedValue.bytes bs).json fmt := by
  have hsign : stripSign (hexEncode bs) = hexEncode bs := stripSign_hexEncode bs
  have hdecimal : isDecimal (hexEncode bs) = true := isDecimal_of_guessed h
  have hne : hexEncode bs ≠ [] := by
    intro hnil
    rw [hnil] at hdecimal
    cases hdecimal
  have hzeros : hexEncode (0 :: bs) = '0' :: '0' :: hexEncode bs := rfl
  have hparse : parseI64 ('0' :: '0' :: hexEncode bs) = parseI64 (hexEncode bs) := by
    unfold parseI64
    rw [parseInt_zero_cons rfl (cons_ne_nil _ _), parseInt_zero_cons hsign hne]
  have htext : fmt.ofText ('0' :: '0' :: hexEncode bs) = fmt.ofText (hexEncode bs) := by
    rw [fmt.ofText_zero _ (isDecimal_zero_cons hdecimal), fmt.ofText_zero _ hdecimal]
  show decodeTextResult fmt (String.ofList (hexEncode (0 :: bs))) =
    decodeTextResult fmt (String.ofList (hexEncode bs))
  rw [hzeros,
    decodeTextResult_of_isDecimal (isDecimal_zero_cons (isDecimal_zero_cons hdecimal)) rfl,
    decodeTextResult_of_isDecimal hdecimal hsign, hparse, htext]

theorem kept_bytes {bs : List UInt8} :
    (TypedValue.bytes bs).Kept fmt .bytes ↔ ¬ Guessed (String.ofList (hexEncode bs)) := by
  constructor
  · intro h hguessed
    have heq := h.1 (.bytes (0 :: bs)) rfl (json_zero_bytes hguessed)
    have hlength := congrArg List.length (TypedValue.bytes.inj heq)
    simp at hlength
  · intro hs
    refine ⟨fun w hw h => ?_, trivial⟩
    cases w with
    | bytes bs' =>
      have heq := congrArg String.toList (valueDecodeExpr_eq (v := .bytes bs) hs h)
      rw [valueDecodeExpr, valueDecodeExpr, String.toList_ofList, String.toList_ofList] at heq
      exact congrArg bytes (hexEncode_inj heq)
    | _ => cases hw

theorem kept_iff {v : TypedValue} (hdouble : v.valueType ≠ .double)
    (hinstant : v.valueType ≠ .instant) : v.Kept fmt v.valueType ↔ v.Unguessed := by
  cases v with
  | text s => exact kept_text
  | bytes bs => exact kept_bytes
  | keyword s => exact iff_of_true (kept_keyword s) trivial
  | uuid u => exact iff_of_true (kept_uuid u) trivial
  | long n =>
    refine iff_of_true ⟨fun w hw h => ?_, json_long n⟩ trivial
    cases w with
    | long m =>
      rw [json_long, json_long] at h
      exact congrArg long (Json.integer.inj h)
    | _ => cases hw
  | ref n =>
    refine iff_of_true ⟨fun w hw h => ?_, json_ref n⟩ trivial
    cases w with
    | ref m =>
      rw [json_ref, json_ref] at h
      exact congrArg ref (Json.integer.inj h)
    | _ => cases hw
  | boolean b =>
    refine iff_of_true ⟨fun w hw h => ?_, json_boolean b⟩ trivial
    cases w with
    | boolean c =>
      rw [json_boolean, json_boolean] at h
      exact congrArg boolean (Json.bool.inj h)
    | _ => cases hw
  | double f => exact absurd rfl hdouble
  | instant micros => exact absurd rfl hinstant

end Kept

/-- `[:find ?v :where [e a ?v]]`. -/
def valueQuery (e : Int64) (attr : PatternNonValuePlace) : Query where
  find := ["?v"]
  patterns := [{ entity := .entid e, attr, value := .variable "?v" }]

section ValueQuery

variable {fmt : FloatFormat} {db : Db} {attr : PatternNonValuePlace} {e a : Int64}

theorem valueQuery_build (hconst : attr.IsConstant)
    (ha : ∀ σ, attr.Denotes db.attributeNamed σ a) :
    ∃ s, buildExtendedPatternQuery db.cache {} (valueQuery e attr) = .ok s ∧ s.Accepted := by
  have hbuild (clause : Clause)
      (hbind : ∀ b, bindAttribute db.cache 0 b attr = .ok (b.push clause)) :
      buildExtendedPatternQuery db.cache {} (valueQuery e attr) =
        .ok ⟨[.valueDecode 0], [patternSource db.cache {} attr],
          [.param 0 .e (.bigint e), clause, .param 0 .added (.boolean true)]⟩ := by
    simp only [buildExtendedPatternQuery, valueQuery, List.zipIdx, List.foldlM, compilePattern,
      hbind]
    rfl
  cases attr with
  | placeholder | «variable» x => exact hconst.elim
  | entid id => exact ⟨_, hbuild _ fun _ => rfl, by simp [Select.Accepted, Clause.Accepted]⟩
  | ident k =>
    have hresolve := resolveIdent_of_attributeNamed (ha fun _ => default)
    refine ⟨_, hbuild (.entid 0 .a .schema k.display) fun b => ?_, ?_⟩
    · exact if_neg (by rw [hresolve]; exact Option.some_ne_none a)
    · simp [Select.Accepted, Clause.Accepted]

theorem mem_valueQuery_row {s : Select} (hidents : db.PlainIdents) (hconst : attr.IsConstant)
    (ha : ∀ σ, attr.Denotes db.attributeNamed σ a)
    (hbuild : buildExtendedPatternQuery db.cache {} (valueQuery e attr) = .ok s)
    (hacc : s.Accepted) {row : List Json} :
    row ∈ s.json fmt db ↔ ∃ x ∈ db.current, x.e = e ∧ x.a = a ∧
      (∀ t ∈ db.declaredType a, x.v.valueType = t) ∧ [x.v.json fmt] = row := by
  have hsees (σ : Assignment) (p : Pattern) (hp : p ∈ (valueQuery e attr).patterns) :
      (∃ r, p.Sees db {} r ∧ p.Reads db σ r) ↔
        ∃ x, (x ∈ db.current ∧ ∀ t ∈ db.declaredType a, x.v.valueType = t) ∧
          p.Reads db σ x.live := by
    have htype : resolvePatternValueType db.cache p.attr = db.declaredType a := by
      rw [mem_singleton.mp hp]
      exact resolvePatternValueType_of_constant hconst (ha σ)
    rw [exists_sees_iff hidents, htype]
  have hjson : row ∈ {row | row ∈ s.json fmt db} ↔ _ :=
    Set.ext_iff.mp (mem_json_iff hbuild hacc hsees) row
  refine hjson.trans ?_
  constructor
  · rintro ⟨answer, ⟨σ, hpattern, rfl⟩, hj⟩
    obtain ⟨x, ⟨hx, htype⟩, he, hattr, hv, -⟩ := hpattern _ mem_cons_self
    refine ⟨x, hx, Eq.symm he, hconst.denotes_inj hattr (ha σ), htype, ?_⟩
    rw [← show σ "?v" = x.v from hv]
    exact hj
  · rintro ⟨x, hx, rfl, rfl, htype, rfl⟩
    refine ⟨[x.v], ⟨fun _ => x.v, fun p hp => ⟨x, ⟨hx, htype⟩, ?_⟩, rfl⟩, rfl⟩
    rw [mem_singleton.mp hp]
    exact ⟨rfl, ha _, rfl, trivial, trivial⟩

theorem mem_valueQuery {s : Select} (hidents : db.PlainIdents) (hconst : attr.IsConstant)
    (ha : ∀ σ, attr.Denotes db.attributeNamed σ a)
    (hbuild : buildExtendedPatternQuery db.cache {} (valueQuery e attr) = .ok s)
    (hacc : s.Accepted) {j : Json} :
    [j] ∈ s.json fmt db ↔ ∃ x ∈ db.current, x.e = e ∧ x.a = a ∧
      (∀ t ∈ db.declaredType a, x.v.valueType = t) ∧ x.v.json fmt = j := by
  rw [mem_valueQuery_row hidents hconst ha hbuild hacc]
  simp only [List.cons.injEq, and_true]

/-- The value of a live datom can be recovered from the result exactly if it has the declared
type and its text reads as nothing else. -/
theorem mentatQuery_keeps_iff (fmt : FloatFormat) (maxRows : Nat) {r : CurrentRow}
    (hr : r ∈ db.current) (hidents : db.PlainIdents) (hconst : attr.IsConstant)
    (ha : ∀ σ, attr.Denotes db.attributeNamed σ r.a) (hdouble : r.v.valueType ≠ .double)
    (hinstant : r.v.valueType ≠ .instant) :
    ∃ rows : List (List Json),
      mentatQuery fmt maxRows {} (valueQuery r.e attr) db =
        (if 0 < maxRows ∧ maxRows < rows.length then .error (.resultLimitExceeded maxRows)
        else .ok rows) ∧
      ([r.v.json fmt] ∈ rows ∧ r.v.Kept fmt ((db.declaredType r.a).getD r.v.valueType) ↔
        (db.declaredType r.a).getD r.v.valueType = r.v.valueType ∧ r.v.Unguessed) := by
  obtain ⟨s, hbuild, hacc⟩ := valueQuery_build (e := r.e) hconst ha
  refine ⟨s.json fmt db, mentatQuery_eq hbuild hacc, ?_⟩
  rw [mem_valueQuery hidents hconst ha hbuild hacc]
  constructor
  · rintro ⟨⟨x, -, -, -, htype, hjson⟩, hkept⟩
    have hdeclared : (db.declaredType r.a).getD r.v.valueType = r.v.valueType := by
      cases hd : db.declaredType r.a with
      | none => rfl
      | some t =>
        rw [hd] at hkept
        rw [← hkept.1 x.v (htype t hd) hjson]
        exact (htype t hd).symm
    rw [hdeclared] at hkept
    exact ⟨hdeclared, (kept_iff hdouble hinstant).mp hkept⟩
  · rintro ⟨hdeclared, hunguessed⟩
    refine ⟨⟨r, hr, rfl, rfl, fun t ht => ?_, rfl⟩, ?_⟩
    · rw [← hdeclared, show db.declaredType r.a = some t from ht]
      rfl
    · rw [hdeclared]
      exact (kept_iff hdouble hinstant).mpr hunguessed

end ValueQuery

def docAttribute : PatternNonValuePlace := .ident (.namespaced "db" "doc")

/-- A doc string that is a word is returned as it is. -/
theorem mentatQuery_keeps_iff_doc :
    ∃ db rows, stateAfter [describeCall] = some db ∧
      mentatQuery noDoubles 0 {} (valueQuery 500 docAttribute) db = .ok rows ∧
      [(TypedValue.text "x").json noDoubles] ∈ rows ∧
      (TypedValue.text "x").Kept noDoubles .string := by
  have hstate : ∃ db ∈ stateAfter [describeCall], db.PlainIdents ∧
      db.attributeNamed (.namespaced "db" "doc") = some Entids.dbDoc ∧
      db.declaredType Entids.dbDoc = some .string ∧
      ∃ r ∈ db.current, r.e = 500 ∧ r.a = Entids.dbDoc ∧ r.v = .text "x" := by
    decide +kernel
  obtain ⟨db, hdb, hidents, hnamed, htype, ⟨e, a, v, tx⟩, hr, rfl, rfl, rfl⟩ := hstate
  have hconst : docAttribute.IsConstant := trivial
  obtain ⟨rows, hrows, hiff⟩ :=
    mentatQuery_keeps_iff noDoubles 0 hr hidents hconst (fun _ => hnamed) nofun nofun
  rw [htype] at hiff
  have hword : ¬ Guessed "x" := by decide
  obtain ⟨hmem, hkept⟩ := hiff.mpr ⟨rfl, hword⟩
  exact ⟨db, rows, hdb, hrows, hmem, hkept⟩

/-- A doc string that reads as a number is returned as the number, and so are all its
spellings. -/
theorem mentatQuery_guesses_number :
    ∃ db, stateAfter [plainCall 1000000000001 1735689600000000
        [addDatom 500 Entids.dbDoc (.text "42")]] = some db ∧
      (∃ r ∈ db.current, r.e = 500 ∧ r.a = Entids.dbDoc ∧ r.v = .text "42") ∧
      mentatQuery noDoubles 0 {} (valueQuery 500 docAttribute) db = .ok [[.integer 42]] ∧
      (TypedValue.text "042").json noDoubles = .integer 42 := by
  decide +kernel

end PgMentat

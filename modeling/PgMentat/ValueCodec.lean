import PgMentat.Value

namespace PgMentat

open List TextCodec

namespace F64

theorem mem_mantissaText {ds : List Char} {c : Char} (h : c ∈ mantissaText ds) :
    c ∈ ds ∨ c = '.' := by
  match ds with
  | [] => cases h
  | [d] => exact .inl h
  | d :: d' :: ds =>
    simp only [mantissaText, mem_cons] at h ⊢
    tauto

theorem mantissaText_filter {ds : List Char} (h : '.' ∉ ds) :
    (mantissaText ds).filter (· ≠ '.') = ds := by
  have hkeep : ∀ c ∈ ds, decide (c ≠ '.') = true := by
    intro c hc
    exact decide_eq_true fun hdot => h (hdot ▸ hc)
  match ds with
  | [] => rfl
  | [d] => simpa only [mantissaText] using filter_eq_self.mpr hkeep
  | d :: d' :: ds =>
    have htail : (d' :: ds).filter (· ≠ '.') = d' :: ds :=
      filter_eq_self.mpr fun c hc => hkeep c (mem_cons_of_mem d hc)
    have hd : d ≠ '.' := fun hdot => h (hdot ▸ mem_cons_self)
    rw [mantissaText, filter_cons, if_pos (decide_eq_true hd), filter_cons,
      if_neg (by decide), htail]
    simp

theorem mantissaText_ne_nil {ds : List Char} (h : ds ≠ []) : mantissaText ds ≠ [] := by
  match ds with
  | [] => exact absurd rfl h
  | [d] => exact cons_ne_nil _ _
  | d :: d' :: ds => exact cons_ne_nil _ _

theorem mantissa_char {n : Nat} {c : Char} (h : c ∈ mantissaText (Nat.toDigits 10 n)) :
    c ≠ 'e' ∧ c ≠ '-' ∧ c ≠ 'N' ∧ c ≠ 'I' ∧ c ≠ '\'' := by
  rcases mem_mantissaText h with h | rfl
  · have hdigit : c.isDigit = true := Nat.isDigit_of_mem_toDigits (by decide) (by decide) h
    refine ⟨?_, ?_, ?_, ?_, ?_⟩ <;> rintro rfl <;> exact absurd hdigit (by decide)
  · decide

theorem dot_not_mem_toDigits (n : Nat) : '.' ∉ Nat.toDigits 10 n := by
  intro h
  exact absurd (Nat.isDigit_of_mem_toDigits (by decide) (by decide) h) (by decide)

theorem toList_lowerExp_finite (negative : Bool) (digits : Nat) (exponent : Int)
    (h : digits % 10 ≠ 0) :
    (finite negative digits exponent h).lowerExp.toList =
      (if negative then ['-'] else []) ++
        (mantissaText (Nat.toDigits 10 digits) ++ 'e' :: (toString exponent).toList) := by
  simp only [lowerExp, String.toList_append, String.toList_ofList, append_assoc]
  cases negative <;> rfl

theorem parseUnsigned_mantissaText (negative : Bool) (digits : Nat) (exponent : Int)
    (h : digits % 10 ≠ 0) :
    parseUnsigned negative
        (mantissaText (Nat.toDigits 10 digits) ++ 'e' :: (toString exponent).toList) =
      some (finite negative digits exponent h) := by
  have hchars : ∀ c ∈ mantissaText (Nat.toDigits 10 digits), decide (c ≠ 'e') = true :=
    fun c hc => decide_eq_true (mantissa_char hc).1
  have hstop : ∀ cs : List Char, ('e' :: cs).takeWhile (· ≠ 'e') = [] ∧
      ('e' :: cs).dropWhile (· ≠ 'e') = 'e' :: cs := fun cs => by simp
  have hmantissa := mantissaText_filter (dot_not_mem_toDigits digits)
  simp only [parseUnsigned, takeWhile_append_of_pos hchars,
    dropWhile_append_of_pos hchars, hstop, append_nil, hmantissa, tail_cons,
    parseNat_toDigits, parseInt_toString, dif_pos h]

theorem mantissaText_cons (n : Nat) : ∃ c cs, mantissaText (Nat.toDigits 10 n) = c :: cs ∧
    c ≠ '-' ∧ c ≠ 'N' ∧ c ≠ 'I' ∧ c ≠ '\'' := by
  obtain ⟨c, cs, hc⟩ := exists_cons_of_ne_nil
    (mantissaText_ne_nil (Nat.toDigits_ne_nil (n := n) (b := 10)))
  have hcm : c ∈ mantissaText (Nat.toDigits 10 n) := hc ▸ mem_cons_self
  exact ⟨c, cs, hc, (mantissa_char hcm).2⟩

theorem parseFinite_lowerExp (negative : Bool) (digits : Nat) (exponent : Int)
    (h : digits % 10 ≠ 0) :
    parseFinite (finite negative digits exponent h).lowerExp.toList =
      some (finite negative digits exponent h) := by
  rw [toList_lowerExp_finite]
  cases negative with
  | true => exact parseUnsigned_mantissaText true digits exponent h
  | false =>
    have hunsigned := parseUnsigned_mantissaText false digits exponent h
    obtain ⟨c, cs, hc, hminus, -⟩ := mantissaText_cons digits
    rw [hc] at hunsigned ⊢
    have hhead : ¬ (c :: cs ++ 'e' :: (toString exponent).toList).head? = some '-' :=
      fun heq => hminus (Option.some.inj heq)
    exact (if_neg hhead).trans hunsigned

theorem lowerExp_finite_cons (negative : Bool) (digits : Nat) (exponent : Int)
    (h : digits % 10 ≠ 0) : ∃ c cs, (finite negative digits exponent h).lowerExp.toList = c :: cs ∧
      c ≠ '\'' ∧ c ≠ 'N' ∧ c ≠ 'I' ∧ (c = '-' → ∀ ds, cs ≠ 'I' :: ds) := by
  rw [toList_lowerExp_finite]
  obtain ⟨c, cs, hc, hminus, hN, hI, hquote⟩ := mantissaText_cons digits
  rw [hc]
  cases negative with
  | true =>
    refine ⟨'-', _, rfl, by decide, by decide, by decide, fun _ ds heq => ?_⟩
    exact hI (List.cons.inj heq).1
  | false => exact ⟨c, _, rfl, hquote, hN, hI, fun heq => absurd heq hminus⟩

theorem parse_text (f : F64) : parse f.text = some f := by
  match f with
  | nan => rfl
  | infinity true => decide
  | infinity false => decide
  | zero => decide
  | finite negative digits exponent h =>
    obtain ⟨c, cs, hc, -, hN, hI, hsign⟩ := lowerExp_finite_cons negative digits exponent h
    have hnan : c :: cs ≠ "NaN".toList := fun heq => hN (List.cons.inj heq).1
    have hinf : c :: cs ≠ "Infinity".toList := fun heq => hI (List.cons.inj heq).1
    have hneg : c :: cs ≠ "-Infinity".toList :=
      fun heq => hsign (List.cons.inj heq).1 _ (List.cons.inj heq).2
    have hfinite := parseFinite_lowerExp negative digits exponent h
    change parse (finite negative digits exponent h).lowerExp.toList = _
    rw [hc] at hfinite ⊢
    rw [parse, if_neg hnan, if_neg hinf, if_neg hneg, hfinite]

end F64

namespace Uuid

theorem dash_not_mem_hexEncode (bs : List UInt8) : '-' ∉ hexEncode bs := by
  have hdigit : ∀ n, hexDigit n ≠ '-' := by
    intro n hn
    have hval := hexValue_hexDigit n
    rw [hn, show hexValue '-' = none by decide] at hval
    cases hval
  induction bs with
  | nil => exact not_mem_nil
  | cons b bs ih =>
    simp only [hexEncode, mem_cons, not_or]
    exact ⟨(hdigit _).symm, (hdigit _).symm, ih⟩

theorem chars_filter (u : Uuid) : u.chars.filter (· ≠ '-') = hexEncode u.bytes := by
  have hkeep : ∀ bs, (hexEncode bs).filter (· ≠ '-') = hexEncode bs := fun bs =>
    filter_eq_self.mpr fun c hc =>
      decide_eq_true fun hdash => dash_not_mem_hexEncode bs (hdash ▸ hc)
  have happend : ∀ bs cs, hexEncode (bs ++ cs) = hexEncode bs ++ hexEncode cs := by
    intro bs cs
    induction bs with
    | nil => rfl
    | cons b bs ih => simp only [cons_append, hexEncode, ih]
  have hsplit : u.bytes = u.bytes.take 4 ++ ((u.bytes.drop 4).take 2 ++
      ((u.bytes.drop 6).take 2 ++ ((u.bytes.drop 8).take 2 ++ u.bytes.drop 10))) := by
    have hstep : ∀ m n, u.bytes.drop m =
        (u.bytes.drop m).take n ++ u.bytes.drop (m + n) := fun m n => by
      rw [← drop_drop, take_append_drop]
    rw [← hstep 8 2, ← hstep 6 2, ← hstep 4 2, take_append_drop]
  conv_rhs => rw [hsplit]
  simp only [chars, filter_append, filter_cons, hkeep, happend, append_assoc]
  simp

theorem parse_chars (u : Uuid) : parse u.chars = some u := by
  simp only [parse, chars_filter, hexDecode_hexEncode, dif_pos u.length_eq]

theorem chars_inj {u w : Uuid} (h : u.chars = w.chars) : u = w := by
  have hu := parse_chars u
  rw [h, parse_chars w] at hu
  exact (Option.some.inj hu).symm

end Uuid

namespace TypedValue

theorem parseI64_toString (n : Int64) : parseI64 (toString n.toInt).toList = some n := by
  have hlo := Int64.le_toInt n
  have hhi := Int64.toInt_lt n
  rw [parseI64, parseInt_toString]
  change (if _ then _ else _) = _
  rw [if_pos ⟨hlo, hhi⟩, Int64.ofInt_toInt]

def WholeSecond : TypedValue → Prop
  | instant micros => (1000000 : Int) ∣ micros.toInt
  | _ => True

instance : ∀ v : TypedValue, Decidable v.WholeSecond
  | instant micros => inferInstanceAs (Decidable ((1000000 : Int) ∣ micros.toInt))
  | ref _ | boolean _ | long _ | double _ | text _ | keyword _ | uuid _ | bytes _ => isTrue trivial

theorem roundedSeconds_of_dvd {micros : Int} (h : (1000000 : Int) ∣ micros) :
    roundedSeconds micros * 1000000 = micros := by
  obtain ⟨s, rfl⟩ := h
  unfold roundedSeconds
  split <;> omega

theorem parseFromTag_projectionText {v : TypedValue} (h : v.WholeSecond) :
    parseFromTag v.valueType v.projectionText = .ok v := by
  cases v with
  | ref id => simp only [valueType, parseFromTag, projectionText, parseI64_toString]
  | boolean b => cases b <;> rfl
  | long n => simp only [valueType, parseFromTag, projectionText, parseI64_toString]
  | double f => simp only [valueType, parseFromTag, projectionText, F64.parse_text]
  | text s | keyword s => simp only [valueType, parseFromTag, projectionText, String.ofList_toList]
  | instant micros =>
    simp only [valueType, parseFromTag, projectionText, roundedSeconds_of_dvd h, parseI64_toString]
  | uuid u => simp only [valueType, parseFromTag, projectionText, Uuid.parse_chars]
  | bytes bs => simp only [valueType, parseFromTag, projectionText, hexDecode_hexEncode]

theorem valueType_of_parseFromTag {type : ValueType} {cs : List Char} {v : TypedValue}
    (h : parseFromTag type cs = .ok v) : v.valueType = type := by
  unfold parseFromTag at h
  cases type <;> simp only at h <;> first
    | (cases h; rfl)
    | (split at h <;> cases h; rfl)

theorem quoted_inj {cs ds : List Char} (h : quoted cs = quoted ds) : cs = ds :=
  doubleQuotes_inj (append_cancel_right (List.cons.inj h).2)

theorem doubleLiteral_inj {f g : F64} (h : doubleLiteral f = doubleLiteral g) : f = g := by
  have hnum : ∀ negative digits exponent h', ∀ cs : List Char, cs.head? = some '\'' →
      (F64.finite negative digits exponent h').lowerExp.toList ≠ cs := by
    rintro negative digits exponent h' cs hcs rfl
    obtain ⟨c, ds, hc, hquote, -⟩ := F64.lowerExp_finite_cons negative digits exponent h'
    rw [hc] at hcs
    exact hquote (Option.some.inj hcs)
  have htext : f.text = g.text := by
    have hcancel := append_cancel_right h
    match f, g with
    | .zero, .zero => rfl
    | .zero, .finite .. => exact hcancel
    | .finite .., .zero => exact hcancel
    | .finite .., .finite .. => exact hcancel
    | .finite n d e h', .nan => exact absurd hcancel (hnum n d e h' _ rfl)
    | .finite n d e h', .infinity true => exact absurd hcancel (hnum n d e h' _ rfl)
    | .finite n d e h', .infinity false => exact absurd hcancel (hnum n d e h' _ rfl)
    | .nan, .finite n d e h' => exact absurd hcancel.symm (hnum n d e h' _ rfl)
    | .infinity true, .finite n d e h' => exact absurd hcancel.symm (hnum n d e h' _ rfl)
    | .infinity false, .finite n d e h' => exact absurd hcancel.symm (hnum n d e h' _ rfl)
    | .nan, .nan => rfl
    | .nan, .infinity b => revert hcancel; cases b <;> decide
    | .nan, .zero => revert hcancel; decide
    | .infinity b, .nan => revert hcancel; cases b <;> decide
    | .infinity b, .infinity c => revert hcancel; cases b <;> cases c <;> decide
    | .infinity b, .zero => revert hcancel; cases b <;> decide
    | .zero, .nan => revert hcancel; decide
    | .zero, .infinity b => revert hcancel; cases b <;> decide
  have hparse := F64.parse_text f
  rw [htext, F64.parse_text g] at hparse
  exact (Option.some.inj hparse).symm

theorem toString_toInt_inj {m n : Int64}
    (h : (toString m.toInt).toList = (toString n.toInt).toList) : m = n :=
  Int64.toInt_inj.mp (toString_int_inj (String.toList_inj.mp h))

theorem eq_of_sqlLiteral_eq {v w : TypedValue} (htype : v.valueType = w.valueType)
    (h : v.sqlLiteral = w.sqlLiteral) : v = w := by
  have hchars : v.sqlLiteralChars = w.sqlLiteralChars := by
    simpa only [sqlLiteral, String.ofList_inj] using h
  cases v <;> cases w <;> simp only [valueType, reduceCtorEq] at htype
  · rw [toString_toInt_inj hchars]
  · rename_i b c
    revert hchars
    cases b <;> cases c <;> decide
  · rw [toString_toInt_inj hchars]
  · rw [doubleLiteral_inj hchars]
  · rw [String.toList_inj.mp (quoted_inj hchars)]
  · rw [String.toList_inj.mp (quoted_inj hchars)]
  · rw [toString_toInt_inj (append_cancel_left (append_cancel_right hchars))]
  · rw [Uuid.chars_inj (append_cancel_right (List.cons.inj hchars).2)]
  · rw [hexEncode_inj (append_cancel_left (append_cancel_right hchars))]

/-- The types whose literals are told apart: a ref is spelled like a long, a string like a
keyword. -/
inductive LiteralClass where
  | integer | boolean | double | instant | quoted | uuid | bytes
  deriving DecidableEq

def literalClass (v : TypedValue) : LiteralClass :=
  match v.valueType with
  | .ref | .long => .integer
  | .boolean => .boolean
  | .double => .double
  | .instant => .instant
  | .string | .keyword => .quoted
  | .uuid => .uuid
  | .bytes => .bytes

def classOfChars (cs : List Char) : LiteralClass :=
  if cs.getLast? = some 'e' then .boolean
  else if cs.getLast? = some 'n' then .double
  else if cs.getLast? = some ')' then if cs.head? = some 't' then .instant else .bytes
  else if cs.getLast? = some '\'' then .quoted
  else if cs.getLast? = some 'd' then .uuid
  else .integer

theorem classOfChars_of_digit {cs : List Char} {c : Char} (h : cs.getLast? = some c)
    (hc : c.isDigit = true) : classOfChars cs = .integer := by
  have hne : ∀ d : Char, d.isDigit = false → cs.getLast? ≠ some d := by
    rintro d hd heq
    rw [Option.some.inj (h.symm.trans heq), hd] at hc
    cases hc
  rw [classOfChars, if_neg (hne 'e' (by decide)), if_neg (hne 'n' (by decide)),
    if_neg (hne ')' (by decide)), if_neg (hne '\'' (by decide)), if_neg (hne 'd' (by decide))]

theorem getLast?_toString (n : Int) :
    ∃ c, (toString n).toList.getLast? = some c ∧ c.isDigit = true := by
  have hdigits : ∀ m : Nat, ∃ c, (Nat.toDigits 10 m).getLast? = some c ∧ c.isDigit = true := by
    intro m
    refine ⟨_, List.getLast?_eq_some_getLast Nat.toDigits_ne_nil, ?_⟩
    exact Nat.isDigit_of_mem_toDigits (by decide) (by decide) (getLast_mem _)
  cases n with
  | ofNat m =>
    change ∃ c, (Nat.repr m).toList.getLast? = some c ∧ _
    rw [Nat.toList_repr]
    exact hdigits m
  | negSucc m =>
    obtain ⟨c, hc, hdigit⟩ := hdigits (m + 1)
    refine ⟨c, ?_, hdigit⟩
    change ("-" ++ Nat.repr (m + 1)).toList.getLast? = _
    rw [String.toList_append, Nat.toList_repr, List.getLast?_append, hc]
    rfl

theorem getLast?_append_of {xs ys : List Char} {c : Char} (h : ys.getLast? = some c) :
    (xs ++ ys).getLast? = some c := by
  rw [List.getLast?_append, h]
  rfl

theorem classOfChars_sqlLiteralChars (v : TypedValue) :
    classOfChars v.sqlLiteralChars = v.literalClass := by
  cases v with
  | ref id =>
    obtain ⟨c, hc, hdigit⟩ := getLast?_toString id.toInt
    exact classOfChars_of_digit hc hdigit
  | long n =>
    obtain ⟨c, hc, hdigit⟩ := getLast?_toString n.toInt
    exact classOfChars_of_digit hc hdigit
  | boolean b => cases b <;> decide
  | double f =>
    have hlast : (double f).sqlLiteralChars.getLast? = some 'n' := getLast?_append_of (by decide)
    rw [classOfChars, if_neg (by rw [hlast]; decide), if_pos hlast]
    rfl
  | instant micros =>
    have hlast : (instant micros).sqlLiteralChars.getLast? = some ')' :=
      getLast?_append_of (by decide)
    have hhead : (instant micros).sqlLiteralChars.head? = some 't' := rfl
    rw [classOfChars, if_neg (by rw [hlast]; decide), if_neg (by rw [hlast]; decide),
      if_pos hlast, if_pos hhead]
    rfl
  | text s =>
    have hlast : (text s).sqlLiteralChars.getLast? = some '\'' := getLast?_append_of rfl
    simp [classOfChars, hlast, literalClass, valueType]
  | keyword s =>
    have hlast : (keyword s).sqlLiteralChars.getLast? = some '\'' := getLast?_append_of rfl
    simp [classOfChars, hlast, literalClass, valueType]
  | uuid u =>
    have hlast : (uuid u).sqlLiteralChars.getLast? = some 'd' := getLast?_append_of (by decide)
    simp [classOfChars, hlast, literalClass, valueType]
  | bytes bs =>
    have hlast : (bytes bs).sqlLiteralChars.getLast? = some ')' := getLast?_append_of (by decide)
    have hhead : (bytes bs).sqlLiteralChars.head? = some 'd' := rfl
    rw [classOfChars, if_neg (by rw [hlast]; decide), if_neg (by rw [hlast]; decide),
      if_pos hlast, if_neg (by rw [hhead]; decide)]
    rfl

theorem literalClass_of_sqlLiteral_eq {v w : TypedValue} (h : v.sqlLiteral = w.sqlLiteral)
    (hne : v ≠ w) : v.literalClass = .integer ∨ v.literalClass = .quoted := by
  have hclass : v.literalClass = w.literalClass := by
    have hchars : v.sqlLiteralChars = w.sqlLiteralChars := by
      simpa only [sqlLiteral, String.ofList_inj] using h
    rw [← classOfChars_sqlLiteralChars, ← classOfChars_sqlLiteralChars, hchars]
  by_contra hother
  refine hne (eq_of_sqlLiteral_eq ?_ h)
  revert hclass hother
  unfold literalClass
  cases v.valueType <;> cases w.valueType <;> decide

end TypedValue

end PgMentat

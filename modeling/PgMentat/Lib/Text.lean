import Mathlib.Data.List.Basic
import Mathlib.Data.List.TakeWhile

namespace TextCodec

open List

/-- Looking at the characters of a list, not at all characters there are. -/
instance (priority := high) decidableForallChar (p : Char → Prop) [DecidablePred p]
    (cs : List Char) : Decidable (∀ c ∈ cs, p c) :=
  List.decidableBAll p cs

/-- A nonempty run of decimal digits. -/
def parseNat (cs : List Char) : Option Nat :=
  if cs ≠ [] ∧ cs.all Char.isDigit then some (Nat.ofDigitChars 10 cs 0) else none

/-- Decimal digits after an optional sign. -/
def parseInt : List Char → Option Int
  | '-' :: cs => (parseNat cs).map fun (n : Nat) => -(n : Int)
  | '+' :: cs => (parseNat cs).map fun (n : Nat) => (n : Int)
  | cs => (parseNat cs).map fun (n : Nat) => (n : Int)

theorem parseNat_toDigits (n : Nat) : parseNat (Nat.toDigits 10 n) = some n := by
  have hdigits : (Nat.toDigits 10 n).all Char.isDigit = true :=
    all_eq_true.mpr fun c hc => Nat.isDigit_of_mem_toDigits (by decide) (by decide) hc
  rw [parseNat, if_pos ⟨Nat.toDigits_ne_nil, hdigits⟩, Nat.ofDigitChars_ten_toDigits]

theorem isDigit_toDigits (n : Nat) : ∀ c ∈ Nat.toDigits 10 n, c.isDigit = true :=
  fun _ hc => Nat.isDigit_of_mem_toDigits (by decide) (by decide) hc

variable {n : Nat} {cs : List Char}

theorem toDigits_eq_cons (h : n ≠ 0) : ∃ c cs, Nat.toDigits 10 n = c :: cs ∧ c ≠ '0' := by
  induction n using Nat.strongRecOn with
  | ind n ih =>
    by_cases hlt : n < 10
    · have hdigit : ∀ m : Fin 10, m.val ≠ 0 → Nat.digitChar m.val ≠ '0' := by decide
      exact ⟨_, _, Nat.toDigits_of_lt_base hlt, hdigit ⟨n, hlt⟩ h⟩
    · obtain ⟨c, cs, heq, hc⟩ := ih (n / 10) (by omega) (by omega)
      rw [Nat.toDigits_of_base_le (by decide) (by omega), heq]
      exact ⟨c, _, rfl, hc⟩

theorem toList_toString_ofNat (n : Nat) : (toString (n : Int)).toList = Nat.toDigits 10 n := by
  change (Nat.repr n).toList = _
  exact Nat.toList_repr

theorem toList_toString_neg (n : Nat) :
    (toString (Int.negSucc n)).toList = '-' :: Nat.toDigits 10 (n + 1) := by
  change ("-" ++ Nat.repr (n + 1)).toList = _
  rw [String.toList_append, Nat.toList_repr]
  rfl

theorem of_mem_toString {n : Int} {c : Char} (h : c ∈ (toString n).toList) :
    c.isDigit = true ∨ c = '-' := by
  cases n with
  | ofNat n =>
    rw [Int.ofNat_eq_natCast, toList_toString_ofNat] at h
    exact .inl (isDigit_toDigits n c h)
  | negSucc n =>
    rw [toList_toString_neg] at h
    exact (mem_cons.mp h).symm.imp_left (isDigit_toDigits (n + 1) c)

theorem isDigit_of_parseNat (h : parseNat cs = some n) : cs ≠ [] ∧ ∀ c ∈ cs, c.isDigit = true := by
  unfold parseNat at h
  split at h
  · rename_i hcs
    exact ⟨hcs.1, all_eq_true.mp hcs.2⟩
  · cases h

theorem parseInt_of_parseNat (h : parseNat cs = some n) : parseInt cs = some (n : Int) := by
  obtain ⟨hne, hdigits⟩ := isDigit_of_parseNat h
  obtain ⟨c, cs, rfl⟩ := exists_cons_of_ne_nil hne
  have hc : c.isDigit = true := hdigits c mem_cons_self
  unfold parseInt
  split
  · rename_i heq
    cases heq
    exact absurd hc (by decide)
  · rename_i heq
    cases heq
    exact absurd hc (by decide)
  · rw [h]
    rfl

theorem parseInt_toString (n : Int) : parseInt (toString n).toList = some n := by
  cases n with
  | ofNat n =>
    rw [Int.ofNat_eq_natCast, toList_toString_ofNat]
    exact parseInt_of_parseNat (parseNat_toDigits n)
  | negSucc n =>
    rw [toList_toString_neg]
    simp only [parseInt, parseNat_toDigits]
    rfl

theorem toString_int_inj {m n : Int} (h : toString m = toString n) : m = n := by
  have hm := parseInt_toString m
  rw [h, parseInt_toString n] at hm
  exact (Option.some.inj hm).symm

def stripSign : List Char → List Char
  | '-' :: cs => cs
  | '+' :: cs => cs
  | cs => cs

/-- Nothing, or `e` and a signed number. -/
def isExponent : List Char → Bool
  | [] => true
  | c :: cs => (c = 'e' ∨ c = 'E') ∧ (parseNat (stripSign cs)).isSome

/-- Digits with at most one point among them, at least one digit, and an exponent. -/
def isDecimal (cs : List Char) : Bool :=
  let whole := cs.takeWhile Char.isDigit
  match cs.dropWhile Char.isDigit with
  | '.' :: rest =>
    (whole ≠ [] ∨ rest.takeWhile Char.isDigit ≠ []) ∧ isExponent (rest.dropWhile Char.isDigit)
  | rest => whole ≠ [] ∧ isExponent rest

/-- The texts that Rust's `f64::from_str` accepts. -/
def isFloat (cs : List Char) : Bool :=
  let cs := stripSign cs
  cs.map Char.toLower ∈ ["inf".toList, "infinity".toList, "nan".toList] ∨ isDecimal cs

theorem isDecimal_of_parseNat (h : parseNat cs = some n) : isDecimal cs = true := by
  obtain ⟨hne, hdigits⟩ := isDigit_of_parseNat h
  have htake : cs.takeWhile Char.isDigit = cs := takeWhile_eq_self_iff.mpr hdigits
  have hdrop : cs.dropWhile Char.isDigit = [] := dropWhile_eq_nil_iff.mpr hdigits
  simp [isDecimal, htake, hdrop, hne, isExponent]

theorem stripSign_of_isDigit {c : Char} (h : c.isDigit = true) : stripSign (c :: cs) = c :: cs := by
  unfold stripSign
  split
  · rename_i heq
    cases heq
    exact absurd h (by decide)
  · rename_i heq
    cases heq
    exact absurd h (by decide)
  · rfl

theorem isFloat_of_parseInt {n : Int} (h : parseInt cs = some n) : isFloat cs = true := by
  have hdecimal : isDecimal (stripSign cs) = true := by
    unfold parseInt at h
    split at h
    · obtain ⟨m, hm, -⟩ := Option.map_eq_some_iff.mp h
      exact isDecimal_of_parseNat hm
    · obtain ⟨m, hm, -⟩ := Option.map_eq_some_iff.mp h
      exact isDecimal_of_parseNat hm
    · obtain ⟨m, hm, -⟩ := Option.map_eq_some_iff.mp h
      obtain ⟨hne, hdigits⟩ := isDigit_of_parseNat hm
      obtain ⟨c, cs, rfl⟩ := exists_cons_of_ne_nil hne
      rw [stripSign_of_isDigit (hdigits c mem_cons_self)]
      exact isDecimal_of_parseNat hm
  simp [isFloat, hdecimal]

theorem count_stripSign (cs : List Char) : cs.count '-' ≤ (stripSign cs).count '-' + 1 := by
  unfold stripSign
  split
  · rw [count_cons_self]
  · rw [count_cons_of_ne (by decide)]
    omega
  · omega

theorem count_of_isDigit (h : ∀ c ∈ cs, c.isDigit = true) : cs.count '-' = 0 := by
  apply count_eq_zero.mpr
  intro hmem
  exact absurd (h '-' hmem) (by decide)

theorem count_takeWhile_isDigit (cs : List Char) : (cs.takeWhile Char.isDigit).count '-' = 0 :=
  count_of_isDigit fun _ hc => mem_takeWhile_imp hc

theorem count_dropWhile_isDigit (cs : List Char) :
    (cs.dropWhile Char.isDigit).count '-' = cs.count '-' := by
  conv_rhs => rw [← takeWhile_append_dropWhile (p := Char.isDigit) (l := cs)]
  rw [count_append, count_takeWhile_isDigit, Nat.zero_add]

theorem count_of_isExponent (h : isExponent cs = true) : cs.count '-' ≤ 1 := by
  cases cs with
  | nil => exact Nat.zero_le 1
  | cons c cs =>
    simp only [isExponent, decide_eq_true_eq] at h
    obtain ⟨n, hn⟩ := Option.isSome_iff_exists.mp h.2
    have hdigits := count_of_isDigit (isDigit_of_parseNat hn).2
    have hstrip := count_stripSign cs
    rw [count_cons_of_ne (by rcases h.1 with rfl | rfl <;> decide)]
    omega

theorem count_of_isFloat (h : isFloat cs = true) : cs.count '-' ≤ 2 := by
  have hstrip := count_stripSign cs
  simp only [isFloat, decide_eq_true_eq] at h
  generalize stripSign cs = ds at h hstrip
  have hds : ds.count '-' ≤ 1 := by
    rcases h with h | h
    · have hlower : '-' ∉ ds.map Char.toLower := by
        intro hmem
        rw [mem_cons, mem_pair] at h
        rcases h with h | h | h <;> rw [h] at hmem <;> exact absurd hmem (by decide)
      rw [count_eq_zero.mpr fun hmem => hlower (mem_map.mpr ⟨'-', hmem, rfl⟩)]
      exact Nat.zero_le 1
    · simp only [isDecimal] at h
      split at h
      · rename_i rest hdrop
        have hexp := count_of_isExponent (of_decide_eq_true h).2
        have hds := count_dropWhile_isDigit ds
        rw [count_dropWhile_isDigit] at hexp
        rw [hdrop, count_cons_of_ne (by decide)] at hds
        omega
      · have hexp := count_of_isExponent (of_decide_eq_true h).2
        rwa [count_dropWhile_isDigit] at hexp
  omega

theorem colon_mem_stripSign (h : ':' ∈ cs) : ':' ∈ stripSign cs := by
  unfold stripSign
  split
  · exact (mem_cons.mp h).resolve_left (by decide)
  · exact (mem_cons.mp h).resolve_left (by decide)
  · exact h

theorem colon_mem_dropWhile (h : ':' ∈ cs) : ':' ∈ cs.dropWhile Char.isDigit := by
  rw [← takeWhile_append_dropWhile (p := Char.isDigit) (l := cs)] at h
  refine (mem_append.mp h).resolve_left fun hmem => ?_
  exact absurd (mem_takeWhile_imp hmem) (by decide)

theorem colon_not_mem_of_isExponent (h : isExponent cs = true) : ':' ∉ cs := by
  cases cs with
  | nil => exact not_mem_nil
  | cons c cs =>
    simp only [isExponent, decide_eq_true_eq] at h
    obtain ⟨n, hn⟩ := Option.isSome_iff_exists.mp h.2
    intro hmem
    rcases mem_cons.mp hmem with rfl | hmem
    · exact absurd h.1 (by decide)
    · exact absurd ((isDigit_of_parseNat hn).2 ':' (colon_mem_stripSign hmem)) (by decide)

theorem colon_not_mem_of_isFloat (h : isFloat cs = true) : ':' ∉ cs := by
  intro hmem
  have hmem := colon_mem_stripSign hmem
  simp only [isFloat, decide_eq_true_eq] at h
  generalize stripSign cs = ds at h hmem
  rcases h with h | h
  · have hlower : ':' ∈ ds.map Char.toLower := mem_map.mpr ⟨':', hmem, rfl⟩
    rw [mem_cons, mem_pair] at h
    rcases h with h | h | h <;> rw [h] at hlower <;> exact absurd hlower (by decide)
  · have hrest := colon_mem_dropWhile hmem
    simp only [isDecimal] at h
    split at h
    · rename_i rest hdrop
      rw [hdrop] at hrest
      have hrest := (mem_cons.mp hrest).resolve_left (by decide)
      exact colon_not_mem_of_isExponent (of_decide_eq_true h).2 (colon_mem_dropWhile hrest)
    · exact colon_not_mem_of_isExponent (of_decide_eq_true h).2 hrest

theorem isDecimal_zero_cons (h : isDecimal cs = true) : isDecimal ('0' :: cs) = true := by
  have htake : ('0' :: cs).takeWhile Char.isDigit = '0' :: cs.takeWhile Char.isDigit := rfl
  have hdrop : ('0' :: cs).dropWhile Char.isDigit = cs.dropWhile Char.isDigit := rfl
  simp only [isDecimal] at h ⊢
  rw [htake, hdrop]
  split at h
  · exact decide_eq_true ⟨.inl (cons_ne_nil _ _), (of_decide_eq_true h).2⟩
  · exact decide_eq_true ⟨cons_ne_nil _ _, (of_decide_eq_true h).2⟩

theorem parseNat_zero_cons (h : cs ≠ []) : parseNat ('0' :: cs) = parseNat cs := by
  have hall : ('0' :: cs).all Char.isDigit = cs.all Char.isDigit := rfl
  simp only [parseNat, hall, ne_eq, cons_ne_nil, not_false_eq_true, true_and, h]
  rfl

theorem parseInt_zero_cons (hsign : stripSign cs = cs) (h : cs ≠ []) :
    parseInt ('0' :: cs) = parseInt cs := by
  have hzero : parseInt ('0' :: cs) = (parseNat ('0' :: cs)).map fun (n : Nat) => (n : Int) := rfl
  rw [hzero, parseNat_zero_cons h]
  -- a sign in front would have been taken off
  unfold parseInt
  split
  · exact absurd (congrArg List.length hsign) (by simp [stripSign])
  · exact absurd (congrArg List.length hsign) (by simp [stripSign])
  · rfl

def hexDigit (n : Nat) : Char := Nat.digitChar (n % 16)

def hexValue (c : Char) : Option Nat :=
  if '0' ≤ c ∧ c ≤ '9' then some (c.toNat - 48)
  else if 'a' ≤ c ∧ c ≤ 'f' then some (c.toNat - 87)
  else none

def hexEncode : List UInt8 → List Char
  | [] => []
  | b :: bs => hexDigit (b.toNat / 16) :: hexDigit b.toNat :: hexEncode bs

def hexDecode : List Char → Option (List UInt8)
  | [] => some []
  | [_] => none
  | c :: d :: cs =>
    match hexValue c, hexValue d, hexDecode cs with
    | some m, some n, some bs => some (UInt8.ofNat (16 * m + n) :: bs)
    | _, _, _ => none

theorem hexValue_hexDigit (n : Nat) : hexValue (hexDigit n) = some (n % 16) := by
  have hfin : ∀ k : Fin 16, hexValue (Nat.digitChar k.val) = some k.val := by decide
  exact hfin ⟨n % 16, Nat.mod_lt n (by decide)⟩

theorem hexDecode_hexEncode (bs : List UInt8) : hexDecode (hexEncode bs) = some bs := by
  induction bs with
  | nil => rfl
  | cons b bs ih =>
    have hb : b.toNat < 256 := b.toNat_lt
    have hbyte : 16 * (b.toNat / 16 % 16) + b.toNat % 16 = b.toNat := by omega
    simp only [hexEncode, hexDecode, hexValue_hexDigit, ih, hbyte, UInt8.ofNat_toNat]

theorem hexEncode_inj {bs cs : List UInt8} (h : hexEncode bs = hexEncode cs) : bs = cs := by
  have hb := hexDecode_hexEncode bs
  rw [h, hexDecode_hexEncode cs] at hb
  exact (Option.some.inj hb).symm

def doubleQuotes : List Char → List Char
  | [] => []
  | c :: cs => if c = '\'' then '\'' :: '\'' :: doubleQuotes cs else c :: doubleQuotes cs

theorem doubleQuotes_inj {ds : List Char} (h : doubleQuotes cs = doubleQuotes ds) : cs = ds := by
  induction cs generalizing ds with
  | nil =>
    cases ds with
    | nil => rfl
    | cons d ds =>
      unfold doubleQuotes at h
      split at h <;> cases h
  | cons c cs ih =>
    cases ds with
    | nil =>
      unfold doubleQuotes at h
      split at h <;> cases h
    | cons d ds =>
      unfold doubleQuotes at h
      split at h <;> split at h
      · rename_i hc hd
        rw [hc, hd, ih (List.cons.inj (List.cons.inj h).2).2]
      · rename_i hc hd
        exact absurd (List.cons.inj h).1.symm hd
      · rename_i hc hd
        exact absurd (List.cons.inj h).1 hc
      · rw [(List.cons.inj h).1, ih (List.cons.inj h).2]

end TextCodec

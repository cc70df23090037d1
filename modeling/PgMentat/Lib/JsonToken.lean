import PgMentat.Lib.Text
import Mathlib.Data.List.Count

namespace JsonRead

open List TextCodec

def shortEscape : Char → Option Char
  | '"' => some '"'
  | '\\' => some '\\'
  | '/' => some '/'
  | 'b' => some '\x08'
  | 'f' => some '\x0c'
  | 'n' => some '\n'
  | 'r' => some '\r'
  | 't' => some '\t'
  | _ => none

def hex4 (a b c d : Char) : Option Nat := do
  let a ← hexValue a.toLower
  let b ← hexValue b.toLower
  let c ← hexValue c.toLower
  let d ← hexValue d.toLower
  return ((a * 16 + b) * 16 + c) * 16 + d

def isHighSurrogate (n : Nat) : Bool := 0xD800 ≤ n && n ≤ 0xDBFF

def isLowSurrogate (n : Nat) : Bool := 0xDC00 ≤ n && n ≤ 0xDFFF

def pairChar (high low : Nat) : Char :=
  Char.ofNat (0x10000 + (high - 0xD800) * 0x400 + (low - 0xDC00))

def push (c : Char) : Option (List Char × List Char) → Option (List Char × List Char)
  | some (cs, rest) => some (c :: cs, rest)
  | none => none

/-- The characters of a string after its opening quote, and what follows the closing one. A lone
surrogate stands for no character. -/
def readString : List Char → Option (List Char × List Char)
  | [] => none
  | '"' :: rest => some ([], rest)
  | '\\' :: 'u' :: a :: b :: c :: d :: rest =>
    match hex4 a b c d with
    | none => none
    | some n =>
      if isLowSurrogate n then none
      else if isHighSurrogate n then
        match rest with
        | '\\' :: 'u' :: e :: f :: g :: h :: rest =>
          match hex4 e f g h with
          | none => none
          | some m => if isLowSurrogate m then push (pairChar n m) (readString rest) else none
        | _ => none
      else push (Char.ofNat n) (readString rest)
  | '\\' :: e :: rest =>
    match shortEscape e with
    | none => none
    | some c => push c (readString rest)
  | c :: rest => if c.toNat < 32 ∨ c = '\\' then none else push c (readString rest)

/-- A character that stands for itself in a string. -/
def Plain (c : Char) : Prop := c ≠ '"' ∧ c ≠ '\\' ∧ 32 ≤ c.toNat

instance (c : Char) : Decidable (Plain c) := inferInstanceAs (Decidable (_ ∧ _ ∧ _))

section Strings

variable {c e : Char} {cs rest out k : List Char}

theorem push_eq_some {r : Option (List Char × List Char)} :
    push c r = some (cs, rest) ↔ ∃ cs', cs = c :: cs' ∧ r = some (cs', rest) := by
  cases r with
  | none => simp [push]
  | some result =>
    obtain ⟨cs', rest'⟩ := result
    simp [push]
    grind

theorem readString_cons (hquote : c ≠ '"') (hslash : c ≠ '\\') (rest : List Char) :
    readString (c :: rest) = if c.toNat < 32 then none else push c (readString rest) := by
  rw [readString.eq_def]
  split
  · rename_i heq
    cases heq
  · rename_i heq
    cases heq
    exact absurd rfl hquote
  · rename_i heq
    cases heq
    exact absurd rfl hslash
  · rename_i heq
    cases heq
    exact absurd rfl hslash
  · rename_i heq
    cases heq
    simp only [hslash, or_false]

theorem readString_plain (h : Plain c) (rest : List Char) :
    readString (c :: rest) = push c (readString rest) := by
  rw [readString_cons h.1 h.2.1, if_neg (Nat.not_lt.mpr h.2.2)]

theorem readString_control (h : c.toNat < 32) (rest : List Char) :
    readString (c :: rest) = none := by
  have hquote : c ≠ '"' := by
    rintro rfl
    exact absurd h (by decide)
  have hslash : c ≠ '\\' := by
    rintro rfl
    exact absurd h (by decide)
  rw [readString_cons hquote hslash, if_pos h]

theorem readString_short (h : shortEscape e = some c) (rest : List Char) :
    readString ('\\' :: e :: rest) = push c (readString rest) := by
  have hu : e ≠ 'u' := by
    rintro rfl
    cases h
  rw [readString.eq_def]
  split
  · rename_i heq
    cases heq
  · rename_i heq
    cases heq
  · rename_i heq
    cases heq
    exact absurd rfl hu
  · rename_i heq
    cases heq
    simp only [h]
  · rename_i hne heq
    cases heq
    exact (hne e rest rfl rfl).elim

theorem quote_not_mem_of_hex4 {a b c d : Char} {n : Nat} (h : hex4 a b c d = some n) :
    '"' ∉ [a, b, c, d] := by
  intro hmem
  simp only [mem_cons, not_mem_nil, or_false] at hmem
  have hnone : hexValue '"' = none := by decide
  unfold hex4 at h
  rcases hmem with rfl | rfl | rfl | rfl <;> simp [hnone] at h

/-- Up to its closing quote a string is what it is read as, or longer; every quote before that one
is read as a quote. -/
theorem readString_used (h : readString k = some (cs, out)) :
    ∃ used, k = used ++ '"' :: out ∧ used.count '"' ≤ cs.count '"' ∧
      ((used = cs ∧ ∀ c ∈ cs, Plain c) ∨ cs.length < used.length) := by
  have hescape {s rest cs : List Char} {c : Char} (hlen : 2 ≤ s.length)
      (hcount : s.count '"' ≤ [c].count '"')
      (h : ∃ used, rest = used ++ '"' :: out ∧ used.count '"' ≤ cs.count '"' ∧
        ((used = cs ∧ ∀ c ∈ cs, Plain c) ∨ cs.length < used.length)) :
      ∃ used, s ++ rest = used ++ '"' :: out ∧ used.count '"' ≤ (c :: cs).count '"' ∧
        ((used = c :: cs ∧ ∀ d ∈ c :: cs, Plain d) ∨ (c :: cs).length < used.length) := by
    obtain ⟨used, rfl, hused, hread⟩ := h
    have hle : cs.length ≤ used.length := hread.elim (fun h => h.1 ▸ le_rfl) Nat.le_of_lt
    refine ⟨s ++ used, (append_assoc _ _ _).symm, ?_, .inr ?_⟩
    · rw [← singleton_append, count_append, count_append]
      omega
    · rw [length_cons, length_append]
      omega
  have hnone {s : List Char} {c : Char} (h : '"' ∉ s) : s.count '"' ≤ [c].count '"' :=
    count_eq_zero_of_not_mem h ▸ Nat.zero_le _
  fun_induction readString k generalizing cs with
  | case2 rest =>
    cases h
    exact ⟨[], rfl, le_rfl, .inl ⟨rfl, fun _ h => nomatch h⟩⟩
  | case6 a b c d n hn hlow hhigh e f g i rest m hm hlow' ih =>
    obtain ⟨cs', rfl, hrest⟩ := push_eq_some.mp h
    have hmem : '"' ∉ ['\\', 'u'] ++ [a, b, c, d] ++ ['\\', 'u'] ++ [e, f, g, i] := by
      simp only [mem_append, not_or]
      exact ⟨⟨⟨by decide, quote_not_mem_of_hex4 hn⟩, by decide⟩, quote_not_mem_of_hex4 hm⟩
    exact hescape (by simp) (hnone hmem) (ih hrest)
  | case9 a b c d rest n hn hlow hhigh ih =>
    obtain ⟨cs', rfl, hrest⟩ := push_eq_some.mp h
    have hmem : '"' ∉ ['\\', 'u'] ++ [a, b, c, d] :=
      not_mem_append (by decide) (quote_not_mem_of_hex4 hn)
    exact hescape (by simp) (hnone hmem) (ih hrest)
  | case11 e rest hu c hc ih =>
    obtain ⟨cs', rfl, hrest⟩ := push_eq_some.mp h
    refine hescape (s := ['\\', e]) (by simp) ?_ (ih hrest)
    by_cases hquote : e = '"'
    · subst hquote
      cases hc
      decide
    · exact hnone (by simpa using Ne.symm hquote)
  | case13 c rest hquote hu hslash hc ih =>
    obtain ⟨cs', rfl, hrest⟩ := push_eq_some.mp h
    obtain ⟨used, rfl, hused, hread⟩ := ih hrest
    refine ⟨c :: used, rfl, ?_, ?_⟩
    · rwa [count_cons_of_ne hquote, count_cons_of_ne hquote]
    · rcases hread with ⟨rfl, hplain⟩ | hlt
      · refine .inl ⟨rfl, forall_mem_cons.mpr ⟨⟨hquote, ?_, ?_⟩, hplain⟩⟩
        · exact fun heq => hc (.inr heq)
        · exact Nat.not_lt.mp fun hlt => hc (.inl hlt)
      · exact .inr (Nat.succ_lt_succ hlt)
  | _ => cases h

theorem readString_of_plain (h : ∀ c ∈ k, Plain c) (rest : List Char) :
    readString (k ++ '"' :: rest) = some (k, rest) := by
  induction k with
  | nil => rfl
  | cons c k ih =>
    obtain ⟨hc, hk⟩ := forall_mem_cons.mp h
    rw [cons_append, readString_plain hc, ih hk]
    rfl

theorem readString_plain_append (h : ∀ c ∈ k, Plain c)
    (hread : readString (k ++ rest) = some (cs, out)) :
    ∃ cs', cs = k ++ cs' ∧ readString rest = some (cs', out) := by
  induction k generalizing cs with
  | nil => exact ⟨cs, rfl, hread⟩
  | cons c k ih =>
    obtain ⟨hc, hk⟩ := forall_mem_cons.mp h
    rw [cons_append, readString_plain hc] at hread
    obtain ⟨cs', rfl, hrest⟩ := push_eq_some.mp hread
    obtain ⟨cs'', rfl, hout⟩ := ih hk hrest
    exact ⟨cs'', rfl, hout⟩

theorem readString_raw_self (h : readString (k ++ '"' :: rest) = some (k, out)) :
    (∀ c ∈ k, Plain c) ∧ out = rest := by
  obtain ⟨used, heq, hcount, hread⟩ := readString_used h
  rcases hread with ⟨rfl, hplain⟩ | hlt
  · exact ⟨hplain, (List.cons.inj (append_cancel_left heq)).2.symm⟩
  · -- the quote behind the characters would be a quote in them
    obtain ⟨more, rfl⟩ := prefix_of_prefix_length_le ⟨_, heq⟩ (prefix_append used _) hlt.le
    rw [append_assoc] at heq
    cases more with
    | nil => exact absurd hlt (by simp)
    | cons c more =>
      obtain ⟨rfl, -⟩ := List.cons.inj (append_cancel_left heq)
      rw [count_append, count_cons_self] at hcount
      omega

/-- The text that is written for a character reads as this character. -/
def Escapes (esc : Char → List Char) (c : Char) : Prop :=
  (Plain c ∧ esc c = [c]) ∨ ∃ e, esc c = ['\\', e] ∧ shortEscape e = some c

variable {esc : Char → List Char}

theorem readString_escaped (h : ∀ c ∈ cs, Escapes esc c) (rest : List Char) :
    readString (cs.flatMap esc ++ '"' :: rest) = some (cs, rest) := by
  induction cs with
  | nil => rfl
  | cons c cs ih =>
    obtain ⟨hc, hcs⟩ := forall_mem_cons.mp h
    rw [flatMap_cons, append_assoc]
    rcases hc with ⟨hplain, hesc⟩ | ⟨e, hesc, hshort⟩
    · rw [hesc, singleton_append, readString_plain hplain, ih hcs]
      rfl
    · rw [hesc, cons_append, singleton_append, readString_short hshort, ih hcs]
      rfl

theorem readString_escaped_inv (hesc : ∀ c, Escapes esc c ∨ (c.toNat < 32 ∧ esc c = [c]))
    (h : readString (cs.flatMap esc ++ '"' :: rest) = some (k, out)) :
    (∀ c ∈ cs, Escapes esc c) ∧ k = cs ∧ out = rest := by
  have hall : ∀ c ∈ cs, Escapes esc c := by
    induction cs generalizing k with
    | nil => exact fun _ h => nomatch h
    | cons c cs ih =>
      rw [flatMap_cons, append_assoc] at h
      rcases hesc c with hc | ⟨hcontrol, heq⟩
      · refine forall_mem_cons.mpr ⟨hc, ?_⟩
        rcases hc with ⟨hplain, heq⟩ | ⟨e, heq, hshort⟩
        · rw [heq, singleton_append, readString_plain hplain] at h
          obtain ⟨k', -, hrest⟩ := push_eq_some.mp h
          exact ih hrest
        · rw [heq, cons_append, singleton_append, readString_short hshort] at h
          obtain ⟨k', -, hrest⟩ := push_eq_some.mp h
          exact ih hrest
      · rw [heq, singleton_append, readString_control hcontrol] at h
        cases h
  rw [readString_escaped hall] at h
  cases h
  exact ⟨hall, rfl, rfl⟩

/-- `str::replace` of a character. -/
def replaceChar (c : Char) (text : List Char) (cs : List Char) : List Char :=
  cs.flatMap fun d => if d = c then text else [d]

/-- Backslash, quote, newline, return and tab, one after the other. -/
def escapeBasic (cs : List Char) : List Char :=
  replaceChar '\t' ['\\', 't'] <| replaceChar '\r' ['\\', 'r'] <|
    replaceChar '\n' ['\\', 'n'] <| replaceChar '"' ['\\', '"'] <|
    replaceChar '\\' ['\\', '\\'] cs

def basicEscape : Char → List Char
  | '\\' => ['\\', '\\']
  | '"' => ['\\', '"']
  | '\n' => ['\\', 'n']
  | '\r' => ['\\', 'r']
  | '\t' => ['\\', 't']
  | c => [c]

theorem escapeBasic_singleton (c : Char) : escapeBasic [c] = basicEscape c := by
  unfold basicEscape
  split
  · rfl
  · rfl
  · rfl
  · rfl
  · rfl
  · rename_i hslash hquote hnewline hreturn htab
    simp only [escapeBasic, replaceChar, flatMap_singleton, if_neg hslash, if_neg hquote,
      if_neg hnewline, if_neg hreturn, if_neg htab]

theorem escapeBasic_eq_flatMap (cs : List Char) : escapeBasic cs = cs.flatMap basicEscape := by
  induction cs with
  | nil => rfl
  | cons c cs ih =>
    rw [flatMap_cons, ← ih, ← escapeBasic_singleton]
    simp only [escapeBasic, replaceChar, flatMap_cons, flatMap_nil, flatMap_append,
      append_nil]

theorem basicEscape_cases (c : Char) :
    Escapes basicEscape c ∨ (c.toNat < 32 ∧ basicEscape c = [c]) := by
  unfold Escapes
  fun_cases basicEscape c
  · exact .inl (.inr ⟨'\\', rfl, rfl⟩)
  · exact .inl (.inr ⟨'"', rfl, rfl⟩)
  · exact .inl (.inr ⟨'n', rfl, rfl⟩)
  · exact .inl (.inr ⟨'r', rfl, rfl⟩)
  · exact .inl (.inr ⟨'t', rfl, rfl⟩)
  · rename_i hslash hquote _ _ _
    by_cases hcontrol : c.toNat < 32
    · exact .inr ⟨hcontrol, rfl⟩
    · exact .inl (.inl ⟨⟨hquote, hslash, Nat.not_lt.mp hcontrol⟩, rfl⟩)

end Strings

/-- A run of digits with at least one. -/
def readDigits (cs : List Char) : Option (List Char × List Char) :=
  if cs.takeWhile Char.isDigit = [] then none
  else some (cs.takeWhile Char.isDigit, cs.dropWhile Char.isDigit)

/-- `0`, or digits that do not begin with `0`. -/
def readInt : List Char → Option (List Char × List Char)
  | '0' :: rest => some (['0'], rest)
  | cs => readDigits cs

def readSign : List Char → List Char × List Char
  | '-' :: rest => (['-'], rest)
  | cs => ([], cs)

def readFraction : List Char → Option (List Char × List Char)
  | '.' :: rest => (readDigits rest).map fun (digits, rest) => ('.' :: digits, rest)
  | cs => some ([], cs)

def readSigned : List Char → Option (List Char × List Char)
  | '+' :: rest => (readDigits rest).map fun (digits, rest) => ('+' :: digits, rest)
  | '-' :: rest => (readDigits rest).map fun (digits, rest) => ('-' :: digits, rest)
  | cs => readDigits cs

def readExponent : List Char → Option (List Char × List Char)
  | e :: rest =>
    if e = 'e' ∨ e = 'E' then (readSigned rest).map fun (digits, rest) => (e :: digits, rest)
    else some ([], e :: rest)
  | [] => some ([], [])

def readNumber (cs : List Char) : Option (List Char × List Char) := do
  let (sign, cs) := readSign cs
  let (int, cs) ← readInt cs
  let (fraction, cs) ← readFraction cs
  let (exponent, cs) ← readExponent cs
  return (sign ++ int ++ fraction ++ exponent, cs)

/-- What may follow a number that is complete. -/
def EndsNumber (rest : List Char) : Prop :=
  ∀ c ∈ rest.head?, c.isDigit = false ∧ c ≠ '.' ∧ c ≠ 'e' ∧ c ≠ 'E'

section Numbers

variable {rest : List Char}

theorem takeWhile_isDigit_of_ends (h : EndsNumber rest) : rest.takeWhile Char.isDigit = [] := by
  cases rest with
  | nil => rfl
  | cons c rest => exact takeWhile_cons_of_neg (by simp [(h c rfl).1])

variable {digits : List Char}

theorem readDigits_append (hne : digits ≠ []) (hdigits : ∀ c ∈ digits, c.isDigit = true)
    (h : EndsNumber rest) : readDigits (digits ++ rest) = some (digits, rest) := by
  have hdrop : rest.dropWhile Char.isDigit = rest := by
    have hsplit := takeWhile_append_dropWhile (p := Char.isDigit) (l := rest)
    rwa [takeWhile_isDigit_of_ends h] at hsplit
  rw [readDigits, takeWhile_append_of_pos hdigits, dropWhile_append_of_pos hdigits,
    takeWhile_isDigit_of_ends h, hdrop, append_nil, if_neg hne]

theorem readInt_toDigits (n : Nat) (h : EndsNumber rest) :
    readInt (Nat.toDigits 10 n ++ rest) = some (Nat.toDigits 10 n, rest) := by
  by_cases hn : n = 0
  · subst hn
    rfl
  · obtain ⟨c, cs, heq, hc⟩ := toDigits_eq_cons hn
    have hread := readDigits_append Nat.toDigits_ne_nil (isDigit_toDigits n) h
    rw [heq] at hread ⊢
    rw [cons_append] at hread ⊢
    unfold readInt
    split
    · rename_i hzero
      cases hzero
      exact absurd rfl hc
    · exact hread

theorem readFraction_of_ends (h : EndsNumber rest) : readFraction rest = some ([], rest) := by
  cases rest with
  | nil => rfl
  | cons c rest =>
    unfold readFraction
    split
    · rename_i heq
      cases heq
      exact absurd rfl (h _ rfl).2.1
    · rfl

theorem readExponent_of_ends (h : EndsNumber rest) : readExponent rest = some ([], rest) := by
  cases rest with
  | nil => rfl
  | cons c rest =>
    obtain ⟨-, -, he, hE⟩ := h c rfl
    rw [readExponent, if_neg (by simp [he, hE])]

theorem readNumber_toString (n : Int) (h : EndsNumber rest) :
    readNumber ((toString n).toList ++ rest) = some ((toString n).toList, rest) := by
  cases n with
  | ofNat n =>
    have hsign : readSign (Nat.toDigits 10 n ++ rest) = ([], Nat.toDigits 10 n ++ rest) := by
      obtain ⟨c, cs, heq⟩ := exists_cons_of_ne_nil (Nat.toDigits_ne_nil (b := 10) (n := n))
      have hc : c.isDigit = true := isDigit_toDigits n c (by simp [heq])
      rw [heq]
      unfold readSign
      split
      · rename_i hminus
        cases hminus
        exact absurd hc (by decide)
      · rfl
    rw [Int.ofNat_eq_natCast, toList_toString_ofNat, readNumber, hsign]
    simp [readInt_toDigits n h, readFraction_of_ends h, readExponent_of_ends h]
  | negSucc n =>
    rw [toList_toString_neg, readNumber]
    simp [readSign, readInt_toDigits (n + 1) h, readFraction_of_ends h, readExponent_of_ends h]

end Numbers

end JsonRead

import PgMentat.Lib.Text

namespace JsonText

open List TextCodec

def shortEscapes : List (Char × Char) :=
  [('"', '"'), ('\\', '\\'), ('\x08', 'b'), ('\x0c', 'f'), ('\n', 'n'), ('\r', 'r'), ('\t', 't')]

def escapeChar (c : Char) : List Char :=
  match shortEscapes.find? fun escape => escape.1 = c with
  | some escape => ['\\', escape.2]
  | none =>
    if c.toNat < 32 then ['\\', 'u', '0', '0', hexDigit (c.toNat / 16), hexDigit c.toNat]
    else [c]

/-- Read one character of a string, and what follows it. -/
def unescapeChar : List Char → Option (Char × List Char)
  | '\\' :: 'u' :: _ :: _ :: high :: low :: rest => do
    let high ← hexValue high
    let low ← hexValue low
    return (Char.ofNat (high * 16 + low), rest)
  | '\\' :: d :: rest => do
    let (c, _) ← shortEscapes.find? fun escape => escape.2 = d
    return (c, rest)
  | c :: rest => some (c, rest)
  | [] => none

theorem escapeChar_cases (c : Char) :
    (∃ d, (c, d) ∈ shortEscapes ∧ escapeChar c = ['\\', d]) ∨
      (c.toNat < 32 ∧
        escapeChar c = ['\\', 'u', '0', '0', hexDigit (c.toNat / 16), hexDigit c.toNat]) ∨
      (c ≠ '"' ∧ c ≠ '\\' ∧ escapeChar c = [c]) := by
  unfold escapeChar
  cases h : shortEscapes.find? fun escape => escape.1 = c with
  | some escape =>
    have hc : escape.1 = c := by simpa using List.find?_some h
    exact .inl ⟨escape.2, hc ▸ mem_of_find?_eq_some h, rfl⟩
  | none =>
    have hquote : c ≠ '"' := by rintro rfl; cases h
    have hslash : c ≠ '\\' := by rintro rfl; cases h
    by_cases hlt : c.toNat < 32
    · exact .inr (.inl ⟨hlt, if_pos hlt⟩)
    · exact .inr (.inr ⟨hquote, hslash, if_neg hlt⟩)

theorem unescapeChar_escapeChar (c : Char) (rest : List Char) :
    unescapeChar (escapeChar c ++ rest) = some (c, rest) := by
  rcases escapeChar_cases c with ⟨d, hd, h⟩ | ⟨hlt, h⟩ | ⟨-, hslash, h⟩
  · rw [h]
    simp only [shortEscapes, mem_cons, Prod.mk.injEq, not_mem_nil, or_false] at hd
    rcases hd with ⟨rfl, rfl⟩ | ⟨rfl, rfl⟩ | ⟨rfl, rfl⟩ | ⟨rfl, rfl⟩ | ⟨rfl, rfl⟩ | ⟨rfl, rfl⟩ |
      ⟨rfl, rfl⟩ <;> rfl
  · have hvalue : c.toNat / 16 % 16 * 16 + c.toNat % 16 = c.toNat := by omega
    rw [h]
    simp [unescapeChar, hexValue_hexDigit, hvalue, Char.ofNat_toNat]
  · rw [h, singleton_append, unescapeChar]
    · intro _ _ _ _ _ heq
      exact absurd heq hslash
    · intro _ _ heq
      exact absurd heq hslash

theorem head_escapeChar (c : Char) (rest : List Char) :
    (escapeChar c ++ rest).head? ≠ some '"' := by
  rcases escapeChar_cases c with ⟨d, -, h⟩ | ⟨-, h⟩ | ⟨hquote, -, h⟩
  · simp [h]
  · simp [h]
  · simpa [h] using hquote

def stringText (s : String) : List Char := '"' :: s.toList.flatMap escapeChar ++ ['"']

theorem escaped_append_inj {cs cs' rest rest' : List Char}
    (h : cs.flatMap escapeChar ++ '"' :: rest = cs'.flatMap escapeChar ++ '"' :: rest') :
    cs = cs' ∧ rest = rest' := by
  induction cs generalizing cs' with
  | nil =>
    cases cs' with
    | nil => exact ⟨rfl, (List.cons.inj h).2⟩
    | cons c' cs' =>
      rw [flatMap_cons, append_assoc] at h
      exact absurd (congrArg List.head? h).symm (head_escapeChar c' _)
  | cons c cs ih =>
    cases cs' with
    | nil =>
      rw [flatMap_cons, append_assoc] at h
      exact absurd (congrArg List.head? h) (head_escapeChar c _)
    | cons c' cs' =>
      rw [flatMap_cons, flatMap_cons, append_assoc, append_assoc] at h
      have hread := congrArg unescapeChar h
      rw [unescapeChar_escapeChar, unescapeChar_escapeChar, Option.some.injEq,
        Prod.mk.injEq] at hread
      obtain ⟨hcs, hrest⟩ := ih hread.2
      exact ⟨by rw [hread.1, hcs], hrest⟩

variable {rest rest' : List Char} {ss ss' : List String}

theorem stringText_append_inj {s s' : String} (h : stringText s ++ rest = stringText s' ++ rest') :
    s = s' ∧ rest = rest' := by
  simp only [stringText, cons_append, append_assoc, nil_append,
    List.cons.injEq, true_and] at h
  obtain ⟨hcs, hrest⟩ := escaped_append_inj h
  exact ⟨String.toList_inj.mp hcs, hrest⟩

def arrayTail : List String → List Char
  | [] => [']']
  | s :: ss => ',' :: stringText s ++ arrayTail ss

def arrayText : List String → List Char
  | [] => ['[', ']']
  | s :: ss => '[' :: stringText s ++ arrayTail ss

theorem arrayTail_append_inj (h : arrayTail ss ++ rest = arrayTail ss' ++ rest') :
    ss = ss' ∧ rest = rest' := by
  induction ss generalizing ss' with
  | nil =>
    cases ss' with
    | nil => exact ⟨rfl, (List.cons.inj h).2⟩
    | cons s' ss' => exact absurd (List.cons.inj h).1 (by decide)
  | cons s ss ih =>
    cases ss' with
    | nil => exact absurd (List.cons.inj h).1 (by decide)
    | cons s' ss' =>
      simp only [arrayTail, cons_append, append_assoc, List.cons.injEq, true_and] at h
      obtain ⟨rfl, htail⟩ := stringText_append_inj h
      obtain ⟨rfl, hrest⟩ := ih htail
      exact ⟨rfl, hrest⟩

theorem arrayText_append_inj (h : arrayText ss ++ rest = arrayText ss' ++ rest') :
    ss = ss' ∧ rest = rest' := by
  cases ss with
  | nil =>
    cases ss' with
    | nil => exact ⟨rfl, by simpa [arrayText] using h⟩
    | cons s' ss' => exact absurd (List.cons.inj (List.cons.inj h).2).1 (by decide)
  | cons s ss =>
    cases ss' with
    | nil => exact absurd (List.cons.inj (List.cons.inj h).2).1 (by decide)
    | cons s' ss' =>
      simp only [arrayText, cons_append, append_assoc, List.cons.injEq, true_and] at h
      obtain ⟨rfl, htail⟩ := stringText_append_inj h
      obtain ⟨rfl, hrest⟩ := arrayTail_append_inj htail
      exact ⟨rfl, hrest⟩

end JsonText

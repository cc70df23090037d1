import Mathlib.Data.List.Basic
import Mathlib.Data.List.TakeWhile

namespace ArithmeticText

open List

inductive Op where
  | add | sub | mul | div
  deriving DecidableEq, Repr

def Op.char : Op → Char
  | add => '+'
  | sub => '-'
  | mul => '*'
  | div => '/'

def Op.ofChar (c : Char) : Option Op :=
  if c = '+' then some add
  else if c = '-' then some sub
  else if c = '*' then some mul
  else if c = '/' then some div
  else none

theorem Op.ofChar_char (op : Op) : Op.ofChar op.char = some op := by
  cases op <;> rfl

def Op.level : Op → Nat
  | add | sub => 0
  | mul | div => 1

inductive Expr where
  | leaf (text : List Char)
  | app (op : Op) (l r : Expr)
  deriving DecidableEq, Repr

def push (s : List Char) (p : List Char × List Char) : List Char × List Char := (s ++ p.1, p.2)

def depthAfter (depth : Nat) (c : Char) : Nat :=
  if c = '(' then depth + 1 else if c = ')' then depth - 1 else depth

/-- The text up to the parenthesis that closes the outermost of the `depth + 1` that are open. -/
def closing : Nat → List Char → Option (List Char × List Char)
  | _, [] => none
  | depth, c :: cs =>
    if depth = 0 ∧ c = ')' then some ([c], cs)
    else (closing (depthAfter depth c) cs).map (push [c])

/-- The parentheses of the text close each other. -/
def Balanced (s : List Char) : Prop :=
  ∀ depth rest, closing depth (s ++ rest) = (closing depth rest).map (push s)

section Parentheses

variable {s s' rest : List Char}

theorem map_push_push (s s' : List Char) (p : Option (List Char × List Char)) :
    (p.map (push s')).map (push s) = p.map (push (s ++ s')) := by
  cases p with
  | none => rfl
  | some p => simp [push]

theorem balanced_nil : Balanced [] := by
  intro depth rest
  cases h : closing depth rest with
  | none => simp [h]
  | some p => simp [h, push]

theorem Balanced.append (h : Balanced s) (h' : Balanced s') : Balanced (s ++ s') := by
  intro depth rest
  rw [append_assoc, h, h', map_push_push]

theorem balanced_singleton {c : Char} (ho : c ≠ '(') (hc : c ≠ ')') : Balanced [c] := by
  intro depth rest
  rw [singleton_append, closing, if_neg fun h => hc h.2, depthAfter, if_neg ho, if_neg hc]

theorem balanced_of_forall (h : ∀ c ∈ s, c ≠ '(' ∧ c ≠ ')') : Balanced s := by
  induction s with
  | nil => exact balanced_nil
  | cons c s ih =>
    have hc := h c mem_cons_self
    have hs := ih fun d hd => h d (mem_cons_of_mem _ hd)
    exact (balanced_singleton hc.1 hc.2).append hs

theorem balanced_op (op : Op) : Balanced [' ', op.char, ' '] := by
  have hspace : Balanced [' '] := balanced_singleton (by decide) (by decide)
  have hop : Balanced [op.char] :=
    balanced_singleton (by cases op <;> decide) (by cases op <;> decide)
  exact hspace.append (hop.append hspace)

theorem Balanced.closing_eq (h : Balanced s) (rest : List Char) :
    closing 0 (s ++ ')' :: rest) = some (s ++ [')'], rest) := by
  rw [h, closing, if_pos ⟨rfl, rfl⟩]
  rfl

theorem Balanced.parens (h : Balanced s) : Balanced ('(' :: s ++ [')']) := by
  intro depth rest
  have hopen : ¬ (depth = 0 ∧ '(' = ')') := fun h => absurd h.2 (by decide)
  have hclose : ¬ (depth + 1 = 0 ∧ ')' = ')') := fun h => absurd h.1 (Nat.succ_ne_zero depth)
  rw [append_assoc, cons_append, closing, if_neg hopen]
  show (closing (depth + 1) (s ++ ([')'] ++ rest))).map _ = _
  rw [h, singleton_append, closing, if_neg hclose, map_push_push, map_push_push]
  rfl

theorem append_inj_of_balanced (h : Balanced s) (h' : Balanced s') {y z : List Char}
    (heq : '(' :: s ++ [')'] ++ y = '(' :: s' ++ [')'] ++ z) :
    s = s' ∧ y = z := by
  have htail : s ++ ')' :: y = s' ++ ')' :: z := by simpa using heq
  have hclose := h.closing_eq y
  rw [htail, h'.closing_eq z] at hclose
  have hpair := Prod.mk.inj (Option.some.inj hclose)
  exact ⟨(append_cancel_right hpair.1).symm, hpair.2.symm⟩

end Parentheses

def isWordChar (c : Char) : Bool := c.isAlphanum || c == '_' || c == '.'

def skipSpaces (cs : List Char) : List Char := cs.dropWhile fun c => c == ' '

def readWord (cs : List Char) : Option (List Char × List Char) :=
  if cs.takeWhile isWordChar = [] then none
  else some (cs.takeWhile isWordChar, cs.dropWhile isWordChar)

/-- A word that is followed by arguments is a call. -/
def readCall (w : List Char) : List Char → Option (Expr × List Char)
  | '(' :: rest => (closing 0 rest).map fun q => (.leaf (w ++ '(' :: q.1), q.2)
  | rest => some (.leaf w, rest)

/-- A number with a sign, a name, or a call of a function. -/
def readLeaf : List Char → Option (Expr × List Char)
  | '-' :: cs => (readWord cs).map fun p => (.leaf ('-' :: p.1), p.2)
  | cs => (readWord cs).bind fun p => readCall p.1 p.2

def readOp : List Char → Option (Op × List Char)
  | [] => none
  | c :: cs => (Op.ofChar c).map fun op => (op, cs)

def readClose (t : Expr) : List Char → Option (Expr × List Char)
  | ')' :: rest => some (t, rest)
  | _ => none

mutual

def readPrimary : Nat → List Char → Option (Expr × List Char)
  | 0, _ => none
  | fuel + 1, cs =>
    match skipSpaces cs with
    | '(' :: cs => (readExpr fuel 0 cs).bind fun p => readClose p.1 (skipSpaces p.2)
    | cs => readLeaf cs

/-- An expression whose operators outside of parentheses bind at least as tightly as `level`. -/
def readExpr : Nat → Nat → List Char → Option (Expr × List Char)
  | 0, _, _ => none
  | fuel + 1, level, cs => do
    let (t, rest) ← readPrimary fuel cs
    readOps fuel level t rest

def readOps : Nat → Nat → Expr → List Char → Option (Expr × List Char)
  | 0, _, _, _ => none
  | fuel + 1, level, t, cs =>
    match readOp (skipSpaces cs) with
    | none => some (t, cs)
    | some (op, rest) =>
      if level ≤ op.level then do
        let (r, rest) ← readExpr fuel (op.level + 1) rest
        readOps fuel level (.app op t r) rest
      else some (t, cs)

end

def readArithmetic (text : List Char) : Option Expr := do
  let (t, rest) ← readExpr (4 * text.length + 1) 0 text
  if skipSpaces rest = [] then some t else none

example : readArithmetic "a - b * -2 - f(x, y)".toList =
    some (.app .sub (.app .sub (.leaf ['a']) (.app .mul (.leaf ['b']) (.leaf "-2".toList)))
      (.leaf "f(x, y)".toList)) := by
  decide +kernel

inductive LeafText : List Char → Prop where
  | word {w : List Char} : w ≠ [] → (∀ c ∈ w, isWordChar c = true) → LeafText w
  | negative {w : List Char} :
    w ≠ [] → (∀ c ∈ w, isWordChar c = true) → LeafText ('-' :: w)
  | call {w s : List Char} :
    w ≠ [] → (∀ c ∈ w, isWordChar c = true) → Balanced s → LeafText (w ++ '(' :: (s ++ [')']))

/-- The text has parentheses around every operation. -/
inductive Written : Expr → List Char → Prop where
  | leaf {s : List Char} : LeafText s → Written (.leaf s) s
  | parens {t : Expr} {s : List Char} : Written t s → Written t ('(' :: s ++ [')'])
  | app {l r : Expr} {s s' : List Char} (op : Op) : Written l s → Written r s' →
    Written (.app op l r) ('(' :: s ++ ([' ', op.char, ' '] ++ s') ++ [')'])

/-- No leaf goes on in what follows. -/
def Ends (rest : List Char) : Prop := ∀ c ∈ rest.head?, isWordChar c = false ∧ c ≠ '('

section Reads

variable {t : Expr} {s w rest : List Char}

theorem ends_cons {c : Char} (h : isWordChar c = false) (hc : c ≠ '(') : Ends (c :: rest) := by
  intro d hd
  obtain rfl : c = d := Option.some.inj hd
  exact ⟨h, hc⟩

theorem readWord_append (hne : w ≠ []) (hw : ∀ c ∈ w, isWordChar c = true)
    (hrest : ∀ c ∈ rest.head?, isWordChar c = false) : readWord (w ++ rest) = some (w, rest) := by
  have htake : rest.takeWhile isWordChar = [] ∧ rest.dropWhile isWordChar = rest := by
    cases rest with
    | nil => exact ⟨rfl, rfl⟩
    | cons c rest =>
      have hc := hrest c rfl
      exact ⟨takeWhile_cons_of_neg (by simp [hc]), dropWhile_cons_of_neg (by simp [hc])⟩
  unfold readWord
  rw [takeWhile_append_of_pos hw, dropWhile_append_of_pos hw, htake.1, htake.2,
    append_nil, if_neg hne]

theorem head_ne_of_word {c d : Char} (hne : w ≠ []) (hw : ∀ c ∈ w, isWordChar c = true)
    (hc : isWordChar c = false) (h : d ∈ (w ++ rest).head?) : d ≠ c := by
  obtain ⟨e, w, rfl⟩ := exists_cons_of_ne_nil hne
  obtain rfl : e = d := Option.some.inj h
  intro heq
  rw [heq] at hw
  rw [hw c mem_cons_self] at hc
  cases hc

theorem readLeaf_word (hne : w ≠ []) (hw : ∀ c ∈ w, isWordChar c = true) (rest : List Char) :
    readLeaf (w ++ rest) = (readWord (w ++ rest)).bind fun p => readCall p.1 p.2 := by
  obtain ⟨e, w, rfl⟩ := exists_cons_of_ne_nil hne
  have hhead : e ∈ (e :: w ++ rest).head? := rfl
  have hminus : e ≠ '-' := head_ne_of_word hne hw (by decide) hhead
  unfold readLeaf
  split
  · rename_i heq
    exact absurd (List.cons.inj heq).1 hminus
  · rfl

theorem readLeaf_of_leafText (h : LeafText s) (hrest : Ends rest) :
    readLeaf (s ++ rest) = some (.leaf s, rest) := by
  cases h with
  | word hne hw =>
    rw [readLeaf_word hne hw, readWord_append hne hw fun c hc => (hrest c hc).1]
    show readCall s rest = _
    unfold readCall
    split
    · exact absurd rfl (hrest _ rfl).2
    · rfl
  | negative hne hw =>
    rw [cons_append, readLeaf, readWord_append hne hw fun c hc => (hrest c hc).1]
    rfl
  | @call w s hne hw hs =>
    have hopen : ∀ c ∈ ('(' :: (s ++ [')'] ++ rest)).head?, isWordChar c = false := by
      intro c hc
      cases hc
      rfl
    rw [append_assoc, cons_append, readLeaf_word hne hw, readWord_append hne hw hopen]
    show (closing 0 (s ++ [')'] ++ rest)).map _ = _
    rw [append_assoc, singleton_append, hs.closing_eq]
    rfl

theorem head_of_leafText (h : LeafText s) : ∀ c ∈ (s ++ rest).head?, c ≠ ' ' ∧ c ≠ '(' := by
  intro c hc
  cases h with
  | word hne hw =>
    exact ⟨head_ne_of_word hne hw (by decide) hc, head_ne_of_word hne hw (by decide) hc⟩
  | negative hne hw =>
    obtain rfl : '-' = c := Option.some.inj hc
    decide
  | call hne hw hs =>
    rw [append_assoc] at hc
    exact ⟨head_ne_of_word hne hw (by decide) hc, head_ne_of_word hne hw (by decide) hc⟩

theorem skipSpaces_eq_self (h : ∀ c ∈ s.head?, c ≠ ' ') : skipSpaces s = s := by
  cases s with
  | nil => rfl
  | cons c s => exact dropWhile_cons_of_neg (by simpa using h c rfl)

theorem skipSpaces_space (s : List Char) : skipSpaces (' ' :: s) = skipSpaces s :=
  dropWhile_cons_of_pos rfl

theorem readPrimary_space (fuel : Nat) (s : List Char) :
    readPrimary fuel (' ' :: s) = readPrimary fuel s := by
  cases fuel with
  | zero => rw [readPrimary, readPrimary]
  | succ fuel => rw [readPrimary, readPrimary, skipSpaces_space]

theorem readPrimary_of_leafText (h : LeafText s) (hrest : Ends rest) (fuel : Nat) :
    readPrimary (fuel + 1) (s ++ rest) = some (.leaf s, rest) := by
  have hhead : ∀ c ∈ (s ++ rest).head?, c ≠ ' ' ∧ c ≠ '(' := head_of_leafText h
  rw [readPrimary, skipSpaces_eq_self fun c hc => (hhead c hc).1]
  split
  · rename_i heq
    rw [heq] at hhead
    exact absurd rfl (hhead _ rfl).2
  · exact readLeaf_of_leafText h hrest

theorem readOps_close (fuel level : Nat) (t : Expr) (rest : List Char) :
    readOps (fuel + 1) level t (')' :: rest) = some (t, ')' :: rest) := by
  have hskip : skipSpaces (')' :: rest) = ')' :: rest := dropWhile_cons_of_neg (by decide)
  rw [readOps, hskip]
  rfl

theorem readPrimary_parens {fuel : Nat} {cs : List Char}
    (h : readExpr fuel 0 cs = some (t, ')' :: rest)) :
    readPrimary (fuel + 1) ('(' :: cs) = some (t, rest) := by
  have hskip : skipSpaces ('(' :: cs) = '(' :: cs := dropWhile_cons_of_neg (by decide)
  have hskip' : skipSpaces (')' :: rest) = ')' :: rest := dropWhile_cons_of_neg (by decide)
  rw [readPrimary, hskip]
  show (readExpr fuel 0 cs).bind _ = _
  rw [h, Option.bind_some, hskip']
  rfl

theorem Written.length_pos (h : Written t s) : 0 < s.length := by
  cases h with
  | leaf hleaf =>
    cases hleaf with
    | word hne _ => exact length_pos_of_ne_nil hne
    | negative _ _ => exact Nat.succ_pos _
    | call hne _ _ =>
      rw [length_append]
      exact Nat.add_pos_left (length_pos_of_ne_nil hne) _
  | parens _ | app _ _ _ => exact Nat.succ_pos _

theorem Written.readPrimary_eq (h : Written t s) {fuel : Nat} (hfuel : 4 * s.length ≤ fuel)
    (hrest : Ends rest) : readPrimary fuel (s ++ rest) = some (t, rest) := by
  induction h generalizing fuel rest with
  | leaf hleaf =>
    have hpos := (Written.leaf hleaf).length_pos
    obtain ⟨fuel, rfl⟩ := Nat.exists_eq_add_of_le' (show 1 ≤ fuel by omega)
    exact readPrimary_of_leafText hleaf hrest fuel
  | @parens t s _ ih =>
    have hlength : ('(' :: s ++ [')']).length = s.length + 2 := by simp
    rw [hlength] at hfuel
    obtain ⟨fuel, rfl⟩ := Nat.exists_eq_add_of_le' (show 3 ≤ fuel by omega)
    have hinner : readPrimary (fuel + 1) (s ++ ')' :: rest) = some (t, ')' :: rest) :=
      ih (by omega) (ends_cons (by decide) (by decide))
    rw [append_assoc, singleton_append, cons_append]
    apply readPrimary_parens
    rw [readExpr, hinner]
    exact readOps_close fuel 0 t rest
  | @app l r s s' op _ _ ihl ihr =>
    have hlength : ('(' :: s ++ ([' ', op.char, ' '] ++ s') ++ [')']).length =
        s.length + s'.length + 5 := by
      simp
      omega
    rw [hlength] at hfuel
    obtain ⟨fuel, rfl⟩ := Nat.exists_eq_add_of_le' (show 5 ≤ fuel by omega)
    have hleft : readPrimary (fuel + 3) (s ++ ' ' :: op.char :: ' ' :: (s' ++ ')' :: rest)) =
        some (l, ' ' :: op.char :: ' ' :: (s' ++ ')' :: rest)) :=
      ihl (by omega) (ends_cons (by decide) (by decide))
    have hright : readPrimary (fuel + 1) (s' ++ ')' :: rest) = some (r, ')' :: rest) :=
      ihr (by omega) (ends_cons (by decide) (by decide))
    have htext : '(' :: s ++ ([' ', op.char, ' '] ++ s') ++ [')'] ++ rest =
        '(' :: (s ++ ' ' :: op.char :: ' ' :: (s' ++ ')' :: rest)) := by simp
    have hskip : skipSpaces (' ' :: op.char :: ' ' :: (s' ++ ')' :: rest)) =
        op.char :: ' ' :: (s' ++ ')' :: rest) := by
      rw [skipSpaces_space]
      exact dropWhile_cons_of_neg (by cases op <;> decide)
    rw [htext]
    apply readPrimary_parens
    rw [readExpr, hleft]
    show readOps (fuel + 3) 0 l _ = _
    rw [readOps, hskip, readOp, Op.ofChar_char]
    show (readExpr (fuel + 2) (op.level + 1) _).bind _ = _
    rw [readExpr, readPrimary_space, hright]
    show (readOps (fuel + 1) (op.level + 1) r (')' :: rest)).bind _ = _
    rw [readOps_close, Option.bind_some]
    exact readOps_close (fuel + 1) 0 _ rest

theorem Written.readArithmetic_eq (h : Written t s) : readArithmetic s = some t := by
  have hpos := h.length_pos
  have hends : Ends [] := by
    intro c hc
    cases hc
  have hread := h.readPrimary_eq (Nat.le_refl (4 * s.length)) hends
  rw [append_nil] at hread
  obtain ⟨fuel, hfuel⟩ := Nat.exists_eq_add_of_le' (show 1 ≤ 4 * s.length by omega)
  unfold readArithmetic
  rw [readExpr, hread]
  show (readOps (4 * s.length) 0 t []).bind _ = _
  rw [hfuel, readOps]
  rfl

theorem balanced_of_leafText (h : LeafText s) : Balanced s := by
  have hword {w : List Char} (hw : ∀ c ∈ w, isWordChar c = true) : Balanced w := by
    apply balanced_of_forall
    intro c hc
    have hchar := hw c hc
    constructor
    · rintro rfl
      exact absurd hchar (by decide)
    · rintro rfl
      exact absurd hchar (by decide)
  cases h with
  | word _ hw => exact hword hw
  | negative _ hw => exact (balanced_singleton (by decide) (by decide)).append (hword hw)
  | call _ hw hs => exact (hword hw).append hs.parens

theorem Written.balanced (h : Written t s) : Balanced s := by
  induction h with
  | leaf hleaf => exact balanced_of_leafText hleaf
  | parens _ ih => exact ih.parens
  | app op _ _ ihl ihr =>
    rw [cons_append]
    exact (ihl.append ((balanced_op op).append ihr)).parens

end Reads

/-- A word or a group in parentheses. -/
def Segment (s : List Char) : Prop :=
  (s ≠ [] ∧ ∀ c ∈ s, isWordChar c = true) ∨ ∃ inner, Balanced inner ∧ s = '(' :: inner ++ [')']

theorem Segment.balanced {s : List Char} (h : Segment s) : Balanced s := by
  obtain ⟨hne, hw⟩ | ⟨inner, hinner, rfl⟩ := h
  · exact balanced_of_leafText (.word hne hw)
  · exact hinner.parens

theorem Segment.append_inj {s s' y z : List Char} (h : Segment s) (h' : Segment s') (hy : Ends y)
    (hz : Ends z) (heq : s ++ y = s' ++ z) : s = s' ∧ y = z := by
  have hmixed {w inner y z : List Char} (hne : w ≠ []) (hw : ∀ c ∈ w, isWordChar c = true)
      (heq : w ++ y = '(' :: inner ++ [')'] ++ z) : False := by
    have hhead : '(' ∈ (w ++ y).head? := by
      rw [heq]
      rfl
    exact head_ne_of_word hne hw (by decide) hhead rfl
  obtain ⟨hne, hw⟩ | ⟨inner, hinner, rfl⟩ := h
  · obtain ⟨hne', hw'⟩ | ⟨inner', -, rfl⟩ := h'
    · have hread := readWord_append hne hw fun c hc => (hy c hc).1
      have hread' := readWord_append hne' hw' fun c hc => (hz c hc).1
      rw [heq, hread'] at hread
      have hpair := Prod.mk.inj (Option.some.inj hread)
      exact ⟨hpair.1.symm, hpair.2.symm⟩
    · exact (hmixed hne hw heq).elim
  · obtain ⟨hne', hw'⟩ | ⟨inner', hinner', rfl⟩ := h'
    · exact (hmixed hne' hw' heq.symm).elim
    · obtain ⟨rfl, rfl⟩ := append_inj_of_balanced hinner hinner' heq
      exact ⟨rfl, rfl⟩

end ArithmeticText

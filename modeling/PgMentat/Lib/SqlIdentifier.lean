import Mathlib.Data.List.Basic

namespace SqlIdentifier

/-- The characters a plain identifier starts with. Folding concerns ASCII only. -/
def startsWord (c : Char) : Bool := c.isAlpha || c = '_' || 128 ≤ c.toNat

def inWord (c : Char) : Bool := startsWord c || c.isDigit || c = '$'

def isWord : List Char → Bool
  | [] => false
  | c :: cs => startsWord c && cs.all inWord

/-- A quote inside quotes is doubled. -/
def escape (s : List Char) : List Char := s.flatMap fun c => if c = '"' then ['"', '"'] else [c]

def delimited (s : List Char) : List Char := '"' :: (escape s ++ ['"'])

/-- Read up to the closing quote, which has to be the last character. -/
def unescape : List Char → Option (List Char)
  | [] => none
  | '"' :: '"' :: rest => (unescape rest).map ('"' :: ·)
  | ['"'] => some []
  | '"' :: _ :: _ => none
  | c :: rest => (unescape rest).map (c :: ·)

def denoted (limit : ℕ) (text : List Char) : Option (List Char) :=
  match text with
  | '"' :: rest => ((unescape rest).filter fun s => !s.isEmpty).map (List.take limit)
  | text => if isWord text then some ((text.map Char.toLower).take limit) else none

theorem unescape_cons {c : Char} (h : c ≠ '"') (rest : List Char) :
    unescape (c :: rest) = (unescape rest).map (c :: ·) := by
  rw [unescape.eq_def]
  split <;> simp_all

theorem unescape_escape (s : List Char) : unescape (escape s ++ ['"']) = some s := by
  induction s with
  | nil => rfl
  | cons c s ih =>
    have hstep : escape (c :: s) = (if c = '"' then ['"', '"'] else [c]) ++ escape s := rfl
    rw [hstep]
    by_cases hc : c = '"'
    · subst hc
      change (unescape (escape s ++ ['"'])).map ('"' :: ·) = _
      rw [ih]
      rfl
    · rw [if_neg hc]
      change unescape (c :: (escape s ++ ['"'])) = _
      rw [unescape_cons hc, ih]
      rfl

theorem denoted_delimited (limit : ℕ) {s : List Char} (hs : s ≠ []) :
    denoted limit (delimited s) = some (s.take limit) := by
  simp only [denoted, delimited, unescape_escape, Option.filter_some]
  cases s with
  | nil => exact absurd rfl hs
  | cons c s => rfl

theorem denoted_word (limit : ℕ) {s : List Char} (hs : isWord s = true) :
    denoted limit s = some ((s.map Char.toLower).take limit) := by
  unfold denoted
  split
  · next rest => simp [isWord, startsWord] at hs
  · rw [if_pos hs]

end SqlIdentifier

import PgMentat.Query.Arithmetic
import PgMentat.Lib.NameExpansion
import Mathlib.Data.List.Chain

namespace PgMentat

open List ArithmeticText NameExpansion

abbrev SqlPiece := Piece String (List Char)

def renderPiece : SqlPiece → List Char
  | .word t => t
  | .name x => numVarRef ++ x.toList

def render (ps : List SqlPiece) : List Char := ps.flatMap renderPiece

@[simp] theorem render_nil : render [] = [] := rfl

@[simp] theorem render_cons (p : SqlPiece) (ps : List SqlPiece) :
    render (p :: ps) = renderPiece p ++ render ps := rfl

@[simp] theorem render_append (ps qs : List SqlPiece) :
    render (ps ++ qs) = render ps ++ render qs := flatMap_append

theorem render_words (ws : List (List Char)) : render (ws.map Piece.word) = ws.flatten := by
  induction ws with
  | nil => rfl
  | cons w ws ih =>
    rw [map_cons, render_cons, ih]
    rfl

def argPieces (display : F64 → String) : FnArg → List SqlPiece
  | .variable x => [.name x]
  | arg => [.word (fnArgToPlaceholder display arg)]

theorem render_argPieces (display : F64 → String) (arg : FnArg) :
    render (argPieces display arg) = fnArgToNumericPlaceholder display arg := by
  cases arg <;> exact append_nil _

def Computation.pieces (display : F64 → String) (c : Computation) : List SqlPiece :=
  .word ['('] :: argPieces display c.left ++
    (.word [' ', c.op.char, ' '] :: argPieces display c.right) ++ [.word [')']]

theorem render_pieces (display : F64 → String) (c : Computation) :
    render (c.pieces display) = c.text display := by
  unfold Computation.pieces Computation.text
  simp only [render_append, render_cons, render_argPieces, renderPiece, render_nil,
    cons_append, nil_append, append_nil]

/-- No marker ends in the text: there is no colon behind an F. -/
def NoMarker (s : List Char) : Prop := s.IsChain fun c d => ¬ (c = 'F' ∧ d = ':')

instance decidableNoMarker (s : List Char) : Decidable (NoMarker s) :=
  inferInstanceAs (Decidable (s.IsChain fun c d => ¬ (c = 'F' ∧ d = ':')))

theorem NoMarker.append {s s' : List Char} (h : NoMarker s) (h' : NoMarker s')
    (hcolon : s'.head? ≠ some ':') : NoMarker (s ++ s') := by
  unfold NoMarker
  rw [isChain_append]
  refine ⟨h, h', fun c _ d hd hpair => ?_⟩
  rw [hpair.2] at hd
  exact hcolon hd

theorem noMarker_of_not_mem {s : List Char} (h : ':' ∉ s) : NoMarker s := by
  induction s with
  | nil => exact .nil
  | cons c s ih =>
    have hs : ':' ∉ s := fun hmem => h (mem_cons_of_mem _ hmem)
    apply NoMarker.append (s := [c]) (.singleton c) (ih hs)
    intro hhead
    exact hs (mem_of_mem_head? hhead)

section Find

variable {pattern w s : List Char}

theorem findText_cons (c : Char) : findText pattern (c :: s) =
    if pattern <+: c :: s then some 0 else (findText pattern s).map fun n => n + 1 := by
  simp [findText]

theorem findText_append (hpattern : pattern <+: s) (hne : s ≠ [])
    (hbefore : ∀ v, v <:+ w → v ≠ [] → ¬ pattern <+: v ++ s) :
    findText pattern (w ++ s) = some w.length := by
  induction w with
  | nil =>
    obtain ⟨c, s, rfl⟩ := exists_cons_of_ne_nil hne
    rw [nil_append, findText_cons, if_pos hpattern]
    rfl
  | cons c w ih =>
    have hnot : ¬ pattern <+: c :: (w ++ s) := hbefore (c :: w) suffix_rfl (cons_ne_nil c w)
    rw [cons_append, findText_cons, if_neg hnot,
      ih fun v hv => hbefore v (hv.trans (suffix_cons c w))]
    rfl

theorem findText_eq_none (h : ∀ v, v <:+ s → v ≠ [] → ¬ pattern <+: v) :
    findText pattern s = none := by
  induction s with
  | nil => rfl
  | cons c s ih =>
    have hnot : ¬ pattern <+: c :: s := h (c :: s) suffix_rfl (cons_ne_nil c s)
    rw [findText_cons, if_neg hnot, ih fun v hv => h v (hv.trans (suffix_cons c s))]
    rfl

theorem not_prefix_of_noMarker (hpattern : ¬ NoMarker pattern) (hw : NoMarker w) :
    ¬ pattern <+: w := by
  rintro ⟨rest, rfl⟩
  exact hpattern (isChain_append.mp hw).1

/-- A marker does not begin in a text without markers that is followed by `c`, if `c` is only in
the beginning of the marker. -/
theorem not_prefix_append {c : Char} (hpattern : ¬ NoMarker pattern) (hc : c ∉ pattern.tail)
    (hw : NoMarker w) (hne : w ≠ []) : ¬ pattern <+: w ++ c :: s := by
  intro h
  rcases prefix_or_prefix_of_prefix h (prefix_append w (c :: s)) with hin | ⟨rest, rfl⟩
  · exact not_prefix_of_noMarker hpattern hw hin
  · have hrest : rest <+: c :: s := (prefix_append_right_inj w).mp h
    obtain ⟨d, w, rfl⟩ := exists_cons_of_ne_nil hne
    cases rest with
    | nil =>
      rw [append_nil] at hpattern
      exact hpattern hw
    | cons c' rest =>
      obtain rfl : c' = c := (cons_prefix_cons.mp hrest).1
      exact hc (mem_append_right w mem_cons_self)

theorem NoMarker.suffix {v : List Char} (hw : NoMarker w) (hv : v <:+ w) : NoMarker v :=
  List.IsChain.suffix hw hv

end Find

theorem firstMarker_append {w : List Char} (hw : NoMarker w) (rest : List Char) :
    firstMarker (w ++ numVarRef ++ rest) = some (w.length, 12, true) := by
  have hnum : findText numVarRef (w ++ (numVarRef ++ rest)) = some w.length := by
    apply findText_append (prefix_append numVarRef rest) (cons_ne_nil _ _)
    intro v hv hne
    exact not_prefix_append (by decide) (by decide) (hw.suffix hv) hne
  have hlong : NoMarker (w ++ "NUM_".toList) := hw.append (by decide) (by decide)
  have hvar : findText varRef (w ++ "NUM_".toList ++ (varRef ++ rest)) =
      some (w ++ "NUM_".toList).length := by
    apply findText_append (prefix_append varRef rest) (cons_ne_nil _ _)
    intro v hv hne
    exact not_prefix_append (by decide) (by decide) (hlong.suffix hv) hne
  have htext : w ++ "NUM_".toList ++ (varRef ++ rest) = w ++ (numVarRef ++ rest) := by
    rw [append_assoc]
    rfl
  rw [htext, length_append] at hvar
  unfold firstMarker
  rw [append_assoc, hnum, hvar]
  exact if_pos (Nat.lt_add_of_pos_right (by decide))

theorem firstMarker_eq_none {w : List Char} (hw : NoMarker w) : firstMarker w = none := by
  have hnum : findText numVarRef w = none := findText_eq_none fun v hv _ =>
    not_prefix_of_noMarker (by decide) (hw.suffix hv)
  have hvar : findText varRef w = none := findText_eq_none fun v hv _ =>
    not_prefix_of_noMarker (by decide) (hw.suffix hv)
  unfold firstMarker
  rw [hnum, hvar]

/-- The name as the loop reads it. -/
def cutName (x : String) : String := String.ofList (x.toList.takeWhile inName)

/-- What the loop leaves of a name. -/
def leftOver (x : String) : List Char := x.toList.dropWhile inName

def leftOverPieces (x : String) : List SqlPiece :=
  if leftOver x = [] then [] else [.word (leftOver x)]

def ReadsWhole (x : String) : Prop := ∀ c ∈ x.toList, endsName c = false

theorem takeWhile_name (cs : List Char) {rest : List Char} {c : Char} (hc : rest.head? = some c)
    (hends : endsName c = true) :
    (cs ++ rest).takeWhile inName = cs.takeWhile inName ∧
      (cs ++ rest).dropWhile inName = cs.dropWhile inName ++ rest := by
  have hstop : ¬ inName c = true := by
    unfold inName
    rw [hends]
    decide
  induction cs with
  | nil =>
    cases rest with
    | nil => cases hc
    | cons d rest =>
      obtain rfl : d = c := Option.some.inj hc
      exact ⟨takeWhile_cons_of_neg hstop, dropWhile_cons_of_neg hstop⟩
  | cons d cs ih =>
    rw [cons_append]
    by_cases hd : inName d = true
    · rw [takeWhile_cons_of_pos hd, takeWhile_cons_of_pos hd,
        dropWhile_cons_of_pos hd, dropWhile_cons_of_pos hd, ih.1]
      exact ⟨rfl, ih.2⟩
    · rw [takeWhile_cons_of_neg hd, takeWhile_cons_of_neg hd,
        dropWhile_cons_of_neg hd, dropWhile_cons_of_neg hd]
      exact ⟨rfl, rfl⟩

theorem ReadsWhole.cutName_eq {x : String} (h : ReadsWhole x) : cutName x = x := by
  unfold cutName
  have hall : ∀ c ∈ x.toList, inName c = true := by
    intro c hc
    unfold inName
    rw [h c hc]
    rfl
  rw [takeWhile_eq_self_iff.mpr hall, String.ofList_toList]

theorem leftOver_eq_nil_iff {x : String} : leftOver x = [] ↔ ReadsWhole x := by
  unfold leftOver ReadsWhole inName
  rw [dropWhile_eq_nil_iff]
  simp only [Bool.not_eq_true']

section Loop

variable (display : F64 → String) (columns : VarToAlias) (extra : List (String × Computation))

def replacementPieces (x : String) : List SqlPiece :=
  match columns.get x, extra.lookup x with
  | none, some c => c.pieces display
  | _, _ => [.word (replacement display columns extra true x)]

theorem render_replacementPieces (x : String) :
    render (replacementPieces display columns extra x) =
      replacement display columns extra true x := by
  unfold replacementPieces
  split
  · rename_i c hcolumn hextra
    unfold replacement
    rw [hcolumn, hextra]
    exact render_pieces display c
  · exact append_nil _

/-- What the loop puts in the place of a marker and its name. -/
def codeBody (x : String) : List SqlPiece :=
  replacementPieces display columns extra (cutName x) ++ leftOverPieces x

theorem render_leftOverPieces (x : String) : render (leftOverPieces x) = leftOver x := by
  unfold leftOverPieces
  split
  · rename_i h
    rw [h]
    rfl
  · exact append_nil _

/-- Texts have no markers, and names are followed by a character that ends them. -/
def Sound : List SqlPiece → Prop
  | [] => True
  | .word t :: ps => (NoMarker t ∧ t.head? ≠ some ':' ∧ t ≠ []) ∧ Sound ps
  | .name x :: ps =>
    ':' ∉ x.toList ∧ (∃ c, (render ps).head? = some c ∧ endsName c = true) ∧ Sound ps

theorem Sound.append {ps qs : List SqlPiece} (h : Sound ps) (h' : Sound qs) :
    Sound (ps ++ qs) := by
  induction ps with
  | nil => exact h'
  | cons p ps ih =>
    cases p with
    | word t => exact ⟨h.1, ih h.2⟩
    | name x =>
      obtain ⟨hcolon, ⟨c, hc, hends⟩, hps⟩ := h
      have hhead : (render (ps ++ qs)).head? = some c := by
        rw [render_append, List.head?_append, hc]
        rfl
      exact ⟨hcolon, ⟨c, hhead, hends⟩, ih hps⟩

variable {display columns extra}

theorem resolveFirst_render {ps : List SqlPiece} (h : Sound ps) {w : List Char} (hw : NoMarker w) :
    resolveFirst display columns extra (w ++ render ps) =
      (expandFirst (codeBody display columns extra) ps).map fun ps' => w ++ render ps' := by
  induction ps generalizing w with
  | nil =>
    unfold resolveFirst
    rw [render_nil, append_nil, firstMarker_eq_none hw]
    rfl
  | cons p ps ih =>
    cases p with
    | word t =>
      have htext : w ++ render (.word t :: ps) = w ++ t ++ render ps :=
        (append_assoc w t (render ps)).symm
      rw [htext, ih h.2 (hw.append h.1.1 h.1.2.1), expandFirst, Option.map_map]
      congr 1
      funext ps'
      exact append_assoc _ _ _
    | name x =>
      obtain ⟨-, ⟨c, hc, hends⟩, -⟩ := h
      have htext : w ++ render (.name x :: ps) = w ++ numVarRef ++ (x.toList ++ render ps) := by
        rw [render_cons, renderPiece, append_assoc, append_assoc]
      have hdrop : (w ++ numVarRef ++ (x.toList ++ render ps)).drop (w.length + 12) =
          x.toList ++ render ps := by
        have hlength : (w ++ numVarRef).length = w.length + 12 := length_append
        rw [← hlength, drop_left]
      have hname := takeWhile_name x.toList hc hends
      unfold resolveFirst
      rw [htext, firstMarker_append hw, Option.map_some, expandFirst, Option.map_some]
      unfold replaceMarker
      simp only [hdrop, hname.1, hname.2]
      rw [append_assoc w, take_left, render_append, codeBody, render_append,
        render_replacementPieces, render_leftOverPieces]
      simp only [append_assoc, cutName, leftOver]

theorem Sound.expandFirst {body : String → List SqlPiece}
    (hbody : ∀ x, ':' ∉ x.toList → Sound (body x)) {ps ps' : List SqlPiece} (h : Sound ps)
    (heq : expandFirst body ps = some ps') : Sound ps' := by
  induction ps generalizing ps' with
  | nil => cases heq
  | cons p ps ih =>
    cases p with
    | word t =>
      obtain ⟨qs, hqs, rfl⟩ := Option.map_eq_some_iff.mp heq
      exact ⟨h.1, ih h.2 hqs⟩
    | name x =>
      cases heq
      exact (hbody x h.1).append h.2.2

theorem resolveVarRefs_render
    (hbody : ∀ x, ':' ∉ x.toList → Sound (codeBody display columns extra x))
    {ps : List SqlPiece} (h : Sound ps) (fuel : Nat) :
    resolveVarRefs display columns extra fuel (render ps) =
      (expand (codeBody display columns extra) fuel ps).map render := by
  induction fuel generalizing ps with
  | zero => rfl
  | succ fuel ih =>
    have hfirst : resolveFirst display columns extra (render ps) =
        (expandFirst (codeBody display columns extra) ps).map fun ps' => render ps' :=
      resolveFirst_render h .nil
    unfold resolveVarRefs expand
    rw [hfirst]
    cases heq : NameExpansion.expandFirst (codeBody display columns extra) ps with
    | none => rfl
    | some ps' => exact ih (h.expandFirst hbody heq)

end Loop

end PgMentat

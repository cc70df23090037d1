import PgMentat.Query.MarkerLoop

namespace PgMentat

open List ArithmeticText NameExpansion Relation

def isSymbolChar (c : Char) : Bool := c.isAlphanum || "+*!_?$%&=<>-".toList.contains c

/-- A plain symbol that begins with a question mark. -/
def IsVariable (x : String) : Prop :=
  x.toList.head? = some '?' ∧ ∀ c ∈ x.toList, isSymbolChar c = true

/-- A variable or an integer. -/
def FnArg.Arithmetic : FnArg → Prop
  | .variable x => IsVariable x
  | .entidOrInteger _ => True
  | _ => False

def Computation.Arithmetic (c : Computation) : Prop := c.left.Arithmetic ∧ c.right.Arithmetic

def FnArg.vars : FnArg → List String
  | .variable x => [x]
  | _ => []

def Computation.vars (c : Computation) : List String := c.left.vars ++ c.right.vars

section Nested

variable (display : F64 → String) (columns : VarToAlias) (extra : List (String × Computation))

/-- `y` is no column, and its expression mentions `x`. -/
def ComputedFrom (x y : String) : Prop :=
  columns.get y = none ∧ ∃ c, extra.lookup y = some c ∧ x ∈ c.vars

def Computation.LeadsTo (c : Computation) (x : String) : Prop :=
  ∃ y ∈ c.vars, ReflTransGen (ComputedFrom columns extra) x y

def SelfDependent (x : String) : Prop := TransGen (ComputedFrom columns extra) x x

def opText (op : Op) (s s' : List Char) : List Char :=
  '(' :: s ++ ([' ', op.char, ' '] ++ s') ++ [')']

/-- What an argument stands for, as an expression and as a text: the column or the expression that
is bound to exactly this variable. -/
inductive SpelledAs : FnArg → Expr → List Char → Prop where
  | integer (i : Int64) :
    SpelledAs (.entidOrInteger i) (.leaf (toString i.toInt).toList) (toString i.toInt).toList
  | column {x table col : String} : columns.get x = some (table, col) → col ≠ "v" →
    SpelledAs (.variable x) (.leaf (table.toList ++ '.' :: col.toList))
      (table.toList ++ '.' :: col.toList)
  | value {x table : String} : columns.get x = some (table, "v") →
    SpelledAs (.variable x) (.leaf (buildNumericValueDecodeExpr table).toList)
      ('(' :: (buildNumericValueDecodeExpr table).toList ++ [')'])
  | computed {x : String} {c : Computation} {l r : Expr} {s s' : List Char} :
    columns.get x = none → extra.lookup x = some c → SpelledAs c.left l s → SpelledAs c.right r s' →
    SpelledAs (.variable x) (.app c.op l r) (opText c.op s s')
  | unbound {x : String} : columns.get x = none → extra.lookup x = none →
    SpelledAs (.variable x) (.leaf "NULL".toList) "NULL".toList

/-- What the expression of a computed variable stands for. -/
def Computation.Spelled (c : Computation) (t : Expr) (text : List Char) : Prop :=
  ∃ l r s s', SpelledAs columns extra c.left l s ∧ SpelledAs columns extra c.right r s' ∧
    t = .app c.op l r ∧ text = opText c.op s s'

def ResolvesNested (c : Computation) : Prop :=
  (∃ fuel text, resolveVarRefs display columns extra fuel (c.text display) = some text) ∧
  ((∀ x, c.LeadsTo columns extra x → ¬ SelfDependent columns extra x) →
    ∃ fuel text t, resolveVarRefs display columns extra fuel (c.text display) = some text ∧
      ¬ varRef <:+: text ∧ c.Spelled columns extra t text ∧ readArithmetic text = some t)

end Nested

section Names

variable {display : F64 → String} {columns : VarToAlias} {extra : List (String × Computation)}

section Texts

theorem isWordChar_of_isDigit {c : Char} (h : c.isDigit = true) : isWordChar c = true := by
  simp [isWordChar, Char.isAlphanum, h]

theorem leafText_toString (n : Int) : LeafText (toString n).toList := by
  have hdigits (m : Nat) : ∀ c ∈ Nat.toDigits 10 m, isWordChar c = true :=
    fun c hc => isWordChar_of_isDigit (TextCodec.isDigit_toDigits m c hc)
  cases n with
  | ofNat m =>
    rw [Int.ofNat_eq_natCast, TextCodec.toList_toString_ofNat]
    exact .word Nat.toDigits_ne_nil (hdigits m)
  | negSucc m =>
    rw [TextCodec.toList_toString_neg]
    exact .negative Nat.toDigits_ne_nil (hdigits (m + 1))

variable {s table : String}

theorem isWordChar_of_isSqlName (h : IsSqlName s) : ∀ c ∈ s.toList, isWordChar c = true := by
  intro c hc
  have hchar := h.2 c hc
  unfold isWordChar
  rw [hchar]
  rfl

theorem word_column {col : String} (h : IsSqlName table ∧ IsSqlName col) :
    ∀ c ∈ table.toList ++ '.' :: col.toList, isWordChar c = true := by
  intro c hc
  rcases mem_append.mp hc with hc | hc
  · exact isWordChar_of_isSqlName h.1 c hc
  · cases hc with
    | head => rfl
    | tail _ hc => exact isWordChar_of_isSqlName h.2 c hc

theorem balanced_of_isSqlName (h : IsSqlName s) : Balanced s.toList := by
  apply balanced_of_leafText
  refine .word ?_ (isWordChar_of_isSqlName h)
  intro hnil
  exact h.1 (String.toList_eq_nil_iff.mp hnil)

/-- The arguments of the `EXTRACT` of an instant. -/
def extractArgs (table : String) : List Char :=
  "EPOCH FROM ".toList ++ table.toList ++ ".v_instant".toList

/-- The arguments of the `COALESCE` of a value. -/
def coalesceArgs (table : String) : List Char :=
  table.toList ++ ".v_ref, ".toList ++ table.toList ++ ".v_long, ".toList ++ table.toList ++
    ".v_double::BIGINT, EXTRACT".toList ++ ('(' :: extractArgs table ++ [')']) ++
    "::BIGINT * 1000000".toList

theorem toList_buildNumericValueDecodeExpr (table : String) :
    (buildNumericValueDecodeExpr table).toList =
      "COALESCE".toList ++ '(' :: (coalesceArgs table ++ [')']) := by
  have hcall : "COALESCE(".toList = "COALESCE".toList ++ ['('] := rfl
  have hdouble : ".v_double::BIGINT, EXTRACT".toList =
      ".v_double::BIGINT, ".toList ++ "EXTRACT".toList := rfl
  have hextract : "EXTRACT(EPOCH FROM ".toList =
      "EXTRACT".toList ++ ('(' :: "EPOCH FROM ".toList) := rfl
  have hinstant : ".v_instant)::BIGINT * 1000000)".toList =
      ".v_instant".toList ++ (')' :: ("::BIGINT * 1000000".toList ++ [')'])) := rfl
  unfold buildNumericValueDecodeExpr coalesceArgs extractArgs
  simp only [String.toList_append, hcall, hdouble, hextract, hinstant, append_assoc,
    cons_append, nil_append]

theorem balanced_coalesceArgs (h : IsSqlName table) : Balanced (coalesceArgs table) := by
  have htable := balanced_of_isSqlName h
  have hextract : Balanced (extractArgs table) :=
    ((balanced_of_forall (by decide)).append htable).append (balanced_of_forall (by decide))
  have hvalues : Balanced (table.toList ++ ".v_ref, ".toList ++ table.toList ++
      ".v_long, ".toList ++ table.toList ++ ".v_double::BIGINT, EXTRACT".toList) :=
    ((((htable.append (balanced_of_forall (by decide))).append htable).append
      (balanced_of_forall (by decide))).append htable).append (balanced_of_forall (by decide))
  exact (hvalues.append hextract.parens).append (balanced_of_forall (by decide))

theorem leafText_value (h : IsSqlName table) :
    LeafText (buildNumericValueDecodeExpr table).toList := by
  rw [toList_buildNumericValueDecodeExpr]
  exact .call (by decide) (by decide) (balanced_coalesceArgs h)

theorem SpelledAs.written {arg : FnArg} {t : Expr} {s : List Char}
    (h : SpelledAs columns extra arg t s) : Written t s := by
  induction h with
  | integer i => exact .leaf (leafText_toString i.toInt)
  | column hcolumn _ =>
    exact .leaf (.word (by simp) (word_column (columns.names _ _ _ hcolumn)))
  | value hcolumn => exact .parens (.leaf (leafText_value (columns.names _ _ _ hcolumn).1))
  | computed _ _ _ _ ihl ihr => exact .app _ ihl ihr
  | unbound _ _ => exact .leaf (.word (by decide) (by decide))

theorem SpelledAs.segment {x : String} {t : Expr} {s : List Char}
    (h : SpelledAs columns extra (.variable x) t s) : Segment s := by
  cases h with
  | column hcolumn _ => exact .inl ⟨by simp, word_column (columns.names _ _ _ hcolumn)⟩
  | value hcolumn =>
    exact .inr ⟨_, balanced_of_leafText (leafText_value (columns.names _ _ _ hcolumn).1), rfl⟩
  | @computed _ c l r s s' _ _ hl hr =>
    exact .inr ⟨s ++ ([' ', c.op.char, ' '] ++ s'),
      hl.written.balanced.append ((balanced_op c.op).append hr.written.balanced), by simp [opText]⟩
  | unbound _ _ => exact .inl ⟨by decide, by decide⟩

theorem computed_or_spelled (columns : VarToAlias) (extra : List (String × Computation))
    (x : String) :
    (∃ c, columns.get x = none ∧ extra.lookup x = some c) ∨
      (∀ c, columns.get x = none → extra.lookup x ≠ some c) ∧
        ∃ t s, SpelledAs columns extra (.variable x) t s := by
  cases hcolumn : columns.get x with
  | some p =>
    obtain ⟨table, col⟩ := p
    refine .inr ⟨fun c h => absurd h (Option.some_ne_none _), ?_⟩
    by_cases hv : col = "v"
    · rw [hv] at hcolumn
      exact ⟨_, _, .value hcolumn⟩
    · exact ⟨_, _, .column hcolumn hv⟩
  | none =>
    cases hlookup : extra.lookup x with
    | none => exact .inr ⟨fun c _ => Option.some_ne_none c |>.symm, _, _, .unbound hcolumn hlookup⟩
    | some c => exact .inl ⟨c, rfl, rfl⟩

theorem replacementPieces_computed {x : String} {c : Computation} (hcolumn : columns.get x = none)
    (hlookup : extra.lookup x = some c) :
    replacementPieces display columns extra x = c.pieces display := by
  rw [replacementPieces, hcolumn, hlookup]

theorem SpelledAs.replacementPieces_eq {x : String} {t : Expr} {s : List Char}
    (h : SpelledAs columns extra (.variable x) t s)
    (hnot : ∀ c, columns.get x = none → extra.lookup x ≠ some c) :
    replacementPieces display columns extra x = [.word s] := by
  cases h with
  | column hcolumn hv => simp [replacementPieces, replacement, hcolumn, hv]
  | value hcolumn => simp [replacementPieces, replacement, hcolumn]
  | computed hcolumn hlookup _ _ => exact absurd hlookup (hnot _ hcolumn)
  | unbound hcolumn hlookup => simp [replacementPieces, replacement, hcolumn, hlookup]

end Texts

section Pieces

theorem colon_not_mem_of_isVariable {x : String} (h : IsVariable x) : ':' ∉ x.toList :=
  fun hmem => absurd (h.2 ':' hmem) (by decide)

variable {s : List Char} {c : Computation}

theorem colon_not_mem_of_word (h : ∀ c ∈ s, isWordChar c = true) : ':' ∉ s :=
  fun hmem => absurd (h ':' hmem) (by decide)

theorem head_ne_of_not_mem (h : ':' ∉ s) : s.head? ≠ some ':' :=
  fun hhead => h (mem_of_mem_head? hhead)

theorem colon_not_mem_toString (n : Int) : ':' ∉ (toString n).toList :=
  fun hmem => absurd (TextCodec.of_mem_toString hmem) (by decide)

theorem sound_word {t : List Char} (hcolon : ':' ∉ t) (hne : t ≠ []) :
    Sound [.word t] :=
  ⟨⟨noMarker_of_not_mem hcolon, head_ne_of_not_mem hcolon, hne⟩, trivial⟩

theorem sound_arg {arg : FnArg} (h : arg.Arithmetic) {ps : List SqlPiece} (hps : Sound ps)
    (hhead : ∃ c, (render ps).head? = some c ∧ endsName c = true) :
    Sound (argPieces display arg ++ ps) := by
  cases arg with
  | «variable» x => exact ⟨colon_not_mem_of_isVariable h, hhead, hps⟩
  | entidOrInteger i =>
    have hleaf := leafText_toString i.toInt
    refine (sound_word (colon_not_mem_toString i.toInt) fun hnil => ?_).append hps
    have hpos := (Written.leaf hleaf).length_pos
    rw [hnil] at hpos
    exact absurd hpos (Nat.lt_irrefl 0)
  | srcVar | identOrKeyword k | constant c | vector => exact h.elim

theorem colon_not_mem_op (op : Op) : ':' ∉ [' ', op.char, ' '] := by
  cases op <;> simp [Op.char]

theorem sound_pieces (h : c.Arithmetic) : Sound (c.pieces display) := by
  have hclose : Sound [.word [')']] := sound_word (by decide) (by decide)
  have hright : Sound (argPieces display c.right ++ [.word [')']]) :=
    sound_arg h.2 hclose ⟨')', rfl, rfl⟩
  have hop : Sound (.word [' ', c.op.char, ' '] :: (argPieces display c.right ++ [.word [')']])) :=
    (sound_word (colon_not_mem_op c.op) (cons_ne_nil _ _)).append hright
  have hleft : Sound (argPieces display c.left ++ _) := sound_arg h.1 hop ⟨' ', rfl, rfl⟩
  have hall := (sound_word (t := ['(']) (by decide) (by decide)).append hleft
  unfold Computation.pieces
  simpa only [append_assoc, cons_append, nil_append] using hall

theorem noMarker_value {table : String} (h : IsSqlName table) :
    NoMarker ('(' :: (buildNumericValueDecodeExpr table).toList ++ [')']) := by
  have hcolon : ':' ∉ table.toList := colon_not_mem_of_word (isWordChar_of_isSqlName h)
  have htable := noMarker_of_not_mem hcolon
  have hhead := head_ne_of_not_mem hcolon
  have hnext {s s' : List Char} (h : NoMarker s) (h' : NoMarker s') (hs' : s'.head? ≠ some ':') :
      NoMarker (s ++ table.toList ++ s') := (h.append htable hhead).append h' hs'
  have hall : NoMarker ("(COALESCE(".toList ++ table.toList ++ ".v_ref, ".toList ++ table.toList ++
      ".v_long, ".toList ++ table.toList ++ ".v_double::BIGINT, EXTRACT(EPOCH FROM ".toList ++
      table.toList ++ ".v_instant)::BIGINT * 1000000))".toList) :=
    hnext (hnext (hnext (hnext (by decide) (by decide) (by decide)) (by decide) (by decide))
      (by decide) (by decide)) (by decide) (by decide)
  unfold buildNumericValueDecodeExpr
  simpa using hall

section

variable (hextra : ∀ x c, extra.lookup x = some c → c.Arithmetic)

include hextra

theorem sound_replacementPieces (x : String) :
    Sound (replacementPieces display columns extra x) := by
  rcases computed_or_spelled columns extra x with ⟨c, hcolumn, hlookup⟩ | ⟨hnot, t, s, hs⟩
  · rw [replacementPieces_computed hcolumn hlookup]
    exact sound_pieces (hextra x c hlookup)
  · rw [hs.replacementPieces_eq hnot]
    cases hs with
    | column hcolumn _ =>
      have hword := word_column (columns.names _ _ _ hcolumn)
      exact sound_word (colon_not_mem_of_word hword) (by simp)
    | value hcolumn =>
      have hmarker := noMarker_value (columns.names _ _ _ hcolumn).1
      exact ⟨⟨hmarker, fun h => absurd (Option.some.inj h) (by decide), cons_ne_nil _ _⟩, trivial⟩
    | computed hcolumn hlookup _ _ => exact absurd hlookup (hnot _ hcolumn)
    | unbound _ _ => exact sound_word (by decide) (by decide)

theorem sound_codeBody (x : String) (hx : ':' ∉ x.toList) :
    Sound (codeBody display columns extra x) := by
  apply (sound_replacementPieces hextra (cutName x)).append
  unfold leftOverPieces
  split
  · trivial
  · rename_i hne
    exact sound_word (fun hmem => hx ((dropWhile_sublist _).subset hmem)) hne

theorem resolveVarRefs_iff (hc : c.Arithmetic) {text : List Char} :
    (∃ fuel, resolveVarRefs display columns extra fuel (c.text display) = some text) ↔
      ∃ ws, Expands (codeBody display columns extra) (c.pieces display) ws ∧ ws.flatten = text := by
  have hrender (fuel : Nat) :
      resolveVarRefs display columns extra fuel (render (c.pieces display)) =
        (expand (codeBody display columns extra) fuel (c.pieces display)).map render :=
    resolveVarRefs_render (sound_codeBody hextra) (sound_pieces hc) fuel
  simp only [← render_pieces, hrender]
  constructor
  · rintro ⟨fuel, h⟩
    obtain ⟨r, hr, rfl⟩ := Option.map_eq_some_iff.mp h
    obtain ⟨ws, rfl, hws⟩ := expands_of_expand hr
    exact ⟨ws, hws, (render_words ws).symm⟩
  · rintro ⟨ws, hws, rfl⟩
    obtain ⟨fuel, hfuel⟩ := hws.expand_eq
    exact ⟨fuel, by rw [hfuel, Option.map_some, render_words]⟩

end

end Pieces

section Dependencies

variable {x : String} {c : Computation} {ws : List (List Char)} {t : Expr}

theorem name_mem_argPieces {arg : FnArg} : .name x ∈ argPieces display arg ↔ x ∈ arg.vars := by
  cases arg <;> simp [argPieces, FnArg.vars]

theorem name_mem_pieces : .name x ∈ c.pieces display ↔ x ∈ c.vars := by
  simp [Computation.pieces, Computation.vars, name_mem_argPieces]

theorem dependsOn_iff {y : String} :
    NameExpansion.DependsOn (replacementPieces display columns extra) x y ↔
      ComputedFrom columns extra x y := by
  unfold NameExpansion.DependsOn replacementPieces ComputedFrom
  split
  · rename_i c hcolumn hlookup
    rw [name_mem_pieces, hcolumn, hlookup]
    simp
  · rename_i hnot
    constructor
    · intro h
      simp at h
    · rintro ⟨hcolumn, c, hlookup, -⟩
      exact absurd hlookup (hnot c hcolumn)

theorem codeBody_of_readsWhole (h : ReadsWhole x) :
    codeBody display columns extra x = replacementPieces display columns extra x := by
  unfold codeBody leftOverPieces
  rw [h.cutName_eq, if_pos (leftOver_eq_nil_iff.mpr h), append_nil]

theorem acc_iff : Acc (ComputedFrom columns extra) x ↔
    ∀ y, ReflTransGen (ComputedFrom columns extra) y x → ¬ SelfDependent columns extra y := by
  apply acc_iff_acyclic (extra.map Prod.fst).toFinset
  rintro _ y ⟨-, c, hlookup, -⟩
  obtain ⟨before, after, heq, -⟩ := lookup_eq_some_iff.mp hlookup
  rw [mem_toFinset, heq, map_append]
  exact mem_append_right _ mem_cons_self

theorem acyclic_iff :
    (∀ x, c.LeadsTo columns extra x → ¬ SelfDependent columns extra x) ↔
      ∀ x ∈ c.vars, Acc (ComputedFrom columns extra) x := by
  constructor
  · intro h x hx
    exact acc_iff.mpr fun y hy => h y ⟨x, hx, hy⟩
  · rintro h y ⟨x, hx, hy⟩
    exact acc_iff.mp (h x hx) y hy

theorem expands_codeBody_iff (hwhole : ∀ x, c.LeadsTo columns extra x → ReadsWhole x) :
    Expands (codeBody display columns extra) (c.pieces display) ws ↔
      Expands (replacementPieces display columns extra) (c.pieces display) ws := by
  have hnames : ∀ x, .name x ∈ c.pieces display → c.LeadsTo columns extra x :=
    fun x hx => ⟨x, name_mem_pieces.mp hx, .refl⟩
  have hnext {x y : String} (hx : c.LeadsTo columns extra x)
      (hy : .name y ∈ replacementPieces display columns extra x) : c.LeadsTo columns extra y := by
    obtain ⟨z, hz, hxz⟩ := hx
    exact ⟨z, hz, hxz.head (dependsOn_iff.mp hy)⟩
  constructor
  · intro h
    refine h.congr (S := c.LeadsTo columns extra) (fun x hx => ?_) hnames
    rw [codeBody_of_readsWhole (hwhole x hx)]
    exact ⟨rfl, fun y hy => hnext hx hy⟩
  · intro h
    refine h.congr (S := c.LeadsTo columns extra) (fun x hx => ?_) hnames
    rw [codeBody_of_readsWhole (hwhole x hx)]
    exact ⟨rfl, fun y hy => hnext hx hy⟩

theorem expands_pieces_iff {body : String → List SqlPiece} : Expands body (c.pieces display) ws ↔
      ∃ us vs, Expands body (argPieces display c.left) us ∧
        Expands body (argPieces display c.right) vs ∧
        ws = ['('] :: us ++ ([' ', c.op.char, ' '] :: vs) ++ [[')']] := by
  unfold Computation.pieces
  constructor
  · intro h
    obtain ⟨front, close, rfl, hfront, hclose⟩ := h.of_append
    obtain ⟨left, right, rfl, hleft, hright⟩ := hfront.of_append
    cases hleft with
    | word hus =>
      cases hright with
      | word hvs =>
        cases hclose with
        | word hnil =>
          cases hnil
          exact ⟨_, _, hus, hvs, rfl⟩
  · rintro ⟨us, vs, hus, hvs, rfl⟩
    exact ((Expands.word hus).append (.word hvs)).append (.word .nil)

theorem flatten_pieces (op : Op) (us vs : List (List Char)) :
    (['('] :: us ++ ([' ', op.char, ' '] :: vs) ++ [[')']]).flatten =
      opText op us.flatten vs.flatten := by
  simp [opText]

theorem SpelledAs.expands {arg : FnArg} {s : List Char} (h : SpelledAs columns extra arg t s) :
    ∃ ws, Expands (replacementPieces display columns extra) (argPieces display arg) ws ∧
      ws.flatten = s := by
  have hword {x : String} {t : Expr} {s : List Char}
      (hs : SpelledAs columns extra (.variable x) t s)
      (hnot : ∀ c, columns.get x = none → extra.lookup x ≠ some c) :
      ∃ ws, Expands (replacementPieces display columns extra)
        (argPieces display (.variable x)) ws ∧ ws.flatten = s := by
    refine ⟨[s], Expands.name_iff.mpr ?_, append_nil s⟩
    rw [hs.replacementPieces_eq hnot]
    exact .word .nil
  induction h with
  | integer i => exact ⟨[_], .word .nil, append_nil _⟩
  | column hcolumn hv => exact hword (.column hcolumn hv) (by simp [hcolumn])
  | value hcolumn => exact hword (.value hcolumn) (by simp [hcolumn])
  | @computed x c l r s s' hcolumn hlookup _ _ ihl ihr =>
    obtain ⟨us, hus, rfl⟩ := ihl
    obtain ⟨vs, hvs, rfl⟩ := ihr
    refine ⟨_, Expands.name_iff.mpr ?_, flatten_pieces c.op us vs⟩
    rw [replacementPieces_computed hcolumn hlookup]
    exact expands_pieces_iff.mpr ⟨us, vs, hus, hvs, rfl⟩
  | unbound hcolumn hlookup => exact hword (.unbound hcolumn hlookup) (by simp [hlookup])

theorem exists_spells_arg {arg : FnArg} (h : arg.Arithmetic)
    (hvars : ∀ y ∈ arg.vars, ∃ t s, SpelledAs columns extra (.variable y) t s) :
    ∃ t s, SpelledAs columns extra arg t s := by
  cases arg with
  | «variable» y => exact hvars y mem_cons_self
  | entidOrInteger i => exact ⟨_, _, .integer i⟩
  | srcVar | identOrKeyword k | constant c | vector => exact h.elim

theorem exists_spelled_of_vars (hc : c.Arithmetic)
    (h : ∀ x ∈ c.vars, ∃ t s, SpelledAs columns extra (.variable x) t s) :
    ∃ t text, c.Spelled columns extra t text := by
  obtain ⟨l, s, hl⟩ := exists_spells_arg hc.1 fun y hy => h y (mem_append_left _ hy)
  obtain ⟨r, s', hr⟩ := exists_spells_arg hc.2 fun y hy => h y (mem_append_right _ hy)
  exact ⟨_, _, l, r, s, s', hl, hr, rfl, rfl⟩

theorem exists_spells (hextra : ∀ x c, extra.lookup x = some c → c.Arithmetic)
    (h : Acc (ComputedFrom columns extra) x) :
    ∃ t s, SpelledAs columns extra (.variable x) t s := by
  induction h with
  | intro x _ ih =>
    rcases computed_or_spelled columns extra x with ⟨c, hcolumn, hlookup⟩ | ⟨-, hspelled⟩
    · obtain ⟨_, _, l, r, s, s', hl, hr, -, -⟩ := exists_spelled_of_vars (hextra x c hlookup)
        fun y hy => ih y ⟨hcolumn, c, hlookup, hy⟩
      exact ⟨_, _, .computed hcolumn hlookup hl hr⟩
    · exact hspelled

theorem Computation.Spelled.expands {text : List Char} (h : c.Spelled columns extra t text) :
    ∃ ws, Expands (replacementPieces display columns extra) (c.pieces display) ws ∧
      ws.flatten = text := by
  obtain ⟨l, r, s, s', hl, hr, -, rfl⟩ := h
  obtain ⟨us, (hus : Expands (replacementPieces display columns extra) _ _), rfl⟩ := hl.expands
  obtain ⟨vs, (hvs : Expands (replacementPieces display columns extra) _ _), rfl⟩ := hr.expands
  exact ⟨_, expands_pieces_iff.mpr ⟨us, vs, hus, hvs, rfl⟩, flatten_pieces c.op us vs⟩

theorem Computation.Spelled.written {text : List Char} (h : c.Spelled columns extra t text) :
    Written t text := by
  obtain ⟨l, r, s, s', hl, hr, rfl, rfl⟩ := h
  exact .app _ hl.written hr.written

end Dependencies

section Code

variable {x : String} {c : Computation} {ws : List (List Char)} {z : List Char} {t : Expr}

theorem IsVariable.balanced_leftOver (h : IsVariable x) : Balanced (leftOver x) := by
  apply balanced_of_forall
  intro c hc
  have hsymbol := h.2 c ((dropWhile_sublist _).subset hc)
  constructor
  · rintro rfl
    exact absurd hsymbol (by decide)
  · rintro rfl
    exact absurd hsymbol (by decide)

theorem Computation.Arithmetic.isVariable (h : c.Arithmetic) : ∀ x ∈ c.vars, IsVariable x := by
  have harg {arg : FnArg} (harith : arg.Arithmetic) : ∀ x ∈ arg.vars, IsVariable x := by
    intro x hx
    cases arg with
    | «variable» y =>
      obtain rfl : x = y := mem_singleton.mp hx
      exact harith
    | _ => cases hx
  intro x hx
  rcases mem_append.mp hx with hx | hx
  · exact harg h.1 x hx
  · exact harg h.2 x hx

theorem expands_leftOver {body : String → List SqlPiece} (h : Expands body (leftOverPieces x) ws) :
    ws.flatten = leftOver x := by
  unfold leftOverPieces at h
  split at h
  · rename_i hnil
    cases h
    exact hnil.symm
  · cases h with
    | word hnil =>
      cases hnil
      exact append_nil _

theorem segment_of_codeBody (hextra : ∀ x c, extra.lookup x = some c → c.Arithmetic)
    (hx : IsVariable x) (h : Expands (codeBody display columns extra) [.name x] ws) :
    ∃ s, Segment s ∧ ws.flatten = s ++ leftOver x := by
  have hacc := exists_expands_iff.mp ⟨ws, h⟩ x mem_cons_self
  induction hacc generalizing ws with
  | intro x _ ih =>
    obtain ⟨us, vs, rfl, hus, hvs⟩ := (Expands.name_iff.mp h).of_append
    rw [flatten_append, expands_leftOver hvs]
    refine ⟨us.flatten, ?_, rfl⟩
    rcases computed_or_spelled columns extra (cutName x) with
      ⟨c, hcolumn, hlookup⟩ | ⟨hnot, t, s, hs⟩
    · rw [replacementPieces_computed hcolumn hlookup] at hus
      have harith := hextra _ c hlookup
      -- the arguments of the operation are balanced by induction
      have harg {arg : FnArg} (hvars : ∀ y ∈ arg.vars, y ∈ c.vars) (hint : arg.Arithmetic)
          {as : List (List Char)}
          (has : Expands (codeBody display columns extra) (argPieces display arg) as) :
          Balanced as.flatten := by
        cases arg with
        | «variable» y =>
          have hy := hvars y mem_cons_self
          have hdepends : NameExpansion.DependsOn (codeBody display columns extra) y x := by
            apply mem_append_left
            rw [replacementPieces_computed hcolumn hlookup]
            exact name_mem_pieces.mpr hy
          have hvariable := harith.isVariable y hy
          obtain ⟨s, hs, heq⟩ := ih y hdepends hvariable has
          rw [heq]
          exact hs.balanced.append hvariable.balanced_leftOver
        | entidOrInteger i =>
          cases has with
          | word hnil =>
            cases hnil
            rw [flatten_cons, flatten_nil, append_nil]
            exact balanced_of_leafText (leafText_toString i.toInt)
        | srcVar | identOrKeyword k | constant c | vector => exact hint.elim
      obtain ⟨as, bs, has, hbs, rfl⟩ := expands_pieces_iff.mp hus
      rw [flatten_pieces]
      have hop := balanced_op c.op
      have hleft := harg (fun y hy => mem_append_left _ hy) harith.1 has
      have hright := harg (fun y hy => mem_append_right _ hy) harith.2 hbs
      exact .inr ⟨_, hleft.append (hop.append hright), by simp [opText]⟩
    · rw [hs.replacementPieces_eq hnot] at hus
      cases hus with
      | word hnil =>
        cases hnil
        rw [flatten_cons, flatten_nil, append_nil]
        exact hs.segment

def GoesOn (z : List Char) : Prop := ∃ c rest, z = c :: rest ∧ (c = ' ' ∨ c = ')')

theorem GoesOn.ends (h : GoesOn z) : Ends z := by
  obtain ⟨c, rest, rfl, rfl | rfl⟩ := h
  · exact ends_cons (by decide) (by decide)
  · exact ends_cons (by decide) (by decide)

theorem IsVariable.head_leftOver (h : IsVariable x) (hnot : ¬ ReadsWhole x) :
    ∃ c rest, leftOver x = c :: rest ∧ isWordChar c = false ∧ c ≠ '(' ∧ c ≠ ' ' ∧ c ≠ ')' := by
  have hne : leftOver x ≠ [] := fun hnil => hnot (leftOver_eq_nil_iff.mp hnil)
  obtain ⟨c, rest, heq⟩ := exists_cons_of_ne_nil hne
  have hstop : inName c = false := by
    have hhead := head_dropWhile_not inName hne
    unfold leftOver at heq
    simpa only [heq, head_cons] using hhead
  have hsymbol : isSymbolChar c = true := by
    apply h.2 c
    apply (dropWhile_sublist inName).subset
    show c ∈ leftOver x
    rw [heq]
    exact mem_cons_self
  have hends : endsName c = true := by simpa [inName] using hstop
  refine ⟨c, rest, heq, ?_⟩
  simp only [endsName, Bool.or_eq_true, beq_iff_eq] at hends
  rcases hends with (((((rfl | rfl) | rfl) | rfl) | rfl) | rfl) | rfl <;>
    first
      | decide
      | exact absurd hsymbol (by decide)

def ReadsAll (columns : VarToAlias) (extra : List (String × Computation)) (xs : List String) :
    Prop :=
  ∀ x ∈ xs, ∀ y, ReflTransGen (ComputedFrom columns extra) y x → ReadsWhole y

theorem readsAll_of_opText {s s' s1 s2 z' : List Char}
    (hleft : ∀ z z', GoesOn z → s ++ z = s1 ++ z' → ReadsAll columns extra c.left.vars ∧ z = z')
    (hright : ∀ z z', GoesOn z → s' ++ z = s2 ++ z' → ReadsAll columns extra c.right.vars ∧ z = z')
    (heq : opText c.op s s' ++ z = opText c.op s1 s2 ++ z') :
    ReadsAll columns extra c.vars ∧ z = z' := by
  have hinner : s ++ ([' ', c.op.char, ' '] ++ s' ++ ')' :: z) =
      s1 ++ ([' ', c.op.char, ' '] ++ s2 ++ ')' :: z') := by
    simpa [opText] using heq
  obtain ⟨hl, hrest⟩ := hleft _ _ ⟨' ', _, rfl, .inl rfl⟩ hinner
  have hsecond : s' ++ ')' :: z = s2 ++ ')' :: z' := by simpa using hrest
  obtain ⟨hr, hz⟩ := hright _ _ ⟨')', z, rfl, .inr rfl⟩ hsecond
  refine ⟨fun x hx => ?_, (List.cons.inj hz).2⟩
  rcases mem_append.mp hx with hx | hx
  · exact hl x hx
  · exact hr x hx

section

variable (hextra : ∀ x c, extra.lookup x = some c → c.Arithmetic)

include hextra

theorem readsWhole_of_text (hx : IsVariable x) {s z' : List Char}
    (hs : SpelledAs columns extra (.variable x) t s)
    (hws : Expands (codeBody display columns extra) [.name x] ws) (hz : GoesOn z)
    (heq : s ++ z = ws.flatten ++ z') : ReadsWhole x := by
  by_contra hnot
  obtain ⟨s1, hs1, hflatten⟩ := segment_of_codeBody hextra hx hws
  obtain ⟨c, rest, hleft, hword, hopen, hspace, hclose⟩ := hx.head_leftOver hnot
  rw [hflatten, append_assoc, hleft] at heq
  have hrest := (hs.segment.append_inj hs1 hz.ends (ends_cons hword hopen) heq).2
  obtain ⟨d, more, rfl, rfl | rfl⟩ := hz
  · exact hspace (List.cons.inj hrest).1.symm
  · exact hclose (List.cons.inj hrest).1.symm

/-- If the code has the right text in the place of an argument, it has read all names that the
argument leads to. -/
theorem readsAll_of_spells {arg : FnArg} (harg : arg.Arithmetic) {s z' : List Char}
    (hs : SpelledAs columns extra arg t s)
    (hws : Expands (codeBody display columns extra) (argPieces display arg) ws) (hz : GoesOn z)
    (heq : s ++ z = ws.flatten ++ z') : ReadsAll columns extra arg.vars ∧ z = z' := by
  have hword {s z z' : List Char} {ws : List (List Char)}
      (hws : Expands (codeBody display columns extra) [.word s] ws)
      (heq : s ++ z = ws.flatten ++ z') : z = z' := by
    cases hws with
    | word hnil =>
      cases hnil
      rw [flatten_cons, flatten_nil, append_nil] at heq
      exact append_cancel_left heq
  -- variables that are bound to columns, or to nothing, lead nowhere
  have hend {x : String} {t : Expr} {s z z' : List Char} {ws : List (List Char)}
      (hx : IsVariable x) (hs : SpelledAs columns extra (.variable x) t s)
      (hnot : ∀ c, columns.get x = none → extra.lookup x ≠ some c)
      (hws : Expands (codeBody display columns extra) [.name x] ws) (hz : GoesOn z)
      (heq : s ++ z = ws.flatten ++ z') : ReadsAll columns extra [x] ∧ z = z' := by
    have hwhole := readsWhole_of_text hextra hx hs hws hz heq
    constructor
    · intro x' hx' y hy
      obtain rfl : x' = x := mem_singleton.mp hx'
      rcases ReflTransGen.cases_tail hy with rfl | ⟨y', -, hcolumn, c, hlookup, -⟩
      · exact hwhole
      · exact absurd hlookup (hnot c hcolumn)
    · rw [Expands.name_iff, codeBody_of_readsWhole hwhole, hs.replacementPieces_eq hnot] at hws
      exact hword hws heq
  induction hs generalizing z z' ws with
  | integer i => exact ⟨fun x hx => absurd hx not_mem_nil, hword hws heq⟩
  | column hcolumn hv => exact hend harg (.column hcolumn hv) (by simp [hcolumn]) hws hz heq
  | value hcolumn => exact hend harg (.value hcolumn) (by simp [hcolumn]) hws hz heq
  | unbound hcolumn hlookup =>
    exact hend harg (.unbound hcolumn hlookup) (by simp [hlookup]) hws hz heq
  | @computed x c l r s s' hcolumn hlookup hl hr ihl ihr =>
    have hwhole := readsWhole_of_text hextra harg (.computed hcolumn hlookup hl hr) hws hz heq
    have harith := hextra x c hlookup
    have hexpands := Expands.name_iff.mp hws
    rw [codeBody_of_readsWhole hwhole, replacementPieces_computed hcolumn hlookup] at hexpands
    obtain ⟨us, vs, hus, hvs, rfl⟩ := expands_pieces_iff.mp hexpands
    rw [flatten_pieces] at heq
    obtain ⟨hall, hz'⟩ := readsAll_of_opText (fun _ _ => ihl harith.1 hus)
      (fun _ _ => ihr harith.2 hvs) heq
    refine ⟨fun x' hx' y hy => ?_, hz'⟩
    obtain rfl : x' = x := mem_singleton.mp hx'
    rcases ReflTransGen.cases_tail hy with rfl | ⟨y', hy', -, c', hc', hmem⟩
    · exact hwhole
    · cases hlookup.symm.trans hc'
      exact hall y' hmem y hy'

theorem readsWhole_of_spelled (hc : c.Arithmetic) {text : List Char}
    (hspelled : c.Spelled columns extra t text)
    (hws : Expands (codeBody display columns extra) (c.pieces display) ws)
    (heq : ws.flatten = text) :
    ∀ x, c.LeadsTo columns extra x → ReadsWhole x := by
  obtain ⟨l, r, s, s', hl, hr, -, rfl⟩ := hspelled
  obtain ⟨us, vs, hus, hvs, rfl⟩ := expands_pieces_iff.mp hws
  rw [flatten_pieces] at heq
  rintro x ⟨y, hy, hxy⟩
  have hall := readsAll_of_opText (z := []) (fun _ _ => readsAll_of_spells hextra hc.1 hl hus)
    (fun _ _ => readsAll_of_spells hextra hc.2 hr hvs) (congrArg (· ++ []) heq.symm)
  exact hall.1 y hy x hxy

end

end Code

section Resolution

theorem not_infix_of_findText {pattern s : List Char} (hne : pattern ≠ [])
    (h : findText pattern s = none) : ¬ pattern <:+: s := by
  induction s with
  | nil => exact fun hinfix => hne (infix_nil.mp hinfix)
  | cons c s ih =>
    rw [findText_cons] at h
    split at h
    · cases h
    · rename_i hnot
      rw [infix_cons_iff]
      exact not_or.mpr ⟨hnot, ih (Option.map_eq_none_iff.mp h)⟩

variable {fuel : Nat} {c : Computation}

theorem not_infix_of_resolveVarRefs {text text' : List Char}
    (h : resolveVarRefs display columns extra fuel text = some text') : ¬ varRef <:+: text' := by
  induction fuel generalizing text with
  | zero => cases h
  | succ fuel ih =>
    unfold resolveVarRefs at h
    split at h
    · rename_i hfirst
      obtain rfl : text = text' := Option.some.inj h
      have hmarker : firstMarker text = none := Option.map_eq_none_iff.mp hfirst
      have hvar : findText varRef text = none := by
        unfold firstMarker at hmarker
        split at hmarker
        · split at hmarker <;> cases hmarker
        · cases hmarker
        · cases hmarker
        · rename_i hnone
          exact hnone
      exact not_infix_of_findText (cons_ne_nil _ _) hvar
    · exact ih h

theorem resolvesNested_of_acyclic (hextra : ∀ x c, extra.lookup x = some c → c.Arithmetic)
    (hc : c.Arithmetic) (hwhole : ∀ x, c.LeadsTo columns extra x → ReadsWhole x)
    (hacyclic : ∀ x, c.LeadsTo columns extra x → ¬ SelfDependent columns extra x) :
    ResolvesNested display columns extra c := by
  obtain ⟨t, text, hspelled⟩ := exists_spelled_of_vars hc fun x hx =>
    exists_spells hextra (acyclic_iff.mp hacyclic x hx)
  obtain ⟨ws, (hws : Expands (replacementPieces display columns extra) _ _), hflatten⟩ :=
    hspelled.expands
  obtain ⟨fuel, hfuel⟩ := (resolveVarRefs_iff hextra hc).mpr
    ⟨ws, (expands_codeBody_iff hwhole).mpr hws, hflatten⟩
  exact ⟨⟨fuel, text, hfuel⟩, fun _ => ⟨fuel, text, t, hfuel, not_infix_of_resolveVarRefs hfuel,
    hspelled, hspelled.written.readArithmetic_eq⟩⟩

theorem acyclic_of_resolveVarRefs (hextra : ∀ x c, extra.lookup x = some c → c.Arithmetic)
    (hc : c.Arithmetic) (hwhole : ∀ x, c.LeadsTo columns extra x → ReadsWhole x) {text : List Char}
    (h : resolveVarRefs display columns extra fuel (c.text display) = some text) :
    ∀ x, c.LeadsTo columns extra x → ¬ SelfDependent columns extra x := by
  obtain ⟨ws, hws, -⟩ := (resolveVarRefs_iff hextra hc).mp ⟨fuel, h⟩
  have hacc := exists_expands_iff.mp ⟨ws, (expands_codeBody_iff hwhole).mp hws⟩
  rw [acyclic_iff]
  intro x hx
  have hrel : NameExpansion.DependsOn (replacementPieces display columns extra) =
      ComputedFrom columns extra := by
    funext y z
    exact propext dependsOn_iff
  rw [← hrel]
  exact hacc x (name_mem_pieces.mpr hx)

end Resolution

end Names

/-- Where names have no operators in them, the loop ends and has the nested expression if and only
if no variable depends on itself; where no variable does, if and only if names have none. -/
theorem resolvesNested_iff (display : F64 → String) (columns : VarToAlias)
    {extra : List (String × Computation)} (hextra : ∀ x c, extra.lookup x = some c → c.Arithmetic)
    {c : Computation} (hc : c.Arithmetic) :
    ((∀ x, c.LeadsTo columns extra x → ReadsWhole x) →
      (ResolvesNested display columns extra c ↔
        ∀ x, c.LeadsTo columns extra x → ¬ SelfDependent columns extra x)) ∧
    ((∀ x, c.LeadsTo columns extra x → ¬ SelfDependent columns extra x) →
      (ResolvesNested display columns extra c ↔
        ∀ x, c.LeadsTo columns extra x → ReadsWhole x)) := by
  refine ⟨fun hwhole => ⟨fun h => ?_, resolvesNested_of_acyclic hextra hc hwhole⟩,
    fun hacyclic => ⟨fun h => ?_, fun hwhole => ?_⟩⟩
  · obtain ⟨⟨fuel, text, hfuel⟩, -⟩ := h
    exact acyclic_of_resolveVarRefs hextra hc hwhole hfuel
  · obtain ⟨fuel, text, t, hfuel, -, hspelled, -⟩ := h.2 hacyclic
    obtain ⟨ws, hws, hflatten⟩ := (resolveVarRefs_iff hextra hc).mp ⟨fuel, hfuel⟩
    exact readsWhole_of_spelled hextra hc hspelled hws hflatten
  · exact resolvesNested_of_acyclic hextra hc hwhole hacyclic

/-- `[?e :person/age ?age]` -/
def ageColumns : VarToAlias where
  get x := if x = "?age" then some ("datoms0", "v") else none
  names := by
    intro x table col h
    split at h
    · cases h
      exact ⟨⟨by decide, by decide⟩, by decide, by decide⟩
    · cases h

def double : Computation := ⟨.mul, .variable "?age", .entidOrInteger 2⟩

def triple (x : String) : Computation := ⟨.mul, .variable x, .entidOrInteger 3⟩

def computedTwice (x : String) : List (String × Computation) :=
  [("?next", triple x), (x, double)]

instance : ∀ arg : FnArg, Decidable arg.Arithmetic
  | .variable _ => inferInstanceAs (Decidable (_ ∧ ∀ c ∈ _, isSymbolChar c = true))
  | .entidOrInteger _ => isTrue trivial
  | .srcVar | .identOrKeyword _ | .constant _ | .vector => isFalse id

instance (c : Computation) : Decidable c.Arithmetic := inferInstanceAs (Decidable (_ ∧ _))

section Entries

variable {columns : VarToAlias} {extra : List (String × Computation)} {c : Computation}
  {y : String}

theorem arithmetic_of_entries (h : ∀ entry ∈ extra, entry.2.Arithmetic) :
    ∀ y c, extra.lookup y = some c → c.Arithmetic := by
  intro y c hc
  obtain ⟨before, after, rfl, -⟩ := lookup_eq_some_iff.mp hc
  exact h (y, c) (mem_append_right _ mem_cons_self)

theorem leadsTo_mem {xs : List String} (hc : ∀ x ∈ c.vars, x ∈ xs)
    (hextra : ∀ entry ∈ extra, ∀ x ∈ entry.2.vars, x ∈ xs) (h : c.LeadsTo columns extra y) :
    y ∈ xs := by
  obtain ⟨z, hz, hyz⟩ := h
  rcases ReflTransGen.cases_head hyz with rfl | ⟨w, ⟨-, d, hd, hy⟩, -⟩
  · exact hc y hz
  · obtain ⟨before, after, rfl, -⟩ := lookup_eq_some_iff.mp hd
    exact hextra _ (mem_append_right _ mem_cons_self) y hy

theorem acyclic_of_rank (rank : String → Nat)
    (h : ∀ entry ∈ extra, ∀ x ∈ entry.2.vars, rank x < rank entry.1) :
    ∀ y, c.LeadsTo columns extra y → ¬ SelfDependent columns extra y := by
  refine acyclic_iff.mpr fun x _ => Subrelation.accessible ?_ ((measure rank).wf.apply x)
  rintro y z ⟨-, d, hd, hy⟩
  obtain ⟨before, after, rfl, -⟩ := lookup_eq_some_iff.mp hd
  exact h _ (mem_append_right _ mem_cons_self) y hy

end Entries

/-- `[(* ?age 2) ?double] [(* ?double 3) ?next]` -/
theorem resolvesNested_iff_double :
    ResolvesNested (fun _ => "") ageColumns (computedTwice "?double") (triple "?double") := by
  apply ((resolvesNested_iff (fun _ => "") ageColumns (arithmetic_of_entries (by decide))
    (by decide)).1 fun y hy => ?_).mpr (acyclic_of_rank (["?age", "?double"].idxOf ·) (by decide))
  have hmem : y ∈ ["?double", "?age"] := leadsTo_mem (by decide) (by decide) hy
  unfold ReadsWhole
  rcases mem_pair.mp hmem with rfl | rfl <;> decide

/-- `[(* ?age 2) ?double-age] [(* ?double-age 3) ?next]` -/
def hyphenatedFns : List WhereFn :=
  [⟨"*", [.variable "?age", .entidOrInteger 2], .bindScalar "?double-age"⟩,
   ⟨"*", [.variable "?double-age", .entidOrInteger 3], .bindScalar "?next"⟩]

def selfComputation : Computation := ⟨.mul, .variable "?x", .entidOrInteger 2⟩

/-- `[(* ?x 2) ?x]` -/
def selfComputed : List (String × Computation) := [("?x", selfComputation)]

/-- Of `?double-age` the loop reads `?double`, and on a variable that depends on itself it does not
end. -/
theorem not_resolvesNested_hyphen :
    collectWhereFns hyphenatedFns = .ok (computedTwice "?double-age") ∧
    resolveVarRefs (fun _ => "") ageColumns (computedTwice "?double-age") 2
      ((triple "?double-age").text fun _ => "") = some "(NULL-age * 3)".toList ∧
    ¬ ResolvesNested (fun _ => "") ageColumns (computedTwice "?double-age")
      (triple "?double-age") ∧
    ¬ ResolvesNested (fun _ => "") ageColumns selfComputed selfComputation := by
  refine ⟨rfl, by decide +kernel, fun h => ?_, fun h => ?_⟩
  · have hextra : ∀ y c, (computedTwice "?double-age").lookup y = some c → c.Arithmetic :=
      arithmetic_of_entries (by decide)
    have hc : (triple "?double-age").Arithmetic := by decide
    obtain ⟨fuel, text, t, hfuel, -, hspelled, -⟩ :=
      h.2 (acyclic_of_rank (["?age", "?double-age"].idxOf ·) (by decide))
    obtain ⟨ws, hws, hflatten⟩ := (resolveVarRefs_iff hextra hc).mp ⟨fuel, hfuel⟩
    have hwhole := readsWhole_of_spelled hextra hc hspelled hws hflatten "?double-age"
      ⟨_, mem_cons_self, .refl⟩
    exact absurd (hwhole '-' (by decide)) (by decide)
  · have hc : selfComputation.Arithmetic := by decide
    have hextra : ∀ y c, selfComputed.lookup y = some c → c.Arithmetic :=
      arithmetic_of_entries (by decide)
    have hwhole : ∀ y, selfComputation.LeadsTo ageColumns selfComputed y → ReadsWhole y := by
      intro y hy
      have hmem : y ∈ ["?x"] := leadsTo_mem (by decide) (by decide) hy
      rw [mem_singleton.mp hmem]
      unfold ReadsWhole
      decide
    obtain ⟨fuel, text, hfuel⟩ := h.1
    have hself : ComputedFrom ageColumns selfComputed "?x" "?x" :=
      ⟨by decide, _, rfl, mem_cons_self⟩
    exact acyclic_of_resolveVarRefs hextra hc hwhole hfuel "?x" ⟨_, mem_cons_self, .refl⟩
      (.single hself)

end PgMentat

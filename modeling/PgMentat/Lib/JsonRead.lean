import PgMentat.Lib.JsonToken

namespace JsonRead

open List TextCodec

inductive Tree where
  | null
  | bool (b : Bool)
  | number (literal : List Char)
  | string (s : String)
  | array (items : List Tree)
  | object (members : List (String × Tree))

def isWs (c : Char) : Bool := c = ' ' || c = '\n' || c = '\r' || c = '\t'

def skipWs (cs : List Char) : List Char := cs.dropWhile isWs

def readScalar : List Char → Option (Tree × List Char)
  | '"' :: rest => (readString rest).map fun r => (.string (String.ofList r.1), r.2)
  | 'n' :: 'u' :: 'l' :: 'l' :: rest => some (.null, rest)
  | 't' :: 'r' :: 'u' :: 'e' :: rest => some (.bool true, rest)
  | 'f' :: 'a' :: 'l' :: 's' :: 'e' :: rest => some (.bool false, rest)
  | cs => (readNumber cs).map fun r => (.number r.1, r.2)

def readKey (cs : List Char) : Option (String × List Char) :=
  match skipWs cs with
  | '"' :: rest => do
    let (key, rest) ← readString rest
    match skipWs rest with
    | ':' :: rest => some (String.ofList key, rest)
    | _ => none
  | _ => none

mutual

def readValue : Nat → List Char → Option (Tree × List Char)
  | 0, _ => none
  | n + 1, cs =>
    match skipWs cs with
    | '[' :: rest =>
      match skipWs rest with
      | ']' :: rest => some (.array [], rest)
      | _ => (readElements n rest).map fun r => (.array r.1, r.2)
    | '{' :: rest =>
      match skipWs rest with
      | '}' :: rest => some (.object [], rest)
      | _ => (readMembers n rest).map fun r => (.object r.1, r.2)
    | cs => readScalar cs

/-- One element or more, and the closing bracket. -/
def readElements : Nat → List Char → Option (List Tree × List Char)
  | 0, _ => none
  | n + 1, cs => do
    let (item, rest) ← readValue n cs
    match skipWs rest with
    | ',' :: rest => (readElements n rest).map fun r => (item :: r.1, r.2)
    | ']' :: rest => some ([item], rest)
    | _ => none

/-- One member or more, and the closing brace. -/
def readMembers : Nat → List Char → Option (List (String × Tree) × List Char)
  | 0, _ => none
  | n + 1, cs => do
    let (key, rest) ← readKey cs
    let (value, rest) ← readValue n rest
    match skipWs rest with
    | ',' :: rest => (readMembers n rest).map fun r => ((key, value) :: r.1, r.2)
    | '}' :: rest => some ([(key, value)], rest)
    | _ => none

end

/-- A text that is one value, with blanks around it. -/
def parse (text : List Char) : Option Tree :=
  match readValue (text.length + 1) text with
  | some (tree, rest) => if skipWs rest = [] then some tree else none
  | none => none

/-- The text is read as the tree, and does not begin like a blank or the end of a collection. -/
structure ReadsTo (text : List Char) (tree : Tree) : Prop where
  start : ∃ c cs, text = c :: cs ∧ isWs c = false ∧ c ≠ ']'
  read : ∀ n rest, text.length ≤ n → EndsNumber rest →
    readValue (n + 1) (text ++ rest) = some (tree, rest)

def commaSep : List (List Char) → List Char
  | [] => []
  | [text] => text
  | text :: texts => text ++ ',' :: commaSep texts

def arrayText (texts : List (List Char)) : List Char := '[' :: commaSep texts ++ [']']

def quoted (raw : List Char) : List Char := '"' :: raw ++ ['"']

def memberText (raw value : List Char) : List Char := quoted raw ++ ':' :: value

def objectText (texts : List (List Char)) : List Char := '{' :: commaSep texts ++ ['}']

section ReadsTo

variable {text rest : List Char} {tree : Tree}

theorem skipWs_cons {c : Char} (h : isWs c = false) (cs : List Char) :
    skipWs (c :: cs) = c :: cs :=
  dropWhile_cons_of_neg (by simp [h])

theorem endsNumber_cons {c : Char} (h : c.isDigit = false ∧ c ≠ '.' ∧ c ≠ 'e' ∧ c ≠ 'E')
    (rest : List Char) : EndsNumber (c :: rest) := by
  intro d hd
  cases hd
  exact h

theorem ReadsTo.parse (h : ReadsTo text tree) : parse text = some tree := by
  have hread := h.read text.length [] le_rfl (by simp [EndsNumber])
  rw [append_nil] at hread
  rw [JsonRead.parse, hread]
  rfl

theorem readsTo_null : ReadsTo "null".toList .null :=
  ⟨⟨_, _, rfl, rfl, by decide⟩, fun _ _ _ _ => rfl⟩

theorem readsTo_bool (b : Bool) : ReadsTo (toString b).toList (.bool b) := by
  cases b
  · exact ⟨⟨_, _, rfl, rfl, by decide⟩, fun _ _ _ _ => rfl⟩
  · exact ⟨⟨_, _, rfl, rfl, by decide⟩, fun _ _ _ _ => rfl⟩

theorem readValue_quoted (n : Nat) (raw rest : List Char) :
    readValue (n + 1) (quoted raw ++ rest) =
      (readString (raw ++ '"' :: rest)).map fun r => (.string (String.ofList r.1), r.2) := by
  have hskip : skipWs (quoted raw ++ rest) = '"' :: (raw ++ '"' :: rest) := by
    rw [quoted, append_assoc, cons_append, singleton_append]
    exact skipWs_cons rfl _
  rw [readValue, hskip]
  rfl

theorem readsTo_quoted {raw : List Char} {s : String}
    (h : ∀ rest, readString (raw ++ '"' :: rest) = some (s.toList, rest)) :
    ReadsTo (quoted raw) (.string s) := by
  refine ⟨⟨_, _, rfl, rfl, by decide⟩, fun n rest _ _ => ?_⟩
  rw [readValue_quoted, h rest, Option.map_some, String.ofList_toList]

theorem readValue_of_digit {c : Char} {cs : List Char}
    (hws : isWs c = false) (hstart : c.isDigit = true ∨ c = '-') (n : Nat) :
    readValue (n + 1) (c :: cs) = (readNumber (c :: cs)).map fun r => (.number r.1, r.2) := by
  have hne : ∀ d : Char, d.isDigit = false → d ≠ '-' → c ≠ d := by
    intro d hdigit hminus heq
    subst heq
    rcases hstart with h | h
    · exact absurd (h.symm.trans hdigit) (by decide)
    · exact hminus h
  rw [readValue, skipWs_cons hws]
  split
  case h_3 =>
    unfold readScalar
    split
    case h_5 => rfl
    all_goals
      rename_i heq
      cases heq
      exact absurd rfl (hne _ (by decide) (by decide))
  all_goals
    rename_i heq
    cases heq
    exact absurd rfl (hne _ (by decide) (by decide))

theorem toString_eq_cons (n : Int) :
    ∃ c cs, (toString n).toList = c :: cs ∧ (c.isDigit = true ∨ c = '-') := by
  cases h : (toString n).toList with
  | nil =>
    have hparse := parseInt_toString n
    rw [h] at hparse
    cases hparse
  | cons c cs => exact ⟨c, cs, rfl, of_mem_toString (h ▸ mem_cons_self)⟩

theorem readsTo_int (n : Int) : ReadsTo (toString n).toList (.number (toString n).toList) := by
  obtain ⟨c, cs, heq, hc⟩ := toString_eq_cons n
  have hne : isWs c = false ∧ c ≠ ']' := by
    rcases hc with hdigit | rfl
    · constructor
      · by_contra hws
        simp only [isWs, Bool.or_eq_true, decide_eq_true_eq, Bool.not_eq_false] at hws
        rcases hws with ((rfl | rfl) | rfl) | rfl <;> exact absurd hdigit (by decide)
      · rintro rfl
        exact absurd hdigit (by decide)
    · decide
  refine ⟨⟨c, cs, heq, hne⟩, fun m rest _ hends => ?_⟩
  have hnumber := readNumber_toString n hends
  rw [heq, cons_append] at hnumber ⊢
  rw [readValue_of_digit hne.1 hc, hnumber]
  rfl

theorem commaSep_cons_cons (text text' : List Char) (texts : List (List Char)) :
    commaSep (text :: text' :: texts) = text ++ ',' :: commaSep (text' :: texts) := rfl

theorem commaSep_cons (text : List Char) (texts : List (List Char)) :
    commaSep (text :: texts) = text ++ texts.flatMap (',' :: ·) := by
  induction texts generalizing text with
  | nil => rw [commaSep, flatMap_nil, append_nil]
  | cons text' texts ih => rw [commaSep_cons_cons, ih, flatMap_cons, cons_append]

theorem readElements_commaSep {texts : List (List Char)} {trees : List Tree}
    (h : Forall₂ ReadsTo texts trees) (hne : texts ≠ []) (n : Nat) (rest : List Char)
    (hn : (commaSep texts).length + 1 ≤ n) :
    readElements (n + 1) (commaSep texts ++ ']' :: rest) = some (trees, rest) := by
  induction h generalizing n with
  | nil => exact absurd rfl hne
  | @cons text tree texts trees hhead htail ih =>
    cases htail with
    | nil =>
      obtain ⟨m, rfl⟩ : ∃ m, n = m + 1 := ⟨n - 1, by omega⟩
      have hread := hhead.read m (']' :: rest) (by simpa [commaSep] using hn)
        (endsNumber_cons (by decide) _)
      rw [commaSep, readElements, hread]
      rfl
    | @cons text' tree' texts trees hhead' htail =>
      rw [commaSep_cons_cons] at hn ⊢
      rw [length_append, length_cons] at hn
      obtain ⟨m, rfl⟩ : ∃ m, n = m + 1 := ⟨n - 1, by omega⟩
      have hread := hhead.read m (',' :: (commaSep (text' :: texts) ++ ']' :: rest)) (by omega)
        (endsNumber_cons (by decide) _)
      have hrest := ih (by simp) m (by omega)
      rw [append_assoc, cons_append, readElements, hread]
      simp only [Option.bind_eq_bind, Option.bind_some, skipWs_cons (show isWs ',' = false by rfl),
        hrest, Option.map_some]

theorem readValue_array {c : Char} (hws : isWs c = false) (hc : c ≠ ']') (n : Nat)
    (cs : List Char) :
    readValue (n + 1) ('[' :: c :: cs) =
      (readElements n (c :: cs)).map fun r => (.array r.1, r.2) := by
  rw [readValue, skipWs_cons rfl]
  change (match skipWs (c :: cs) with
    | ']' :: rest => some (Tree.array [], rest)
    | _ => (readElements n (c :: cs)).map fun r : List Tree × List Char => (.array r.1, r.2)) = _
  rw [skipWs_cons hws]
  split
  · rename_i heq
    cases heq
    exact absurd rfl hc
  · rfl

theorem start_commaSep {P : Char → Prop} (texts : List (List Char))
    (h : ∃ c cs, text = c :: cs ∧ P c) : ∃ c cs, commaSep (text :: texts) = c :: cs ∧ P c := by
  obtain ⟨c, cs, rfl, hc⟩ := h
  exact ⟨c, cs ++ texts.flatMap (',' :: ·), commaSep_cons (c :: cs) texts, hc⟩

theorem readsTo_array {texts : List (List Char)} {trees : List Tree}
    (h : Forall₂ ReadsTo texts trees) : ReadsTo (arrayText texts) (.array trees) := by
  refine ⟨⟨_, _, rfl, rfl, by decide⟩, fun n rest hn _ => ?_⟩
  cases h with
  | nil => rfl
  | @cons text tree texts trees hhead htail =>
    obtain ⟨c, cs, heq, hws, hc⟩ := start_commaSep texts hhead.start
    simp only [arrayText, length_append, length_cons, length_nil] at hn
    obtain ⟨m, rfl⟩ : ∃ m, n = m + 1 := ⟨n - 1, by omega⟩
    have hread := readElements_commaSep (.cons hhead htail) (by simp) m rest (by omega)
    rw [arrayText, append_assoc, singleton_append, cons_append]
    rw [heq, cons_append] at hread ⊢
    rw [readValue_array hws hc, hread, Option.map_some]

theorem readKey_quoted {raw : List Char} {key : String}
    (h : ∀ rest, readString (raw ++ '"' :: rest) = some (key.toList, rest)) (rest : List Char) :
    readKey (quoted raw ++ ':' :: rest) = some (key, rest) := by
  have hskip : skipWs (quoted raw ++ ':' :: rest) = '"' :: (raw ++ '"' :: ':' :: rest) := by
    rw [quoted, append_assoc, cons_append, singleton_append]
    exact skipWs_cons rfl _
  rw [readKey, hskip]
  simp only [h, Option.bind_eq_bind, Option.bind_some, skipWs_cons (show isWs ':' = false by rfl),
    String.ofList_toList]

structure ReadsToMember (text : List Char) (member : String × Tree) : Prop where
  start : ∃ cs, text = '"' :: cs
  read : ∃ value, ReadsTo value member.2 ∧ value.length < text.length ∧
    ∀ rest, readKey (text ++ rest) = some (member.1, value ++ rest)

theorem readsTo_member {raw value : List Char} {key : String} {tree : Tree}
    (h : ∀ rest, readString (raw ++ '"' :: rest) = some (key.toList, rest))
    (hvalue : ReadsTo value tree) : ReadsToMember (memberText raw value) (key, tree) := by
  refine ⟨⟨_, rfl⟩, value, hvalue, by simp [memberText]; omega, fun rest => ?_⟩
  rw [memberText, append_assoc, cons_append]
  exact readKey_quoted h (value ++ rest)

theorem readMembers_commaSep {texts : List (List Char)} {members : List (String × Tree)}
    (h : Forall₂ ReadsToMember texts members) (hne : texts ≠ []) (n : Nat) (rest : List Char)
    (hn : (commaSep texts).length + 1 ≤ n) :
    readMembers (n + 1) (commaSep texts ++ '}' :: rest) = some (members, rest) := by
  induction h generalizing n with
  | nil => exact absurd rfl hne
  | @cons text member texts members hhead htail ih =>
    obtain ⟨value, hvalue, hlen, hkey⟩ := hhead.read
    cases htail with
    | nil =>
      rw [commaSep] at hn ⊢
      obtain ⟨m, rfl⟩ : ∃ m, n = m + 1 := ⟨n - 1, by omega⟩
      have hread := hvalue.read m ('}' :: rest) (by omega)
        (endsNumber_cons (by decide) _)
      rw [readMembers, hkey]
      simp only [Option.bind_eq_bind, Option.bind_some, hread,
        skipWs_cons (show isWs '}' = false by rfl)]
    | @cons text' member' texts members hhead' htail =>
      rw [commaSep_cons_cons] at hn ⊢
      rw [length_append, length_cons] at hn
      obtain ⟨m, rfl⟩ : ∃ m, n = m + 1 := ⟨n - 1, by omega⟩
      have hread := hvalue.read m (',' :: (commaSep (text' :: texts) ++ '}' :: rest)) (by omega)
        (endsNumber_cons (by decide) _)
      have hrest := ih (by simp) m (by omega)
      rw [append_assoc, cons_append, readMembers, hkey]
      simp only [Option.bind_eq_bind, Option.bind_some, hread, hrest, Option.map_some,
        skipWs_cons (show isWs ',' = false by rfl)]

theorem readValue_object (n : Nat) (cs : List Char) :
    readValue (n + 1) ('{' :: '"' :: cs) =
      (readMembers n ('"' :: cs)).map fun r => (.object r.1, r.2) := by
  rw [readValue, skipWs_cons rfl]
  rfl

theorem readsTo_object {texts : List (List Char)} {members : List (String × Tree)}
    (h : Forall₂ ReadsToMember texts members) :
    ReadsTo (objectText texts) (.object members) := by
  refine ⟨⟨_, _, rfl, rfl, by decide⟩, fun n rest hn _ => ?_⟩
  cases h with
  | nil => rfl
  | @cons text member texts members hhead htail =>
    obtain ⟨cs, hcs⟩ := hhead.start
    obtain ⟨c, cs, heq, rfl⟩ := start_commaSep texts ⟨_, cs, hcs, rfl⟩
    simp only [objectText, length_append, length_cons, length_nil] at hn
    obtain ⟨m, rfl⟩ : ∃ m, n = m + 1 := ⟨n - 1, by omega⟩
    have hread := readMembers_commaSep (.cons hhead htail) (by simp) m rest (by omega)
    rw [objectText, append_assoc, singleton_append, cons_append]
    rw [heq, cons_append] at hread ⊢
    rw [readValue_object, hread, Option.map_some]

end ReadsTo

/-- No control characters but newline, return and tab. -/
def LegibleText (s : String) : Prop :=
  ∀ c ∈ s.toList, c.toNat < 32 → c = '\n' ∨ c = '\r' ∨ c = '\t'

instance (s : String) : Decidable (LegibleText s) := List.decidableBAll _ _

/-- Only characters that stand for themselves in a JSON string. -/
def PlainText (s : String) : Prop := ∀ c ∈ s.toList, Plain c

instance (s : String) : Decidable (PlainText s) := List.decidableBAll _ _

section Texts

theorem legibleText_iff {s : String} :
    LegibleText s ↔ ∀ c ∈ s.toList, Escapes basicEscape c := by
  refine forall₂_congr fun c hc => ?_
  constructor
  · intro h
    rcases basicEscape_cases c with hesc | ⟨hcontrol, hraw⟩
    · exact hesc
    · rcases h hcontrol with rfl | rfl | rfl <;> exact absurd hraw (by decide)
  · rintro (⟨hplain, -⟩ | ⟨e, hesc, -⟩) hcontrol
    · exact absurd hplain.2.2 (Nat.not_le.mpr hcontrol)
    · unfold basicEscape at hesc
      split at hesc
      · exact absurd hcontrol (by decide)
      · exact absurd hcontrol (by decide)
      · exact .inl rfl
      · exact .inr (.inl rfl)
      · exact .inr (.inr rfl)
      · cases hesc

theorem readsTo_escapeBasic {s : String} (h : LegibleText s) :
    ReadsTo (quoted (escapeBasic s.toList)) (.string s) := by
  apply readsTo_quoted
  intro rest
  rw [escapeBasic_eq_flatMap]
  exact readString_escaped (legibleText_iff.mp h) rest

theorem readsTo_plain {s : String} (h : PlainText s) : ReadsTo (quoted s.toList) (.string s) := by
  apply readsTo_quoted
  exact readString_of_plain h

theorem plainText_append {s t : String} : PlainText (s ++ t) ↔ PlainText s ∧ PlainText t := by
  simp only [PlainText, String.toList_append, forall_mem_append]

theorem plain_of_isDigit {c : Char} (h : c.isDigit = true) : Plain c := by
  refine ⟨?_, ?_, ?_⟩
  · rintro rfl
    exact absurd h (by decide)
  · rintro rfl
    exact absurd h (by decide)
  · simp only [Char.isDigit, Bool.and_eq_true, decide_eq_true_eq] at h
    have h48 : '0'.val.toNat ≤ c.val.toNat := UInt32.le_iff_toNat_le.mp h.1
    simp at h48
    exact le_trans (by decide) h48

theorem plainText_toString (n : Int) : PlainText (toString n) := by
  intro c hc
  rcases of_mem_toString hc with hdigit | rfl
  · exact plain_of_isDigit hdigit
  · decide

end Texts

theorem read_succ (n : Nat) :
    (∀ cs result, readValue n cs = some result → readValue (n + 1) cs = some result) ∧
    (∀ cs result, readElements n cs = some result → readElements (n + 1) cs = some result) ∧
    (∀ cs result, readMembers n cs = some result → readMembers (n + 1) cs = some result) := by
  induction n with
  | zero => refine ⟨?_, ?_, ?_⟩ <;> intro _ _ h <;> cases h
  | succ n ih =>
    obtain ⟨ihValue, ihElements, ihMembers⟩ := ih
    have hmap {α β : Type} {x y : Option α} {f : α → β} {b : β}
        (hxy : ∀ a, x = some a → y = some a) (h : x.map f = some b) : y.map f = some b := by
      obtain ⟨a, ha, heq⟩ := Option.map_eq_some_iff.mp h
      exact Option.map_eq_some_iff.mpr ⟨a, hxy a ha, heq⟩
    refine ⟨?_, ?_, ?_⟩
    · intro cs result h
      rw [readValue] at h ⊢
      split at h
      · split at h
        · exact h
        · exact hmap (ihElements _) h
      · split at h
        · exact h
        · exact hmap (ihMembers _) h
      · exact h
    · intro cs result h
      rw [readElements] at h ⊢
      obtain ⟨⟨item, rest⟩, hitem, h⟩ := Option.bind_eq_some_iff.mp h
      refine Option.bind_eq_some_iff.mpr ⟨_, ihValue _ _ hitem, ?_⟩
      dsimp only at h ⊢
      split at h
      · exact hmap (ihElements _) h
      · exact h
      · exact h
    · intro cs result h
      rw [readMembers] at h ⊢
      obtain ⟨⟨key, rest⟩, hkey, h⟩ := Option.bind_eq_some_iff.mp h
      obtain ⟨⟨value, rest⟩, hvalue, h⟩ := Option.bind_eq_some_iff.mp h
      refine Option.bind_eq_some_iff.mpr ⟨_, hkey, ?_⟩
      refine Option.bind_eq_some_iff.mpr ⟨_, ihValue _ _ hvalue, ?_⟩
      dsimp only at h ⊢
      split at h
      · exact hmap (ihMembers _) h
      · exact h
      · exact h

theorem readValue_mono {n m : Nat} {cs : List Char} {result : Tree × List Char} (hle : n ≤ m)
    (h : readValue n cs = some result) : readValue m cs = some result := by
  induction hle with
  | refl => exact h
  | step _ ih => exact (read_succ _).1 _ _ ih

/-- A text, the trees it is meant to be read as, and what holds if it is. -/
structure Slot where
  text : List Char
  fits : Tree → Prop
  cond : Prop

/-- If the text is read as meant, it is read to its end. -/
structure Slot.Exact (s : Slot) : Prop where
  start : ∃ c cs, s.text = c :: cs ∧ isWs c = false ∧ c ≠ ']'
  read : ∀ n rest tree out, EndsNumber rest → readValue n (s.text ++ rest) = some (tree, out) →
    s.fits tree → s.cond ∧ out = rest

theorem ReadsTo.eq_of_read {text rest out : List Char} {tree tree' : Tree} {n : Nat}
    (h : ReadsTo text tree) (hends : EndsNumber rest)
    (hread : readValue n (text ++ rest) = some (tree', out)) : tree' = tree ∧ out = rest := by
  have hlarge := readValue_mono (Nat.le_add_right n (text.length + 1)) hread
  rw [← Nat.add_assoc, h.read _ rest (Nat.le_add_left _ _) hends] at hlarge
  cases hlarge
  exact ⟨rfl, rfl⟩

theorem exact_of_readsTo {text : List Char} {tree : Tree} {fits : Tree → Prop} {cond : Prop}
    (h : ReadsTo text tree) (hcond : fits tree → cond) : Slot.Exact ⟨text, fits, cond⟩ := by
  refine ⟨h.start, fun n rest tree' out hends hread hfits => ?_⟩
  obtain ⟨rfl, rfl⟩ := h.eq_of_read hends hread
  exact ⟨hcond hfits, rfl⟩

theorem Slot.Exact.of_parse {s : Slot} {tree : Tree} (h : s.Exact)
    (hparse : parse s.text = some tree)
    (hfits : s.fits tree) : s.cond := by
  unfold parse at hparse
  split at hparse
  · rename_i tree' rest hread
    split at hparse
    · cases hparse
      rw [← append_nil s.text] at hread
      exact (h.read _ [] _ _ (by simp [EndsNumber]) hread hfits).1
    · cases hparse
  · cases hparse

theorem read_escapeBasic {s : String} {n : Nat} {rest out : List Char} {tree : Tree}
    (h : readValue n (quoted (escapeBasic s.toList) ++ rest) = some (tree, out)) :
    LegibleText s ∧ tree = .string s ∧ out = rest := by
  cases n with
  | zero => cases h
  | succ n =>
    rw [readValue_quoted, escapeBasic_eq_flatMap] at h
    obtain ⟨⟨cs, out'⟩, hcs, heq⟩ := Option.map_eq_some_iff.mp h
    cases heq
    obtain ⟨hall, rfl, rfl⟩ := readString_escaped_inv basicEscape_cases hcs
    exact ⟨legibleText_iff.mpr hall, by rw [String.ofList_toList], rfl⟩

theorem exact_escapeBasic {s : String} {fits : Tree → Prop} {cond : Prop}
    (hcond : LegibleText s → fits (.string s) → cond) :
    Slot.Exact ⟨quoted (escapeBasic s.toList), fits, cond⟩ := by
  refine ⟨⟨_, _, rfl, rfl, by decide⟩, fun n rest tree out hends hread hfits => ?_⟩
  obtain ⟨hlegible, rfl, rfl⟩ := read_escapeBasic hread
  exact ⟨hcond hlegible hfits, rfl⟩

/-- Each tree is one that its text is meant to be read as. -/
def Fit (slots : List Slot) (trees : List Tree) : Prop := ∀ p ∈ slots.zip trees, p.1.fits p.2

theorem readElements_exact {slots : List Slot} (hslots : ∀ s ∈ slots, s.Exact) (hne : slots ≠ [])
    {n : Nat} {rest out : List Char} {trees : List Tree} (hfit : Fit slots trees)
    (h : readElements n (commaSep (slots.map Slot.text) ++ ']' :: rest) = some (trees, out)) :
    (∀ s ∈ slots, s.cond) ∧ out = rest := by
  induction slots generalizing n trees with
  | nil => exact absurd rfl hne
  | cons slot slots ih =>
    obtain ⟨hslot, hslots⟩ := forall_mem_cons.mp hslots
    rcases n with _ | m
    · cases h
    rw [readElements] at h
    obtain ⟨⟨item, rest'⟩, hitem, h⟩ := Option.bind_eq_some_iff.mp h
    dsimp only at h
    have hhead : slot.fits item := by
      split at h
      · obtain ⟨elements, -, heq⟩ := Option.map_eq_some_iff.mp h
        cases heq
        exact hfit (slot, item) mem_cons_self
      · cases h
        exact hfit (slot, item) mem_cons_self
      · cases h
    cases slots with
    | nil =>
      have hends := endsNumber_cons (c := ']') (by decide) rest
      obtain ⟨hcond, rfl⟩ := hslot.read m _ item rest' hends hitem hhead
      cases h
      exact ⟨by simpa using hcond, rfl⟩
    | cons slot' slots =>
      rw [map_cons, map_cons, commaSep_cons_cons, append_assoc,
        cons_append] at hitem
      have hends := endsNumber_cons (c := ',') (by decide)
        (commaSep (slot'.text :: slots.map Slot.text) ++ ']' :: rest)
      obtain ⟨hcond, rfl⟩ := hslot.read m _ item rest' hends hitem hhead
      rw [skipWs_cons (by decide)] at h
      obtain ⟨⟨elements, out'⟩, hread, heq⟩ := Option.map_eq_some_iff.mp h
      cases heq
      obtain ⟨hconds, hout⟩ := ih hslots (by simp) (forall_mem_cons.mp hfit).2 hread
      exact ⟨forall_mem_cons.mpr ⟨hcond, hconds⟩, hout⟩

def FirstRead (slots : List Slot) (items : List Tree) : Prop :=
  ∀ s ∈ slots.head?, ∃ item ∈ items.head?, ∃ n rest out, EndsNumber rest ∧
    readValue n (s.text ++ rest) = some (item, out)

theorem firstRead_of_readElements {slots : List Slot} {n : Nat} {rest out : List Char}
    {items : List Tree}
    (h : readElements n (commaSep (slots.map Slot.text) ++ ']' :: rest) = some (items, out)) :
    FirstRead slots items := by
  intro s hs
  obtain ⟨slots', rfl⟩ : ∃ slots', slots = s :: slots' := List.head?_eq_some_iff.mp hs
  rcases n with _ | m
  · cases h
  rw [readElements] at h
  obtain ⟨⟨item, rest'⟩, hitem, h⟩ := Option.bind_eq_some_iff.mp h
  dsimp only at h
  have hmem : item ∈ items.head? := by
    split at h
    · obtain ⟨elements, -, heq⟩ := Option.map_eq_some_iff.mp h
      cases heq
      rfl
    · cases h
      rfl
    · cases h
  cases slots' with
  | nil =>
    have hends := endsNumber_cons (c := ']') (by decide) rest
    exact ⟨item, hmem, m, _, _, hends, hitem⟩
  | cons slot' slots =>
    rw [map_cons, map_cons, commaSep_cons_cons, append_assoc] at hitem
    have hends := endsNumber_cons (c := ',') (by decide)
      (commaSep (slot'.text :: slots.map Slot.text) ++ ']' :: rest)
    exact ⟨item, hmem, m, _, _, hends, hitem⟩

theorem eq_array_of_read {n : Nat} {cs out : List Char} {tree : Tree}
    (h : readValue n ('[' :: cs) = some (tree, out)) : ∃ items, tree = .array items := by
  cases n with
  | zero => cases h
  | succ n =>
    rw [readValue, skipWs_cons rfl] at h
    split at h
    · split at h
      · cases h
        exact ⟨_, rfl⟩
      · obtain ⟨result, -, heq⟩ := Option.map_eq_some_iff.mp h
        cases heq
        exact ⟨_, rfl⟩
    · rename_i heq
      cases heq
    · rename_i hne _
      exact absurd rfl (hne cs)

theorem exact_array {slots : List Slot} (hslots : ∀ s ∈ slots, s.Exact) {fits : Tree → Prop}
    {cond : Prop}
    (hfits : ∀ items, FirstRead slots items → fits (.array items) → Fit slots items)
    (hcond : (∀ s ∈ slots, s.cond) → cond) :
    Slot.Exact ⟨arrayText (slots.map Slot.text), fits, cond⟩ := by
  refine ⟨⟨_, _, rfl, rfl, by decide⟩, fun n rest tree out hends hread hfit => ?_⟩
  cases slots with
  | nil =>
    obtain ⟨-, hout⟩ := (readsTo_array .nil).eq_of_read hends hread
    exact ⟨hcond (fun _ h => nomatch h), hout⟩
  | cons slot slots =>
    rcases n with _ | m
    · cases hread
    obtain ⟨c, cs, heq, hws, hc⟩ := start_commaSep (slots.map Slot.text)
      (hslots slot mem_cons_self).start
    simp only [arrayText, map_cons, append_assoc, cons_append, heq] at hread
    rw [readValue_array hws hc, ← cons_append, ← heq] at hread
    obtain ⟨⟨items, out'⟩, hitems, hpair⟩ := Option.map_eq_some_iff.mp hread
    cases hpair
    have hforall := hfits items (firstRead_of_readElements hitems) hfit
    obtain ⟨hconds, hout⟩ := readElements_exact hslots (by simp) hforall hitems
    exact ⟨hcond hconds, hout⟩

def Strict (text : List Char) (cond : Prop) : Prop := Slot.Exact ⟨text, fun _ => True, cond⟩

section Strict

variable {α : Type} {items : List α} {key : α → String} {text : α → List Char} {cond : α → Prop}

theorem Strict.mono {text : List Char} {p q : Prop} (h : Strict text p) (hpq : p → q) :
    Strict text q := by
  refine ⟨h.start, fun n rest tree out hends hread hfits => ?_⟩
  obtain ⟨hp, hout⟩ := h.read n rest tree out hends hread hfits
  exact ⟨hpq hp, hout⟩

theorem strict_of_readsTo {text : List Char} {tree : Tree} (h : ReadsTo text tree) :
    Strict text True :=
  exact_of_readsTo h fun _ => trivial

theorem strict_array (h : ∀ a ∈ items, Strict (text a) (cond a)) :
    Strict (arrayText (items.map text)) (∀ a ∈ items, cond a) := by
  have harray : Strict (arrayText ((items.map fun a =>
      (⟨text a, fun _ => True, cond a⟩ : Slot)).map Slot.text)) (∀ a ∈ items, cond a) := by
    refine exact_array (forall_mem_map.mpr h) ?_ forall_mem_map.mp
    rintro trees - - ⟨slot, tree⟩ hp
    obtain ⟨a, -, rfl⟩ := mem_map.mp (of_mem_zip hp).1
    trivial
  rwa [map_map] at harray

variable (h : ∀ a ∈ items, PlainText (key a) ∧ Strict (text a) (cond a))

include h

theorem readMembers_strict (hne : items ≠ []) {n : Nat} {rest out : List Char}
    {members : List (String × Tree)}
    (hread : readMembers n (commaSep (items.map fun a => memberText (key a).toList (text a)) ++
      '}' :: rest) = some (members, out)) : (∀ a ∈ items, cond a) ∧ out = rest := by
  induction items generalizing n members with
  | nil => exact absurd rfl hne
  | cons a items ih =>
    obtain ⟨⟨hkey, hvalue⟩, h⟩ := forall_mem_cons.mp h
    rcases n with _ | m
    · cases hread
    rw [map_cons, commaSep_cons, memberText, append_assoc, append_assoc, cons_append,
      readMembers, readKey_quoted (readString_of_plain hkey)] at hread
    obtain ⟨⟨name, rest'⟩, heq, hread⟩ := Option.bind_eq_some_iff.mp hread
    cases heq
    obtain ⟨⟨value, rest'⟩, hitem, hread⟩ := Option.bind_eq_some_iff.mp hread
    dsimp only at hread
    cases items with
    | nil =>
      obtain ⟨hcond, rfl⟩ := hvalue.read m _ value rest' (endsNumber_cons (by decide) rest) hitem
        trivial
      cases hread
      exact ⟨by simpa using hcond, rfl⟩
    | cons a' items =>
      obtain ⟨hcond, rfl⟩ := hvalue.read m _ value rest' (endsNumber_cons (by decide) _) hitem
        trivial
      rw [skipWs_cons (by decide)] at hread
      obtain ⟨⟨values, out'⟩, hvalues, heq⟩ := Option.map_eq_some_iff.mp hread
      cases heq
      obtain ⟨hconds, hout⟩ := ih h (by simp) (by rw [map_cons, commaSep_cons]; exact hvalues)
      exact ⟨forall_mem_cons.mpr ⟨hcond, hconds⟩, hout⟩

theorem strict_object :
    Strict (objectText (items.map fun a => memberText (key a).toList (text a)))
      (∀ a ∈ items, cond a) := by
  refine ⟨⟨_, _, rfl, rfl, by decide⟩, fun n rest tree out hends hread _ => ?_⟩
  cases items with
  | nil =>
    obtain ⟨-, hout⟩ := (readsTo_object .nil).eq_of_read hends hread
    exact ⟨(fun _ h => nomatch h), hout⟩
  | cons a items =>
    rcases n with _ | m
    · cases hread
    have hstart : ∃ c cs, memberText (key a).toList (text a) = c :: cs ∧ c = '"' := ⟨_, _, rfl, rfl⟩
    obtain ⟨c, cs, heq, rfl⟩ := start_commaSep
      (items.map fun a => memberText (key a).toList (text a)) hstart
    simp only [objectText, map_cons, append_assoc, cons_append, heq] at hread
    rw [readValue_object, ← cons_append, ← heq] at hread
    obtain ⟨⟨members, out'⟩, hmembers, hpair⟩ := Option.map_eq_some_iff.mp hread
    cases hpair
    exact readMembers_strict h (by simp) hmembers

end Strict

end JsonRead

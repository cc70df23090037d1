import Mathlib.Data.Finset.Card

namespace NameExpansion

open List

inductive Piece (N T : Type) where
  | word (t : T)
  | name (n : N)

section Loop

variable {N T : Type} (body : N → List (Piece N T))

def expandFirst : List (Piece N T) → Option (List (Piece N T))
  | [] => none
  | .word t :: ps => (expandFirst ps).map fun ps' => .word t :: ps'
  | .name n :: ps => some (body n ++ ps)

/-- The text without names, if it takes less than `fuel` replacements. -/
def expand : Nat → List (Piece N T) → Option (List (Piece N T))
  | 0, _ => none
  | fuel + 1, ps =>
    match expandFirst body ps with
    | none => some ps
    | some ps' => expand fuel ps'

/-- The words that a text stands for. -/
inductive Expands : List (Piece N T) → List T → Prop where
  | nil : Expands [] []
  | word {t : T} {ps : List (Piece N T)} {ws : List T} :
    Expands ps ws → Expands (.word t :: ps) (t :: ws)
  | name {n : N} {ps : List (Piece N T)} {ws ws' : List T} :
    Expands (body n) ws → Expands ps ws' → Expands (.name n :: ps) (ws ++ ws')

/-- `n` occurs in what `m` stands for. -/
def DependsOn (n m : N) : Prop := .name n ∈ body m

end Loop

section Expands

variable {N T : Type} {body : N → List (Piece N T)} {ps qs : List (Piece N T)} {ws ws' : List T}

theorem Expands.append (h : Expands body ps ws) (h' : Expands body qs ws') :
    Expands body (ps ++ qs) (ws ++ ws') := by
  induction h with
  | nil => exact h'
  | word _ ih => exact .word ih
  | name hbody _ _ ih =>
    rw [append_assoc]
    exact .name hbody ih

theorem Expands.of_append (h : Expands body (ps ++ qs) ws) :
    ∃ us vs, ws = us ++ vs ∧ Expands body ps us ∧ Expands body qs vs := by
  induction ps generalizing ws with
  | nil => exact ⟨[], ws, rfl, .nil, h⟩
  | cons p ps ih =>
    rw [cons_append] at h
    cases h with
    | word h =>
      obtain ⟨us, vs, rfl, hps, hqs⟩ := ih h
      exact ⟨_, vs, rfl, .word hps, hqs⟩
    | name hbody h =>
      obtain ⟨us, vs, rfl, hps, hqs⟩ := ih h
      exact ⟨_, vs, (append_assoc _ _ _).symm, .name hbody hps, hqs⟩

theorem Expands.name_iff {n : N} : Expands body [.name n] ws ↔ Expands body (body n) ws := by
  constructor
  · intro h
    cases h with
    | name hbody hnil =>
      cases hnil
      rwa [append_nil]
  · intro h
    rw [← append_nil ws]
    exact .name h .nil

theorem Expands.congr {body' : N → List (Piece N T)} {S : N → Prop}
    (hbody : ∀ n, S n → body n = body' n ∧ ∀ m, .name m ∈ body n → S m)
    (h : Expands body ps ws) (hps : ∀ n, .name n ∈ ps → S n) : Expands body' ps ws := by
  induction h with
  | nil => exact .nil
  | word _ ih => exact .word (ih fun n hn => hps n (mem_cons_of_mem _ hn))
  | @name n _ _ _ _ _ ihbody ih =>
    obtain ⟨heq, hnames⟩ := hbody n (hps n mem_cons_self)
    have hexpands := ihbody hnames
    rw [heq] at hexpands
    exact .name hexpands (ih fun m hm => hps m (mem_cons_of_mem _ hm))

theorem expand_word (t : T) (fuel : Nat) (ps : List (Piece N T)) :
    expand body fuel (.word t :: ps) = (expand body fuel ps).map fun ps' => .word t :: ps' := by
  induction fuel generalizing ps with
  | zero => rfl
  | succ fuel ih =>
    unfold expand
    rw [expandFirst]
    cases expandFirst body ps with
    | none => rfl
    | some ps' => exact ih ps'

theorem Expands.expand_append (h : Expands body ps ws) {fuel : Nat} {qs r : List (Piece N T)}
    (hqs : expand body fuel qs = some r) :
    ∃ fuel', expand body fuel' (ps ++ qs) = some (ws.map Piece.word ++ r) := by
  induction h generalizing fuel qs r with
  | nil => exact ⟨fuel, hqs⟩
  | word _ ih =>
    obtain ⟨fuel', h'⟩ := ih hqs
    refine ⟨fuel', ?_⟩
    rw [cons_append, expand_word, h']
    rfl
  | name _ _ ihbody ih =>
    obtain ⟨fuel1, h1⟩ := ih hqs
    obtain ⟨fuel2, h2⟩ := ihbody h1
    refine ⟨fuel2 + 1, ?_⟩
    rw [map_append, append_assoc]
    exact h2

theorem Expands.expand_eq (h : Expands body ps ws) :
    ∃ fuel, expand body fuel ps = some (ws.map Piece.word) := by
  have hnil : expand body 1 [] = some [] := rfl
  simpa using h.expand_append hnil

theorem expands_of_expand {fuel : Nat} {r : List (Piece N T)} (h : expand body fuel ps = some r) :
    ∃ ws, r = ws.map Piece.word ∧ Expands body ps ws := by
  induction fuel generalizing ps r with
  | zero => cases h
  | succ fuel ih =>
    -- the words in front of the first name are passed over with the same fuel
    induction ps generalizing r with
    | nil => exact ⟨[], (Option.some.inj h).symm, .nil⟩
    | cons p ps ihps =>
      cases p with
      | word t =>
        rw [expand_word] at h
        obtain ⟨r', hr', rfl⟩ := Option.map_eq_some_iff.mp h
        obtain ⟨ws, rfl, hws⟩ := ihps hr'
        exact ⟨t :: ws, rfl, .word hws⟩
      | name n =>
        have h : expand body fuel (body n ++ ps) = some r := h
        obtain ⟨ws, rfl, hws⟩ := ih h
        obtain ⟨us, vs, rfl, hus, hvs⟩ := hws.of_append
        exact ⟨us ++ vs, rfl, .name hus hvs⟩

theorem exists_expands_of_names (h : ∀ n, .name n ∈ ps → ∃ ws, Expands body [.name n] ws) :
    ∃ ws, Expands body ps ws := by
  induction ps with
  | nil => exact ⟨[], .nil⟩
  | cons p ps ih =>
    obtain ⟨ws, hws⟩ := ih fun n hn => h n (mem_cons_of_mem _ hn)
    cases p with
    | word t => exact ⟨t :: ws, .word hws⟩
    | name n =>
      obtain ⟨us, hus⟩ := h n mem_cons_self
      exact ⟨us ++ ws, hus.append hws⟩

theorem exists_expands_iff :
    (∃ ws, Expands body ps ws) ↔ ∀ n, .name n ∈ ps → Acc (DependsOn body) n := by
  constructor
  · rintro ⟨ws, h⟩
    induction h with
    | nil =>
      intro n hn
      cases hn
    | word _ ih =>
      intro n hn
      cases hn with
      | tail _ hn => exact ih n hn
    | name _ _ ihbody ih =>
      intro n hn
      cases hn with
      | head => exact ⟨_, fun m hm => ihbody m hm⟩
      | tail _ hn => exact ih n hn
  · intro h
    refine exists_expands_of_names fun n hn => ?_
    have hacc := h n hn
    clear hn
    induction hacc with
    | intro n _ ih =>
      obtain ⟨ws, hws⟩ := exists_expands_of_names ih
      exact ⟨ws, Expands.name_iff.mpr hws⟩

end Expands

section Acyclic

open Relation

variable {α : Type} {r : α → α → Prop} {x y : α}

theorem Acc.not_transGen_self (h : Acc r x) : ¬ TransGen r x x := by
  have h' := h.transGen
  induction h' with
  | intro x _ ih => exact fun hcycle => ih x hcycle h hcycle

theorem Acc.of_reflTransGen (h : Acc r y) (hxy : ReflTransGen r x y) : Acc r x := by
  induction hxy using ReflTransGen.head_induction_on with
  | refl => exact h
  | head hstep _ ih => exact ih.inv hstep

theorem acc_of_acyclic [DecidableEq α] (keys : Finset α) (hkeys : ∀ x y, r x y → y ∈ keys)
    (hacyclic : ∀ z, ReflTransGen r z y → ¬ TransGen r z z) : Acc r y := by
  classical
  -- the keys that `y` leads to become fewer with every step
  induction hn : (keys.filter fun k => TransGen r k y).card using Nat.strongRecOn
    generalizing y with
  | ind n ih =>
    refine ⟨y, fun x hxy => ?_⟩
    by_cases hx : x ∈ keys
    · refine ih _ ?_ (fun z hz => hacyclic z (hz.tail hxy)) rfl
      rw [← hn]
      apply Finset.card_lt_card
      rw [Finset.ssubset_iff_of_subset]
      · refine ⟨x, Finset.mem_filter.mpr ⟨hx, .single hxy⟩, fun hmem => ?_⟩
        exact hacyclic x (.single hxy) (Finset.mem_filter.mp hmem).2
      · intro k hk
        obtain ⟨hkeys', hk⟩ := Finset.mem_filter.mp hk
        exact Finset.mem_filter.mpr ⟨hkeys', hk.tail hxy⟩
    · exact ⟨x, fun z hz => absurd (hkeys z x hz) hx⟩

theorem acc_iff_acyclic [DecidableEq α] (keys : Finset α) (hkeys : ∀ x y, r x y → y ∈ keys) :
    Acc r y ↔ ∀ z, ReflTransGen r z y → ¬ TransGen r z z := by
  constructor
  · intro h z hz
    exact Acc.not_transGen_self (Acc.of_reflTransGen h hz)
  · exact acc_of_acyclic keys hkeys

end Acyclic

end NameExpansion

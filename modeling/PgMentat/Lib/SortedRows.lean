import Mathlib.Data.List.Sort

namespace SortedRows

open List

variable {α : Type}

structure TotalPreorder (le : α → α → Bool) : Prop where
  total : ∀ a b, le a b = true ∨ le b a = true
  trans : ∀ a b c, le a b = true → le b c = true → le a c = true

/-- The first comparison that tells two rows apart decides. -/
def lexLE : List (α → α → Bool) → α → α → Bool
  | [], _, _ => true
  | le :: les, a, b => le a b && (!le b a || lexLE les a b)

variable {le : α → α → Bool} {les : List (α → α → Bool)} {a b : α} {β : Type} {rows : List α}

theorem lexLE_cons :
    lexLE (le :: les) a b = true ↔ le a b = true ∧ (le b a = true → lexLE les a b = true) := by
  cases hba : le b a <;> simp [lexLE, hba]

theorem TotalPreorder.comap (h : TotalPreorder le) (f : β → α) :
    TotalPreorder fun a b => le (f a) (f b) where
  total a b := h.total (f a) (f b)
  trans a b c := h.trans (f a) (f b) (f c)

theorem TotalPreorder.flip (h : TotalPreorder le) :
    TotalPreorder fun a b => le b a where
  total a b := h.total b a
  trans a b c hab hbc := h.trans c b a hbc hab

theorem totalPreorder_lexLE (h : ∀ le ∈ les, TotalPreorder le) : TotalPreorder (lexLE les) := by
  induction les with
  | nil => exact ⟨fun _ _ => .inl rfl, fun _ _ _ _ _ => rfl⟩
  | cons le les ih =>
    have hle := h le mem_cons_self
    have hles := ih fun le hle => h le (mem_cons_of_mem _ hle)
    constructor
    · intro a b
      rw [lexLE_cons, lexLE_cons]
      by_cases hab : le a b = true
      · by_cases hba : le b a = true
        · rcases hles.total a b with h | h
          · exact .inl ⟨hab, fun _ => h⟩
          · exact .inr ⟨hba, fun _ => h⟩
        · exact .inl ⟨hab, fun h => absurd h hba⟩
      · have hba := (hle.total a b).resolve_left hab
        exact .inr ⟨hba, fun h => absurd h hab⟩
    · intro a b c hab hbc
      rw [lexLE_cons] at hab hbc ⊢
      refine ⟨hle.trans a b c hab.1 hbc.1, fun hca => ?_⟩
      -- a tie between the outer two is one with the row in the middle
      have hba := hle.trans b c a hbc.1 hca
      have hcb := hle.trans c a b hca hab.1
      exact hles.trans a b c (hab.2 hba) (hbc.2 hcb)

theorem lexLE_congr {ι : Type} {keys : List ι} {le : ι → α → α → Bool} {le' : ι → β → β → Bool}
    {a' b' : β} (h : ∀ k ∈ keys, le k a b = le' k a' b' ∧ le k b a = le' k b' a') :
    lexLE (keys.map le) a b = lexLE (keys.map le') a' b' := by
  induction keys with
  | nil => rfl
  | cons k keys ih =>
    have hk := h k mem_cons_self
    simp only [map_cons, lexLE, hk.1, hk.2, ih fun k hk => h k (mem_cons_of_mem _ hk)]

/-- `ORDER BY`: rows with equal keys come in any order. -/
def OrderedBy (le : α → α → Bool) (rows rows' : List α) : Prop :=
  rows'.Perm rows ∧ rows'.Pairwise fun a b => le a b = true

theorem exists_orderedBy (hle : TotalPreorder le) (rows : List α) :
    ∃ rows', OrderedBy le rows rows' ∧
      ∀ a b, le a b = true → List.Sublist [a, b] rows → List.Sublist [a, b] rows' := by
  let r : α → α → Prop := fun a b => le a b = true
  have : Std.Total r := ⟨hle.total⟩
  have : IsTrans α r := ⟨hle.trans⟩
  refine ⟨rows.insertionSort r, ⟨?_, ?_⟩, ?_⟩
  · exact perm_insertionSort r rows
  · exact pairwise_insertionSort r rows
  · intro a b hab h
    exact pair_sublist_insertionSort hab h

theorem exists_orderedBy_before [DecidableEq α] (hle : TotalPreorder le) (ha : a ∈ rows)
    (hb : b ∈ rows) (hne : a ≠ b) (hab : le a b = true) :
    ∃ rows', OrderedBy le rows rows' ∧ List.Sublist [a, b] rows' := by
  have hperm : (a :: b :: (rows.erase a).erase b).Perm rows := by
    have hb' : b ∈ rows.erase a := (mem_erase_of_ne hne.symm).mpr hb
    exact ((perm_cons_erase hb').symm.cons a).trans (perm_cons_erase ha).symm
  obtain ⟨rows', hrows', hbefore⟩ :=
    exists_orderedBy hle (a :: b :: (rows.erase a).erase b)
  refine ⟨rows', ⟨hrows'.1.trans hperm, hrows'.2⟩, hbefore a b hab ?_⟩
  exact List.Sublist.cons_cons a (List.Sublist.cons_cons b (nil_sublist _))

/-- Every output is sorted by another relation too exactly if that relation holds of all rows that
may come one after the other. -/
theorem forall_orderedBy_pairwise_iff [DecidableEq α] (hle : TotalPreorder le) (hnodup : rows.Nodup)
    {r : α → α → Prop} :
    (∀ rows', OrderedBy le rows rows' → rows'.Pairwise r) ↔
      ∀ a ∈ rows, ∀ b ∈ rows, a ≠ b → le a b = true → r a b := by
  constructor
  · intro h a ha b hb hne hab
    obtain ⟨rows', hrows', hsub⟩ := exists_orderedBy_before hle ha hb hne hab
    have hpair := (h rows' hrows').sublist hsub
    exact pairwise_pair.mp hpair
  · intro h rows' hrows'
    have hne : rows'.Nodup := hrows'.1.nodup_iff.mpr hnodup
    refine List.Pairwise.imp_of_mem ?_ (hrows'.2.and hne)
    intro a b ha hb hab
    exact h a (hrows'.1.mem_iff.mp ha) b (hrows'.1.mem_iff.mp hb) hab.2 hab.1

end SortedRows

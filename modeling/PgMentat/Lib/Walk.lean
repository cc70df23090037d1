import Mathlib.Data.List.Basic
import Mathlib.Logic.Relation

namespace Walk

open List

variable {α : Type} [DecidableEq α] (targets : α → List α)

/-- The nodes entered when the walk is back from `x`; `none` if it went too deep. -/
def walk : Nat → List α → α → Option (List α)
  | 0, _, _ => none
  | depth + 1, visited, x =>
    if x ∈ visited then some visited else (targets x).foldlM (walk depth) (x :: visited)

variable {targets} {depth : Nat} {visited visited' : List α} {x y : α}

theorem walk_of_mem (h : x ∈ visited) : walk targets (depth + 1) visited x = some visited :=
  if_pos h

theorem walk_of_not_mem (h : x ∉ visited) : walk targets (depth + 1) visited x =
    (targets x).foldlM (walk targets depth) (x :: visited) :=
  if_neg h

variable {f : List α → α → Option (List α)} {xs s nodes : List α}

omit [DecidableEq α] in
theorem foldlM_invariant (I : List α → List α → Prop)
    (hstep : ∀ done x s s', x ∈ xs → I done s → f s x = some s' → I (done ++ [x]) s') {s' : List α}
    (h : xs.foldlM f s = some s') (hI : I [] s) : I xs s' := by
  suffices hgen : ∀ rest done s, xs = done ++ rest → I done s → rest.foldlM f s = some s' →
      I xs s' from hgen xs [] s rfl hI h
  intro rest
  induction rest with
  | nil =>
    intro done s hxs hI h
    cases h
    rwa [hxs, append_nil]
  | cons x rest ih =>
    intro done s hxs hI h
    rw [foldlM_cons] at h
    obtain ⟨mid, hmid, hrest⟩ := Option.bind_eq_some_iff.mp h
    refine ih (done ++ [x]) mid (by simp [hxs]) ?_ hrest
    exact hstep done x s mid (by simp [hxs]) hI hmid

theorem suffix_of_walk (h : walk targets depth visited x = some visited') :
    visited <:+ visited' := by
  induction depth generalizing visited visited' x with
  | zero => cases h
  | succ depth ih =>
    by_cases hx : x ∈ visited
    · rw [walk_of_mem hx] at h
      cases h
      exact suffix_refl _
    · rw [walk_of_not_mem hx] at h
      refine foldlM_invariant (fun _ s => visited <:+ s) ?_ h (suffix_cons x visited)
      intro _ y s s' _ hs hwalk
      exact hs.trans (ih hwalk)

theorem mem_walk_of_mem (h : walk targets depth visited x = some visited') (hy : y ∈ visited) :
    y ∈ visited' :=
  (suffix_of_walk h).subset hy

theorem mem_walk_self (h : walk targets depth visited x = some visited') : x ∈ visited' := by
  cases depth with
  | zero => cases h
  | succ depth =>
    by_cases hx : x ∈ visited
    · exact mem_walk_of_mem h hx
    · rw [walk_of_not_mem hx] at h
      refine foldlM_invariant (fun _ s => x ∈ s) ?_ h mem_cons_self
      intro _ y s s' _ hs hwalk
      exact mem_walk_of_mem hwalk hs

omit [DecidableEq α] in
/-- `y` can be reached from `x` along the edges. -/
def Reaches (targets : α → List α) : α → α → Prop :=
  Relation.ReflTransGen fun x y => y ∈ targets x

theorem reaches_of_walk (h : walk targets depth visited x = some visited') (hy : y ∈ visited') :
    y ∈ visited ∨ Reaches targets x y := by
  induction depth generalizing visited visited' x y with
  | zero => cases h
  | succ depth ih =>
    by_cases hx : x ∈ visited
    · rw [walk_of_mem hx] at h
      cases h
      exact .inl hy
    · rw [walk_of_not_mem hx] at h
      refine foldlM_invariant
        (fun _ s => ∀ y ∈ s, y ∈ visited ∨ Reaches targets x y) ?_ h ?_ y hy
      · intro _ z s s' hz hs hwalk y hy
        rcases ih hwalk hy with hy | hreach
        · exact hs y hy
        · exact .inr (.head hz hreach)
      · intro y hy
        rcases mem_cons.mp hy with rfl | hy
        · exact .inr .refl
        · exact .inl hy

theorem mem_walk_of_edge (h : walk targets depth visited x = some visited') (hy : y ∈ visited')
    (hnew : y ∉ visited) {z : α} (hz : z ∈ targets y) : z ∈ visited' := by
  induction depth generalizing visited visited' x y z with
  | zero => cases h
  | succ depth ih =>
    by_cases hx : x ∈ visited
    · rw [walk_of_mem hx] at h
      cases h
      exact absurd hy hnew
    · rw [walk_of_not_mem hx] at h
      -- the start is closed once its targets are done, the others are closed all along
      have hclosed := foldlM_invariant
        (fun done s => (∀ y ∈ done, y ∈ s) ∧
          ∀ y ∈ s, y ∉ visited → y ≠ x → ∀ z ∈ targets y, z ∈ s) ?_ h ?_
      · by_cases heq : y = x
        · exact hclosed.1 z (heq ▸ hz)
        · exact hclosed.2 y hy hnew heq z hz
      · intro done t s s' _ hs hwalk
        constructor
        · intro y hy
          rcases List.mem_append.mp hy with hy | hy
          · exact mem_walk_of_mem hwalk (hs.1 y hy)
          · rw [List.mem_singleton.mp hy]
            exact mem_walk_self hwalk
        · intro y hy hnew hne z hz
          by_cases hold : y ∈ s
          · exact mem_walk_of_mem hwalk (hs.2 y hold hnew hne z hz)
          · exact ih hwalk hy hold hz
      · refine ⟨fun _ hy => absurd hy List.not_mem_nil, fun y hy hnew hne => ?_⟩
        rcases List.mem_cons.mp hy with heq | hy
        · exact absurd heq hne
        · exact absurd hy hnew

theorem mem_walk_iff (h : walk targets depth [] x = some visited') :
    y ∈ visited' ↔ Reaches targets x y := by
  constructor
  · intro hy
    exact (reaches_of_walk h hy).resolve_left not_mem_nil
  · intro hreach
    induction hreach with
    | refl => exact mem_walk_self h
    | tail _ hedge ih => exact mem_walk_of_edge h ih not_mem_nil hedge

omit [DecidableEq α] in
theorem exists_foldlM {I : List α → Prop}
    (hstep : ∀ x ∈ xs, ∀ s, I s → ∃ s', f s x = some s' ∧ I s') (hI : I s) :
    ∃ s', xs.foldlM f s = some s' := by
  induction xs generalizing s with
  | nil => exact ⟨s, rfl⟩
  | cons x xs ih =>
    obtain ⟨mid, hmid, hI'⟩ := hstep x mem_cons_self s hI
    obtain ⟨s', hs'⟩ := ih (fun y hy => hstep y (mem_cons_of_mem x hy)) hI'
    refine ⟨s', ?_⟩
    rw [foldlM_cons, hmid]
    exact hs'

def unvisited (nodes visited : List α) : List α := nodes.filter fun y => y ∉ visited

theorem length_unvisited_le (h : ∀ y ∈ visited, y ∈ visited') :
    (unvisited nodes visited').length ≤ (unvisited nodes visited).length := by
  have hsub : (unvisited nodes visited').Sublist (unvisited nodes visited) := by
    apply monotone_filter_right
    intro y hy
    have hy := of_decide_eq_true hy
    exact decide_eq_true fun hmem => hy (h y hmem)
  exact hsub.length_le

theorem length_unvisited_lt (hx : x ∈ nodes) (hnew : x ∉ visited) :
    (unvisited nodes (x :: visited)).length < (unvisited nodes visited).length := by
  have hle : (unvisited nodes (x :: visited)).length ≤ (unvisited nodes visited).length :=
    length_unvisited_le fun y hy => mem_cons_of_mem x hy
  refine Nat.lt_of_le_of_ne hle fun heq => ?_
  have hsub : (unvisited nodes (x :: visited)).Sublist (unvisited nodes visited) := by
    apply monotone_filter_right
    intro y hy
    have hy := of_decide_eq_true hy
    exact decide_eq_true fun hmem => hy (mem_cons_of_mem x hmem)
  have hmem : x ∈ unvisited nodes visited := mem_filter.mpr ⟨hx, decide_eq_true hnew⟩
  rw [← hsub.eq_of_length heq] at hmem
  exact of_decide_eq_true (mem_filter.mp hmem).2 mem_cons_self

theorem exists_walk (hnodes : ∀ y, targets y ≠ [] → y ∈ nodes)
    (hdepth : (unvisited nodes visited).length < depth) :
    ∃ visited', walk targets depth visited x = some visited' := by
  induction depth generalizing visited x with
  | zero => omega
  | succ depth ih =>
    by_cases hx : x ∈ visited
    · exact ⟨visited, walk_of_mem hx⟩
    · rw [walk_of_not_mem hx]
      by_cases hempty : targets x = []
      · rw [hempty]
        exact ⟨x :: visited, rfl⟩
      · have hlt := length_unvisited_lt (hnodes x hempty) hx
        apply exists_foldlM (I := fun s => ∀ y ∈ x :: visited, y ∈ s)
        · intro t _ s hs
          have hle : (unvisited nodes s).length ≤ (unvisited nodes (x :: visited)).length :=
            length_unvisited_le hs
          have hwalk : ∃ s', walk targets depth s t = some s' := ih (by omega)
          obtain ⟨s', hwalk⟩ := hwalk
          exact ⟨s', hwalk, fun y hy => mem_walk_of_mem hwalk (hs y hy)⟩
        · intro y hy
          exact hy

end Walk

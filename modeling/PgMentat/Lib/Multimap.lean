import PgMentat.Lib.KeyedTable

namespace Multimap

open List KeyedTable

variable {ι κ : Type} [DecidableEq ι]

def value? (m : List (ι × κ)) (x : ι) : Option κ := (m.find? fun b => b.1 = x).map Prod.snd

variable {v : κ} {k k' : κ} {x y : ι}

theorem mem_of_value? {m : List (ι × κ)} {x : ι} (h : value? m x = some v) : (x, v) ∈ m := by
  obtain ⟨b, hb, rfl⟩ := Option.map_eq_some_iff.mp h
  have hx : b.1 = x := by simpa using List.find?_some hb
  have hmem := mem_of_find?_eq_some hb
  rwa [← hx]

theorem value?_of_mem {m : List (ι × κ)} (hm : KeyUnique Prod.fst m) {x : ι} (h : (x, v) ∈ m) :
    value? m x = some v := by
  have hfind : m.find? (fun b => b.1 = x) = some (x, v) := hm.find?_eq h
  rw [value?, hfind, Option.map_some]

theorem value?_put (m : List (ι × κ)) (x y : ι) (v : κ) :
    value? (put Prod.fst m (x, v)) y = if x = y then some v else value? m y := by
  have hdel : (del Prod.fst m x).find? (fun b => b.1 = y) =
      if x = y then none else m.find? fun b => b.1 = y := by
    split
    · rename_i hxy
      apply List.find?_eq_none.mpr
      intro b hb
      simpa [← hxy] using (mem_del.mp hb).2
    · rename_i hxy
      rw [del, List.find?_filter]
      congr 1
      funext b
      by_cases hb : b.1 = y
      · simp [hb, Ne.symm hxy]
      · simp [hb]
  unfold value? put
  rw [List.find?_append, hdel]
  split
  · rename_i hxy
    simp [hxy]
  · rename_i hxy
    simp [hxy]

theorem value?_del (m : List (ι × κ)) (x y : ι) :
    value? (del Prod.fst m x) y = if x = y then none else value? m y := by
  unfold value? del
  rw [List.find?_filter]
  split
  · rename_i hxy
    rw [Option.map_eq_none_iff]
    apply List.find?_eq_none.mpr
    intro b _
    simp [hxy]
  · rename_i hxy
    congr 2
    funext b
    by_cases hb : b.1 = y
    · simp [hb, Ne.symm hxy]
    · simp [hb]

variable [DecidableEq κ]

def bucket (m : List (ι × List κ)) (x : ι) : List κ := (value? m x).getD []

/-- Put a member into the bucket of an index, which is made if it is missing. -/
def add (k : κ) (m : List (ι × List κ)) (x : ι) : List (ι × List κ) :=
  put Prod.fst m (x, (bucket m x).insert k)

/-- Take a member out of a bucket; the bucket stays, even if it is left empty. -/
def erase (k : κ) (m : List (ι × List κ)) (x : ι) : List (ι × List κ) :=
  match value? m x with
  | none => m
  | some members => put Prod.fst m (x, members.filter (· ≠ k))

/-- Take a member out of a bucket and drop the bucket if it is left empty. -/
def remove (k : κ) (m : List (ι × List κ)) (x : ι) : List (ι × List κ) :=
  match value? m x with
  | none => m
  | some members =>
    if members.filter (· ≠ k) = [] then del Prod.fst m x
    else put Prod.fst m (x, members.filter (· ≠ k))

def compact (m : List (ι × List κ)) : List (ι × List κ) := m.filter fun b => b.2 ≠ []

theorem mem_bucket_add {m : List (ι × List κ)} :
    k' ∈ bucket (add k m x) y ↔ k' ∈ bucket m y ∨ (y = x ∧ k' = k) := by
  unfold add
  rw [bucket, value?_put]
  split
  · rename_i hxy
    simp [← hxy, or_comm]
  · rename_i hxy
    simp [bucket, Ne.symm hxy]

theorem bucket_erase (k : κ) (m : List (ι × List κ)) (x y : ι) :
    bucket (erase k m x) y = if x = y then (bucket m y).filter (· ≠ k) else bucket m y := by
  unfold erase
  split
  · rename_i hnone
    split
    · rename_i hxy
      simp [bucket, ← hxy, hnone]
    · rfl
  · rename_i members hsome
    rw [bucket, value?_put]
    split
    · rename_i hxy
      simp [bucket, ← hxy, hsome]
    · rfl

theorem mem_bucket_erase {m : List (ι × List κ)} :
    k' ∈ bucket (erase k m x) y ↔ k' ∈ bucket m y ∧ ¬ (y = x ∧ k' = k) := by
  rw [bucket_erase]
  split
  · rename_i hxy
    simp [hxy]
  · rename_i hxy
    simp [Ne.symm hxy]

theorem bucket_remove (k : κ) (m : List (ι × List κ)) (x y : ι) :
    bucket (remove k m x) y = bucket (erase k m x) y := by
  rw [bucket_erase]
  unfold remove
  split
  · rename_i hnone
    split
    · rename_i hxy
      simp [bucket, ← hxy, hnone]
    · rfl
  · rename_i members hsome
    split
    · rename_i hempty
      rw [bucket, value?_del]
      split
      · rename_i hxy
        rw [bucket, ← hxy, hsome, Option.getD_some, hempty]
        rfl
      · rfl
    · rw [bucket, value?_put]
      split
      · rename_i hxy
        simp [bucket, ← hxy, hsome]
      · rfl

theorem mem_bucket_remove {m : List (ι × List κ)} :
    k' ∈ bucket (remove k m x) y ↔ k' ∈ bucket m y ∧ ¬ (y = x ∧ k' = k) := by
  rw [bucket_remove]
  exact mem_bucket_erase

omit [DecidableEq κ] in
theorem bucket_compact {m : List (ι × List κ)} (hm : KeyUnique Prod.fst m) (x : ι) :
    bucket (compact m) x = bucket m x := by
  have hsub : KeyUnique Prod.fst (compact m) := fun a ha b hb =>
    hm a (mem_filter.mp ha).1 b (mem_filter.mp hb).1
  cases hx : value? m x with
  | none =>
    have hnone : value? (compact m) x = none := by
      cases hc : value? (compact m) x with
      | none => rfl
      | some members =>
        have hmem := value?_of_mem hm (mem_filter.mp (mem_of_value? hc)).1
        rw [hx] at hmem
        cases hmem
    rw [bucket, bucket, hx, hnone]
  | some members =>
    by_cases hempty : members = []
    · have hnone : value? (compact m) x = none := by
        cases hc : value? (compact m) x with
        | none => rfl
        | some members' =>
          obtain ⟨hmem, hne⟩ := mem_filter.mp (mem_of_value? hc)
          have heq := value?_of_mem hm hmem
          rw [hx, Option.some_inj] at heq
          simp [← heq, hempty] at hne
      rw [bucket, bucket, hx, hnone, hempty]
      rfl
    · have hmem : (x, members) ∈ compact m :=
        mem_filter.mpr ⟨mem_of_value? hx, by simpa using hempty⟩
      rw [bucket, bucket, hx, value?_of_mem hsub hmem]

theorem keyUnique_add (k : κ) {m : List (ι × List κ)} (hm : KeyUnique Prod.fst m) (x : ι) :
    KeyUnique Prod.fst (add k m x) := hm.put _

theorem keyUnique_erase (k : κ) {m : List (ι × List κ)} (hm : KeyUnique Prod.fst m) (x : ι) :
    KeyUnique Prod.fst (erase k m x) := by
  unfold erase
  split
  · exact hm
  · exact hm.put _

theorem keyUnique_remove (k : κ) {m : List (ι × List κ)} (hm : KeyUnique Prod.fst m) (x : ι) :
    KeyUnique Prod.fst (remove k m x) := by
  unfold remove
  split
  · exact hm
  · split
    · exact hm.del _
    · exact hm.put _

def Filled (m : List (ι × List κ)) : Prop := ∀ b ∈ m, b.2 ≠ []

section Filled

variable {m : List (ι × List κ)}

theorem Filled.add (h : Filled m) (k : κ) (x : ι) : Filled (add k m x) := by
  intro b hb
  rcases mem_put.mp hb with rfl | ⟨hb, -⟩
  · exact ne_nil_of_mem mem_insert_self
  · exact h b hb

theorem Filled.remove (h : Filled m) (k : κ) (x : ι) : Filled (remove k m x) := by
  unfold Multimap.remove
  split
  · exact h
  · split
    · exact fun b hb => h b (mem_del.mp hb).1
    · rename_i hne
      intro b hb
      rcases mem_put.mp hb with rfl | ⟨hb, -⟩
      · exact hne
      · exact h b hb

end Filled

/-- The multimap sends an index to the members that `f` sends to a list with that index. -/
def Inverts (m : List (ι × List κ)) (f : κ → List ι) : Prop := ∀ k x, k ∈ bucket m x ↔ x ∈ f k

variable {m : List (ι × List κ)} {f : κ → List ι}

omit [DecidableEq κ] in
theorem Inverts.congr {g : κ → List ι} (h : Inverts m f) (hfg : ∀ k, f k = g k) : Inverts m g := by
  intro k x
  rw [← hfg k]
  exact h k x

theorem mem_bucket_foldl_add {xs : List ι} {y : ι} :
    k' ∈ bucket (xs.foldl (add k) m) y ↔ k' ∈ bucket m y ∨ (y ∈ xs ∧ k' = k) := by
  induction xs generalizing m with
  | nil => simp
  | cons x xs ih => rw [foldl_cons, ih, mem_bucket_add, mem_cons, or_and_right, or_assoc]

theorem Inverts.foldl_add (h : Inverts m f) {k : κ} (hk : f k = []) (xs : List ι) :
    Inverts (xs.foldl (add k) m) (Function.update f k xs) := by
  intro k' y
  rw [mem_bucket_foldl_add, h k' y]
  by_cases hk' : k' = k
  · simp [hk', hk]
  · simp [hk']

theorem Inverts.foldl_take (h : Inverts m f) {k : κ}
    {op : List (ι × List κ) → ι → List (ι × List κ)}
    (hop : ∀ {m x k' y}, k' ∈ bucket (op m x) y ↔ k' ∈ bucket m y ∧ ¬ (y = x ∧ k' = k)) :
    Inverts ((f k).foldl op m) (Function.update f k []) := by
  intro k' y
  have hmem (xs : List ι) :
      k' ∈ bucket (xs.foldl op m) y ↔ k' ∈ bucket m y ∧ ¬ (y ∈ xs ∧ k' = k) := by
    clear h
    induction xs generalizing m with
    | nil => simp
    | cons x xs ih =>
      rw [foldl_cons, ih, hop, mem_cons]
      tauto
  rw [hmem, h k' y]
  by_cases hk' : k' = k
  · simp [hk']
  · simp [hk']

omit [DecidableEq κ] in
theorem Inverts.compact (h : Inverts m f) (hm : KeyUnique Prod.fst m) :
    Inverts (compact m) f := by
  intro k x
  rw [bucket_compact hm]
  exact h k x

end Multimap

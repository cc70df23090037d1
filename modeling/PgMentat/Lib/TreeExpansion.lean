import PgMentat.Lib.Unification

namespace TreeExpansion

open List

variable {N R M ε : Type}

structure Graph (N R M ε : Type) where
  rows : N → Except ε (List R)
  /-- The node a row leads to. -/
  child : R → Option N
  stub : N → M
  /-- What a node is shown as, from its rows and what their children are shown as. -/
  assemble : N → List (R × Option M) → M
  assemble_nil : ∀ c, assemble c [] = stub c

namespace Graph

section Paths

variable (g : Graph N R M ε)

/-- The node `x` is expanded at the positions `p` below `c`, seen from ancestors that are not to be
met again. -/
def LeadsInto : Nat → List N → N → List Nat → N → Prop
  | 0, _, _, _, _ => False
  | _ + 1, _, c, [], x => x = c
  | n + 1, anc, c, i :: p, x =>
    ∃ rs r d, g.rows c = .ok rs ∧ rs[i]? = some r ∧ g.child r = some d ∧ d ∉ c :: anc ∧
      LeadsInto n (c :: anc) d p x

/-- The same below some rows. -/
def LeadsFrom (n : Nat) (anc : List N) (rs : List R) : List Nat → N → Prop
  | [], _ => False
  | i :: p, x => ∃ r d, rs[i]? = some r ∧ g.child r = some d ∧ d ∉ anc ∧ g.LeadsInto n anc d p x

/-- No node with rows is led to in two ways. -/
def Unshared (n : Nat) (anc : List N) (rs : List R) : Prop :=
  ∀ p q x, g.LeadsFrom n anc rs p x → g.LeadsFrom n anc rs q x → g.rows x ≠ .ok [] → p = q

variable {g}

variable {n i : Nat} {anc : List N} {x : N} {p : List Nat} {rs as bs : List R}

theorem leadsInto_cons {c : N} :
    g.LeadsInto (n + 1) anc c (i :: p) x ↔
      ∃ rs, g.rows c = .ok rs ∧ g.LeadsFrom n (c :: anc) rs (i :: p) x := by
  constructor
  · rintro ⟨rs, r, d, hrs, hr, hd, hnot, h⟩
    exact ⟨rs, hrs, r, d, hr, hd, hnot, h⟩
  · rintro ⟨rs, hrs, r, d, hr, hd, hnot, h⟩
    exact ⟨rs, r, d, hrs, hr, hd, hnot, h⟩

theorem leadsFrom_cons_zero {r : R} :
    g.LeadsFrom n anc (r :: rs) (0 :: p) x ↔
      ∃ d, g.child r = some d ∧ d ∉ anc ∧ g.LeadsInto n anc d p x := by
  constructor
  · rintro ⟨r', d, hr, h⟩
    cases hr
    exact ⟨d, h⟩
  · rintro ⟨d, h⟩
    exact ⟨r, d, rfl, h⟩

theorem leadsFrom_append_left (h : g.LeadsFrom n anc as p x) :
    g.LeadsFrom n anc (as ++ bs) p x := by
  cases p with
  | nil => exact h.elim
  | cons i p =>
    obtain ⟨r, d, hr, h⟩ := h
    refine ⟨r, d, ?_, h⟩
    rw [List.getElem?_append_left (List.getElem?_eq_some_iff.mp hr).1]
    exact hr

theorem leadsFrom_append_right (as : List R) (h : g.LeadsFrom n anc bs (i :: p) x) :
    g.LeadsFrom n anc (as ++ bs) ((as.length + i) :: p) x := by
  obtain ⟨r, d, hr, h⟩ := h
  refine ⟨r, d, ?_, h⟩
  rw [List.getElem?_append_right (by omega), Nat.add_sub_cancel_left]
  exact hr

theorem LeadsFrom.lt_length (h : g.LeadsFrom n anc rs (i :: p) x) : i < rs.length := by
  obtain ⟨r, d, hr, -⟩ := h
  exact (List.getElem?_eq_some_iff.mp hr).1

theorem LeadsInto.notMem {c : N} (hc : c ∉ anc) (h : g.LeadsInto n anc c p x) : x ∉ anc := by
  induction n generalizing anc c p with
  | zero => exact h.elim
  | succ n ih =>
    cases p with
    | nil =>
      rw [show x = c from h]
      exact hc
    | cons i p =>
      obtain ⟨rs, r, d, -, -, -, hd, h⟩ := h
      exact fun hx => ih hd h (mem_cons_of_mem c hx)

theorem LeadsFrom.notMem (h : g.LeadsFrom n anc rs p x) : x ∉ anc := by
  cases p with
  | nil => exact h.elim
  | cons i p =>
    obtain ⟨r, d, -, -, hd, h⟩ := h
    exact h.notMem hd

theorem Unshared.left (h : g.Unshared n anc (as ++ bs)) : g.Unshared n anc as :=
  fun p q x hp hq => h p q x (leadsFrom_append_left hp) (leadsFrom_append_left hq)

theorem Unshared.right (h : g.Unshared n anc (as ++ bs)) : g.Unshared n anc bs := by
  intro p q x hp hq hrows
  cases p with
  | nil => exact hp.elim
  | cons i p =>
    cases q with
    | nil => exact hq.elim
    | cons j q =>
      have heq := h _ _ x (leadsFrom_append_right as hp) (leadsFrom_append_right as hq) hrows
      have hij : as.length + i = as.length + j := (List.cons.inj heq).1
      have hpq : p = q := (List.cons.inj heq).2
      rw [hpq, show i = j by omega]

theorem Unshared.apart {q : List Nat} (h : g.Unshared n anc (as ++ bs))
    (hp : g.LeadsFrom n anc as p x) (hq : g.LeadsFrom n anc bs q x) : g.rows x = .ok [] := by
  by_contra hrows
  cases p with
  | nil => exact hp.elim
  | cons i p =>
    cases q with
    | nil => exact hq.elim
    | cons j q =>
      have heq := h _ _ x (leadsFrom_append_left hp) (leadsFrom_append_right as hq) hrows
      have hi := hp.lt_length
      have hij : i = as.length + j := (List.cons.inj heq).1
      omega

end Paths

section Traversal

variable [DecidableEq N] (g : Graph N R M ε)

def visitRow (below : List N → N → Except ε (M × List N)) (visited : List N) (r : R) :
    Except ε (Option M × List N) :=
  match g.child r with
  | none => .ok (none, visited)
  | some c =>
    if c ∈ visited then .ok (some (g.stub c), visited)
    else (below visited c).map fun out => (some out.1, out.2)

def visitRows (below : List N → N → Except ε (M × List N)) :
    List N → List R → Except ε (List (R × Option M) × List N)
  | visited, [] => .ok ([], visited)
  | visited, r :: rs => do
    let (m, visited) ← g.visitRow below visited r
    let (ms, visited) ← visitRows below visited rs
    return ((r, m) :: ms, visited)

def expandNode (below : List N → N → Except ε (M × List N)) (visited : List N) (c : N) :
    Except ε (M × List N) := do
  let rs ← g.rows c
  let (ms, visited) ← g.visitRows below visited rs
  return (g.assemble c ms, visited)

/-- Expand a node that is led to, with some levels left. -/
def descend : Nat → List N → N → Except ε (M × List N)
  | 0, visited, c => .ok (g.stub c, visited)
  | n + 1, visited, c => g.expandNode (descend n) (c :: visited) c

def descendPath : Nat → List N → N → Except ε (M × List N)
  | 0, path, c => .ok (g.stub c, path)
  | n + 1, path, c =>
    (g.expandNode (descendPath n) (c :: path) c).map fun out => (out.1, path)

end Traversal

section Alike

variable {A B : Type}

/-- The second run ends as the first, with the path as it was, and the first has visited what
`P` says. -/
def Alike (path : List N) (P : List N → Prop) (x y : Except ε (A × List N)) : Prop :=
  match x with
  | .error err => y = .error err
  | .ok out => y = .ok (out.1, path) ∧ P out.2

variable {path : List N} {P : List N → Prop} {x y : Except ε (A × List N)}

theorem Alike.bind {path' : List N} {Q : List N → Prop} {f f' : A × List N → Except ε (B × List N)}
    (h : Alike path P x y) (hf : ∀ a out, P out → Alike path' Q (f (a, out)) (f' (a, path))) :
    Alike path' Q (x >>= f) (y >>= f') := by
  cases x with
  | error err =>
    rw [show y = .error err from h]
    exact rfl
  | ok out =>
    rw [show y = .ok (out.1, path) from h.1]
    exact hf out.1 out.2 h.2

theorem Alike.imp {Q : List N → Prop} (h : Alike path P x y) (hPQ : ∀ out, P out → Q out) :
    Alike path Q x y := by
  cases x with
  | error err => exact h
  | ok out => exact ⟨h.1, hPQ out.2 h.2⟩

theorem Alike.map (h : Alike path P x y) (f : A → B) :
    Alike path P (x.map fun out => (f out.1, out.2)) (y.map fun out => (f out.1, out.2)) := by
  cases x with
  | error err =>
    rw [show y = .error err from h]
    exact rfl
  | ok out =>
    rw [show y = .ok (out.1, path) from h.1]
    exact ⟨rfl, h.2⟩

theorem Alike.restore {path' : List N} (h : Alike path P x y) :
    Alike path' P x (y.map fun out => (out.1, path')) := by
  cases x with
  | error err =>
    rw [show y = .error err from h]
    exact rfl
  | ok out =>
    rw [show y = .ok (out.1, path) from h.1]
    exact ⟨rfl, h.2⟩

end Alike

section Clear

variable {g : Graph N R M ε} {n : Nat} {anc visited out : List N} {as bs rs : List R}

def Visits (g : Graph N R M ε) (n : Nat) (anc : List N) (rs : List R) (visited out : List N) :
    Prop :=
  visited ⊆ out ∧ ∀ x ∈ out, x ∈ visited ∨ ∃ p, g.LeadsFrom n anc rs p x

/-- Before some rows: nothing with rows is below them twice, or has been visited already. -/
structure Clear (g : Graph N R M ε) (n : Nat) (anc : List N) (rs : List R) (visited : List N) :
    Prop where
  ancestors : anc ⊆ visited
  unshared : g.Unshared n anc rs
  seen : ∀ x ∈ visited, ∀ p, g.LeadsFrom n anc rs p x → g.rows x = .ok []

theorem Visits.refl : g.Visits n anc rs visited visited :=
  ⟨List.Subset.refl visited, fun _ hx => .inl hx⟩

theorem Visits.append {mid : List N} (h : g.Visits n anc as visited mid)
    (h' : g.Visits n anc bs mid out) : g.Visits n anc (as ++ bs) visited out := by
  refine ⟨List.Subset.trans h.1 h'.1, fun x hx => ?_⟩
  rcases h'.2 x hx with hx | ⟨p, hp⟩
  · rcases h.2 x hx with hx | ⟨p, hp⟩
    · exact .inl hx
    · exact .inr ⟨p, leadsFrom_append_left hp⟩
  · cases p with
    | nil => exact hp.elim
    | cons i p => exact .inr ⟨_, leadsFrom_append_right as hp⟩

theorem Clear.left (h : g.Clear n anc (as ++ bs) visited) : g.Clear n anc as visited :=
  ⟨h.ancestors, h.unshared.left, fun x hx p hp => h.seen x hx p (leadsFrom_append_left hp)⟩

theorem Clear.right (h : g.Clear n anc (as ++ bs) visited) (hout : g.Visits n anc as visited out) :
    g.Clear n anc bs out := by
  refine ⟨List.Subset.trans h.ancestors hout.1, h.unshared.right, fun x hx q hq => ?_⟩
  rcases hout.2 x hx with hx | ⟨p, hp⟩
  · cases q with
    | nil => exact hq.elim
    | cons j q => exact h.seen x hx _ (leadsFrom_append_right as hq)
  · exact h.unshared.apart hp hq

end Clear

section Agreement

variable [DecidableEq N] {g : Graph N R M ε} {n : Nat} {anc visited : List N}

/-- The children of a level are shown alike. -/
def DescendsAlike (g : Graph N R M ε) (n : Nat) : Prop :=
  ∀ anc visited r c, g.child r = some c → c ∉ anc → g.Clear n anc [r] visited →
    Alike anc (g.Visits n anc [r] visited) (g.descend n visited c) (g.descendPath n anc c)

variable {c : N}

theorem expandNode_nil (below : List N → N → Except ε (M × List N)) {visited : List N}
    (h : g.rows c = .ok []) : g.expandNode below visited c = .ok (g.stub c, visited) := by
  unfold expandNode
  rw [h, ← g.assemble_nil c]
  rfl

theorem descendPath_nil {n : Nat} {path : List N} (h : 0 < n → g.rows c = .ok []) :
    g.descendPath n path c = .ok (g.stub c, path) := by
  cases n with
  | zero => rfl
  | succ n =>
    unfold descendPath
    rw [expandNode_nil _ (h (Nat.succ_pos n))]
    rfl

theorem Clear.descendPath_stub {r : R} (h : g.Clear n anc [r] visited) (hchild : g.child r = some c)
    (hanc : c ∉ anc) (hvisited : c ∈ visited) : g.descendPath n anc c = .ok (g.stub c, anc) := by
  apply descendPath_nil
  intro hn
  obtain ⟨n, rfl⟩ := Nat.exists_eq_succ_of_ne_zero (by omega : n ≠ 0)
  exact h.seen c hvisited [0] (leadsFrom_cons_zero.mpr ⟨c, hchild, hanc, rfl⟩)

theorem visitRow_alike (hbelow : g.DescendsAlike n) {r : R} (h : g.Clear n anc [r] visited) :
    Alike anc (g.Visits n anc [r] visited) (g.visitRow (g.descend n) visited r)
      (g.visitRow (g.descendPath n) anc r) := by
  unfold visitRow
  cases hchild : g.child r with
  | none => exact ⟨rfl, Visits.refl⟩
  | some c =>
    by_cases hanc : c ∈ anc
    · simp only [if_pos hanc, if_pos (h.ancestors hanc)]
      exact ⟨rfl, Visits.refl⟩
    · by_cases hvisited : c ∈ visited
      · simp only [if_neg hanc, if_pos hvisited, h.descendPath_stub hchild hanc hvisited]
        exact ⟨rfl, Visits.refl⟩
      · simp only [if_neg hanc, if_neg hvisited]
        have hdescend := hbelow anc visited r c hchild hanc h
        cases hd : g.descend n visited c with
        | error err =>
          rw [hd] at hdescend
          rw [show g.descendPath n anc c = .error err from hdescend]
          exact rfl
        | ok out =>
          rw [hd] at hdescend
          rw [show g.descendPath n anc c = .ok (out.1, anc) from hdescend.1]
          exact ⟨rfl, hdescend.2⟩

theorem visitRows_alike (hbelow : g.DescendsAlike n) {rs : List R}
    (h : g.Clear n anc rs visited) :
    Alike anc (g.Visits n anc rs visited) (g.visitRows (g.descend n) visited rs)
      (g.visitRows (g.descendPath n) anc rs) := by
  induction rs generalizing visited with
  | nil => exact ⟨rfl, Visits.refl⟩
  | cons r rs ih =>
    have h : g.Clear n anc ([r] ++ rs) visited := h
    refine (visitRow_alike hbelow h.left).bind fun m mid hmid => ?_
    refine (ih (h.right hmid)).bind fun ms out hout => ?_
    exact ⟨rfl, hmid.append hout⟩

theorem expandNode_alike (hbelow : g.DescendsAlike n)
    (h : ∀ rs, g.rows c = .ok rs → g.Clear n anc rs visited) :
    Alike anc (fun out => ∃ rs, g.rows c = .ok rs ∧ g.Visits n anc rs visited out)
      (g.expandNode (g.descend n) visited c) (g.expandNode (g.descendPath n) anc c) := by
  unfold expandNode
  cases hrs : g.rows c with
  | error err => exact rfl
  | ok rs =>
    show Alike anc _ (g.visitRows (g.descend n) visited rs >>= _)
      (g.visitRows (g.descendPath n) anc rs >>= _)
    refine (visitRows_alike hbelow (h rs hrs)).bind fun ms out hout => ?_
    exact ⟨rfl, rs, rfl, hout⟩

theorem descendsAlike (n : Nat) : g.DescendsAlike n := by
  induction n with
  | zero =>
    intro anc visited r c hchild hanc h
    exact ⟨rfl, Visits.refl⟩
  | succ n ih =>
    intro anc visited r c hchild hanc h
    -- the paths below the child are those below its rows
    have hleads {rs : List R} {p : List Nat} {x : N} (hrs : g.rows c = .ok rs)
        (hp : g.LeadsFrom n (c :: anc) rs p x) : g.LeadsFrom (n + 1) anc [r] (0 :: p) x := by
      refine leadsFrom_cons_zero.mpr ⟨c, hchild, hanc, ?_⟩
      cases p with
      | nil => exact hp.elim
      | cons i p => exact leadsInto_cons.mpr ⟨rs, hrs, hp⟩
    have hself : g.LeadsFrom (n + 1) anc [r] [0] c :=
      leadsFrom_cons_zero.mpr ⟨c, hchild, hanc, rfl⟩
    have hclear : ∀ rs, g.rows c = .ok rs → g.Clear n (c :: anc) rs (c :: visited) := by
      intro rs hrs
      refine ⟨cons_subset_cons c h.ancestors, fun p q x hp hq hrows => ?_,
        fun x hx p hp => ?_⟩
      · have heq := h.unshared _ _ x (hleads hrs hp) (hleads hrs hq) hrows
        exact (List.cons.inj heq).2
      · rcases mem_cons.mp hx with rfl | hx
        · -- the child itself is not below its rows
          by_contra hrows
          have heq := h.unshared _ _ x (hleads hrs hp) hself hrows
          cases p with
          | nil => exact hp.elim
          | cons i p => cases heq
        · exact h.seen x hx _ (hleads hrs hp)
    refine (expandNode_alike ih hclear).restore.imp ?_
    rintro out ⟨rs, hrs, hsub, hout⟩
    refine ⟨List.Subset.trans (subset_cons_self c visited) hsub, fun x hx => ?_⟩
    rcases hout x hx with hx | ⟨p, hp⟩
    · rcases mem_cons.mp hx with rfl | hx
      · exact .inr ⟨_, hself⟩
      · exact .inl hx
    · exact .inr ⟨_, hleads hrs hp⟩

end Agreement

section Converse

variable {g : Graph N R M ε} {n : Nat} {anc visited out : List N} {as bs rs : List R}

/-- Something is shown for every row, and a child for those that have one. -/
def Fits (g : Graph N R M ε) (rs : List R) (ms : List (R × Option M)) : Prop :=
  List.Forall₂ (fun r m => m.1 = r ∧ m.2.isSome = (g.child r).isSome) rs ms

/-- What a node is shown as tells what its children are shown as, and that it has rows. -/
structure Discerning (g : Graph N R M ε) : Prop where
  assemble_inj : ∀ c rs ms ms', g.rows c = .ok rs → g.Fits rs ms → g.Fits rs ms' →
    g.assemble c ms = g.assemble c ms' → ms = ms'
  assemble_eq_stub : ∀ c rs ms, g.rows c = .ok rs → g.Fits rs ms → g.assemble c ms = g.stub c →
    rs = []

/-- All nodes below some rows have been visited. -/
def Covers (g : Graph N R M ε) (n : Nat) (anc : List N) (rs : List R) (visited out : List N) :
    Prop :=
  visited ⊆ out ∧ ∀ p x, g.LeadsFrom n anc rs p x → x ∈ out

theorem leadsFrom_append {p : List Nat} {x : N} (h : g.LeadsFrom n anc (as ++ bs) p x) :
    g.LeadsFrom n anc as p x ∨
      ∃ i q, p = (as.length + i) :: q ∧ g.LeadsFrom n anc bs (i :: q) x := by
  cases p with
  | nil => exact h.elim
  | cons i p =>
    obtain ⟨r, d, hr, h⟩ := h
    by_cases hi : i < as.length
    · rw [List.getElem?_append_left hi] at hr
      exact .inl ⟨r, d, hr, h⟩
    · rw [List.getElem?_append_right (by omega)] at hr
      refine .inr ⟨i - as.length, p, ?_, r, d, hr, h⟩
      rw [show as.length + (i - as.length) = i by omega]

variable {mid : List N}

theorem Clear.append (h : g.Clear n anc as visited) (hmid : g.Covers n anc as visited mid)
    (h' : g.Clear n anc bs mid) : g.Clear n anc (as ++ bs) visited := by
  refine ⟨h.ancestors, fun p q x hp hq hrows => ?_, fun x hx p hp => ?_⟩
  · rcases leadsFrom_append hp with hpa | ⟨i, p', rfl, hpb⟩
    · rcases leadsFrom_append hq with hqa | ⟨j, q', rfl, hqb⟩
      · exact h.unshared p q x hpa hqa hrows
      · exact absurd (h'.seen x (hmid.2 p x hpa) _ hqb) hrows
    · rcases leadsFrom_append hq with hqa | ⟨j, q', rfl, hqb⟩
      · exact absurd (h'.seen x (hmid.2 q x hqa) _ hpb) hrows
      · have heq := List.cons.inj (h'.unshared _ _ x hpb hqb hrows)
        rw [heq.1, heq.2]
  · rcases leadsFrom_append hp with hpa | ⟨i, p', rfl, hpb⟩
    · exact h.seen x hx p hpa
    · exact h'.seen x (hmid.1 hx) _ hpb

theorem Covers.append (h : g.Covers n anc as visited mid) (h' : g.Covers n anc bs mid out) :
    g.Covers n anc (as ++ bs) visited out := by
  refine ⟨List.Subset.trans h.1 h'.1, fun p x hp => ?_⟩
  rcases leadsFrom_append hp with hpa | ⟨i, p', rfl, hpb⟩
  · exact h'.1 (h.2 p x hpa)
  · exact h'.2 _ x hpb

theorem clear_of_forall_not (hsub : anc ⊆ visited)
    (h : ∀ p x, ¬ g.LeadsFrom n anc rs p x) :
    g.Clear n anc rs visited ∧ g.Covers n anc rs visited visited := by
  refine ⟨⟨hsub, fun p _ x hp => (h p x hp).elim, fun x _ p hp => (h p x hp).elim⟩, ?_⟩
  exact ⟨List.Subset.refl visited, fun p x hp => (h p x hp).elim⟩

theorem clear_of_rows_nil {r : R} {c : N} (hsub : anc ⊆ visited) (hchild : g.child r = some c)
    (hvisited : c ∈ visited) (hrows : g.rows c = .ok []) :
    g.Clear (n + 1) anc [r] visited ∧ g.Covers (n + 1) anc [r] visited visited := by
  have honly : ∀ p x, g.LeadsFrom (n + 1) anc [r] p x → x = c := by
    rintro (_ | ⟨i, p⟩) x hp
    · exact hp.elim
    · obtain rfl : i = 0 := by
        have hi := hp.lt_length
        rw [length_singleton] at hi
        omega
      obtain ⟨d, hd, -, hp⟩ := leadsFrom_cons_zero.mp hp
      cases hchild.symm.trans hd
      cases p with
      | nil => exact hp
      | cons j p =>
        obtain ⟨rs, hrs, hp⟩ := leadsInto_cons.mp hp
        cases hrows.symm.trans hrs
        exact absurd hp.lt_length (Nat.not_lt_zero j)
  refine ⟨⟨hsub, fun p q x hp _ hx => ?_, fun x _ p hp => ?_⟩,
    List.Subset.refl visited, fun p x hp => ?_⟩
  · rw [honly p x hp] at hx
    exact absurd hrows hx
  · rw [honly p x hp]
    exact hrows
  · rw [honly p x hp]
    exact hvisited

theorem clear_of_child {r : R} {c : N} {rs : List R} {out : List N}
    (hsub : anc ⊆ visited) (hchild : g.child r = some c) (hnew : c ∉ visited)
    (hrs : g.rows c = .ok rs) (hclear : g.Clear n (c :: anc) rs (c :: visited))
    (hcovers : g.Covers n (c :: anc) rs (c :: visited) out) :
    g.Clear (n + 1) anc [r] visited ∧ g.Covers (n + 1) anc [r] visited out := by
  have hbelow : ∀ p x, g.LeadsFrom (n + 1) anc [r] p x →
      p = [0] ∧ x = c ∨ ∃ q, p = 0 :: q ∧ g.LeadsFrom n (c :: anc) rs q x := by
    rintro (_ | ⟨i, p⟩) x hp
    · exact hp.elim
    · obtain rfl : i = 0 := by
        have hi := hp.lt_length
        rw [length_singleton] at hi
        omega
      obtain ⟨d, hd, -, hp⟩ := leadsFrom_cons_zero.mp hp
      cases hchild.symm.trans hd
      cases p with
      | nil => exact .inl ⟨rfl, hp⟩
      | cons j p =>
        obtain ⟨rs', hrs', hp⟩ := leadsInto_cons.mp hp
        cases hrs.symm.trans hrs'
        exact .inr ⟨_, rfl, hp⟩
  have hself : ∀ q, g.LeadsFrom n (c :: anc) rs q c → g.rows c = .ok [] :=
    fun q hq => hclear.seen c mem_cons_self q hq
  refine ⟨⟨hsub, fun p q x hp hq hx => ?_, fun x hx p hp => ?_⟩,
    fun x hx => hcovers.1 (mem_cons_of_mem c hx), fun p x hp => ?_⟩
  · rcases hbelow p x hp with ⟨rfl, rfl⟩ | ⟨p', rfl, hp'⟩
    · rcases hbelow q x hq with ⟨rfl, -⟩ | ⟨q', rfl, hq'⟩
      · rfl
      · exact absurd (hself q' hq') hx
    · rcases hbelow q x hq with ⟨rfl, rfl⟩ | ⟨q', rfl, hq'⟩
      · exact absurd (hself p' hp') hx
      · rw [hclear.unshared p' q' x hp' hq' hx]
  · rcases hbelow p x hp with ⟨-, rfl⟩ | ⟨q, -, hq⟩
    · exact absurd hx hnew
    · exact hclear.seen x (mem_cons_of_mem c hx) q hq
  · rcases hbelow p x hp with ⟨-, rfl⟩ | ⟨q, -, hq⟩
    · exact hcovers.1 mem_cons_self
    · exact hcovers.2 q x hq

end Converse

section Traversed

variable [DecidableEq N] {g : Graph N R M ε} {n : Nat} {anc visited : List N}

variable {below : List N → N → Except ε (M × List N)} {out : List (R × Option M) × List N}
  {rs : List R} {c : N} {path : List N}

theorem isSome_visitRow {below : List N → N → Except ε (M × List N)} {r : R}
    {out : Option M × List N} (h : g.visitRow below visited r = .ok out) :
    out.1.isSome = (g.child r).isSome := by
  unfold visitRow at h
  split at h
  · rename_i hchild
    cases h
    rw [hchild]
    rfl
  · rename_i c hchild
    rw [hchild]
    split at h
    · cases h
      rfl
    · obtain ⟨m, -, rfl⟩ := Unification.map_eq_ok h
      rfl

theorem visitRows_cons_ok {r : R} (h : g.visitRows below visited (r :: rs) = .ok out) :
    ∃ first rest, g.visitRow below visited r = .ok first ∧
      g.visitRows below first.2 rs = .ok rest ∧ out = ((r, first.1) :: rest.1, rest.2) := by
  obtain ⟨first, hfirst, h⟩ := Unification.bind_eq_ok h
  obtain ⟨rest, hrest, h⟩ := Unification.bind_eq_ok h
  cases h
  exact ⟨first, rest, hfirst, hrest, rfl⟩

theorem fits_visitRows (h : g.visitRows below visited rs = .ok out) : g.Fits rs out.1 := by
  induction rs generalizing visited out with
  | nil =>
    cases h
    exact .nil
  | cons r rs ih =>
    obtain ⟨first, rest, hfirst, hrest, rfl⟩ := visitRows_cons_ok h
    exact .cons ⟨rfl, isSome_visitRow hfirst⟩ (ih hrest)

theorem expandNode_ok {out : M × List N} (h : g.expandNode below visited c = .ok out) :
    ∃ rs ms, g.rows c = .ok rs ∧ g.visitRows below visited rs = .ok (ms, out.2) ∧
      g.Fits rs ms ∧ out.1 = g.assemble c ms := by
  obtain ⟨rs, hrs, h⟩ := Unification.bind_eq_ok h
  obtain ⟨⟨ms, visited'⟩, hms, h⟩ := Unification.bind_eq_ok h
  cases h
  exact ⟨rs, ms, hrs, hms, fits_visitRows hms, rfl⟩

/-- If both traversals show the same for some rows, nothing with rows is below them twice. -/
def SharingShows (g : Graph N R M ε) (n : Nat) : Prop :=
  ∀ anc visited rs ms out path, anc ⊆ visited →
    g.visitRows (g.descend n) visited rs = .ok (ms, out) →
    g.visitRows (g.descendPath n) anc rs = .ok (ms, path) →
    g.Clear n anc rs visited ∧ g.Covers n anc rs visited out

theorem sharingShows_of_row
    (hrow : ∀ anc visited r m out path, anc ⊆ visited →
      g.visitRow (g.descend n) visited r = .ok (m, out) →
      g.visitRow (g.descendPath n) anc r = .ok (m, path) →
      path = anc ∧ g.Clear n anc [r] visited ∧ g.Covers n anc [r] visited out) :
    g.SharingShows n := by
  intro anc visited rs
  induction rs generalizing visited with
  | nil =>
    intro ms out path hsub h _
    cases h
    apply clear_of_forall_not hsub
    rintro (_ | ⟨i, p⟩) x hp
    · exact hp
    · exact absurd hp.lt_length (Nat.not_lt_zero i)
  | cons r rs ih =>
    intro ms out path hsub h h'
    obtain ⟨⟨m, mid⟩, ⟨rest, _⟩, hfirst, hrest, heq⟩ := visitRows_cons_ok h
    obtain ⟨⟨m', path'⟩, ⟨rest', _⟩, hfirst', hrest', heq'⟩ := visitRows_cons_ok h'
    cases heq
    cases heq'
    obtain ⟨rfl, hclear, hcovers⟩ := hrow anc visited r _ mid path' hsub hfirst hfirst'
    obtain ⟨hclear', hcovers'⟩ :=
      ih mid _ _ _ (List.Subset.trans hsub hcovers.1) hrest hrest'
    exact ⟨hclear.append hcovers hclear', hcovers.append hcovers'⟩

theorem descendPath_path {out : M × List N} (h : g.descendPath n path c = .ok out) :
    out.2 = path := by
  cases n with
  | zero =>
    cases h
    rfl
  | succ n =>
    obtain ⟨node, -, rfl⟩ := Unification.map_eq_ok h
    rfl

theorem Discerning.rows_of_stub (hg : g.Discerning) {out : List N}
    (h : g.descendPath (n + 1) path c = .ok (g.stub c, out)) : g.rows c = .ok [] := by
  obtain ⟨node, hnode, heq⟩ := Unification.map_eq_ok h
  obtain ⟨rs, ms, hrs, -, hfits, hshown⟩ := expandNode_ok hnode
  have hstub : g.assemble c ms = g.stub c := by
    rw [← hshown]
    exact (congrArg Prod.fst heq)
  rw [hrs, hg.assemble_eq_stub c rs ms hrs hfits hstub]

theorem Discerning.sharingShows (hg : g.Discerning) (n : Nat) : g.SharingShows n := by
  induction n with
  | zero =>
    apply sharingShows_of_row
    intro anc visited r m out path hsub h h'
    have hnone : ∀ p x, ¬ g.LeadsFrom 0 anc [r] p x := by
      rintro (_ | ⟨i, p⟩) x hp
      · exact hp
      · obtain ⟨_, _, _, _, _, hp⟩ := hp
        exact hp
    have hstays {visited : List N} {below : List N → N → Except ε (M × List N)}
        {out : Option M × List N}
        (hbelow : ∀ visited c, below visited c = .ok (g.stub c, visited))
        (h : g.visitRow below visited r = .ok out) : out.2 = visited := by
      unfold visitRow at h
      split at h
      · cases h
        rfl
      · split at h
        · cases h
          rfl
        · rw [hbelow] at h
          cases h
          rfl
    have hout : out = visited := hstays (fun _ _ => rfl) h
    have hpath : path = anc := hstays (fun _ _ => rfl) h'
    rw [hout]
    exact ⟨hpath, clear_of_forall_not hsub hnone⟩
  | succ n ih =>
    apply sharingShows_of_row
    intro anc visited r m out path hsub h h'
    unfold visitRow at h h'
    cases hchild : g.child r with
    | none =>
      rw [hchild] at h h'
      cases h
      cases h'
      refine ⟨rfl, clear_of_forall_not hsub ?_⟩
      rintro (_ | ⟨i, p⟩) x hp
      · exact hp
      · obtain ⟨r', d, hr, hd, -⟩ := hp
        rw [mem_singleton.mp (mem_of_getElem? hr), hchild] at hd
        cases hd
    | some c =>
      rw [hchild] at h h'
      by_cases hanc : c ∈ anc
      · simp only [if_pos hanc, if_pos (hsub hanc)] at h h'
        cases h
        cases h'
        refine ⟨rfl, clear_of_forall_not hsub ?_⟩
        rintro (_ | ⟨i, p⟩) x hp
        · exact hp
        · obtain ⟨r', d, hr, hd, hd', -⟩ := hp
          rw [mem_singleton.mp (mem_of_getElem? hr), hchild] at hd
          cases hd
          exact hd' hanc
      · simp only [if_neg hanc] at h'
        obtain ⟨⟨shown', path'⟩, hpath, heq'⟩ := Unification.map_eq_ok h'
        have hpath' : path' = anc := descendPath_path hpath
        cases heq'
        refine ⟨hpath', ?_⟩
        by_cases hvisited : c ∈ visited
        · simp only [if_pos hvisited] at h
          cases h
          exact clear_of_rows_nil hsub hchild hvisited (hg.rows_of_stub hpath)
        · simp only [if_neg hvisited] at h
          obtain ⟨⟨shown, out'⟩, hout, heq⟩ := Unification.map_eq_ok h
          cases heq
          -- both show the same for the rows of the child
          obtain ⟨rs, ms, hrs, hms, hfits, hshown⟩ := expandNode_ok hout
          obtain ⟨node, hnode, heq⟩ := Unification.map_eq_ok hpath
          obtain ⟨rs', ms', hrs', hms', hfits', hshown'⟩ := expandNode_ok hnode
          cases hrs.symm.trans hrs'
          have hsame : ms = ms' := by
            apply hg.assemble_inj c rs ms ms' hrs hfits hfits'
            rw [← hshown, ← hshown']
            exact (congrArg Prod.fst heq).symm
          subst hsame
          obtain ⟨hclear, hcovers⟩ :=
            ih (c :: anc) (c :: visited) rs ms _ _ (cons_subset_cons c hsub) hms hms'
          exact clear_of_child hsub hchild hvisited hrs hclear hcovers

/-- Below a root that is alone on the path, both traversals show the same if nothing with rows is
shared. If what is shown tells the children, only then. -/
theorem expandNode_eq_iff (hrs : g.rows c = .ok rs) :
    (g.Unshared n [c] rs → (g.expandNode (g.descend n) [c] c).map Prod.fst =
      (g.expandNode (g.descendPath n) [c] c).map Prod.fst) ∧
    (g.Discerning → ∀ m, (g.expandNode (g.descend n) [c] c).map Prod.fst = .ok m →
      (g.expandNode (g.descendPath n) [c] c).map Prod.fst = .ok m → g.Unshared n [c] rs) := by
  constructor
  · intro h
    have hclear : ∀ rs, g.rows c = .ok rs → g.Clear n [c] rs [c] := by
      intro rs' hrs'
      cases hrs.symm.trans hrs'
      refine ⟨List.Subset.refl _, h, fun x hx p hp => ?_⟩
      exact absurd hx hp.notMem
    have halike := expandNode_alike (descendsAlike n) hclear
    cases hnode : g.expandNode (g.descend n) [c] c with
    | error err =>
      rw [hnode] at halike
      rw [show g.expandNode (g.descendPath n) [c] c = .error err from halike]
    | ok out =>
      rw [hnode] at halike
      rw [show g.expandNode (g.descendPath n) [c] c = .ok (out.1, [c]) from halike.1]
      rfl
  · intro hg m h h'
    obtain ⟨out, hout, rfl⟩ := Unification.map_eq_ok h
    obtain ⟨path, hpath, heq⟩ := Unification.map_eq_ok h'
    obtain ⟨rs1, ms, hrs1, hms, hfits, hshown⟩ := expandNode_ok hout
    obtain ⟨rs2, ms', hrs2, hms', hfits', hshown'⟩ := expandNode_ok hpath
    cases hrs.symm.trans hrs1
    cases hrs.symm.trans hrs2
    have hsame : ms = ms' := by
      apply hg.assemble_inj c rs ms ms' hrs hfits hfits'
      rw [← hshown, ← hshown', heq]
    subst hsame
    exact (hg.sharingShows n [c] [c] rs ms _ _ (List.Subset.refl _) hms hms').1.unshared

end Traversed

end Graph

end TreeExpansion

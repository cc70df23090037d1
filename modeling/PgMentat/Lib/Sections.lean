import PgMentat.Lib.Program

namespace Sections

open List StatementProgram

variable {S : Type} {R : S → Type} {O : Type} {A : O → Type} {X : Type} {B : X → Type}
  {σ τ ι α : Type}

/-- The sections of the object, the operations they make up, and the statements that are answered
by the rest of the world. -/
structure Protocol (S : Type) (R : S → Type) (O : Type) (A : O → Type) (X : Type) (B : X → Type)
    (σ τ : Type) where
  act : (s : S) → σ → R s × σ
  body : (o : O) → Program S R Empty (A o)
  answer : (x : X) → τ → B x × τ

abbrev Reply (A : O → Type) (B : X → Type) : O ⊕ X → Type
  | .inl o => A o
  | .inr x => B x

/-- A handler: a program of operations and statements. -/
abbrev Client (A : O → Type) (B : X → Type) (α : Type) := Program (O ⊕ X) (Reply A B) Empty α

/-- Where a handler is: between operations, or with sections of one still to run. -/
inductive Activity (S : Type) (R : S → Type) (A : O → Type) (B : X → Type) (α : Type) where
  | idle (p : Client A B α)
  | inside {o : O} (q : Program S R Empty (A o)) (k : A o → Client A B α)

structure Config (S : Type) (R : S → Type) (A : O → Type) (B : X → Type) (σ τ ι α : Type) where
  object : σ
  world : τ
  handlers : List (ι × Activity S R A B α)

namespace Activity

def isIdle : Activity S R A B α → Bool
  | idle _ => true
  | inside _ _ => false

end Activity

namespace Protocol

variable (P : Protocol S R O A X B σ τ)

/-- An operation whose sections run without interruption. -/
def alone {β : Type} : Program S R Empty β → σ → β × σ
  | .ret a, s => (a, s)
  | .fail e, _ => e.elim
  | .call q k, s => alone (k (P.act q s).1) (P.act q s).2

/-- One step of one handler; to begin and to end an operation is a step of its own. -/
def step : Activity S R A B α → σ → τ → Option (Activity S R A B α × σ × τ)
  | .idle (.ret _), _, _ => none
  | .idle (.fail e), _, _ => e.elim
  | .idle (.call (.inl o) k), s, w => some (.inside (P.body o) k, s, w)
  | .idle (.call (.inr x) k), s, w => some (.idle (k (P.answer x w).1), s, (P.answer x w).2)
  | .inside (.ret a) k, s, w => some (.idle (k a), s, w)
  | .inside (.fail e) _, _, _ => e.elim
  | .inside (.call q k') k, s, w => some (.inside (k' (P.act q s).1) k, (P.act q s).2, w)

/-- Handler `i` takes a step. -/
def move (i : Nat) (c : Config S R A B σ τ ι α) : Option (Config S R A B σ τ ι α) :=
  match c.handlers[i]? with
  | none => none
  | some (tag, a) =>
    (P.step a c.object c.world).map fun next =>
      ⟨next.2.1, next.2.2, c.handlers.set i (tag, next.1)⟩

/-- What a handler becomes, and what it leaves of the object, once its operation is complete. -/
def settle : Activity S R A B α → σ → Client A B α × σ
  | .idle p, s => (p, s)
  | .inside q k, s => (k (P.alone q s).1, (P.alone q s).2)

end Protocol

/-- What the steps of a run have to meet, given the state before them. A handler may only arrive
under a condition on those that have finished. -/
structure Discipline (A : O → Type) (B : X → Type) (σ τ ι α : Type) where
  arrive : ι → Client A B α → (ι → α → Prop) → Prop
  enter : ι → O → σ → τ → Prop
  issue : ι → X → τ → Prop
  arrive_mono : ∀ {tag p F F'}, (∀ t a, F t a → F' t a) → arrive tag p F → arrive tag p F'

variable {P : Protocol S R O A X B σ τ} {D : Discipline A B σ τ ι α}

section Runs

def Config.Finished (c : Config S R A B σ τ ι α) (tag : ι) (a : α) : Prop :=
  (tag, .idle (.ret a)) ∈ c.handlers

def Config.AllIdle (c : Config S R A B σ τ ι α) : Prop := ∀ h ∈ c.handlers, h.2.isIdle = true

/-- An operation begins while every handler is between operations. -/
def Discipline.Permits (D : Discipline A B σ τ ι α) (c : Config S R A B σ τ ι α) (i : Nat) : Prop :=
  match c.handlers[i]? with
  | some (tag, .idle (.call (.inl o) _)) => c.AllIdle ∧ D.enter tag o c.object c.world
  | some (tag, .idle (.call (.inr x) _)) => D.issue tag x c.world
  | _ => True

def Config.arrive (c : Config S R A B σ τ ι α) (tag : ι) (p : Client A B α) :
    Config S R A B σ τ ι α :=
  { c with handlers := c.handlers ++ [(tag, .idle p)] }

inductive Run (P : Protocol S R O A X B σ τ) (D : Discipline A B σ τ ι α)
    (start : Config S R A B σ τ ι α) : Config S R A B σ τ ι α → Prop
  | refl : Run P D start start
  | arrive {c} (hrun : Run P D start c) (tag : ι) (p : Client A B α)
      (hok : D.arrive tag p c.Finished) : Run P D start (c.arrive tag p)
  | move {c c'} (hrun : Run P D start c) (i : Nat) (hmove : P.move i c = some c')
      (hok : D.Permits c i) : Run P D start c'

end Runs

structure AtomicConfig (A : O → Type) (B : X → Type) (σ τ ι α : Type) where
  object : σ
  world : τ
  handlers : List (ι × Client A B α)

def AtomicConfig.Finished (c : AtomicConfig A B σ τ ι α) (tag : ι) (a : α) : Prop :=
  (tag, .ret a) ∈ c.handlers

inductive AtomicRun (P : Protocol S R O A X B σ τ) (D : Discipline A B σ τ ι α)
    (start : AtomicConfig A B σ τ ι α) : AtomicConfig A B σ τ ι α → Prop
  | refl : AtomicRun P D start start
  | arrive {c} (hrun : AtomicRun P D start c) (tag : ι) (p : Client A B α)
      (hok : D.arrive tag p c.Finished) :
      AtomicRun P D start { c with handlers := c.handlers ++ [(tag, p)] }
  | operate {c i tag o k} (hrun : AtomicRun P D start c)
      (h : c.handlers[i]? = some (tag, .call (.inl o) k)) (hok : D.enter tag o c.object c.world) :
      AtomicRun P D start ⟨(P.alone (P.body o) c.object).2, c.world,
        c.handlers.set i (tag, k (P.alone (P.body o) c.object).1)⟩
  | issue {c i tag x k} (hrun : AtomicRun P D start c)
      (h : c.handlers[i]? = some (tag, .call (.inr x) k)) (hok : D.issue tag x c.world) :
      AtomicRun P D start ⟨c.object, (P.answer x c.world).2,
        c.handlers.set i (tag, k (P.answer x c.world).1)⟩

/-- At most one handler is inside an operation. -/
def Config.Exclusive (c : Config S R A B σ τ ι α) : Prop :=
  ∀ (i j : Nat) (h h' : ι × Activity S R A B α), i ≠ j → c.handlers[i]? = some h →
    c.handlers[j]? = some h' → h.2.isIdle = true ∨ h'.2.isIdle = true

def Protocol.settled (P : Protocol S R O A X B σ τ) (c : Config S R A B σ τ ι α) :
    AtomicConfig A B σ τ ι α where
  object := c.handlers.foldl (fun s h => (P.settle h.2 s).2) c.object
  world := c.world
  handlers := c.handlers.map fun h => (h.1, (P.settle h.2 c.object).1)

section Settle

variable {hs : List (ι × Activity S R A B α)} {i : Nat} {tag : ι} {a a' : Activity S R A B α}
  {s s' : σ} {c c' : Config S R A B σ τ ι α}

theorem settle_of_isIdle (h : a.isIdle = true) (s s' : σ) :
    (P.settle a s).2 = s ∧ (P.settle a s).1 = (P.settle a s').1 := by
  cases a with
  | idle p => exact ⟨rfl, rfl⟩
  | inside q k => cases h

theorem foldl_settle_of_idle (h : ∀ x ∈ hs, x.2.isIdle = true) :
    hs.foldl (fun s x => (P.settle x.2 s).2) s = s := by
  induction hs with
  | nil => rfl
  | cons x hs ih =>
    rw [foldl_cons, (settle_of_isIdle (h x mem_cons_self) s s).1]
    exact ih fun y hy => h y (mem_cons_of_mem x hy)

theorem foldl_settle_eq (hget : hs[i]? = some (tag, a))
    (hothers : ∀ j h, j ≠ i → hs[j]? = some h → h.2.isIdle = true) :
    hs.foldl (fun s x => (P.settle x.2 s).2) s = (P.settle a s).2 := by
  induction hs generalizing i with
  | nil => cases hget
  | cons x hs ih =>
    cases i with
    | zero =>
      cases hget
      rw [foldl_cons]
      apply foldl_settle_of_idle
      intro y hy
      obtain ⟨j, hj⟩ := mem_iff_getElem?.mp hy
      exact hothers (j + 1) y (by omega) (by simpa using hj)
    | succ i =>
      have hx : x.2.isIdle = true := hothers 0 x (by omega) rfl
      rw [foldl_cons, (settle_of_isIdle hx s s).1]
      apply ih (by simpa using hget)
      intro j h hj hget'
      exact hothers (j + 1) h (by omega) (by simpa using hget')

theorem foldl_settle_set (hget : hs[i]? = some (tag, a))
    (hsame : ∀ s, (P.settle a' s).2 = (P.settle a s).2) :
    (hs.set i (tag, a')).foldl (fun s x => (P.settle x.2 s).2) s =
      hs.foldl (fun s x => (P.settle x.2 s).2) s := by
  induction hs generalizing i s with
  | nil => rfl
  | cons x hs ih =>
    cases i with
    | zero =>
      cases hget
      rw [set_cons_zero, foldl_cons, foldl_cons, hsame]
    | succ i =>
      rw [set_cons_succ, foldl_cons, foldl_cons]
      exact ih (by simpa using hget)

theorem map_settle_set (hget : hs[i]? = some (tag, a))
    (hothers : ∀ j h, j ≠ i → hs[j]? = some h →
      (P.settle h.2 s').1 = (P.settle h.2 s).1) :
    ((hs.set i (tag, a')).map fun h => (h.1, (P.settle h.2 s').1)) =
      (hs.map fun h => (h.1, (P.settle h.2 s).1)).set i (tag, (P.settle a' s').1) := by
  apply ext_getElem?
  intro j
  have hlt : i < hs.length := (List.getElem?_eq_some_iff.mp hget).1
  rw [List.getElem?_map, List.getElem?_set, List.getElem?_set]
  by_cases hj : i = j
  · subst hj
    simp [hlt]
  · rw [if_neg hj, if_neg hj, List.getElem?_map]
    cases hh : hs[j]? with
    | none => rfl
    | some h => simp [hothers j h (Ne.symm hj) hh]

theorem settled_get (hget : c.handlers[i]? = some (tag, a)) :
    (P.settled c).handlers[i]? = some (tag, (P.settle a c.object).1) := by
  simp [Protocol.settled, hget]

theorem Config.AllIdle.settled (h : c.AllIdle) :
    (P.settled c).object = c.object :=
  foldl_settle_of_idle h

theorem settled_set_idle {p : Client A B α} {w' : τ} (hget : c.handlers[i]? = some (tag, a))
    (hsame : ∀ s, (P.settle a s).2 = s) :
    P.settled ⟨c.object, w', c.handlers.set i (tag, .idle p)⟩ =
      ⟨(P.settled c).object, w', (P.settled c).handlers.set i (tag, p)⟩ := by
  simp only [Protocol.settled, AtomicConfig.mk.injEq, true_and]
  exact ⟨foldl_settle_set hget fun s => (hsame s).symm, map_settle_set hget fun _ _ _ _ => rfl⟩

theorem settled_set_alone {w' : τ} (hget : c.handlers[i]? = some (tag, a))
    (hothers : ∀ j h, j ≠ i → c.handlers[j]? = some h → h.2.isIdle = true) :
    P.settled ⟨s', w', c.handlers.set i (tag, a')⟩ = ⟨(P.settle a' s').2, w',
      (P.settled c).handlers.set i (tag, (P.settle a' s').1)⟩ := by
  have hlt : i < c.handlers.length := (List.getElem?_eq_some_iff.mp hget).1
  simp only [Protocol.settled, AtomicConfig.mk.injEq, true_and]
  refine ⟨foldl_settle_eq (List.getElem?_set_self hlt) fun j h hj hh => ?_,
    map_settle_set hget fun j h hj hh => (settle_of_isIdle (hothers j h hj hh) _ _).2⟩
  rw [List.getElem?_set_ne (Ne.symm hj)] at hh
  exact hothers j h hj hh

theorem set_of_get {β : Type} {xs : List β} {x : β} (h : xs[i]? = some x) : xs.set i x = xs := by
  obtain ⟨hlt, rfl⟩ := List.getElem?_eq_some_iff.mp h
  exact set_getElem_self hlt

end Settle

section Simulation

variable {c c' start : Config S R A B σ τ ι α} {i : Nat} {tag : ι} {a a' : Activity S R A B α}
  {s' : σ} {w' : τ}

theorem Config.Finished.settled {x : α} (h : c.Finished tag x) : (P.settled c).Finished tag x :=
  mem_map.mpr ⟨_, h, rfl⟩

theorem Config.AllIdle.exclusive (h : c.AllIdle) : c.Exclusive := by
  intro i j x x' _ hx _
  exact .inl (h x (mem_of_getElem? hx))

theorem Config.Exclusive.arrive (h : c.Exclusive) (tag : ι) (p : Client A B α) :
    (c.arrive tag p).Exclusive := by
  intro i j x x' hij hx hx'
  simp only [Config.arrive, List.getElem?_append] at hx hx'
  split at hx
  · split at hx'
    · exact h i j x x' hij hx hx'
    · have hmem := mem_of_getElem? hx'
      rw [mem_singleton.mp hmem]
      exact .inr rfl
  · have hmem := mem_of_getElem? hx
    rw [mem_singleton.mp hmem]
    exact .inl rfl

theorem Config.Exclusive.set (h : c.Exclusive) (hget : c.handlers[i]? = some (tag, a))
    (hstep : a'.isIdle = true ∨ a.isIdle = false ∨ c.AllIdle) :
    Config.Exclusive ⟨s', w', c.handlers.set i (tag, a')⟩ := by
  have hothers : a'.isIdle = true ∨
      ∀ j (x : ι × Activity S R A B α), j ≠ i → c.handlers[j]? = some x → x.2.isIdle = true := by
    rcases hstep with hidle | hinside | hall
    · exact .inl hidle
    · refine .inr fun j x hj hx => (h j i x (tag, a) hj hx hget).resolve_right ?_
      simp [hinside]
    · exact .inr fun j x _ hx => hall x (mem_of_getElem? hx)
  have hset (j : Nat) (x : ι × Activity S R A B α)
      (hx : (c.handlers.set i (tag, a'))[j]? = some x) :
      x = (tag, a') ∧ j = i ∨ j ≠ i ∧ c.handlers[j]? = some x := by
    by_cases hj : j = i
    · have hmem := hj ▸ hx
      rw [List.getElem?_set_self (List.getElem?_eq_some_iff.mp hget).1] at hmem
      exact .inl ⟨(Option.some.inj hmem).symm, hj⟩
    · rw [List.getElem?_set_ne (Ne.symm hj)] at hx
      exact .inr ⟨hj, hx⟩
  intro j k x x' hjk hx hx'
  rcases hset j x hx with ⟨rfl, hj⟩ | ⟨hj, hold⟩
  · rcases hset k x' hx' with ⟨-, hk⟩ | ⟨hk, hold'⟩
    · exact absurd (hj.trans hk.symm) hjk
    · exact hothers.imp_right fun hothers => hothers k x' hk hold'
  · rcases hset k x' hx' with ⟨rfl, -⟩ | ⟨-, hold'⟩
    · exact (hothers.imp_right fun hothers => hothers j x hj hold).symm
    · exact h j k x x' hjk hold hold'

/-- A step is invisible once the operation in progress is completed, or it is a whole operation or
a statement. -/
theorem settled_move {first : AtomicConfig A B σ τ ι α} (hexcl : c.Exclusive)
    (hrun : AtomicRun P D first (P.settled c)) (hmove : P.move i c = some c')
    (hok : D.Permits c i) : c'.Exclusive ∧ AtomicRun P D first (P.settled c') := by
  unfold Protocol.move at hmove
  split at hmove
  · cases hmove
  rename_i tag a hget
  have hsettled := settled_get (P := P) hget
  cases a with
  | idle p =>
    cases p with
    | ret x => cases hmove
    | fail e => exact e.elim
    | call q k =>
      cases q with
      | inl o =>
        -- the operation takes effect when it begins
        cases hmove
        simp only [Discipline.Permits, hget] at hok
        obtain ⟨hall, henter⟩ := hok
        refine ⟨hexcl.set hget (.inr (.inr hall)), ?_⟩
        rw [settled_set_alone hget fun j h _ hh => hall h (mem_of_getElem? hh)]
        have hobject := hall.settled (P := P)
        rw [← hobject] at henter
        have hstep := AtomicRun.operate hrun hsettled henter
        rw [hobject] at hstep
        exact hstep
      | inr x =>
        cases hmove
        simp only [Discipline.Permits, hget] at hok
        refine ⟨hexcl.set hget (.inl rfl), ?_⟩
        dsimp only
        rw [settled_set_idle hget fun _ => rfl]
        exact AtomicRun.issue hrun hsettled hok
  | inside q k =>
    cases q with
    | ret x =>
      cases hmove
      refine ⟨hexcl.set hget (.inl rfl), ?_⟩
      dsimp only
      rw [settled_set_idle hget fun _ => rfl]
      exact (set_of_get hsettled).symm ▸ hrun
    | fail e => exact e.elim
    | call q k' =>
      cases hmove
      refine ⟨hexcl.set hget (.inr (.inl rfl)), ?_⟩
      have hidle (j : Nat) (h : ι × Activity S R A B α) (hj : j ≠ i)
          (hh : c.handlers[j]? = some h) : h.2.isIdle = true :=
        (hexcl j i h _ hj hh hget).resolve_right Bool.false_ne_true
      rw [settled_set_alone hget hidle]
      have hobject : (P.settled c).object = (P.alone (k' (P.act q c.object).1)
        (P.act q c.object).2).2 := foldl_settle_eq hget hidle
      have hhandlers := set_of_get hsettled
      simp only [Protocol.settle, Protocol.alone] at hhandlers ⊢
      rw [hhandlers, ← hobject]
      exact hrun

theorem settled_arrive (c : Config S R A B σ τ ι α) (tag : ι) (p : Client A B α) :
    P.settled (c.arrive tag p) =
      { P.settled c with handlers := (P.settled c).handlers ++ [(tag, p)] } := by
  simp [Protocol.settled, Config.arrive, Protocol.settle]

theorem Run.atomic (hstart : start.AllIdle) (h : Run P D start c) :
    c.Exclusive ∧ AtomicRun P D (P.settled start) (P.settled c) := by
  induction h with
  | refl => exact ⟨hstart.exclusive, .refl⟩
  | arrive _ tag p hok ih =>
    refine ⟨ih.1.arrive tag p, ?_⟩
    rw [settled_arrive]
    exact .arrive ih.2 tag p (D.arrive_mono (fun _ _ h => h.settled) hok)
  | move _ i hmove hok ih => exact settled_move ih.1 ih.2 hmove hok

end Simulation

section Uninterrupted

variable {c start : Config S R A B σ τ ι α} {i : Nat} {tag : ι}

theorem Run.finish {o : O} {q : Program S R Empty (A o)} {k : A o → Client A B α}
    (hrun : Run P D start c) (hget : c.handlers[i]? = some (tag, .inside q k)) :
    Run P D start ⟨(P.alone q c.object).2, c.world,
      c.handlers.set i (tag, .idle (k (P.alone q c.object).1))⟩ := by
  induction q generalizing c with
  | ret a =>
    have hmove : P.move i c = some ⟨c.object, c.world, c.handlers.set i (tag, .idle (k a))⟩ := by
      simp [Protocol.move, hget, Protocol.step]
    exact hrun.move i hmove (by simp [Discipline.Permits, hget])
  | fail e => exact e.elim
  | call s k' ih =>
    have hnext : Run P D start ⟨(P.act s c.object).2, c.world,
        c.handlers.set i (tag, .inside (k' (P.act s c.object).1) k)⟩ := by
      refine hrun.move i ?_ ?_
      · simp [Protocol.move, hget, Protocol.step]
      · simp [Discipline.Permits, hget]
    have hlt : i < c.handlers.length := (List.getElem?_eq_some_iff.mp hget).1
    have hrest := ih (P.act s c.object).1 hnext (List.getElem?_set_self hlt)
    rw [set_set] at hrest
    exact hrest

theorem Run.operation {o : O} {k : A o → Client A B α} (hrun : Run P D start c)
    (hall : c.AllIdle) (hget : c.handlers[i]? = some (tag, .idle (.call (.inl o) k)))
    (henter : D.enter tag o c.object c.world) :
    Run P D start ⟨(P.alone (P.body o) c.object).2, c.world,
      c.handlers.set i (tag, .idle (k (P.alone (P.body o) c.object).1))⟩ := by
  have hbegun : Run P D start ⟨c.object, c.world,
      c.handlers.set i (tag, .inside (P.body o) k)⟩ := by
    refine hrun.move i ?_ ?_
    · simp [Protocol.move, hget, Protocol.step]
    · simpa [Discipline.Permits, hget] using ⟨hall, henter⟩
  have hlt : i < c.handlers.length := (List.getElem?_eq_some_iff.mp hget).1
  have hrest := hbegun.finish (List.getElem?_set_self hlt)
  rw [set_set] at hrest
  exact hrest

theorem Run.statement {x : X} {k : B x → Client A B α} (hrun : Run P D start c)
    (hget : c.handlers[i]? = some (tag, .idle (.call (.inr x) k))) (hok : D.issue tag x c.world) :
    Run P D start ⟨c.object, (P.answer x c.world).2,
      c.handlers.set i (tag, .idle (k (P.answer x c.world).1))⟩ := by
  refine hrun.move i ?_ ?_
  · simp [Protocol.move, hget, Protocol.step]
  · simpa [Discipline.Permits, hget] using hok

end Uninterrupted

end Sections

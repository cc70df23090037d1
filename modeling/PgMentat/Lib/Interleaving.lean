import PgMentat.Lib.Program

namespace StatementProgram

open List

/-- A statement that has been executed: its reply, the private state before and after it, and its
row writes. -/
structure Executed (S : Type) (R : S → Type) (ρ O : Type) where
  stmt : S
  reply : R stmt
  before : ρ
  after : ρ
  writes : List O

/-- A transaction in progress. -/
structure Session (S : Type) (R : S → Type) (ε ρ σ O α : Type) where
  program : Program S R ε α
  state : ρ
  trace : List (Executed S R ρ O)
  /-- The committed state that the statement in progress sees. -/
  snapshot : Option σ

/-- The committed state and the transactions that have not ended. -/
structure World (ι S : Type) (R : S → Type) (ε ρ σ O α : Type) where
  committed : σ
  session : ι → Option (Session S R ε ρ σ O α)

variable {ι S : Type} {R : S → Type} {ε ρ σ O α κ : Type}

def writesOf (trace : List (Executed S R ρ O)) : List O := trace.flatMap Executed.writes

def Session.start (p : Program S R ε α) (r : ρ) : Session S R ε ρ σ O α := ⟨p, r, [], none⟩

def World.start (c : σ) (p : ι → Program S R ε α) (r : ι → ρ) : World ι S R ε ρ σ O α :=
  ⟨c, fun i => some (.start (p i) (r i))⟩

section World

variable [DecidableEq ι]

def World.set (w : World ι S R ε ρ σ O α) (i : ι) (s : Option (Session S R ε ρ σ O α)) :
    World ι S R ε ρ σ O α :=
  { w with session := Function.update w.session i s }

/-- The locks a session holds until it ends. -/
def Session.held (locks : S → List O → List κ) (s : Session S R ε ρ σ O α) : List κ :=
  s.trace.flatMap fun t => locks t.stmt t.writes

inductive Step (srv : Server S R ε ρ σ O) (locks : S → List O → List κ)
    (w : World ι S R ε ρ σ O α) :
    World ι S R ε ρ σ O α → Prop
  | snapshot {i s} (hs : w.session i = some s) :
      Step srv locks w (w.set i (some { s with snapshot := some w.committed }))
  | execute {i s c q k x r ops} (hs : w.session i = some s) (hsnapshot : s.snapshot = some c)
      (hprogram : s.program = .call q k)
      (hanswer : srv.answer q s.state (srv.writeAll c (writesOf s.trace)) = .ok (x, r, ops))
      (hfree : ∀ j t, j ≠ i → w.session j = some t → ∀ l ∈ locks q ops, l ∉ t.held locks) :
      Step srv locks w (w.set i (some ⟨k x, r, s.trace ++ [⟨q, x, s.state, r, ops⟩], none⟩))
  | commit {i s a} (hs : w.session i = some s) (hprogram : s.program = .ret a) :
      Step srv locks w
        { w.set i none with committed := srv.writeAll w.committed (writesOf s.trace) }

/-- The states reached by steps that all end in a state with the property `ok`. -/
inductive Steps (srv : Server S R ε ρ σ O) (locks : S → List O → List κ)
    (ok : World ι S R ε ρ σ O α → Prop) (w : World ι S R ε ρ σ O α) : World ι S R ε ρ σ O α → Prop
  | refl : Steps srv locks ok w w
  | tail {w' w''} (hw : Steps srv locks ok w w') (hstep : Step srv locks w' w'') (hok : ok w'') :
      Steps srv locks ok w w''

variable {srv : Server S R ε ρ σ O} {ok : World ι S R ε ρ σ O α → Prop} {w : World ι S R ε ρ σ O α}

theorem Steps.trans {locks : S → List O → List κ} {w' w'' : World ι S R ε ρ σ O α}
    (h : Steps srv locks ok w w') (h' : Steps srv locks ok w' w'') : Steps srv locks ok w w'' := by
  induction h' with
  | refl => exact h
  | tail _ hstep hok ih => exact .tail ih hstep hok

theorem World.set_session (w : World ι S R ε ρ σ O α) (i j : ι)
    (s : Option (Session S R ε ρ σ O α)) :
    (w.set i s).session j = if j = i then s else w.session j := by
  simp only [set, Function.update_apply]

theorem World.set_set (w : World ι S R ε ρ σ O α) (i : ι) (s s' : Option (Session S R ε ρ σ O α)) :
    (w.set i s).set i s' = w.set i s' := by
  simp only [set, Function.update_idem]

theorem Steps.statement {locks : S → List O → List κ} {i : ι} {s : Session S R ε ρ σ O α} {q : S}
    {k : R q → Program S R ε α} {x : R q} {r : ρ} {ops : List O} (hs : w.session i = some s)
    (hprogram : s.program = .call q k)
    (hanswer : srv.answer q s.state (srv.writeAll w.committed (writesOf s.trace)) = .ok (x, r, ops))
    (hfree : ∀ j t, j ≠ i → w.session j = some t → ∀ l ∈ locks q ops, l ∉ t.held locks)
    (hstarted : ok (w.set i (some { s with snapshot := some w.committed })))
    (hok : ok (w.set i (some ⟨k x, r, s.trace ++ [⟨q, x, s.state, r, ops⟩], none⟩))) :
    Steps srv locks ok w (w.set i (some ⟨k x, r, s.trace ++ [⟨q, x, s.state, r, ops⟩], none⟩)) := by
  have hsession : (w.set i (some { s with snapshot := some w.committed })).session i =
      some { s with snapshot := some w.committed } := by
    rw [World.set_session, if_pos rfl]
  have hexecute : Step srv locks _ _ := .execute hsession rfl hprogram hanswer
    fun j t hj ht => hfree j t hj (by rwa [World.set_session, if_neg hj] at ht)
  rw [World.set_set] at hexecute
  exact .tail (.tail .refl (.snapshot hs) hstarted) hexecute hok

end World

section Undisturbed

variable (srv : Server S R ε ρ σ O) (free : S → Prop)

/-- Issued one after another on the state `c`, the statements are answered as they were, except
for the replies to `free` statements. -/
def Confirmed (c : σ) : List O → List (Executed S R ρ O) → Prop
  | _, [] => True
  | writes, t :: trace =>
    (∃ x, srv.answer t.stmt t.before (srv.writeAll c writes) = .ok (x, t.after, t.writes) ∧
      (x = t.reply ∨ free t.stmt)) ∧
    Confirmed c (writes ++ t.writes) trace

theorem confirmed_append {srv : Server S R ε ρ σ O} {free : S → Prop} {c : σ} {writes : List O}
    {xs ys : List (Executed S R ρ O)} :
    Confirmed srv free c writes (xs ++ ys) ↔
      Confirmed srv free c writes xs ∧ Confirmed srv free c (writes ++ writesOf xs) ys := by
  induction xs generalizing writes with
  | nil => simp [Confirmed, writesOf]
  | cons t xs ih =>
    simp only [cons_append, Confirmed, ih, writesOf, flatMap_cons, append_assoc,
      and_assoc]

/-- Every statement that an open transaction has executed would now be answered as it was. -/
def World.Undisturbed (w : World ι S R ε ρ σ O α) : Prop :=
  ∀ i s, w.session i = some s → Confirmed srv free w.committed [] s.trace

end Undisturbed

/-- The programs issue the same statements, even if the replies to `free` statements differ, and
their results are related by `Q`. -/
inductive Program.Similar (free : S → Prop) {α β : Type} (Q : α → β → Prop) :
    Program S R ε α → Program S R ε β → Prop
  | ret {a b} (h : Q a b) : Similar free Q (.ret a) (.ret b)
  | fail (e : ε) : Similar free Q (.fail e) (.fail e)
  | call {q k k'} (h : ∀ x y, x = y ∨ free q → Similar free Q (k x) (k' y)) :
      Similar free Q (.call q k) (.call q k')

section Similar

variable {free : S → Prop} {β γ δ : Type} {Q : α → β → Prop} {Q' : γ → δ → Prop}

variable {p : Program S R ε α}

theorem Program.Similar.bind {p' : Program S R ε β} {f : α → Program S R ε γ}
    {f' : β → Program S R ε δ} (h : p.Similar free Q p')
    (hf : ∀ a b, Q a b → (f a).Similar free Q' (f' b)) : (p >>= f).Similar free Q' (p' >>= f') := by
  induction h with
  | ret h => exact hf _ _ h
  | fail e => exact .fail e
  | call h ih => exact .call fun x y hxy => ih x y hxy

theorem Program.similar_issue (q : S) :
    (issue q : Program S R ε (R q)).Similar free (fun x y => x = y ∨ free q) (issue q) :=
  .call fun _ _ h => .ret h

theorem Program.similar_of_only (h : p.Only fun s => ¬ free s) : p.Similar free Eq p := by
  induction p with
  | ret a => exact .ret rfl
  | fail e => exact .fail e
  | call q k ih =>
    refine .call fun x y hxy => ?_
    obtain rfl := hxy.resolve_right h.1
    exact ih x (h.2 x)

end Similar

section Serial

variable {srv : Server S R ε ρ σ O} {free : S → Prop}

/-- The executed statements lead from one program to another. -/
inductive Follows : Program S R ε α → ρ → List (Executed S R ρ O) → Program S R ε α → ρ → Prop
  | nil {p r} : Follows p r [] p r
  | cons {q k x r r₁ ops trace p' r'} (h : Follows (k x) r₁ trace p' r') :
      Follows (.call q k) r (⟨q, x, r, r₁, ops⟩ :: trace) p' r'

variable {trace : List (Executed S R ρ O)} {order : List ι}

theorem Follows.snoc {p : Program S R ε α} {r r' r1 : ρ} {q : S} {k : R q → Program S R ε α}
    (h : Follows p r trace (.call q k) r') (x : R q) (ops : List O) :
    Follows p r (trace ++ [⟨q, x, r', r1, ops⟩]) (k x) r1 := by
  generalize hp' : Program.call q k = p' at h
  induction h with
  | nil =>
    subst hp'
    exact .cons .nil
  | cons _ ih => exact .cons (ih hp')

theorem run_of_confirmed {p p' : Program S R ε α} {Q : α → α → Prop} {r r' : ρ} {a : α} {c : σ}
    {writes : List O} (hfollows : Follows p r trace (.ret a) r') (hsim : p.Similar free Q p')
    (hconf : Confirmed srv free c writes trace) :
    ∃ b, srv.run p' r (srv.writeAll c writes) =
      .ok (b, r', srv.writeAll c (writes ++ writesOf trace)) := by
  generalize hend : Program.ret a = e at hfollows
  induction hfollows generalizing p' writes with
  | nil =>
    subst hend
    cases hsim with
    | @ret _ b => exact ⟨b, by simp [Server.run, writesOf]⟩
  | cons _ ih =>
    cases hsim with
    | call hsim =>
      obtain ⟨⟨y, hans, hy⟩, hrest⟩ := hconf
      obtain ⟨b, hb⟩ := ih (hsim _ y (hy.imp_left Eq.symm)) hrest hend
      refine ⟨b, ?_⟩
      simp only [Server.run, hans, writesOf, flatMap_cons]
      rw [← Server.writeAll_append, hb, append_assoc, writesOf]

/-- The programs in the given order, each run alone on the state its predecessor leaves. -/
inductive Serial (srv : Server S R ε ρ σ O) (p : ι → Program S R ε α) (r : ι → ρ) (c : σ) :
    List ι → σ → Prop
  | nil : Serial srv p r c [] c
  | snoc {order c' i a r' c''} (h : Serial srv p r c order c')
      (hrun : srv.run (p i) (r i) c' = .ok (a, r', c'')) : Serial srv p r c (order ++ [i]) c''

theorem serial_nil {p : ι → Program S R ε α} {r : ι → ρ} {c c' : σ}
    (h : Serial srv p r c [] c') : c' = c := by
  generalize horder : ([] : List ι) = order at h
  cases h with
  | nil => rfl
  | snoc => simp at horder

theorem serial_snoc {p : ι → Program S R ε α} {r : ι → ρ} {c c'' : σ} {i : ι}
    (h : Serial srv p r c (order ++ [i]) c'') :
    ∃ c' a r', Serial srv p r c order c' ∧ srv.run (p i) (r i) c' = .ok (a, r', c'') := by
  generalize horder : order ++ [i] = order' at h
  cases h with
  | nil => simp at horder
  | snoc h hrun =>
    obtain ⟨rfl, hi⟩ := append_inj' horder rfl
    cases hi
    exact ⟨_, _, _, h, hrun⟩

variable [DecidableEq ι] {locks : S → List O → List κ} {p : ι → Program S R ε α} {r : ι → ρ} {c : σ}
  {w w' : World ι S R ε ρ σ O α}

/-- Open transactions follow their programs, and the others have run one after another. -/
structure World.Inv (srv : Server S R ε ρ σ O) (p : ι → Program S R ε α) (r : ι → ρ) (c : σ)
    (w : World ι S R ε ρ σ O α) (order : List ι) : Prop where
  follows : ∀ i s, w.session i = some s → Follows (p i) (r i) s.trace s.program s.state
  nodup : order.Nodup
  ended : ∀ i, i ∈ order ↔ w.session i = none
  serial : Serial srv p r c order w.committed

omit [DecidableEq ι] in
theorem World.inv_start : (World.start c p r).Inv srv p r c [] where
  follows := by
    intro i s hs
    cases hs
    exact .nil
  nodup := nodup_nil
  ended := by simp [World.start]
  serial := .nil

theorem World.Inv.set_some (h : w.Inv srv p r c order) {i : ι} {s s' : Session S R ε ρ σ O α}
    (hs : w.session i = some s) (hfollows : Follows (p i) (r i) s'.trace s'.program s'.state) :
    (w.set i (some s')).Inv srv p r c order where
  follows := by
    intro j t ht
    rw [World.set_session] at ht
    split at ht
    · cases ht
      exact ‹j = i› ▸ hfollows
    · exact h.follows j t ht
  nodup := h.nodup
  ended := by
    intro j
    rw [World.set_session, h.ended]
    split
    · simp [‹j = i›, hs]
    · rfl
  serial := h.serial

theorem Step.inv {order : List ι} (hstep : Step srv locks w w') (h : w.Inv srv p r c order)
    (hundisturbed : w.Undisturbed srv free)
    (hsim : ∀ i, (p i).Similar free (fun _ _ => True) (p i)) :
    ∃ order', w'.Inv srv p r c order' := by
  cases hstep with
  | snapshot hs =>
    have hfollows := h.follows _ _ hs
    exact ⟨order, h.set_some hs hfollows⟩
  | execute hs _ hprogram _ _ =>
    refine ⟨order, h.set_some hs ?_⟩
    have hfollows := h.follows _ _ hs
    rw [hprogram] at hfollows
    exact hfollows.snoc _ _
  | @commit i s a hs hprogram =>
    have hfollows := h.follows _ _ hs
    rw [hprogram] at hfollows
    obtain ⟨b, hrun⟩ := run_of_confirmed hfollows (hsim i) (hundisturbed i s hs)
    refine ⟨order ++ [i], fun j t ht => ?_, ?_, fun j => ?_, h.serial.snoc hrun⟩
    · rw [World.set_session] at ht
      split at ht
      · cases ht
      · exact h.follows j t ht
    · rw [nodup_append]
      refine ⟨h.nodup, pairwise_singleton _ i, fun j hj j' hj' heq => ?_⟩
      rw [mem_singleton.mp hj'] at heq
      rw [heq, h.ended, hs] at hj
      cases hj
    · rw [mem_append, mem_singleton, h.ended, World.set_session]
      split
      · simp [*]
      · simp [*]

/-- If no commit disturbs an open transaction, the committed state is that of the transactions run
one after another in the order in which they have committed. -/
theorem Steps.serial (hsteps : Steps srv locks (World.Undisturbed srv free) (.start c p r) w)
    (hsim : ∀ i, (p i).Similar free (fun _ _ => True) (p i)) :
    ∃ order, order.Nodup ∧ (∀ i, i ∈ order ↔ w.session i = none) ∧
      Serial srv p r c order w.committed := by
  suffices hinv : w.Undisturbed srv free ∧ ∃ order, w.Inv srv p r c order by
    obtain ⟨-, order, h⟩ := hinv
    exact ⟨order, h.nodup, h.ended, h.serial⟩
  induction hsteps with
  | refl =>
    refine ⟨fun i s hs => ?_, [], World.inv_start⟩
    cases hs
    trivial
  | tail _ hstep hok ih =>
    obtain ⟨hundisturbed, order, h⟩ := ih
    exact ⟨hok, hstep.inv h hundisturbed hsim⟩

end Serial

end StatementProgram

import Mathlib.Data.List.Basic

namespace StatementProgram

open List

/-- A program that issues statements `s : S`, receives replies in `R s`, and may stop with an
error. -/
inductive Program (S : Type) (R : S → Type) (ε α : Type) where
  | ret (a : α)
  | fail (e : ε)
  | call (s : S) (k : R s → Program S R ε α)

namespace Program

variable {S : Type} {R : S → Type} {ε α β : Type}

def bind : Program S R ε α → (α → Program S R ε β) → Program S R ε β
  | .ret a, f => f a
  | .fail e, _ => .fail e
  | .call s k, f => .call s fun r => (k r).bind f

instance : Monad (Program S R ε) where
  pure := .ret
  bind := bind

def issue (s : S) : Program S R ε (R s) := .call s .ret

/-- A computation without statements. -/
def ofExcept : Except ε α → Program S R ε α
  | .ok a => .ret a
  | .error e => .fail e

@[simp] theorem pure_eq_ret (a : α) : (pure a : Program S R ε α) = .ret a := rfl

@[simp] theorem ret_bind (a : α) (f : α → Program S R ε β) : (ret a >>= f) = f a := rfl

@[simp] theorem fail_bind (e : ε) (f : α → Program S R ε β) :
    ((fail e : Program S R ε α) >>= f) = .fail e := rfl

@[simp] theorem call_bind (s : S) (k : R s → Program S R ε α) (f : α → Program S R ε β) :
    (call s k >>= f) = .call s fun r => k r >>= f := rfl

/-- Every statement the program can issue, whatever the replies, satisfies `A`. -/
def Only (A : S → Prop) : Program S R ε α → Prop
  | .ret _ => True
  | .fail _ => True
  | .call s k => A s ∧ ∀ r, (k r).Only A

section Only

variable {A B : S → Prop}

@[simp] theorem only_issue (s : S) : (issue s : Program S R ε (R s)).Only A ↔ A s :=
  ⟨fun h => h.1, fun h => ⟨h, fun _ => trivial⟩⟩

theorem only_ofExcept (x : Except ε α) : (ofExcept x : Program S R ε α).Only A := by
  cases x <;> exact trivial

variable {p : Program S R ε α}

theorem Only.bind {f : α → Program S R ε β} (hp : p.Only A) (hf : ∀ a, (f a).Only A) :
    (p >>= f).Only A := by
  induction p with
  | ret a => exact hf a
  | fail e => exact trivial
  | call s k ih => exact ⟨hp.1, fun r => ih r (hp.2 r)⟩

theorem Only.mono (hp : p.Only A) (hAB : ∀ s, A s → B s) : p.Only B := by
  induction p with
  | ret a | fail e => exact trivial
  | call s k ih => exact ⟨hAB s hp.1, fun r => ih r (hp.2 r)⟩

theorem Only.foldlM {f : β → α → Program S R ε β} (xs : List α) (b : β)
    (hf : ∀ b, ∀ x ∈ xs, (f b x).Only A) : (xs.foldlM f b).Only A := by
  induction xs generalizing b with
  | nil => exact trivial
  | cons x xs ih =>
    refine Only.bind (hf b x mem_cons_self) fun b' => ?_
    exact ih b' fun b'' y hy => hf b'' y (mem_cons_of_mem x hy)

end Only

end Program

/-- A server with shared state `σ` and a session's private state `ρ`. A statement is answered
against both; its row writes `O` are applied to the shared state. -/
structure Server (S : Type) (R : S → Type) (ε ρ σ O : Type) where
  answer : (s : S) → ρ → σ → Except ε (R s × ρ × List O)
  write : σ → O → σ

namespace Server

variable {S : Type} {R : S → Type} {ε ρ σ O α β : Type} (srv : Server S R ε ρ σ O)

def writeAll (s : σ) (ops : List O) : σ := ops.foldl srv.write s

@[simp] theorem writeAll_nil (s : σ) : srv.writeAll s [] = s := rfl

theorem writeAll_append (s : σ) (xs ys : List O) :
    srv.writeAll s (xs ++ ys) = srv.writeAll (srv.writeAll s xs) ys :=
  foldl_append

/-- Run a program alone: every write takes effect at once. -/
def run : Program S R ε α → ρ → σ → Except ε (α × ρ × σ)
  | .ret a, r, s => .ok (a, r, s)
  | .fail e, _, _ => .error e
  | .call q k, r, s =>
    match srv.answer q r s with
    | .error e => .error e
    | .ok (x, r', ops) => run (k x) r' (srv.writeAll s ops)

theorem run_bind (p : Program S R ε α) (f : α → Program S R ε β) (r : ρ) (s : σ) :
    srv.run (p >>= f) r s =
      match srv.run p r s with
      | .ok (a, r', s') => srv.run (f a) r' s'
      | .error e => .error e := by
  induction p generalizing r s with
  | ret a | fail e => rfl
  | call q k ih =>
    simp only [Program.call_bind, run]
    cases srv.answer q r s with
    | error e => rfl
    | ok reply => exact ih reply.1 reply.2.1 (srv.writeAll s reply.2.2)

variable {p : Program S R ε α} {f : α → Program S R ε β} {xs : List α} {b : β} {I : ρ → σ → Prop}

theorem run_bind_eq_ok {r r'' : ρ} {s s'' : σ} {y : β}
    (h : srv.run (p >>= f) r s = .ok (y, r'', s'')) :
    ∃ a r' s', srv.run p r s = .ok (a, r', s') ∧ srv.run (f a) r' s' = .ok (y, r'', s'') := by
  rw [run_bind] at h
  cases hp : srv.run p r s with
  | error e => simp only [hp, reduceCtorEq] at h
  | ok out =>
    obtain ⟨a, r', s'⟩ := out
    rw [hp] at h
    exact ⟨a, r', s', rfl, h⟩

/-- Every run of `p` from `(r, s)` that ends without an error ends in `Q`. -/
def Ensures (p : Program S R ε α) (r : ρ) (s : σ) (Q : α → ρ → σ → Prop) : Prop :=
  ∀ a r' s', srv.run p r s = .ok (a, r', s') → Q a r' s'

variable {srv} {r : ρ} {s : σ} {Q Q' : α → ρ → σ → Prop}

@[simp] theorem ensures_ret (a : α) : srv.Ensures (.ret a) r s Q ↔ Q a r s := by
  constructor
  · intro h
    exact h a r s rfl
  · intro h a' r' s' hrun
    cases hrun
    exact h

@[simp] theorem ensures_fail (e : ε) : srv.Ensures (.fail e) r s Q := by
  intro a r' s' hrun
  cases hrun

theorem ensures_call (q : S) (k : R q → Program S R ε α) :
    srv.Ensures (.call q k) r s Q ↔
      ∀ x r' ops, srv.answer q r s = .ok (x, r', ops) →
        srv.Ensures (k x) r' (srv.writeAll s ops) Q := by
  constructor
  · intro h x r' ops hans a r'' s'' hrun
    apply h
    simpa only [run, hans] using hrun
  · intro h a r' s' hrun
    cases hans : srv.answer q r s with
    | error e => simp only [run, hans, reduceCtorEq] at hrun
    | ok reply =>
      obtain ⟨x, r1, ops⟩ := reply
      simp only [run, hans] at hrun
      exact h x r1 ops hans a r' s' hrun

theorem ensures_issue (q : S) {Q : R q → ρ → σ → Prop} :
    srv.Ensures (Program.issue q) r s Q ↔
      ∀ x r' ops, srv.answer q r s = .ok (x, r', ops) → Q x r' (srv.writeAll s ops) := by
  simp only [Program.issue, ensures_call, ensures_ret]

theorem ensures_bind (p : Program S R ε α) (f : α → Program S R ε β) {Q : β → ρ → σ → Prop} :
    srv.Ensures (p >>= f) r s Q ↔
      srv.Ensures p r s fun a r' s' => srv.Ensures (f a) r' s' Q := by
  induction p generalizing r s with
  | ret a => simp only [Program.ret_bind, ensures_ret]
  | fail e => simp only [Program.fail_bind, ensures_fail]
  | call q k ih => simp only [Program.call_bind, ensures_call, ih]

theorem ensures_ofExcept (x : Except ε α) :
    srv.Ensures (.ofExcept x) r s Q ↔ ∀ a, x = .ok a → Q a r s := by
  cases x with
  | ok a | error e => simp [Program.ofExcept]

theorem Ensures.mono (h : srv.Ensures p r s Q) (hQ : ∀ a r' s', Q a r' s' → Q' a r' s') :
    srv.Ensures p r s Q' :=
  fun a r' s' hrun => hQ a r' s' (h a r' s' hrun)

theorem Ensures.and (h : srv.Ensures p r s Q) (h' : srv.Ensures p r s Q') :
    srv.Ensures p r s fun a r' s' => Q a r' s' ∧ Q' a r' s' :=
  fun a r' s' hrun => ⟨h a r' s' hrun, h' a r' s' hrun⟩

theorem ensures_foldlM {f : β → α → Program S R ε β} (I : List α → β → ρ → σ → Prop)
    (hinit : I [] b r s) (hstep : ∀ done x rest b r s, xs = done ++ x :: rest → I done b r s →
      srv.Ensures (f b x) r s (I (done ++ [x]))) : srv.Ensures (xs.foldlM f b) r s (I xs) := by
  suffices hgen : ∀ (rest done : List α) b r s, xs = done ++ rest → I done b r s →
      srv.Ensures (rest.foldlM f b) r s (I xs) from hgen xs [] b r s rfl hinit
  intro rest
  induction rest with
  | nil =>
    intro done b r s hxs hI
    rw [append_nil] at hxs
    subst hxs
    exact (ensures_ret b).mpr hI
  | cons x rest ih =>
    intro done b r s hxs hI
    rw [foldlM_cons, ensures_bind]
    refine (hstep done x rest b r s hxs hI).mono fun b' r' s' hI' => ?_
    exact ih (done ++ [x]) b' r' s' (by simpa using hxs) hI'

/-- A property of the server's state that every permitted statement keeps is kept by every
program that issues no other statement. -/
theorem ensures_of_only {A : S → Prop}
    (hstmt : ∀ q r s x r' ops, A q → I r s → srv.answer q r s = .ok (x, r', ops) →
      I r' (srv.writeAll s ops)) (hp : p.Only A) (hI : I r s) :
    srv.Ensures p r s fun _ r' s' => I r' s' := by
  induction p generalizing r s with
  | ret a => exact (ensures_ret a).mpr hI
  | fail e => exact ensures_fail e
  | call q k ih =>
    refine (ensures_call q k).mpr fun x r' ops hans => ?_
    exact ih x (hp.2 x) (hstmt q r s x r' ops hp.1 hI hans)

theorem ensures_of_answer (hstmt : ∀ q r s x r' ops, I r s → srv.answer q r s = .ok (x, r', ops) →
      I r' (srv.writeAll s ops)) (hI : I r s) : srv.Ensures p r s fun _ r' s' => I r' s' := by
  have hall : p.Only fun _ => True := by
    induction p with
    | ret a | fail e => trivial
    | call q k ih => exact ⟨trivial, ih⟩
  exact ensures_of_only (fun q r s x r' ops _ hrs h => hstmt q r s x r' ops hrs h) hall hI

theorem ensures_of_write {I : σ → Prop} (hwrite : ∀ s op, I s → I (srv.write s op)) (hI : I s) :
    srv.Ensures p r s fun _ _ s' => I s' := by
  refine ensures_of_answer (I := fun _ s' => I s') (fun q r s x r' ops hs hans => ?_) hI
  clear hans
  induction ops generalizing s with
  | nil => exact hs
  | cons op ops ih => exact ih (srv.write s op) (hwrite s op hs)

/-- Every run of `p` from `(r, s)` that ends with an error ends with one in `E`. -/
def FailsWith (srv : Server S R ε ρ σ O) (p : Program S R ε α) (r : ρ) (s : σ) (E : ε → Prop) :
    Prop :=
  ∀ e, srv.run p r s = .error e → E e

variable {E : ε → Prop}

theorem failsWith_ret (a : α) : srv.FailsWith (.ret a) r s E := by
  intro e h
  cases h

theorem failsWith_fail {e : ε} (h : E e) : srv.FailsWith (.fail e : Program S R ε α) r s E := by
  intro e' h'
  cases h'
  exact h

theorem failsWith_issue {q : S} (h : ∀ e, srv.answer q r s = .error e → E e) :
    srv.FailsWith (Program.issue q) r s E := by
  intro e hrun
  cases hans : srv.answer q r s with
  | error e' =>
    simp only [Program.issue, run, hans, Except.error.injEq] at hrun
    exact h e (hrun ▸ hans)
  | ok reply => simp only [Program.issue, run, hans, reduceCtorEq] at hrun

theorem failsWith_ofExcept {x : Except ε α} (h : ∀ e, x = .error e → E e) :
    srv.FailsWith (.ofExcept x) r s E := by
  cases x with
  | ok a => exact failsWith_ret a
  | error e => exact failsWith_fail (h e rfl)

theorem FailsWith.bind (hp : srv.FailsWith p r s E)
    (hf : srv.Ensures p r s fun a r' s' => srv.FailsWith (f a) r' s' E) :
    srv.FailsWith (p >>= f) r s E := by
  intro e hrun
  rw [run_bind] at hrun
  cases h : srv.run p r s with
  | error e' =>
    rw [h] at hrun
    cases hrun
    exact hp e h
  | ok out =>
    obtain ⟨a, r', s'⟩ := out
    rw [h] at hrun
    exact hf a r' s' h e hrun

theorem FailsWith.bind_all (hp : srv.FailsWith p r s E)
    (hf : ∀ a r' s', srv.FailsWith (f a) r' s' E) : srv.FailsWith (p >>= f) r s E :=
  hp.bind fun a r' s' _ => hf a r' s'

theorem FailsWith.foldlM {f : β → α → Program S R ε β} (I : List α → β → ρ → σ → Prop)
    (hinit : I [] b r s) (hstep : ∀ done x rest b r s, xs = done ++ x :: rest → I done b r s →
      srv.FailsWith (f b x) r s E ∧ srv.Ensures (f b x) r s (I (done ++ [x]))) :
    srv.FailsWith (xs.foldlM f b) r s E := by
  suffices hgen : ∀ (rest done : List α) b r s, xs = done ++ rest → I done b r s →
      srv.FailsWith (rest.foldlM f b) r s E from hgen xs [] b r s rfl hinit
  intro rest
  induction rest with
  | nil =>
    intro done b r s hxs hI
    exact failsWith_ret b
  | cons x rest ih =>
    intro done b r s hxs hI
    obtain ⟨hfails, hensures⟩ := hstep done x rest b r s hxs hI
    rw [foldlM_cons]
    refine hfails.bind (hensures.mono fun b' r' s' hI' => ?_)
    exact ih (done ++ [x]) b' r' s' (by simpa using hxs) hI'

theorem failsWith_foldlM {f : β → α → Program S R ε β} {xs : List α} {b : β}
    (h : ∀ b x r s, srv.FailsWith (f b x) r s E) : srv.FailsWith (xs.foldlM f b) r s E := by
  refine FailsWith.foldlM (fun _ _ _ _ => True) trivial fun done x rest b r s _ _ => ?_
  exact ⟨h b x r s, fun _ _ _ _ => trivial⟩

theorem exists_run (h : srv.FailsWith p r s fun _ => False) :
    ∃ a r' s', srv.run p r s = .ok (a, r', s') := by
  cases hrun : srv.run p r s with
  | error e => exact (h e hrun).elim
  | ok out => exact ⟨out.1, out.2.1, out.2.2, rfl⟩

end Server

section Outcomes

variable {ε α β : Type}

instance decidableEqOk [DecidableEq α] (x : Except ε α) (a : α) : Decidable (x = .ok a) :=
  match x with
  | .ok b => decidable_of_iff (b = a) (by simp)
  | .error _ => isFalse (by simp)

instance decidableExistsOk (x : Except ε α) (P : α → Prop) [DecidablePred P] :
    Decidable (∃ a, x = .ok a ∧ P a) :=
  match x with
  | .ok a => decidable_of_iff (P a) (by simp)
  | .error _ => isFalse (by simp)

instance decidableExistsPair (x : Except ε (α × β)) (P : α → β → Prop) [∀ a b, Decidable (P a b)] :
    Decidable (∃ a b, x = .ok (a, b) ∧ P a b) :=
  decidable_of_iff (∃ out, x = .ok out ∧ P out.1 out.2) Prod.exists

instance decidableForallOk (x : Except ε α) (P : α → Prop) [DecidablePred P] :
    Decidable (∀ a, x = .ok a → P a) :=
  match x with
  | .ok a => decidable_of_iff (P a) (by simp)
  | .error _ => isTrue (by simp)

instance decidableExistsSome (x : Option α) (P : α → Prop) [DecidablePred P] :
    Decidable (∃ a, x = some a ∧ P a) :=
  inferInstanceAs (Decidable (∃ a ∈ x, P a))

-- this comes before the search through a finite type, such as that of the 64-bit integers
instance decidableForallMem (x : Option α) (P : α → Prop) [DecidablePred P] :
    Decidable (∀ a ∈ x, P a) :=
  Option.decidableForallMem x

end Outcomes

end StatementProgram

import Mathlib.Data.List.Basic

abbrev Reader (σ ε α : Type) := StateT (List σ) (Except ε) α

namespace Reader

variable {σ ε α β : Type}

/-- The next `n` symbols; `short` is the error of an input with fewer. -/
def take (short : Nat → Nat → ε) (n : Nat) : Reader σ ε (List σ) := fun input =>
  if input.length < n then .error (short n input.length) else .ok (input.take n, input.drop n)

/-- The same reader `n` times. -/
def times (p : Reader σ ε α) : Nat → Reader σ ε (List α)
  | 0 => pure []
  | n + 1 => do
    let a ← p
    let as ← times p n
    return a :: as

/-- On the text, followed by anything, the reader answers `a` and leaves what follows. -/
def Reads (p : Reader σ ε α) (text : List σ) (a : α) : Prop :=
  ∀ rest, p (text ++ rest) = .ok (a, rest)

variable {p : Reader σ ε α} {f : α → Reader σ ε β} {text text' : List σ} {a : α} {b : β}

theorem bind_apply (p : Reader σ ε α) (f : α → Reader σ ε β) (input : List σ) :
    (p >>= f) input = p input >>= fun result => f result.1 result.2 := rfl

theorem Reads.pure (a : α) : Reads (σ := σ) (ε := ε) (pure a) [] a := fun _ => rfl

theorem Reads.bind (hp : Reads p text a) (hf : Reads (f a) text' b) :
    Reads (p >>= f) (text ++ text') b := by
  intro rest
  rw [bind_apply, List.append_assoc, hp (text' ++ rest)]
  exact hf rest

theorem Reads.map (hp : Reads p text a) (g : α → β) : Reads (g <$> p) text (g a) := by
  intro rest
  rw [← bind_pure_comp, bind_apply, hp rest]
  rfl

theorem reads_take (short : Nat → Nat → ε) (text : List σ) :
    Reads (take short text.length) text text := by
  intro rest
  simp [take]

theorem Reads.times_succ {n : Nat} {as : List α} (hp : Reads p text a)
    (hps : Reads (times p n) text' as) : Reads (times p (n + 1)) (text ++ text') (a :: as) :=
  hp.bind (hps.map _)

theorem reads_times {texts : List (List σ)} {as : List α}
    (h : List.Forall₂ (Reads p) texts as) : Reads (times p as.length) texts.flatten as := by
  induction h with
  | nil => exact .pure []
  | cons hhead _ ih =>
    rw [List.flatten_cons]
    exact hhead.times_succ ih

end Reader

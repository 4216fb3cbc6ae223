/-!
# Programs with a state, exceptions and crashes

`Exec σ ε` is the type of programs on a state `σ` that return a value, raise an
exception of `ε`, or crash.  An exception leaves the state as it is at the
moment of the raise; nothing is undone.

Two kinds of statements are made about a program, with the rules for sequential
composition.  `Triple` speaks of one execution: a precondition, and one
postcondition each for a return and for a raise.  `Rel` compares two executions
of the same program from different states: they end in the same way, with the
same value or exception, in related states.
-/

namespace Nachos.Lib

/-- A program.  `none` is a crash. -/
def Exec (σ ε α : Type) : Type := σ → Option (Except ε α × σ)

namespace Exec

variable {σ ε α β : Type}

instance : Monad (Exec σ ε) where
  pure a := fun s => some (.ok a, s)
  bind p f := fun s =>
    match p s with
    | none => none
    | some (.error e, s') => some (.error e, s')
    | some (.ok a, s') => f a s'

/-- End with an exception. -/
def raise (e : ε) : Exec σ ε α := fun s => some (.error e, s)

/-- End the whole program. -/
def crash : Exec σ ε α := fun _ => none

theorem bind_apply (p : Exec σ ε α) (f : α → Exec σ ε β) (s : σ) :
    (p >>= f) s =
      match p s with
      | none => none
      | some (.error e, s') => some (.error e, s')
      | some (.ok a, s') => f a s' := rfl

/-! ## One execution -/

/-- From a state in `P` the program returns in a state in `Q`, raises in a state
in `E`, or crashes. -/
def Triple (P : σ → Prop) (p : Exec σ ε α) (Q : α → σ → Prop) (E : ε → σ → Prop) : Prop :=
  ∀ s, P s → ∀ r s', p s = some (r, s') →
    match r with
    | .ok a => Q a s'
    | .error e => E e s'

section Triple

variable {P P' : σ → Prop} {Q Q' : α → σ → Prop} {E E' : ε → σ → Prop}

theorem Triple.pure {a : α} (h : ∀ s, P s → Q a s) : Triple P (pure a) Q E := by
  intro s hs r s' hrun
  cases hrun
  exact h s hs

theorem Triple.raise {e : ε} (h : ∀ s, P s → E e s) : Triple P (Exec.raise e) Q E := by
  intro s hs r s' hrun
  cases hrun
  exact h s hs

theorem Triple.crash : Triple P (Exec.crash : Exec σ ε α) Q E := by
  intro s _ r s' hrun
  cases hrun

theorem Triple.bind {p : Exec σ ε α} {f : α → Exec σ ε β} {Q' : β → σ → Prop}
    (hp : Triple P p Q E) (hf : ∀ a, Triple (Q a) (f a) Q' E) : Triple P (p >>= f) Q' E := by
  intro s hs r s' hrun
  rw [bind_apply] at hrun
  cases hmid : p s with
  | none =>
      rw [hmid] at hrun
      cases hrun
  | some x =>
      obtain ⟨r', s1⟩ := x
      have hpost := hp s hs r' s1 hmid
      rw [hmid] at hrun
      cases r' with
      | error e =>
          cases hrun
          exact hpost
      | ok a => exact hf a s1 hpost r s' hrun

theorem Triple.mono {p : Exec σ ε α} (h : Triple P p Q E) (hP : ∀ s, P' s → P s)
    (hQ : ∀ a s, Q a s → Q' a s) (hE : ∀ e s, E e s → E' e s) : Triple P' p Q' E' := by
  intro s hs r s' hrun
  have hpost := h s (hP s hs) r s' hrun
  cases r with
  | error e => exact hE e s' hpost
  | ok a => exact hQ a s' hpost

end Triple

/-! ## Two executions -/

/-- Two results that differ in the state only. -/
inductive Related (Q : α → σ → σ → Prop) (E : ε → σ → σ → Prop) :
    Option (Except ε α × σ) → Option (Except ε α × σ) → Prop where
  | crash : Related Q E none none
  | ok {a : α} {s t : σ} (h : Q a s t) : Related Q E (some (.ok a, s)) (some (.ok a, t))
  | error {e : ε} {s t : σ} (h : E e s t) :
      Related Q E (some (.error e, s)) (some (.error e, t))

/-- From two states related by `R` the program ends in the same way, in states
related by `Q` after a return and by `E` after a raise. -/
def Rel (R : σ → σ → Prop) (p : Exec σ ε α) (Q : α → σ → σ → Prop) (E : ε → σ → σ → Prop) :
    Prop :=
  ∀ s t, R s t → Related Q E (p s) (p t)

section Rel

variable {R R' : σ → σ → Prop} {Q Q' : α → σ → σ → Prop} {E E' : ε → σ → σ → Prop}

theorem Rel.pure {a : α} (h : ∀ s t, R s t → Q a s t) : Rel R (pure a) Q E :=
  fun s t hst => .ok (h s t hst)

theorem Rel.raise {e : ε} (h : ∀ s t, R s t → E e s t) : Rel R (Exec.raise e) Q E :=
  fun s t hst => .error (h s t hst)

theorem Rel.crash : Rel R (Exec.crash : Exec σ ε α) Q E :=
  fun _ _ _ => .crash

theorem Rel.bind {p : Exec σ ε α} {f : α → Exec σ ε β} {Q' : β → σ → σ → Prop}
    (hp : Rel R p Q E) (hf : ∀ a, Rel (Q a) (f a) Q' E) : Rel R (p >>= f) Q' E := by
  intro s t hst
  have hmid := hp s t hst
  rw [bind_apply, bind_apply]
  generalize p s = x, p t = y at hmid
  cases hmid with
  | crash => exact .crash
  | ok h => exact hf _ _ _ h
  | error h => exact .error h

theorem Rel.mono {p : Exec σ ε α} (h : Rel R p Q E) (hR : ∀ s t, R' s t → R s t)
    (hQ : ∀ a s t, Q a s t → Q' a s t) (hE : ∀ e s t, E e s t → E' e s t) :
    Rel R' p Q' E' := by
  intro s t hst
  have hend := h s t (hR s t hst)
  generalize p s = x, p t = y at hend
  cases hend with
  | crash => exact .crash
  | ok h => exact .ok (hQ _ _ _ h)
  | error h => exact .error (hE _ _ _ h)

end Rel

end Exec

end Nachos.Lib

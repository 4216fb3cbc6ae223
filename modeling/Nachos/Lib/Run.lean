import Mathlib.Data.Option.Basic

/-!
# Runs of a transition system

A transition system is a function `step : S → A → Option S`.  The action
carries every choice that the step leaves open, so one list of actions is one
run.  A step that cannot be taken, or that ends the program, is `none`.

`run` folds a list of actions.  `Along` says that a condition on the state
before a step, and on the action, holds at every step of a run.

`run_invariant` is the induction rule: a predicate that every admissible step
keeps holds in every state that an admissible run reaches.

`trace` is the history of a run: what its steps emit.  `trace_invariant` is the
induction rule for a relation between the state and the history.  `run_history`
and `run_progress` are the rules for a loop over a fixed list, where the history
is the part of the list behind the loop.

`respond` is the run of a system whose steps have replies, and
`respond_simulates` is the rule for two such systems: where every step of the
specification is answered by the implementation with the same reply, so is
every run.
-/

namespace Nachos.Lib

variable {S A : Type*} {step : S → A → Option S} {as : List A} {ok : S → A → Prop} {s s' : S}

/-- The state after a list of actions, or `none` when one of them cannot be
taken. -/
def run (step : S → A → Option S) : S → List A → Option S
  | s, [] => some s
  | s, a :: as => (step s a).bind fun s' => run step s' as

/-- The condition `ok` holds before every step of the run of `as` from `s`. -/
def Along (step : S → A → Option S) (ok : S → A → Prop) : S → List A → Prop
  | _, [] => True
  | s, a :: as => ok s a ∧
      match step s a with
      | none => True
      | some s' => Along step ok s' as

/-- A run with decidable side conditions can be checked by evaluation. -/
def decidableAlong (step : S → A → Option S) (ok : S → A → Prop)
    [∀ s a, Decidable (ok s a)] :
    ∀ (s : S) (as : List A), Decidable (Along step ok s as)
  | _, [] => isTrue trivial
  | s, a :: as =>
      have : Decidable (match step s a with
          | none => True
          | some s' => Along step ok s' as) :=
        match step s a with
        | none => isTrue trivial
        | some s' => decidableAlong step ok s' as
      inferInstanceAs (Decidable (ok s a ∧ _))

instance (step : S → A → Option S) (ok : S → A → Prop)
    [∀ s a, Decidable (ok s a)] (s : S) (as : List A) :
    Decidable (Along step ok s as) :=
  decidableAlong step ok s as

@[simp] theorem run_nil (step : S → A → Option S) (s : S) :
    run step s [] = some s := rfl

/-- The first step of a run and the rest of it. -/
theorem run_cons_eq_some {a : A} :
    run step s (a :: as) = some s' ↔
      ∃ m, step s a = some m ∧ run step m as = some s' := by
  simp [run, Option.bind_eq_some_iff]

/-- One run after another. -/
theorem run_append (step : S → A → Option S) (s : S) (as bs : List A) :
    run step s (as ++ bs) = (run step s as).bind fun s' => run step s' bs := by
  induction as generalizing s with
  | nil => rfl
  | cons a as ih =>
    cases h : step s a with
    | none => simp [run, h]
    | some s' => simp [run, h, ih]

/-- The condition at the first step, and along the rest. -/
theorem along_cons {s m : S} {a : A} (hstep : step s a = some m) :
    Along step ok s (a :: as) ↔ ok s a ∧ Along step ok m as := by
  simp [Along, hstep]

/-- The condition along one run after another. -/
theorem along_append {as bs : List A} (h : Along step ok s as) (hrun : run step s as = some s')
    (h' : Along step ok s' bs) : Along step ok s (as ++ bs) := by
  induction as generalizing s with
  | nil =>
    cases hrun
    exact h'
  | cons a as ih =>
    obtain ⟨m, hm, hrest⟩ := run_cons_eq_some.mp hrun
    obtain ⟨ha, has⟩ := (along_cons hm).mp h
    exact (along_cons hm).mpr ⟨ha, ih has hrest⟩

/-- A predicate that every admissible step keeps holds after every admissible
run. -/
theorem run_invariant {I : S → Prop} (hstep : ∀ s a s', I s → ok s a → step s a = some s' → I s')
    (h0 : I s) (hok : Along step ok s as) (hrun : run step s as = some s') : I s' := by
  induction as generalizing s with
  | nil =>
    simp only [run_nil, Option.some.injEq] at hrun
    exact hrun ▸ h0
  | cons a as ih =>
    obtain ⟨m, hm, hrest⟩ := run_cons_eq_some.mp hrun
    obtain ⟨ha, has⟩ := (along_cons hm).mp hok
    exact ih (hstep s a m h0 ha hm) has hrest

/-- A condition that holds everywhere holds along every run. -/
theorem along_of_forall (h : ∀ s a, ok s a) (s : S) (as : List A) : Along step ok s as := by
  induction as generalizing s with
  | nil => trivial
  | cons a as ih =>
    refine ⟨h s a, ?_⟩
    cases step s a with
    | none => trivial
    | some s' => exact ih s'

/-- A predicate that every step keeps holds after every run. -/
theorem run_preserves {I : S → Prop} (hstep : ∀ s a s', I s → step s a = some s' → I s') (h0 : I s)
    (hrun : run step s as = some s') : I s' := by
  have hok : Along step (fun _ _ => True) s as := along_of_forall (fun _ _ => trivial) s as
  exact run_invariant (fun s a s' h _ => hstep s a s' h) h0 hok hrun

/-! ## Histories -/

/-- What the steps of the run of `as` from `s` emit. -/
def trace {E : Type*} (step : S → A → Option S) (emit : S → A → List E) : S → List A → List E
  | _, [] => []
  | s, a :: as => emit s a ++
      match step s a with
      | none => []
      | some s' => trace step emit s' as

/-- What is in the history has been emitted by a step. -/
theorem mem_trace {E : Type*} {emit : S → A → List E} {s : S}
    {e : E} (h : e ∈ trace step emit s as) : ∃ m a, e ∈ emit m a := by
  induction as generalizing s with
  | nil => cases h
  | cons a as ih =>
    rcases List.mem_append.mp h with h | h
    · exact ⟨s, a, h⟩
    · split at h
      · cases h
      · exact ih h

/-- A relation between the state and the history that every admissible step
keeps holds after every admissible run. -/
theorem trace_invariant {E : Type*} {emit : S → A → List E} {I : S → List E → Prop}
    (hstep : ∀ s h a s', I s h → ok s a → step s a = some s' → I s' (h ++ emit s a)) {h : List E}
    (h0 : I s h) (hok : Along step ok s as) (hrun : run step s as = some s') :
    I s' (h ++ trace step emit s as) := by
  induction as generalizing s h with
  | nil =>
    obtain rfl := Option.some.inj hrun
    simpa [trace] using h0
  | cons a as ih =>
    obtain ⟨m, hm, hrest⟩ := run_cons_eq_some.mp hrun
    obtain ⟨ha, has⟩ := (along_cons hm).mp hok
    have hnext := ih (hstep s h a m h0 ha hm) has hrest
    rw [List.append_assoc] at hnext
    simpa [trace, hm] using hnext

/-- A relation between the state and the part of the list that is done holds at
the end of the list. -/
theorem run_history {I : S → List A → Prop} {all : List A}
    (hstep : ∀ s h a rest s', all = h ++ a :: rest → I s h → step s a = some s' → I s' (h ++ [a]))
    {h as : List A} (hall : all = h ++ as) (h0 : I s h) (hrun : run step s as = some s') :
    I s' all := by
  induction as generalizing s h with
  | nil =>
    obtain rfl := Option.some.inj hrun
    rw [hall, List.append_nil]
    exact h0
  | cons a as ih =>
    obtain ⟨m, hm, hrest⟩ := run_cons_eq_some.mp hrun
    have hnext := hstep s h a as m hall h0 hm
    exact ih (by rw [hall, List.append_assoc, List.singleton_append]) hnext hrest

/-- If every step can be taken, so can the whole list. -/
theorem run_progress {I : S → List A → Prop} {all : List A}
    (hstep : ∀ s h a rest, all = h ++ a :: rest → I s h →
      ∃ s', step s a = some s' ∧ I s' (h ++ [a]))
    {s : S} {h as : List A} (hall : all = h ++ as) (h0 : I s h) :
    ∃ s', run step s as = some s' := by
  induction as generalizing s h with
  | nil => exact ⟨s, rfl⟩
  | cons a as ih =>
    obtain ⟨m, hm, hnext⟩ := hstep s h a as hall h0
    obtain ⟨s', hs'⟩ := ih (by rw [hall, List.append_assoc, List.singleton_append]) hnext
    exact ⟨s', run_cons_eq_some.mpr ⟨m, hm, hs'⟩⟩

/-! ## Replies -/

variable {T R : Type*}

/-- The replies to a list of requests, and the state after them. -/
def respond (step : S → A → Option (R × S)) : S → List A → Option (List R × S)
  | s, [] => some ([], s)
  | s, a :: as =>
      (step s a).bind fun x => (respond step x.2 as).map fun y => (x.1 :: y.1, y.2)

theorem respond_cons_eq_some {step : S → A → Option (R × S)} {a : A}
    {rs : List R} : respond step s (a :: as) = some (rs, s') ↔
      ∃ r m rs', step s a = some (r, m) ∧ respond step m as = some (rs', s') ∧ rs = r :: rs' := by
  simp only [respond, Option.bind_eq_some_iff, Option.map_eq_some_iff, Prod.mk.injEq, Prod.exists]
  constructor
  · rintro ⟨r, m, hm, rs', s'', hrest, rfl, rfl⟩
    exact ⟨r, m, rs', hm, hrest, rfl⟩
  · rintro ⟨r, m, rs', hm, hrest, rfl⟩
    exact ⟨r, m, hm, rs', s', hrest, rfl, rfl⟩

/-- A simulation of single steps is a simulation of runs. -/
theorem respond_simulates {impl : S → A → Option (R × S)} {spec : T → A → Option (R × T)}
    {I : S → T → Prop}
    (hstep : ∀ s t a r t', I s t → spec t a = some (r, t') →
      ∃ s', impl s a = some (r, s') ∧ I s' t')
    {s : S} {t t' : T} {rs : List R} (h0 : I s t)
    (hspec : respond spec t as = some (rs, t')) :
    ∃ s', respond impl s as = some (rs, s') ∧ I s' t' := by
  induction as generalizing s t rs with
  | nil =>
    simp only [respond, Option.some.injEq, Prod.mk.injEq] at hspec
    obtain ⟨rfl, rfl⟩ := hspec
    exact ⟨s, rfl, h0⟩
  | cons a as ih =>
    obtain ⟨r, m, rs', hm, hrest, rfl⟩ := respond_cons_eq_some.mp hspec
    obtain ⟨s1, hs1, h1⟩ := hstep s t a r m h0 hm
    obtain ⟨s2, hs2, h2⟩ := ih h1 hrest
    exact ⟨s2, respond_cons_eq_some.mpr ⟨r, s1, rs', hs1, hs2, rfl⟩, h2⟩

end Nachos.Lib

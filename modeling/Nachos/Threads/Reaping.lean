import Nachos.Threads.Queues

/-!
# Deletion of finished threads

A thread that calls `Finish` cannot delete itself.  It stores itself in
`threadToBeDestroyed` and sleeps, and the code after `SWITCH` in
`Scheduler::Run` deletes it in the thread that runs next.  That code runs only
in a thread that was switched out before.  A thread that is dispatched for the
first time starts in `ThreadRoot`, and leaves `threadToBeDestroyed` as it is.

`Reaped` says that every finished thread except the recorded one has been
deleted, and that its id and its pointer slot no longer belong to it.

* `finished_threads_forgotten` is a run in which two new threads finish one
  after the other.  The second `Finish` overwrites the record of the first
  thread, and that thread is never deleted.
* `finished_threads_reaped`: as long as `Finish` is called only when
  `threadToBeDestroyed` is `NULL`, every finished thread is deleted.

`SchedStep` lists what one step of the kernel can do to the dispatcher state.
-/

namespace Nachos.Threads

open Function Lib

/-! ## The effect of a step on the dispatcher -/

/-- The effects of a step on the dispatcher state, other than a call of
`Finish` and a deletion. -/
inductive SchedStep (s : Sched) : Sched → Prop where
  | same : SchedStep s s
  | wake (q : QueueId) : SchedStep s (s.wake q)
  | wakeAll (q : QueueId) : SchedStep s (s.wakeAll q)
  | block (q : QueueId) : SchedStep s (s.block q)
  | newThread {s' : Sched} {p : Int} (h : s.newThread p = some s') : SchedStep s s'
  | fork (t : ThreadPtr) : SchedStep s (s.readyToRun t)
  | setPriority (p : Int) : SchedStep s (s.setPriority p)
  | yield {e : ListElement ThreadPtr} {es : NachosList ThreadPtr}
      (h : s.readyList = e :: es) :
      SchedStep s (({ s with readyList := es }.readyToRun s.currentThread).run e.item)
  | sleep {e : ListElement ThreadPtr} {es : NachosList ThreadPtr}
      (h : s.readyList = e :: es) :
      SchedStep s ({ s with readyList := es }.run e.item)

namespace Kernel

variable {ι σ η : Type} {prog : Program ι σ η} {k k' : Kernel ι σ}
  {rest : List (Instr ι)}

theorem schedStep_pTest (s : SemId) : SchedStep k.sched (k.pTest s rest).sched := by
  unfold pTest
  split
  · exact .block _
  · exact .same

theorem schedStep_yield : SchedStep k.sched (k.yield rest).sched := by
  unfold yield
  cases hl : k.sched.readyList with
  | nil =>
    simp only [Sched.findNextToRun, hl, NachosList.remove_nil]
    exact .same
  | cons e es =>
    simp only [Sched.findNextToRun, hl, NachosList.remove_cons]
    exact .yield hl

theorem schedStep_sleep : SchedStep k.sched (k.sleep rest).sched := by
  unfold sleep
  cases hl : k.sched.readyList with
  | nil =>
    simp only [Sched.findNextToRun, hl, NachosList.remove_nil]
    exact .same
  | cons e es =>
    simp only [Sched.findNextToRun, hl, NachosList.remove_cons]
    exact .sleep hl

theorem schedStep_setLevel (l : IntStatus) :
    SchedStep k.sched (k.setLevel l rest).sched := by
  unfold setLevel
  split
  · exact .same
  · exact .same

theorem schedStep_execCall {c : Call ι} (hfin : c ≠ .finish)
    (h : k.execCall prog rest c = some k') : SchedStep k.sched k'.sched := by
  cases c with
  | newThread pr =>
    obtain ⟨s, hs, rfl⟩ := Option.map_eq_some_iff.mp h
    exact .newThread hs
  | fork t func =>
    cases h
    exact .fork t
  | setPriority pr =>
    cases h
    exact .setPriority pr
  | yield =>
    cases h
    exact schedStep_yield
  | finish => exact absurd rfl hfin
  | p n =>
    cases h
    exact schedStep_pTest (k := k.disable) (.sem n)
  | v n | release l | wait c l =>
    cases h
    exact .wake _
  | acquire l =>
    cases h
    exact schedStep_pTest (k := k.disable) (.lock l)
  | signal c l =>
    cases h
    simp only [signal]
    split
    · exact .wake _
    · exact .same
  | broadcast c l =>
    cases h
    simp only [broadcast]
    split
    · exact .wakeAll _
    · exact .same
  | oneTick =>
    cases h
    exact .same
  | client i =>
    obtain ⟨r, _, rfl⟩ := Option.map_eq_some_iff.mp h
    exact .same

theorem schedStep_execInstr {i : Instr ι} (hfin : i ≠ .call .finish)
    (hswitch : i ≠ .afterSwitch) (h : k.execInstr prog rest i = some k') :
    SchedStep k.sched k'.sched := by
  cases i with
  | call c => exact schedStep_execCall (fun hc => hfin (by rw [hc])) h
  | setLevel l =>
    cases h
    exact schedStep_setLevel l
  | dueLoop =>
    cases h
    simp only [dueDone]
    split
    · exact .same
    · exact .same
  | sleep =>
    cases h
    exact schedStep_sleep
  | idle | acquired l | waitReturn c l =>
    cases h
    exact .same
  | pLoop s =>
    cases h
    exact schedStep_pTest s
  | waitAppend c =>
    cases h
    exact .block _
  | afterSwitch => exact absurd rfl hswitch
  | threadRoot =>
    cases h
    exact schedStep_setLevel .intOn
  | notReached => cases h

/-- A step calls `Finish`, or it is the deletion after `SWITCH`, or it does
one of the other effects. -/
theorem step_sched {a : Action ι η} (h : k.step prog a = some k') :
    (∃ rest, a = .exec ∧ k.code k.cur = .call .finish :: rest ∧
        k'.sched = k.sched.finish) ∨
      (∃ rest, a = .exec ∧ k.code k.cur = .afterSwitch :: rest ∧
        k.sched.reap = some k'.sched) ∨
      SchedStep k.sched k'.sched := by
  cases a with
  | start cs | timer =>
    simp only [step] at h
    split at h
    · cases h
      exact Or.inr (Or.inr .same)
    · cases h
  | exec =>
    simp only [step] at h
    split at h
    · cases h
    · rename_i i rest hcode
      by_cases hfin : i = .call .finish
      · subst hfin
        cases h
        exact Or.inl ⟨rest, rfl, hcode, rfl⟩
      · by_cases hswitch : i = .afterSwitch
        · subst hswitch
          obtain ⟨s, hs, rfl⟩ := Option.map_eq_some_iff.mp h
          exact Or.inr (Or.inl ⟨rest, rfl, hcode, hs⟩)
        · exact Or.inr (Or.inr (schedStep_execInstr hfin hswitch h))
  | interrupt d =>
    simp only [step] at h
    split at h
    · obtain ⟨r, _, rfl⟩ := Option.map_eq_some_iff.mp h
      exact Or.inr (Or.inr .same)
    · cases h

end Kernel

/-! ## Which effects delete a thread -/

namespace Sched

/-- What is known about the objects and their ends. -/
def lifecycle (s : Sched) :
    Nat × ThreadIds × (ThreadPtr → Bool) × (ThreadPtr → Bool) × Option ThreadPtr :=
  (s.created, s.ids, s.finished, s.destroyed, s.threadToBeDestroyed)

theorem wake_lifecycle (s : Sched) (q : QueueId) : (s.wake q).lifecycle = s.lifecycle := by
  cases hq : s.queue q with
  | nil => rw [wake_nil s q hq]
  | cons e es =>
    rw [wake_cons s q hq]
    rfl

theorem wakeAll_lifecycle (s : Sched) (q : QueueId) :
    (s.wakeAll q).lifecycle = s.lifecycle :=
  wakeAll_congr s q fun s => wake_lifecycle s q

/-- Of these effects only the construction of an object changes what is known
about the objects. -/
theorem lifecycle_of_schedStep {s s' : Sched} (h : SchedStep s s') :
    s'.lifecycle = s.lifecycle ∨ ∃ p, s.newThread p = some s' := by
  cases h with
  | wake q => exact Or.inl (wake_lifecycle s q)
  | wakeAll q => exact Or.inl (wakeAll_lifecycle s q)
  | newThread h => exact Or.inr ⟨_, h⟩
  | same | block | fork | setPriority | yield | sleep => exact Or.inl rfl

/-- Every finished thread has been deleted or is recorded for deletion. -/
def NoneForgotten (s : Sched) : Prop :=
  ∀ t, s.finished t = true → s.destroyed t = true ∨ s.threadToBeDestroyed = some t

theorem NoneForgotten.finish {s : Sched} (h : s.NoneForgotten)
    (hnull : s.threadToBeDestroyed = none) : s.finish.NoneForgotten := by
  intro t ht
  by_cases hcur : t = s.currentThread
  · rw [hcur]
    exact Or.inr rfl
  · have hfin : s.finished t = true := by
      simpa [Sched.finish, setStatus, update_of_ne hcur] using ht
    rcases h t hfin with hd | hd
    · exact Or.inl hd
    · rw [hnull] at hd
      cases hd

theorem NoneForgotten.reap {s s' : Sched} (h : s.NoneForgotten) (hr : s.reap = some s') :
    s'.NoneForgotten := by
  rcases reap_spec hr with ⟨rfl, _⟩ | ⟨u, hu, _, rfl⟩
  · exact h
  · intro t hfin
    by_cases htu : t = u
    · rw [htu]
      exact Or.inl (by simp)
    · rcases h t hfin with hd | hd
      · exact Or.inl (by simpa [update_of_ne htu] using hd)
      · rw [hu] at hd
        exact absurd (Option.some.inj hd).symm htu

theorem NoneForgotten.schedStep {s s' : Sched} (h : s.NoneForgotten)
    (hs : SchedStep s s') : s'.NoneForgotten := by
  rcases lifecycle_of_schedStep hs with heq | ⟨p, hn⟩
  · simp only [lifecycle, Prod.mk.injEq] at heq
    obtain ⟨_, _, hf, hd, ht⟩ := heq
    intro t hfin
    rw [hf] at hfin
    rw [hd, ht]
    exact h t hfin
  · obtain ⟨ids, _, rfl⟩ := newThread_spec hn
    exact h

end Sched

/-! ## The property over runs -/

namespace Kernel

variable {ι σ η : Type}

/-- Every finished thread that is not recorded in `threadToBeDestroyed` has
been deleted: its id is free and its pointer slot is `NULL`, unless a thread
that exists now has taken the id over. -/
def Reaped (k : Kernel ι σ) : Prop :=
  ∀ t, k.sched.finished t = true → k.sched.threadToBeDestroyed ≠ some t →
    k.sched.destroyed t = true ∧
      (k.sched.ids.threadIDOccupied (k.sched.ids.tid t) = false ∧
          k.sched.ids.threadPoiners (k.sched.ids.tid t) = none ∨
        ∃ u, u ≠ t ∧ k.sched.Live u ∧ k.sched.ids.tid u = k.sched.ids.tid t ∧
          k.sched.ids.threadPoiners (k.sched.ids.tid t) = some u)

/-- `Finish` is called only when `threadToBeDestroyed` is `NULL`. -/
def FinishWhenNull (k : Kernel ι σ) (a : Action ι η) : Prop :=
  match a, k.code k.cur with
  | .exec, .call .finish :: _ => k.sched.threadToBeDestroyed = none
  | _, _ => True

instance (k : Kernel ι σ) (a : Action ι η) : Decidable (k.FinishWhenNull a) :=
  decidable_of_iff
    ((match a, k.code k.cur with
      | .exec, .call .finish :: _ => decide (k.sched.threadToBeDestroyed = none)
      | _, _ => true) = true)
    (by unfold FinishWhenNull; split <;> simp)

/-- One step keeps the record of the finished threads complete. -/
theorem noneForgotten_step {prog : Program ι σ η} {k k' : Kernel ι σ} {a : Action ι η}
    (h : k.sched.NoneForgotten) (hok : k.FinishWhenNull a)
    (hstep : k.step prog a = some k') : k'.sched.NoneForgotten := by
  rcases step_sched hstep with ⟨rest, rfl, hcode, hs⟩ | ⟨_, _, _, hr⟩ | hs
  · rw [hs]
    refine h.finish ?_
    simpa [FinishWhenNull, hcode] using hok
  · exact h.reap hr
  · exact h.schedStep hs

/-- A deleted thread no longer owns its id. -/
theorem reaped_of_noneForgotten {k : Kernel ι σ} (hc : k.Control)
    (h : k.sched.NoneForgotten) : k.Reaped := by
  intro t hfin hne
  have hd : k.sched.destroyed t = true := by
    rcases h t hfin with hd | hd
    · exact hd
    · exact absurd hd hne
  refine ⟨hd, ?_⟩
  have hv := hc.sched.ids_valid
  cases hocc : k.sched.ids.threadIDOccupied (k.sched.ids.tid t) with
  | false => exact Or.inl ⟨rfl, hv.null_of_free _ hocc⟩
  | true =>
    obtain ⟨u, hu, hut⟩ := (hv.occupied_iff _).mp hocc
    have hp := hv.poiner_eq u hu
    rw [hut] at hp
    refine Or.inr ⟨u, ?_, hu, hut, hp⟩
    rintro rfl
    rw [hu.2] at hd
    cases hd

/-- In every run in which each thread is forked once and `Finish` is called
only when `threadToBeDestroyed` is `NULL`, every finished thread except the
recorded one has been deleted, in every state. -/
theorem finished_threads_reaped (prog : Program ι σ η) (initialValue : Nat → Int)
    (holding : Nat → Option ThreadPtr) (shared : σ) (as : List (Action ι η))
    (k : Kernel ι σ)
    (hok : Along (step prog) (fun k a => k.ForkOnce a ∧ k.FinishWhenNull a)
      (init initialValue holding shared) as)
    (hrun : run (step prog) (init initialValue holding shared) as = some k) :
    k.Reaped := by
  have hinv : k.Control ∧ k.sched.NoneForgotten := by
    refine run_invariant (I := fun k => k.Control ∧ k.sched.NoneForgotten) ?_ ?_ hok hrun
    · intro k1 a k2 h hok hstep
      exact ⟨control_step h.1 hok.1 hstep, noneForgotten_step h.2 hok.2 hstep⟩
    · refine ⟨control_init _ _ _, fun t ht => ?_⟩
      simp [init, Sched.init] at ht
  exact reaped_of_noneForgotten hinv.1 hinv.2

/-- A program whose thread function returns at once. -/
def returning : Program Unit Unit Nat where
  exec _ _ _ := some ((), [])
  handler _ _ := none

/-- One forked thread finishes, and the main thread resumes and deletes it. -/
theorem finished_threads_reaped_one : ∃ k : Kernel Unit Unit,
    run (step returning) (init (fun _ => 0) (fun _ => none) ()) (forkOne 13) = some k ∧
      k.sched.finished 1 = true ∧ k.sched.threadToBeDestroyed = none ∧ k.Reaped :=
  ⟨_, rfl, rfl, rfl, finished_threads_reaped returning (fun _ => 0) (fun _ => none) ()
    (forkOne 13) _ (by decide) rfl⟩

/-- The main thread forks two threads and yields. -/
def forkTwo : List (Action Unit Nat) :=
  .start [.newThread 255, .fork 1 (), .newThread 255, .fork 2 (), .yield] ::
    List.replicate 22 .exec

/-- Two forked threads finish one after the other.  The second is dispatched
for the first time when the first finishes, so nothing deletes the first
before the second overwrites the record.  When the main thread is back in its
own code, thread `1` has finished, is not recorded, and has not been
deleted. -/
theorem finished_threads_forgotten : ¬ ∀ (as : List (Action Unit Nat))
    (k : Kernel Unit Unit),
    Along (step returning) ForkOnce (init (fun _ => 0) (fun _ => none) ()) as →
    run (step returning) (init (fun _ => 0) (fun _ => none) ()) as = some k →
    k.level = .intOn → k.code k.cur = [] → k.Reaped := by
  intro hclaim
  obtain ⟨k, hrun, hon, hcode, hfin, hnull, hlost⟩ : ∃ k : Kernel Unit Unit,
      run (step returning) (init (fun _ => 0) (fun _ => none) ()) forkTwo = some k ∧
        k.level = .intOn ∧ k.code k.cur = [] ∧ k.sched.finished 1 = true ∧
        k.sched.threadToBeDestroyed = none ∧ k.sched.destroyed 1 = false :=
    ⟨_, rfl, rfl, rfl, rfl, rfl, rfl⟩
  have hreaped := hclaim forkTwo k (by decide) hrun hon hcode
  have hdestroyed := (hreaped 1 hfin (by rw [hnull]; simp)).1
  rw [hlost] at hdestroyed
  cases hdestroyed

end Kernel

end Nachos.Threads

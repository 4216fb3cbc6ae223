import Nachos.Threads.Synch
import Nachos.Threads.Priority

/-!
# Context switches

A context switch leaves the old thread inside `Scheduler::Run`, behind `SWITCH`,
and the next thread goes on from there, or it starts in `ThreadRoot`.  So
`afterSwitch` is only ever the next instruction of a thread, never a later one.

`step_dispatch` and `step_stay` say what a step does to the code of the threads:
a step that dispatches leaves the old thread at `afterSwitch`, and every other
step goes on in the current thread.
-/

namespace Nachos.Threads.Kernel

open Function Lib

variable {ι σ η : Type} {prog : Program ι σ η} {k k' : Kernel ι σ} {a : Action ι η}
  {rest : List (Instr ι)} {is : List (Instr ι)} {k1 : Kernel ι σ}

/-- The step calls `Scheduler::Run`. -/
def dispatches (k : Kernel ι σ) : Action ι η → Bool
  | .exec =>
      match k.code k.cur with
      | i :: _ => findsNext i && !k.sched.readyList.isEmpty
      | [] => false
  | _ => false

/-- The thread is behind `SWITCH`. -/
def Switched : List (Instr ι) → Prop
  | .afterSwitch :: _ => True
  | _ => False

/-- No thread has a context switch ahead of it. -/
def SwitchFirst (k : Kernel ι σ) : Prop :=
  ∀ t, .afterSwitch ∉ (k.code t).tail

/-- The current thread goes on with `is`. -/
def GoesOn (k k' : Kernel ι σ) (is : List (Instr ι)) : Prop :=
  k'.cur = k.cur ∧ k'.code = update k.code k.cur is ∧ .afterSwitch ∉ is

theorem Switched.not_mem (h : .afterSwitch ∉ is) : ¬Switched is := by
  cases is with
  | nil => exact id
  | cons i is =>
      cases i with
      | afterSwitch => exact absurd List.mem_cons_self h
      | _ => exact id

/-! ## The routines -/

theorem goesOn_setCode (hcur : k1.cur = k.cur)
    (hcode : k1.code = k.code) (his : .afterSwitch ∉ is) : GoesOn k (k1.setCode is) is := by
  refine ⟨hcur, ?_, his⟩
  show update k1.code k1.cur is = _
  rw [hcur, hcode]

theorem goesOn_pTest {s : SemId} (hcur : k1.cur = k.cur)
    (hcode : k1.code = k.code) (hrest : .afterSwitch ∉ rest) :
    ∃ is, GoesOn k (k1.pTest s rest) is := by
  unfold pTest
  split
  · exact ⟨_, goesOn_setCode hcur hcode (by simp [hrest])⟩
  · exact ⟨_, goesOn_setCode hcur hcode hrest⟩

theorem goesOn_v {s : SemId} (hcur : k1.cur = k.cur)
    (hcode : k1.code = k.code) (hrest : .afterSwitch ∉ rest) :
    ∃ is, GoesOn k (k1.v s rest) is := by
  refine ⟨_, goesOn_setCode ?_ hcode
    (show .afterSwitch ∉ .setLevel k1.level :: rest by simp [hrest])⟩
  show (k1.sched.wake (.sem s)).currentThread = k.cur
  rw [Sched.wake_currentThread]
  exact hcur

theorem goesOn_setLevel {l : IntStatus} (hrest : .afterSwitch ∉ rest) :
    ∃ is, GoesOn k (k.setLevel l rest) is := by
  unfold setLevel
  split
  · exact ⟨_, goesOn_setCode rfl rfl (by simp [hrest])⟩
  · exact ⟨_, goesOn_setCode rfl rfl hrest⟩

theorem goesOn_signal {c l : Nat} (hrest : .afterSwitch ∉ rest) :
    ∃ is, GoesOn k (k.signal c l rest) is := by
  refine ⟨_, goesOn_setCode ?_ ?_ (show .afterSwitch ∉ .setLevel k.level :: rest by simp [hrest])⟩
  · split
    · exact Sched.wake_currentThread _ _
    · rfl
  · split <;> rfl

theorem goesOn_broadcast {c l : Nat} (hrest : .afterSwitch ∉ rest) :
    ∃ is, GoesOn k (k.broadcast c l rest) is := by
  refine ⟨_, goesOn_setCode ?_ ?_ (show .afterSwitch ∉ .setLevel k.level :: rest by simp [hrest])⟩
  · split
    · exact Sched.wakeAll_currentThread _ _
    · rfl
  · split <;> rfl

theorem goesOn_dueDone (hrest : .afterSwitch ∉ rest) : ∃ is, GoesOn k (k.dueDone rest) is := by
  unfold dueDone
  split
  · exact ⟨_, goesOn_setCode rfl rfl (by simp [hrest])⟩
  · exact ⟨_, goesOn_setCode rfl rfl hrest⟩

theorem not_mem_map_call (cs : List (Call ι)) (hrest : .afterSwitch ∉ rest) :
    .afterSwitch ∉ cs.map Instr.call ++ rest := by
  simp [hrest]

/-! ## One step -/

/-- `Yield` and `Sleep` with a thread on the ready list. -/
theorem step_dispatch (hd : k.dispatches a = true) (hfirst : .afterSwitch ∉ (k.code k.cur).tail)
    (hstep : k.step prog a = some k') :
    ∃ is, k'.code = update k.code k.cur (.afterSwitch :: is) ∧ .afterSwitch ∉ is ∧
      k'.shared = k.shared ∧ ¬Switched (k.code k.cur) := by
  cases a with
  | exec =>
      cases hcode : k.code k.cur with
      | nil => simp [dispatches, hcode] at hd
      | cons i rest =>
          simp only [dispatches, hcode, Bool.and_eq_true, Bool.not_eq_true'] at hd
          simp only [step, hcode] at hstep
          rw [hcode, List.tail_cons] at hfirst
          obtain ⟨hnext, hready⟩ := hd
          cases hlist : k.sched.readyList with
          | nil => simp [hlist, NachosList.isEmpty] at hready
          | cons e es =>
              cases i with
              | sleep =>
                  rw [← Option.some.inj hstep, sleep, Sched.findNextToRun, hlist]
                  exact ⟨rest, rfl, hfirst, rfl, id⟩
              | call c =>
                  cases c with
                  | yield =>
                      rw [← Option.some.inj hstep, yield, Sched.findNextToRun, hlist]
                      exact ⟨.setLevel k.level :: rest, rfl, by simp [hfirst], rfl, id⟩
                  | _ => cases hnext
              | _ => cases hnext
  | _ => cases hd

/-- A call that does not dispatch. -/
theorem execCall_stay {c : Call ι} (hcode : k.code k.cur = .call c :: rest)
    (hd : k.dispatches (.exec : Action ι η) = false) (hrest : .afterSwitch ∉ rest)
    (hstep : k.execCall prog rest c = some k') :
    (∃ is, GoesOn k k' is) ∨
      ∃ t func is, c = .fork t func ∧
        GoesOn { k with code := update k.code t [.threadRoot, .call (.client func), .call .finish] }
          k' is := by
  have hset : ∀ l, .afterSwitch ∉ (.setLevel l :: rest : List (Instr ι)) := by
    intro l
    simp [hrest]
  cases c with
  | newThread pr =>
      obtain ⟨s, hs, rfl⟩ := Option.map_eq_some_iff.mp hstep
      obtain ⟨ids, _, rfl⟩ := Sched.newThread_spec hs
      exact Or.inl ⟨_, goesOn_setCode rfl rfl hrest⟩
  | fork t func =>
      cases hstep
      exact Or.inr ⟨t, func, _, rfl, goesOn_setCode rfl rfl (hset k.level)⟩
  | setPriority pr =>
      cases hstep
      exact Or.inl ⟨_, goesOn_setCode rfl rfl hrest⟩
  | yield =>
      rw [← Option.some.inj hstep, yield, Sched.findNextToRun]
      cases hlist : k.sched.readyList with
      | nil => exact Or.inl ⟨_, goesOn_setCode rfl rfl (hset k.level)⟩
      | cons e es => simp [dispatches, hcode, findsNext, hlist, NachosList.isEmpty] at hd
  | finish =>
      cases hstep
      exact Or.inl ⟨_, goesOn_setCode rfl rfl (by simp)⟩
  | p n =>
      cases hstep
      exact Or.inl (goesOn_pTest rfl rfl (hset k.level))
  | v n | release l =>
      cases hstep
      exact Or.inl (goesOn_v rfl rfl hrest)
  | acquire l =>
      cases hstep
      exact Or.inl (goesOn_pTest rfl rfl (by simp [hrest]))
  | wait c l =>
      cases hstep
      exact Or.inl (goesOn_v rfl rfl (by simp [hrest]))
  | signal c l =>
      cases hstep
      exact Or.inl (goesOn_signal hrest)
  | broadcast c l =>
      cases hstep
      exact Or.inl (goesOn_broadcast hrest)
  | oneTick =>
      cases hstep
      exact Or.inl ⟨_, goesOn_setCode rfl rfl (by simp [hrest])⟩
  | client i =>
      obtain ⟨r, _, rfl⟩ := Option.map_eq_some_iff.mp hstep
      exact Or.inl ⟨_, goesOn_setCode rfl rfl (not_mem_map_call r.2 hrest)⟩

/-- An instruction that does not dispatch. -/
theorem execInstr_stay {i : Instr ι} (hcode : k.code k.cur = i :: rest)
    (hd : k.dispatches (.exec : Action ι η) = false) (hrest : .afterSwitch ∉ rest)
    (hstep : k.execInstr prog rest i = some k') :
    (∃ is, GoesOn k k' is) ∨
      ∃ t func is, i = .call (.fork t func) ∧
        GoesOn { k with code := update k.code t [.threadRoot, .call (.client func), .call .finish] }
          k' is := by
  cases i with
  | call c =>
      rcases execCall_stay hcode hd hrest hstep with hon | ⟨t, func, is, rfl, hon⟩
      · exact Or.inl hon
      · exact Or.inr ⟨t, func, is, rfl, hon⟩
  | setLevel l | threadRoot =>
      cases hstep
      exact Or.inl (goesOn_setLevel hrest)
  | dueLoop =>
      cases hstep
      exact Or.inl (goesOn_dueDone hrest)
  | sleep =>
      rw [← Option.some.inj hstep, sleep, Sched.findNextToRun]
      cases hlist : k.sched.readyList with
      | nil => exact Or.inl ⟨_, goesOn_setCode rfl rfl (by simp [hrest])⟩
      | cons e es => simp [dispatches, hcode, findsNext, hlist, NachosList.isEmpty] at hd
  | idle | acquired l | waitReturn c l =>
      cases hstep
      exact Or.inl ⟨_, goesOn_setCode rfl rfl hrest⟩
  | pLoop s =>
      cases hstep
      exact Or.inl (goesOn_pTest rfl rfl hrest)
  | waitAppend c =>
      cases hstep
      exact Or.inl ⟨_, goesOn_setCode rfl rfl (by simp [hrest])⟩
  | afterSwitch =>
      obtain ⟨s, hs, rfl⟩ := Option.map_eq_some_iff.mp hstep
      rcases Sched.reap_spec hs with ⟨rfl, _⟩ | ⟨_, _, _, rfl⟩
      all_goals exact Or.inl ⟨_, goesOn_setCode rfl rfl hrest⟩
  | notReached => cases hstep

/-- A thread that invokes interrupt handlers is not behind `SWITCH`. -/
theorem not_mem_of_inDueLoop (h : k.inDueLoop = true)
    (hfirst : .afterSwitch ∉ (k.code k.cur).tail) : .afterSwitch ∉ k.code k.cur := by
  unfold inDueLoop at h
  split at h
  · rename_i hcode
    rw [hcode] at hfirst ⊢
    simpa using hfirst
  · rename_i hcode
    rw [hcode] at hfirst ⊢
    simpa using hfirst
  · cases h

/-- A step that does not dispatch: the current thread goes on, and it may have
given a new thread its code. -/
theorem step_stay (hd : k.dispatches a = false) (hfirst : .afterSwitch ∉ (k.code k.cur).tail)
    (hstep : k.step prog a = some k') :
    (∃ is, GoesOn k k' is) ∨
      ∃ t func rest is, a = .exec ∧ k.code k.cur = .call (.fork t func) :: rest ∧
        GoesOn { k with code := update k.code t [.threadRoot, .call (.client func), .call .finish] }
          k' is := by
  cases a with
  | start cs =>
      simp only [step] at hstep
      split at hstep
      · cases hstep
        exact Or.inl ⟨_, goesOn_setCode rfl rfl (by simp)⟩
      · cases hstep
  | exec =>
      simp only [step] at hstep
      split at hstep
      · cases hstep
      · rename_i i rest hcode
        rw [hcode, List.tail_cons] at hfirst
        rcases execInstr_stay hcode hd hfirst hstep with hon | ⟨t, func, is, rfl, hon⟩
        · exact Or.inl hon
        · exact Or.inr ⟨t, func, rest, is, rfl, hcode, hon⟩
  | interrupt d =>
      simp only [step] at hstep
      split at hstep
      · rename_i hloop
        obtain ⟨r, _, rfl⟩ := Option.map_eq_some_iff.mp hstep
        have hnone := not_mem_of_inDueLoop hloop hfirst
        exact Or.inl ⟨_, goesOn_setCode rfl rfl (by simp [hnone])⟩
      · cases hstep
  | timer =>
      simp only [step] at hstep
      split at hstep
      · rename_i hloop
        cases hstep
        exact Or.inl ⟨k.code k.cur, rfl, (update_eq_self _ _).symm,
          not_mem_of_inDueLoop hloop hfirst⟩
      · cases hstep

/-- A step that does not dispatch stays in the current thread. -/
theorem cur_step (hd : k.dispatches a = false) (hfirst : .afterSwitch ∉ (k.code k.cur).tail)
    (hstep : k.step prog a = some k') : k'.cur = k.cur := by
  rcases step_stay hd hfirst hstep with ⟨_, hgo⟩ | ⟨_, _, _, _, _, _, hgo⟩
  · exact hgo.1
  · exact hgo.1

theorem GoesOn.switched {t : ThreadPtr} (hgo : GoesOn k k' is)
    (ht : Switched (k'.code t)) : t ≠ k.cur ∧ Switched (k.code t) := by
  rw [hgo.2.1] at ht
  by_cases htc : t = k.cur
  · rw [htc, update_self] at ht
    exact absurd ht (Switched.not_mem hgo.2.2)
  · rw [update_of_ne htc] at ht
    exact ⟨htc, ht⟩

/-- A thread that is behind `SWITCH` after a step that does not dispatch was so before.
A thread that is forked starts in `ThreadRoot`. -/
theorem switched_of_stay {t : ThreadPtr} (hd : k.dispatches a = false)
    (hfirst : .afterSwitch ∉ (k.code k.cur).tail) (hstep : k.step prog a = some k')
    (ht : Switched (k'.code t)) : t ≠ k.cur ∧ Switched (k.code t) := by
  rcases step_stay hd hfirst hstep with ⟨is, hgo⟩ | ⟨u, func, rest, is, _, _, hgo⟩
  · exact hgo.switched ht
  · obtain ⟨htc, hcode⟩ := hgo.switched ht
    change Switched (update k.code u _ t) at hcode
    by_cases htu : t = u
    · rw [htu, update_self] at hcode
      exact hcode.elim
    · rw [update_of_ne htu] at hcode
      exact ⟨htc, hcode⟩

theorem not_mem_tail_update {code : ThreadPtr → List (Instr ι)} {u : ThreadPtr}
    (h : ∀ t, .afterSwitch ∉ (code t).tail) (his : .afterSwitch ∉ is.tail)
    (t : ThreadPtr) : .afterSwitch ∉ (update code u is t).tail := by
  by_cases ht : t = u
  · rw [ht, update_self]
    exact his
  · rw [update_of_ne ht]
    exact h t

theorem GoesOn.switchFirst (hgo : GoesOn k k' is) (h : k.SwitchFirst) :
    k'.SwitchFirst := by
  intro t
  rw [hgo.2.1]
  exact not_mem_tail_update h (fun hmem => hgo.2.2 (List.mem_of_mem_tail hmem)) t

/-- A step leaves `afterSwitch` the next instruction of a thread, or none. -/
theorem switchFirst_step (h : k.SwitchFirst) (hstep : k.step prog a = some k') :
    k'.SwitchFirst := by
  cases hd : k.dispatches a with
  | true =>
      obtain ⟨is, hcode, his, _⟩ := step_dispatch hd (h k.cur) hstep
      intro t
      rw [hcode]
      exact not_mem_tail_update h (show .afterSwitch ∉ (.afterSwitch :: is).tail from his) t
  | false =>
      rcases step_stay hd (h k.cur) hstep with ⟨is, hgo⟩ | ⟨t, func, rest, is, _, _, hgo⟩
      · exact hgo.switchFirst h
      · exact hgo.switchFirst fun u => not_mem_tail_update h (by simp) u

end Nachos.Threads.Kernel

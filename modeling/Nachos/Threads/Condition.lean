import Nachos.Threads.Lock

/-!
# Conditions

`Wait` releases the lock, joins the queue of the condition and sleeps, and
takes the lock again before it returns.  It turns interrupts off first.  The
`Release` inside it restores the level that it finds, which is off, so no
other thread runs between the release and the joining.  `Atomic` states this
for every kernel state: only the current thread can be between the two, and
its next instructions are the restore and the joining.

`waiting` reads the history: the threads that have released the lock in
`Wait` and have not been woken, in the order of their release.
-/

namespace Nachos.Threads

open Function Lib

variable {ι σ η : Type}

/-- The threads in `Wait` on condition `c` after an event. -/
def Event.waitingNext (c : Nat) (ws : List ThreadPtr) : Event → List ThreadPtr
  | .waitRelease t c' => if c' = c then ws ++ [t] else ws
  | .wake t c' => if c' = c then ws.erase t else ws
  | _ => ws

/-- The threads that have released their lock in `Wait` on condition `c` and
that no `Signal` or `Broadcast` has woken, the longest-waiting first. -/
def waiting (log : List Event) (c : Nat) : List ThreadPtr :=
  log.foldl (Event.waitingNext c) []

theorem waiting_append (log es : List Event) (c : Nat) :
    waiting (log ++ es) c = es.foldl (Event.waitingNext c) (waiting log c) :=
  List.foldl_append

/-- A wake of the first `n` waiting threads leaves the others. -/
theorem foldl_waitingNext_wake (c n : Nat) (ws : List ThreadPtr) :
    ((ws.take n).map (Event.wake · c)).foldl (Event.waitingNext c) ws = ws.drop n := by
  induction n generalizing ws with
  | zero => simp
  | succ n ih =>
    cases ws with
    | nil => simp
    | cons w ws =>
      rw [List.take_succ_cons, List.map_cons, List.foldl_cons, List.drop_succ_cons]
      simpa [Event.waitingNext] using ih ws

/-- A wake on another condition. -/
theorem foldl_waitingNext_other {c c' : Nat} (hc : c' ≠ c) (us ws : List ThreadPtr) :
    (us.map (Event.wake · c')).foldl (Event.waitingNext c) ws = ws := by
  induction us with
  | nil => rfl
  | cons u us ih =>
    rw [List.map_cons, List.foldl_cons]
    simpa [Event.waitingNext, hc] using ih

namespace Synch

section Steps

variable {m m' : Synch ι σ} {t u : ThreadPtr} {o : Label ι} {c : Nat}
  {prog : Program ι σ η}

/-- Only a call of `Wait` puts a thread before the joining of a queue. -/
theorem waitAppend_step (hstep : Step prog t o m m') (hmem : .waitAppend c ∈ m'.todo u) :
    .waitAppend c ∈ m.todo u ∨ u = t ∧ ∃ l, o = .exec (.call (.wait c l)) := by
  rcases mem_todo_step hstep hmem with hold | hadded
  · exact Or.inl hold
  · right
    cases hadded with
    | fork hj => simp at hj
    | test hi hj => rcases tests_cont hi hj with h | ⟨_, h⟩ <;> cases h
    | @wait c' l _ hj =>
      simp only [List.mem_cons, Instr.waitAppend.injEq, reduceCtorEq, List.not_mem_nil,
        or_false] at hj
      exact ⟨rfl, l, by rw [hj]⟩

/-- The queue of a condition holds the waiting threads.  A thread that has
released its lock and has not joined is the last of them. -/
structure WaitInv (c : Nat) (m : Synch ι σ) : Prop where
  joined : (∀ u, .waitAppend c ∉ m.todo u) → waiting m.log c = m.queue (.cond c)
  joining : ∀ u, .waitAppend c ∈ m.todo u → waiting m.log c = m.queue (.cond c) ++ [u]

/-- A step that neither adds to the waiting threads nor wakes any. -/
theorem WaitInv.keep {e : List Event} (hw : waiting m.log c = m.queue (.cond c))
    (hlog : m'.log = m.log ++ e)
    (hes : e.foldl (Event.waitingNext c) (m.queue (.cond c)) = m'.queue (.cond c))
    (hnone : ∀ u, .waitAppend c ∉ m'.todo u) : WaitInv c m' where
  joined _ := by
    rw [hlog, waiting_append, hw]
    exact hes
  joining u hu := absurd hu (hnone u)

/-- The history of a wake agrees with the queues. -/
theorem foldl_wake (m : Synch ι σ) (c c' n : Nat) :
    (((m.queue (.cond c')).take n).map (Event.wake · c')).foldl (Event.waitingNext c)
      (m.queue (.cond c)) = (m.wake c' n).queue (.cond c) := by
  by_cases hc : c' = c
  · subst hc
    rw [foldl_waitingNext_wake]
    simp [wake, record]
  · have hne : QueueId.cond c ≠ .cond c' := by
      simpa using Ne.symm hc
    rw [foldl_waitingNext_other hc]
    simp [wake, record, update_of_ne hne]

/-- Steps from a state in which no thread is inside `Wait` before the
joining. -/
theorem WaitInv.step (h : WaitInv c m) (hnone : ∀ u c', .waitAppend c' ∉ m.todo u)
    (hstep : Step prog t o m m') : WaitInv c m' := by
  have hw := h.joined fun u => hnone u c
  have hnil : m.log = m.log ++ [] := (List.append_nil _).symm
  have hnone' : (∀ l, o ≠ .exec (.call (.wait c l))) → ∀ u, .waitAppend c ∉ m'.todo u := by
    intro ho u hmem
    rcases waitAppend_step hstep hmem with hmem | ⟨_, l, hl⟩
    · exact hnone u c hmem
    · exact ho l hl
  have hhidden : (∀ i, o = .exec i → i.isSynch = false) → ∀ l, o ≠ .exec (.call (.wait c l)) := by
    intro ho l hl
    cases ho _ hl
  cases hstep with
  | quiet m ho => exact h
  | newThread m ho => exact .keep hw hnil rfl (hnone' (hhidden ho))
  | fork htodo hut hfresh | finish htodo hrest | client sch htodo hs hexec | waitReturn htodo
  | start cs htodo | interrupt hhandler => exact .keep hw hnil rfl (hnone' (by simp))
  | @block _ i rest s cont htodo hi hv =>
    refine .keep hw hnil ?_ (hnone' ?_)
    · simp [setTodo, Synch.block]
    · rintro l ⟨⟩
      cases hi
  | @pass _ i rest s cont htodo hi hv =>
    refine .keep hw rfl rfl (hnone' ?_)
    rintro l ⟨⟩
    cases hi
  | v htodo =>
    refine .keep hw rfl ?_ (hnone' (by simp))
    simp [setTodo, Synch.v, record, Event.waitingNext]
  | @release _ l rest htodo =>
    refine .keep (e := [.release t l, .v (.lock l)]) hw ?_ ?_ (hnone' (by simp))
    · simp [setTodo, Synch.release, Synch.v, record]
    · simp [setTodo, Synch.release, Synch.v, record, Event.waitingNext]
  | @wait _ c' l rest htodo =>
    have hlog : (((m.record [.waitRelease t c']).release t l).setTodo t
        (.waitAppend c' :: .call (.acquire l) :: .waitReturn c' l :: rest)).log =
          m.log ++ [.waitRelease t c', .release t l, .v (.lock l)] := by
      simp [setTodo, Synch.release, Synch.v, record]
    by_cases hc : c' = c
    · subst hc
      constructor
      · intro hno
        exact absurd (by simp [setTodo]) (hno t)
      · intro u hu
        have hut : u = t := by
          by_contra hut
          refine hnone u c' ?_
          simpa [setTodo, update_of_ne hut, Synch.release, Synch.v, record] using hu
        rw [hlog, waiting_append, hw, hut]
        simp [Event.waitingNext, setTodo, Synch.release, Synch.v, record]
    · refine .keep hw hlog ?_ (hnone' ?_)
      · simp [Event.waitingNext, setTodo, Synch.release, Synch.v, record, hc]
      · intro l' hl
        cases hl
        exact hc rfl
  | wake htodo hi hh =>
    refine .keep hw rfl (foldl_wake _ _ _ _) (hnone' ?_)
    rcases wakes_cases hi with rfl | rfl <;> simp
  | noWake htodo hi hh =>
    refine .keep hw hnil rfl (hnone' ?_)
    rcases wakes_cases hi with rfl | rfl <;> simp
  | acquired htodo => exact .keep hw rfl rfl (hnone' (by simp))
  | @waitAppend _ c' rest htodo => exact absurd (by simp [htodo]) (hnone t c')

/-- The thread joins the queue of the condition. -/
theorem WaitInv.join {c' : Nat} {rest : List (Instr ι)} (h : WaitInv c m)
    (htodo : m.todo t = .waitAppend c' :: rest) (hrest : .waitAppend c ∉ rest)
    (hother : ∀ u, u ≠ t → .waitAppend c ∉ m.todo u) :
    WaitInv c (((m.block t (.cond c')).record [.join t c']).setTodo t rest) := by
  have hlog : waiting (((m.block t (.cond c')).record [.join t c']).setTodo t rest).log c =
      waiting m.log c := by
    simp [setTodo, record, Synch.block, waiting_append, Event.waitingNext]
  constructor
  · intro _
    rw [hlog]
    by_cases hc : c' = c
    · subst hc
      rw [h.joining t (by simp [htodo])]
      simp [setTodo, record, Synch.block]
    · have hne : QueueId.cond c ≠ .cond c' := by
        simpa using Ne.symm hc
      have hnone : ∀ u, .waitAppend c ∉ m.todo u := by
        intro u
        by_cases hut : u = t
        · simp [hut, htodo, Ne.symm hc, hrest]
        · exact hother u hut
      rw [h.joined hnone]
      simp [setTodo, record, Synch.block, update_of_ne hne]
  · intro u hu
    by_cases hut : u = t
    · subst hut
      simp [setTodo, hrest] at hu
    · refine absurd ?_ (hother u hut)
      simpa [setTodo, update_of_ne hut, record, Synch.block] using hu

end Steps

end Synch

namespace Kernel

/-- Only the current thread can be between the release of the lock and the
joining of the queue in `Wait`.  Its next instructions are the restore of the
level, which is off, and the joining. -/
def Atomic (k : Kernel ι σ) : Prop :=
  ∀ u c, .waitAppend c ∈ k.code u → u = k.cur ∧ ∃ rest,
    (k.code k.cur = .waitAppend c :: rest ∨
      k.code k.cur = .setLevel .intOff :: .waitAppend c :: rest) ∧
    ∀ c', .waitAppend c' ∉ rest

/-- The invariant of the conditions. -/
structure Mesa (k : Kernel ι σ) : Prop where
  control : k.Control
  atomic : k.Atomic
  wait : ∀ c, k.synch.WaitInv c

section Mesa

variable {k k' : Kernel ι σ} {prog : Program ι σ η} {a : Action ι η} {rest : List (Instr ι)}
  {c : Nat}

theorem mem_todo_waitAppend {u : ThreadPtr} :
    .waitAppend c ∈ k.synch.todo u ↔ .waitAppend c ∈ k.code u := by
  simp [synch, synchCode, Instr.isSynch]

/-- A thread inside `Wait` before the joining executes its next
instruction. -/
theorem exec_of_atomic (h : k.Atomic) (hmem : .waitAppend c ∈ k.code k.cur)
    (hstep : k.step prog a = some k') : a = .exec := by
  obtain ⟨_, rest, hcode | hcode, _⟩ := h k.cur c hmem
  all_goals
    cases a with
    | exec => rfl
    | start cs => simp [step, hcode] at hstep
    | interrupt d | timer => simp [step, inDueLoop, hcode] at hstep

/-- Without a thread inside `Wait` before the joining, only a call of `Wait`
puts one there. -/
theorem atomic_of_none (hc : k.Control) (hfork : k.ForkOnce a)
    (hnone : ∀ u c, .waitAppend c ∉ k.code u) (hstep : k.step prog a = some k') :
    k'.Atomic := by
  intro u c hmem
  have hs := synch_step hc hfork hstep
  rcases Synch.waitAppend_step hs (mem_todo_waitAppend.mpr hmem) with hm | ⟨rfl, l, hl⟩
  · exact absurd (mem_todo_waitAppend.mp hm) (hnone u c)
  · obtain ⟨rfl, rest, hcode⟩ := label_eq_exec hl
    have hk' : k' = k.wait c l rest := by
      simpa [step, hcode, execInstr, execCall] using hstep.symm
    have hcur : k'.cur = k.cur := by
      rw [hk']
      exact Sched.wake_currentThread _ _
    refine ⟨hcur.symm, .call (.acquire l) :: .setLevel k.level :: .waitReturn c l :: rest,
      Or.inr ?_, ?_⟩
    · rw [hcur, hk']
      simp [wait, release, v, setCode, record, disable, cur]
    · intro c'
      have := hnone k.cur c'
      rw [hcode] at this
      simpa using this

/-- The current thread joins the queue: then no thread is inside `Wait` before
the joining. -/
theorem mesa_waitAppend (h : k.Mesa) (hcode : k.code k.cur = .waitAppend c :: rest)
    (hrest : ∀ c', .waitAppend c' ∉ rest) (hstep : k.step prog .exec = some k') :
    k'.Atomic ∧ ∀ c', k'.synch.WaitInv c' := by
  have hothers : ∀ u, u ≠ k.cur → ∀ c', .waitAppend c' ∉ k.code u := fun u hu c' hm =>
    hu (h.atomic u c' hm).1
  have hk' : k' = ({ k with sched := k.sched.block (.cond c) }.record
      [.join k.cur c]).setCode (.sleep :: rest) := by
    simpa [step, hcode, execInstr] using hstep.symm
  constructor
  · intro u c' hmem
    by_cases hu : u = k.cur
    · subst hu
      simp [hk', setCode, record, cur, hrest] at hmem
    · refine absurd ?_ (hothers u hu c')
      simpa [hk', setCode, record, cur, update_of_ne hu] using hmem
  · intro c'
    rw [hk', synch_waitAppend]
    refine (h.wait c').join ?_ ?_ ?_
    · show synchCode (k.code k.cur) = .waitAppend c :: synchCode rest
      rw [hcode]
      rfl
    · intro hm
      exact hrest c' (List.mem_of_mem_filter hm)
    · intro u hu hm
      exact hothers u hu c' (mem_todo_waitAppend.mp hm)

/-- The `Release` inside `Wait` returns with interrupts still off. -/
theorem mesa_waitRestore (h : k.Mesa)
    (hcode : k.code k.cur = .setLevel .intOff :: .waitAppend c :: rest)
    (hrest : ∀ c', .waitAppend c' ∉ rest) (hstep : k.step prog .exec = some k') :
    k'.Atomic ∧ ∀ c', k'.synch.WaitInv c' := by
  have hk' : k' = k.setLevel .intOff (.waitAppend c :: rest) := by
    simpa [step, hcode, execInstr] using hstep.symm
  constructor
  · intro u c' hmem
    by_cases hu : u = k.cur
    · subst hu
      simp only [hk', setLevel, setCode, cur, reduceCtorEq, false_and, if_false, update_self,
        List.mem_cons, Instr.waitAppend.injEq, hrest, or_false] at hmem
      subst hmem
      refine ⟨?_, rest, Or.inl ?_, hrest⟩
      · simp [hk', setLevel, setCode, cur]
      · simp [hk', setLevel, setCode, cur]
    · refine absurd (h.atomic u c' ?_).1 hu
      simpa [hk', setLevel, setCode, cur, update_of_ne hu] using hmem
  · intro c'
    rw [hk', synch_setLevel (by rw [hcode]; rfl)]
    exact h.wait c'

/-- Every step keeps the invariant. -/
theorem mesa_step (h : k.Mesa) (hfork : k.ForkOnce a) (hstep : k.step prog a = some k') :
    k'.Mesa := by
  have hs := synch_step h.control hfork hstep
  have hcontrol := control_step h.control hfork hstep
  by_cases hnone : ∀ u c, .waitAppend c ∉ k.code u
  · have hnone' : ∀ u c, .waitAppend c ∉ k.synch.todo u := fun u c hm =>
      hnone u c (mem_todo_waitAppend.mp hm)
    exact ⟨hcontrol, atomic_of_none h.control hfork hnone hstep,
      fun c => (h.wait c).step hnone' hs⟩
  · simp only [not_forall, not_not] at hnone
    obtain ⟨u, c, hmem⟩ := hnone
    obtain ⟨rfl, rest, hcode, hrest⟩ := h.atomic u c hmem
    obtain rfl := exec_of_atomic h.atomic hmem hstep
    rcases hcode with hcode | hcode
    · obtain ⟨hatomic, hwait⟩ := mesa_waitAppend h hcode hrest hstep
      exact ⟨hcontrol, hatomic, hwait⟩
    · obtain ⟨hatomic, hwait⟩ := mesa_waitRestore h hcode hrest hstep
      exact ⟨hcontrol, hatomic, hwait⟩

theorem mesa_init (initialValue : Nat → Int) (holding : Nat → Option ThreadPtr)
    (shared : σ) : (init initialValue holding shared : Kernel ι σ).Mesa where
  control := control_init _ _ _
  atomic u c hmem := by
    simp [init] at hmem
  wait c := by
    constructor
    · intro _
      rfl
    · intro u hu
      simp [init, synch, synchCode] at hu

/-- At a `Signal` or a `Broadcast` every thread that has released the lock in
`Wait`, and has not been woken, is on the queue. -/
theorem Mesa.waiting_eq_queue (h : k.Mesa) {i : Call ι} (hcode : k.code k.cur = .call i :: rest) :
    waiting k.log c = (k.sched.queue (.cond c)).items := by
  refine (h.wait c).joined fun u hm => ?_
  obtain ⟨_, tail, hc | hc, _⟩ := h.atomic u c (mem_todo_waitAppend.mp hm)
  all_goals
    rw [hcode] at hc
    cases hc

/-- `Wait` returns with the lock. -/
theorem holds_of_waitReturn {c l : Nat} (h : Synch.LockInv l k.synch)
    (hcode : k.code k.cur = .waitReturn c l :: rest) : Holds k.log k.cur l := by
  have hcov := h.covered k.cur
  have htodo : k.synch.todo k.cur = .waitReturn c l :: synchCode rest := by
    show synchCode (k.code k.cur) = _
    rw [hcode]
    rfl
  rw [htodo] at hcov
  exact hcov.1 rfl

/-- The step makes the thread ready. -/
def MadeReady (k k' : Kernel ι σ) (t : ThreadPtr) : Prop :=
  k.sched.status t ≠ .ready ∧ k'.sched.status t = .ready

/-- In every run in which a lock is released only by its holder, and for every
condition:
* at a `Signal` or a `Broadcast`, the queue holds exactly the threads that
  have released the lock in `Wait` and have not been woken, in that order;
* a `Signal` by the holder of the lock makes ready the longest-waiting thread
  and no other;
* a `Broadcast` by the holder makes ready the waiting threads and no other;
* when `Wait` returns, its caller holds the lock. -/
theorem condition_mesa (prog : Program ι σ η) (initialValue : Nat → Int)
    (holding : Nat → Option ThreadPtr) (shared : σ) (as : List (Action ι η))
    (k : Kernel ι σ)
    (hok : Along (step prog) (fun k a => k.ForkOnce a ∧ k.LockDiscipline a)
      (init initialValue holding shared) as)
    (hrun : run (step prog) (init initialValue holding shared) as = some k)
    (c l : Nat) (rest : List (Instr ι)) :
    (k.code k.cur = .call (.signal c l) :: rest ∨
        k.code k.cur = .call (.broadcast c l) :: rest →
      waiting k.log c = (k.sched.queue (.cond c)).items) ∧
    (∀ k', k.code k.cur = .call (.signal c l) :: rest → Holds k.log k.cur l →
      k.step prog .exec = some k' →
      ∀ t, k.MadeReady k' t ↔ (waiting k.log c).head? = some t) ∧
    (∀ k', k.code k.cur = .call (.broadcast c l) :: rest → Holds k.log k.cur l →
      k.step prog .exec = some k' →
      ∀ t, k.MadeReady k' t ↔ t ∈ waiting k.log c) ∧
    (k.code k.cur = .waitReturn c l :: rest → Holds k.log k.cur l) := by
  obtain ⟨h, hlock⟩ := run_invariant (I := fun k => k.Mesa ∧ Synch.LockInv l k.synch)
    (fun k a k' h hok hstep => ⟨mesa_step h.1 hok.1 hstep,
      h.2.step (dispatched_of_control h.1.control a)
        (disciplined_of_lockDiscipline hok.2 l) (synch_step h.1.control hok.1 hstep)⟩)
    ⟨mesa_init _ _ _, lockInv_init _ _ _ l⟩ hok hrun
  refine ⟨?_, ?_, ?_, holds_of_waitReturn hlock⟩
  · rintro (hcode | hcode)
    · exact h.waiting_eq_queue hcode
    · exact h.waiting_eq_queue hcode
  · intro k' hcode hholds hstep t
    have hheld : k.holdingThread l = some k.curAddress := hlock.holder _ hholds
    have hsched : k'.sched = k.sched.wake (.cond c) := by
      rw [← Option.some.inj ((by simp [step, hcode, execInstr, execCall] :
        k.step prog .exec = some (k.signal c l rest)).symm.trans hstep)]
      simp [signal, hheld, setCode, record]
    rw [MadeReady, hsched, h.control.sched.wake_ready_iff, h.waiting_eq_queue hcode]
  · intro k' hcode hholds hstep t
    have hheld : k.holdingThread l = some k.curAddress := hlock.holder _ hholds
    have hsched : k'.sched = k.sched.wakeAll (.cond c) := by
      rw [← Option.some.inj ((by simp [step, hcode, execInstr, execCall] :
        k.step prog .exec = some (k.broadcast c l rest)).symm.trans hstep)]
      simp [broadcast, hheld, setCode, record]
    rw [MadeReady, hsched, h.control.sched.wakeAll_ready_iff, h.waiting_eq_queue hcode]

end Mesa

/-- A program whose thread function waits on condition `0` with lock `0`. -/
def conditionWaiter : Program Unit Unit Nat where
  exec _ _ _ := some ((), [.acquire 0, .wait 0 0, .release 0])
  handler n _ := some ((), [n])

/-- The main thread forks the waiter, yields, and signals with the lock. -/
def forkAndSignal (n : Nat) : List (Action Unit Nat) :=
  .start [.newThread 255, .fork 1 (), .yield, .acquire 0, .signal 0 0, .release 0] ::
    List.replicate n .exec

/-- The signal sees the waiter and makes it ready. -/
theorem condition_mesa_signal : ∃ k : Kernel Unit Unit,
    run (step conditionWaiter) (init (fun _ => 0) (fun _ => none) ()) (forkAndSignal 23) =
        some k ∧
      k.code k.cur = [.call (.signal 0 0), .call (.release 0)] ∧
      (k.sched.queue (.cond 0)).items = [1] ∧
      waiting k.log 0 = (k.sched.queue (.cond 0)).items ∧
      ∀ k', k.step conditionWaiter .exec = some k' →
        ∀ t, k.MadeReady k' t ↔ (waiting k.log 0).head? = some t := by
  obtain ⟨k, hrun, hcode, hqueue, hholds⟩ : ∃ k : Kernel Unit Unit,
      run (step conditionWaiter) (init (fun _ => 0) (fun _ => none) ()) (forkAndSignal 23) =
          some k ∧
        k.code k.cur = [.call (.signal 0 0), .call (.release 0)] ∧
        (k.sched.queue (.cond 0)).items = [1] ∧ Holds k.log k.cur 0 :=
    ⟨_, rfl, rfl, rfl, by decide⟩
  have h := condition_mesa conditionWaiter (fun _ => 0) (fun _ => none) () (forkAndSignal 23)
    k (by decide) hrun 0 0 [.call (.release 0)]
  exact ⟨k, hrun, hcode, hqueue, h.1 (Or.inl hcode), fun k' => h.2.1 k' hcode hholds⟩

end Kernel

end Nachos.Threads

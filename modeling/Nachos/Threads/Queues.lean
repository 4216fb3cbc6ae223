import Nachos.Threads.Control

/-!
# Threads and queues

The statement that the dispatcher and the synchronization routines together
keep every thread in one place.  `QueuesConsistent` speaks about a state in
which some thread executes with interrupts enabled; `queues_consistent` is the
theorem over every run.

The work is in `Nachos.Threads.Scheduler`, which proves the invariant of the
queues for each operation, and in `Nachos.Threads.Control`, which shows that
the routines call the operations in the states that these lemmas need.
-/

namespace Nachos.Threads

open Function Lib

namespace Kernel

variable {ι σ η : Type}

/-- Every thread is in exactly one place.  The conjuncts are: the current thread
exists, and it is the running thread; a ready thread is once on the ready list and on
no queue; a blocked thread that has not finished is once on one queue and not
on the ready list; a destroyed thread is on no list. -/
def QueuesConsistent (k : Kernel ι σ) : Prop :=
  k.cur < k.sched.created ∧
  (∀ t, t < k.sched.created → (k.sched.status t = .running ↔ t = k.cur)) ∧
  (∀ t, t < k.sched.created → k.sched.status t = .ready →
    k.sched.readyList.items.count t = 1 ∧ ∀ q, t ∉ (k.sched.queue q).items) ∧
  (∀ t, t < k.sched.created → k.sched.status t = .blocked → k.sched.finished t = false →
    t ∉ k.sched.readyList.items ∧
      ∃ q, (k.sched.queue q).items.count t = 1 ∧
        ∀ q', t ∈ (k.sched.queue q').items → q' = q) ∧
  (∀ t, k.sched.destroyed t = true →
    t ∉ k.sched.readyList.items ∧ ∀ q, t ∉ (k.sched.queue q).items)

/-- The invariant says where each thread is when a thread runs. -/
theorem queuesConsistent_of_control {k : Kernel ι σ} (h : k.Control)
    (hon : k.level = .intOn) : k.QueuesConsistent := by
  have hs := h.sched
  refine ⟨hs.current_lt, ?_, ?_, ?_, ?_⟩
  · intro t hlt
    constructor
    · exact hs.running_current t hlt
    · rintro rfl
      exact h.awake hon
  · intro t hlt hready
    have hmem := (hs.mem_ready_iff t).mpr ⟨hlt, hready⟩
    refine ⟨List.count_eq_one_of_mem hs.ready_nodup hmem, fun q hq => ?_⟩
    have hb := (hs.queue_blocked t q hq).2.1
    rw [hready] at hb
    cases hb
  · intro t hlt hblocked hfin
    refine ⟨fun hr => ?_, ?_⟩
    · have hready := ((hs.mem_ready_iff t).mp hr).2
      rw [hblocked] at hready
      cases hready
    · obtain ⟨q, hq⟩ := hs.blocked_queued t hlt hblocked hfin
      exact ⟨q, List.count_eq_one_of_mem (hs.queue_nodup q) hq,
        fun q' hq' => hs.queue_unique t q' q hq' hq⟩
  · intro t hd
    have hfin := hs.destroyed_finished t hd
    refine ⟨fun hr => ?_, fun q hq => ?_⟩
    · have hready := ((hs.mem_ready_iff t).mp hr).2
      rw [(hs.finished_blocked t hfin).2] at hready
      cases hready
    · have hnf := (hs.queue_blocked t q hq).2.2
      rw [hfin] at hnf
      cases hnf

/-- The control invariant holds in every state that a run reaches. -/
theorem control_run (prog : Program ι σ η) {k0 k : Kernel ι σ} {as : List (Action ι η)}
    (h0 : k0.Control) (hfork : Along (step prog) ForkOnce k0 as)
    (hrun : run (step prog) k0 as = some k) : k.Control :=
  run_invariant (fun _ _ _ h hf hstep => control_step h hf hstep) h0 hfork hrun

/-- In every run in which each thread is forked once, and in every state of it
with interrupts enabled, every thread is in exactly one place. -/
theorem queues_consistent (prog : Program ι σ η) (initialValue : Nat → Int)
    (holding : Nat → Option ThreadPtr) (shared : σ) (as : List (Action ι η))
    (k : Kernel ι σ)
    (hfork : Along (step prog) ForkOnce (init initialValue holding shared) as)
    (hrun : run (step prog) (init initialValue holding shared) as = some k)
    (hon : k.level = .intOn) : k.QueuesConsistent :=
  queuesConsistent_of_control (control_run prog (control_init _ _ _) hfork hrun) hon

/-- A program whose thread function waits on semaphore `0`, with a device for
each semaphore. -/
def waiter : Program Unit Unit Nat where
  exec _ _ _ := some ((), [.p 0])
  handler n _ := some ((), [n])

/-- The main thread forks one thread, yields, and executes `n` instructions in
all. -/
def forkOne (n : Nat) : List (Action Unit Nat) :=
  .start [.newThread 255, .fork 1 (), .yield] :: List.replicate n .exec

/-- A forked thread blocks in `P`, and the main thread goes on. -/
theorem queues_consistent_waiter : ∃ k : Kernel Unit Unit,
    run (step waiter) (init (fun _ => 0) (fun _ => none) ()) (forkOne 13) = some k ∧
      k.level = .intOn ∧ k.sched.status 1 = .blocked ∧ k.QueuesConsistent :=
  ⟨_, rfl, rfl, rfl, queues_consistent waiter (fun _ => 0) (fun _ => none) ()
    (forkOne 13) _ (by decide) rfl rfl⟩

end Kernel

end Nachos.Threads

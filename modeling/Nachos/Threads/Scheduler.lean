import Nachos.Threads.List
import Nachos.Threads.ThreadIds

/-!
# The dispatcher state of `threads/scheduler.cc` and `threads/thread.cc`

`Sched` holds what the scheduler, the thread objects and the synchronization
queues keep about the threads: the status and the priority of each thread, the
ready list, one queue for each semaphore and each condition variable,
`currentThread`, `threadToBeDestroyed` and the thread-id tables.  The field
`finished` records which threads have called `Thread::Finish`, and `destroyed`
which objects have been deleted; no routine of the kernel reads them.  `address`
is where each object lies: `new` may use the memory of a deleted object again.

The operations are the pieces that the kernel routines are made of, under the
names of the source.  All of them run with interrupts off, so each is one
function on the state.

`Consistent` is the queue invariant.  A thread is `READY` exactly when it is
on the ready list, a thread on a queue is `BLOCKED`, every `BLOCKED` thread
that has not finished is on one queue, and only the current thread can be
`RUNNING`.  There is one preservation lemma for each operation.
-/

namespace Nachos.Threads

open Function

/-- `enum ThreadStatus` of `thread.h`. -/
inductive ThreadStatus where
  | justCreated
  | running
  | ready
  | blocked
  deriving DecidableEq, Repr

/-- A semaphore: one that kernel code creates, or the private `sema` of a
lock. -/
inductive SemId where
  | sem (n : Nat)
  | lock (l : Nat)
  deriving DecidableEq, Repr

/-- A queue of waiting threads: the `queue` of a semaphore or the
`waitingQueue` of a condition variable. -/
inductive QueueId where
  | sem (s : SemId)
  | cond (c : Nat)
  deriving DecidableEq, Repr

/-- The threads as the dispatcher sees them.  `created` counts the `Thread`
objects built so far, so object `t` exists or has existed when
`t < created`. -/
structure Sched where
  created : Nat
  status : ThreadPtr → ThreadStatus
  priority : ThreadPtr → Int
  readyList : NachosList ThreadPtr
  queue : QueueId → NachosList ThreadPtr
  currentThread : ThreadPtr
  threadToBeDestroyed : Option ThreadPtr
  ids : ThreadIds
  finished : ThreadPtr → Bool
  destroyed : ThreadPtr → Bool
  address : ThreadPtr → Nat

namespace Sched

/-! ## The operations -/

/-- `Thread::setStatus`. -/
def setStatus (s : Sched) (t : ThreadPtr) (st : ThreadStatus) : Sched :=
  { s with status := update s.status t st }

/-- `Scheduler::ReadyToRun`: mark the thread ready and insert it by
priority. -/
def readyToRun (s : Sched) (t : ThreadPtr) : Sched :=
  { s.setStatus t .ready with
    readyList := s.readyList.sortedInsert t (s.priority t) }

/-- `Scheduler::FindNextToRun`: take the first thread of the ready list. -/
def findNextToRun (s : Sched) : Option ThreadPtr × Sched :=
  (s.readyList.remove.1, { s with readyList := s.readyList.remove.2 })

/-- `Scheduler::Run` up to `SWITCH`: the next thread is current and
running. -/
def run (s : Sched) (nextThread : ThreadPtr) : Sched :=
  { s.setStatus nextThread .running with currentThread := nextThread }

/-- Take the first thread of a queue and make it ready, if there is one.  This
is the body of `Semaphore::V` and of `Condition::Signal`. -/
def wake (s : Sched) (q : QueueId) : Sched :=
  match (s.queue q).remove with
  | (none, _) => s
  | (some t, rest) => { s with queue := update s.queue q rest }.readyToRun t

/-- The loop of `Condition::Broadcast`: wake until the queue is empty. -/
def wakeAll (s : Sched) (q : QueueId) : Sched :=
  (fun s : Sched => s.wake q)^[(s.queue q).length] s

/-- Append the current thread to a queue and enter `Thread::Sleep`, which sets
its status first. -/
def block (s : Sched) (q : QueueId) : Sched :=
  { s with queue := update s.queue q ((s.queue q).append s.currentThread)
  }.setStatus s.currentThread .blocked

/-- `Thread::Finish` up to the dispatch in `Thread::Sleep`. -/
def finish (s : Sched) : Sched :=
  { s with
    threadToBeDestroyed := some s.currentThread
    finished := update s.finished s.currentThread true
  }.setStatus s.currentThread .blocked

/-- The code after `SWITCH` in `Scheduler::Run`: delete the thread that
finished.  `none` is the failed `ASSERT(this != currentThread)` of
`Thread::~Thread`. -/
def reap (s : Sched) : Option Sched :=
  match s.threadToBeDestroyed with
  | none => some s
  | some t =>
      if t = s.currentThread then none
      else some
        { s with
          threadToBeDestroyed := none
          ids := s.ids.destruct t
          destroyed := update s.destroyed t true }

/-- `new` puts the next object where no other object lies. -/
def addressFree (s : Sched) : Bool :=
  (List.range s.created).all fun t => s.destroyed t || s.address t != s.address s.created

/-- `Thread::Thread`.  The new object is number `created`.  `none` is a failed
`ASSERT`, on the ids or on the priority, or an address that is in use. -/
def newThread (s : Sched) (priority : Int) : Option Sched :=
  if (0 ≤ priority ∧ priority < 256) ∧ s.addressFree then
    (s.ids.construct s.created).map fun ids =>
      { s with
        created := s.created + 1
        status := update s.status s.created .justCreated
        priority := update s.priority s.created priority
        ids := ids }
  else none

/-- `Thread::SetPriority` of the current thread. -/
def setPriority (s : Sched) (p : Int) : Sched :=
  { s with priority := update s.priority s.currentThread p }

/-- The state at the end of `Initialize`, with only the main thread.  No address is
used twice. -/
def init : Sched where
  created := 1
  status t := if t = 0 then .running else .justCreated
  priority _ := 255
  readyList := []
  queue _ := []
  currentThread := 0
  threadToBeDestroyed := none
  ids := (ThreadIds.init.construct 0).getD ThreadIds.init
  finished _ := false
  destroyed _ := false
  address t := t

/-- An object that has been built and not deleted. -/
def Live (s : Sched) (t : ThreadPtr) : Prop :=
  t < s.created ∧ s.destroyed t = false

/-! ## What the operations leave alone -/

section Frame

variable (s : Sched) (q : QueueId) (t : ThreadPtr)

@[simp] theorem readyToRun_created : (s.readyToRun t).created = s.created := rfl

@[simp] theorem readyToRun_currentThread :
    (s.readyToRun t).currentThread = s.currentThread := rfl

@[simp] theorem readyToRun_queue : (s.readyToRun t).queue = s.queue := rfl

@[simp] theorem readyToRun_status :
    (s.readyToRun t).status = update s.status t .ready := rfl

@[simp] theorem run_created : (s.run t).created = s.created := rfl

@[simp] theorem run_currentThread : (s.run t).currentThread = t := rfl

@[simp] theorem run_queue : (s.run t).queue = s.queue := rfl

@[simp] theorem run_status : (s.run t).status = update s.status t .running := rfl

@[simp] theorem block_currentThread :
    (s.block q).currentThread = s.currentThread := rfl

@[simp] theorem block_queue : (s.block q).queue =
    update s.queue q ((s.queue q).append s.currentThread) := rfl

@[simp] theorem block_status :
    (s.block q).status = update s.status s.currentThread .blocked := rfl

@[simp] theorem finish_currentThread :
    s.finish.currentThread = s.currentThread := rfl

@[simp] theorem finish_status :
    s.finish.status = update s.status s.currentThread .blocked := rfl

/-- A wake of an empty queue changes nothing. -/
theorem wake_nil (hq : s.queue q = []) : s.wake q = s := by
  simp [wake, hq]

/-- A wake of a queue with a head. -/
theorem wake_cons {e : ListElement ThreadPtr} {es : NachosList ThreadPtr}
    (hq : s.queue q = e :: es) :
    s.wake q = { s with queue := update s.queue q es }.readyToRun e.item := by
  simp [wake, hq]

@[simp] theorem wake_created : (s.wake q).created = s.created := by
  cases hq : s.queue q with
  | nil => rw [wake_nil s q hq]
  | cons e es => rw [wake_cons s q hq, readyToRun_created]

@[simp] theorem wake_address : (s.wake q).address = s.address := by
  cases hq : s.queue q with
  | nil => rw [wake_nil s q hq]
  | cons e es =>
    rw [wake_cons s q hq]
    rfl

@[simp] theorem wake_currentThread :
    (s.wake q).currentThread = s.currentThread := by
  cases hq : s.queue q with
  | nil => rw [wake_nil s q hq]
  | cons e es => rw [wake_cons s q hq, readyToRun_currentThread]

/-- A wake takes the head off its own queue only. -/
@[simp] theorem wake_queue :
    (s.wake q).queue = update s.queue q (s.queue q).tail := by
  cases hq : s.queue q with
  | nil =>
    rw [wake_nil s q hq, List.tail_nil, ← hq, update_eq_self]
  | cons e es => rw [wake_cons s q hq, readyToRun_queue, List.tail_cons]

/-- What a wake does not change, a broadcast does not change. -/
theorem wakeAll_congr {β : Type*} {f : Sched → β} (hf : ∀ s, f (s.wake q) = f s) :
    f (s.wakeAll q) = f s := by
  rw [wakeAll]
  generalize (s.queue q).length = n
  induction n generalizing s with
  | zero => rfl
  | succ n ih => rw [iterate_succ_apply, ih, hf]

@[simp] theorem wakeAll_created : (s.wakeAll q).created = s.created :=
  wakeAll_congr s q fun s => wake_created s q

@[simp] theorem wakeAll_address : (s.wakeAll q).address = s.address :=
  wakeAll_congr s q fun s => wake_address s q

@[simp] theorem wakeAll_currentThread :
    (s.wakeAll q).currentThread = s.currentThread :=
  wakeAll_congr s q fun s => wake_currentThread s q

private theorem iterate_wake_queue (n : Nat) :
    ((fun s : Sched => s.wake q)^[n] s).queue = update s.queue q ((s.queue q).drop n) := by
  induction n generalizing s with
  | zero => simp
  | succ n ih => rw [iterate_succ_apply, ih, wake_queue]; simp

/-- A broadcast empties its own queue only. -/
@[simp] theorem wakeAll_queue : (s.wakeAll q).queue = update s.queue q [] := by
  rw [wakeAll, iterate_wake_queue, List.drop_length]

theorem reap_spec {s s' : Sched} (h : s.reap = some s') :
    s' = s ∧ s.threadToBeDestroyed = none ∨
      ∃ t, s.threadToBeDestroyed = some t ∧ t ≠ s.currentThread ∧
        s' = { s with
          threadToBeDestroyed := none
          ids := s.ids.destruct t
          destroyed := update s.destroyed t true } := by
  rw [reap] at h
  split at h
  · rename_i hnone
    exact Or.inl ⟨(Option.some.inj h).symm, hnone⟩
  · rename_i t ht
    split at h
    · cases h
    · rename_i hne
      exact Or.inr ⟨t, ht, hne, (Option.some.inj h).symm⟩

theorem newThread_spec {s s' : Sched} {p : Int} (h : s.newThread p = some s') :
    ∃ ids, s.ids.construct s.created = some ids ∧
      s' = { s with
        created := s.created + 1
        status := update s.status s.created .justCreated
        priority := update s.priority s.created p
        ids := ids } := by
  rw [newThread] at h
  split at h
  · obtain ⟨ids, hids, rfl⟩ := Option.map_eq_some_iff.mp h
    exact ⟨ids, hids, rfl⟩
  · cases h

theorem newThread_address {s s' : Sched} {p : Int} (h : s.newThread p = some s') {t : ThreadPtr}
    (ht : s.Live t) : s.address t ≠ s.address s.created := by
  rw [newThread] at h
  split at h
  · rename_i hfree
    have hall := List.all_eq_true.mp hfree.2 t (List.mem_range.mpr ht.1)
    simpa [ht.2] using hall
  · cases h

end Frame

/-! ## The queue invariant -/

/-- The status of the threads, the ready list, the queues and the id tables
agree. -/
structure Consistent (s : Sched) : Prop where
  current_lt : s.currentThread < s.created
  current_started : s.status s.currentThread ≠ .justCreated
  ready_nodup : s.readyList.items.Nodup
  mem_ready_iff : ∀ t, t ∈ s.readyList.items ↔ t < s.created ∧ s.status t = .ready
  queue_nodup : ∀ q, (s.queue q).items.Nodup
  queue_unique : ∀ t q q', t ∈ (s.queue q).items → t ∈ (s.queue q').items → q = q'
  queue_blocked : ∀ t q, t ∈ (s.queue q).items →
    t < s.created ∧ s.status t = .blocked ∧ s.finished t = false
  blocked_queued : ∀ t, t < s.created → s.status t = .blocked →
    s.finished t = false → ∃ q, t ∈ (s.queue q).items
  running_current : ∀ t, t < s.created → s.status t = .running → t = s.currentThread
  finished_blocked : ∀ t, s.finished t = true → t < s.created ∧ s.status t = .blocked
  destroyed_finished : ∀ t, s.destroyed t = true → s.finished t = true
  reap_pending : ∀ t, s.threadToBeDestroyed = some t →
    s.finished t = true ∧ s.destroyed t = false
  ids_valid : s.ids.Valid s.Live
  current_kept : s.destroyed s.currentThread = false
  address_unique : ∀ t u, s.Live t → s.Live u → s.address t = s.address u → t = u

/-- The constructor run of the main thread leaves valid tables. -/
theorem ids_init_valid : init.ids.Valid init.Live := by
  have hnone : ThreadIds.init.Valid fun _ => False :=
    ⟨by simp, by simp, by simp [ThreadIds.init], by simp [ThreadIds.init]⟩
  obtain ⟨ids, hids⟩ : ∃ ids, ThreadIds.init.construct 0 = some ids := ⟨_, rfl⟩
  have hv := ThreadIds.valid_construct hnone (by simp) hids
  have hlive : init.Live = fun u => False ∨ u = 0 := by
    funext u
    simp [Live, init]
  rw [hlive, show init.ids = ids by simp [init, hids]]
  exact hv

/-- The state that `Initialize` leaves is consistent, wherever `new` puts the
threads. -/
theorem consistent_init (address : ThreadPtr → Nat) :
    { init with address := address }.Consistent where
  current_lt := by simp [init]
  current_started := by simp [init]
  ready_nodup := by simp [init]
  mem_ready_iff t := by
    by_cases h : t = 0 <;> simp [init, h]
  queue_nodup := by simp [init]
  queue_unique := by simp [init]
  queue_blocked := by simp [init]
  blocked_queued t _ h := by
    by_cases h0 : t = 0 <;> simp [init, h0] at h
  running_current t _ := by simp [init]
  finished_blocked := by simp [init]
  destroyed_finished := by simp [init]
  reap_pending := by simp [init]
  ids_valid := ids_init_valid
  current_kept := rfl
  address_unique t u ht hu _ :=
    (Nat.lt_one_iff.mp ht.1).trans (Nat.lt_one_iff.mp hu.1).symm

variable {s s' : Sched} {q : QueueId} {es : NachosList ThreadPtr} {e : ListElement ThreadPtr}

/-- A current thread that is running is on no queue, not ready and not
finished. -/
theorem Consistent.current_free (h : s.Consistent)
    (hcur : s.status s.currentThread = .running) :
    s.currentThread ∉ s.readyList.items ∧
      (∀ q, s.currentThread ∉ (s.queue q).items) ∧
      s.finished s.currentThread = false := by
  refine ⟨fun hr => ?_, fun q hq => ?_, ?_⟩
  · have := ((h.mem_ready_iff _).mp hr).2
    rw [hcur] at this
    cases this
  · have := (h.queue_blocked _ _ hq).2.1
    rw [hcur] at this
    cases this
  · by_contra hf
    rw [Bool.not_eq_false] at hf
    have := (h.finished_blocked _ hf).2
    rw [hcur] at this
    cases this

theorem Consistent.kept_of_ready {t : ThreadPtr} (h : s.Consistent) (ht : s.status t = .ready) :
    s.destroyed t = false := by
  by_contra hd
  rw [Bool.not_eq_false] at hd
  have hblk := (h.finished_blocked t (h.destroyed_finished t hd)).2
  rw [ht] at hblk
  cases hblk

/-- What is known about one thread. -/
theorem Consistent.thread (h : s.Consistent) (t : ThreadPtr) :
    (t ∈ s.readyList.items ↔ t < s.created ∧ s.status t = .ready) ∧
    (∀ q, t ∈ (s.queue q).items → t < s.created ∧ s.status t = .blocked ∧ s.finished t = false) ∧
    (t < s.created → s.status t = .blocked → s.finished t = false → ∃ q, t ∈ (s.queue q).items) ∧
    (t < s.created → s.status t = .running → t = s.currentThread) ∧
    (s.finished t = true → t < s.created ∧ s.status t = .blocked) :=
  ⟨h.mem_ready_iff t, h.queue_blocked t, h.blocked_queued t, h.running_current t,
    h.finished_blocked t⟩

/-- A wake moves the head of a queue to the ready list. -/
theorem Consistent.wake (h : s.Consistent) (q : QueueId) : (s.wake q).Consistent := by
  rw [Sched.wake]
  cases hq : s.queue q with
  | nil => simpa [hq] using h
  | cons e es =>
    have hmem : e.item ∈ (s.queue q).items := by simp [hq]
    obtain ⟨hlt, hblk, hfin⟩ := h.queue_blocked _ _ hmem
    have hnd := h.queue_nodup q
    have hu := h.queue_unique e.item
    simp only [NachosList.remove_cons, readyToRun, setStatus]
    simp only [hq, NachosList.items_cons, List.nodup_cons] at hnd
    refine { h with
      current_started := ?_, ready_nodup := ?_, mem_ready_iff := ?_, queue_nodup := ?_,
      queue_unique := ?_, queue_blocked := ?_, blocked_queued := ?_,
      running_current := ?_, finished_blocked := ?_ }
    · have := h.current_started
      simp only [update_apply]
      split
      · simp
      · exact this
    · rw [NachosList.nodup_items_sortedInsert]
      refine ⟨fun hr => ?_, h.ready_nodup⟩
      have := ((h.mem_ready_iff _).mp hr).2
      rw [hblk] at this
      cases this
    · intro t
      have := h.mem_ready_iff t
      grind [update_apply]
    · intro q'
      have := h.queue_nodup q'
      grind [update_apply]
    · intro t q1 q2
      have h12 := h.queue_unique t q1 q2
      have h1 := h.queue_unique t q q1
      have h2 := h.queue_unique t q q2
      simp only [update_apply]
      grind
    all_goals
      intro t
      have ht := h.thread t
      simp only [update_apply]
      grind

/-- A broadcast is a sequence of wakes. -/
theorem Consistent.wakeAll (h : s.Consistent) (q : QueueId) :
    (s.wakeAll q).Consistent := by
  rw [Sched.wakeAll]
  generalize (s.queue q).length = n
  induction n generalizing s with
  | zero => exact h
  | succ n ih =>
    rw [iterate_succ_apply]
    exact ih (h.wake q)

/-- The current thread joins one queue and is blocked. -/
theorem Consistent.block (h : s.Consistent)
    (hcur : s.status s.currentThread = .running) (q : QueueId) :
    (s.block q).Consistent := by
  obtain ⟨hnr, hnq, hnf⟩ := h.current_free hcur
  have hlt := h.current_lt
  rw [Sched.block, setStatus]
  refine { h with
    current_started := by simp, mem_ready_iff := ?_, queue_nodup := ?_,
    queue_unique := ?_, queue_blocked := ?_, blocked_queued := ?_,
    running_current := ?_, finished_blocked := ?_ }
  · intro t
    have := h.mem_ready_iff t
    simp only [update_apply]
    grind
  · intro q'
    have hnd := h.queue_nodup q'
    have hq' := hnq q'
    simp only [update_apply]
    split
    · rename_i heq
      subst heq
      rw [NachosList.items_append]
      rw [List.nodup_append]
      refine ⟨hnd, by simp, fun a ha b hb => ?_⟩
      rw [List.mem_singleton] at hb
      exact fun he => hq' (hb ▸ he ▸ ha)
    · exact hnd
  · intro t q1 q2
    have h12 := h.queue_unique t q1 q2
    have hq1 := hnq q1
    have hq2 := hnq q2
    simp only [update_apply]
    grind
  · intro t q1
    have hb := h.queue_blocked t q1
    simp only [update_apply]
    grind
  · intro t h1 h2 h3
    by_cases ht : t = s.currentThread
    · subst ht
      exact ⟨q, by simp⟩
    · simp only [update_of_ne ht] at h2
      obtain ⟨q1, hq1⟩ := h.blocked_queued t h1 h2 h3
      refine ⟨q1, ?_⟩
      simp only [update_apply]
      grind
  · intro t
    have hr := h.running_current t
    simp only [update_apply]
    grind
  · intro t
    have hf := h.finished_blocked t
    simp only [update_apply]
    grind

/-- A finishing thread leaves every queue alone and stays blocked. -/
theorem Consistent.finish (h : s.Consistent)
    (hcur : s.status s.currentThread = .running) : s.finish.Consistent := by
  obtain ⟨hnr, hnq, hnf⟩ := h.current_free hcur
  have hlt := h.current_lt
  rw [Sched.finish, setStatus]
  refine { h with
    current_started := by simp
    mem_ready_iff := ?_, queue_blocked := ?_, blocked_queued := ?_, running_current := ?_
    finished_blocked := ?_
    destroyed_finished := fun t => by
      have hd := h.destroyed_finished t
      simp only [update_apply]
      grind
    reap_pending := fun t ht => by
      obtain rfl := Option.some.inj ht
      exact ⟨by simp, h.current_kept⟩ }
  all_goals
    intro t
    have ht := h.thread t
    simp only [update_apply]
    grind

/-- The deletion of the thread that finished. -/
theorem Consistent.reap (h : s.Consistent) (hr : s.reap = some s') :
    s'.Consistent := by
  rcases reap_spec hr with ⟨rfl, _⟩ | ⟨t, ht, hne, rfl⟩
  · exact h
  · obtain ⟨hfin, hnd⟩ := h.reap_pending t ht
    have hkept : ∀ u, update s.destroyed t true u = false → s.destroyed u = false := by
      intro u
      simp only [update_apply]
      grind
    refine { h with
      destroyed_finished := ?_, reap_pending := ?_, ids_valid := ?_,
      current_kept := (update_of_ne hne.symm _ _).trans h.current_kept,
      address_unique := fun u w hu hw =>
        h.address_unique u w ⟨hu.1, hkept u hu.2⟩ ⟨hw.1, hkept w hw.2⟩ }
    · intro u
      have hd := h.destroyed_finished u
      simp only [update_apply]
      grind
    · intro u hu
      cases hu
    · have hlive : s.Live t := ⟨(h.finished_blocked t hfin).1, hnd⟩
      have hv := ThreadIds.valid_destruct h.ids_valid hlive
      convert hv using 1
      funext u
      simp only [Live, update_apply]
      grind

/-- A new object has the next number and is on no list. -/
theorem Consistent.newThread {p : Int} (h : s.Consistent)
    (hn : s.newThread p = some s') : s'.Consistent := by
  obtain ⟨ids, hids, rfl⟩ := newThread_spec hn
  have hnlive : ¬ s.Live s.created := fun hl => absurd hl.1 (lt_irrefl _)
  have hlt := h.current_lt
  have hnew := fun t (ht : s.Live t) => newThread_address hn ht
  have hnd : s.destroyed s.created = false := by
    by_contra hd
    rw [Bool.not_eq_false] at hd
    exact lt_irrefl _ (h.finished_blocked _ (h.destroyed_finished _ hd)).1
  refine { h with
    current_lt := Nat.lt_succ_of_lt hlt
    current_started := (update_of_ne (Nat.ne_of_lt hlt) _ _).trans_ne h.current_started
    mem_ready_iff := ?_, queue_blocked := ?_, blocked_queued := ?_, running_current := ?_
    finished_blocked := ?_
    ids_valid := by
      convert ThreadIds.valid_construct h.ids_valid hnlive hids using 1
      funext u
      simp only [Live]
      grind
    address_unique := fun t u ht hu heq => by
      have hold := h.address_unique t u
      have ht' := hnew t
      have hu' := hnew u
      simp only [Live] at ht hu hold ht' hu'
      grind }
  all_goals
    intro t
    have ht := h.thread t
    simp only [update_apply]
    grind

/-- The first `Fork` of a thread puts it on the ready list. -/
theorem Consistent.fork {t : ThreadPtr} (h : s.Consistent) (hlt : t < s.created)
    (hst : s.status t = .justCreated) : (s.readyToRun t).Consistent := by
  have hne : s.currentThread ≠ t := fun he => h.current_started (he ▸ hst)
  rw [readyToRun, setStatus]
  refine { h with
    current_started := ?_, ready_nodup := ?_, mem_ready_iff := ?_, queue_blocked := ?_,
    blocked_queued := ?_, running_current := ?_, finished_blocked := ?_ }
  · simp only [update_of_ne hne]
    exact h.current_started
  · rw [NachosList.nodup_items_sortedInsert]
    refine ⟨fun hr => ?_, h.ready_nodup⟩
    have := ((h.mem_ready_iff _).mp hr).2
    rw [hst] at this
    cases this
  all_goals
    intro u
    have hu := h.thread u
    simp only [update_apply]
    grind

theorem Consistent.setPriority (h : s.Consistent) (p : Int) :
    (s.setPriority p).Consistent := { h with }

/-- The switch of `Thread::Yield`: the current thread goes on the ready list
and the old head of the list runs. -/
theorem Consistent.yield (h : s.Consistent) (hcur : s.status s.currentThread = .running)
    (hl : s.readyList = e :: es) :
    (({ s with readyList := es }.readyToRun s.currentThread).run e.item).Consistent := by
  obtain ⟨hnr, hnq, hnf⟩ := h.current_free hcur
  have hlt := h.current_lt
  obtain ⟨helt, hest⟩ := (h.mem_ready_iff e.item).mp (by simp [hl])
  have hnd := h.ready_nodup
  simp only [hl, NachosList.items_cons, List.nodup_cons] at hnd hnr
  rw [Sched.run, readyToRun, setStatus, setStatus]
  refine { h with
    current_lt := ?_, current_started := by simp, ready_nodup := ?_, mem_ready_iff := ?_,
    queue_blocked := ?_, blocked_queued := ?_, running_current := ?_,
    finished_blocked := ?_, current_kept := h.kept_of_ready hest }
  · exact helt
  · rw [NachosList.nodup_items_sortedInsert]
    exact ⟨fun hm => hnr (List.mem_cons_of_mem _ hm), hnd.2⟩
  all_goals
    intro t
    have ht := h.thread t
    simp only [update_apply]
    grind

/-- The switch of `Thread::Sleep`: the head of the ready list runs.  It may be
the sleeping thread itself, when an interrupt woke it in the idle loop. -/
theorem Consistent.sleep (h : s.Consistent) (hcur : s.status s.currentThread ≠ .running)
    (hl : s.readyList = e :: es) :
    ({ s with readyList := es }.run e.item).Consistent := by
  have hlt := h.current_lt
  obtain ⟨helt, hest⟩ := (h.mem_ready_iff e.item).mp (by simp [hl])
  have hnd := h.ready_nodup
  simp only [hl, NachosList.items_cons, List.nodup_cons] at hnd
  rw [Sched.run, setStatus]
  refine { h with
    current_lt := ?_, current_started := by simp, ready_nodup := ?_, mem_ready_iff := ?_,
    queue_blocked := ?_, blocked_queued := ?_, running_current := ?_,
    finished_blocked := ?_, current_kept := h.kept_of_ready hest }
  · exact helt
  · exact hnd.2
  all_goals
    intro t
    have ht := h.thread t
    simp only [update_apply]
    grind

/-! ## The status through a wake -/

/-- A wake changes only a blocked status, and only to ready. -/
theorem Consistent.wake_status (h : s.Consistent) (q : QueueId) (t : ThreadPtr) :
    (s.wake q).status t = s.status t ∨
      s.status t = .blocked ∧ (s.wake q).status t = .ready := by
  cases hq : s.queue q with
  | nil =>
    rw [wake_nil s q hq]
    exact Or.inl rfl
  | cons e es =>
    rw [wake_cons s q hq]
    by_cases ht : t = e.item
    · subst ht
      have hb := (h.queue_blocked e.item q (by simp [hq])).2.1
      exact Or.inr ⟨hb, by simp⟩
    · exact Or.inl (by simp [update_of_ne ht])

/-- A broadcast changes only blocked statuses, and only to ready. -/
theorem Consistent.wakeAll_status (h : s.Consistent) (q : QueueId) (t : ThreadPtr) :
    (s.wakeAll q).status t = s.status t ∨
      s.status t = .blocked ∧ (s.wakeAll q).status t = .ready := by
  rw [Sched.wakeAll]
  generalize (s.queue q).length = n
  induction n generalizing s with
  | zero => exact Or.inl rfl
  | succ n ih =>
    rw [iterate_succ_apply]
    rcases h.wake_status q t with hw | ⟨hb, hw⟩ <;> rcases ih (h.wake q) with hi | ⟨hi, hr⟩
    · exact Or.inl (hi.trans hw)
    · exact Or.inr ⟨hw.symm.trans hi, hr⟩
    · exact Or.inr ⟨hb, hi.trans hw⟩
    · rw [hw] at hi
      cases hi

/-- A wake makes ready exactly the head of the queue. -/
theorem Consistent.wake_ready_iff (h : s.Consistent) (q : QueueId) (t : ThreadPtr) :
    s.status t ≠ .ready ∧ (s.wake q).status t = .ready ↔
      (s.queue q).items.head? = some t := by
  cases hq : s.queue q with
  | nil => simp [wake_nil s q hq]
  | cons e es =>
    have hb := (h.queue_blocked e.item q (by simp [hq])).2.1
    rw [wake_cons s q hq]
    by_cases ht : t = e.item
    · subst ht
      simp [hb]
    · simp [update_of_ne ht, Ne.symm ht]

/-- A broadcast is a wake, followed by a broadcast to the others. -/
theorem wakeAll_cons (hq : s.queue q = e :: es) : s.wakeAll q = (s.wake q).wakeAll q := by
  have hlen : ((s.wake q).queue q).length = es.length := by
    simp [hq]
  rw [wakeAll, wakeAll, hlen, hq, List.length_cons, iterate_succ_apply]

/-- A broadcast makes ready exactly the threads on the queue. -/
theorem Consistent.wakeAll_ready_iff (h : s.Consistent) (q : QueueId) (t : ThreadPtr) :
    s.status t ≠ .ready ∧ (s.wakeAll q).status t = .ready ↔ t ∈ (s.queue q).items := by
  induction hq : s.queue q generalizing s with
  | nil =>
    have hsame : s.wakeAll q = s := by
      rw [Sched.wakeAll, hq]
      rfl
    simp [hsame]
  | cons e es ih =>
    have hb := (h.queue_blocked e.item q (by simp [hq])).2.1
    have hrest : (s.wake q).queue q = es := by
      simp [hq]
    have hih := ih (h.wake q) hrest
    have hst := (h.wake q).wakeAll_status q t
    rw [wakeAll_cons hq]
    by_cases ht : t = e.item
    · subst ht
      have hready : (s.wake q).status e.item = .ready := by
        simp [wake_cons s q hq]
      simp [hb, hready] at hst ⊢
      exact hst
    · have hsame : (s.wake q).status t = s.status t := by
        simp [wake_cons s q hq, update_of_ne ht]
      rw [hsame] at hih
      rw [hih]
      simp [ht]

end Sched

end Nachos.Threads

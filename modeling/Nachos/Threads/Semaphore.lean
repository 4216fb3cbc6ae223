import Nachos.Threads.Synch
import Nachos.Lib.WaitQueue

/-!
# Semaphores

`P` waits in a loop until the value is positive, and `V` both increments the
value and wakes one thread, so a third thread can take the unit before the
woken thread tests again.  The value is an `int`: a `V` at the largest `int` makes
it negative (`semaphore_overflows`).  `semaphore_safe` is about the runs without
such a `V`.

The history of a run counts the calls of `V` and the completed calls of `P`.
`woken s` is the set of threads that a `V` has taken off the queue of `s` and
that have not tested the value since: their code still holds the loop of `P`,
and they are not on the queue.
-/

namespace Nachos.Threads

open Function Lib

variable {ι σ η : Type}

/-! ## What is counted -/

/-- The number of calls of `V` on a semaphore. -/
def vCount (log : List Event) (s : SemId) : Nat := log.count (.v s)

/-- A `P` on the semaphore has completed. -/
def Event.isPDone (s : SemId) : Event → Bool
  | .pDone _ s' => s' = s
  | _ => false

/-- The number of completed calls of `P` on a semaphore. -/
def pCount (log : List Event) (s : SemId) : Nat := log.countP (Event.isPDone s)

/-- The next test of the loop in `P` on the semaphore. -/
def Instr.isPLoop (s : SemId) : Instr ι → Bool
  | .pLoop s' => s' = s
  | _ => false

theorem any_isPLoop_iff {s : SemId} {is : List (Instr ι)} :
    is.any (Instr.isPLoop s) = true ↔ .pLoop s ∈ is := by
  rw [List.any_eq_true]
  constructor
  · rintro ⟨i, hi, hs⟩
    cases i <;> simp_all [Instr.isPLoop]
  · intro hmem
    exact ⟨_, hmem, by simp [Instr.isPLoop]⟩

instance (s : SemId) (is : List (Instr ι)) : Decidable (.pLoop s ∈ is) :=
  decidable_of_iff _ any_isPLoop_iff

namespace Synch

/-- The threads that a `V` has woken and that have not tested again. -/
def woken (m : Synch ι σ) (s : SemId) : Finset ThreadPtr :=
  (Finset.range m.created).filter fun t => .pLoop s ∈ m.todo t ∧ t ∉ m.queue (.sem s)

/-- The invariant of one semaphore with initial value `v0`. -/
structure SemInv (v0 : Int) (s : SemId) (m : Synch ι σ) : Prop where
  value_eq : m.value s = v0 + vCount m.log s - pCount m.log s
  nonneg : 0 ≤ m.value s
  lt_max : m.value s < 2 ^ 31
  parked : ∀ t ∈ m.queue (.sem s), .pLoop s ∈ m.todo t
  noLost : NoLostWakeup (m.value s) (m.queue (.sem s)) (m.woken s)

section Steps

variable {m m' : Synch ι σ} {s : SemId} {v0 : Int} {t : ThreadPtr}
  {o : Label ι} {rest cont : List (Instr ι)} {i : Instr ι}

/-- More threads in the loop, off the same queue. -/
theorem woken_subset (hc : m.created ≤ m'.created)
    (hq : ∀ u, u ∉ m.queue (.sem s) → u ∉ m'.queue (.sem s))
    (htodo : ∀ u, .pLoop s ∈ m.todo u → .pLoop s ∈ m'.todo u) :
    m.woken s ⊆ m'.woken s := by
  intro u hu
  simp only [woken, Finset.mem_filter, Finset.mem_range] at hu ⊢
  obtain ⟨hlt, hloop, hnq⟩ := hu
  exact ⟨lt_of_lt_of_le hlt hc, htodo u hloop, hq u hnq⟩

/-- The code of one thread changes, and it is not the last in the loop. -/
theorem woken_erase_subset (hc : m.created = m'.created)
    (hq : ∀ u, u ≠ t → u ∉ m.queue (.sem s) → u ∉ m'.queue (.sem s))
    (htodo : ∀ u, u ≠ t → m'.todo u = m.todo u) :
    (m.woken s).erase t ⊆ m'.woken s := by
  intro u hu
  simp only [woken, Finset.mem_erase, Finset.mem_filter, Finset.mem_range] at hu ⊢
  obtain ⟨hne, hlt, hloop, hnq⟩ := hu
  refine ⟨hc ▸ hlt, ?_, hq u hne hnq⟩
  rw [htodo u hne]
  exact hloop

/-- A step that does not touch the semaphore. -/
theorem SemInv.frame (h : SemInv v0 s m) (hc : m.created ≤ m'.created)
    (hv : m'.value s = m.value s) (hq : m'.queue (.sem s) = m.queue (.sem s))
    (hvc : vCount m'.log s = vCount m.log s) (hpc : pCount m'.log s = pCount m.log s)
    (htodo : ∀ u, .pLoop s ∈ m.todo u → .pLoop s ∈ m'.todo u) : SemInv v0 s m' where
  value_eq := by
    rw [hv, hvc, hpc]
    exact h.value_eq
  nonneg := hv ▸ h.nonneg
  lt_max := hv ▸ h.lt_max
  parked u hu := htodo u (h.parked u (hq ▸ hu))
  noLost := by
    rw [hv, hq]
    exact h.noLost.mono le_rfl id (woken_subset hc (fun u hu => hq ▸ hu) htodo)

/-- A change of the code of one thread that stays in the loop if it was
there. -/
theorem SemInv.setTodo {is : List (Instr ι)} (h : SemInv v0 s m)
    (his : .pLoop s ∈ m.todo t → .pLoop s ∈ is) : SemInv v0 s (m.setTodo t is) := by
  refine h.frame le_rfl rfl rfl rfl rfl ?_
  intro u hu
  by_cases hut : u = t
  · subst hut
    simpa [Synch.setTodo] using his hu
  · simpa [Synch.setTodo, update_of_ne hut] using hu

theorem SemInv.setShared (h : SemInv v0 s m) (x : σ) :
    SemInv v0 s { m with shared := x } :=
  h.frame le_rfl rfl rfl rfl rfl fun _ => id

/-- Events that no semaphore counts. -/
theorem SemInv.record {es : List Event} (h : SemInv v0 s m) (hv : .v s ∉ es)
    (hp : ∀ u, .pDone u s ∉ es) : SemInv v0 s (m.record es) := by
  refine h.frame le_rfl rfl rfl ?_ ?_ (fun _ => id)
  · simp [vCount, Synch.record, List.count_eq_zero.mpr hv]
  · have hzero : es.countP (Event.isPDone s) = 0 := by
      rw [List.countP_eq_zero]
      intro e he
      cases e <;> simp_all [Event.isPDone]
      intro hs
      exact hp _ (hs ▸ he)
    simp [pCount, Synch.record, hzero]

/-- A `V` increments the value and wakes the head of the queue. -/
theorem SemInv.v (h : SemInv v0 s m) (hq : m.Dispatched t o) (s' : SemId)
    (hroom : s = s' → m.value s < 2 ^ 31 - 1) : SemInv v0 s (m.v s') := by
  by_cases hs : s = s'
  · subst hs
    have hnonneg := h.nonneg
    have hlt := hroom rfl
    have hvalue : i32 (m.value s + 1) = m.value s + 1 := i32_eq (by omega) (by omega)
    refine ⟨?_, ?_, ?_, ?_, ?_⟩
    · have := h.value_eq
      simp only [Synch.v, Synch.record, update_self, hvalue, vCount, pCount, List.count_append,
        List.countP_append] at this ⊢
      simp [Event.isPDone]
      omega
    · simp only [Synch.v, Synch.record, update_self, hvalue]
      omega
    · simp only [Synch.v, Synch.record, update_self, hvalue]
      omega
    · intro u hu
      simp only [Synch.v, Synch.record, update_self] at hu
      exact h.parked u (List.mem_of_mem_tail hu)
    · have hno := h.noLost
      have hnd := hq.nodup (.sem s)
      cases hqueue : m.queue (.sem s) with
      | nil => simp [Synch.v, Synch.record, hqueue, NoLostWakeup]
      | cons u us =>
        rw [hqueue] at hno hnd
        simp only [Synch.v, Synch.record, hqueue, update_self, hvalue, List.tail_cons]
        refine hno.give (t := u) ?_ ?_
        · simp [woken, hqueue]
        · have hu : u ∈ m.queue (.sem s) := by simp [hqueue]
          rw [Finset.insert_subset_iff]
          constructor
          · have hlt := hq.queued_lt _ u hu
            have hloop := h.parked u hu
            have hnot := (List.nodup_cons.mp hnd).1
            simp [woken, hlt, hloop, hnot]
          · refine woken_subset le_rfl ?_ (fun _ => id)
            intro w hw
            simp_all
  · have hq' : QueueId.sem s ≠ .sem s' := by
      simpa using hs
    refine h.frame le_rfl ?_ ?_ ?_ ?_ (fun _ => id)
    · simp [Synch.v, Synch.record, update_of_ne hs]
    · simp [Synch.v, Synch.record, update_of_ne hq']
    · simp [Synch.v, Synch.record, vCount, Ne.symm hs]
    · simp [Synch.v, Synch.record, pCount, Event.isPDone]

/-- `Release` is a `V` on the semaphore of the lock. -/
theorem SemInv.release {l : Nat} (h : SemInv v0 s m) (hq : m.Dispatched t o)
    (hs : s ≠ .lock l) : SemInv v0 s (m.release t l) := by
  have hfree : SemInv v0 s { m with holdingThread := update m.holdingThread l none } :=
    h.frame le_rfl rfl rfl rfl rfl fun _ => id
  refine SemInv.v (SemInv.record hfree ?_ ?_) ⟨hq.lt_created, hq.nodup, hq.queued_lt, hq.free⟩
    (.lock l) fun he => absurd he hs
  · simp
  · simp

/-- A wake of a condition. -/
theorem SemInv.wake {c n : Nat} (h : SemInv v0 s m) : SemInv v0 s (m.wake c n) := by
  have hqueue : SemInv v0 s
      { m with queue := update m.queue (.cond c) ((m.queue (.cond c)).drop n) } :=
    h.frame le_rfl rfl (by simp) rfl rfl fun _ => id
  refine SemInv.record hqueue ?_ ?_
  · intro hmem
    obtain ⟨u, _, hu⟩ := List.mem_map.mp hmem
    cases hu
  · intro w hmem
    obtain ⟨u, _, hu⟩ := List.mem_map.mp hmem
    cases hu

/-- A test of another semaphore leaves the loop on `s` alone. -/
theorem pLoop_mem_rest {s' : SemId} (htodo : m.todo t = i :: rest) (hi : i.tests = some (s', cont))
    (hs : s ≠ s') (hloop : .pLoop s ∈ m.todo t) : .pLoop s ∈ rest := by
  rw [htodo] at hloop
  rcases List.mem_cons.mp hloop with rfl | hrest
  · cases hi
    exact absurd rfl hs
  · exact hrest

/-- Only a running thread tests a value. -/
theorem isAwake_of_tests {r : SemId × List (Instr ι)}
    (hi : i.tests = some r) : i.isAwake = true := by
  rcases Instr.tests_cases hi with ⟨n, rfl, _⟩ | ⟨l, rfl, _⟩ | ⟨rfl, _⟩
  · rfl
  · rfl
  · rfl

/-- The thread finds the value zero and joins the queue. -/
theorem SemInv.block {s' : SemId} (h : SemInv v0 s m) (htodo : m.todo t = i :: rest)
    (hi : i.tests = some (s', cont)) (hv : m.value s' = 0) :
    SemInv v0 s ((m.block t (.sem s')).setTodo t (.pLoop s' :: cont ++ rest)) := by
  by_cases hs : s = s'
  · subst hs
    refine ⟨h.value_eq, h.nonneg, h.lt_max, ?_, ?_⟩
    · intro u hu
      by_cases hut : u = t
      · simp [Synch.setTodo, hut]
      · simp only [Synch.setTodo, Synch.block, update_self, List.mem_append,
          List.mem_singleton, hut, or_false] at hu
        simp only [Synch.setTodo, update_of_ne hut]
        exact h.parked u hu
    · exact .of_nonpos hv.le
  · have hq' : QueueId.sem s ≠ .sem s' := by
      simpa using hs
    have hblock : SemInv v0 s (m.block t (.sem s')) :=
      h.frame le_rfl rfl (update_of_ne hq' _ _) rfl rfl fun _ => id
    refine hblock.setTodo fun hloop => ?_
    exact List.mem_append_right _ (pLoop_mem_rest htodo hi hs hloop)

/-- The thread takes a unit.  It is not on the queue. -/
theorem SemInv.pass {s' : SemId} (h : SemInv v0 s m) (htodo : m.todo t = i :: rest)
    (hi : i.tests = some (s', cont)) (hv : m.value s' ≠ 0) (hfree : t ∉ m.queue (.sem s')) :
    SemInv v0 s ((m.pass t s').setTodo t (cont ++ rest)) := by
  by_cases hs : s = s'
  · subst hs
    have hnonneg := h.nonneg
    have hlt := h.lt_max
    have hvalue : i32 (m.value s - 1) = m.value s - 1 := i32_eq (by omega) (by omega)
    refine ⟨?_, ?_, ?_, ?_, ?_⟩
    · have := h.value_eq
      simp only [Synch.setTodo, Synch.pass, Synch.record, update_self, hvalue, vCount, pCount,
        List.count_append, List.countP_append] at this ⊢
      simp [Event.isPDone]
      omega
    · simp only [Synch.setTodo, Synch.pass, Synch.record, update_self, hvalue]
      omega
    · simp only [Synch.setTodo, Synch.pass, Synch.record, update_self, hvalue]
      omega
    · intro u hu
      have hut : u ≠ t := fun he => hfree (he ▸ hu)
      simp only [Synch.setTodo, update_of_ne hut]
      exact h.parked u hu
    · simp only [Synch.setTodo, Synch.pass, Synch.record, update_self, hvalue]
      refine h.noLost.take (t := t) (woken_erase_subset rfl (fun _ _ => id) ?_)
      intro u hut
      simp [update_of_ne hut]
  · have hpass : SemInv v0 s (m.pass t s') := by
      have hvalue : SemInv v0 s { m with value := update m.value s' (i32 (m.value s' - 1)) } :=
        h.frame le_rfl (update_of_ne hs _ _) rfl rfl rfl fun _ => id
      refine SemInv.record hvalue ?_ ?_
      · simp
      · simp [hs]
    refine hpass.setTodo fun hloop => ?_
    exact List.mem_append_right _ (pLoop_mem_rest htodo hi hs hloop)

/-- Every step keeps the invariant of every semaphore whose value is not at its
maximum when the step is a `V`. -/
theorem SemInv.step {prog : Program ι σ η} {n : Nat} (h : SemInv v0 (.sem n) m)
    (hd : m.Dispatched t o)
    (hroom : o = .exec (.call (.v n)) → m.value (.sem n) < 2 ^ 31 - 1)
    (hstep : Step prog t o m m') : SemInv v0 (.sem n) m' := by
  cases hstep with
  | quiet => exact h
  | newThread => exact h.frame (Nat.le_succ _) rfl rfl rfl rfl fun _ => id
  | @fork _ u func rest htodo hut hfresh =>
    have hcaller : SemInv v0 (.sem n) (m.setTodo t rest) := by
      refine h.setTodo fun hloop => ?_
      simpa [htodo] using hloop
    refine hcaller.setTodo fun hloop => ?_
    simp [Synch.setTodo, update_of_ne hut, hfresh] at hloop
  | finish htodo hrest =>
    refine h.setTodo fun hloop => ?_
    simp [htodo, hrest] at hloop
  | client sch htodo hs hexec =>
    refine (h.setShared _).setTodo fun hloop => ?_
    simp only [htodo, List.mem_cons, reduceCtorEq, false_or] at hloop
    exact List.mem_append_right _ hloop
  | block htodo hi hv => exact h.block htodo hi hv
  | pass htodo hi hv =>
    refine h.pass htodo hi hv (hd.free _ rfl ?_ _)
    exact isAwake_of_tests hi
  | v htodo =>
    refine (h.v hd _ fun he => hroom (by cases he; rfl)).setTodo fun hloop => ?_
    simpa [Synch.v, Synch.record, htodo] using hloop
  | release htodo =>
    refine (h.release hd (by simp)).setTodo fun hloop => ?_
    simpa [Synch.release, Synch.v, Synch.record, htodo] using hloop
  | @wait _ c l rest htodo =>
    have hrec : SemInv v0 (.sem n) (m.record [.waitRelease t c]) := h.record (by simp) (by simp)
    have hd' : (m.record [.waitRelease t c]).Dispatched t _ :=
      ⟨hd.lt_created, hd.nodup, hd.queued_lt, hd.free⟩
    refine (hrec.release hd' (by simp)).setTodo fun hloop => ?_
    simpa [Synch.release, Synch.v, Synch.record, htodo] using hloop
  | wake htodo hi hh =>
    refine h.wake.setTodo fun hloop => ?_
    rcases wakes_cases hi with rfl | rfl <;> simpa [Synch.wake, Synch.record, htodo] using hloop
  | noWake htodo hi hh =>
    refine h.setTodo fun hloop => ?_
    rcases wakes_cases hi with rfl | rfl <;> simpa [htodo] using hloop
  | @acquired _ l rest htodo =>
    have hhold : SemInv v0 (.sem n)
        { m with holdingThread := update m.holdingThread l (some (m.address t)) } :=
      h.frame le_rfl rfl rfl rfl rfl fun _ => id
    refine (hhold.record (by simp) (by simp)).setTodo fun hloop => ?_
    simpa [Synch.record, htodo] using hloop
  | @waitAppend _ c rest htodo =>
    have hblock : SemInv v0 (.sem n) (m.block t (.cond c)) :=
      h.frame le_rfl rfl (by simp [Synch.block]) rfl rfl fun _ => id
    refine (hblock.record (by simp) (by simp)).setTodo fun hloop => ?_
    simpa [Synch.record, Synch.block, htodo] using hloop
  | waitReturn htodo =>
    refine h.setTodo fun hloop => ?_
    simpa [htodo] using hloop
  | start cs htodo =>
    refine h.setTodo fun hloop => ?_
    simp [htodo] at hloop
  | interrupt hhandler =>
    refine (h.setShared _).setTodo fun hloop => ?_
    exact List.mem_append_right _ hloop

end Steps

end Synch

namespace Kernel

/-- The threads that a `V` has taken off the queue and that have not tested
the value since. -/
def woken (k : Kernel ι σ) (s : SemId) : Finset ThreadPtr :=
  (Finset.range k.sched.created).filter fun t =>
    .pLoop s ∈ k.code t ∧ t ∉ (k.sched.queue (.sem s)).items

/-- The value is the balance of the history, and no thread sleeps while a
unit is unclaimed. -/
def SemaphoreSafe (k : Kernel ι σ) (s : SemId) (initialValue : Int) : Prop :=
  0 ≤ k.value s ∧
  k.value s = initialValue + vCount k.log s - pCount k.log s ∧
  (k.sched.queue (.sem s) ≠ [] → k.value s ≤ (k.woken s).card)

theorem synch_woken (k : Kernel ι σ) (s : SemId) : k.synch.woken s = k.woken s := by
  ext t
  simp [Synch.woken, woken, synch, synchCode, Instr.isSynch]

theorem semaphoreSafe_of_semInv {k : Kernel ι σ} {s : SemId} {v0 : Int}
    (h : Synch.SemInv v0 s k.synch) : k.SemaphoreSafe s v0 := by
  refine ⟨h.nonneg, h.value_eq, ?_⟩
  intro hq
  rw [← synch_woken]
  apply h.noLost
  simpa [synch, NachosList.items] using hq

/-- The semaphore that a program starts with. -/
theorem semInv_init (initialValue : Nat → Int) (holding : Nat → Option ThreadPtr)
    (shared : σ) (s : SemId)
    (h0 : 0 ≤ (init initialValue holding shared : Kernel ι σ).value s)
    (hmax : (init initialValue holding shared : Kernel ι σ).value s < 2 ^ 31) :
    Synch.SemInv ((init initialValue holding shared : Kernel ι σ).value s) s
      (init initialValue holding shared : Kernel ι σ).synch where
  value_eq := by simp [init, synch, vCount, pCount]
  nonneg := h0
  lt_max := hmax
  parked := by simp [init, synch, Sched.init]
  noLost := by simp [init, synch, Sched.init, NoLostWakeup]

/-- `V` on the semaphore is not called when its value is the largest `int`. -/
def NoOverflow (n : Nat) (k : Kernel ι σ) (a : Action ι η) : Prop :=
  match a, k.code k.cur with
  | .exec, .call (.v n') :: _ => n' ≠ n ∨ k.value (.sem n) < 2 ^ 31 - 1
  | _, _ => True

instance (n : Nat) (k : Kernel ι σ) (a : Action ι η) : Decidable (k.NoOverflow n a) :=
  decidable_of_iff
    ((match a, k.code k.cur with
      | .exec, .call (.v n') :: _ => decide (n' ≠ n ∨ k.value (.sem n) < 2 ^ 31 - 1)
      | _, _ => true) = true)
    (by unfold NoOverflow; split <;> simp)

theorem room_of_noOverflow {n : Nat} {k : Kernel ι σ} {a : Action ι η} (h : k.NoOverflow n a)
    (hl : k.label a = .exec (.call (.v n))) : k.value (.sem n) < 2 ^ 31 - 1 := by
  obtain ⟨rfl, rest, hcode⟩ := label_eq_exec hl
  simp only [NoOverflow, hcode] at h
  exact h.resolve_left fun hne => hne rfl

/-- In every run in which `V` does not overflow the value, for every semaphore with
a nonnegative initial value: the value is nonnegative, it is the balance of the
history, and no wakeup is lost. -/
theorem semaphore_safe (prog : Program ι σ η) (initialValue : Nat → Int)
    (holding : Nat → Option ThreadPtr) (shared : σ) (as : List (Action ι η))
    (k : Kernel ι σ) (n : Nat) (h0 : 0 ≤ initialValue n) (hmax : initialValue n < 2 ^ 31)
    (hok : Along (step prog) (fun k a => k.ForkOnce a ∧ k.NoOverflow n a)
      (init initialValue holding shared) as)
    (hrun : run (step prog) (init initialValue holding shared) as = some k) :
    k.SemaphoreSafe (.sem n) (initialValue n) := by
  have hinit := semInv_init initialValue holding shared (ι := ι) (.sem n) h0 hmax
  have hinv := synch_invariant (fun _ _ h => h.1)
    (fun k a _ hk hok hI => hI.step (dispatched_of_control hk a) (room_of_noOverflow hok.2))
    (control_init _ _ _) hinit hok hrun
  exact semaphoreSafe_of_semInv hinv.2

/-- The main thread forks two threads that wait on semaphore `0`, yields, and calls
`V`. -/
def waitTwo : List (Action Unit Nat) :=
  .start [.newThread 255, .newThread 255, .fork 1 (), .fork 2 (), .yield, .v 0] ::
    List.replicate 23 .exec

/-- One of the two is still on the queue, and the unit is there for the other. -/
theorem semaphore_safe_waiter : ∃ k : Kernel Unit Unit,
    run (step waiter) (init (fun _ => 0) (fun _ => none) ()) waitTwo = some k ∧
      (k.sched.queue (.sem (.sem 0))).items = [2] ∧ k.value (.sem 0) = 1 ∧
      k.SemaphoreSafe (.sem 0) 0 :=
  ⟨_, rfl, rfl, rfl, semaphore_safe waiter (fun _ => 0) (fun _ => none) () waitTwo _ 0 le_rfl
    (by decide) (by decide) rfl⟩

/-- `V` on a semaphore whose value is the largest `int`. -/
theorem semaphore_overflows : ∃ k : Kernel Unit Unit,
    run (step waiter) (init (fun _ => 2147483647) (fun _ => none) ()) [.start [.v 0], .exec] =
        some k ∧
      k.value (.sem 0) = -2147483648 ∧ ¬k.SemaphoreSafe (.sem 0) 2147483647 :=
  ⟨_, rfl, rfl, fun h => absurd h.1 (by decide)⟩

end Kernel

end Nachos.Threads

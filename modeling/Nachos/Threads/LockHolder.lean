import Nachos.Threads.Lock

/-!
# The holder of a lock

`Acquire` sets `holdingThread` and `Release` clears it.  The constructor of `Lock`
does neither, so until the first `Acquire` has completed the field holds what the
allocator has left there.  The field is an address.  A thread that finishes without
`Release` is deleted, and a new thread may be built at its address.

`HolderInv` says what the field is worth: before the first `Acquire` it is the
initial value, and afterwards it is the address of the holder.  Together with
`LockInv.holder` this decides when `isHeldByCurrentThread` is right
(`reportsHolder_iff`).  `Signal` and `Broadcast` ask it, and they act for the holder
and for nobody else under the same condition.
-/

namespace Nachos.Threads

open Function Lib

variable {ι σ η : Type}

/-- Some thread has completed `Acquire`. -/
def Acquired (log : List Event) (l : Nat) : Prop := ∃ u, .acquired u l ∈ log

theorem Acquired.append {log : List Event} {l : Nat} (h : Acquired log l) (es : List Event) :
    Acquired (log ++ es) l := by
  obtain ⟨u, hu⟩ := h
  exact ⟨u, List.mem_append_left es hu⟩

/-- Only the end of `Acquire` makes a thread hold the lock. -/
theorem next_ne_held {t : ThreadPtr} {l : Nat} {ph : LockPhase} {e : Event} (hph : ph ≠ .held)
    (he : e ≠ .acquired t l) : LockPhase.next t l ph e ≠ .held := by
  cases e with
  | pDone u s =>
      cases s with
      | sem n => exact hph
      | lock l' =>
          simp only [LockPhase.next]
          split
          · intro hheld
            cases hheld
          · exact hph
  | acquired u l' =>
      simp only [LockPhase.next]
      split
      · rename_i hsame
        exact absurd (by rw [hsame.1, hsame.2]) he
      · exact hph
  | release u l' =>
      simp only [LockPhase.next]
      split
      · intro hheld
        cases hheld
      · exact hph
  | _ => exact hph

theorem acquired_of_holds {log : List Event} {t : ThreadPtr} {l : Nat} (h : Holds log t l) :
    Acquired log l := by
  by_contra hnone
  have hnot : ∀ (es : List Event) (ph : LockPhase), ph ≠ .held → (∀ e ∈ es, e ∈ log) →
      es.foldl (LockPhase.next t l) ph ≠ .held := by
    intro es
    induction es with
    | nil => exact fun ph hph _ => hph
    | cons e es ih =>
        intro ph hph hes
        refine ih _ (next_ne_held hph ?_) fun e' he' => hes e' (List.mem_cons_of_mem e he')
        rintro rfl
        exact hnone ⟨t, hes _ List.mem_cons_self⟩
  exact hnot log .out nofun (fun e he => he) h

namespace Synch

/-- What `holdingThread` is worth. -/
structure HolderInv (l : Nat) (initial : Option Nat) (m : Synch ι σ) : Prop where
  untouched : ¬Acquired m.log l → m.holdingThread l = initial
  exact : Acquired m.log l → ∀ p, m.holdingThread l = some p →
    ∃ t, m.address t = p ∧ Holds m.log t l

section Steps

variable {m m' : Synch ι σ} {l : Nat} {t : ThreadPtr} {o : Label ι} {initial : Option Nat}

/-- A step that neither completes an `Acquire` of the lock nor starts a
`Release`. -/
theorem HolderInv.frame {es : List Event} (h : HolderInv l initial m)
    (ha : m'.address = m.address) (hh : m'.holdingThread l = m.holdingThread l)
    (hlog : m'.log = m.log ++ es)
    (hes : ∀ u, .acquired u l ∉ es) (hph : ∀ u, Holds m.log u l → Holds m'.log u l) :
    HolderInv l initial m' where
  untouched hnone := by
    rw [hh]
    refine h.untouched fun hacquired => hnone ?_
    rw [hlog]
    exact hacquired.append es
  exact := by
    rintro ⟨w, hw⟩ p hp
    rw [hlog] at hw
    rcases List.mem_append.mp hw with hold | hnew
    · obtain ⟨u, hu, hholds⟩ := h.exact ⟨w, hold⟩ p (hh ▸ hp)
      exact ⟨u, by rw [ha, hu], hph u hholds⟩
    · exact absurd hnew (hes w)

/-- A step without events. -/
theorem HolderInv.quiet (h : HolderInv l initial m) (ha : m'.address = m.address)
    (hh : m'.holdingThread l = m.holdingThread l) (hlog : m'.log = m.log) :
    HolderInv l initial m' := by
  refine h.frame ha hh (hlog.trans (List.append_nil _).symm) (fun _ => List.not_mem_nil)
    fun u hu => ?_
  rwa [hlog]

/-- A step with events that do not concern the lock. -/
theorem HolderInv.keep {es : List Event} (h : HolderInv l initial m)
    (ha : m'.address = m.address) (hh : m'.holdingThread l = m.holdingThread l)
    (hlog : m'.log = m.log ++ es)
    (hes : ∀ u, ∀ e ∈ es, ∀ ph, LockPhase.next u l ph e = ph) : HolderInv l initial m' := by
  refine h.frame ha hh hlog (fun u hu => ?_) fun u hu => ?_
  · have hnext := hes u _ hu .out
    simp [LockPhase.next] at hnext
  · rw [Holds, hlog, lockPhase_append, foldl_next_eq (hes u)]
    exact hu

/-- The lock is released by its holder. -/
theorem HolderInv.released (hheld : Holds m.log t l) {es : List Event}
    (hlog : m'.log = m.log ++ es) (hnone : m'.holdingThread l = none) :
    HolderInv l initial m' where
  untouched hnot := by
    refine absurd ?_ hnot
    rw [hlog]
    exact (acquired_of_holds hheld).append es
  exact _ p hp := by
    rw [hnone] at hp
    cases hp

/-- `Acquire` completes. -/
theorem HolderInv.taken (hlog : m'.log = m.log ++ [.acquired t l])
    (hsome : m'.holdingThread l = some (m'.address t)) : HolderInv l initial m' where
  untouched hnot := by
    refine absurd ⟨t, ?_⟩ hnot
    rw [hlog]
    exact List.mem_append_right _ (List.mem_singleton.mpr rfl)
  exact _ p hp := by
    refine ⟨t, Option.some.inj (hsome.symm.trans hp), ?_⟩
    rw [Holds, hlog, lockPhase_append]
    exact if_pos ⟨rfl, rfl⟩

/-- Every step by a disciplined thread keeps what `holdingThread` is worth. -/
theorem HolderInv.step {prog : Program ι σ η} (h : HolderInv l initial m) (hlock : LockInv l m)
    (hdisc : Disciplined l m t o) (hstep : Step prog t o m m') : HolderInv l initial m' := by
  cases hstep with
  | quiet | newThread | fork | finish | client | block | noWake | waitReturn | start | interrupt =>
      exact h.quiet rfl rfl rfl
  | @pass _ i rest s cont htodo hi hv =>
      by_cases hs : s = .lock l
      · subst hs
        refine h.frame rfl rfl rfl (fun u hu => nomatch List.mem_singleton.mp hu) fun u hu => ?_
        rw [Holds, (hlock.out_of_value hv).2 u] at hu
        cases hu
      · exact h.keep rfl rfl rfl (next_pDone_of_ne hs t)
  | v htodo | waitAppend htodo => exact h.keep rfl rfl rfl (by simp [LockPhase.next])
  | @release _ l' rest htodo =>
      by_cases hl : l' = l
      · subst hl
        exact .released (hdisc.1 rfl) (log_release m t l' rest) (update_self _ _ _)
      · exact h.keep rfl (update_of_ne (Ne.symm hl) _ _) (log_release m t l' rest)
          (by simp [LockPhase.next, hl])
  | @wait _ c l' rest htodo =>
      by_cases hl : l' = l
      · subst hl
        exact .released (hdisc.2 c rfl) (log_wait m t c l' _) (update_self _ _ _)
      · exact h.keep rfl (update_of_ne (Ne.symm hl) _ _) (log_wait m t c l' _)
          (by simp [LockPhase.next, hl])
  | wake htodo hi hh => exact h.keep rfl rfl rfl (next_wake _ _ l)
  | @acquired _ l' rest htodo =>
      by_cases hl : l' = l
      · subst hl
        exact .taken rfl (update_self _ _ _)
      · exact h.keep rfl (update_of_ne (Ne.symm hl) _ _) rfl (by simp [LockPhase.next, hl])

end Steps

end Synch

namespace Kernel

/-- `Lock::isHeldByCurrentThread`. -/
def isHeldByCurrentThread (k : Kernel ι σ) (l : Nat) : Bool :=
  k.holdingThread l == some k.curAddress

/-- `Signal` or `Broadcast` makes the `n` threads ready that have waited longest,
and restores the interrupt level. -/
def wakes (k : Kernel ι σ) (c n : Nat) (sched : Sched) (rest : List (Instr ι)) : Kernel ι σ :=
  ({ k.disable with sched := sched }.record (k.wakeEvents c n)).setCode
    (.setLevel k.level :: rest)

/-- `Signal` or `Broadcast` only turns interrupts off and on. -/
def wakesNone (k : Kernel ι σ) (rest : List (Instr ι)) : Kernel ι σ :=
  k.disable.setCode (.setLevel k.level :: rest)

/-- The lock reports to the current thread whether it is the holder, and `Signal`
and `Broadcast` act for the holder and for nobody else. -/
structure ReportsHolder (k : Kernel ι σ) (l : Nat) : Prop where
  held : k.isHeldByCurrentThread l = true ↔ Holds k.log k.cur l
  signal : Holds k.log k.cur l → ∀ c rest,
    k.signal c l rest = k.wakes c 1 (k.sched.wake (.cond c)) rest
  noSignal : ¬Holds k.log k.cur l → ∀ c rest, k.signal c l rest = k.wakesNone rest
  broadcast : Holds k.log k.cur l → ∀ c rest, k.broadcast c l rest =
    k.wakes c (k.sched.queue (.cond c)).length (k.sched.wakeAll (.cond c)) rest
  noBroadcast : ¬Holds k.log k.cur l → ∀ c rest, k.broadcast c l rest = k.wakesNone rest

theorem isHeldByCurrentThread_iff (k : Kernel ι σ) (l : Nat) :
    k.isHeldByCurrentThread l = true ↔ k.holdingThread l = some k.curAddress :=
  beq_iff_eq

/-- `Signal` and `Broadcast` depend on the lock through `isHeldByCurrentThread`
only. -/
theorem reportsHolder_of_held {k : Kernel ι σ} {l : Nat}
    (h : k.isHeldByCurrentThread l = true ↔ Holds k.log k.cur l) : k.ReportsHolder l := by
  have hfield : Holds k.log k.cur l ↔ k.holdingThread l = some k.curAddress :=
    h.symm.trans (k.isHeldByCurrentThread_iff l)
  refine ⟨h, fun hholds c rest => ?_, fun hnot c rest => ?_, fun hholds c rest => ?_,
    fun hnot c rest => ?_⟩
  · rw [Kernel.signal, if_pos (hfield.mp hholds)]
    rfl
  · rw [Kernel.signal, if_neg fun hc => hnot (hfield.mpr hc)]
    rfl
  · rw [Kernel.broadcast, if_pos (hfield.mp hholds)]
    rfl
  · rw [Kernel.broadcast, if_neg fun hc => hnot (hfield.mpr hc)]
    rfl

theorem address_step {prog : Program ι σ η} {m m' : Synch ι σ} {t : ThreadPtr} {o : Label ι}
    (hstep : Synch.Step prog t o m m') : m'.address = m.address := by
  cases hstep with
  | _ => rfl

/-- In every run in which the threads are disciplined, wherever the allocator puts
the threads, a lock reports its holder exactly when two things hold.  Some thread
has completed an `Acquire` of it, or the field did not name the current thread by
accident when the lock was constructed.  And the current thread does not lie where a
thread lay that has been deleted while it held the lock. -/
theorem reportsHolder_iff (prog : Program ι σ η) (address : ThreadPtr → Nat)
    (initialValue : Nat → Int) (holding : Nat → Option Nat) (shared : σ)
    (as : List (Action ι η)) (k : Kernel ι σ)
    (hok : Along (step prog) (fun k a => k.ForkOnce a ∧ k.LockDiscipline a)
      (initAt address initialValue holding shared) as)
    (hrun : run (step prog) (initAt address initialValue holding shared) as = some k)
    (l : Nat) :
    k.ReportsHolder l ↔
      (Acquired k.log l ∨ holding l ≠ some (address k.cur)) ∧
        ∀ t, Holds k.log t l → k.sched.destroyed t = true → address t ≠ address k.cur := by
  have h0 : Synch.LockInv l (initAt address initialValue holding shared : Kernel ι σ).synch ∧
      Synch.HolderInv l (holding l)
        (initAt address initialValue holding shared : Kernel ι σ).synch ∧
      (initAt address initialValue holding shared : Kernel ι σ).synch.address = address := by
    refine ⟨lockInv_initAt address initialValue holding shared l, ⟨fun _ => rfl, ?_⟩, rfl⟩
    rintro ⟨u, hu⟩
    cases hu
  obtain ⟨hcontrol, hlock, hholder, haddress⟩ := synch_invariant
    (I := fun m => Synch.LockInv l m ∧ Synch.HolderInv l (holding l) m ∧ m.address = address)
    (fun _ _ h => h.1)
    (fun k a _ hk hok hI hstep =>
      ⟨hI.1.step (dispatched_of_control hk a) (disciplined_of_lockDiscipline hok.2 l) hstep,
        hI.2.1.step hI.1 (disciplined_of_lockDiscipline hok.2 l) hstep,
        (address_step hstep).trans hI.2.2⟩)
    (control_initAt address _ _ _) h0 hok hrun
  subst haddress
  have hexact : ∀ t, Holds k.log t l → k.holdingThread l = some (k.sched.address t) :=
    hlock.holder
  constructor
  · intro h
    refine ⟨?_, fun t hholds hdestroyed heq => ?_⟩
    · by_cases hacquired : Acquired k.log l
      · exact Or.inl hacquired
      · refine Or.inr fun hinitial => hacquired ?_
        -- The field still has its initial value, which names the current thread.
        have hfield : k.holdingThread l = some k.curAddress :=
          (hholder.untouched hacquired).trans hinitial
        exact acquired_of_holds (h.held.mp ((k.isHeldByCurrentThread_iff l).mpr hfield))
    · -- The field names the deleted holder, and so the current thread.
      have hfield : k.holdingThread l = some k.curAddress :=
        (hexact t hholds).trans (congrArg some heq)
      have hcur := h.held.mp ((k.isHeldByCurrentThread_iff l).mpr hfield)
      rw [hlock.unique hholds hcur, hcontrol.sched.current_kept] at hdestroyed
      cases hdestroyed
  · rintro ⟨hfirst, hdeleted⟩
    refine reportsHolder_of_held ⟨fun hheld => ?_, fun hholds => ?_⟩
    · have hfield := (k.isHeldByCurrentThread_iff l).mp hheld
      by_cases hacquired : Acquired k.log l
      · obtain ⟨t, ht, hholds⟩ := hholder.exact hacquired _ hfield
        have hlive : k.sched.Live t :=
          ⟨hlock.lt_created (hholds ▸ nofun),
            Bool.eq_false_iff.mpr fun hd => hdeleted t hholds hd ht⟩
        have hcur : k.sched.Live k.cur :=
          ⟨hcontrol.sched.current_lt, hcontrol.sched.current_kept⟩
        rwa [← hcontrol.sched.address_unique t k.cur hlive hcur ht]
      · have hinitial := (hholder.untouched hacquired).symm.trans hfield
        exact absurd hinitial (hfirst.resolve_left hacquired)
    · exact (k.isHeldByCurrentThread_iff l).mpr (hexact k.cur hholds)

/-- The main thread forks a thread that takes a lock and finishes, and then another
one, which has started. -/
def keepers : List (Action Unit Nat) :=
  .start [.newThread 255, .fork 1 (), .yield, .newThread 255, .fork 2 (), .yield] ::
    List.replicate 25 .exec

/-- The allocator puts thread `2` where thread `1` lay. -/
def reused (t : ThreadPtr) : Nat := if t = 2 then 1 else t

/-- Thread `2` has never called `Acquire`.  The lock reports it as the holder if it
lies where thread `1` lay, and not if it lies elsewhere. -/
theorem reportsHolder_iff_deleted :
    (∃ k : Kernel Unit Unit,
      run (step keeper) (initAt reused (fun _ => 0) (fun _ => none) ()) keepers = some k ∧
        k.cur = 2 ∧ k.isHeldByCurrentThread 0 = true ∧ ¬k.ReportsHolder 0) ∧
    ∃ k : Kernel Unit Unit,
      run (step keeper) (initAt (fun t => t) (fun _ => 0) (fun _ => none) ()) keepers = some k ∧
        k.cur = 2 ∧ k.sched.destroyed 1 = true ∧ k.ReportsHolder 0 := by
  refine ⟨⟨_, rfl, rfl, rfl, fun h => ?_⟩, _, rfl, rfl, rfl, ?_⟩
  · exact ((reportsHolder_iff keeper reused (fun _ => 0) (fun _ => none) () keepers _
      (by decide) rfl 0).mp h).2 1 rfl rfl rfl
  · refine (reportsHolder_iff keeper (fun t => t) (fun _ => 0) (fun _ => none) () keepers _
      (by decide) rfl 0).mpr ⟨Or.inl ⟨1, by decide⟩, fun t hholds _ ht => ?_⟩
    -- thread `2` is the current one, and it does not hold the lock
    subst ht
    cases hholds

/-- The field of a new lock names the main thread, which has not called `Acquire`
and calls `Signal`. -/
theorem new_lock_reports_holder : ∃ k : Kernel Unit Unit,
    run (step waiter) (init (fun _ => 0) (fun _ => some 0) ()) [.start [.signal 0 0]] = some k ∧
      k.log = [] ∧ k.isHeldByCurrentThread 0 = true ∧ ¬Holds k.log k.cur 0 ∧
      ¬k.ReportsHolder 0 := by
  refine ⟨_, rfl, rfl, rfl, nofun, fun h => ?_⟩
  exact nomatch h.held.mp rfl

end Kernel

end Nachos.Threads

import Nachos.Threads.Kernel

/-!
# The control invariant of the kernel

A thread is in one of three modes: it runs with interrupts on, it runs with
interrupts off, or it is inside `Thread::Sleep`, waiting for a thread to
dispatch.  `Wf m is` says that the code `is` can be executed in mode `m`: the
mode at every later instruction follows from the instructions before it, and
every instruction meets the mode that its routine expects.  It plays the role
of a type for the stack of a thread.

`Control` is the invariant: the queues are consistent, the code of the current
thread fits the mode of the machine, and the code of every suspended thread
can be resumed with interrupts off.  `control_step` proves that every step
keeps it, from one lemma for each routine.
-/

namespace Nachos.Threads

open Function

/-- How a thread executes. -/
inductive Mode where
  | enabled
  | disabled
  | asleep
  deriving DecidableEq

/-- A running thread with this interrupt level. -/
def IntStatus.mode : IntStatus → Mode
  | .intOn => .enabled
  | .intOff => .disabled

variable {ι σ η : Type}

/-- The calls that occur in each mode.  A thread calls a routine from its own
code with interrupts on.  With interrupts off there are only the `Acquire`
inside `Wait` and the `V` of an interrupt handler, and in the idle loop only
the latter. -/
def Call.Allowed : Call ι → Mode → Prop
  | _, .enabled => True
  | .acquire _, .disabled => True
  | .v _, .disabled => True
  | .v _, .asleep => True
  | _, _ => False

/-- The code can be executed in the mode. -/
def Wf : Mode → List (Instr ι) → Prop
  | m, [] => m = .enabled
  | m, .call c :: is => c.Allowed m ∧ Wf m is
  | m, .setLevel l :: is =>
      m = .disabled ∧ Wf l.mode is ∨ m = .asleep ∧ l = .intOff ∧ Wf .asleep is
  | m, .dueLoop :: is => m = .disabled ∧ Wf .enabled is
  | m, .sleep :: is => m = .asleep ∧ Wf .disabled is
  | m, .idle :: is => m = .asleep ∧ Wf .asleep is
  | m, .pLoop _ :: is => m = .disabled ∧ Wf .disabled is
  | m, .acquired _ :: is => m ≠ .asleep ∧ Wf m is
  | m, .waitAppend _ :: is => m = .disabled ∧ Wf .disabled is
  | m, .waitReturn _ _ :: is => m ≠ .asleep ∧ Wf m is
  | m, .afterSwitch :: is => m = .disabled ∧ Wf .disabled is
  | m, .threadRoot :: is => m = .disabled ∧ Wf .enabled is
  | m, .notReached :: _ => m = .disabled

namespace Kernel

/-- The mode of the machine. -/
def mode (k : Kernel ι σ) : Mode :=
  if k.sched.status k.cur = .running then k.level.mode else .asleep

/-- The stacks of the threads that do not execute: a suspended thread can be
resumed with interrupts off, and a thread that has not been forked has no
stack. -/
structure Suspended (s : Sched) (code : ThreadPtr → List (Instr ι)) : Prop where
  resumable : ∀ t, t < s.created → t ≠ s.currentThread → s.status t ≠ .justCreated →
    Wf .disabled (code t)
  fresh : ∀ t, s.created ≤ t ∨ s.status t = .justCreated → code t = []

/-- The part of the control invariant that a routine may use at every place
in its code. -/
structure Base (k : Kernel ι σ) : Prop where
  sched : k.sched.Consistent
  awake : k.level = .intOn → k.sched.status k.cur = .running
  suspended : Suspended k.sched k.code

/-- The control invariant. -/
structure Control (k : Kernel ι σ) : Prop extends Base k where
  current : Wf k.mode (k.code k.cur)

/-- Each thread is forked at most once, and only after its construction. -/
def ForkOnce (k : Kernel ι σ) (a : Action ι η) : Prop :=
  match a, k.code k.cur with
  | .exec, .call (.fork t _) :: _ =>
      t < k.sched.created ∧ k.sched.status t = .justCreated
  | _, _ => True

instance (k : Kernel ι σ) (a : Action ι η) : Decidable (k.ForkOnce a) := by
  unfold ForkOnce
  split <;> infer_instance

/-! ## Modes -/

variable {k : Kernel ι σ}

theorem mode_eq_enabled (h : k.mode = .enabled) :
    k.level = .intOn ∧ k.sched.status k.cur = .running := by
  unfold mode at h
  split at h
  · rename_i hr
    cases hl : k.level with
    | intOn => exact ⟨rfl, hr⟩
    | intOff => simp [hl, IntStatus.mode] at h
  · cases h

theorem mode_eq_disabled (h : k.mode = .disabled) :
    k.level = .intOff ∧ k.sched.status k.cur = .running := by
  unfold mode at h
  split at h
  · rename_i hr
    cases hl : k.level with
    | intOn => simp [hl, IntStatus.mode] at h
    | intOff => exact ⟨rfl, hr⟩
  · cases h

theorem mode_eq_asleep (hc : k.Base) (h : k.mode = .asleep) :
    k.level = .intOff ∧ k.sched.status k.cur ≠ .running := by
  have hr : k.sched.status k.cur ≠ .running := by
    intro hr
    rw [mode, if_pos hr] at h
    cases hl : k.level <;> simp [hl, IntStatus.mode] at h
  cases hl : k.level with
  | intOn => exact absurd (hc.awake hl) hr
  | intOff => exact ⟨rfl, hr⟩

/-- A thread that does not sleep is running. -/
theorem running_of_mode (h : k.mode ≠ .asleep) :
    k.sched.status k.cur = .running ∧ k.mode = k.level.mode := by
  unfold mode at h ⊢
  split at h
  · rename_i hr
    exact ⟨hr, if_pos hr⟩
  · exact absurd rfl h

/-! ## Building the invariant -/

section Build

variable {k : Kernel ι σ} {is : List (Instr ι)}

/-- A change of the code of the current thread leaves the suspended threads
alone. -/
theorem Suspended.setCode {s : Sched} {code : ThreadPtr → List (Instr ι)}
    (h : Suspended s code) (hs : s.Consistent) :
    Suspended s (update code s.currentThread is) := by
  constructor
  · intro t hlt hne hst
    rw [update_of_ne hne]
    exact h.resumable t hlt hne hst
  · intro t ht
    rw [update_of_ne]
    · exact h.fresh t ht
    · rintro rfl
      rcases ht with hle | hst
      · exact absurd hs.current_lt (Nat.not_lt.mpr hle)
      · exact hs.current_started hst

/-- The invariant after a piece of a routine that ends with the current thread
running. -/
theorem control_running (hs : k.sched.Consistent) (hsus : Suspended k.sched k.code)
    (hr : k.sched.status k.cur = .running) (hwf : Wf k.level.mode is) :
    (k.setCode is).Control where
  sched := hs
  current := by
    simpa [Kernel.setCode, mode, hr] using hwf
  awake _ := hr
  suspended := hsus.setCode hs

/-- The invariant after a piece of a routine that ends inside `Sleep`. -/
theorem control_asleep (hs : k.sched.Consistent) (hsus : Suspended k.sched k.code)
    (hr : k.sched.status k.cur ≠ .running) (hl : k.level = .intOff)
    (hwf : Wf .asleep is) : (k.setCode is).Control where
  sched := hs
  current := by
    simpa [Kernel.setCode, mode, hr] using hwf
  awake hon := by
    have : k.level = .intOn := hon
    rw [hl] at this
    cases this
  suspended := hsus.setCode hs

end Build

/-! ## The suspended threads through the scheduler -/

section Frame

variable {s : Sched} {code : ThreadPtr → List (Instr ι)}

/-- An operation that keeps the current thread and starts no thread. -/
theorem Suspended.of_status {s' : Sched} (h : Suspended s code)
    (hc : s'.created = s.created) (hcur : s'.currentThread = s.currentThread)
    (hst : ∀ t, s'.status t = .justCreated ↔ s.status t = .justCreated) :
    Suspended s' code := by
  constructor
  · intro t hlt hne hj
    rw [hc] at hlt
    rw [hcur] at hne
    exact h.resumable t hlt hne (fun he => hj ((hst t).mpr he))
  · intro t ht
    rw [hc, hst t] at ht
    exact h.fresh t ht

theorem Suspended.wake (h : Suspended s code) (hs : s.Consistent) (q : QueueId) :
    Suspended (s.wake q) code := by
  refine h.of_status (s.wake_created q) (s.wake_currentThread q) fun t => ?_
  rcases hs.wake_status q t with hw | ⟨hb, hw⟩
  · rw [hw]
  · simp [hw, hb]

theorem Suspended.wakeAll (h : Suspended s code) (hs : s.Consistent) (q : QueueId) :
    Suspended (s.wakeAll q) code := by
  refine h.of_status (s.wakeAll_created q) (s.wakeAll_currentThread q) fun t => ?_
  rcases hs.wakeAll_status q t with hw | ⟨hb, hw⟩
  · rw [hw]
  · simp [hw, hb]

private theorem blocked_justCreated_iff (hs : s.Consistent) (t : ThreadPtr) :
    update s.status s.currentThread .blocked t = .justCreated ↔
      s.status t = .justCreated := by
  by_cases ht : t = s.currentThread
  · subst ht
    simp [hs.current_started]
  · rw [update_of_ne ht]

theorem Suspended.block (h : Suspended s code) (hs : s.Consistent) (q : QueueId) :
    Suspended (s.block q) code :=
  h.of_status rfl rfl (blocked_justCreated_iff hs)

theorem Suspended.finish (h : Suspended s code) (hs : s.Consistent) :
    Suspended s.finish code :=
  h.of_status rfl rfl (blocked_justCreated_iff hs)

theorem Suspended.reap {s' : Sched} (h : Suspended s code) (hr : s.reap = some s') :
    Suspended s' code := by
  rcases Sched.reap_spec hr with ⟨rfl, _⟩ | ⟨_, _, _, rfl⟩
  · exact h
  · exact h.of_status rfl rfl fun _ => Iff.rfl

theorem Suspended.newThread {s' : Sched} {p : Int} (h : Suspended s code)
    (hn : s.newThread p = some s') : Suspended s' code := by
  obtain ⟨ids, _, rfl⟩ := Sched.newThread_spec hn
  constructor
  · intro t hlt hne hst
    by_cases ht : t = s.created
    · exact absurd (by simp [ht]) hst
    · refine h.resumable t ?_ hne ?_
      · exact lt_of_le_of_ne (Nat.lt_succ_iff.mp hlt) ht
      · simpa [update_of_ne ht] using hst
  · intro t ht
    by_cases htc : t = s.created
    · exact h.fresh t (Or.inl htc.ge)
    · refine h.fresh t ?_
      rcases ht with hle | hst
      · exact Or.inl (Nat.le_of_succ_le hle)
      · exact Or.inr (by simpa [update_of_ne htc] using hst)

/-- The old thread joins the suspended ones, and the next one leaves them. -/
theorem Suspended.run {next : ThreadPtr} {rest : List (Instr ι)}
    (h : Suspended s code) (hs : s.Consistent) (hwf : Wf .disabled rest)
    (s1 : Sched) (hc : s1.created = s.created)
    (hst : ∀ t, t ≠ s.currentThread → s1.status t = s.status t)
    (hcur : s1.status s.currentThread ≠ .justCreated) (hnext : next < s.created) :
    Suspended (s1.run next) (update code s.currentThread (.afterSwitch :: rest)) := by
  constructor
  · intro t hlt hne hj
    rw [Sched.run_currentThread] at hne
    rw [Sched.run_status, update_of_ne hne] at hj
    rw [Sched.run_created, hc] at hlt
    by_cases ht : t = s.currentThread
    · rw [ht, update_self]
      exact ⟨rfl, hwf⟩
    · rw [update_of_ne ht]
      rw [hst t ht] at hj
      exact h.resumable t hlt ht hj
  · intro t ht
    rw [Sched.run_created, hc, Sched.run_status] at ht
    have hne : t ≠ next := by
      rintro rfl
      rcases ht with hle | hj
      · exact absurd hnext (Nat.not_lt.mpr hle)
      · simp at hj
    rw [update_of_ne hne] at ht
    by_cases htc : t = s.currentThread
    · subst htc
      rcases ht with hle | hj
      · exact absurd hs.current_lt (Nat.not_lt.mpr hle)
      · exact absurd hj hcur
    · rw [hst t htc] at ht
      rw [update_of_ne htc]
      exact h.fresh t ht

end Frame

/-! ## The routines keep the invariant -/

section Routines

variable {k : Kernel ι σ} {rest : List (Instr ι)}

/-- A switch to a thread that could be resumed. -/
theorem control_switchTo {s1 : Sched} {next : ThreadPtr} (h : k.Base)
    (hl : k.level = .intOff) (hwf : Wf .disabled rest)
    (hcons : (s1.run next).Consistent) (hc : s1.created = k.sched.created)
    (hst : ∀ t, t ≠ k.cur → s1.status t = k.sched.status t)
    (hcur : s1.status k.cur ≠ .justCreated)
    (hnext : next < k.sched.created ∧ k.sched.status next ≠ .justCreated) :
    (k.switchTo s1 next rest).Control where
  sched := hcons
  current := by
    have hcode : Wf .disabled (update k.code k.cur (.afterSwitch :: rest) next) := by
      by_cases hn : next = k.cur
      · rw [hn, update_self]
        exact ⟨rfl, hwf⟩
      · rw [update_of_ne hn]
        exact h.suspended.resumable next hnext.1 hn hnext.2
    simpa [switchTo, Kernel.setCode, mode, cur, hl, IntStatus.mode] using hcode
  awake hon := by
    have : k.level = .intOn := hon
    rw [hl] at this
    cases this
  suspended := h.suspended.run h.sched hwf s1 hc hst hcur hnext.1

theorem control_pTest (h : k.Base) (hm : k.mode = .disabled)
    (hwf : Wf .disabled rest) (s : SemId) : (k.pTest s rest).Control := by
  obtain ⟨hl, hr⟩ := mode_eq_disabled hm
  unfold pTest
  split
  · refine control_asleep (h.sched.block hr _) (h.suspended.block h.sched _) ?_ hl
      ⟨rfl, rfl, hwf⟩
    simp [cur]
  · exact control_running h.sched h.suspended hr
      (by simpa [record, hl, IntStatus.mode] using hwf)

/-- Turning interrupts off keeps the base facts. -/
theorem Base.disable (h : k.Base) : k.disable.Base :=
  ⟨h.sched, fun hon => absurd hon (by simp [Kernel.disable]), h.suspended⟩

/-- A running thread that turns interrupts off. -/
theorem mode_disable (hm : k.mode ≠ .asleep) : k.disable.mode = .disabled := by
  obtain ⟨hr, _⟩ := running_of_mode hm
  exact if_pos hr

theorem control_p (h : k.Base) (hm : k.mode ≠ .asleep) (hwf : Wf k.mode rest)
    (s : SemId) : (k.p s rest).Control := by
  rw [(running_of_mode hm).2] at hwf
  have hwf' : Wf .disabled (.setLevel k.level :: rest) := Or.inl ⟨rfl, hwf⟩
  exact control_pTest h.disable (mode_disable hm) hwf' s

/-- A wake leaves a running thread running. -/
theorem running_of_wake {old new : ThreadStatus} (hr : old = .running)
    (hw : new = old ∨ old = .blocked ∧ new = .ready) : new = .running := by
  subst hr
  simpa using hw

/-- After a `V` the level of the caller is restored, also inside the idle
loop. -/
theorem control_v (h : k.Base) (hwf : Wf k.mode rest) (s : SemId) :
    (k.v s rest).Control := by
  have hs := h.sched.wake (.sem s)
  have hsus := h.suspended.wake h.sched (.sem s)
  have hst := h.sched.wake_status (.sem s) k.cur
  by_cases hm : k.mode = .asleep
  · obtain ⟨hl, hr⟩ := mode_eq_asleep h hm
    rw [hm] at hwf
    refine control_asleep hs hsus ?_ rfl (Or.inr ⟨rfl, hl, hwf⟩)
    rcases hst with hw | ⟨_, hw⟩
    · simpa [record, disable, cur, hw] using hr
    · simp [record, disable, cur, hw]
  · obtain ⟨hr, hmode⟩ := running_of_mode hm
    rw [hmode] at hwf
    refine control_running hs hsus ?_ (Or.inl ⟨rfl, hwf⟩)
    simpa [record, disable, cur] using running_of_wake hr hst

theorem control_release (h : k.Base) (hwf : Wf k.mode rest) (l : Nat) :
    (k.release l rest).Control := by
  unfold release
  apply control_v
  · exact ⟨h.sched, h.awake, h.suspended⟩
  · exact hwf

/-- The `Release` inside `Wait` runs with interrupts off, so the level that it
restores is off too. -/
theorem control_wait (h : k.Base) (hm : k.mode ≠ .asleep) (hwf : Wf k.mode rest)
    (c l : Nat) : (k.wait c l rest).Control := by
  rw [(running_of_mode hm).2] at hwf
  have hne : k.level.mode ≠ .asleep := by
    cases k.level <;> simp [IntStatus.mode]
  have hwf' : Wf .disabled (.waitAppend c :: .call (.acquire l) ::
      .setLevel k.level :: .waitReturn c l :: rest) :=
    ⟨rfl, trivial, Or.inl ⟨rfl, hne, hwf⟩⟩
  have hmode : (k.disable.record [.waitRelease k.cur c]).mode = .disabled :=
    mode_disable (k := k) hm
  unfold wait
  apply control_release
  · exact ⟨h.disable.sched, h.disable.awake, h.disable.suspended⟩
  · rw [hmode]
    exact hwf'

/-- The restore of the level at the end of a routine that leaves the current
thread running. -/
theorem control_restore {k' : Kernel ι σ} (hwf : Wf k.mode rest) (hm : k.mode ≠ .asleep)
    (hs : k'.sched.Consistent) (hsus : Suspended k'.sched k'.code)
    (hr : k'.sched.status k'.cur = .running) (hl : k'.level = .intOff) :
    (k'.setCode (.setLevel k.level :: rest)).Control := by
  rw [(running_of_mode hm).2] at hwf
  refine control_running hs hsus hr ?_
  rw [hl]
  exact Or.inl ⟨rfl, hwf⟩

theorem control_signal (h : k.Base) (hm : k.mode ≠ .asleep) (hwf : Wf k.mode rest)
    (c l : Nat) : (k.signal c l rest).Control := by
  have hr := (running_of_mode hm).1
  unfold signal
  split
  · refine control_restore hwf hm (h.sched.wake _) (h.suspended.wake h.sched _) ?_ rfl
    simpa [record, disable, cur] using running_of_wake hr (h.sched.wake_status (.cond c) k.cur)
  · exact control_restore hwf hm h.sched h.suspended hr rfl

theorem control_broadcast (h : k.Base) (hm : k.mode ≠ .asleep) (hwf : Wf k.mode rest)
    (c l : Nat) : (k.broadcast c l rest).Control := by
  have hr := (running_of_mode hm).1
  unfold broadcast
  split
  · refine control_restore hwf hm (h.sched.wakeAll _) (h.suspended.wakeAll h.sched _) ?_ rfl
    simpa [record, disable, cur] using running_of_wake hr (h.sched.wakeAll_status (.cond c) k.cur)
  · exact control_restore hwf hm h.sched h.suspended hr rfl

theorem control_yield (h : k.Base) (hm : k.mode ≠ .asleep) (hwf : Wf k.mode rest) :
    (k.yield rest).Control := by
  have hr := (running_of_mode hm).1
  unfold yield
  cases hl : k.sched.readyList with
  | nil =>
    simp only [Sched.findNextToRun, hl, NachosList.remove_nil]
    exact control_restore hwf hm h.sched h.suspended hr rfl
  | cons e es =>
    simp only [Sched.findNextToRun, hl, NachosList.remove_cons]
    obtain ⟨helt, hest⟩ := (h.sched.mem_ready_iff e.item).mp (by simp [hl])
    rw [(running_of_mode hm).2] at hwf
    refine control_switchTo h.disable rfl (Or.inl ⟨rfl, hwf⟩) (h.sched.yield hr hl) rfl
      ?_ ?_ ?_
    · intro t ht
      exact update_of_ne ht _ _
    · simp [disable, cur]
    · exact ⟨helt, by simp [disable, hest]⟩

theorem control_sleep (h : k.Base) (hm : k.mode = .asleep) (hwf : Wf .disabled rest) :
    (k.sleep rest).Control := by
  obtain ⟨hoff, hr⟩ := mode_eq_asleep h hm
  unfold sleep
  cases hl : k.sched.readyList with
  | nil =>
    simp only [Sched.findNextToRun, hl, NachosList.remove_nil]
    exact control_asleep h.sched h.suspended hr hoff ⟨rfl, rfl, hwf⟩
  | cons e es =>
    simp only [Sched.findNextToRun, hl, NachosList.remove_cons]
    obtain ⟨helt, hest⟩ := (h.sched.mem_ready_iff e.item).mp (by simp [hl])
    exact control_switchTo h hoff hwf (h.sched.sleep hr hl) rfl (fun _ _ => rfl)
      h.sched.current_started ⟨helt, by simp [hest]⟩

theorem control_finish (h : k.Base) (hm : k.mode ≠ .asleep) : k.finish.Control := by
  have hr := (running_of_mode hm).1
  refine control_asleep (h.sched.finish hr) (h.suspended.finish h.sched) ?_ rfl ⟨rfl, rfl⟩
  simp [cur]

/-- The new thread starts in `ThreadRoot`, and the other threads are as
before. -/
theorem control_fork {t : ThreadPtr} (h : k.Base) (hm : k.mode ≠ .asleep)
    (hwf : Wf k.mode rest) (hlt : t < k.sched.created)
    (hst : k.sched.status t = .justCreated) (func : ι) :
    (k.fork t func rest).Control := by
  have hr := (running_of_mode hm).1
  have hne : k.cur ≠ t := by
    intro he
    rw [he, hst] at hr
    cases hr
  refine control_restore hwf hm (h.sched.fork hlt hst) ⟨?_, ?_⟩ ?_ rfl
  · intro u hult hune hust
    by_cases hu : u = t
    · subst hu
      simp [Wf, Call.Allowed]
    · simp only [update_of_ne hu]
      simp only [Sched.readyToRun_status, update_of_ne hu] at hust
      exact h.suspended.resumable u hult hune hust
  · intro u hu
    have hut : u ≠ t := by
      rintro rfl
      rcases hu with hle | hj
      · exact absurd hlt (Nat.not_lt.mpr hle)
      · simp at hj
    simp only [update_of_ne hut]
    simp only [Sched.readyToRun_status, update_of_ne hut] at hu
    exact h.suspended.fresh u hu
  · simpa [disable, cur, update_of_ne hne] using hr

theorem control_oneTick (h : k.Base) (hm : k.mode = .enabled) (hwf : Wf .enabled rest) :
    (k.oneTick rest).Control :=
  control_running h.sched h.suspended (mode_eq_enabled hm).2 ⟨rfl, hwf⟩

/-- The restore of a level: the code after it runs in that level, or in the
handler loop first. -/
theorem control_setLevel {l : IntStatus} (h : k.Base)
    (hwf : Wf k.mode (.setLevel l :: rest)) : (k.setLevel l rest).Control := by
  unfold setLevel
  rcases hwf with ⟨hm, hwf⟩ | ⟨hm, rfl, hwf⟩
  · obtain ⟨hl, hr⟩ := mode_eq_disabled hm
    cases l with
    | intOn =>
      rw [if_pos ⟨rfl, hl⟩]
      exact control_running h.sched h.suspended hr ⟨rfl, hwf⟩
    | intOff =>
      rw [if_neg (by simp)]
      exact control_running h.sched h.suspended hr hwf
  · obtain ⟨_, hr⟩ := mode_eq_asleep h hm
    rw [if_neg (by simp)]
    exact control_asleep h.sched h.suspended hr rfl hwf

theorem control_dueDone (h : k.Base) (hm : k.mode = .disabled) (hwf : Wf .enabled rest) :
    (k.dueDone rest).Control := by
  obtain ⟨_, hr⟩ := mode_eq_disabled hm
  unfold dueDone
  split
  · exact control_running h.sched h.suspended hr ⟨trivial, hwf⟩
  · exact control_running h.sched h.suspended hr hwf

end Routines

/-! ## Every step keeps the invariant -/

section Step

variable {prog : Program ι σ η} {k k' : Kernel ι σ} {rest : List (Instr ι)}

/-- The calls of a program run in its own code, with interrupts on. -/
theorem wf_enabled_map_call (cs : List (Call ι)) (hwf : Wf .enabled rest) :
    Wf .enabled (cs.map Instr.call ++ rest) := by
  induction cs with
  | nil => exact hwf
  | cons c cs ih =>
    refine ⟨?_, ih⟩
    cases c <;> trivial

/-- The `V` operations of a handler run in the mode of the handler loop. -/
theorem wf_map_v {m : Mode} (ns : List Nat) (hwf : Wf m rest) :
    Wf m (ns.map (fun n => (.call (.v n) : Instr ι)) ++ rest) := by
  induction ns with
  | nil => exact hwf
  | cons n ns ih =>
    refine ⟨?_, ih⟩
    cases m <;> trivial

/-- A call that a running thread makes leads to a state with the
invariant. -/
theorem control_execCall {c : Call ι} (h : k.Base) (hall : c.Allowed k.mode)
    (hwf : Wf k.mode rest)
    (hfork : ∀ t func, c = .fork t func →
      t < k.sched.created ∧ k.sched.status t = .justCreated)
    (hstep : k.execCall prog rest c = some k') : k'.Control := by
  have hasleep : (∀ n, c ≠ .v n) → k.mode ≠ .asleep := by
    intro hv hm
    rw [hm] at hall
    cases c <;> simp_all [Call.Allowed]
  have henabled : (∀ n, c ≠ .v n) → (∀ l, c ≠ .acquire l) → k.mode = .enabled := by
    intro hv ha
    cases hm : k.mode <;> rw [hm] at hall <;> cases c <;> simp_all [Call.Allowed]
  cases c with
  | newThread pr =>
    obtain ⟨s, hs, rfl⟩ := Option.map_eq_some_iff.mp hstep
    obtain ⟨hr, hmode⟩ := running_of_mode (hasleep (by simp))
    rw [hmode] at hwf
    refine control_running (h.sched.newThread hs) (h.suspended.newThread hs) ?_ hwf
    obtain ⟨ids, _, rfl⟩ := Sched.newThread_spec hs
    have hne : k.cur ≠ k.sched.created := Nat.ne_of_lt h.sched.current_lt
    simpa [cur, update_of_ne hne] using hr
  | fork t func =>
    obtain ⟨hlt, hst⟩ := hfork t func rfl
    cases hstep
    exact control_fork h (hasleep (by simp)) hwf hlt hst func
  | setPriority pr =>
    obtain ⟨hr, hmode⟩ := running_of_mode (hasleep (by simp))
    rw [hmode] at hwf
    cases hstep
    exact control_running (h.sched.setPriority pr)
      (h.suspended.of_status rfl rfl fun _ => Iff.rfl) hr hwf
  | yield =>
    cases hstep
    exact control_yield h (hasleep (by simp)) hwf
  | finish =>
    cases hstep
    exact control_finish h (hasleep (by simp))
  | p n =>
    cases hstep
    exact control_p h (hasleep (by simp)) hwf (.sem n)
  | v n =>
    cases hstep
    exact control_v h hwf (.sem n)
  | acquire l =>
    have hm := hasleep (by simp)
    have hwf' : Wf k.mode (.acquired l :: rest) := ⟨hm, hwf⟩
    cases hstep
    exact control_p h hm hwf' (.lock l)
  | release l =>
    cases hstep
    exact control_release h hwf l
  | wait c l =>
    cases hstep
    exact control_wait h (hasleep (by simp)) hwf c l
  | signal c l =>
    cases hstep
    exact control_signal h (hasleep (by simp)) hwf c l
  | broadcast c l =>
    cases hstep
    exact control_broadcast h (hasleep (by simp)) hwf c l
  | oneTick =>
    have hm := henabled (by simp) (by simp)
    rw [hm] at hwf
    cases hstep
    exact control_oneTick h hm hwf
  | client i =>
    have hm := henabled (by simp) (by simp)
    obtain ⟨hl, hr⟩ := mode_eq_enabled hm
    obtain ⟨r, _, rfl⟩ := Option.map_eq_some_iff.mp hstep
    rw [hm] at hwf
    refine control_running h.sched h.suspended hr ?_
    simpa [hl, IntStatus.mode] using wf_enabled_map_call r.2 hwf

/-- An instruction of the current thread leads to a state with the
invariant. -/
theorem control_execInstr {i : Instr ι} (h : k.Base) (hwf : Wf k.mode (i :: rest))
    (hfork : ∀ t func, i = .call (.fork t func) →
      t < k.sched.created ∧ k.sched.status t = .justCreated)
    (hstep : k.execInstr prog rest i = some k') : k'.Control := by
  cases i with
  | call c =>
    exact control_execCall h hwf.1 hwf.2 (fun t func hc => hfork t func (by rw [hc])) hstep
  | setLevel l =>
    cases hstep
    exact control_setLevel h hwf
  | dueLoop =>
    cases hstep
    exact control_dueDone h hwf.1 hwf.2
  | sleep =>
    cases hstep
    exact control_sleep h hwf.1 hwf.2
  | idle =>
    obtain ⟨hl, hr⟩ := mode_eq_asleep h hwf.1
    cases hstep
    exact control_asleep h.sched h.suspended hr hl hwf.2
  | pLoop s =>
    cases hstep
    exact control_pTest h hwf.1 hwf.2 s
  | acquired l | waitReturn c l =>
    obtain ⟨hr, hmode⟩ := running_of_mode hwf.1
    have hrest := hwf.2
    rw [hmode] at hrest
    cases hstep
    exact control_running h.sched h.suspended hr hrest
  | waitAppend c =>
    obtain ⟨hl, hr⟩ := mode_eq_disabled hwf.1
    cases hstep
    refine control_asleep (h.sched.block hr _) (h.suspended.block h.sched _) ?_ hl
      ⟨rfl, hwf.2⟩
    simp [record, cur]
  | afterSwitch =>
    obtain ⟨hl, hr⟩ := mode_eq_disabled hwf.1
    obtain ⟨s, hs, rfl⟩ := Option.map_eq_some_iff.mp hstep
    refine control_running (h.sched.reap hs) (h.suspended.reap hs) ?_ ?_
    · rcases Sched.reap_spec hs with ⟨rfl, _⟩ | ⟨_, _, _, rfl⟩
      · exact hr
      · exact hr
    · rw [hl]
      exact hwf.2
  | threadRoot =>
    cases hstep
    exact control_setLevel h (Or.inl hwf)
  | notReached => cases hstep

/-- Every step keeps the control invariant. -/
theorem control_step {a : Action ι η} (h : k.Control) (hfork : k.ForkOnce a)
    (hstep : k.step prog a = some k') : k'.Control := by
  have hcur := h.current
  cases a with
  | start cs =>
    simp only [step] at hstep
    split at hstep
    · rename_i hcode
      rw [hcode] at hcur
      obtain ⟨hl, hr⟩ := mode_eq_enabled hcur
      cases hstep
      have hnil : Wf .enabled ([] : List (Instr ι)) := rfl
      refine control_running h.sched h.suspended hr ?_
      simpa [hl, IntStatus.mode] using wf_enabled_map_call cs hnil
    · cases hstep
  | exec =>
    simp only [step] at hstep
    split at hstep
    · cases hstep
    · rename_i i rest hcode
      rw [hcode] at hcur
      refine control_execInstr h.toBase hcur ?_ hstep
      rintro t func rfl
      simpa [ForkOnce, hcode] using hfork
  | interrupt d =>
    simp only [step] at hstep
    split at hstep
    · obtain ⟨r, _, rfl⟩ := Option.map_eq_some_iff.mp hstep
      have hwf := wf_map_v r.2 hcur
      by_cases hm : k.mode = .asleep
      · obtain ⟨hl, hr⟩ := mode_eq_asleep h.toBase hm
        rw [hm] at hwf
        exact control_asleep h.sched h.suspended hr hl hwf
      · obtain ⟨hr, hmode⟩ := running_of_mode hm
        rw [hmode] at hwf
        exact control_running h.sched h.suspended hr hwf
    · cases hstep
  | timer =>
    simp only [step] at hstep
    split at hstep
    · cases hstep
      exact ⟨⟨h.sched, h.awake, h.suspended⟩, hcur⟩
    · cases hstep

/-- The kernel that `Initialize` leaves. -/
theorem control_initAt (address : ThreadPtr → Nat) (initialValue : Nat → Int)
    (holding : Nat → Option ThreadPtr) (shared : σ) :
    (initAt address initialValue holding shared : Kernel ι σ).Control where
  sched := Sched.consistent_init address
  awake _ := rfl
  suspended := by
    constructor
    · intro t hlt hne
      exact absurd (Nat.lt_one_iff.mp hlt) hne
    · intro t _
      rfl
  current := rfl

theorem control_init (initialValue : Nat → Int) (holding : Nat → Option ThreadPtr)
    (shared : σ) : (init initialValue holding shared : Kernel ι σ).Control :=
  control_initAt (fun t => t) initialValue holding shared

end Step

end Kernel

end Nachos.Threads

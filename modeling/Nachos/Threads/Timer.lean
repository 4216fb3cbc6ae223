import Nachos.Threads.Priority

/-!
# Simulated time and the round-robin timer

The kernel model lets any device be due at any tick.  `Timed` puts the clock of
`machine/interrupt.cc` on top of it: `totalTicks`, the sorted list of pending
interrupts, and `CheckIfDue`.  `OneTick` advances the clock, `Idle` advances it
to the next pending interrupt, and the handlers that are due run in the order of
the list.  The timer device of `machine/timer.cc` schedules itself again each
time it expires.  With the option `-rd` its handler is
`RoundingTimerInterruptHandler`.  `kernel_step` says that a step of the clocked
system is a step of the kernel, or a step of a device only.

`lastSwitchTime` is to be the time of the last switch, but only the handler of
the timer sets it, and no dispatch does.  `dispatched` records when each thread
has been dispatched last; nothing reads it.

* `short_slice` is a run in which a thread that was dispatched `20` ticks ago is
  forced to yield.
* `full_slice`: as long as the slice of the handler has not started before the
  dispatch of the thread that it interrupts, a thread is forced to yield only
  after `TimerTicks` ticks.
-/

namespace Nachos.Threads

open Function Lib

/-- `enum MachineStatus` of `interrupt.h`. -/
inductive MachineStatus where
  | idleMode
  | systemMode
  | userMode
  deriving DecidableEq, Repr

def UserTick : Int := 1

def SystemTick : Int := 10

def TimerTicks : Int := 100

/-- The clock.  A pending interrupt is a device, or `none` for the timer, and
its key is the time at which it occurs. -/
structure Clock (η : Type) where
  /-- `stats->totalTicks`. -/
  totalTicks : Int
  pending : NachosList (Option η)
  /-- `scheduler->lastSwitchTime`. -/
  lastSwitchTime : Int
  /-- The present call of `Idle` has advanced the clock. -/
  idled : Bool
  /-- When each thread has been dispatched last. -/
  dispatched : ThreadPtr → Int

namespace Clock

variable {η : Type}

/-- The advance of `OneTick`. -/
def tick (c : Clock η) (status : MachineStatus) : Clock η :=
  { c with totalTicks := c.totalTicks + if status = .systemMode then SystemTick else UserTick }

/-- `Interrupt::Schedule`. -/
def schedule (c : Clock η) (device : Option η) (fromNow : Int) : Clock η :=
  { c with pending := c.pending.sortedInsert device (c.totalTicks + fromNow) }

/-- `Interrupt::CheckIfDue` up to the call of the handler: the interrupt that
occurs, or `none` for the result `FALSE`, and the clock then. -/
def checkIfDue (c : Clock η) (advanceClock idle : Bool) : Option (Option η) × Clock η :=
  match c.pending with
  | [] => (none, c)
  | e :: es =>
      -- an interrupt that does not occur is put back, behind those of the same time
      let putBack := NachosList.sortedInsert es e.item e.key
      if advanceClock = false ∧ c.totalTicks < e.key then (none, { c with pending := putBack })
      else
        let now := if c.totalTicks < e.key then e.key else c.totalTicks
        if idle = true ∧ e.item.isNone ∧ es.isEmpty then
          (none, { c with totalTicks := now, pending := putBack })
        else (some e.item, { c with totalTicks := now, pending := es })

/-- The clock at the end of `Initialize`: the timer has been started at time
`0`, and `interrupt->Enable()` has made one tick. -/
def init : Clock η where
  totalTicks := SystemTick
  pending := [⟨none, TimerTicks⟩]
  lastSwitchTime := 0
  idled := false
  dispatched _ := 0

/-- Time does not run back. -/
theorem checkIfDue_spec (c : Clock η) (advanceClock idle : Bool) :
    c.totalTicks ≤ (c.checkIfDue advanceClock idle).2.totalTicks ∧
      (c.checkIfDue advanceClock idle).2.lastSwitchTime = c.lastSwitchTime ∧
      (c.checkIfDue advanceClock idle).2.dispatched = c.dispatched := by
  unfold checkIfDue
  split
  · exact ⟨le_rfl, rfl, rfl⟩
  · rename_i e es _
    have hnow : c.totalTicks ≤ if c.totalTicks < e.key then e.key else c.totalTicks := by
      split
      · omega
      · omega
    dsimp only
    split
    · exact ⟨le_rfl, rfl, rfl⟩
    · split
      · exact ⟨hnow, rfl, rfl⟩
      · exact ⟨hnow, rfl, rfl⟩

end Clock

/-- The kernel with a clock. -/
structure Timed (ι σ η : Type) where
  kernel : Kernel ι σ
  clock : Clock η

/-- The choices that a step of the clocked system leaves open. -/
inductive TimedAction (ι η : Type) where
  /-- The main thread goes on with these calls. -/
  | start (cs : List (Call ι))
  /-- The current thread executes its next instruction, in this machine
  status. -/
  | exec (status : MachineStatus)
  /-- The loop over due interrupts calls the handler of the next one. -/
  | fire
  /-- A device is used, and its interrupt will occur. -/
  | schedule (device : η) (fromNow : Nat)

namespace Timed

variable {ι σ η : Type} {prog : Program ι σ η}

/-- The instruction calls `OneTick`. -/
def ticks (k : Kernel ι σ) : Instr ι → Bool
  | .call .oneTick => true
  | .setLevel .intOn => k.level = .intOff
  | .threadRoot => k.level = .intOff
  | _ => false

/-- The current thread is in `Idle`. -/
def inIdle (x : Timed ι σ η) : Bool :=
  match x.kernel.code x.kernel.cur with
  | .idle :: _ => true
  | _ => false

/-- `CheckIfDue` at the place where the current thread is: the first call in
`Idle` advances the clock. -/
def due (x : Timed ι σ η) : Option (Option η) × Clock η :=
  x.clock.checkIfDue (x.inIdle && !x.clock.idled) x.inIdle

/-- The clock after an instruction: a tick, a dispatch, the start of `Idle`, and the
check that ends a loop over due interrupts.  `next` is the thread that runs after
it. -/
def afterInstr (x : Timed ι σ η) (i : Instr ι) (status : MachineStatus) (next : ThreadPtr) :
    Clock η :=
  if ticks x.kernel i then x.clock.tick status
  else if Kernel.findsNext i && !x.kernel.sched.readyList.isEmpty then
    { x.clock with dispatched := update x.clock.dispatched next x.clock.totalTicks }
  else
    match i with
    | .sleep => { x.clock with idled := false }
    | .dueLoop => x.due.2
    | .idle => x.due.2
    | _ => x.clock

/-- A loop over due interrupts ends when none is due.  `Idle` halts the machine
when its first call finds none. -/
def loopEnds (x : Timed ι σ η) : Instr ι → Bool
  | .dueLoop => x.due.1.isNone
  | .idle => x.clock.idled && x.due.1.isNone
  | _ => true

/-- `Timer::TimerExpired` and `RoundingTimerInterruptHandler`.  `CheckIfDue`
has set the machine status to `SystemMode`. -/
def timerExpired (prog : Program ι σ η) (x : Timed ι σ η) : Option (Timed ι σ η) :=
  let clock := x.clock.schedule none TimerTicks
  if TimerTicks ≤ clock.totalTicks - clock.lastSwitchTime then
    (x.kernel.step prog .timer).map fun k =>
      { kernel := k, clock := { clock with lastSwitchTime := clock.totalTicks } }
  else some { x with clock := clock }

/-- One step of the clocked system. -/
def step (prog : Program ι σ η) (x : Timed ι σ η) :
    TimedAction ι η → Option (Timed ι σ η)
  | .start cs => (x.kernel.step prog (.start cs)).map fun k => { x with kernel := k }
  | .exec status =>
      match x.kernel.code x.kernel.cur with
      | [] => none
      | i :: _ =>
          if x.loopEnds i then
            (x.kernel.step prog .exec).map fun k =>
              { kernel := k, clock := x.afterInstr i status k.cur }
          else none
  | .fire =>
      if x.kernel.inDueLoop then
        match x.due with
        | (none, _) => none
        | (some none, clock) =>
            timerExpired prog { x with clock := { clock with idled := true } }
        | (some (some d), clock) =>
            (x.kernel.step prog (.interrupt d)).map fun k =>
              { kernel := k, clock := { clock with idled := true } }
      else none
  | .schedule d fromNow =>
      if 0 < fromNow then some { x with clock := x.clock.schedule (some d) fromNow } else none

/-- The system at the end of `Initialize`. -/
def init (initialValue : Nat → Int) (holding : Nat → Option ThreadPtr) (shared : σ) :
    Timed ι σ η where
  kernel := .init initialValue holding shared
  clock := .init

/-! ## The kernel under the clock -/

variable {x x' : Timed ι σ η} {a : TimedAction ι η}

/-- The action of the kernel, for the actions that execute code. -/
def action : TimedAction ι η → Option (Action ι η)
  | .start cs => some (.start cs)
  | .exec _ => some .exec
  | _ => none

/-- Each thread is forked once. -/
def ForkOnce (x : Timed ι σ η) (a : TimedAction ι η) : Prop :=
  match action a with
  | some b => x.kernel.ForkOnce b
  | none => True

instance (x : Timed ι σ η) (a : TimedAction ι η) : Decidable (x.ForkOnce a) := by
  unfold ForkOnce
  split <;> infer_instance

/-- A step is a step of the kernel, or it leaves the kernel as it is. -/
theorem kernel_step (h : x.step prog a = some x') :
    x'.kernel = x.kernel ∨
      ∃ b, x.kernel.step prog b = some x'.kernel ∧ (x.ForkOnce a → x.kernel.ForkOnce b) := by
  cases a with
  | start cs =>
    obtain ⟨k, hk, rfl⟩ := Option.map_eq_some_iff.mp h
    exact Or.inr ⟨_, hk, id⟩
  | exec status =>
    simp only [step] at h
    split at h
    · cases h
    · split at h
      · obtain ⟨k, hk, rfl⟩ := Option.map_eq_some_iff.mp h
        exact Or.inr ⟨_, hk, id⟩
      · cases h
  | fire =>
    simp only [step] at h
    split at h
    · split at h
      · cases h
      · simp only [timerExpired] at h
        split at h
        · obtain ⟨k, hk, rfl⟩ := Option.map_eq_some_iff.mp h
          exact Or.inr ⟨_, hk, fun _ => trivial⟩
        · cases h
          exact Or.inl rfl
      · obtain ⟨k, hk, rfl⟩ := Option.map_eq_some_iff.mp h
        exact Or.inr ⟨_, hk, fun _ => trivial⟩
    · cases h
  | schedule d fromNow =>
    simp only [step] at h
    split at h
    · cases h
      exact Or.inl rfl
    · cases h

theorem control_step (hc : x.kernel.Control) (hfork : x.ForkOnce a)
    (h : x.step prog a = some x') : x'.kernel.Control := by
  rcases kernel_step h with heq | ⟨b, hb, hforkb⟩
  · rw [heq]
    exact hc
  · exact Kernel.control_step hc (hforkb hfork) hb

/-! ## The loops over due interrupts -/

/-- The code is inside a loop that invokes interrupt handlers: the rest of the
handlers, and then the loop. -/
def InLoop : List (Instr ι) → Prop
  | .call (.v _) :: is => InLoop is
  | .setLevel .intOff :: is => InLoop is
  | .dueLoop :: _ => True
  | .idle :: _ => True
  | _ => False

/-- Such code does not run with interrupts on. -/
theorem mode_of_inLoop {m : Mode} {is : List (Instr ι)} (h : InLoop is) (hwf : Wf m is) :
    m ≠ .enabled := by
  induction is with
  | nil => cases h
  | cons i is ih =>
    rintro rfl
    cases i with
    | call c =>
      cases c with
      | v n => exact ih h hwf.2 rfl
      | _ => cases h
    | setLevel l | dueLoop | idle => simp [Wf] at hwf
    | _ => cases h

/-- Only the timer asks for a `Yield`, and the ends of the loops clear the
flag. -/
theorem yieldOnReturn_execInstr {k k' : Kernel ι σ} {i : Instr ι} {rest : List (Instr ι)}
    (h : k.execInstr prog rest i = some k') (hy : k'.yieldOnReturn = true) :
    k.yieldOnReturn = true ∧ i ≠ .dueLoop ∧ i ≠ .idle := by
  cases i with
  | call c =>
    refine ⟨?_, by simp, by simp⟩
    cases c with
    | newThread pr | client i =>
      obtain ⟨_, _, rfl⟩ := Option.map_eq_some_iff.mp h
      exact hy
    | yield | p n | acquire l | signal c l | broadcast c l =>
      rw [← Option.some.inj h] at hy
      simp only [Kernel.yield, Kernel.p, Kernel.pTest, Kernel.signal, Kernel.broadcast] at hy
      split at hy <;> exact hy
    | _ =>
      rw [← Option.some.inj h] at hy
      exact hy
  | dueLoop =>
    rw [← Option.some.inj h, Kernel.dueDone] at hy
    split at hy
    · cases hy
    · rename_i hno
      exact absurd hy hno
  | idle =>
    rw [← Option.some.inj h] at hy
    cases hy
  | setLevel l | threadRoot | sleep | pLoop s =>
    rw [← Option.some.inj h] at hy
    simp only [Kernel.setLevel, Kernel.sleep, Kernel.pTest] at hy
    split at hy <;> exact ⟨hy, by simp, by simp⟩
  | afterSwitch =>
    obtain ⟨s, _, rfl⟩ := Option.map_eq_some_iff.mp h
    exact ⟨hy, by simp, by simp⟩
  | notReached => cases h
  | _ =>
    rw [← Option.some.inj h] at hy
    exact ⟨hy, by simp, by simp⟩

/-- An instruction of a handler stays in the loop, and it neither ticks nor
dispatches. -/
theorem inLoop_execInstr {k k' : Kernel ι σ} {i : Instr ι} {rest : List (Instr ι)}
    (hc : k.Control) (hcode : k.code k.cur = i :: rest) (hloop : InLoop (i :: rest))
    (hdue : i ≠ .dueLoop) (hidle : i ≠ .idle) (h : k.execInstr prog rest i = some k') :
    k'.cur = k.cur ∧ InLoop (k'.code k'.cur) ∧ ticks k i = false ∧
      Kernel.findsNext i = false := by
  have hlevel : k.level = .intOff := by
    have hwf := hc.current
    rw [hcode] at hwf
    have hm := mode_of_inLoop hloop hwf
    cases hl : k.level with
    | intOff => rfl
    | intOn =>
      refine absurd ?_ hm
      simp [Kernel.mode, hc.awake hl, hl, IntStatus.mode]
  cases i with
  | call c =>
    cases c with
    | v n =>
      cases h
      have hcur : (k.v (.sem n) rest).cur = k.cur := Sched.wake_currentThread _ _
      refine ⟨hcur, ?_, rfl, rfl⟩
      have hnew : (k.v (.sem n) rest).code (k.v (.sem n) rest).cur = .setLevel k.level :: rest := by
        show update k.code (k.v (.sem n) rest).cur _ (k.v (.sem n) rest).cur = _
        rw [update_self]
      rw [hnew, hlevel]
      exact hloop
    | _ => cases hloop
  | setLevel l =>
    cases l with
    | intOn => cases hloop
    | intOff =>
      cases h
      have hrest : InLoop rest := hloop
      refine ⟨rfl, ?_, rfl, rfl⟩
      simpa [Kernel.setLevel, Kernel.setCode] using hrest
  | dueLoop => exact absurd rfl hdue
  | idle => exact absurd rfl hidle
  | _ => cases hloop

/-! ## The slices -/

/-- When the handler finds a slice used up, the slice has not started before
the dispatch of the current thread. -/
def SliceStarted (x : Timed ι σ η) (a : TimedAction ι η) : Prop :=
  match a, x.due with
  | .fire, (some none, clock) =>
      TimerTicks ≤ clock.totalTicks - clock.lastSwitchTime →
        x.clock.dispatched x.kernel.cur ≤ x.clock.lastSwitchTime
  | _, _ => True

instance (x : Timed ι σ η) (a : TimedAction ι η) : Decidable (x.SliceStarted a) := by
  unfold SliceStarted
  split <;> infer_instance

/-- The current thread has had a full slice. -/
def FullSlice (x : Timed ι σ η) : Prop :=
  x.clock.dispatched x.kernel.cur + TimerTicks ≤ x.clock.totalTicks

/-- A request for a `Yield` is pending only in the loops, for a thread with a
full slice. -/
structure SliceInv (x : Timed ι σ η) : Prop where
  control : x.kernel.Control
  inLoop : x.kernel.yieldOnReturn = true → InLoop (x.kernel.code x.kernel.cur)
  full : x.kernel.yieldOnReturn = true → x.FullSlice

/-- The loops are code in a loop. -/
theorem inLoop_of_inDueLoop {k : Kernel ι σ} (h : k.inDueLoop = true) :
    InLoop (k.code k.cur) := by
  unfold Kernel.inDueLoop at h
  split at h
  · rename_i hcode
    rw [hcode]
    trivial
  · rename_i hcode
    rw [hcode]
    trivial
  · cases h

theorem inLoop_map_v {is : List (Instr ι)} (h : InLoop is) (ns : List Nat) :
    InLoop (ns.map (fun n => Instr.call (.v n)) ++ is) := by
  induction ns with
  | nil => exact h
  | cons n ns ih => exact ih

theorem sliceInv_exec {status : MachineStatus} (h : x.SliceInv)
    (hc : x'.kernel.Control) (hstep : x.step prog (.exec status) = some x') : x'.SliceInv := by
  simp only [step] at hstep
  split at hstep
  · cases hstep
  · rename_i i rest hcode
    split at hstep
    · obtain ⟨k, hk, rfl⟩ := Option.map_eq_some_iff.mp hstep
      simp only [Kernel.step, hcode] at hk
      -- A pending request was pending before, so the instruction is one of a handler.
      have hkeep : k.yieldOnReturn = true → InLoop (k.code k.cur) ∧
          FullSlice (⟨k, x.afterInstr i status k.cur⟩ : Timed ι σ η) := by
        intro hy
        obtain ⟨hy', hdue, hidle⟩ := yieldOnReturn_execInstr hk hy
        have hloop := h.inLoop hy'
        rw [hcode] at hloop
        obtain ⟨hcur, hloop', htick, hnext⟩ :=
          inLoop_execInstr h.control hcode hloop hdue hidle hk
        have hfull := h.full hy'
        refine ⟨hloop', ?_⟩
        simp only [FullSlice] at hfull ⊢
        rw [hcur]
        simp only [afterInstr, htick, hnext, Bool.false_and, Bool.false_eq_true, if_false]
        split
        · exact hfull
        · exact absurd rfl hdue
        · exact absurd rfl hidle
        · exact hfull
      exact ⟨hc, fun hy => (hkeep hy).1, fun hy => (hkeep hy).2⟩
    · cases hstep

theorem due_spec {device : Option (Option η)} {clock : Clock η} (hdue : x.due = (device, clock)) :
    x.clock.totalTicks ≤ clock.totalTicks ∧ clock.lastSwitchTime = x.clock.lastSwitchTime ∧
      clock.dispatched = x.clock.dispatched := by
  have hspec := x.clock.checkIfDue_spec (x.inIdle && !x.clock.idled) x.inIdle
  rw [show x.clock.checkIfDue (x.inIdle && !x.clock.idled) x.inIdle = (device, clock) from hdue]
    at hspec
  exact hspec

theorem sliceInv_fire (h : x.SliceInv) (hok : x.SliceStarted .fire)
    (hc : x'.kernel.Control) (hstep : x.step prog .fire = some x') : x'.SliceInv := by
  simp only [step] at hstep
  split at hstep
  · rename_i hdueLoop
    have hloop := inLoop_of_inDueLoop hdueLoop
    obtain ⟨⟨device, clock⟩, hdue⟩ : ∃ r, x.due = r := ⟨_, rfl⟩
    obtain ⟨hle, hlast, hdispatched⟩ := due_spec hdue
    rw [hdue] at hstep
    cases device with
    | none => cases hstep
    | some device =>
      cases device with
      | none =>
        simp only [timerExpired] at hstep
        split at hstep
        · rename_i hexhausted
          -- The slice is used up: the condition gives the time of the dispatch.
          obtain ⟨k, hk, rfl⟩ := Option.map_eq_some_iff.mp hstep
          simp only [Kernel.step, hdueLoop, if_true, Option.some.injEq] at hk
          subst hk
          refine ⟨hc, fun _ => hloop, fun _ => ?_⟩
          have hslice : x.clock.dispatched x.kernel.cur ≤ x.clock.lastSwitchTime := by
            have hok' := hok
            simp only [SliceStarted, hdue] at hok'
            exact hok' hexhausted
          simp only [Clock.schedule] at hexhausted
          rw [hlast] at hexhausted
          show clock.dispatched x.kernel.cur + TimerTicks ≤ clock.totalTicks
          rw [hdispatched]
          omega
        · cases hstep
          refine ⟨hc, h.inLoop, fun hy => ?_⟩
          have hfull : x.clock.dispatched x.kernel.cur + TimerTicks ≤ x.clock.totalTicks :=
            h.full hy
          show clock.dispatched x.kernel.cur + TimerTicks ≤ clock.totalTicks
          rw [hdispatched]
          omega
      | some d =>
        obtain ⟨k, hk, rfl⟩ := Option.map_eq_some_iff.mp hstep
        simp only [Kernel.step, hdueLoop, if_true] at hk
        obtain ⟨r, _, rfl⟩ := Option.map_eq_some_iff.mp hk
        refine ⟨hc, fun _ => ?_, fun hy => ?_⟩
        · simpa [Kernel.setCode] using inLoop_map_v hloop r.2
        · have hfull : x.clock.dispatched x.kernel.cur + TimerTicks ≤ x.clock.totalTicks :=
            h.full hy
          show clock.dispatched x.kernel.cur + TimerTicks ≤ clock.totalTicks
          rw [hdispatched]
          omega
  · cases hstep

theorem sliceInv_step (h : x.SliceInv) (hfork : x.ForkOnce a) (hok : x.SliceStarted a)
    (hstep : x.step prog a = some x') : x'.SliceInv := by
  have hc := control_step h.control hfork hstep
  cases a with
  | start cs =>
    obtain ⟨k, hk, rfl⟩ := Option.map_eq_some_iff.mp hstep
    simp only [Kernel.step] at hk
    split at hk
    · rename_i hcode
      rw [← Option.some.inj hk] at hc ⊢
      -- The main thread is in its own code, so no request is pending.
      have hno : x.kernel.yieldOnReturn ≠ true := by
        intro hy
        have hloop := h.inLoop hy
        rw [hcode] at hloop
        cases hloop
      exact ⟨hc, fun hy => absurd hy hno, fun hy => absurd hy hno⟩
    · cases hk
  | exec status => exact sliceInv_exec h hc hstep
  | fire => exact sliceInv_fire h hok hc hstep
  | schedule d fromNow =>
    simp only [step] at hstep
    split at hstep
    · cases hstep
      exact ⟨hc, h.inLoop, h.full⟩
    · cases hstep

/-- The end of `OneTick` will call `Yield` for the timer. -/
def ForcesYield (x : Timed ι σ η) : Prop :=
  match x.kernel.code x.kernel.cur with
  | .dueLoop :: _ => x.kernel.yieldOnReturn = true
  | _ => False

/-- In every run whose timer interrupts meet the condition, a thread that is
forced to yield has been dispatched at least `TimerTicks` ticks ago. -/
theorem full_slice (prog : Program ι σ η) (initialValue : Nat → Int)
    (holding : Nat → Option ThreadPtr) (shared : σ) (as : List (TimedAction ι η))
    (x : Timed ι σ η)
    (hok : Along (step prog) (fun x a => x.ForkOnce a ∧ x.SliceStarted a)
      (init initialValue holding shared) as)
    (hrun : run (step prog) (init initialValue holding shared) as = some x)
    (hforced : x.ForcesYield) :
    x.clock.dispatched x.kernel.cur + TimerTicks ≤ x.clock.totalTicks := by
  have hinv : x.SliceInv := by
    refine run_invariant (I := SliceInv) ?_ ?_ hok hrun
    · intro y a y' h hok hstep
      exact sliceInv_step h hok.1 hok.2 hstep
    · exact ⟨Kernel.control_init _ _ _, by simp [init, Kernel.init], by simp [init, Kernel.init]⟩
  have hyield : x.kernel.yieldOnReturn = true := by
    unfold ForcesYield at hforced
    split at hforced
    · exact hforced
    · cases hforced
  exact hinv.full hyield

/-- A program whose threads use the processor for `n` calls of `OneTick`. -/
def tickProgram : Program Nat Unit Empty where
  exec _ n x := some (x, List.replicate n .oneTick)
  handler d _ := d.elim

/-- The main thread uses the processor up to the first timer interrupt. -/
def tickAlone : List (TimedAction Nat Empty) :=
  .start (List.replicate 9 .oneTick) :: (List.replicate 17 (.exec .systemMode) ++ [.fire])

/-- The main thread is forced to yield after `100` ticks. -/
theorem full_slice_main : ∃ x : Timed Nat Unit Empty,
    run (step tickProgram) (init (fun _ => 0) (fun _ => none) ()) tickAlone = some x ∧
      x.ForcesYield ∧ x.clock.totalTicks = 100 ∧
      x.clock.dispatched x.kernel.cur + TimerTicks ≤ x.clock.totalTicks :=
  ⟨_, rfl, rfl, rfl, full_slice tickProgram (fun _ => 0) (fun _ => none) () tickAlone _
    (by decide) rfl rfl⟩

/-- The main thread forks a thread, uses the processor and yields.  The forked
thread runs up to the first timer interrupt. -/
def tickAndYield : List (TimedAction Nat Empty) :=
  .start ([.newThread 12, .fork 1 5] ++ List.replicate 6 .oneTick ++ [.yield]) ::
    (List.replicate 21 (.exec .systemMode) ++ [.fire])

/-- The forked thread is dispatched at time `80` and forced to yield at time
`100`. -/
theorem short_slice : ¬ ∀ (as : List (TimedAction Nat Empty)) (x : Timed Nat Unit Empty),
    Along (step tickProgram) ForkOnce (init (fun _ => 0) (fun _ => none) ()) as →
    run (step tickProgram) (init (fun _ => 0) (fun _ => none) ()) as = some x →
    x.ForcesYield → x.clock.dispatched x.kernel.cur + TimerTicks ≤ x.clock.totalTicks := by
  intro hclaim
  obtain ⟨x, hrun, hforced, hcur, hdispatched, hticks⟩ : ∃ x : Timed Nat Unit Empty,
      run (step tickProgram) (init (fun _ => 0) (fun _ => none) ()) tickAndYield = some x ∧
        x.ForcesYield ∧ x.kernel.cur = 1 ∧ x.clock.dispatched 1 = 80 ∧
        x.clock.totalTicks = 100 := ⟨_, rfl, rfl, rfl, rfl, rfl⟩
  have hslice := hclaim tickAndYield x (by decide) hrun hforced
  rw [hcur, hdispatched, hticks] at hslice
  exact absurd hslice (by decide)

end Timed

end Nachos.Threads

import Nachos.Machine.DueOrder

/-!
# The loops over due interrupts end

The handler of a device may schedule interrupts, also its own next one, and wake
threads with `V`.  So the list that `while (CheckIfDue(FALSE))` works on need not
become shorter.  It is the number of interrupts that are due which goes down: the
clock stands still in the loop, and what a handler schedules is later.

Ticks and times are `int`s here.  A time of more than `2^31 - 1` ticks is negative, so
the interrupt is due at once, and a handler that schedules itself again keeps the loop
going (`delivery_overflows`).

`Devices` are the handlers.  What one does is a function of the whole state, of the
interrupts, the semaphores and threads, and the data of the devices.  A `V` in a
handler calls `SetLevel` twice, and the second call must not turn interrupts on.

The loops have a bound on their rounds.  `delivery_terminates` says that from some
bound on it does not matter, for every state and for all handlers that schedule
into the future, without overflow.  Where the list has been built by `Schedule`, the
loop of `OneTick` has then invoked what was due, and nothing else.

`nachosDevices` are the devices of `machine/`.
-/

namespace Nachos.Threads.NachosList

/-- An insertion is not seen by a filter that drops the new element. -/
theorem filter_sortedInsert {α : Type*} (xs : NachosList α) {a : α} {key : Int}
    {q : ListElement α → Bool} (hq : q ⟨a, key⟩ = false) :
    (xs.sortedInsert a key).filter q = xs.filter q := by
  obtain ⟨before, after, rfl, hinsert, _, _⟩ := sortedInsert_split xs a key
  have hdrop : ¬q ⟨a, key⟩ = true := by
    rw [hq]
    exact Bool.false_ne_true
  rw [hinsert, List.filter_append, List.filter_append, List.filter_cons_of_neg hdrop]

end Nachos.Threads.NachosList

namespace Nachos.Machine

open Threads Lib Function

variable {H σ : Type}

/-! ## Handlers -/

/-- What the handler of a device calls. -/
inductive DeviceCall (H : Type) where
  | schedule (handler : H) (arg fromNow : Int) (type : IntType)
  /-- `V()` on a semaphore. -/
  | v (n : Nat)
  | yieldOnReturn

/-- The interrupt is scheduled for a time to come. -/
def DeviceCall.Valid : DeviceCall H → Prop
  | .schedule _ _ fromNow _ => 0 < fromNow
  | .v _ => True
  | .yieldOnReturn => True

/-- The time of the interrupt is an `int`. -/
def DeviceCall.Fits (now : Int) : DeviceCall H → Prop
  | .schedule _ _ fromNow _ => now + fromNow < 2 ^ 31
  | .v _ => True
  | .yieldOnReturn => True

/-- The interrupts, what `V` works on, and the data of the devices. -/
structure DeviceKernel (H σ : Type) where
  interrupt : Interrupt H
  sched : Sched
  /-- `Semaphore::value`. -/
  value : Nat → Int
  shared : σ

/-- `stats->totalTicks`. -/
abbrev DeviceKernel.now (x : DeviceKernel H σ) : Int := x.interrupt.stats.totalTicks

/-- What each handler does to the data of its device, and what it calls. -/
abbrev Devices (H σ : Type) :=
  PendingInterrupt H → DeviceKernel H σ → σ × List (DeviceCall H)

/-- No handler schedules an interrupt that is due at once. -/
def Devices.OnlyFuture (devices : Devices H σ) : Prop :=
  ∀ p x, ∀ c ∈ (devices p x).2, c.Valid

/-- No handler that runs at the time `now` schedules an interrupt too far ahead. -/
def Devices.Fits (devices : Devices H σ) (now : Int) : Prop :=
  ∀ p x, x.now = now → ∀ c ∈ (devices p x).2, c.Fits now

namespace DeviceKernel

/-- `Interrupt::Schedule`.  The addition can overflow. -/
def schedule (x : DeviceKernel H σ) (handler : H) (arg fromNow : Int) (type : IntType) :
    Option (DeviceKernel H σ) :=
  let when := i32 (x.now + fromNow)
  let toOccur := ⟨x.interrupt.scheduled.length, handler, arg, when, type⟩
  if 0 < fromNow then
    some
      { x with
        interrupt :=
          { x.interrupt with
            pending := x.interrupt.pending.sortedInsert toOccur when
            scheduled := x.interrupt.scheduled ++ [toOccur] } }
  else none

/-- `Semaphore::V`, called from a handler. -/
def v (x : DeviceKernel H σ) (n : Nat) : Option (DeviceKernel H σ) :=
  let oldLevel := x.interrupt.level
  (x.interrupt.handlerCall (.setLevel .intOff)).bind fun off =>
    (off.handlerCall (.setLevel oldLevel)).map fun restored =>
      { x with
        interrupt := restored
        sched := x.sched.wake (.sem (.sem n))
        value := update x.value n (i32 (x.value n + 1)) }

/-- One call of a handler. -/
def call (x : DeviceKernel H σ) : DeviceCall H → Option (DeviceKernel H σ)
  | .schedule handler arg fromNow type => x.schedule handler arg fromNow type
  | .v n => x.v n
  | .yieldOnReturn =>
      (x.interrupt.handlerCall .yieldOnReturn).map fun s => { x with interrupt := s }

/-- `CheckIfDue` before it calls the handler. -/
def enter (x : DeviceKernel H σ) (toOccur : PendingInterrupt H) : DeviceKernel H σ :=
  { x with
    interrupt :=
      { x.interrupt with
        invoked := x.interrupt.invoked ++ [(toOccur, x.interrupt.stats.totalTicks)]
        inHandler := true
        status := .systemMode } }

/-- The call of the handler. -/
def invoke (x : DeviceKernel H σ) (devices : Devices H σ) (toOccur : PendingInterrupt H) :
    Option (DeviceKernel H σ) :=
  let old := x.interrupt.status
  let done := devices toOccur (x.enter toOccur)
  (run call { x.enter toOccur with shared := done.1 } done.2).map fun x =>
    { x with interrupt := { x.interrupt with status := old, inHandler := false } }

/-- `CheckIfDue` has taken an interrupt from the list, and maybe advanced the clock. -/
def took (x : DeviceKernel H σ) (s : Interrupt H) : DeviceKernel H σ :=
  { x with
    interrupt := { s with stats := { s.stats with idleTicks := i32 s.stats.idleTicks } } }

/-- `Interrupt::CheckIfDue`. -/
def checkIfDue (x : DeviceKernel H σ) (devices : Devices H σ) (advanceClock : Bool) :
    Option (Bool × DeviceKernel H σ) :=
  if x.interrupt.level = .intOff then
    match x.interrupt.removeDue advanceClock with
    | (none, s) => some (false, x.took s)
    | (some toOccur, s) => ((x.took s).invoke devices toOccur).map fun x => (true, x)
  else none

/-- `while (CheckIfDue(FALSE))`, for less than `n` rounds.  `none` is a loop that goes
on, or a failed `ASSERT`. -/
def dueLoop (devices : Devices H σ) : Nat → DeviceKernel H σ → Option (DeviceKernel H σ)
  | 0, _ => none
  | n + 1, x =>
      match x.checkIfDue devices false with
      | none => none
      | some (false, x) => some x
      | some (true, x) => dueLoop devices n x

/-- The end of `OneTick`, up to its `Yield`. -/
def endTick (x : DeviceKernel H σ) (old : MachineStatus) : DeviceKernel H σ :=
  { x with
    interrupt :=
      if x.interrupt.yieldOnReturn then
        { x.interrupt with
          level := .intOn
          yieldOnReturn := false
          status := .systemMode
          yielding := x.interrupt.yielding ++ [old] }
      else { x.interrupt with level := .intOn } }

/-- `OneTick` when its loop begins.  The counters are `int`s. -/
def ticked (x : DeviceKernel H σ) : DeviceKernel H σ :=
  let st := x.interrupt.stats.tick x.interrupt.status
  { x with
    interrupt :=
      { x.interrupt with
        stats := ⟨i32 st.totalTicks, st.idleTicks, i32 st.systemTicks, i32 st.userTicks⟩
        level := .intOff } }

/-- `Interrupt::OneTick`, up to its `Yield`. -/
def oneTick (x : DeviceKernel H σ) (devices : Devices H σ) (n : Nat) :
    Option (DeviceKernel H σ) :=
  (dueLoop devices n x.ticked).map fun y => y.endTick x.interrupt.status

/-- The time to which `Idle` advances the clock. -/
def idleTime (x : DeviceKernel H σ) : Int :=
  match x.interrupt.pending with
  | [] => x.now
  | e :: _ => (x.interrupt.clockAt e.key).totalTicks

/-- `Idle` at its first check. -/
def resting (x : DeviceKernel H σ) : DeviceKernel H σ :=
  { x with interrupt := { x.interrupt with status := .idleMode } }

/-- `Interrupt::Idle`. -/
def idle (x : DeviceKernel H σ) (devices : Devices H σ) (n : Nat) : Option (DeviceKernel H σ) :=
  match x.resting.checkIfDue devices true with
  | none => none
  | some (true, x) => (dueLoop devices n x).map fun x =>
      { x with
        interrupt := { x.interrupt with yieldOnReturn := false, status := .systemMode } }
  | some (false, x) => some { x with interrupt := { x.interrupt with halted := true } }

end DeviceKernel

/-! ## The devices of the machine -/

/-- `ConsoleTime` of `stats.h`. -/
def ConsoleTime : Int := 100

/-- `NetworkTime` of `stats.h`. -/
def NetworkTime : Int := 100

/-- The functions that the devices pass to `Schedule`. -/
inductive DeviceHandler where
  | timerHandler
  | consoleReadPoll
  | consoleWriteDone
  | diskDone
  | networkReadPoll
  | networkSendDone
  deriving DecidableEq, Repr

/-- The semaphores of `ConsoleTest`, `SynchDisk` and `PostOffice` that the devices
signal. -/
structure DeviceSemaphores where
  readAvail : Nat
  writeDone : Nat
  synchDisk : Nat
  messageAvailable : Nat
  messageSent : Nat

/-- What the handlers of the devices read and write. -/
structure DeviceData where
  /-- `Timer::randomize`, and what `Random` will return. -/
  randomize : Bool
  random : List Nat
  /-- `Console::incoming`, and the character that each poll finds. -/
  incoming : Int
  keyboard : List (Option Int)
  putBusy : Bool
  /-- `Disk::active`. -/
  active : Bool
  /-- `Network::inHdr.length`, and the length of the packet that each poll finds. -/
  length : Nat
  socket : List (Option Nat)
  sendBusy : Bool

/-- `Timer::TimeOfNextInterrupt`. -/
def timeOfNextInterrupt (randomize : Bool) (random : Nat) : Int :=
  if randomize then 1 + random % (TimerTicks * 2) else TimerTicks

theorem timeOfNextInterrupt_range (randomize : Bool) (random : Nat) :
    0 < timeOfNextInterrupt randomize random ∧ timeOfNextInterrupt randomize random ≤ 200 := by
  unfold timeOfNextInterrupt TimerTicks
  split <;> omega

namespace DeviceData

/-- `Timer::TimerExpired`, with `TimerInterruptHandler`. -/
def timerExpired (d : DeviceData) (arg : Int) (status : MachineStatus) :
    DeviceData × List (DeviceCall DeviceHandler) :=
  ({ d with random := if d.randomize then d.random.tail else d.random },
    .schedule .timerHandler arg (timeOfNextInterrupt d.randomize (d.random.headD 0)) .timerInt ::
      if status = .idleMode then [] else [.yieldOnReturn])

/-- The next poll is scheduled.  If nothing is buffered and there is something to be
read, it is read, and the semaphore is signalled. -/
def poll {α : Type} (buffered : Bool) (found : List (Option α)) (next : DeviceCall DeviceHandler)
    (n : Nat) : Option α × List (Option α) × List (DeviceCall DeviceHandler) :=
  if buffered then (none, found, [next])
  else
    match found with
    | some a :: rest => (some a, rest, [next, .v n])
    | none :: rest => (none, rest, [next])
    | [] => (none, [], [next])

/-- `Console::CheckCharAvail`.  `EOF` is -1. -/
def checkCharAvail (d : DeviceData) (arg : Int) (readAvail : Nat) :
    DeviceData × List (DeviceCall DeviceHandler) :=
  let r := poll (d.incoming ≠ -1) d.keyboard
    (.schedule .consoleReadPoll arg ConsoleTime .consoleReadInt) readAvail
  ({ d with incoming := r.1.getD d.incoming, keyboard := r.2.1 }, r.2.2)

/-- `Network::CheckPktAvail`. -/
def checkPktAvail (d : DeviceData) (arg : Int) (messageAvailable : Nat) :
    DeviceData × List (DeviceCall DeviceHandler) :=
  let r := poll (d.length ≠ 0) d.socket
    (.schedule .networkReadPoll arg NetworkTime .networkRecvInt) messageAvailable
  ({ d with length := r.1.getD d.length, socket := r.2.1 }, r.2.2)

end DeviceData

/-- The handlers of the timer, the console, the disk and the network. -/
def nachosDevices (sem : DeviceSemaphores) : Devices DeviceHandler DeviceData := fun p x =>
  match p.handler with
  | .timerHandler => x.shared.timerExpired p.arg x.interrupt.status
  | .consoleReadPoll => x.shared.checkCharAvail p.arg sem.readAvail
  | .consoleWriteDone => ({ x.shared with putBusy := false }, [.v sem.writeDone])
  | .diskDone => ({ x.shared with active := false }, [.v sem.synchDisk])
  | .networkReadPoll => x.shared.checkPktAvail p.arg sem.messageAvailable
  | .networkSendDone => ({ x.shared with sendBusy := false }, [.v sem.messageSent])

/-- The interrupt is scheduled for one of the next `200` ticks. -/
def DeviceCall.Soon : DeviceCall H → Prop
  | .schedule _ _ fromNow _ => 0 < fromNow ∧ fromNow ≤ 200
  | .v _ => True
  | .yieldOnReturn => True

theorem DeviceCall.Soon.valid {c : DeviceCall H} (h : c.Soon) : c.Valid := by
  cases c with
  | schedule handler arg fromNow type => exact h.1
  | v n => trivial
  | yieldOnReturn => trivial

theorem DeviceCall.Soon.fits {c : DeviceCall H} (h : c.Soon) {now : Int}
    (hnow : now + 200 < 2 ^ 31) : c.Fits now := by
  cases c with
  | schedule handler arg fromNow type => exact lt_of_le_of_lt (Int.add_le_add_left h.2 now) hnow
  | v n => trivial
  | yieldOnReturn => trivial

namespace DeviceData

variable {d : DeviceData} {arg : Int}

theorem soon_timerExpired {status : MachineStatus} :
    ∀ c ∈ (d.timerExpired arg status).2, c.Soon := by
  refine List.forall_mem_cons.mpr ⟨timeOfNextInterrupt_range _ _, ?_⟩
  split
  · exact fun c hc => absurd hc List.not_mem_nil
  · exact List.forall_mem_singleton.mpr trivial

theorem soon_poll {α : Type} {buffered : Bool} {found : List (Option α)}
    {next : DeviceCall DeviceHandler} {n : Nat} (hnext : next.Soon) :
    ∀ c ∈ (poll buffered found next n).2.2, c.Soon := by
  unfold poll
  split
  · exact List.forall_mem_singleton.mpr hnext
  · split
    · exact List.forall_mem_cons.mpr ⟨hnext, List.forall_mem_singleton.mpr trivial⟩
    · exact List.forall_mem_singleton.mpr hnext
    · exact List.forall_mem_singleton.mpr hnext

end DeviceData

theorem soon_nachosDevices (sem : DeviceSemaphores) (p : PendingInterrupt DeviceHandler)
    (x : DeviceKernel DeviceHandler DeviceData) : ∀ c ∈ (nachosDevices sem p x).2, c.Soon := by
  unfold nachosDevices
  cases p.handler with
  | timerHandler => exact DeviceData.soon_timerExpired
  | consoleReadPoll =>
      exact DeviceData.soon_poll (by decide : 0 < ConsoleTime ∧ ConsoleTime ≤ 200)
  | networkReadPoll =>
      exact DeviceData.soon_poll (by decide : 0 < NetworkTime ∧ NetworkTime ≤ 200)
  | consoleWriteDone | diskDone | networkSendDone => exact List.forall_mem_singleton.mpr trivial

theorem onlyFuture_nachosDevices (sem : DeviceSemaphores) : (nachosDevices sem).OnlyFuture :=
  fun p x c hc => (soon_nachosDevices sem p x c hc).valid

theorem fits_nachosDevices (sem : DeviceSemaphores) {now : Int} (hnow : now + 200 < 2 ^ 31) :
    (nachosDevices sem).Fits now :=
  fun p x _ c hc => (soon_nachosDevices sem p x c hc).fits hnow

/-! ## What is due -/

/-- The list as `Schedule` keeps it, sorted by the times of the interrupts. -/
structure ByTime (ps : NachosList (PendingInterrupt H)) : Prop where
  keys : ∀ e ∈ ps, e.key = e.item.when
  sorted : ps.SortedBy fun _ _ => True

namespace ByTime

variable {ps : NachosList (PendingInterrupt H)} {e : ListElement (PendingInterrupt H)}

theorem sortedInsert (h : ByTime ps) (p : PendingInterrupt H) :
    ByTime (ps.sortedInsert p p.when) where
  keys f hf := by
    rcases NachosList.mem_sortedInsert.mp hf with rfl | hf
    · rfl
    · exact h.keys f hf
  sorted := h.sorted.sortedInsert fun _ _ => trivial

theorem tail (h : ByTime (e :: ps)) : ByTime ps where
  keys f hf := h.keys f (List.mem_cons_of_mem e hf)
  sorted := (List.pairwise_cons.mp h.sorted).2

/-- When the first interrupt is not due, none is. -/
theorem none_due (h : ByTime (e :: ps)) {now : Int} (hlater : now < e.key) :
    ∀ f ∈ e :: ps, now < f.key := by
  refine h.sorted.lt_of_head fun f hf => ?_
  cases hf
  exact hlater

end ByTime

namespace Agenda

/-- The interrupts that are due, in the order of the list. -/
def due (a : Agenda H) : NachosList (PendingInterrupt H) :=
  a.pending.filter fun e => e.key ≤ a.stats.totalTicks

/-- The first interrupt is due. -/
theorem due_cons {a : Agenda H} {e : ListElement (PendingInterrupt H)}
    {es : NachosList (PendingInterrupt H)} (hpending : a.pending = e :: es)
    (hdue : e.key ≤ a.stats.totalTicks) :
    a.due = e :: ({ a with pending := es } : Agenda H).due := by
  unfold due
  rw [hpending]
  exact List.filter_cons_of_pos (decide_eq_true hdue)

/-- What is due is told by the times. -/
theorem items_due {a : Agenda H} (h : ByTime a.pending) :
    a.due.items = a.pending.items.filter (·.when ≤ a.stats.totalTicks) := by
  unfold due NachosList.items
  rw [List.filter_map]
  refine congrArg (List.map _) (List.filter_congr fun e he => ?_)
  rw [h.keys e he]
  rfl

end Agenda

/-- Without overflow a time to come is later than now. -/
theorem lt_i32_add {now fromNow : Int} (hpos : 0 < fromNow) (hfits : now + fromNow < 2 ^ 31) :
    now < i32 (now + fromNow) := by
  by_cases hlo : -2 ^ 31 ≤ now + fromNow
  · rw [i32_eq hlo hfits]
    omega
  · have hint := (inInt_i32 (now + fromNow)).1
    omega

/-! ## One round of the loops -/

namespace DeviceKernel

variable {x x' : DeviceKernel H σ} {devices : Devices H σ} {p : PendingInterrupt H}

/-- What the calls of a handler leave alone. -/
structure Leaves (x x' : DeviceKernel H σ) : Prop where
  due : x'.interrupt.due = x.interrupt.due
  invoked : x'.interrupt.invoked = x.interrupt.invoked
  now : x'.now = x.now
  level : x'.interrupt.level = x.interrupt.level
  byTime : ByTime x.interrupt.pending → ByTime x'.interrupt.pending

/-- With interrupts off, a call fails only in `Schedule`. -/
theorem call_leaves {c : DeviceCall H} (hvalid : c.Valid) (hfits : c.Fits x.now)
    (hoff : x.interrupt.level = .intOff) : ∃ x', x.call c = some x' ∧ Leaves x x' := by
  cases c with
  | schedule handler arg fromNow type =>
      refine ⟨_, if_pos hvalid, ?_, rfl, rfl, rfl, fun h => h.sortedInsert _⟩
      have hlater := not_le.mpr (lt_i32_add hvalid hfits)
      exact NachosList.filter_sortedInsert _ (decide_eq_false hlater)
  | v n =>
      simp only [call, v, Interrupt.handlerCall, hoff, if_pos]
      exact ⟨_, rfl, rfl, rfl, rfl, hoff.symm, id⟩
  | yieldOnReturn => exact ⟨_, rfl, rfl, rfl, rfl, rfl, id⟩

theorem run_leaves {cs : List (DeviceCall H)} (hvalid : ∀ c ∈ cs, c.Valid)
    (hfits : ∀ c ∈ cs, c.Fits x.now) (hoff : x.interrupt.level = .intOff) :
    ∃ x', run call x cs = some x' ∧ Leaves x x' := by
  induction cs generalizing x with
  | nil => exact ⟨x, rfl, rfl, rfl, rfl, rfl, id⟩
  | cons c cs ih =>
      obtain ⟨y, hy, h⟩ := call_leaves (hvalid c List.mem_cons_self)
        (hfits c List.mem_cons_self) hoff
      obtain ⟨x', hx', h'⟩ := ih (x := y) (fun d hd => hvalid d (List.mem_cons_of_mem c hd))
        (fun d hd => by rw [h.now]; exact hfits d (List.mem_cons_of_mem c hd)) (h.level.trans hoff)
      exact ⟨x', run_cons_eq_some.mpr ⟨y, hy, hx'⟩, h'.due.trans h.due, h'.invoked.trans h.invoked,
        h'.now.trans h.now, h'.level.trans h.level, fun hs => h'.byTime (h.byTime hs)⟩

/-- The handler is called, and its interrupt is part of the history. -/
theorem invoke_leaves (hfuture : devices.OnlyFuture) (hfits : devices.Fits x.now)
    (hoff : x.interrupt.level = .intOff) (p : PendingInterrupt H) :
    ∃ x', x.invoke devices p = some x' ∧ Leaves (x.enter p) x' ∧
      x'.interrupt.status = x.interrupt.status := by
  obtain ⟨y, hy, h⟩ := run_leaves
    (x := { x.enter p with shared := (devices p (x.enter p)).1 }) (hfuture p (x.enter p))
    (hfits p (x.enter p) rfl) hoff
  refine ⟨{ y with interrupt :=
    { y.interrupt with status := x.interrupt.status, inHandler := false } }, ?_,
    ⟨h.due, h.invoked, h.now, h.level, h.byTime⟩, rfl⟩
  simp only [invoke, hy, Option.map_some]

theorem checkIfDue_occurs {advanceClock : Bool} {s : Interrupt H} (hfuture : devices.OnlyFuture)
    (hoff : x.interrupt.level = .intOff)
    (hr : x.interrupt.removeDue advanceClock = (some p, s))
    (hfits : devices.Fits s.stats.totalTicks) :
    ∃ y, x.checkIfDue devices advanceClock = some (true, y) ∧
      Leaves ((x.took s).enter p) y ∧ y.interrupt.status = s.status := by
  obtain ⟨y, hy, h⟩ := invoke_leaves (x := x.took s) hfuture hfits
    ((Interrupt.level_removeDue hr).trans hoff) p
  refine ⟨y, ?_, h⟩
  simp only [checkIfDue, if_pos hoff, hr, hy, Option.map_some]

/-- A round calls the handler of `e`, which is the first of the interrupts that are
due. -/
structure TakesDue (x x' : DeviceKernel H σ) (e : ListElement (PendingInterrupt H)) : Prop where
  due : x.interrupt.due = e :: x'.interrupt.due
  invoked : x'.interrupt.invoked = x.interrupt.invoked ++ [(e.item, x.now)]
  now : x'.now = x.now
  level : x'.interrupt.level = .intOff
  status : x'.interrupt.status = x.interrupt.status
  byTime : ByTime x.interrupt.pending → ByTime x'.interrupt.pending

/-- A round of the loop calls the handler of the first interrupt that is due, or it
finds nothing that is due. -/
theorem checkIfDue_cases (hfuture : devices.OnlyFuture) (hfits : devices.Fits x.now)
    (hoff : x.interrupt.level = .intOff) :
    (∃ y e, x.checkIfDue devices false = some (true, y) ∧ TakesDue x y e) ∨
    ∃ y, x.checkIfDue devices false = some (false, y) ∧
      y.interrupt.invoked = x.interrupt.invoked ∧
      (ByTime x.interrupt.pending → x.interrupt.status ≠ .idleMode → x.interrupt.due = []) := by
  obtain ⟨⟨q, s⟩, hr⟩ : ∃ r, x.interrupt.removeDue false = r := ⟨_, rfl⟩
  have hfalse (hq : q = none) : x.checkIfDue devices false = some (false, x.took s) := by
    simp only [checkIfDue, if_pos hoff, hr, hq]
  unfold Agenda.due
  cases Interrupt.removes_of_removeDue hr with
  | empty hpending =>
      rw [hpending]
      exact Or.inr ⟨_, hfalse rfl, rfl, fun _ _ => rfl⟩
  | later hpending _ hlater =>
      refine Or.inr ⟨_, hfalse rfl, rfl, fun hs _ => List.filter_eq_nil_iff.mpr fun f hf => ?_⟩
      rw [hpending] at hs hf
      rw [decide_eq_true_eq, not_le]
      exact hs.none_due hlater f hf
  | onlyTimer _ hidle _ =>
      exact Or.inr ⟨_, hfalse rfl, rfl, fun _ hstatus => absurd hidle hstatus⟩
  | @occurs e es hpending hnow =>
      have hclock : x.interrupt.clockAt e.key = x.interrupt.stats :=
        Interrupt.clockAt_of_le (hnow rfl)
      rw [hclock] at hr
      obtain ⟨y, hy, h, hstatus⟩ := checkIfDue_occurs hfuture hoff hr hfits
      refine Or.inl ⟨y, e, hy, ?_, h.invoked, h.now, h.level.trans hoff, hstatus,
        fun hs => h.byTime ?_⟩
      · rw [Agenda.due_cons hpending (hnow rfl), h.due]
        rfl
      · rw [hpending] at hs
        exact hs.tail

/-! ## The loops -/

/-- The loop ends after one round for each interrupt that is due, and one more.  It
invokes what is due when it starts, each interrupt once and in the order of the
list. -/
theorem dueLoop_ends (hfuture : devices.OnlyFuture) (hfits : devices.Fits x.now)
    (hoff : x.interrupt.level = .intOff) :
    ∃ x', (∀ n, x.interrupt.due.length < n → dueLoop devices n x = some x') ∧
      (ByTime x.interrupt.pending → x.interrupt.status ≠ .idleMode →
        x'.interrupt.invoked = x.interrupt.invoked ++
          x.interrupt.due.items.map fun p => (p, x.now)) := by
  -- the induction is on the number of interrupts that are due
  induction hcount : x.interrupt.due.length using Nat.strong_induction_on generalizing x with
  | h k ih =>
    rcases checkIfDue_cases hfuture hfits hoff with ⟨y, e, hc, htakes⟩ | ⟨y, hc, hinvoked, hnone⟩
    · have hless : y.interrupt.due.length + 1 = k := by
        rw [← hcount, htakes.due, List.length_cons]
      obtain ⟨x', hends, hrest⟩ := ih _ (by omega) (x := y) (by rw [htakes.now]; exact hfits)
        htakes.level rfl
      refine ⟨x', fun n hn => ?_, fun hs hstatus => ?_⟩
      · obtain ⟨m, rfl⟩ := Nat.exists_eq_add_one_of_ne_zero (Nat.ne_zero_of_lt hn)
        simp only [dueLoop, hc]
        exact hends m (by omega)
      · rw [hrest (htakes.byTime hs) (by rw [htakes.status]; exact hstatus), htakes.invoked,
          htakes.now, htakes.due, List.append_assoc]
        rfl
    · refine ⟨y, fun n hn => ?_, fun hs hstatus => ?_⟩
      · obtain ⟨m, rfl⟩ := Nat.exists_eq_add_one_of_ne_zero (Nat.ne_zero_of_lt hn)
        simp only [dueLoop, hc]
      · rw [hnone hs hstatus, hinvoked]
        exact (List.append_nil _).symm

theorem invoked_endTick (x : DeviceKernel H σ) (old : MachineStatus) :
    (x.endTick old).interrupt.invoked = x.interrupt.invoked := by
  unfold endTick
  split <;> rfl

/-- The first check of `Idle` calls a handler at the time `idleTime`. -/
theorem now_removeDue {s : Interrupt H}
    (hr : x.resting.interrupt.removeDue true = (some p, s)) : s.stats.totalTicks = x.idleTime := by
  cases Interrupt.removes_of_removeDue hr with
  | @occurs e es hpending _ =>
      have hpending' : x.interrupt.pending = e :: es := hpending
      rw [idleTime, hpending']
      rfl

/-- The loop of `Idle` ends. -/
theorem idle_ends (hfuture : devices.OnlyFuture) (hfits : devices.Fits x.idleTime)
    (hoff : x.interrupt.level = .intOff) :
    ∃ bound x', ∀ n, bound ≤ n → x.idle devices n = some x' := by
  have hoff' : x.resting.interrupt.level = .intOff := hoff
  obtain ⟨⟨q, s⟩, hr⟩ : ∃ r, x.resting.interrupt.removeDue true = r := ⟨_, rfl⟩
  cases q with
  | none =>
      have hc : x.resting.checkIfDue devices true = some (false, x.resting.took s) := by
        simp only [checkIfDue, if_pos hoff', hr]
      refine ⟨0, { x.resting.took s with interrupt :=
        { (x.resting.took s).interrupt with halted := true } }, fun n _ => ?_⟩
      rw [idle, hc]
  | some p =>
      obtain ⟨y, hc, h, _⟩ := checkIfDue_occurs hfuture hoff' hr
        (by rw [now_removeDue hr]; exact hfits)
      have hnow : y.now = x.idleTime := h.now.trans (now_removeDue (s := s) hr)
      have hlevel : y.interrupt.level = .intOff :=
        h.level.trans ((Interrupt.level_removeDue hr).trans hoff')
      obtain ⟨z, hends, _⟩ := dueLoop_ends hfuture (by rw [hnow]; exact hfits) hlevel
      refine ⟨y.interrupt.due.length + 1, { z with interrupt :=
        { z.interrupt with yieldOnReturn := false, status := .systemMode } }, fun n hn => ?_⟩
      simp only [idle, hc, hends n (Nat.lt_of_succ_le hn), Option.map_some]

/-- The loops of `OneTick` and `Idle` end, with any pending list, if no handler that
they call schedules an interrupt for a time that is not an `int`.  If `Schedule` has
built the list and the machine is not idle, the loop of `OneTick` has then invoked the
interrupts that were due when it started.  In every run of the calls of `Interrupt`
this is so. -/
theorem delivery_terminates (devices : Devices H σ) (hfuture : devices.OnlyFuture)
    (x : DeviceKernel H σ) :
    (devices.Fits x.ticked.now →
      ∃ bound x', (∀ n, bound ≤ n → x.oneTick devices n = some x') ∧
        (ByTime x.interrupt.pending → x.interrupt.status ≠ .idleMode →
          x'.interrupt.invoked = x.interrupt.invoked ++
            (x.interrupt.pending.items.filter (·.when ≤ x.ticked.now)).map
              fun p => (p, x.ticked.now))) ∧
    (devices.Fits x.idleTime → x.interrupt.level = .intOff →
      ∃ bound x', ∀ n, bound ≤ n → x.idle devices n = some x') ∧
    ∀ as, run Interrupt.step .init as = some x.interrupt → ByTime x.interrupt.pending ∧
      (x.interrupt.halted = false → x.interrupt.status ≠ .idleMode) := by
  refine ⟨fun hfits => ?_, idle_ends hfuture, fun as hrun => ?_⟩
  · obtain ⟨y, hends, hinvoked⟩ := dueLoop_ends hfuture hfits (rfl : x.ticked.interrupt.level = _)
    refine ⟨x.ticked.interrupt.due.length + 1, y.endTick x.interrupt.status, fun n hn => ?_,
      fun hx hstatus => ?_⟩
    · rw [oneTick, hends n (Nat.lt_of_succ_le hn)]
      rfl
    · have hitems : x.ticked.interrupt.due.items =
          x.interrupt.pending.items.filter (·.when ≤ x.ticked.now) := Agenda.items_due hx
      rw [invoked_endTick, hinvoked hx hstatus, hitems]
      rfl
  · have hinv := (Interrupt.run_spec Interrupt.inv_init hrun).1
    exact ⟨⟨hinv.agenda.keys, hinv.agenda.sorted⟩, hinv.status⟩

end DeviceKernel

/-- The devices are started, and nine ticks pass before the disk is used. -/
def devicesStarted : List (InterruptAction DeviceHandler) :=
  [.schedule .timerHandler 0 (timeOfNextInterrupt true 496) .timerInt,
    .schedule .consoleReadPoll 0 ConsoleTime .consoleReadInt,
    .schedule .networkReadPoll 0 NetworkTime .networkRecvInt] ++
    List.replicate 9 (.oneTick fun _ => []) ++ [.schedule .diskDone 0 500 .diskInt]

/-- Four interrupts are pending.  A key has been pressed, and no packet has come. -/
def keyPressed (level : IntStatus) : DeviceKernel DeviceHandler DeviceData where
  interrupt :=
    { Interrupt.init with
      stats := ⟨90, 0, 90, 0⟩
      pending :=
        [⟨⟨0, .timerHandler, 0, 97, .timerInt⟩, 97⟩,
          ⟨⟨1, .consoleReadPoll, 0, 100, .consoleReadInt⟩, 100⟩,
          ⟨⟨2, .networkReadPoll, 0, 100, .networkRecvInt⟩, 100⟩,
          ⟨⟨3, .diskDone, 0, 590, .diskInt⟩, 590⟩]
      scheduled :=
        [⟨0, .timerHandler, 0, 97, .timerInt⟩, ⟨1, .consoleReadPoll, 0, 100, .consoleReadInt⟩,
          ⟨2, .networkReadPoll, 0, 100, .networkRecvInt⟩, ⟨3, .diskDone, 0, 590, .diskInt⟩]
      level := level }
  sched := .init
  value _ := 0
  shared := ⟨true, [7, 12], -1, [some 97], false, true, 0, [none], false⟩

theorem run_devicesStarted :
    run Interrupt.step .init devicesStarted = some (keyPressed .intOn).interrupt := by
  decide

/-- The tenth tick delivers the timer, the console and the network, but not the
disk.  With interrupts off, `Idle` ends as well. -/
theorem delivery_terminates_started :
    (∃ bound x', (∀ n, bound ≤ n →
        (keyPressed .intOn).oneTick (nachosDevices ⟨0, 1, 2, 3, 4⟩) n = some x') ∧
      x'.interrupt.invoked.map (fun y => (y.1.serial, y.2)) = [(0, 100), (1, 100), (2, 100)]) ∧
    ∃ bound x', ∀ n, bound ≤ n →
      (keyPressed .intOff).idle (nachosDevices ⟨0, 1, 2, 3, 4⟩) n = some x' := by
  have hfuture := onlyFuture_nachosDevices ⟨0, 1, 2, 3, 4⟩
  constructor
  · obtain ⟨bound, x', hends, hinvoked⟩ := (DeviceKernel.delivery_terminates _ hfuture
      (keyPressed .intOn)).1 (fits_nachosDevices _ (by decide))
    obtain ⟨hsorted, hstatus⟩ := (DeviceKernel.delivery_terminates _ hfuture
      (keyPressed .intOn)).2.2 devicesStarted run_devicesStarted
    refine ⟨bound, x', hends, ?_⟩
    rw [hinvoked hsorted (hstatus rfl)]
    decide
  · exact (DeviceKernel.delivery_terminates _ hfuture (keyPressed .intOff)).2.1
      (fits_nachosDevices _ (by decide)) rfl

/-! ## Overflow -/

/-- Only the timer is used, and it does not randomize. -/
def onlyTimer : DeviceData := ⟨false, [], -1, [], false, false, 0, [], false⟩

/-- Only the timer is pending.  It is due, and `TimerTicks` later is no `int`. -/
structure LateTimer (x : DeviceKernel DeviceHandler DeviceData) : Prop where
  now : x.interrupt.stats.totalTicks = 2147483600
  level : x.interrupt.level = .intOff
  status : x.interrupt.status = .systemMode
  shared : x.shared = onlyTimer
  pending : ∃ p key, x.interrupt.pending = [⟨p, key⟩] ∧ p.handler = .timerHandler ∧
    key ≤ 2147483600

variable (sem : DeviceSemaphores) {x : DeviceKernel DeviceHandler DeviceData}

/-- The handler schedules the timer for a negative time, and it is due again. -/
theorem LateTimer.checkIfDue (h : LateTimer x) :
    ∃ y, x.checkIfDue (nachosDevices sem) false = some (true, y) ∧ LateTimer y := by
  obtain ⟨p, key, hpending, hhandler, hkey⟩ := h.pending
  obtain ⟨s, hremove, hs⟩ : ∃ s, x.interrupt.removeDue false = (some p, s) ∧
      s = { x.interrupt with pending := [] } := by
    have hdue : ¬x.interrupt.stats.totalTicks < key := by
      rw [h.now]
      omega
    exact ⟨_, by simp [Interrupt.removeDue, hpending, NachosList.sortedRemove, hdue, h.status], rfl⟩
  have hcalls : nachosDevices sem p ((x.took s).enter p) =
      (onlyTimer, [.schedule .timerHandler p.arg TimerTicks .timerInt, .yieldOnReturn]) := by
    have hshared : ((x.took s).enter p).shared = onlyTimer := h.shared
    simp only [nachosDevices, hhandler, hshared]
    rfl
  have hwhen : i32 (s.stats.totalTicks + TimerTicks) ≤ 2147483600 := by
    rw [hs, h.now]
    decide
  simp only [DeviceKernel.checkIfDue, if_pos h.level, hremove, DeviceKernel.invoke, hcalls]
  subst hs
  exact ⟨_, rfl, h.now, h.level, h.status, rfl, _, _, rfl, rfl, hwhen⟩

theorem LateTimer.dueLoop (n : Nat) (h : LateTimer x) :
    DeviceKernel.dueLoop (nachosDevices sem) n x = none := by
  induction n generalizing x with
  | zero => rfl
  | succ n ih =>
      obtain ⟨y, hc, hy⟩ := h.checkIfDue sem
      simp only [DeviceKernel.dueLoop, hc]
      exact ih hy

/-- The timer is pending shortly before the largest `int`. -/
def timerPending : DeviceKernel DeviceHandler DeviceData where
  interrupt :=
    { Interrupt.init with
      stats := ⟨2147483590, 0, 2147483590, 0⟩
      pending := [⟨⟨0, .timerHandler, 0, 2147483600, .timerInt⟩, 2147483600⟩]
      scheduled := [⟨0, .timerHandler, 0, 2147483600, .timerInt⟩]
      level := .intOn }
  sched := .init
  value _ := 0
  shared := onlyTimer

/-- The handlers schedule into the future, and the loop of `OneTick` does not end. -/
theorem delivery_overflows : (nachosDevices ⟨0, 1, 2, 3, 4⟩).OnlyFuture ∧
    ∀ n, timerPending.oneTick (nachosDevices ⟨0, 1, 2, 3, 4⟩) n = none := by
  refine ⟨onlyFuture_nachosDevices _, fun n => ?_⟩
  have hlate : LateTimer timerPending.ticked :=
    ⟨rfl, rfl, rfl, rfl, _, _, rfl, rfl, le_rfl⟩
  rw [DeviceKernel.oneTick, hlate.dueLoop _ n]
  rfl

end Nachos.Machine

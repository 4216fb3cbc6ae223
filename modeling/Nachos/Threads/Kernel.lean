import Nachos.Threads.Scheduler
import Nachos.Lib.Run
import Nachos.Lib.Bytes

/-!
# The thread kernel as a transition system

The model covers `threads/thread.cc`, `threads/scheduler.cc`,
`threads/synch.cc` and the interrupt level of `machine/interrupt.cc`.

## Control

There is one processor, so only `currentThread` executes.  A context switch
happens at two kinds of places: in `Scheduler::Run`, which `Yield` and `Sleep`
call, and where `SetLevel` turns interrupts on, because it then calls
`OneTick`, which invokes the device handlers that are due and may call
`Yield`.  Between two such places a routine runs without interruption, and the
model executes that piece as one step.

`code t` is what thread `t` still has to execute: a list of `Instr`.  An
`Instr` is a call of a kernel routine, or a place inside a routine at which
the routine can be suspended.  A routine that is suspended inside another one
leaves the rest of the caller behind it on the list, so the list is the stack
of the thread.  The interrupt level that a routine must restore is stored in
the instruction that restores it, as the routine keeps it in `oldLevel`.

## Programs

Kernel code that uses the routines is a `Program`.  It has its own
instructions `ι` and its own shared data `σ`.  One of its instructions
executes the code up to the next kernel call and answers with the calls that
follow.  An interrupt handler of a device updates the shared data and performs
`V` operations.  The theorems about the kernel hold for every program.

## Choices

An `Action` fixes every choice that the kernel does not make itself: what the
main thread does next, which device is due, and whether the timer asks for a
`Yield`.  The clock and the list of pending interrupts are not part of this
state: any device may be due at any tick.

## History

`log` records the events of a run.  No routine reads it.  The specifications
count in it.
-/

namespace Nachos.Threads

open Function

/-- `enum IntStatus` of `interrupt.h`. -/
inductive IntStatus where
  | intOff
  | intOn
  deriving DecidableEq, Repr

/-- The kernel routines that a thread calls from its own code, and the
instructions `ι` of that code itself. -/
inductive Call (ι : Type) where
  /-- `new Thread(name, priority)`. -/
  | newThread (priority : Int)
  /-- `t->Fork(func, arg)`. -/
  | fork (t : ThreadPtr) (func : ι)
  /-- `currentThread->SetPriority(p)`. -/
  | setPriority (p : Int)
  /-- `currentThread->Yield()`. -/
  | yield
  /-- `currentThread->Finish()`. -/
  | finish
  /-- `P()` on a semaphore. -/
  | p (n : Nat)
  /-- `V()` on a semaphore. -/
  | v (n : Nat)
  /-- `Lock::Acquire()`. -/
  | acquire (l : Nat)
  /-- `Lock::Release()`. -/
  | release (l : Nat)
  /-- `Condition::Wait(conditionLock)`. -/
  | wait (c l : Nat)
  /-- `Condition::Signal(conditionLock)`. -/
  | signal (c l : Nat)
  /-- `Condition::Broadcast(conditionLock)`. -/
  | broadcast (c l : Nat)
  /-- `interrupt->OneTick()` after a user instruction. -/
  | oneTick
  /-- The code of the program up to its next kernel call. -/
  | client (i : ι)
  deriving DecidableEq

/-- What a thread executes next: a call, or the rest of a routine. -/
inductive Instr (ι : Type) where
  | call (c : Call ι)
  /-- `(void) interrupt->SetLevel(oldLevel)`. -/
  | setLevel (oldLevel : IntStatus)
  /-- `while (CheckIfDue(FALSE))` of `OneTick`, and the code after it. -/
  | dueLoop
  /-- `while ((nextThread = FindNextToRun()) == NULL)` of `Sleep`. -/
  | sleep
  /-- The two loops over due interrupts in `Idle`. -/
  | idle
  /-- `while (value == 0)` of `P`, tested again after a `Sleep`. -/
  | pLoop (s : SemId)
  /-- `holdingThread = currentThread` of `Acquire`. -/
  | acquired (l : Nat)
  /-- `waitingQueue->Append(currentThread)` of `Wait`, and its `Sleep`. -/
  | waitAppend (c : Nat)
  /-- The return of `Wait` to its caller. -/
  | waitReturn (c l : Nat)
  /-- The code of `Scheduler::Run` after `SWITCH`. -/
  | afterSwitch
  /-- The start of `ThreadRoot`: the call of `InterruptEnable`. -/
  | threadRoot
  /-- The place after the `Sleep` in `Finish`. -/
  | notReached
  deriving DecidableEq

/-- The events that the specifications count. -/
inductive Event where
  /-- `V` on a semaphore. -/
  | v (s : SemId)
  /-- A `P` on a semaphore has decremented the value. -/
  | pDone (t : ThreadPtr) (s : SemId)
  /-- `Acquire` has completed. -/
  | acquired (t : ThreadPtr) (l : Nat)
  /-- `Release` has started, also inside `Wait`. -/
  | release (t : ThreadPtr) (l : Nat)
  /-- `Wait` on the condition has released the lock. -/
  | waitRelease (t : ThreadPtr) (c : Nat)
  /-- `Wait` has appended the thread to the waiting queue. -/
  | join (t : ThreadPtr) (c : Nat)
  /-- `Signal` or `Broadcast` has made the thread ready. -/
  | wake (t : ThreadPtr) (c : Nat)
  deriving DecidableEq, Repr

/-- Kernel code that uses the routines: the effect of its own instructions and
of the interrupt handlers of its devices.  `none` is a failed `ASSERT`, or a
device with no interrupt pending. -/
structure Program (ι σ η : Type) where
  exec : Sched → ι → σ → Option (σ × List (Call ι))
  handler : η → σ → Option (σ × List Nat)

/-- The state of the kernel and of the program. -/
structure Kernel (ι σ : Type) where
  sched : Sched
  /-- What each thread still has to execute. -/
  code : ThreadPtr → List (Instr ι)
  /-- `interrupt->level`. -/
  level : IntStatus
  /-- `interrupt->yieldOnReturn`. -/
  yieldOnReturn : Bool
  /-- `Semaphore::value`, an `int`. -/
  value : SemId → Int
  /-- `Lock::holdingThread`, the address of a thread.  The constructor of `Lock`
  does not set it. -/
  holdingThread : Nat → Option Nat
  /-- The data of the program. -/
  shared : σ
  /-- The history of the run. -/
  log : List Event

/-- The choices that one step leaves open. -/
inductive Action (ι η : Type) where
  /-- The main thread, back in its own code, goes on with these calls. -/
  | start (cs : List (Call ι))
  /-- The current thread executes its next instruction. -/
  | exec
  /-- The interrupt of a device is due. -/
  | interrupt (h : η)
  /-- The timer interrupt is due, and its handler calls `YieldOnReturn`. -/
  | timer

namespace Kernel

variable {ι σ η : Type}

/-- The thread that executes. -/
abbrev cur (k : Kernel ι σ) : ThreadPtr := k.sched.currentThread

/-- The pointer `currentThread`. -/
abbrev curAddress (k : Kernel ι σ) : Nat := k.sched.address k.cur

/-- Replace what the current thread still has to execute. -/
def setCode (k : Kernel ι σ) (is : List (Instr ι)) : Kernel ι σ :=
  { k with code := update k.code k.cur is }

/-- The start of a routine: `interrupt->SetLevel(IntOff)`.  Turning interrupts
off never calls `OneTick`. -/
def disable (k : Kernel ι σ) : Kernel ι σ := { k with level := .intOff }

/-- Add an event to the history. -/
def record (k : Kernel ι σ) (es : List Event) : Kernel ι σ :=
  { k with log := k.log ++ es }

/-- `Scheduler::Run`: the old thread keeps `rest` behind `SWITCH`, and
`nextThread` goes on where it stopped. -/
def switchTo (k : Kernel ι σ) (s : Sched) (nextThread : ThreadPtr)
    (rest : List (Instr ι)) : Kernel ι σ :=
  { k.setCode (.afterSwitch :: rest) with sched := s.run nextThread }

/-! ## The routines -/

/-- The loop of `Semaphore::P` from its test on.  `rest` is the code after the
loop. -/
def pTest (k : Kernel ι σ) (s : SemId) (rest : List (Instr ι)) : Kernel ι σ :=
  if k.value s = 0 then
    { k with sched := k.sched.block (.sem s) }.setCode (.sleep :: .pLoop s :: rest)
  else
    ({ k with value := update k.value s (Lib.i32 (k.value s - 1))
     }.record [.pDone k.cur s]).setCode rest

/-- `Semaphore::P`. -/
def p (k : Kernel ι σ) (s : SemId) (rest : List (Instr ι)) : Kernel ι σ :=
  k.disable.pTest s (.setLevel k.level :: rest)

/-- `Semaphore::V`. -/
def v (k : Kernel ι σ) (s : SemId) (rest : List (Instr ι)) : Kernel ι σ :=
  ({ k.disable with
     sched := k.sched.wake (.sem s)
     value := update k.value s (Lib.i32 (k.value s + 1))
   }.record [.v s]).setCode (.setLevel k.level :: rest)

/-- `Lock::Release`. -/
def release (k : Kernel ι σ) (l : Nat) (rest : List (Instr ι)) : Kernel ι σ :=
  ({ k with holdingThread := update k.holdingThread l none
   }.record [.release k.cur l]).v (.lock l) rest

/-- `Condition::Wait` up to the end of the call of `Release`. -/
def wait (k : Kernel ι σ) (c l : Nat) (rest : List (Instr ι)) : Kernel ι σ :=
  (k.disable.record [.waitRelease k.cur c]).release l
    (.waitAppend c :: .call (.acquire l) :: .setLevel k.level :: .waitReturn c l :: rest)

/-- The threads at the head of a waiting queue, as events. -/
def wakeEvents (k : Kernel ι σ) (c n : Nat) : List Event :=
  ((k.sched.queue (.cond c)).items.take n).map (.wake · c)

/-- `Condition::Signal`. -/
def signal (k : Kernel ι σ) (c l : Nat) (rest : List (Instr ι)) : Kernel ι σ :=
  (if k.holdingThread l = some k.curAddress then
    { k.disable with sched := k.sched.wake (.cond c) }.record (k.wakeEvents c 1)
  else k.disable).setCode (.setLevel k.level :: rest)

/-- `Condition::Broadcast`. -/
def broadcast (k : Kernel ι σ) (c l : Nat) (rest : List (Instr ι)) : Kernel ι σ :=
  (if k.holdingThread l = some k.curAddress then
    { k.disable with sched := k.sched.wakeAll (.cond c)
    }.record (k.wakeEvents c (k.sched.queue (.cond c)).length)
  else k.disable).setCode (.setLevel k.level :: rest)

/-- `Thread::Yield`. -/
def yield (k : Kernel ι σ) (rest : List (Instr ι)) : Kernel ι σ :=
  match k.sched.findNextToRun with
  | (none, _) => k.disable.setCode (.setLevel k.level :: rest)
  | (some nextThread, s) =>
      k.disable.switchTo (s.readyToRun k.cur) nextThread (.setLevel k.level :: rest)

/-- The loop of `Thread::Sleep`: dispatch the next ready thread, or idle. -/
def sleep (k : Kernel ι σ) (rest : List (Instr ι)) : Kernel ι σ :=
  match k.sched.findNextToRun with
  | (none, _) => k.setCode (.idle :: .sleep :: rest)
  | (some nextThread, s) => k.switchTo s nextThread rest

/-- `Thread::Finish` up to the loop of `Sleep`. -/
def finish (k : Kernel ι σ) : Kernel ι σ :=
  { k.disable with sched := k.sched.finish }.setCode [.sleep, .notReached]

/-- `Thread::Fork`: the stack of the new thread starts in `ThreadRoot`, which
enables interrupts, calls `func` and then calls `Finish`. -/
def fork (k : Kernel ι σ) (t : ThreadPtr) (func : ι) (rest : List (Instr ι)) :
    Kernel ι σ :=
  { k.disable with
    code := update k.code t [.threadRoot, .call (.client func), .call .finish]
    sched := k.sched.readyToRun t }.setCode (.setLevel k.level :: rest)

/-- `Interrupt::OneTick` up to its loop over the due interrupts. -/
def oneTick (k : Kernel ι σ) (rest : List (Instr ι)) : Kernel ι σ :=
  k.disable.setCode (.dueLoop :: rest)

/-- `Interrupt::SetLevel(now)`: turning interrupts on from off calls
`OneTick`. -/
def setLevel (k : Kernel ι σ) (now : IntStatus) (rest : List (Instr ι)) : Kernel ι σ :=
  if now = .intOn ∧ k.level = .intOff then { k with level := now }.oneTick rest
  else { k with level := now }.setCode rest

/-- The end of `OneTick`: interrupts on again, and the `Yield` that a handler
asked for. -/
def dueDone (k : Kernel ι σ) (rest : List (Instr ι)) : Kernel ι σ :=
  if k.yieldOnReturn then
    { k with level := .intOn, yieldOnReturn := false }.setCode (.call .yield :: rest)
  else { k with level := .intOn }.setCode rest

/-! ## One step -/

/-- A call, with the code that follows it. -/
def execCall (prog : Program ι σ η) (k : Kernel ι σ) (rest : List (Instr ι)) :
    Call ι → Option (Kernel ι σ)
  | .newThread pr =>
      (k.sched.newThread pr).map fun s => { k with sched := s }.setCode rest
  | .fork t func => some (k.fork t func rest)
  | .setPriority pr => some ({ k with sched := k.sched.setPriority pr }.setCode rest)
  | .yield => some (k.yield rest)
  | .finish => some k.finish
  | .p n => some (k.p (.sem n) rest)
  | .v n => some (k.v (.sem n) rest)
  | .acquire l => some (k.p (.lock l) (.acquired l :: rest))
  | .release l => some (k.release l rest)
  | .wait c l => some (k.wait c l rest)
  | .signal c l => some (k.signal c l rest)
  | .broadcast c l => some (k.broadcast c l rest)
  | .oneTick => some (k.oneTick rest)
  | .client i =>
      (prog.exec k.sched i k.shared).map fun r =>
        { k with shared := r.1 }.setCode (r.2.map Instr.call ++ rest)

/-- An instruction, with the code that follows it. -/
def execInstr (prog : Program ι σ η) (k : Kernel ι σ) (rest : List (Instr ι)) :
    Instr ι → Option (Kernel ι σ)
  | .call c => k.execCall prog rest c
  | .setLevel l => some (k.setLevel l rest)
  | .dueLoop => some (k.dueDone rest)
  | .sleep => some (k.sleep rest)
  | .idle => some ({ k with yieldOnReturn := false }.setCode rest)
  | .pLoop s => some (k.pTest s rest)
  | .acquired l =>
      some (({ k with holdingThread := update k.holdingThread l (some k.curAddress)
             }.record [.acquired k.cur l]).setCode rest)
  | .waitAppend c =>
      some (({ k with sched := k.sched.block (.cond c)
             }.record [.join k.cur c]).setCode (.sleep :: rest))
  | .waitReturn _ _ => some (k.setCode rest)
  | .afterSwitch => k.sched.reap.map fun s => { k with sched := s }.setCode rest
  | .threadRoot => some (k.setLevel .intOn rest)
  | .notReached => none

/-- The current thread is in a loop that invokes interrupt handlers. -/
def inDueLoop (k : Kernel ι σ) : Bool :=
  match k.code k.cur with
  | .dueLoop :: _ => true
  | .idle :: _ => true
  | _ => false

/-- One step of the system. -/
def step (prog : Program ι σ η) (k : Kernel ι σ) : Action ι η → Option (Kernel ι σ)
  | .start cs =>
      match k.code k.cur with
      | [] => some (k.setCode (cs.map Instr.call))
      | _ :: _ => none
  | .exec =>
      match k.code k.cur with
      | [] => none
      | i :: rest => k.execInstr prog rest i
  | .interrupt h =>
      if k.inDueLoop then
        (prog.handler h k.shared).map fun r =>
          { k with shared := r.1 }.setCode
            (r.2.map (fun n => Instr.call (.v n)) ++ k.code k.cur)
      else none
  | .timer => if k.inDueLoop then some { k with yieldOnReturn := true } else none

/-- The kernel at the end of `Initialize`, with interrupts enabled and the
main thread in its own code.  The semaphores have their initial values, every
lock is free, and no lock has a `holdingThread` that anything has set. -/
def init (initialValue : Nat → Int) (holdingThread : Nat → Option ThreadPtr)
    (shared : σ) : Kernel ι σ where
  sched := .init
  code _ := []
  level := .intOn
  yieldOnReturn := false
  value
    | .sem n => initialValue n
    | .lock _ => 1
  holdingThread := holdingThread
  shared := shared
  log := []

/-- The same, when `new` puts the threads at these addresses. -/
def initAt (address : ThreadPtr → Nat) (initialValue : Nat → Int)
    (holdingThread : Nat → Option Nat) (shared : σ) : Kernel ι σ :=
  { init initialValue holdingThread shared with sched := { Sched.init with address := address } }

end Kernel

end Nachos.Threads

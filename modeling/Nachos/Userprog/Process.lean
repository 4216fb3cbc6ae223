import Nachos.Machine.Memory
import Nachos.Threads.Reaping

/-!
# User processes: `userprog/exception.cc` and `userprog/progtest.cc`

The kernel program that runs user code.  `StartProcess`, `exec_func` and
`fork_func` give the current thread an address space and enter
`machine->Run()`, which never returns.  What a user program does there is a
script: its memory accesses, its system calls, and the `OneTick` after each
instruction.  A script lists what the program does in one run, so all scripts
together are all the runs of all programs.

`AddrSpace(executable)` is given by the image that it loads.  `exec_func`
takes the user address of the file name for a kernel address; the image stands
for what it finds there.
-/

namespace Nachos.Userprog

open Function Lib Threads Machine

/-- The pages that `AddrSpace(executable)` fills. -/
structure Image where
  numPages : Nat
  bytes : Bytes

/-- One step of a user program. -/
inductive UserOp where
  /-- `ReadMem` or `WriteMem`, for an instruction, an operand or an argument of
  a system call.  `random` is the choice of `Random()` at a fault. -/
  | access (a : Access) (random : Nat)
  | oneTick
  | exit
  | yield
  | join (threadId : Nat)
  /-- `SC_Fork`, with the script of the child. -/
  | fork (child : List UserOp)
  /-- `SC_Exec`, with the file and the script of the child. -/
  | exec (executable : Option Image) (child : List UserOp)

/-- The code of a thread that runs a user program. -/
inductive UserCode where
  /-- `machine->Run()`. -/
  | run (script : List UserOp)
  /-- `exec_func`, and `StartProcess` in the main thread.  `none` is a file
  that cannot be opened. -/
  | execFunc (executable : Option Image) (script : List UserOp)
  /-- `fork_func`, with `info->space`. -/
  | forkFunc (space : Option AddrSpace) (script : List UserOp)

/-- User memory.  `installer` and `dirtier` record which thread has filled a
frame and which has written to it last; nothing reads them. -/
structure UserState where
  memory : Memory
  /-- The number of arrays that `new char[size]` has made. -/
  arrays : Nat
  installer : Fin NumPhysPages → ThreadPtr
  dirtier : Fin NumPhysPages → ThreadPtr

namespace UserState

/-- The state before the first process. -/
def boot (dirty : Fin NumPhysPages → Bool) : UserState where
  memory := .boot dirty fun _ => ⟨0, fun _ => 0⟩
  arrays := 0
  installer _ := 0
  dirtier _ := 0

/-- `currentThread->space = space`. -/
def setSpace (x : UserState) (t : ThreadPtr) (space : AddrSpace) : UserState :=
  { x with memory.space := update x.memory.space t (some space) }

/-- `currentThread->space = new AddrSpace(executable)`. -/
def load (x : UserState) (t : ThreadPtr) (image : Image) : UserState :=
  { x with
    memory.disk := update x.memory.disk x.arrays ⟨image.numPages * PageSize, image.bytes⟩
    arrays := x.arrays + 1 }.setSpace t ⟨x.arrays, image.numPages⟩

/-- An access of the current thread. -/
def access (x : UserState) (s : Sched) (a : Access) (random : Nat) : Option UserState :=
  let t := s.currentThread
  (x.memory.serve s.ids ⟨t, a, random⟩).map fun y =>
    match x.memory.lookup (s.ids.tid t) (a.addr.toNat / PageSize) with
    | none =>
        { x with
          memory := y.1
          installer := update x.installer (x.memory.position random) t }
    | some i =>
        { x with
          memory := y.1
          dirtier := if a.writing then update x.dirtier i t else x.dirtier }

end UserState

/-- The priority of `new Thread(name)`. -/
def defaultPriority : Int := 255

/-- One step of a script, with the rest of it. -/
def execOp (s : Sched) (x : UserState) (op : UserOp) (script : List UserOp) :
    Option (UserState × List (Call UserCode)) :=
  match op with
  | .access a random => (x.access s a random).map fun x => (x, [.client (.run script)])
  | .oneTick => some (x, [.oneTick, .client (.run script)])
  | .exit => some (x, [.finish])
  | .yield => some (x, [.yield, .client (.run script)])
  | .join threadId =>
      if MaxThreadCount ≤ threadId then none
      else if s.ids.threadIDOccupied threadId then
        some (x, [.yield, .client (.run (.join threadId :: script))])
      else some (x, [.client (.run script)])
  | .fork child =>
      some (x, [.newThread defaultPriority,
        .fork s.created (.forkFunc (x.memory.space s.currentThread) child),
        .client (.run script)])
  | .exec executable child =>
      some (x, [.newThread defaultPriority, .fork s.created (.execFunc executable child),
        .client (.run script)])

/-- The code that runs user programs.  A program at the end of its script goes
on without memory accesses. -/
def userProgram : Program UserCode UserState Empty where
  exec s i x :=
    match i with
    | .run [] => some (x, [.oneTick, .client (.run [])])
    | .run (op :: script) => execOp s x op script
    | .execFunc none _ => some (x, [])
    | .execFunc (some image) script =>
        some (x.load s.currentThread image, [.client (.run script)])
    | .forkFunc none _ => none
    | .forkFunc (some space) script =>
        some (x.setSpace s.currentThread space, [.client (.run script)])
  handler d _ := d.elim

/-- What the code of a user process does to user memory. -/
inductive UserEffect (s : Sched) (x : UserState) : UserCode → UserState → Prop where
  | access {a : Access} {random : Nat} {script : List UserOp} {x' : UserState}
      (hx : x.access s a random = some x') : UserEffect s x (.run (.access a random :: script)) x'
  | load {image : Image} {script : List UserOp} :
      UserEffect s x (.execFunc (some image) script) (x.load s.currentThread image)
  | setSpace {space : AddrSpace} {script : List UserOp} :
      UserEffect s x (.forkFunc (some space) script) (x.setSpace s.currentThread space)
  | same {i : UserCode} (haccess : ∀ a random script, i ≠ .run (.access a random :: script))
      (hload : ∀ image script, i ≠ .execFunc (some image) script) : UserEffect s x i x

theorem exec_effect {s : Sched} {i : UserCode} {x : UserState}
    {r : UserState × List (Call UserCode)} (hexec : userProgram.exec s i x = some r) :
    UserEffect s x i r.1 := by
  cases i with
  | run script =>
    cases script with
    | nil =>
      cases hexec
      exact .same nofun nofun
    | cons op script =>
      cases op with
      | access a random =>
        obtain ⟨x', hx', rfl⟩ := Option.map_eq_some_iff.mp hexec
        exact .access hx'
      | join threadId =>
        simp only [userProgram, execOp] at hexec
        split at hexec
        · cases hexec
        · split at hexec <;> cases hexec <;> exact .same nofun nofun
      | _ =>
        cases hexec
        exact .same nofun nofun
  | execFunc executable script =>
    cases executable with
    | none =>
      cases hexec
      exact .same nofun nofun
    | some image =>
      cases hexec
      exact .load
  | forkFunc space script =>
    cases space with
    | none => cases hexec
    | some space =>
      cases hexec
      exact .setSpace

end Nachos.Userprog

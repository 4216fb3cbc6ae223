import Nachos.Userprog.Join

/-!
# The return from a system call

`SYSCALL` is an instruction that always raises an exception, so `OneInstruction`
does not move the program counters.  `ExceptionHandler` does it, with
`AdvancePC`.  `OneInstruction` makes `PC` the old `NextPC`; `AdvancePC` adds four to
`PC`.  The two agree unless the `SYSCALL` is in the delay slot of a branch or
jump.

The module puts the handler on top of `RegisterKernel`, so a call can be
suspended at each of its kernel calls, and the registers go through
`SaveUserState` and `RestoreUserState`.  `RegisterOp` is what the code does to the
registers, one call of `RaiseException`, `WriteRegister` or `AdvancePC` after the
other.  `SysMode` is the place in the handler at which a thread is between two
kernel calls.

The loops over user memory are in `UserCopy`.  Here they are the page faults that
they take, since nothing else of them reaches the registers.  What the file system
does is a list of kernel calls and a result; both are choices of the run.

`entry` and `ops` are the history: the registers with which a thread has executed
its last `SYSCALL`, and what has been done to them since.
-/

namespace Nachos.Userprog

open Function Lib Threads Machine

/-! ## The handler -/

/-- The system calls of `syscall.h`. -/
inductive SysCall where
  | scHalt | scExit | scExec | scJoin | scCreate | scOpen | scRead | scWrite | scClose
  | scFork | scYield
  deriving DecidableEq, Repr

/-- The code of a system call in `r2`. -/
def SysCall.number : SysCall → Word
  | scHalt => 0
  | scExit => SC_Exit
  | scExec => SC_Exec
  | scJoin => SC_Join
  | scCreate => 4
  | scOpen => 5
  | scRead => 6
  | scWrite => 7
  | scClose => 8
  | scFork => SC_Fork
  | scYield => SC_Yield

/-- What is not decided by the registers of the caller. -/
structure CallChoices where
  /-- The argument of `SC_Join`. -/
  threadId : Nat := 0
  /-- Where `ReadMem` or `WriteMem` in the loops over user memory takes a page
  fault. -/
  faults : List Word := []
  /-- The kernel calls of the file system. -/
  calls : List (Call Empty) := []
  /-- What the file system returns. -/
  result : Word := 0
  /-- `exec_func` can open its file. -/
  opened : Bool := true
  /-- The size of a new address space. -/
  numPages : Nat := 0

/-- What a user program does. -/
inductive SysOp where
  | instr (f : Registers → Registers)
  /-- The instruction `SYSCALL`.  A thread that the call creates executes
  `child`. -/
  | syscall (c : SysCall) (e : CallChoices) (child : List SysOp)

inductive SysCode where
  /-- `machine->Run()`, also while the thread is in the handler. -/
  | run (script : List SysOp)
  /-- The end of `StartProcess`, `exec_func` and `fork_func`. -/
  | start (numPages : Nat) (forked : Bool) (script : List SysOp)
  /-- `exec_func` without its file. -/
  | notOpened

/-- What is written to `r2`. -/
inductive SysResult where
  | nothing
  | value (v : Word)
  /-- `newThread->GetThreadID()`. -/
  | threadId (t : ThreadPtr)

/-- Where a user thread is. -/
inductive SysMode where
  | user
  /-- `while (ThreadIDOccupied[threadId] == true)`. -/
  | joining (threadId : Nat)
  /-- Behind the kernel calls: the loop of `SC_Read`, the result and
  `AdvancePC`. -/
  | returning (faults : List Word) (result : SysResult)
  /-- The end of `ExceptionHandler`. -/
  | leaving

/-- What the code does to the registers. -/
inductive RegisterOp where
  /-- An instruction that is no `SYSCALL`. -/
  | instr (f : Registers → Registers)
  /-- `RaiseException(SyscallException, 0)` up to the handler. -/
  | trap
  /-- `type` has been read and compared. -/
  | dispatch (c : SysCall)
  /-- `threadId` has been read. -/
  | argument (threadId : Nat)
  /-- `RaiseException(PageFaultException, badVAddr)` in `ReadMem` or
  `WriteMem`.  The handler of page faults writes no register. -/
  | fault (badVAddr : Word)
  /-- `WriteRegister(2, v)`. -/
  | result (v : Word)
  /-- `AdvancePC`. -/
  | advancePC

namespace RegisterOp

/-- `none` is a value that has not been read, or a delayed load outside of
`registers`. -/
def apply (r : Registers) : RegisterOp → Option Registers
  | instr f => some (f r)
  | trap => Userprog.trap r
  | dispatch c => if r r2 = c.number then some r else none
  | argument threadId => if (r arg1).toNat = threadId then some r else none
  | fault badVAddr => completeLoad (update r BadVAddrReg badVAddr)
  | result v => some (update r r2 v)
  | advancePC => some (Userprog.advancePC r)

def isAdvancePC : RegisterOp → Bool
  | advancePC => true
  | _ => false

/-- Part of a handler that has been entered. -/
def inHandler : RegisterOp → Bool
  | instr _ | trap => false
  | _ => true

end RegisterOp

/-- How often the program counters are advanced. -/
def advances (ops : List RegisterOp) : Nat := ops.countP RegisterOp.isAdvancePC

/-- The handler up to its first kernel call. -/
def SysCall.entryOps (c : SysCall) (e : CallChoices) : List RegisterOp :=
  match c with
  | scCreate | scOpen | scWrite => e.faults.map .fault
  | scJoin => [.argument e.threadId]
  | scYield | scExit => [.advancePC]
  | scHalt | scExec | scRead | scClose | scFork => []

def SysResult.ops (s : Sched) : SysResult → List RegisterOp
  | nothing => []
  | value v => [.result v]
  | threadId t => [.result (BitVec.ofNat 32 (s.ids.tid t))]

/-- What the next instruction of a user program does to the registers. -/
def userOps : List SysOp → List RegisterOp
  | [] => []
  | .instr f :: _ => [.instr f]
  | .syscall c e _ :: _ => .trap :: .dispatch c :: c.entryOps e

/-- What the code does to the registers up to the next kernel call. -/
def SysCode.ops (s : Sched) (i : SysCode) (m : SysMode) : List RegisterOp :=
  match i with
  | start _ _ _ | notOpened => []
  | run script =>
      match m with
      | .user => userOps script
      | .joining _ | .leaving => []
      | .returning faults result => faults.map .fault ++ (result.ops s ++ [.advancePC])

structure SysData where
  mode : ThreadPtr → SysMode
  /-- `t->space != NULL`. -/
  space : ThreadPtr → Bool

namespace SysData

def setMode (x : SysData) (t : ThreadPtr) (m : SysMode) : SysData :=
  { x with mode := update x.mode t m }

/-- A call of a kernel routine that runs no code of the program. -/
def kernelCall : Call Empty → Call SysCode
  | .newThread p => .newThread p
  | .fork _ func => func.elim
  | .setPriority p => .setPriority p
  | .yield => .yield
  | .finish => .finish
  | .p n => .p n
  | .v n => .v n
  | .acquire l => .acquire l
  | .release l => .release l
  | .wait c l => .wait c l
  | .signal c l => .signal c l
  | .broadcast c l => .broadcast c l
  | .oneTick => .oneTick
  | .client i => i.elim

/-- `ExceptionHandler(SyscallException)` in thread `s.currentThread` up to the first
kernel call, and the kernel calls.  `rest` is the code of the thread after
them. -/
def syscall (x : SysData) (s : Sched) (c : SysCall) (e : CallChoices) (child : List SysOp)
    (rest : List (Call SysCode)) : Option (SysData × List (Call SysCode)) :=
  let t := s.currentThread
  match c with
  | .scHalt => none
  | .scExit => some (x, [.finish])
  | .scJoin =>
      if MaxThreadCount ≤ e.threadId then none
      else some (x.setMode t (.joining e.threadId), rest)
  | .scFork =>
      some (x.setMode t (.returning [] .nothing),
        .newThread defaultPriority :: .fork s.created (.start e.numPages true child) :: rest)
  | .scExec =>
      some (x.setMode t (.returning [] (.threadId s.created)),
        .newThread defaultPriority ::
          .fork s.created (if e.opened then .start e.numPages false child else .notOpened) :: rest)
  | .scYield => some (x.setMode t .leaving, .yield :: rest)
  | .scRead =>
      some (x.setMode t (.returning e.faults (.value e.result)), e.calls.map kernelCall ++ rest)
  | .scOpen =>
      some (x.setMode t (.returning [] (.value e.result)), e.calls.map kernelCall ++ rest)
  | .scCreate | .scWrite | .scClose =>
      some (x.setMode t (.returning [] .nothing), e.calls.map kernelCall ++ rest)

/-- `machine->Run()` from where the thread is up to the next kernel call. -/
def run (x : SysData) (s : Sched) (script : List SysOp) :
    Option (SysData × List (Call SysCode)) :=
  let t := s.currentThread
  match x.mode t with
  | .user =>
      match script with
      | [] => some (x, [.oneTick, .client (.run [])])
      | .instr _ :: script => some (x, [.oneTick, .client (.run script)])
      | .syscall c e child :: script => x.syscall s c e child [.client (.run script)]
  | .joining threadId =>
      if s.ids.threadIDOccupied threadId then some (x, [.yield, .client (.run script)])
      else some (x.setMode t (.returning [] .nothing), [.client (.run script)])
  | .returning _ _ => some (x.setMode t .leaving, [.client (.run script)])
  | .leaving => some (x.setMode t .user, [.oneTick, .client (.run script)])

end SysData

/-- The code of the user threads.  An interrupt handler performs any `V`
operations. -/
def syscallProgram : Program SysCode SysData (List Nat) where
  exec s i x :=
    match i with
    | .start _ _ script =>
        some ({ x.setMode s.currentThread .user with
            space := update x.space s.currentThread true }, [.client (.run script)])
    | .notOpened => some (x, [])
    | .run script => if x.space s.currentThread then x.run s script else none
  handler vs x := some (x, vs)

/-- `machine->Run()` writes registers, and `SC_Fork` keeps the argument of its
call. -/
def runEffect (script : List SysOp) (m : SysMode) : RegisterEffect :=
  match m, script with
  | .user, .syscall .scFork _ _ :: _ => .fork
  | _, _ => .write

def SysCode.effect (i : SysCode) (x : SysData) (t : ThreadPtr) : RegisterEffect :=
  match i with
  | .start numPages forked _ => .init numPages forked
  | .notOpened => .keep
  | .run script => runEffect script (x.mode t)

variable {y : SysData × List (Call SysCode)} {a : Action SysCode (List Nat)}

theorem SysData.setMode_space (x : SysData) (u : ThreadPtr) (m : SysMode) :
    (x.setMode u m).space = x.space ∧ ∀ t, t ≠ u → (x.setMode u m).mode t = x.mode t :=
  ⟨rfl, fun _ ht => update_of_ne ht _ _⟩

theorem SysData.syscall_space {x : SysData} {s : Sched} {c : SysCall} {e : CallChoices}
    {child : List SysOp} {rest : List (Call SysCode)} (h : x.syscall s c e child rest = some y) :
    y.1.space = x.space ∧ ∀ t, t ≠ s.currentThread → y.1.mode t = x.mode t := by
  cases c with
  | scHalt => cases h
  | scExit =>
      cases h
      exact ⟨rfl, fun _ _ => rfl⟩
  | scJoin =>
      simp only [SysData.syscall] at h
      split at h
      · cases h
      · cases h
        exact setMode_space ..
  | _ =>
      cases h
      exact setMode_space ..

theorem SysData.run_space {x : SysData} {s : Sched} {script : List SysOp}
    (h : x.run s script = some y) :
    y.1.space = x.space ∧ ∀ t, t ≠ s.currentThread → y.1.mode t = x.mode t := by
  simp only [SysData.run] at h
  split at h
  · split at h
    · cases h
      exact ⟨rfl, fun _ _ => rfl⟩
    · cases h
      exact ⟨rfl, fun _ _ => rfl⟩
    · exact syscall_space h
  · split at h
    · cases h
      exact ⟨rfl, fun _ _ => rfl⟩
    · cases h
      exact setMode_space ..
  · cases h
    exact setMode_space ..
  · cases h
    exact setMode_space ..

/-- A step of the code changes the place of the current thread only, and gives an
address space to it if it starts. -/
theorem syscall_exec {s : Sched} {i : SysCode} {x : SysData}
    (h : syscallProgram.exec s i x = some y) :
    (∀ t, t ≠ s.currentThread → y.1.space t = x.space t ∧ y.1.mode t = x.mode t) ∧
      ((∀ numPages forked, i.effect x s.currentThread ≠ .init numPages forked) →
        y.1.space = x.space) := by
  cases i with
  | start numPages forked script =>
      cases h
      exact ⟨fun t ht => ⟨update_of_ne ht _ _, update_of_ne ht _ _⟩,
        fun hinit => absurd rfl (hinit numPages forked)⟩
  | notOpened =>
      cases h
      exact ⟨fun _ _ => ⟨rfl, rfl⟩, fun _ => rfl⟩
  | run script =>
      simp only [syscallProgram] at h
      split at h
      · obtain ⟨hspace, hmode⟩ := SysData.run_space h
        exact ⟨fun t ht => ⟨congrFun hspace t, hmode t ht⟩, fun _ => hspace⟩
      · cases h

def syscallUse : RegisterUse syscallProgram where
  space x t := x.space t
  effect s i x := i.effect x s.currentThread
  exec_other h t ht := ((syscall_exec h).1 t ht).1
  exec_self h hinit := congrFun ((syscall_exec h).2 hinit) _
  handler h := by
    cases h
    rfl

/-! ## The history -/

/-- A system call that has returned. -/
structure SyscallReturn where
  caller : ThreadPtr
  /-- The registers with which `SYSCALL` was executed. -/
  entry : Registers
  /-- The registers with which the program goes on. -/
  leave : Registers
  /-- What has been done to the registers in between. -/
  ops : List RegisterOp

structure SyscallKernel where
  machine : RegisterKernel SysCode SysData
  entry : ThreadPtr → Registers
  ops : ThreadPtr → List RegisterOp
  returns : List SyscallReturn

inductive SyscallAction where
  | kernel (a : Action SysCode (List Nat))
  /-- A handler is called that does nothing to the kernel. -/
  | handler

/-- The code of the user threads that a step executes. -/
def clientCode (k : Kernel SysCode SysData) : Action SysCode (List Nat) → Option SysCode
  | .exec =>
      match k.code k.cur with
      | .call (.client i) :: _ => some i
      | _ => none
  | _ => none

namespace SyscallKernel

/-- What a step does to the registers on behalf of the code. -/
def stepOps (k : Kernel SysCode SysData) (a : Action SysCode (List Nat)) : List RegisterOp :=
  ((clientCode k a).map fun i => i.ops k.sched (k.shared.mode k.cur)).getD []

def entersHandler : List RegisterOp → Bool
  | .trap :: _ => true
  | _ => false

/-- The step is the end of `ExceptionHandler`. -/
def leavesHandler (k : Kernel SysCode SysData) (a : Action SysCode (List Nat)) : Bool :=
  match clientCode k a, k.shared.mode k.cur with
  | some (.run _), .leaving => true
  | _, _ => false

/-- The history after a step. -/
def note (x : SyscallKernel) (a : Action SysCode (List Nat))
    (machine : RegisterKernel SysCode SysData) : SyscallKernel :=
  let k := x.machine.kernel
  let ops := stepOps k a
  { machine := machine
    entry := if entersHandler ops then update x.entry k.cur x.machine.cpu.registers else x.entry
    ops := update x.ops k.cur (if entersHandler ops then ops else x.ops k.cur ++ ops)
    returns := if leavesHandler k a
      then x.returns ++ [⟨k.cur, x.entry k.cur, x.machine.cpu.registers, x.ops k.cur⟩]
      else x.returns }

def step (x : SyscallKernel) : SyscallAction → Option SyscallKernel
  | .kernel a =>
      (Lib.run RegisterOp.apply x.machine.cpu.registers (stepOps x.machine.kernel a)).bind fun r =>
        (syscallUse.step x.machine (.kernel a fun _ => r)).map (x.note a)
  | .handler => (syscallUse.step x.machine .handler).map fun m => { x with machine := m }

/-- Each thread is forked once. -/
def ForkOnce (x : SyscallKernel) : SyscallAction → Prop
  | .kernel a => x.machine.kernel.ForkOnce a
  | .handler => True

instance (x : SyscallKernel) (a : SyscallAction) : Decidable (x.ForkOnce a) :=
  match a with
  | .kernel b => inferInstanceAs (Decidable (x.machine.kernel.ForkOnce b))
  | .handler => isTrue trivial

/-- No thread has an address space. -/
def boot (initialValue : Nat → Int) (holding : Nat → Option ThreadPtr) (cpu : Cpu) :
    SyscallKernel where
  machine := ⟨.init initialValue holding ⟨fun _ => .user, fun _ => false⟩, cpu⟩
  entry _ _ := 0
  ops _ := []
  returns := []

end SyscallKernel

/-! ## What the handler does to the registers -/

/-- No load is pending. -/
structure Idle (r : Registers) : Prop where
  load : r LoadReg = 0
  value : r LoadValueReg = 0
  zero : r (gp R0) = 0

/-- The program counters are the same. -/
structure SameCounters (r r' : Registers) : Prop where
  pc : r PCReg = r' PCReg
  nextPC : r NextPCReg = r' NextPCReg
  prevPC : r PrevPCReg = r' PrevPCReg

theorem completeLoad_spec {r r' : Registers} (h : completeLoad r = some r') :
    Idle r' ∧ ((r LoadReg).toNat < NumGPRegs → SameCounters r' r) := by
  unfold completeLoad at h
  split at h
  · rename_i hlt
    cases h
    refine ⟨⟨?_, ?_, update_self _ _ _⟩, fun hload => ?_⟩
    · rw [update_of_ne (by decide), update_of_ne (by decide), update_self]
    · rw [update_of_ne (by decide), update_self]
    · have hother : ∀ q : Register, NumGPRegs ≤ q.val → q ≠ LoadReg → q ≠ LoadValueReg →
          update (update (update (update r ⟨(r LoadReg).toNat, hlt⟩ (r LoadValueReg)) LoadReg 0)
            LoadValueReg 0) (gp R0) 0 q = r q := by
        intro q hq hq1 hq2
        have hzero : q ≠ gp R0 := by
          rintro rfl
          exact absurd hq (by decide)
        have hne : q ≠ ⟨(r LoadReg).toNat, hlt⟩ := by
          rintro rfl
          exact absurd hload (Nat.not_lt.mpr hq)
        rw [update_of_ne hzero, update_of_ne hq2, update_of_ne hq1, update_of_ne hne]
      exact ⟨hother _ (by decide) (by decide) (by decide),
        hother _ (by decide) (by decide) (by decide), hother _ (by decide) (by decide) (by decide)⟩
  · cases h

/-- Without a pending load there is nothing to complete. -/
theorem completeLoad_idle {r : Registers} (h : Idle r) : completeLoad r = some r := by
  have hlt : (r LoadReg).toNat < NumTotalRegs := by
    rw [h.load]
    decide
  have htarget : (⟨(r LoadReg).toNat, hlt⟩ : Register) = gp R0 := by
    apply Fin.ext
    show (r LoadReg).toNat = 0
    rw [h.load]
    rfl
  have hzero : update r (gp R0) 0 = r := update_eq_self_iff.mpr h.zero.symm
  have hload : update r LoadReg 0 = r := update_eq_self_iff.mpr h.load.symm
  have hvalue : update r LoadValueReg 0 = r := update_eq_self_iff.mpr h.value.symm
  unfold completeLoad
  rw [dif_pos hlt, htarget, h.value, hzero, hload, hvalue, hzero]

theorem SameCounters.advancePC {r r' : Registers} (h : SameCounters r r') :
    SameCounters (advancePC r) (advancePC r') := by
  have hadvance : ∀ r : Registers, Userprog.advancePC r PCReg = r PCReg + 4 ∧
      Userprog.advancePC r NextPCReg = r NextPCReg + 4 ∧
      Userprog.advancePC r PrevPCReg = r PCReg := fun r => ⟨rfl, rfl, rfl⟩
  obtain ⟨hpc, hnextPC, hprevPC⟩ := hadvance r
  obtain ⟨hpc', hnextPC', hprevPC'⟩ := hadvance r'
  constructor
  · rw [hpc, hpc', h.pc]
  · rw [hnextPC, hnextPC', h.nextPC]
  · rw [hprevPC, hprevPC', h.pc]

/-- A thread has executed `SYSCALL` with the registers `entry`, and `ops` have been
done since. -/
structure Handling (entry r : Registers) (ops : List RegisterOp) : Prop where
  idle : Idle r
  counters : (entry LoadReg).toNat < NumGPRegs → SameCounters r (advancePC^[advances ops] entry)

namespace Handling

variable {entry r r' : Registers} {ops ops' : List RegisterOp} {op : RegisterOp}

theorem trap (h : trap r = some r') : Handling r r' [.trap] := by
  obtain ⟨hidle, hcounters⟩ := completeLoad_spec h
  refine ⟨hidle, fun hload => ?_⟩
  have hsame := hcounters (by rwa [update_of_ne (by decide)])
  constructor
  · exact hsame.pc.trans (update_of_ne (by decide) _ _)
  · exact hsame.nextPC.trans (update_of_ne (by decide) _ _)
  · exact hsame.prevPC.trans (update_of_ne (by decide) _ _)

/-- The registers that the handler must keep. -/
def kept : List Register := [LoadReg, LoadValueReg, gp R0, PCReg, NextPCReg, PrevPCReg]

/-- An action that leaves the program counters and the delayed load. -/
theorem keep (h : Handling entry r ops) (hop : op.isAdvancePC = false)
    (hsame : ∀ q ∈ kept, r' q = r q) : Handling entry r' (ops ++ [op]) := by
  have hadvances : advances (ops ++ [op]) = advances ops := by
    rw [advances, List.countP_append, List.countP_singleton, hop]
    rfl
  constructor
  · exact ⟨(hsame _ (by decide)).trans h.idle.load, (hsame _ (by decide)).trans h.idle.value,
      (hsame _ (by decide)).trans h.idle.zero⟩
  · intro hload
    rw [hadvances]
    have hcounters := h.counters hload
    exact ⟨(hsame _ (by decide)).trans hcounters.pc, (hsame _ (by decide)).trans hcounters.nextPC,
      (hsame _ (by decide)).trans hcounters.prevPC⟩

theorem write (h : Handling entry r ops) (hop : op.isAdvancePC = false)
    {q : Register} (hq : q ∉ kept) (v : Word) : Handling entry (update r q v) (ops ++ [op]) := by
  refine h.keep hop fun p hp => update_of_ne ?_ _ _
  rintro rfl
  exact hq hp

theorem advance (h : Handling entry r ops) :
    Handling entry (advancePC r) (ops ++ [.advancePC]) := by
  have hadvances : advances (ops ++ [.advancePC]) = advances ops + 1 := by
    rw [advances, List.countP_append]
    rfl
  constructor
  · exact ⟨h.idle.load, h.idle.value, h.idle.zero⟩
  · intro hload
    rw [hadvances, iterate_succ_apply']
    exact (h.counters hload).advancePC

/-- One more action of the handler. -/
theorem apply (h : Handling entry r ops) (hop : op.inHandler = true)
    (hr : op.apply r = some r') : Handling entry r' (ops ++ [op]) := by
  cases op with
  | instr f => cases hop
  | trap => cases hop
  | dispatch c | argument threadId =>
      simp only [RegisterOp.apply] at hr
      split at hr
      · cases hr
        exact h.keep rfl fun _ _ => rfl
      · cases hr
  | fault badVAddr =>
      have hwrite : Handling entry (update r BadVAddrReg badVAddr) (ops ++ [.fault badVAddr]) :=
        h.write rfl (by decide) badVAddr
      cases (completeLoad_idle hwrite.idle).symm.trans hr
      exact hwrite
  | result v =>
      cases hr
      exact h.write rfl (by decide) v
  | advancePC =>
      cases hr
      exact h.advance

theorem run (h : Handling entry r ops) (hops : ∀ op ∈ ops', op.inHandler = true)
    (hrun : Lib.run RegisterOp.apply r ops' = some r') : Handling entry r' (ops ++ ops') := by
  induction ops' generalizing r ops with
  | nil =>
      cases hrun
      rwa [List.append_nil]
  | cons op ops' ih =>
      obtain ⟨r1, hr1, hrest⟩ := run_cons_eq_some.mp hrun
      have hnext := h.apply (hops op (List.mem_cons_self ..)) hr1
      have hall := ih hnext (fun o ho => hops o (List.mem_cons_of_mem _ ho)) hrest
      rwa [List.append_assoc, List.singleton_append] at hall

/-- An interrupt finds nothing to complete. -/
theorem interrupt (h : Handling entry r ops) : OwnEvent.interrupt.apply r = r := by
  rw [OwnEvent.apply, completeLoad_idle h.idle]
  rfl

end Handling

/-! ## The invariant -/

/-- What a thread at a place of the handler has done. -/
def Stage (entry r : Registers) (ops : List RegisterOp) : SysMode → Prop
  | .user => True
  | .joining _ | .returning _ _ => Handling entry r ops ∧ advances ops = 0
  | .leaving => Handling entry r ops ∧ advances ops = 1

theorem advances_append (ops ops' : List RegisterOp) :
    advances (ops ++ ops') = advances ops + advances ops' :=
  List.countP_append

theorem advances_faults (faults : List Word) : advances (faults.map .fault) = 0 := by
  rw [advances, List.countP_map]
  exact List.countP_eq_zero.mpr fun _ _ => Bool.false_ne_true

theorem SysCall.inHandler_entryOps (c : SysCall) (e : CallChoices) :
    ∀ op ∈ c.entryOps e, op.inHandler = true := by
  have hfaults : ∀ op ∈ e.faults.map RegisterOp.fault, op.inHandler = true := by
    intro op hop
    obtain ⟨badVAddr, _, rfl⟩ := List.mem_map.mp hop
    rfl
  cases c with
  | scCreate | scOpen | scWrite => exact hfaults
  | scJoin | scYield | scExit =>
      intro op hop
      rw [List.mem_singleton.mp hop]
      rfl
  | _ =>
      intro op hop
      cases hop

theorem SysResult.ops_spec (result : SysResult) (s : Sched) :
    (∀ op ∈ result.ops s, op.inHandler = true) ∧ advances (result.ops s) = 0 := by
  cases result with
  | nothing => exact ⟨fun op hop => (nomatch hop), rfl⟩
  | _ =>
      refine ⟨fun op hop => ?_, rfl⟩
      rw [List.mem_singleton.mp hop]
      rfl

theorem SysCode.inHandler_returning (faults : List Word) (result : SysResult) (s : Sched) :
    ∀ op ∈ faults.map RegisterOp.fault ++ (result.ops s ++ [.advancePC]), op.inHandler = true := by
  intro op hop
  rcases List.mem_append.mp hop with hop | hop
  · obtain ⟨badVAddr, _, rfl⟩ := List.mem_map.mp hop
    rfl
  · rcases List.mem_append.mp hop with hop | hop
    · exact (result.ops_spec s).1 op hop
    · rw [List.mem_singleton.mp hop]
      rfl

theorem entersHandler_eq_false {ops : List RegisterOp} (h : ∀ op ∈ ops, op.inHandler = true) :
    SyscallKernel.entersHandler ops = false := by
  cases ops with
  | nil => rfl
  | cons op ops =>
      cases op with
      | trap => cases h .trap (List.mem_cons_self ..)
      | _ => rfl

section Piece

variable {x : SysData} {s : Sched} {script : List SysOp} {y : SysData × List (Call SysCode)}
  {entry r r' : Registers} {ops : List RegisterOp}

theorem stage_setMode {m : SysMode} (h : Stage entry r ops m) (t : ThreadPtr) :
    Stage entry r ops ((x.setMode t m).mode t) := by
  show Stage entry r ops (update x.mode t m t)
  rwa [update_self]

/-- The handler is entered. -/
theorem stage_syscall {c : SysCall} {e : CallChoices} {child : List SysOp}
    {rest : List (Call SysCode)} (hmode : x.mode s.currentThread = .user)
    (h : x.syscall s c e child rest = some y)
    (hrun : Lib.run RegisterOp.apply r (.trap :: .dispatch c :: c.entryOps e) = some r') :
    Stage r r' (.trap :: .dispatch c :: c.entryOps e) (y.1.mode s.currentThread) := by
  obtain ⟨r1, htrap, hrest⟩ := run_cons_eq_some.mp hrun
  have hinner : ∀ op ∈ RegisterOp.dispatch c :: c.entryOps e, op.inHandler = true := by
    intro op hop
    rcases List.mem_cons.mp hop with rfl | hop
    · rfl
    · exact c.inHandler_entryOps e op hop
  have hhandling := (Handling.trap htrap).run hinner hrest
  cases c with
  | scHalt => cases h
  | scExit =>
      cases h
      rw [hmode]
      trivial
  | scJoin =>
      simp only [SysData.syscall] at h
      split at h
      · cases h
      · cases h
        apply stage_setMode
        exact ⟨hhandling, rfl⟩
  | scCreate | scOpen | scWrite =>
      cases h
      apply stage_setMode
      exact ⟨hhandling, advances_faults e.faults⟩
  | scFork | scExec | scRead | scClose | scYield =>
      cases h
      apply stage_setMode
      exact ⟨hhandling, rfl⟩

/-- The handler goes on behind its kernel calls. -/
theorem stage_returning {faults : List Word} {result : SysResult}
    (hstage : Stage entry r ops (.returning faults result))
    (hrun : Lib.run RegisterOp.apply r (faults.map .fault ++ (result.ops s ++ [.advancePC])) =
      some r') :
    Stage entry r' (ops ++ (faults.map .fault ++ (result.ops s ++ [.advancePC]))) .leaving := by
  obtain ⟨hhandling, hzero⟩ := hstage
  refine ⟨hhandling.run (SysCode.inHandler_returning faults result s) hrun, ?_⟩
  rw [advances_append, advances_append, advances_append, hzero, advances_faults,
    (result.ops_spec s).2]
  rfl

/-- One piece of the code of a user thread. -/
theorem stage_run (h : x.run s script = some y)
    (hstage : Stage entry r ops (x.mode s.currentThread))
    (hrun : Lib.run RegisterOp.apply r ((SysCode.run script).ops s (x.mode s.currentThread)) =
      some r') :
    if SyscallKernel.entersHandler ((SysCode.run script).ops s (x.mode s.currentThread)) then
      Stage r r' ((SysCode.run script).ops s (x.mode s.currentThread)) (y.1.mode s.currentThread)
    else
      Stage entry r' (ops ++ (SysCode.run script).ops s (x.mode s.currentThread))
        (y.1.mode s.currentThread) := by
  simp only [SysData.run] at h
  split at h
  · rename_i hmode
    rw [hmode] at hrun ⊢
    split at h
    · cases h
      rw [hmode]
      trivial
    · cases h
      rw [hmode]
      trivial
    · exact stage_syscall hmode h hrun
  · rename_i threadId hmode
    rw [hmode] at hrun hstage ⊢
    cases hrun
    show Stage entry r (ops ++ []) _
    rw [List.append_nil]
    split at h
    · cases h
      rw [hmode]
      exact hstage
    · cases h
      apply stage_setMode
      exact hstage
  · rename_i faults result hmode
    rw [hmode] at hrun hstage ⊢
    cases h
    have henters := entersHandler_eq_false (SysCode.inHandler_returning faults result s)
    refine (if_neg ?_).mpr (stage_setMode (stage_returning hstage hrun) _)
    exact fun h => Bool.false_ne_true (henters.symm.trans h)
  · cases h
    split
    · apply stage_setMode
      trivial
    · apply stage_setMode
      trivial

end Piece

theorem clientCode_eq_some {k : Kernel SysCode SysData}
    {i : SysCode} (h : clientCode k a = some i) :
    a = .exec ∧ ∃ rest, k.code k.cur = .call (.client i) :: rest := by
  cases a with
  | exec =>
      simp only [clientCode] at h
      split at h
      · rename_i j rest hcode
        cases h
        exact ⟨rfl, rest, hcode⟩
      · cases h
  | _ => cases h

theorem SyscallKernel.note_quiet {x : SyscallKernel}
    (h : clientCode x.machine.kernel a = none) (m : RegisterKernel SysCode SysData) :
    x.note a m = { x with machine := m } := by
  have hops : stepOps x.machine.kernel a = [] := by
    rw [stepOps, h]
    rfl
  have hleaves : leavesHandler x.machine.kernel a = false := by
    rw [leavesHandler, h]
  simp only [note, hops, hleaves, entersHandler, List.append_nil, update_eq_self,
    Bool.false_eq_true, if_false]

/-- A step that executes no code of the user threads is an interrupt for the
registers, or nothing. -/
theorem emit_quiet {x : RegisterKernel SysCode SysData}
    (h : clientCode x.kernel a = none) {write : Registers → Registers} :
    syscallUse.emit x (.kernel a write) = [] ∨
      syscallUse.emit x (.kernel a write) = [(x.kernel.cur, .interrupt)] := by
  cases a with
  | start cs => exact Or.inl rfl
  | interrupt vs => exact Or.inr rfl
  | timer => exact Or.inr rfl
  | exec =>
      simp only [RegisterUse.emit, RegisterUse.cpuStep]
      split
      · exact Or.inl rfl
      · rename_i i rest hcode
        simp only [clientCode, hcode] at h
        cases h
      · split <;> exact Or.inl rfl

theorem runEffect_cases (script : List SysOp) (m : SysMode) :
    runEffect script m = .write ∨ runEffect script m = .fork := by
  unfold runEffect
  split
  · exact Or.inr rfl
  · exact Or.inl rfl

/-- The registers that the code of a user thread writes. -/
theorem emit_run {x : RegisterKernel SysCode SysData} {script : List SysOp}
    {rest : List (Instr SysCode)}
    (hcode : x.kernel.code x.kernel.cur = .call (.client (.run script)) :: rest)
    (write : Registers → Registers) :
    syscallUse.emit x (.kernel .exec write) = [(x.kernel.cur, .write write)] := by
  simp only [RegisterUse.emit, RegisterUse.cpuStep, hcode, syscallUse, SysCode.effect]
  rcases runEffect_cases script (x.kernel.shared.mode x.kernel.cur) with heffect | heffect
  all_goals
    rw [heffect]
    rfl

/-- The history of a thread that does not execute. -/
theorem SyscallKernel.note_other (x : SyscallKernel) (a : Action SysCode (List Nat))
    (m : RegisterKernel SysCode SysData) {t : ThreadPtr} (ht : t ≠ x.machine.kernel.cur) :
    (x.note a m).entry t = x.entry t ∧ (x.note a m).ops t = x.ops t := by
  refine ⟨?_, update_of_ne ht _ _⟩
  simp only [note]
  split
  · exact update_of_ne ht _ _
  · rfl

/-- The history of the thread that executes. -/
theorem SyscallKernel.note_self (x : SyscallKernel) (a : Action SysCode (List Nat))
    (m : RegisterKernel SysCode SysData) {P : Registers → List RegisterOp → Prop}
    (h : if entersHandler (stepOps x.machine.kernel a) then
        P x.machine.cpu.registers (stepOps x.machine.kernel a)
      else P (x.entry x.machine.kernel.cur)
        (x.ops x.machine.kernel.cur ++ stepOps x.machine.kernel a)) :
    P ((x.note a m).entry x.machine.kernel.cur) ((x.note a m).ops x.machine.kernel.cur) := by
  simp only [note, update_self]
  split at h
  · rename_i henters
    rwa [if_pos henters, if_pos henters, update_self]
  · rename_i henters
    rwa [if_neg henters, if_neg henters]

/-- A call has come back, with its program counters advanced once. -/
structure SyscallReturn.Advanced (j : SyscallReturn) : Prop where
  once : advances j.ops = 1
  counters : (j.entry LoadReg).toNat < NumGPRegs → SameCounters j.leave (advancePC j.entry)

/-- `h` are the events of the registers. -/
structure SysInv (x : SyscallKernel) (h : List (ThreadPtr × OwnEvent)) : Prop where
  registers : RegisterInv syscallUse x.machine h
  stage : ∀ t, x.machine.kernel.shared.space t = true →
    Stage (x.entry t) (replay t h) (x.ops t) (x.machine.kernel.shared.mode t)
  returned : ∀ j ∈ x.returns, j.Advanced

/-- An interrupt does not change the registers of a thread in the handler. -/
theorem Stage.interrupt {entry r : Registers} {ops : List RegisterOp} {m : SysMode}
    (h : Stage entry r ops m) : Stage entry (OwnEvent.interrupt.apply r) ops m := by
  cases m with
  | user => trivial
  | _ =>
      rw [h.1.interrupt]
      exact h

namespace SysInv

variable {x x' : SyscallKernel} {h : List (ThreadPtr × OwnEvent)} {rest : List (Instr SysCode)}

/-- Nothing but an interrupt has happened to the registers. -/
theorem stage_quiet (hx : SysInv x h) {es : List (ThreadPtr × OwnEvent)} {u : ThreadPtr}
    (hes : es = [] ∨ es = [(u, .interrupt)]) (t : ThreadPtr)
    (ht : x.machine.kernel.shared.space t = true) :
    Stage (x.entry t) (replay t (h ++ es)) (x.ops t) (x.machine.kernel.shared.mode t) := by
  have hstage := hx.stage t ht
  rcases hes with rfl | rfl
  · rwa [List.append_nil]
  · by_cases htu : u = t
    · subst htu
      rw [replay_self]
      exact hstage.interrupt
    · rwa [replay_other htu]

/-- A step that executes no code of the user threads. -/
theorem step_quiet (hx : SysInv x h) {a : Action SysCode (List Nat)}
    (hclient : clientCode x.machine.kernel a = none) (hfork : x.machine.kernel.ForkOnce a)
    {m : RegisterKernel SysCode SysData} {write : Registers → Registers}
    (hstep : syscallUse.step x.machine (.kernel a write) = some m) :
    SysInv (x.note a m) (h ++ syscallUse.emit x.machine (.kernel a write)) := by
  have hshared : m.kernel.shared = x.machine.kernel.shared := by
    rcases Kernel.step_shared (step_kernel hstep).1 with
      heq | ⟨rfl, _, i, rest, r, hcode, _⟩ | ⟨d, r, _, hhandler, heq⟩
    · exact heq
    · simp only [clientCode, hcode] at hclient
      cases hclient
    · cases hhandler
      exact heq
  rw [SyscallKernel.note_quiet hclient]
  refine ⟨hx.registers.step hfork hstep, fun t ht => ?_, hx.returned⟩
  show Stage _ _ _ (m.kernel.shared.mode t)
  rw [hshared]
  exact hx.stage_quiet (emit_quiet hclient) t (hshared ▸ ht)

/-- The current thread is a user thread that is not behind `SWITCH`. -/
theorem registers_eq (hx : SysInv x h) {i : SysCode}
    (hcode : x.machine.kernel.code x.machine.kernel.cur = .call (.client i) :: rest)
    (hspace : x.machine.kernel.shared.space x.machine.kernel.cur = true) :
    x.machine.cpu.registers = replay x.machine.kernel.cur h := by
  refine hx.registers.running hspace ?_
  rw [hcode]
  exact id

/-- What has returned after a step. -/
theorem returned_note (hx : SysInv x h) {i : SysCode}
    (hcode : x.machine.kernel.code x.machine.kernel.cur = .call (.client i) :: rest)
    (hspace : ∀ script, i = .run script → x.machine.kernel.shared.space x.machine.kernel.cur = true)
    (m : RegisterKernel SysCode SysData) : ∀ j ∈ (x.note .exec m).returns, j.Advanced := by
  intro j hj
  have hreturns : (x.note .exec m).returns =
      if SyscallKernel.leavesHandler x.machine.kernel .exec then
        x.returns ++ [⟨x.machine.kernel.cur, x.entry x.machine.kernel.cur,
          x.machine.cpu.registers, x.ops x.machine.kernel.cur⟩]
      else x.returns := rfl
  rw [hreturns] at hj
  split at hj
  · rename_i hleaves
    rcases List.mem_append.mp hj with hold | hnew
    · exact hx.returned j hold
    · rw [List.mem_singleton.mp hnew]
      simp only [SyscallKernel.leavesHandler, clientCode, hcode] at hleaves
      split at hleaves
      · rename_i script hi hmode
        have hself := hspace script (Option.some.inj hi)
        have hstage := hx.stage _ hself
        rw [hmode] at hstage
        obtain ⟨hhandling, hone⟩ := hstage
        refine ⟨hone, fun hload => ?_⟩
        have hcounters := hhandling.counters hload
        rw [hone, ← hx.registers_eq hcode hself] at hcounters
        exact hcounters
      · cases hleaves
  · exact hx.returned j hj

/-- A step that executes code of the current thread. -/
theorem step_client (hx : SysInv x h) {i : SysCode}
    (hcode : x.machine.kernel.code x.machine.kernel.cur = .call (.client i) :: rest)
    {m : RegisterKernel SysCode SysData} {r : Registers}
    (hr : Lib.run RegisterOp.apply x.machine.cpu.registers
      (i.ops x.machine.kernel.sched (x.machine.kernel.shared.mode x.machine.kernel.cur)) = some r)
    (hfork : x.machine.kernel.ForkOnce (.exec : Action SysCode (List Nat)))
    (hstep : syscallUse.step x.machine (.kernel .exec fun _ => r) = some m) :
    SysInv (x.note .exec m) (h ++ syscallUse.emit x.machine (.kernel .exec fun _ => r)) := by
  obtain ⟨y, hexec, hshared⟩ : ∃ y, syscallProgram.exec x.machine.kernel.sched i
      x.machine.kernel.shared = some y ∧ m.kernel.shared = y.1 := by
    have hkernel := (step_kernel hstep).1
    simp only [Kernel.step, hcode, Kernel.execInstr, Kernel.execCall] at hkernel
    obtain ⟨y, hy, hm⟩ := Option.map_eq_some_iff.mp hkernel
    exact ⟨y, hy, by rw [← hm]; rfl⟩
  have hspace : ∀ script, i = .run script →
      x.machine.kernel.shared.space x.machine.kernel.cur = true := by
    rintro script rfl
    simp only [syscallProgram] at hexec
    split at hexec
    · assumption
    · cases hexec
  refine ⟨hx.registers.step hfork hstep, fun t ht => ?_, hx.returned_note hcode hspace m⟩
  show Stage ((x.note .exec m).entry t) _ ((x.note .exec m).ops t) (m.kernel.shared.mode t)
  change m.kernel.shared.space t = true at ht
  rw [hshared] at ht ⊢
  by_cases htc : t = x.machine.kernel.cur
  · subst htc
    refine x.note_self .exec m (P := fun entry ops => Stage entry _ ops _) ?_
    have hops : SyscallKernel.stepOps x.machine.kernel .exec =
        i.ops x.machine.kernel.sched (x.machine.kernel.shared.mode x.machine.kernel.cur) := by
      simp only [SyscallKernel.stepOps, clientCode, hcode]
      rfl
    rw [hops]
    cases i with
    | start numPages forked script =>
        cases hexec
        show Stage _ _ _ ((x.machine.kernel.shared.setMode x.machine.kernel.cur .user).mode _)
        apply stage_setMode
        trivial
    | notOpened =>
        cases hexec
        have hemit : syscallUse.emit x.machine (.kernel .exec fun _ => r) = [] := by
          simp only [RegisterUse.emit, RegisterUse.cpuStep, hcode]
          rfl
        show Stage _ _ (x.ops x.machine.kernel.cur ++ []) _
        rw [hemit, List.append_nil, List.append_nil]
        exact hx.stage _ ht
    | run script =>
        have hself := hspace script rfl
        simp only [syscallProgram, if_pos hself] at hexec
        have hstage := hx.stage _ hself
        rw [← hx.registers_eq hcode hself] at hstage
        rw [emit_run hcode, replay_self]
        exact stage_run hexec hstage hr
  · obtain ⟨hsame, hmode⟩ := (syscall_exec hexec).1 t htc
    obtain ⟨hentry, hops⟩ := x.note_other .exec m htc
    rw [hsame] at ht
    rw [hentry, hops, hmode]
    have hreplay := replay_ownEvents htc x.machine.cpu (fun _ => r)
      (syscallUse.cpuStep x.machine.kernel .exec) h
    show Stage _ (replay t (h ++ x.machine.cpu.ownEvents _ _ _)) _ _
    rw [hreplay]
    exact hx.stage t ht

theorem step {a : SyscallAction} (hx : SysInv x h) (hfork : x.ForkOnce a)
    (hstep : x.step a = some x') : ∃ h', SysInv x' h' := by
  cases a with
  | kernel a =>
      obtain ⟨r, hr, hmap⟩ := Option.bind_eq_some_iff.mp hstep
      obtain ⟨m, hm, rfl⟩ := Option.map_eq_some_iff.mp hmap
      cases hclient : clientCode x.machine.kernel a with
      | none => exact ⟨_, hx.step_quiet hclient hfork hm⟩
      | some i =>
          obtain ⟨rfl, rest, hcode⟩ := clientCode_eq_some hclient
          rw [SyscallKernel.stepOps, hclient] at hr
          exact ⟨_, hx.step_client hcode hr hfork hm⟩
  | handler =>
      obtain ⟨m, hm, rfl⟩ := Option.map_eq_some_iff.mp hstep
      refine ⟨_, hx.registers.step (a := .handler) trivial hm, fun t ht => ?_, hx.returned⟩
      have hkernel : m.kernel = x.machine.kernel := by
        simp only [RegisterUse.step] at hm
        split at hm
        · obtain ⟨r, _, rfl⟩ := Option.map_eq_some_iff.mp hm
          rfl
        · cases hm
      show Stage _ _ _ (m.kernel.shared.mode t)
      rw [hkernel]
      exact hx.stage_quiet (Or.inr rfl) t (hkernel ▸ ht)

end SysInv

/-! ## What holds in every run -/

/-- The call has ended as `OneInstruction` ends an instruction that is no branch or
jump, and has done so once. -/
structure SyscallReturn.Completes (j : SyscallReturn) : Prop where
  pc : j.leave PCReg = j.entry NextPCReg
  nextPC : j.leave NextPCReg = j.entry NextPCReg + 4
  prevPC : j.leave PrevPCReg = j.entry PCReg
  once : advances j.ops = 1

theorem SyscallReturn.Advanced.completes_iff {j : SyscallReturn} (h : j.Advanced)
    (hload : (j.entry LoadReg).toNat < NumGPRegs) :
    j.Completes ↔ j.entry NextPCReg = j.entry PCReg + 4 := by
  have hcounters := h.counters hload
  have hpc : j.leave PCReg = j.entry PCReg + 4 := hcounters.pc
  constructor
  · intro hcompletes
    rw [← hpc, hcompletes.pc]
  · intro heq
    exact ⟨hpc.trans heq.symm, hcounters.nextPC, hcounters.prevPC, h.once⟩

/-- In every run in which each thread is forked once, a system call that returns has
ended like an instruction exactly when its `SYSCALL` was not in a delay slot. -/
theorem syscall_completes_iff (initialValue : Nat → Int) (holding : Nat → Option ThreadPtr)
    (cpu : Cpu) (as : List SyscallAction) (x : SyscallKernel)
    (hok : Along SyscallKernel.step SyscallKernel.ForkOnce (.boot initialValue holding cpu) as)
    (hrun : run SyscallKernel.step (.boot initialValue holding cpu) as = some x)
    (j : SyscallReturn) (hj : j ∈ x.returns) (hload : (j.entry LoadReg).toNat < NumGPRegs) :
    j.Completes ↔ j.entry NextPCReg = j.entry PCReg + 4 := by
  have h0 : SysInv (.boot initialValue holding cpu) [] := by
    refine ⟨⟨Kernel.control_init _ _ _, fun _ => List.not_mem_nil, ?_, ?_, ?_⟩, ?_, ?_⟩
    · exact fun t ht => (nomatch ht)
    · exact fun ht => (nomatch ht)
    · exact fun t ht => (nomatch ht)
    · exact fun t ht => (nomatch ht)
    · exact fun j hj => (nomatch hj)
  obtain ⟨h, hx⟩ : ∃ h, SysInv x h :=
    run_invariant (I := fun x => ∃ h, SysInv x h)
      (fun _ _ _ ⟨_, hx⟩ hfork hstep => hx.step hfork hstep) ⟨[], h0⟩ hok hrun
  exact (hx.returned j hj).completes_iff hload

/-- A program that jumps around and yields. -/
def yieldAt (pc nextPC : Word) (n : Nat) : List SyscallAction :=
  .kernel (.start [.client (.start 1 false
      [.instr fun r => update (update (update r PCReg pc) NextPCReg nextPC) r2 SC_Yield,
        .syscall .scYield {} []])]) ::
    List.replicate n (.kernel .exec)

/-- The machine registers hold anything at the start. -/
def anyCpu : Cpu := ⟨fun _ => 5, fun _ _ => 6, fun _ => 0, fun _ _ => 7⟩

/-- A call at address 8 with address 12 to follow. -/
theorem syscall_completes_iff_yield : ∃ x j,
    run SyscallKernel.step (.boot (fun _ => 0) (fun _ => none) anyCpu) (yieldAt 8 12 9) = some x ∧
      j ∈ x.returns ∧ j.entry NextPCReg = 12 ∧ j.leave PCReg = 12 ∧ j.Completes :=
  ⟨_, _, rfl, List.mem_singleton.mpr rfl, rfl, rfl,
    (syscall_completes_iff (fun _ => 0) (fun _ => none) anyCpu (yieldAt 8 12 9) _ (by decide) rfl _
      (List.mem_singleton.mpr rfl) (by decide)).mpr rfl⟩

/-- A call in the delay slot of a jump to address 100 goes on behind the delay
slot. -/
theorem delay_slot_forgets_target : ∃ x j,
    run SyscallKernel.step (.boot (fun _ => 0) (fun _ => none) anyCpu) (yieldAt 8 100 9) = some x ∧
      j ∈ x.returns ∧ j.entry PCReg = 8 ∧ j.entry NextPCReg = 100 ∧ j.leave PCReg = 12 ∧
      j.leave NextPCReg = 104 ∧ ¬j.Completes := by
  refine ⟨_, _, rfl, List.mem_singleton.mpr rfl, rfl, rfl, rfl, rfl, fun h => ?_⟩
  exact absurd h.pc (by decide)

end Nachos.Userprog

import Nachos.Machine.NoCrash
import Nachos.Userprog.Syscall

/-!
# The register file

`DelayedLoad` writes to the register whose number is in `LoadReg`, and no code looks
at this number.  If it were not the number of a general register, the write could
hit `Hi`, `Lo`, a program counter, or `LoadReg` itself.  `FileOk` says that it is one,
and that register 0 is 0.

A user instruction leaves `LoadReg` with the number of a general register, whatever
the word is.  An exception and an interrupt leave 0 there, and so does
`InitRegisters`.  A context switch brings back registers that were saved, so the
invariant is also about those: `FileInv` says it of the threads that are behind
`SWITCH`.  The registers of a thread that has not been switched out yet are never
read.

The model of the system calls leaves open what an instruction does to the
registers.  `Executes` says that it is what `OneInstruction` does, with any words in
memory.
-/

namespace Nachos.Userprog

open Function Lib Threads Machine

/-- Register 0 is 0, and the delayed load goes to a general register. -/
structure FileOk (r : Registers) : Prop where
  zero : r (gp R0) = 0
  load : (r LoadReg).toNat < NumGPRegs

/-- `DelayedLoad` returns.  Of the registers that are not general it writes the load
registers only, and they hold its arguments. -/
def LoadsGeneral (r : Registers) : Prop :=
  ∀ m nextReg nextValue, ∃ s, Code.delayedLoad nextReg nextValue ⟨r, m⟩ = some (.ok (), s) ∧
    ∀ q : Register, NumGPRegs ≤ q.val → s.registers q =
      if q = LoadReg then nextReg else if q = LoadValueReg then nextValue else r q

/-- What holds when the machine has the registers `r`.  `CheckIfDue` and a
`RaiseException` of the kernel call `DelayedLoad` at once, `OneInstruction` after its
`switch`. -/
structure RegistersOk (r : Registers) : Prop where
  file : FileOk r
  interrupt : LoadsGeneral r
  fault : ∀ badVAddr, LoadsGeneral (update r BadVAddrReg badVAddr)
  completes : ∀ m tid n s, State.body tid ⟨r, m⟩ = some (.ok n, s) → LoadsGeneral s.registers
  raises : ∀ m tid trap s, State.body tid ⟨r, m⟩ = some (.error trap, s) →
    LoadsGeneral (update s.registers BadVAddrReg trap.badVAddr)

theorem loadsGeneral {r : Registers} (h : (r LoadReg).toNat < NumGPRegs) : LoadsGeneral r := by
  intro m nextReg nextValue
  have hlt : (r LoadReg).toNat < NumTotalRegs := Nat.lt_trans h (by decide)
  refine ⟨_, Code.delayedLoad_eq (s := ⟨r, m⟩) hlt nextReg nextValue, fun q hq => ?_⟩
  by_cases hload : q = LoadReg
  · rw [hload, if_pos rfl]
    rfl
  · by_cases hvalue : q = LoadValueReg
    · rw [if_neg hload, if_pos hvalue, hvalue]
      rfl
    · rw [if_neg hload, if_neg hvalue]
      exact State.loaded_special (s := ⟨r, m⟩) h hq hload hvalue nextReg nextValue

/-! ## What keeps the register file -/

namespace FileOk

variable {r r' : Registers}

/-- The `switch` does not write `LoadReg`. -/
theorem load_body (h : FileOk r) {m : Memory} {tid : Nat} {res : Except Trap Next} {s : State}
    (hbody : State.body tid ⟨r, m⟩ = some (res, s)) :
    (s.registers LoadReg).toNat < NumGPRegs := by
  have hsame : SameControl ⟨r, m⟩ s := by
    have hcontrolled := State.controlled_body tid ⟨r, m⟩ ⟨r, m⟩ (fun _ _ => rfl) res s hbody
    cases res with
    | error trap => exact hcontrolled
    | ok n => exact hcontrolled
  rw [hsame LoadReg (by decide)]
  exact h.load

theorem registersOk (h : FileOk r) : RegistersOk r where
  file := h
  interrupt := loadsGeneral h.load
  fault _ := by
    refine loadsGeneral ?_
    rw [update_of_ne (by decide)]
    exact h.load
  completes _ _ _ _ hbody := loadsGeneral (h.load_body hbody)
  raises _ _ _ _ hbody := by
    refine loadsGeneral ?_
    rw [update_of_ne (by decide)]
    exact h.load_body hbody

/-- Any instruction word, also one that raises an exception. -/
theorem oneInstruction (h : FileOk r) {m : Memory} {tid : Nat} {raised : Option Trap} {s : State}
    (hrun : State.oneInstruction ⟨r, m⟩ tid = some (raised, s)) : FileOk s.registers := by
  have hvalid : State.Valid ⟨r, m⟩ := ⟨h.zero, h.load⟩
  obtain ⟨hzero, hload⟩ := hvalid.oneInstruction hrun
  exact ⟨hzero, hload⟩

theorem of_completeLoad (h : completeLoad r = some r') : FileOk r' := by
  obtain ⟨hload, _, hzero⟩ := (completeLoad_spec h).1
  refine ⟨hzero, ?_⟩
  rw [hload]
  decide

theorem write (h : FileOk r) {q : Register} (hzero : q ≠ gp R0) (hload : q ≠ LoadReg)
    (v : Word) : FileOk (update r q v) := by
  constructor
  · rw [update_of_ne hzero.symm]
    exact h.zero
  · rw [update_of_ne hload.symm]
    exact h.load

theorem cleared : FileOk fun _ => 0 := ⟨rfl, by decide⟩

theorem initRegisters (numPages : Nat) (forkPC : Option Word) :
    FileOk (initRegisters numPages forkPC) := by
  have hstack : FileOk (update (update (update (fun _ => 0) PCReg 0) NextPCReg 4) StackReg
      (BitVec.ofNat 32 (numPages * PageSize) - 16)) :=
    ((cleared.write (by decide) (by decide) 0).write (by decide) (by decide) 4).write (by decide)
      (by decide) _
  cases forkPC with
  | none => exact hstack
  | some pc =>
      exact (hstack.write (by decide) (by decide) pc).write (by decide) (by decide) (pc + 4)

theorem advancePC (h : FileOk r) : FileOk (advancePC r) :=
  ((h.write (by decide) (by decide) _).write (by decide) (by decide) _).write (by decide)
    (by decide) _

/-- What a handler does to the registers. -/
theorem apply (h : FileOk r) {op : RegisterOp} (hop : ∀ f, op ≠ .instr f)
    (hr : op.apply r = some r') : FileOk r' := by
  cases op with
  | instr f => exact absurd rfl (hop f)
  | trap | fault badVAddr => exact of_completeLoad hr
  | dispatch c | argument threadId =>
      simp only [RegisterOp.apply] at hr
      split at hr
      · cases hr
        exact h
      · cases hr
  | result v =>
      cases hr
      exact h.write (by decide) (by decide) v
  | advancePC =>
      cases hr
      exact h.advancePC

end FileOk

/-- What a handler does in a row.  `trace` are the registers before each part. -/
theorem FileOk.run {ops : List RegisterOp} (hops : ∀ f, .instr f ∉ ops) {r : Registers}
    (h : FileOk r) :
    (∀ q ∈ trace RegisterOp.apply (fun r _ => [r]) r ops, FileOk q) ∧
      ∀ r', Lib.run RegisterOp.apply r ops = some r' → FileOk r' := by
  induction ops generalizing r with
  | nil =>
      refine ⟨fun q hq => absurd hq List.not_mem_nil, fun r' hrun => ?_⟩
      cases hrun
      exact h
  | cons op ops ih =>
      have hrest : ∀ f, .instr f ∉ ops := fun f hf => hops f (List.mem_cons_of_mem _ hf)
      have hop : ∀ f, op ≠ .instr f := fun f hf => hops f (hf ▸ List.mem_cons_self)
      refine ⟨fun q hq => ?_, fun r' hrun => ?_⟩
      · simp only [trace, List.singleton_append, List.mem_cons] at hq
        rcases hq with rfl | hq
        · exact h
        · split at hq
          · cases hq
          · rename_i m hm
            exact (ih hrest (h.apply hop hm)).1 q hq
      · obtain ⟨m, hm, hlater⟩ := run_cons_eq_some.mp hrun
        exact (ih hrest (h.apply hop hm)).2 r' hlater

theorem instr_not_mem {ops : List RegisterOp} (hops : ∀ op ∈ ops, op.inHandler = true)
    (f : Registers → Registers) : .instr f ∉ ops :=
  fun hmem => Bool.false_ne_true (hops _ hmem)

theorem userOps_instr {script : List SysOp} {f : Registers → Registers}
    (h : .instr f ∈ userOps script) : userOps script = [.instr f] := by
  cases script with
  | nil => cases h
  | cons op script =>
      cases op with
      | instr g =>
          cases List.mem_singleton.mp h
          rfl
      | syscall c e child =>
          rcases List.mem_cons.mp h with heq | h
          · cases heq
          · rcases List.mem_cons.mp h with heq | h
            · cases heq
            · exact absurd h (instr_not_mem (c.inHandler_entryOps e) f)

/-- A step executes one user instruction and nothing else, or none. -/
theorem SyscallKernel.stepOps_instr {k : Kernel SysCode SysData} {a : Action SysCode (List Nat)}
    {f : Registers → Registers} (h : .instr f ∈ stepOps k a) : stepOps k a = [.instr f] := by
  unfold stepOps at h ⊢
  generalize clientCode k a = o at h ⊢
  cases o with
  | none => cases h
  | some i =>
      cases i with
      | start numPages forked script => cases h
      | notOpened => cases h
      | run script =>
          change .instr f ∈ (SysCode.run script).ops k.sched (k.shared.mode k.cur) at h
          show (SysCode.run script).ops k.sched (k.shared.mode k.cur) = [.instr f]
          cases hmode : k.shared.mode k.cur with
          | user =>
              rw [hmode] at h
              exact userOps_instr h
          | joining threadId | leaving =>
              rw [hmode] at h
              cases h
          | returning faults result =>
              rw [hmode] at h
              exact absurd h (instr_not_mem (SysCode.inHandler_returning faults result k.sched) f)

/-! ## The registers of the machine and of the threads -/

section Kernel

variable {ι σ η : Type} {prog : Program ι σ η}

/-- The registers of the machine, and those that a thread will get back, are in
order. -/
structure FileInv (U : RegisterUse prog) (x : RegisterKernel ι σ) : Prop where
  first : x.kernel.SwitchFirst
  machine : FileOk x.cpu.registers
  saved : ∀ t, U.space x.kernel.shared t = true → Kernel.Switched (x.kernel.code t) →
    FileOk (x.cpu.userRegisters t)

variable {U : RegisterUse prog} {k k' : Kernel ι σ} {c c' : Cpu} {a : Action ι η}
  {write : Registers → Registers}

theorem FileInv.registers (hx : FileInv U ⟨k, c⟩) (hwrite : FileOk (write c.registers))
    (hc : c.step k.cur (U.space k.shared k.cur) k.sched.created write (U.cpuStep k a) = some c') :
    FileOk c'.registers := by
  generalize hcpu : U.cpuStep k a = e at hc
  cases e with
  | none =>
      cases hc
      exact hx.machine
  | save =>
      cases hc
      split <;> exact hx.machine
  | restore =>
      cases hc
      split
      · rename_i hspace
        exact hx.saved k.cur hspace (switched_of_restore hcpu)
      · exact hx.machine
  | interrupt =>
      obtain ⟨r, hr, rfl⟩ := Option.map_eq_some_iff.mp hc
      exact FileOk.of_completeLoad hr
  | code e =>
      cases e with
      | keep =>
          cases hc
          exact hx.machine
      | write | fork =>
          cases hc
          exact hwrite
      | init numPages forked =>
          cases hc
          exact FileOk.initRegisters numPages _

/-- The current thread is switched out. -/
theorem FileInv.dispatch (hx : FileInv U ⟨k, c⟩) (hd : k.dispatches a = true)
    (hstep : k.step prog a = some k')
    (hc : c.step k.cur (U.space k.shared k.cur) k.sched.created write .save = some c')
    (t : ThreadPtr) (ht : U.space k'.shared t = true) (hswitched : Kernel.Switched (k'.code t)) :
    FileOk (c'.userRegisters t) := by
  obtain ⟨is, hcode, _, hshared, _⟩ := Kernel.step_dispatch hd (hx.first k.cur) hstep
  rw [hshared] at ht
  cases hc
  by_cases htc : t = k.cur
  · rw [htc] at ht ⊢
    simp only [ht, if_true, Cpu.saveUserState, update_self]
    exact hx.machine
  · rw [hcode, update_of_ne htc] at hswitched
    have hsaved := hx.saved t ht hswitched
    split
    · show FileOk (update c.userRegisters k.cur c.registers t)
      rw [update_of_ne htc]
      exact hsaved
    · exact hsaved

/-- The current thread goes on. -/
theorem FileInv.stay (hx : FileInv U ⟨k, c⟩) (hd : k.dispatches a = false)
    (hstep : k.step prog a = some k') (huser : c'.userRegisters = c.userRegisters)
    (t : ThreadPtr) (ht : U.space k'.shared t = true) (hswitched : Kernel.Switched (k'.code t)) :
    FileOk (c'.userRegisters t) := by
  obtain ⟨htc, hbefore⟩ := Kernel.switched_of_stay hd (hx.first k.cur) hstep hswitched
  rw [huser]
  rw [(space_step (U := U) hstep).1 t htc] at ht
  exact hx.saved t ht hbefore

/-- A step of the kernel with registers. -/
theorem FileInv.step {x x' : RegisterKernel ι σ} {a : RegisterAction ι η} (hx : FileInv U x)
    (hwrite : ∀ b write, a = .kernel b write → FileOk (write x.cpu.registers))
    (hstep : U.step x a = some x') : FileInv U x' := by
  cases a with
  | kernel b write =>
      obtain ⟨k, c⟩ := x
      simp only [RegisterUse.step] at hstep
      split at hstep
      · rename_i k' c' hk hc
        cases hstep
        refine ⟨Kernel.switchFirst_step hx.first hk, hx.registers (hwrite b write rfl) hc, ?_⟩
        cases hd : k.dispatches b with
        | true =>
            rw [cpuStep_dispatch hd] at hc
            exact hx.dispatch hd hk hc
        | false =>
            have hsave : U.cpuStep k b ≠ .save := by
              intro hsave
              rw [dispatches_of_save hsave] at hd
              cases hd
            exact hx.stay hd hk (Cpu.step_saved hsave hc).1
      · cases hstep
  | handler =>
      simp only [RegisterUse.step] at hstep
      split at hstep
      · obtain ⟨r, hr, rfl⟩ := Option.map_eq_some_iff.mp hstep
        exact ⟨hx.first, FileOk.of_completeLoad hr, hx.saved⟩
      · cases hstep

end Kernel

/-! ## What holds in every run -/

namespace SyscallKernel

/-- The user instruction of the step, if it executes one, does what `OneInstruction`
does with some memory. -/
def Executes (x : SyscallKernel) : SyscallAction → Prop
  | .kernel a => ∀ f, .instr f ∈ stepOps x.machine.kernel a → ∃ m tid raised s,
      State.oneInstruction ⟨x.machine.cpu.registers, m⟩ tid = some (raised, s) ∧
        f x.machine.cpu.registers = s.registers
  | .handler => True

/-- The registers are in order, also after each thing that the next step does to
them. -/
structure RegistersKept (x : SyscallKernel) : Prop where
  between : RegistersOk x.machine.cpu.registers
  within : ∀ a, ∀ r ∈ trace RegisterOp.apply (fun r _ => [r]) x.machine.cpu.registers
    (stepOps x.machine.kernel a), RegistersOk r

variable {x x' : SyscallKernel}

/-- What the code of a step does to the registers. -/
theorem fileOk_stepOps {a : Action SysCode (List Nat)} (hok : x.Executes (.kernel a))
    (h : FileOk x.machine.cpu.registers) {r : Registers}
    (hrun : run RegisterOp.apply x.machine.cpu.registers (stepOps x.machine.kernel a) = some r) :
    FileOk r := by
  by_cases hinstr : ∃ f, .instr f ∈ stepOps x.machine.kernel a
  · obtain ⟨f, hf⟩ := hinstr
    obtain ⟨m, tid, raised, s, hone, hfs⟩ := hok f hf
    rw [stepOps_instr hf] at hrun
    cases hrun
    rw [hfs]
    exact h.oneInstruction hone
  · exact (h.run (not_exists.mp hinstr)).2 r hrun

theorem fileInv_step {a : SyscallAction} (hx : FileInv syscallUse x.machine)
    (hok : x.Executes a) (hstep : x.step a = some x') : FileInv syscallUse x'.machine := by
  cases a with
  | kernel a =>
      obtain ⟨r, hr, hmap⟩ := Option.bind_eq_some_iff.mp hstep
      obtain ⟨m, hm, rfl⟩ := Option.map_eq_some_iff.mp hmap
      refine hx.step (fun b write hb => ?_) hm
      cases hb
      exact fileOk_stepOps hok hx.machine hr
  | handler =>
      obtain ⟨m, hm, rfl⟩ := Option.map_eq_some_iff.mp hstep
      exact hx.step (fun b write hb => by cases hb) hm

theorem registersKept_of_fileInv (hx : FileInv syscallUse x.machine) : x.RegistersKept where
  between := hx.machine.registersOk
  within a r hr := by
    by_cases hinstr : ∃ f, .instr f ∈ stepOps x.machine.kernel a
    · obtain ⟨f, hf⟩ := hinstr
      rw [stepOps_instr hf] at hr
      have hstart : r = x.machine.cpu.registers := List.mem_singleton.mp hr
      rw [hstart]
      exact hx.machine.registersOk
    · exact ((hx.machine.run (not_exists.mp hinstr)).1 r hr).registersOk

/-- In every run that starts with cleared registers, whatever words the user programs
execute and whenever they are interrupted. -/
theorem register_file_kept (initialValue : Nat → Int) (holding : Nat → Option ThreadPtr)
    (cpu : Cpu) (hcpu : cpu.registers = fun _ => 0) (as : List SyscallAction) (x : SyscallKernel)
    (hok : Along step Executes (.boot initialValue holding cpu) as)
    (hrun : run step (.boot initialValue holding cpu) as = some x) : x.RegistersKept := by
  have h0 : FileInv syscallUse (boot initialValue holding cpu).machine := by
    refine ⟨fun _ => List.not_mem_nil, ?_, fun t ht => absurd ht Bool.false_ne_true⟩
    show FileOk cpu.registers
    rw [hcpu]
    exact FileOk.cleared
  refine registersKept_of_fileInv ?_
  exact run_invariant (I := fun x => FileInv syscallUse x.machine)
    (fun _ _ _ hx ha hstep => fileInv_step hx ha hstep) h0 hok hrun

/-- `lw $3, 0($0)` at address 0. -/
def loadThree (r : Registers) : Option (Option Trap × State) :=
  State.oneInstruction ⟨r, (AluOp.atInstruction 0x8c030000 0 0).memory⟩ 1

/-- The registers after the load. -/
def afterLoadThree (r : Registers) : Registers :=
  ((loadThree r).map fun y => y.2.registers).getD r

/-- A program is started and executes the load. -/
def startAndLoad : List SyscallAction :=
  [.kernel (.start [.client (.start 1 false [.instr afterLoadThree])]), .kernel .exec,
    .kernel .exec]

/-- The registers as `Machine::Machine` leaves them. -/
def clearedCpu : Cpu := ⟨fun _ => 0, fun _ _ => 6, fun _ => 0, fun _ _ => 7⟩

/-- The delayed load into register 3 is pending. -/
theorem register_file_kept_pending : ∃ x,
    run step (.boot (fun _ => 0) (fun _ => none) clearedCpu) startAndLoad = some x ∧
      x.machine.cpu.registers LoadReg = 3 ∧ x.RegistersKept := by
  have hmap : (loadThree (initRegisters 1 none)).map (fun y => y.2.registers LoadReg) = some 3 := by
    decide +kernel
  obtain ⟨⟨raised, s⟩, hload, hthree⟩ := Option.map_eq_some_iff.mp hmap
  have hafter : afterLoadThree (initRegisters 1 none) = s.registers := by
    rw [afterLoadThree, hload]
    rfl
  have hok : Along step Executes (.boot (fun _ => 0) (fun _ => none) clearedCpu) startAndLoad := by
    refine ⟨fun f hf => absurd hf List.not_mem_nil, fun f hf => absurd hf List.not_mem_nil,
      fun f hf => ?_, trivial⟩
    cases List.mem_singleton.mp hf
    exact ⟨_, _, raised, s, hload, hafter⟩
  refine ⟨_, rfl, ?_, register_file_kept _ _ clearedCpu rfl startAndLoad _ hok rfl⟩
  show afterLoadThree (initRegisters 1 none) LoadReg = 3
  rw [hafter]
  exact hthree

end SyscallKernel

end Nachos.Userprog

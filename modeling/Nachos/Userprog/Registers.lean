import Nachos.Machine.Mips
import Nachos.Threads.Switch
import Nachos.Userprog.Isolation

/-!
# The registers of user threads

There is one set of machine registers.  `Scheduler::Run` saves it in the old
thread before `SWITCH`, if that thread has an address space, and loads it from
the next thread after `SWITCH`, if that one has.  A new thread does not come
through the second half; it gets its registers from `InitRegisters` when it gets
its address space.  An interrupt completes a delayed load in whatever the
registers hold.

`RegisterKernel` puts the registers on top of the kernel.  The results are for
every kernel program: `RegisterUse` says which of its instructions write
registers, and which threads have an address space.  What a user instruction or
a system call writes is a choice of the run.

`replay` is what the registers of a thread would be on a processor of its own.
It looks at the events of that thread only.  `registers_isolated` says that a
user thread sees these registers whenever it executes, and that it resumes with
the registers it was switched out with.
-/

namespace Nachos.Userprog

open Function Lib Threads Machine

abbrev Registers : Type := Register → Word

def StackReg : Register := ⟨29, by decide⟩

/-- The register of the first argument of a system call. -/
def arg1 : Register := ⟨4, by decide⟩

/-- `AddrSpace::InitRegisters`, and the program counters that `fork_func` sets
after it. -/
def initRegisters (numPages : Nat) (forkPC : Option Word) : Registers :=
  let r := update (update (update (fun _ => 0) PCReg 0) NextPCReg 4) StackReg
    (BitVec.ofNat 32 (numPages * PageSize) - 16)
  match forkPC with
  | none => r
  | some pc => update (update r PCReg pc) NextPCReg (pc + 4)

/-- `DelayedLoad(0, 0)`.  `none` is an index outside `registers`. -/
def completeLoad (r : Registers) : Option Registers :=
  if h : (r LoadReg).toNat < NumTotalRegs then
    some (update (update (update (update r ⟨(r LoadReg).toNat, h⟩ (r LoadValueReg)) LoadReg 0)
      LoadValueReg 0) (gp R0) 0)
  else none

/-- It is the `DelayedLoad` of the processor. -/
theorem delayedLoad_eq_completeLoad (s : State) :
    Code.delayedLoad 0 0 s =
      (completeLoad s.registers).map fun r => (.ok (), { s with registers := r }) := by
  unfold Code.delayedLoad completeLoad
  by_cases h : (s.registers LoadReg).toNat < NumTotalRegs
  · rw [dif_pos h]
    simp only [Exec.bind_apply, Code.reg, dif_pos h, Code.setReg]
    rfl
  · rw [dif_neg h]
    simp only [Exec.bind_apply, Code.reg, dif_neg h, Exec.crash]
    rfl

/-! ## The registers on top of the kernel -/

/-- What the code of a kernel program does to the registers up to its next
kernel call. -/
inductive RegisterEffect where
  | keep
  /-- A user instruction, or what a system call writes. -/
  | write
  /-- `SC_Fork`: `info->pc` is the argument of the call. -/
  | fork
  /-- `StartProcess`, `exec_func` and `fork_func`: a new address space, and
  `InitRegisters`. -/
  | init (numPages : Nat) (forked : Bool)

variable {ι σ η : Type} {prog : Program ι σ η}

/-- How a kernel program uses the registers.  A thread gets an address space
only in its own code, together with new registers. -/
structure RegisterUse (prog : Program ι σ η) where
  /-- `t->space != NULL`. -/
  space : σ → ThreadPtr → Bool
  effect : Sched → ι → σ → RegisterEffect
  exec_other : ∀ {s i x r}, prog.exec s i x = some r → ∀ t, t ≠ s.currentThread →
    space r.1 t = space x t
  exec_self : ∀ {s i x r}, prog.exec s i x = some r →
    (∀ numPages forked, effect s i x ≠ .init numPages forked) →
    space r.1 s.currentThread = space x s.currentThread
  handler : ∀ {d x r}, prog.handler d x = some r → space r.1 = space x

/-- The registers of the machine and of the threads. -/
structure Cpu where
  /-- `machine->registers`. -/
  registers : Registers
  /-- `Thread::userRegisters`.  The constructor does not set it. -/
  userRegisters : ThreadPtr → Registers
  /-- `info->pc` of a thread that runs `fork_func`. -/
  forkPC : ThreadPtr → Word
  /-- What the registers were when the thread was switched out last.  Nothing
  reads it. -/
  switchedOut : ThreadPtr → Registers

/-- The kernel with registers. -/
structure RegisterKernel (ι σ : Type) where
  kernel : Kernel ι σ
  cpu : Cpu

/-- The steps of the kernel with registers. -/
inductive RegisterAction (ι η : Type) where
  /-- A step of the kernel.  `write` is what its code writes to the registers, if
  it writes at all. -/
  | kernel (a : Action ι η) (write : Registers → Registers)
  /-- A handler is called that does nothing to the kernel. -/
  | handler

/-- What a step does to the registers. -/
inductive CpuStep where
  | none
  /-- `Scheduler::Run` up to `SWITCH`. -/
  | save
  /-- `Scheduler::Run` after `SWITCH`. -/
  | restore
  /-- `CheckIfDue` calls a handler. -/
  | interrupt
  | code (e : RegisterEffect)

/-- The events of a thread that change its registers. -/
inductive OwnEvent where
  | write (f : Registers → Registers)
  | interrupt
  | init (numPages : Nat) (forkPC : Option Word)

def OwnEvent.apply : OwnEvent → Registers → Registers
  | .write f, r => f r
  | .interrupt, r => (completeLoad r).getD r
  | .init numPages forkPC, _ => initRegisters numPages forkPC

/-- The registers of a thread on a processor of its own. -/
def replay (t : ThreadPtr) (h : List (ThreadPtr × OwnEvent)) : Registers :=
  h.foldl (fun r e => if e.1 = t then e.2.apply r else r) fun _ => 0

theorem replay_self (t : ThreadPtr) (h : List (ThreadPtr × OwnEvent)) (e : OwnEvent) :
    replay t (h ++ [(t, e)]) = e.apply (replay t h) := by
  simp [replay]

theorem replay_other {t u : ThreadPtr} (hut : u ≠ t) (h : List (ThreadPtr × OwnEvent))
    (e : OwnEvent) : replay t (h ++ [(u, e)]) = replay t h := by
  simp [replay, hut]

namespace Cpu

/-- `Thread::SaveUserState`. -/
def saveUserState (c : Cpu) (t : ThreadPtr) : Cpu :=
  { c with userRegisters := update c.userRegisters t c.registers }

/-- `Thread::RestoreUserState`. -/
def restoreUserState (c : Cpu) (t : ThreadPtr) : Cpu :=
  { c with registers := c.userRegisters t }

/-- One step, in thread `t`.  `space` says whether it has an address space, and
`created` is the thread that `SC_Fork` creates. -/
def step (c : Cpu) (t : ThreadPtr) (space : Bool) (created : ThreadPtr)
    (write : Registers → Registers) : CpuStep → Option Cpu
  | .none => some c
  | .save =>
      let c := { c with switchedOut := update c.switchedOut t c.registers }
      some (if space then c.saveUserState t else c)
  | .restore => some (if space then c.restoreUserState t else c)
  | .interrupt => (completeLoad c.registers).map fun r => { c with registers := r }
  | .code .keep => some c
  | .code .write => some { c with registers := write c.registers }
  | .code .fork =>
      let r := write c.registers
      some { c with registers := r, forkPC := update c.forkPC created (r arg1) }
  | .code (.init numPages forked) =>
      some { c with
        registers := initRegisters numPages (if forked then some (c.forkPC t) else none) }

/-- What a step is for the thread itself. -/
def ownEvents (c : Cpu) (t : ThreadPtr) (write : Registers → Registers) :
    CpuStep → List (ThreadPtr × OwnEvent)
  | .none | .save | .restore => []
  | .interrupt => [(t, .interrupt)]
  | .code .keep => []
  | .code .write => [(t, .write write)]
  | .code .fork => [(t, .write write)]
  | .code (.init numPages forked) =>
      [(t, .init numPages (if forked then some (c.forkPC t) else none))]

end Cpu

namespace RegisterUse

variable (U : RegisterUse prog)

/-- What a step of the kernel does to the registers. -/
def cpuStep (k : Kernel ι σ) : Action ι η → CpuStep
  | .start _ => .none
  | .exec =>
      match k.code k.cur with
      | .afterSwitch :: _ => .restore
      | .call (.client i) :: _ => .code (U.effect k.sched i k.shared)
      | _ => if k.dispatches (.exec : Action ι η) then .save else .none
  | .interrupt _ => .interrupt
  | .timer => .interrupt

/-- One step of the kernel with registers. -/
def step (x : RegisterKernel ι σ) : RegisterAction ι η → Option (RegisterKernel ι σ)
  | .kernel a write =>
      match x.kernel.step prog a, x.cpu.step x.kernel.cur (U.space x.kernel.shared x.kernel.cur)
          x.kernel.sched.created write (U.cpuStep x.kernel a) with
      | some k, some c => some ⟨k, c⟩
      | _, _ => none
  | .handler =>
      if x.kernel.inDueLoop then
        (completeLoad x.cpu.registers).map fun r => { x with cpu := { x.cpu with registers := r } }
      else none

/-- The events of a step. -/
def emit (x : RegisterKernel ι σ) : RegisterAction ι η → List (ThreadPtr × OwnEvent)
  | .kernel a write => x.cpu.ownEvents x.kernel.cur write (U.cpuStep x.kernel a)
  | .handler => [(x.kernel.cur, .interrupt)]

end RegisterUse

/-- Each thread is forked once. -/
def RegisterKernel.ForkOnce (x : RegisterKernel ι σ) : RegisterAction ι η → Prop
  | .kernel a _ => x.kernel.ForkOnce a
  | .handler => True

instance (x : RegisterKernel ι σ) (a : RegisterAction ι η) : Decidable (x.ForkOnce a) :=
  match a with
  | .kernel b _ => inferInstanceAs (Decidable (x.kernel.ForkOnce b))
  | .handler => isTrue trivial

/-! ## The invariant -/

/-- A user thread that executes has its own registers in the machine, and one
that is switched out has them in `userRegisters`. -/
structure RegisterInv (U : RegisterUse prog) (x : RegisterKernel ι σ)
    (h : List (ThreadPtr × OwnEvent)) : Prop where
  control : x.kernel.Control
  first : x.kernel.SwitchFirst
  suspended : ∀ t, U.space x.kernel.shared t = true → t ≠ x.kernel.cur →
    Kernel.Switched (x.kernel.code t)
  running : U.space x.kernel.shared x.kernel.cur = true →
    ¬Kernel.Switched (x.kernel.code x.kernel.cur) → x.cpu.registers = replay x.kernel.cur h
  waiting : ∀ t, U.space x.kernel.shared t = true → Kernel.Switched (x.kernel.code t) →
    x.cpu.userRegisters t = replay t h ∧ x.cpu.switchedOut t = replay t h

section Step

variable {U : RegisterUse prog} {x : RegisterKernel ι σ} {h h' : List (ThreadPtr × OwnEvent)}
  {k k' : Kernel ι σ} {c c' : Cpu} {a : Action ι η} {write : Registers → Registers}

/-- A step that dispatches saves the registers, and only then. -/
theorem cpuStep_dispatch (hd : k.dispatches a = true) : U.cpuStep k a = .save := by
  cases a with
  | exec =>
      simp only [RegisterUse.cpuStep]
      split
      · rename_i hcode
        simp [Kernel.dispatches, hcode, Kernel.findsNext] at hd
      · rename_i hcode
        simp [Kernel.dispatches, hcode, Kernel.findsNext] at hd
      · exact if_pos hd
  | _ => cases hd

/-- The current thread is switched out. -/
theorem RegisterInv.dispatch (hx : RegisterInv U ⟨k, c⟩ h) (hcontrol : k'.Control)
    (hstep : k.step prog a = some k') (hd : k.dispatches a = true)
    (hc : c.step k.cur (U.space k.shared k.cur) k.sched.created write .save = some c') :
    RegisterInv U ⟨k', c'⟩ h := by
  obtain ⟨is, hcode, _, hshared, hnot⟩ := Kernel.step_dispatch hd (hx.first k.cur) hstep
  have hself : Kernel.Switched (k'.code k.cur) := by
    rw [hcode, update_self]
    trivial
  have hother : ∀ t, t ≠ k.cur → k'.code t = k.code t := by
    intro t ht
    rw [hcode, update_of_ne ht]
  have hswitched : ∀ t, U.space k'.shared t = true → Kernel.Switched (k'.code t) := by
    intro t ht
    by_cases htc : t = k.cur
    · rw [htc]
      exact hself
    · rw [hother t htc]
      rw [hshared] at ht
      exact hx.suspended t ht htc
  refine ⟨hcontrol, Kernel.switchFirst_step hx.first hstep, fun t ht _ => hswitched t ht,
    fun hcur hnone => absurd (hswitched _ hcur) hnone, fun t ht _ => ?_⟩
  rw [hshared] at ht
  cases hc
  by_cases htc : t = k.cur
  · have hrun : c.registers = replay t h := by
      rw [htc]
      exact hx.running (by rw [← htc]; exact ht) hnot
    have hspace : U.space k.shared k.cur = true := by
      rw [← htc]
      exact ht
    simp only [hspace, if_true, Cpu.saveUserState, htc, update_self]
    rw [htc] at hrun
    exact ⟨hrun, hrun⟩
  · obtain ⟨huser, hout⟩ := hx.waiting t ht (hx.suspended t ht htc)
    refine ⟨?_, ?_⟩
    · split
      · exact (update_of_ne htc _ _).trans huser
      · exact huser
    · split <;> exact (update_of_ne htc _ _).trans hout

/-- The current thread goes on. -/
theorem RegisterInv.stay (hx : RegisterInv U ⟨k, c⟩ h) (hcontrol : k'.Control)
    (hfirst : k'.SwitchFirst) (hcur : k'.cur = k.cur) (hnot : ¬Kernel.Switched (k'.code k.cur))
    (hother : ∀ t, t ≠ k.cur → U.space k'.shared t = true →
      U.space k.shared t = true ∧ k'.code t = k.code t)
    (huser : c'.userRegisters = c.userRegisters) (hout : c'.switchedOut = c.switchedOut)
    (hreplay : ∀ t, t ≠ k.cur → replay t h' = replay t h)
    (hrun : U.space k'.shared k.cur = true → c'.registers = replay k.cur h') :
    RegisterInv U ⟨k', c'⟩ h' := by
  refine ⟨hcontrol, hfirst, fun t ht htc => ?_, fun ht _ => ?_, fun t ht hswitched => ?_⟩
  · have hne : t ≠ k.cur := by
      rw [← hcur]
      exact htc
    obtain ⟨hspace, hcode⟩ := hother t hne ht
    show Kernel.Switched (k'.code t)
    rw [hcode]
    exact hx.suspended t hspace hne
  · show c'.registers = replay k'.cur h'
    rw [hcur]
    exact hrun (by rw [← hcur]; exact ht)
  · have hne : t ≠ k.cur := by
      rintro rfl
      exact hnot hswitched
    obtain ⟨hspace, hcode⟩ := hother t hne ht
    show c'.userRegisters t = _ ∧ c'.switchedOut t = _
    rw [huser, hout, hreplay t hne]
    exact hx.waiting t hspace (hx.suspended t hspace hne)

/-- The address spaces after a step that does not dispatch: only the current
thread can have got one, together with new registers. -/
theorem space_step (hstep : k.step prog a = some k') :
    (∀ t, t ≠ k.cur → U.space k'.shared t = U.space k.shared t) ∧
      ((∀ numPages forked, U.cpuStep k a ≠ .code (.init numPages forked)) →
        U.space k'.shared k.cur = U.space k.shared k.cur) := by
  rcases Kernel.step_shared hstep with
    heq | ⟨rfl, _, i, rest, r, hcode, hexec, heq⟩ | ⟨d, r, rfl, hhandler, heq⟩
  · rw [heq]
    exact ⟨fun _ _ => rfl, fun _ => rfl⟩
  · rw [heq]
    refine ⟨U.exec_other hexec, fun hinit => U.exec_self hexec fun numPages forked he => ?_⟩
    refine hinit numPages forked ?_
    simp only [RegisterUse.cpuStep, hcode, he]
  · rw [heq, U.handler hhandler]
    exact ⟨fun _ _ => rfl, fun _ => rfl⟩

/-- A thread that has just been created has no address space. -/
theorem RegisterInv.space_fork {t : ThreadPtr} (hx : RegisterInv U ⟨k, c⟩ h)
    (hstatus : k.sched.status t = .justCreated) : U.space k.shared t = false := by
  by_contra htrue
  have hspace : U.space k.shared t = true := eq_true_of_ne_false htrue
  have hne : t ≠ k.cur := by
    rintro rfl
    exact hx.control.sched.current_started hstatus
  have hswitched := hx.suspended t hspace hne
  have hnil : k.code t = [] := hx.control.suspended.fresh t (Or.inr hstatus)
  change Kernel.Switched (k.code t) at hswitched
  rw [hnil] at hswitched
  exact hswitched

/-- Only a dispatch writes to the registers of the threads. -/
theorem Cpu.step_saved {t created : ThreadPtr} {space : Bool} {e : CpuStep} (he : e ≠ .save)
    (hc : c.step t space created write e = some c') :
    c'.userRegisters = c.userRegisters ∧ c'.switchedOut = c.switchedOut := by
  cases e with
  | none =>
      cases hc
      exact ⟨rfl, rfl⟩
  | save => exact absurd rfl he
  | restore =>
      cases hc
      split <;> exact ⟨rfl, rfl⟩
  | interrupt =>
      obtain ⟨r, _, rfl⟩ := Option.map_eq_some_iff.mp hc
      exact ⟨rfl, rfl⟩
  | code e =>
      cases e <;> cases hc <;> exact ⟨rfl, rfl⟩

theorem dispatches_of_save (h : U.cpuStep k a = .save) : k.dispatches a = true := by
  cases a with
  | exec =>
      simp only [RegisterUse.cpuStep] at h
      split at h
      · cases h
      · cases h
      · split at h
        · assumption
        · cases h
  | _ => cases h

theorem switched_of_restore (h : U.cpuStep k a = .restore) : Kernel.Switched (k.code k.cur) := by
  cases a with
  | exec =>
      simp only [RegisterUse.cpuStep] at h
      split at h
      · rename_i hcode
        rw [hcode]
        trivial
      · cases h
      · split at h <;> cases h
  | _ => cases h

/-- A thread behind `SWITCH` restores its registers next. -/
theorem not_switched (h : U.cpuStep k a ≠ .restore) (hstep : k.step prog a = some k') :
    ¬Kernel.Switched (k.code k.cur) := by
  intro hswitched
  cases hcode : k.code k.cur with
  | nil =>
      rw [hcode] at hswitched
      exact hswitched
  | cons i rest =>
      cases i with
      | afterSwitch =>
          cases a with
          | start cs => simp [Kernel.step, hcode] at hstep
          | exec => exact h (by simp only [RegisterUse.cpuStep, hcode])
          | interrupt d | timer => simp [Kernel.step, Kernel.inDueLoop, hcode] at hstep
      | _ =>
          rw [hcode] at hswitched
          exact hswitched

/-- The registers of a user thread after a step in which it has not been switched
out. -/
theorem RegisterInv.registers (hx : RegisterInv U ⟨k, c⟩ h) (hd : k.dispatches a = false)
    (hstep : k.step prog a = some k')
    (hspace : (∀ numPages forked, U.cpuStep k a ≠ .code (.init numPages forked)) →
      U.space k.shared k.cur = true)
    (hc : c.step k.cur (U.space k.shared k.cur) k.sched.created write (U.cpuStep k a) = some c') :
    c'.registers = replay k.cur (h ++ c.ownEvents k.cur write (U.cpuStep k a)) := by
  have hrun : (∀ numPages forked, U.cpuStep k a ≠ .code (.init numPages forked)) →
      U.cpuStep k a ≠ .restore → c.registers = replay k.cur h :=
    fun hinit hne => hx.running (hspace hinit) (not_switched hne hstep)
  generalize hcpu : U.cpuStep k a = e at hc hspace hrun
  cases e with
  | none =>
      cases hc
      rw [Cpu.ownEvents, List.append_nil]
      exact hrun nofun nofun
  | save =>
      rw [dispatches_of_save hcpu] at hd
      cases hd
  | restore =>
      have hself := hspace nofun
      cases hc
      rw [Cpu.ownEvents, List.append_nil, if_pos hself]
      exact (hx.waiting k.cur hself (switched_of_restore hcpu)).1
  | interrupt =>
      obtain ⟨r, hr, rfl⟩ := Option.map_eq_some_iff.mp hc
      rw [Cpu.ownEvents, replay_self, OwnEvent.apply, ← hrun nofun nofun, hr]
      rfl
  | code e =>
      cases e with
      | keep =>
          cases hc
          rw [Cpu.ownEvents, List.append_nil]
          exact hrun nofun nofun
      | write | fork =>
          cases hc
          rw [Cpu.ownEvents, replay_self, ← hrun nofun nofun]
          rfl
      | init numPages forked =>
          cases hc
          rw [Cpu.ownEvents, replay_self]
          rfl

/-- What a step is for the other threads. -/
theorem replay_ownEvents {t u : ThreadPtr} (htu : t ≠ u) (c : Cpu)
    (write : Registers → Registers) (e : CpuStep) (h : List (ThreadPtr × OwnEvent)) :
    replay t (h ++ c.ownEvents u write e) = replay t h := by
  cases e with
  | interrupt => exact replay_other htu.symm h _
  | code e =>
      cases e with
      | keep => rw [Cpu.ownEvents, List.append_nil]
      | _ => exact replay_other htu.symm h _
  | _ => rw [Cpu.ownEvents, List.append_nil]

/-- A step of the kernel. -/
theorem RegisterInv.kernelStep (hx : RegisterInv U ⟨k, c⟩ h) (hfork : k.ForkOnce a)
    (hstep : k.step prog a = some k')
    (hc : c.step k.cur (U.space k.shared k.cur) k.sched.created write (U.cpuStep k a) = some c') :
    RegisterInv U ⟨k', c'⟩ (h ++ c.ownEvents k.cur write (U.cpuStep k a)) := by
  have hcontrol := Kernel.control_step hx.control hfork hstep
  cases hd : k.dispatches a with
  | true =>
      rw [cpuStep_dispatch hd] at hc ⊢
      rw [Cpu.ownEvents, List.append_nil]
      exact hx.dispatch hcontrol hstep hd hc
  | false =>
      obtain ⟨hspace, hself⟩ := space_step (U := U) hstep
      obtain ⟨huser, hout⟩ := Cpu.step_saved (fun he => by
        rw [dispatches_of_save he] at hd
        cases hd) hc
      have hrun : U.space k'.shared k.cur = true → c'.registers =
          replay k.cur (h ++ c.ownEvents k.cur write (U.cpuStep k a)) := by
        intro ht
        exact hx.registers hd hstep (fun hinit => by rw [← hself hinit]; exact ht) hc
      have hstay : ∀ {k1 : Kernel ι σ} {is}, Kernel.GoesOn k1 k' is → k1.cur = k.cur →
          (∀ t, t ≠ k.cur → U.space k.shared t = true → k1.code t = k.code t) →
          RegisterInv U ⟨k', c'⟩ (h ++ c.ownEvents k.cur write (U.cpuStep k a)) := by
        intro k1 is ⟨hcur', hcode, his⟩ hcur hcodes
        refine hx.stay hcontrol (Kernel.switchFirst_step hx.first hstep) (hcur'.trans hcur) ?_ ?_
          huser hout (fun t ht => replay_ownEvents ht _ _ _ _) hrun
        · rw [hcode, hcur, update_self]
          exact Kernel.Switched.not_mem his
        · intro t ht hspace'
          rw [hspace t ht] at hspace'
          refine ⟨hspace', ?_⟩
          rw [hcode, hcur, update_of_ne ht, hcodes t ht hspace']
      rcases Kernel.step_stay hd (hx.first k.cur) hstep with
        ⟨is, hgo⟩ | ⟨t, func, rest, is, rfl, hcode, hgo⟩
      · exact hstay hgo rfl fun _ _ _ => rfl
      · refine hstay hgo rfl fun u _ hu => ?_
        refine update_of_ne ?_ _ _
        rintro rfl
        -- the new thread has been forked before it could get an address space
        have hfresh : k.sched.status u = .justCreated := by
          unfold Kernel.ForkOnce at hfork
          rw [hcode] at hfork
          exact hfork.2
        rw [hx.space_fork hfresh] at hu
        cases hu

theorem RegisterInv.step {a : RegisterAction ι η} {x' : RegisterKernel ι σ}
    (hx : RegisterInv U x h) (hfork : x.ForkOnce a) (hstep : U.step x a = some x') :
    RegisterInv U x' (h ++ U.emit x a) := by
  cases a with
  | kernel b write =>
      simp only [RegisterUse.step] at hstep
      split at hstep
      · rename_i k' c' hk hc
        cases hstep
        exact hx.kernelStep hfork hk hc
      · cases hstep
  | handler =>
      simp only [RegisterUse.step] at hstep
      split at hstep
      · rename_i hloop
        obtain ⟨r, hr, rfl⟩ := Option.map_eq_some_iff.mp hstep
        have hnot := Kernel.Switched.not_mem
          (Kernel.not_mem_of_inDueLoop hloop (hx.first x.kernel.cur))
        refine hx.stay hx.control hx.first rfl hnot (fun t _ ht => ⟨ht, rfl⟩) rfl rfl
          (fun t ht => replay_other ht.symm h _) fun hspace => ?_
        show r = replay _ (h ++ [(_, .interrupt)])
        rw [replay_self, OwnEvent.apply, ← hx.running hspace hnot, hr]
        rfl
      · cases hstep

end Step

/-! ## What holds in every run -/

/-- The registers of the user threads are isolated from each other.  `h` are the
events of the run. -/
structure RegistersIsolated (U : RegisterUse prog) (x : RegisterKernel ι σ)
    (h : List (ThreadPtr × OwnEvent)) : Prop where
  /-- A user thread that executes sees the registers that it would have on a
  processor of its own. -/
  own : U.space x.kernel.shared x.kernel.cur = true →
    ¬Kernel.Switched (x.kernel.code x.kernel.cur) → x.cpu.registers = replay x.kernel.cur h
  /-- A user thread resumes with the registers it was switched out with. -/
  resumes : ∀ write x', Kernel.Switched (x.kernel.code x.kernel.cur) →
    U.space x.kernel.shared x.kernel.cur = true → U.step x (.kernel .exec write) = some x' →
    x'.kernel.cur = x.kernel.cur ∧ x'.cpu.registers = x.cpu.switchedOut x.kernel.cur
  /-- A new user thread starts with the registers of `InitRegisters`, and the
  program counter of its `Fork`. -/
  starts : ∀ write x' numPages forked, U.cpuStep x.kernel .exec = .code (.init numPages forked) →
    U.step x (.kernel .exec write) = some x' → x'.kernel.cur = x.kernel.cur ∧
      x'.cpu.registers = initRegisters numPages
        (if forked then some (x.cpu.forkPC x.kernel.cur) else none)

theorem step_kernel {U : RegisterUse prog} {x x' : RegisterKernel ι σ} {a : Action ι η}
    {write : Registers → Registers} (h : U.step x (.kernel a write) = some x') :
    x.kernel.step prog a = some x'.kernel ∧
      x.cpu.step x.kernel.cur (U.space x.kernel.shared x.kernel.cur) x.kernel.sched.created write
        (U.cpuStep x.kernel a) = some x'.cpu := by
  simp only [RegisterUse.step] at h
  split at h
  · rename_i k c hk hc
    cases h
    exact ⟨hk, hc⟩
  · cases h

theorem registersIsolated_of_inv {U : RegisterUse prog} {x : RegisterKernel ι σ}
    {h : List (ThreadPtr × OwnEvent)} (hx : RegisterInv U x h) : RegistersIsolated U x h := by
  have hcur : ∀ write x', U.cpuStep x.kernel .exec ≠ .save →
      U.step x (.kernel .exec write) = some x' → x'.kernel.cur = x.kernel.cur := by
    intro write x' hsave hstep
    refine Kernel.cur_step ?_ (hx.first x.kernel.cur) (step_kernel hstep).1
    exact eq_false_of_ne_true fun hd => hsave (cpuStep_dispatch hd)
  refine ⟨hx.running, fun write x' hswitched hspace hstep => ?_,
    fun write x' numPages forked hcpu hstep => ?_⟩
  · have hcpu : U.cpuStep x.kernel .exec = .restore := by
      by_contra hne
      exact not_switched hne (step_kernel hstep).1 hswitched
    refine ⟨hcur write x' (by rw [hcpu]; exact nofun) hstep, ?_⟩
    have hc := (step_kernel hstep).2
    rw [hcpu, hspace] at hc
    obtain ⟨huser, hout⟩ := hx.waiting x.kernel.cur hspace hswitched
    rw [hout, ← huser, ← Option.some.inj hc]
    rfl
  · refine ⟨hcur write x' (by rw [hcpu]; exact nofun) hstep, ?_⟩
    have hc := (step_kernel hstep).2
    rw [hcpu] at hc
    rw [← Option.some.inj hc]

/-- In every run of every kernel program that uses the registers as described, in
which each thread is forked once, the registers of the user threads are isolated
from each other.  At the start no thread has an address space. -/
theorem registers_isolated (U : RegisterUse prog) (initialValue : Nat → Int)
    (holding : Nat → Option ThreadPtr) (shared : σ) (hspace : ∀ t, U.space shared t = false)
    (cpu : Cpu) (as : List (RegisterAction ι η)) (x : RegisterKernel ι σ)
    (hok : Along U.step RegisterKernel.ForkOnce ⟨.init initialValue holding shared, cpu⟩ as)
    (hrun : run U.step ⟨.init initialValue holding shared, cpu⟩ as = some x) :
    RegistersIsolated U x (trace U.step U.emit ⟨.init initialValue holding shared, cpu⟩ as) := by
  have hnone : ∀ t, U.space shared t ≠ true := by
    intro t ht
    rw [hspace] at ht
    cases ht
  have h0 : RegisterInv U ⟨.init initialValue holding shared, cpu⟩ [] :=
    ⟨Kernel.control_init _ _ _, fun _ => List.not_mem_nil, fun t ht => absurd ht (hnone t),
      fun ht => absurd ht (hnone _), fun t ht => absurd ht (hnone t)⟩
  have hinv : RegisterInv U x ([] ++ trace U.step U.emit _ as) :=
    trace_invariant (fun _ _ _ _ hx hfork hstep => hx.step hfork hstep) h0 hok hrun
  exact registersIsolated_of_inv hinv

/-! ## User programs -/

/-- The code that gives the current thread an address space. -/
def UserCode.newSpace : UserCode → Option (Nat × Bool)
  | .execFunc (some image) _ => some (image.numPages, false)
  | .forkFunc (some space) _ => some (space.numPages, true)
  | _ => none

/-- What the code of a user process does to the registers. -/
def UserCode.effect : UserCode → RegisterEffect
  | .run (.fork _ :: _) => .fork
  | .run _ => .write
  | i =>
      match i.newSpace with
      | some (numPages, forked) => .init numPages forked
      | none => .keep

theorem exec_space {s : Sched} {i : UserCode} {x : UserState}
    {r : UserState × List (Call UserCode)} (hexec : userProgram.exec s i x = some r) :
    r.1.memory.space = x.memory.space ∨
      ∃ numPages forked sp, i.effect = .init numPages forked ∧
        r.1.memory.space = update x.memory.space s.currentThread (some sp) := by
  obtain ⟨x', calls⟩ := r
  cases exec_effect hexec with
  | access hx => exact Or.inl (access_spaces hx).2
  | load => exact Or.inr ⟨_, false, _, rfl, rfl⟩
  | setSpace => exact Or.inr ⟨_, true, _, rfl, rfl⟩
  | same haccess hload => exact Or.inl rfl

/-- The program that runs user code. -/
def userRegisterUse : RegisterUse userProgram where
  space x t := (x.memory.space t).isSome
  effect _ i _ := i.effect
  exec_other hexec t ht := by
    rcases exec_space hexec with hspace | ⟨_, _, _, _, hspace⟩
    · rw [hspace]
    · rw [hspace, update_of_ne ht]
  exec_self hexec hinit := by
    rcases exec_space hexec with hspace | ⟨numPages, forked, _, heffect, _⟩
    · rw [hspace]
    · exact absurd heffect (hinit numPages forked)
  handler {d} := d.elim

/-- Each step of a user program counts in register `1`. -/
def count (r : Registers) : Registers := update r ⟨1, by decide⟩ (r ⟨1, by decide⟩ + 1)

/-- A program forks a thread, and both yield. -/
def forkAndYield (n : Nat) : List (RegisterAction UserCode Empty) :=
  .kernel (.start [.client (.execFunc (some Kernel.onePageImage)
      [.access (.read 0 4) 0, .access (.read 0 4) 0,
        .fork [.access (.read 0 4) 0, .yield], .yield])]) id ::
    List.replicate n (.kernel .exec count)

/-- The machine registers hold anything at the start. -/
def forkAndYieldStart : RegisterKernel UserCode UserState :=
  ⟨.init (fun _ => 0) (fun _ => none) (.boot fun _ => true),
    ⟨fun _ => 5, fun _ _ => 6, fun _ => 0, fun _ _ => 7⟩⟩

/-- The forked thread has counted to `2` when the first thread is dispatched.  That
one resumes with its `4`. -/
theorem registers_isolated_fork : ∃ x x' : RegisterKernel UserCode UserState,
    run userRegisterUse.step forkAndYieldStart (forkAndYield 16) = some x ∧
      x.kernel.cur = 0 ∧ x.cpu.registers ⟨1, by decide⟩ = 2 ∧
      userRegisterUse.step x (.kernel .exec id) = some x' ∧
      x'.cpu.registers ⟨1, by decide⟩ = 4 ∧
      RegistersIsolated userRegisterUse x
        (trace userRegisterUse.step userRegisterUse.emit forkAndYieldStart (forkAndYield 16)) :=
  ⟨_, _, rfl, rfl, rfl, rfl, rfl,
    registers_isolated userRegisterUse (fun _ => 0) (fun _ => none) (.boot fun _ => true)
      (fun _ => rfl) _ (forkAndYield 16) _ (by decide) rfl⟩

end Nachos.Userprog

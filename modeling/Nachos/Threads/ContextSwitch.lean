import Mathlib.Data.BitVec
import Mathlib.Data.Set.Basic
import Mathlib.Logic.Function.Basic
import Nachos.Lib.Run

/-!
# Every thread has a processor of its own

`SWITCH` and `ThreadRoot` of `switch.s`, for the Intel 386, and `StackAllocate`.  There is
one set of registers.  `SWITCH` stores it in the `Thread` that gives up the processor, and
loads the registers of the other one; the return address stays on the stack of the
thread.

`Cpus` is what this is for: every thread has registers and a program counter of its own,
and a call of `SWITCH` is a call that returns with all registers as they were.
`Refines` says that the registers of the machine are those of the running thread, and
that the others are where `SWITCH` will find them.  Every step keeps it (`step_refines`),
so the machine behaves like `Cpus` (`threads_have_own_registers`).  `switch_writes` says
what a switch leaves alone.  A new thread finds in its registers what `ThreadRoot` needs
(`new_thread_calls`).

The memory is one of words.  A `Layout` says which addresses belong to a thread; they are
multiples of four, so that words do not overlap, and an address has one owner, so that two
threads share no word by construction.  A thread can write all words but those that hold
the contexts of the others.
-/

namespace Nachos.Threads.I386

open Function Lib

/-! ## The machine -/

abbrev Word := BitVec 32

inductive Reg where
  | eax | ebx | ecx | edx | esi | edi | ebp | esp
  deriving DecidableEq, Repr

open Reg

structure Machine where
  regs : Reg → Word
  eip : Word
  memory : Word → Word

/-- `mem offset base` is `offset(%base)`. -/
inductive Operand where
  | reg (r : Reg)
  | mem (offset : Word) (base : Reg)
  | eaxSave

/-- The instructions that are used.  `next` is the address of the instruction behind the
call. -/
inductive Instr where
  | movl (source dest : Operand)
  | pushl (r : Reg)
  | popl (r : Reg)
  | call (r : Reg) (next : Word)
  | ret

namespace Machine

variable (save : Word) (m : Machine)

def write (a v : Word) : Machine := { m with memory := update m.memory a v }

def set (r : Reg) (v : Word) : Machine := { m with regs := update m.regs r v }

/-- `save` is the address of `_eax_save`. -/
def fetch : Operand → Word
  | .reg r => m.regs r
  | .mem offset base => m.memory (m.regs base + offset)
  | .eaxSave => m.memory save

def store (v : Word) : Operand → Machine
  | .reg r => m.set r v
  | .mem offset base => m.write (m.regs base + offset) v
  | .eaxSave => m.write save v

def push (v : Word) : Machine := (m.set esp (m.regs esp - 4#32)).write (m.regs esp - 4#32) v

def exec : Instr → Machine
  | .movl source dest => m.store save (m.fetch save source) dest
  | .pushl r => m.push (m.regs r)
  | .popl r => (m.set esp (m.regs esp + 4#32)).set r (m.memory (m.regs esp))
  | .call r next => { m.push next with eip := m.regs r }
  | .ret => { m.set esp (m.regs esp + 4#32) with eip := m.memory (m.regs esp) }

def execAll (is : List Instr) : Machine := is.foldl (exec save) m

theorem execAll_append (is js : List Instr) :
    m.execAll save (is ++ js) = (m.execAll save is).execAll save js :=
  List.foldl_append

end Machine

/-! ## The code -/

/-- `_ESP`, `_EAX` and so on: the places of the registers in a `Thread`. -/
def offset : Reg → Word
  | esp => 0#32
  | eax => 4#32
  | ebx => 8#32
  | ecx => 12#32
  | edx => 16#32
  | ebp => 20#32
  | esi => 24#32
  | edi => 28#32

/-- `_PC`. -/
def offsetPC : Word := 32#32

open Operand

/-- The first half of `SWITCH`. -/
def saveRegisters : List Instr :=
  [.movl (reg eax) eaxSave, .movl (mem 4#32 esp) (reg eax),
    .movl (reg ebx) (mem (offset ebx) eax), .movl (reg ecx) (mem (offset ecx) eax),
    .movl (reg edx) (mem (offset edx) eax), .movl (reg esi) (mem (offset esi) eax),
    .movl (reg edi) (mem (offset edi) eax), .movl (reg ebp) (mem (offset ebp) eax),
    .movl (reg esp) (mem (offset esp) eax), .movl eaxSave (reg ebx),
    .movl (reg ebx) (mem (offset eax) eax), .movl (mem 0#32 esp) (reg ebx),
    .movl (reg ebx) (mem offsetPC eax)]

/-- The second half.  The saved return address is stored above the one that `ret` uses. -/
def loadRegisters : List Instr :=
  [.movl (mem 8#32 esp) (reg eax), .movl (mem (offset eax) eax) (reg ebx),
    .movl (reg ebx) eaxSave,
    .movl (mem (offset ebx) eax) (reg ebx), .movl (mem (offset ecx) eax) (reg ecx),
    .movl (mem (offset edx) eax) (reg edx), .movl (mem (offset esi) eax) (reg esi),
    .movl (mem (offset edi) eax) (reg edi), .movl (mem (offset ebp) eax) (reg ebp),
    .movl (mem (offset esp) eax) (reg esp), .movl (mem offsetPC eax) (reg eax),
    .movl (reg eax) (mem 4#32 esp), .movl eaxSave (reg eax), .ret]

/-- `void SWITCH(thread *t1, thread *t2)`. -/
def SWITCH : List Instr := saveRegisters ++ loadRegisters

/-- `ThreadRoot`.  `StartupPC` is `ecx`, `InitialPC` is `esi`, `InitialArg` is `edx` and
`WhenDonePC` is `edi`. -/
def threadRoot (next : Fin 3 → Word) : List Instr :=
  [.pushl ebp, .movl (reg esp) (reg ebp), .pushl edx, .call ecx (next 0), .call esi (next 1),
    .call edi (next 2), .movl (reg ebp) (reg esp), .popl ebp, .ret]

def StackSize : Nat := 4 * 1024

def STACK_FENCEPOST : Word := 0xdeadbeef

/-! ## Where things are -/

/-- The words of a `Thread` that hold registers. -/
def context (t : Word) : Set Word := {a | (∃ r, a = t + offset r) ∨ a = t + offsetPC}

inductive Owner where
  | context (t : Word)
  | stack (t : Word)
  | eaxSave
  | shared

/-- The addresses of the threads, their stacks, and the functions. -/
structure Layout where
  owner : Word → Owner
  thread : Word → Prop
  save : Word
  ThreadRoot : Word
  InterruptEnable : Word
  ThreadFinish : Word
  owner_context : ∀ t, thread t → ∀ a ∈ context t, owner a = .context t
  owner_save : owner save = .eaxSave
  aligned : ∀ a, owner a ≠ .shared → a.toNat % 4 = 0

/-- `stackTop` of a new thread: the return address is below the four last words. -/
def stackTop (stack : Word) : Word := stack + BitVec.ofNat 32 (4 * (StackSize - 4)) - 4#32

/-- `StackAllocate(func, arg)`, where `stack` is the new array. -/
def stackAllocate (L : Layout) (memory : Word → Word) (u stack func arg : Word) : Word → Word :=
  let memory := update memory (u + offset esp) (stackTop stack)
  let memory := update memory (stackTop stack) L.ThreadRoot
  let memory := update memory stack STACK_FENCEPOST
  let memory := update memory (u + offsetPC) L.ThreadRoot
  let memory := update memory (u + offset ecx) L.InterruptEnable
  let memory := update memory (u + offset esi) func
  let memory := update memory (u + offset edx) arg
  update memory (u + offset edi) L.ThreadFinish

/-! ## The system -/

/-- The machine, `currentThread`, and the threads that have a stack. -/
structure Kernel where
  machine : Machine
  current : Word
  started : Word → Prop

/-- `compute m`: the current thread executes its code until the machine is `m`.  `junk` is
what was in the new `Thread`, and `ret` the return address of the call of `SWITCH`. -/
inductive Action where
  | compute (m : Machine)
  | fork (u stack func arg : Word) (junk : Reg → Word)
  | switch (u ret : Word)

def step (L : Layout) (k : Kernel) : Action → Option Kernel
  | .compute m => some { k with machine := m }
  | .fork u stack func arg _ =>
      some { k with
        machine := { k.machine with
          memory := stackAllocate L k.machine.memory u stack func arg }
        started := fun v => v = u ∨ k.started v }
  | .switch u _ =>
      some { k with machine := k.machine.execAll L.save SWITCH, current := u }

/-- What the code of the threads does not do, and how it calls `SWITCH`. -/
def Obeys (L : Layout) (k : Kernel) : Action → Prop
  | .compute m => ∀ v, k.started v → v ≠ k.current →
      (∀ a ∈ context v, m.memory a = k.machine.memory a) ∧
      m.memory (k.machine.memory (v + offset esp)) =
        k.machine.memory (k.machine.memory (v + offset esp))
  | .fork u stack _ _ junk => L.thread u ∧ ¬ k.started u ∧
      (∀ i, i < StackSize → L.owner (stack + BitVec.ofNat 32 (4 * i)) = .stack u) ∧
      ∀ r, k.machine.memory (u + offset r) = junk r
  | .switch u ret => k.started u ∧
      (∀ i, i < 3 → L.owner (k.machine.regs esp + BitVec.ofNat 32 (4 * i)) = .stack k.current) ∧
      k.machine.memory (k.machine.regs esp) = ret ∧
      k.machine.memory (k.machine.regs esp + 4#32) = k.current ∧
      k.machine.memory (k.machine.regs esp + 8#32) = u

/-! ## A processor for every thread -/

structure Context where
  regs : Reg → Word
  eip : Word

structure Cpus where
  contexts : Word → Context
  current : Word

/-- The call has returned to `ret`. -/
def Context.returned (c : Context) (ret : Word) : Context :=
  ⟨update c.regs esp (c.regs esp + 4#32), ret⟩

/-- What a new thread starts with. -/
def Layout.entry (L : Layout) (stack func arg : Word) (junk : Reg → Word) : Context where
  regs
    | ecx => L.InterruptEnable
    | edx => arg
    | esi => func
    | edi => L.ThreadFinish
    | esp => stackTop stack + 4#32
    | r => junk r
  eip := L.ThreadRoot

def Cpus.step (L : Layout) (c : Cpus) : Action → Cpus
  | .compute m => { c with contexts := update c.contexts c.current ⟨m.regs, m.eip⟩ }
  | .fork u stack func arg junk =>
      { c with contexts := update c.contexts u (L.entry stack func arg junk) }
  | .switch u ret =>
      ⟨update c.contexts c.current ((c.contexts c.current).returned ret), u⟩

/-- `SWITCH` will find the context of the thread. -/
structure Suspended (L : Layout) (memory : Word → Word) (v : Word) (c : Context) : Prop where
  regs : ∀ r, r ≠ esp → memory (v + offset r) = c.regs r
  top : memory (v + offset esp) + 4#32 = c.regs esp
  frame : L.owner (memory (v + offset esp)) = .stack v
  above : L.owner (c.regs esp) = .stack v
  eip : memory (memory (v + offset esp)) = c.eip

structure Refines (L : Layout) (k : Kernel) (c : Cpus) : Prop where
  current : c.current = k.current
  started : k.started k.current
  thread : ∀ v, k.started v → L.thread v
  running : c.contexts k.current = ⟨k.machine.regs, k.machine.eip⟩
  suspended : ∀ v, k.started v → v ≠ k.current → Suspended L k.machine.memory v (c.contexts v)

/-! ## The two halves of `SWITCH` -/

theorem mem_context (t : Word) (r : Reg) : t + offset r ∈ context t := .inl ⟨r, rfl⟩

theorem offset_inj (r q : Reg) : offset r = offset q ↔ r = q := by
  cases r <;> cases q <;> decide

theorem offset_ne (r : Reg) : offset r ≠ offsetPC := by
  cases r <;> decide

section Switch

variable {L : Layout} {m : Machine} {t u v : Word} {c : Context} {memory memory' : Word → Word}

theorem Layout.ne (L : Layout) {a b : Word} (h : L.owner a ≠ L.owner b) : a ≠ b :=
  fun hab => h (congrArg L.owner hab)

theorem Layout.owner_offset (L : Layout) (ht : L.thread t) (r : Reg) :
    L.owner (t + offset r) = .context t :=
  L.owner_context t ht _ (mem_context t r)

theorem Layout.owner_offsetPC (L : Layout) (ht : L.thread t) :
    L.owner (t + offsetPC) = .context t :=
  L.owner_context t ht _ (.inr rfl)

/-- Only the context and the return address matter. -/
theorem Suspended.congr (h : Suspended L memory v c)
    (hcontext : ∀ a ∈ context v, memory' a = memory a)
    (hframe : memory' (memory (v + offset esp)) = memory (memory (v + offset esp))) :
    Suspended L memory' v c := by
  have hesp := hcontext _ (mem_context v esp)
  exact ⟨fun r hr => (hcontext _ (mem_context v r)).trans (h.regs r hr), by rw [hesp, h.top],
    by rw [hesp, h.frame], h.above, by rw [hesp, hframe, h.eip]⟩

/-- It is enough that the words of the thread are unchanged. -/
theorem Suspended.keep (h : Suspended L memory v c) (hv : L.thread v)
    (hkeep : ∀ a, L.owner a = .context v ∨ L.owner a = .stack v → memory' a = memory a) :
    Suspended L memory' v c :=
  h.congr (fun a ha => hkeep a (.inl (L.owner_context v hv a ha))) (hkeep _ (.inr h.frame))

/-- Registers are stored in the `Thread` that `eax` points to. -/
theorem exec_stores (save : Word) (rs : List Reg) (m : Machine) (heax : m.regs eax = t) :
    m.execAll save (rs.map fun r => .movl (reg r) (mem (offset r) eax)) = { m with
      memory := rs.foldl (fun memory r => update memory (t + offset r) (m.regs r)) m.memory } := by
  induction rs generalizing m with
  | nil => rfl
  | cons r rs ih =>
    have hexec : m.exec save (.movl (reg r) (mem (offset r) eax)) =
        m.write (t + offset r) (m.regs r) := by rw [← heax]; rfl
    rw [List.map_cons, Machine.execAll, List.foldl_cons, hexec]
    exact ih _ heax

/-- Registers are loaded from the `Thread` that `eax` points to. -/
theorem exec_loads (save : Word) (rs : List Reg) (hrs : eax ∉ rs) (m : Machine)
    (heax : m.regs eax = t) :
    m.execAll save (rs.map fun r => .movl (mem (offset r) eax) (reg r)) = { m with
      regs := rs.foldl (fun regs r => update regs r (m.memory (t + offset r))) m.regs } := by
  induction rs generalizing m with
  | nil => rfl
  | cons r rs ih =>
    have hr : eax ≠ r := List.ne_of_not_mem_cons hrs
    have hexec : m.exec save (.movl (mem (offset r) eax) (reg r)) =
        m.set r (m.memory (t + offset r)) := by rw [← heax]; rfl
    rw [List.map_cons, Machine.execAll, List.foldl_cons, hexec]
    exact ih (List.not_mem_of_not_mem_cons hrs) _ ((update_of_ne hr _ _).trans heax)

/-- The memory after the first half of `SWITCH`. -/
def saved (L : Layout) (m : Machine) (t : Word) : Word → Word :=
  update (update ([ebx, ecx, edx, esi, edi, ebp, esp].foldl
    (fun memory r => update memory (t + offset r) (m.regs r))
    (update m.memory L.save (m.regs eax))) (t + offset eax) (m.regs eax))
    (t + offsetPC) (m.memory (m.regs esp))

theorem saved_offset (r : Reg) : saved L m t (t + offset r) = m.regs r := by
  cases r <;> simp [saved, offset_inj, offset_ne]

theorem saved_of_owner (ht : L.thread t) {a : Word} (ha : L.owner a ≠ .context t)
    (hsave : L.owner a ≠ .eaxSave) : saved L m t a = m.memory a := by
  have hoff : ∀ r, a ≠ t + offset r := fun r => L.ne (by rwa [L.owner_offset ht])
  have hpc : a ≠ t + offsetPC := L.ne (by rwa [L.owner_offsetPC ht])
  have hs : a ≠ L.save := L.ne (by rwa [L.owner_save])
  simp [saved, hoff, hpc, hs]

theorem exec_saveRegisters (ht : L.thread t)
    (hstack : ∀ i, i < 3 → L.owner (m.regs esp + BitVec.ofNat 32 (4 * i)) = .stack t)
    (harg : m.memory (m.regs esp + 4#32) = t) :
    m.execAll L.save saveRegisters =
      ⟨update (update m.regs eax t) ebx (m.memory (m.regs esp)), m.eip, saved L m t⟩ := by
  have h0 : L.owner (m.regs esp) = .stack t := by simpa using hstack 0 (by decide)
  have h4 : L.owner (m.regs esp + 4#32) = .stack t := hstack 1 (by decide)
  have hsave_ne : ∀ r, L.save ≠ t + offset r := fun r =>
    L.ne (by simp [L.owner_save, L.owner_offset ht])
  have h0_ne : ∀ r, m.regs esp ≠ t + offset r := fun r => L.ne (by simp [h0, L.owner_offset ht])
  have h0_save : m.regs esp ≠ L.save := L.ne (by simp [h0, L.owner_save])
  have h4_save : m.regs esp + 4#32 ≠ L.save := L.ne (by simp [h4, L.owner_save])
  have hcode : saveRegisters = [.movl (reg eax) eaxSave, .movl (mem 4#32 esp) (reg eax)] ++
      [ebx, ecx, edx, esi, edi, ebp, esp].map (fun r => .movl (reg r) (mem (offset r) eax)) ++
      [.movl eaxSave (reg ebx), .movl (reg ebx) (mem (offset eax) eax),
        .movl (mem 0#32 esp) (reg ebx), .movl (reg ebx) (mem offsetPC eax)] := rfl
  have hfirst : m.execAll L.save [.movl (reg eax) eaxSave, .movl (mem 4#32 esp) (reg eax)] =
      ⟨update m.regs eax t, m.eip, update m.memory L.save (m.regs eax)⟩ := by
    simp [Machine.execAll, Machine.exec, Machine.fetch, Machine.store, Machine.write,
      Machine.set, harg, h4_save]
  rw [hcode, Machine.execAll_append, Machine.execAll_append, hfirst,
    exec_stores (t := t) _ _ _ (by simp)]
  simp [Machine.execAll, Machine.exec, Machine.fetch, Machine.store, Machine.write,
    Machine.set, saved, hsave_ne, h0_ne, h0_save]

theorem exec_loadRegisters (hu : L.thread u) (h : Suspended L m.memory u c)
    (harg : m.memory (m.regs esp + 8#32) = u) :
    m.execAll L.save loadRegisters = ⟨c.regs, c.eip,
      update (update m.memory L.save (c.regs eax)) (c.regs esp) (m.memory (u + offsetPC))⟩ := by
  have hsave_ne : ∀ r, u + offset r ≠ L.save := fun r =>
    L.ne (by simp [L.owner_save, L.owner_offset hu])
  have hpc_save : u + offsetPC ≠ L.save := L.ne (by simp [L.owner_save, L.owner_offsetPC hu])
  have htop_save : L.save ≠ c.regs esp := L.ne (by simp [h.above, L.owner_save])
  have hframe_save : m.memory (u + offset esp) ≠ L.save := L.ne (by simp [h.frame, L.owner_save])
  have hframe_top : m.memory (u + offset esp) ≠ c.regs esp := by
    rw [← h.top]
    bv_omega
  have hcode : loadRegisters = [.movl (mem 8#32 esp) (reg eax),
      .movl (mem (offset eax) eax) (reg ebx), .movl (reg ebx) eaxSave] ++
      [ebx, ecx, edx, esi, edi, ebp, esp].map (fun r => .movl (mem (offset r) eax) (reg r)) ++
      [.movl (mem offsetPC eax) (reg eax), .movl (reg eax) (mem 4#32 esp),
        .movl eaxSave (reg eax), .ret] := rfl
  have hfirst : m.execAll L.save [.movl (mem 8#32 esp) (reg eax),
      .movl (mem (offset eax) eax) (reg ebx), .movl (reg ebx) eaxSave] =
      ⟨update (update m.regs eax u) ebx (c.regs eax), m.eip,
        update m.memory L.save (c.regs eax)⟩ := by
    simp [Machine.execAll, Machine.exec, Machine.fetch, Machine.store, Machine.write,
      Machine.set, harg, h.regs]
  have hlast : ∀ regs : Reg → Word, regs eax = u → regs esp = m.memory (u + offset esp) →
      (⟨regs, m.eip, update m.memory L.save (c.regs eax)⟩ : Machine).execAll L.save
        [.movl (mem offsetPC eax) (reg eax), .movl (reg eax) (mem 4#32 esp),
          .movl eaxSave (reg eax), .ret] =
      ⟨update (update regs eax (c.regs eax)) esp (c.regs esp), c.eip,
        update (update m.memory L.save (c.regs eax)) (c.regs esp) (m.memory (u + offsetPC))⟩ := by
    intro regs heax hesp
    simp [Machine.execAll, Machine.exec, Machine.fetch, Machine.store, Machine.write,
      Machine.set, heax, hesp, hpc_save, htop_save, hframe_save, hframe_top, h.top, h.eip]
  rw [hcode, Machine.execAll_append, Machine.execAll_append, hfirst,
    exec_loads (t := u) _ _ (by decide) _ (by simp), hlast _ (by simp) (by simp [hsave_ne])]
  congr 1
  funext r
  cases r <;> simp [hsave_ne, h.regs]

end Switch

/-! ## Every step -/

section Steps

variable {L : Layout} {k : Kernel} {c : Cpus} {u ret : Word}

/-- After the first half every thread is suspended, and after the second half all but one.
The return address of that one is below its stack pointer. -/
theorem switch_refines (h : Refines L k c) (hok : Obeys L k (.switch u ret)) :
    ∃ k', step L k (.switch u ret) = some k' ∧ Refines L k' (c.step L (.switch u ret)) ∧
      L.owner (k'.machine.regs esp) = .stack u ∧
      L.owner (k'.machine.regs esp - 4#32) = .stack u ∧
      k.machine.memory (k'.machine.regs esp - 4#32) = k'.machine.eip ∧
      ∀ a, L.owner a ≠ .context k.current → L.owner a ≠ .eaxSave → a ≠ k'.machine.regs esp →
        k'.machine.memory a = k.machine.memory a := by
  obtain ⟨m, t, started⟩ := k
  obtain ⟨hu, hstack, hret, ht, harg⟩ := hok
  dsimp only at hu hstack hret ht harg
  have hthread : L.thread t := h.thread t h.started
  have h0 : L.owner (m.regs esp) = .stack t := by simpa using hstack 0 (by decide)
  have h8 : L.owner (m.regs esp + 8#32) = .stack t := hstack 2 (by decide)
  obtain ⟨contexts, hcontexts⟩ : ∃ contexts, contexts = (c.step L (.switch u ret)).contexts :=
    ⟨_, rfl⟩
  have hmid : ∀ v, started v → Suspended L (saved L m t) v (contexts v) := by
    intro v hv
    by_cases hvt : v = t
    · subst hvt
      have hcontext : contexts v = Context.returned ⟨m.regs, m.eip⟩ ret := by
        have hcurrent : c.current = v := h.current
        have hrunning : c.contexts v = ⟨m.regs, m.eip⟩ := h.running
        simp [hcontexts, Cpus.step, hcurrent, hrunning]
      rw [hcontext]
      refine ⟨fun r hr => by simp [saved_offset, Context.returned, hr],
        by simp [saved_offset, Context.returned], by rwa [saved_offset],
        by simpa [Context.returned] using hstack 1 (by decide), ?_⟩
      rw [saved_offset, saved_of_owner hthread (by simp [h0]) (by simp [h0]), hret]
      rfl
    · have hcontext : contexts v = c.contexts v := by
        rw [hcontexts]
        exact update_of_ne (h.current ▸ hvt) _ _
      rw [hcontext]
      refine (h.suspended v hv hvt).keep (h.thread v hv) fun a ha => ?_
      rcases ha with ha | ha
      · exact saved_of_owner hthread (by simpa [ha] using hvt) (by simp [ha])
      · exact saved_of_owner hthread (by simp [ha]) (by simp [ha])
  obtain ⟨memory, hmemory⟩ : ∃ memory, memory = update (update (saved L m t) L.save
      ((contexts u).regs eax)) ((contexts u).regs esp) (saved L m t (u + offsetPC)) := ⟨_, rfl⟩
  have hexec : m.execAll L.save SWITCH = ⟨(contexts u).regs, (contexts u).eip, memory⟩ := by
    rw [SWITCH, Machine.execAll_append, exec_saveRegisters hthread hstack ht, hmemory]
    exact exec_loadRegisters (h.thread u hu) (hmid u hu)
      ((saved_of_owner (a := m.regs esp + 8#32) hthread (by simp [h8]) (by simp [h8])).trans harg)
  have hkeep : ∀ a, L.owner a ≠ .eaxSave → a ≠ (contexts u).regs esp →
      memory a = saved L m t a := fun a ha htop => by
    rw [hmemory, update_of_ne htop, update_of_ne (L.ne (by rwa [L.owner_save]))]
  have hbelow : (contexts u).regs esp - 4#32 = saved L m t (u + offset esp) := by
    rw [← (hmid u hu).top, BitVec.add_sub_cancel]
  have howner : L.owner ((contexts u).regs esp - 4#32) = .stack u := by
    rw [hbelow]
    exact (hmid u hu).frame
  have heip : m.memory ((contexts u).regs esp - 4#32) = (contexts u).eip := by
    rw [← saved_of_owner hthread (by simp [howner]) (by simp [howner]), hbelow, (hmid u hu).eip]
  refine ⟨⟨_, u, started⟩, by rw [step, hexec], ⟨rfl, hu, h.thread, by rw [← hcontexts],
    fun v hv hvu => ?_⟩, (hmid u hu).above, howner, heip,
    fun a ht ha htop => (hkeep a ha htop).trans (saved_of_owner hthread ht ha)⟩
  rw [← hcontexts]
  refine (hmid v hv).keep (h.thread v hv) fun a ha => hkeep a ?_ (L.ne ?_)
  · rcases ha with ha | ha <;> simp [ha]
  · rcases ha with ha | ha <;> simp [ha, (hmid u hu).above, show v ≠ u from hvu]

theorem stackTop_eq (stack : Word) :
    stackTop stack = stack + BitVec.ofNat 32 (4 * (StackSize - 5)) ∧
    stackTop stack + 4#32 = stack + BitVec.ofNat 32 (4 * (StackSize - 4)) := by
  simp only [stackTop, StackSize]
  constructor <;> bv_omega

/-- `StackAllocate` leaves a thread that can be resumed, and the others as they are. -/
theorem fork_refines {stack func arg : Word} {junk : Reg → Word} (h : Refines L k c)
    (hok : Obeys L k (.fork u stack func arg junk)) :
    ∃ k', step L k (.fork u stack func arg junk) = some k' ∧
      Refines L k' (c.step L (.fork u stack func arg junk)) := by
  obtain ⟨hu, hnew, hstack, hjunk⟩ := hok
  have hcurrent : k.current ≠ u := fun hcu => hnew (hcu ▸ h.started)
  have htop : L.owner (stackTop stack) = .stack u := by
    rw [(stackTop_eq stack).1]
    exact hstack _ (by decide)
  have habove : L.owner (stackTop stack + 4#32) = .stack u := by
    rw [(stackTop_eq stack).2]
    exact hstack _ (by decide)
  have hbase : L.owner stack = .stack u := by simpa using hstack 0 (by decide)
  have hoff := L.owner_offset hu
  have hpc := L.owner_offsetPC hu
  refine ⟨_, rfl, h.current, .inr h.started, ?_, ?_, fun v hv hvt => ?_⟩
  · rintro v (rfl | hv)
    · exact hu
    · exact h.thread v hv
  · exact (update_of_ne hcurrent _ _).trans h.running
  rcases hv with rfl | hv
  · have hc : (c.step L (.fork v stack func arg junk)).contexts v =
        L.entry stack func arg junk := update_self _ _ _
    have hstack_ne : ∀ a, L.owner a = .context v → a ≠ stackTop stack ∧ a ≠ stack := fun a ha =>
      ⟨L.ne (by simp [ha, htop]), L.ne (by simp [ha, hbase])⟩
    have htop_ne : stackTop stack ≠ stack := by
      simp only [stackTop, StackSize]
      bv_omega
    have hesp : stackAllocate L k.machine.memory v stack func arg (v + offset esp) =
        stackTop stack := by
      simp [stackAllocate, offset_inj, offset_ne, hstack_ne _ (hoff esp)]
    rw [hc]
    refine ⟨fun r hr => ?_, congrArg (· + 4#32) hesp, (congrArg L.owner hesp).trans htop, habove,
      (congrArg _ hesp).trans ?_⟩
    · cases r <;> simp [stackAllocate, offset_inj, offset_ne, hstack_ne _ (hoff _),
        Layout.entry, hjunk] at hr ⊢
    · simp [stackAllocate, fun r => (hstack_ne _ (hoff r)).1.symm, (hstack_ne _ hpc).1.symm,
        htop_ne, Layout.entry]
  · have hvu : v ≠ u := fun hvu => hnew (hvu ▸ hv)
    have hc : (c.step L (.fork u stack func arg junk)).contexts v = c.contexts v :=
      update_of_ne hvu _ _
    rw [hc]
    refine (h.suspended v hv hvt).keep (h.thread v hv) fun a ha => ?_
    have hne : ∀ b, L.owner b = .context u ∨ L.owner b = .stack u → a ≠ b := fun b hb =>
      L.ne (by rcases ha with ha | ha <;> rcases hb with hb | hb <;> simp [ha, hb, hvu])
    simp [stackAllocate, fun r => hne _ (.inl (hoff r)), hne _ (.inl hpc), hne _ (.inr htop),
      hne _ (.inr hbase)]

theorem step_refines {a : Action} (h : Refines L k c) (hok : Obeys L k a) :
    ∃ k', step L k a = some k' ∧ Refines L k' (c.step L a) := by
  cases a with
  | compute m =>
    refine ⟨_, rfl, h.current, h.started, h.thread, ?_, fun v hv hvt => ?_⟩
    · rw [← h.current]
      exact update_self _ _ _
    · have hc : (c.step L (.compute m)).contexts v = c.contexts v :=
        update_of_ne (h.current ▸ hvt) _ _
      rw [hc]
      exact (h.suspended v hv hvt).congr (hok v hv hvt).1 (hok v hv hvt).2
  | fork u stack func arg junk => exact fork_refines h hok
  | switch u ret =>
    obtain ⟨k', hstep, h', -⟩ := switch_refines h hok
    exact ⟨k', hstep, h'⟩

theorem run_refines {as : List Action} (h : Refines L k c)
    (hok : Along (step L) (Obeys L) k as) :
    ∃ k', run (step L) k as = some k' ∧ Refines L k' (as.foldl (Cpus.step L) c) := by
  induction as generalizing k c with
  | nil => exact ⟨k, rfl, h⟩
  | cons a as ih =>
    obtain ⟨m, hm, hrefines⟩ := step_refines h hok.1
    obtain ⟨k', hrun, hk'⟩ := ih hrefines ((along_cons hm).mp hok).2
    exact ⟨k', run_cons_eq_some.mpr ⟨m, hm, hrun⟩, hk'⟩

/-- At the start there is the main thread only. -/
def Kernel.cpus (k : Kernel) : Cpus := ⟨fun _ => ⟨k.machine.regs, k.machine.eip⟩, k.current⟩

theorem refines_start (hthread : L.thread k.current) (hstart : ∀ v, k.started v ↔ v = k.current) :
    Refines L k k.cpus where
  current := rfl
  started := (hstart _).mpr rfl
  thread v hv := (hstart v).mp hv ▸ hthread
  running := rfl
  suspended v hv hne := absurd ((hstart v).mp hv) hne

theorem refines_of_run {k' : Kernel} {as : List Action} (hthread : L.thread k.current)
    (hstart : ∀ v, k.started v ↔ v = k.current) (hok : Along (step L) (Obeys L) k as)
    (hrun : run (step L) k as = some k') : Refines L k' (as.foldl (Cpus.step L) k.cpus) := by
  obtain ⟨k1, hrun', h⟩ := run_refines (refines_start hthread hstart) hok
  rwa [Option.some.inj (hrun.symm.trans hrun')]

end Steps

/-- Whatever the threads do and in whatever order they get the processor, the registers of
the machine are those that the running thread would have on a processor of its own. -/
theorem threads_have_own_registers (L : Layout) (k : Kernel) (hthread : L.thread k.current)
    (hstart : ∀ v, k.started v ↔ v = k.current) (as : List Action)
    (hok : Along (step L) (Obeys L) k as) :
    ∃ k', run (step L) k as = some k' ∧
      (as.foldl (Cpus.step L) k.cpus).current = k'.current ∧
      (as.foldl (Cpus.step L) k.cpus).contexts k'.current =
        ⟨k'.machine.regs, k'.machine.eip⟩ := by
  obtain ⟨k', hrun, h⟩ := run_refines (refines_start hthread hstart) hok
  exact ⟨k', hrun, h.current, h.running⟩

/-- `SWITCH` writes the context of the thread that calls it, `_eax_save`, and one word of
the stack of the other thread, where its stack pointer is then.  The return address is
below that word, and it is kept. -/
theorem switch_writes (L : Layout) (k k' : Kernel) (hthread : L.thread k.current)
    (hstart : ∀ v, k.started v ↔ v = k.current) (as : List Action)
    (hok : Along (step L) (Obeys L) k as) (hrun : run (step L) k as = some k') (u ret : Word)
    (hswitch : Obeys L k' (.switch u ret)) :
    ∃ k'', step L k' (.switch u ret) = some k'' ∧
      (∀ a, L.owner a ≠ .context k'.current → L.owner a ≠ .eaxSave →
        a ≠ k''.machine.regs esp → k''.machine.memory a = k'.machine.memory a) ∧
      L.owner (k''.machine.regs esp) = .stack u ∧
      k'.machine.memory (k''.machine.regs esp - 4#32) = k''.machine.eip ∧
      k''.machine.memory (k''.machine.regs esp - 4#32) = k''.machine.eip := by
  have h := refines_of_run hthread hstart hok hrun
  obtain ⟨k'', hstep, -, habove, hbelow, heip, hframe⟩ := switch_refines h hswitch
  refine ⟨k'', hstep, hframe, habove, heip, ?_⟩
  rw [hframe _ (by simp [hbelow]) (by simp [hbelow]) (by bv_omega)]
  exact heip

/-- Two threads with their stacks. -/
def twoThreads : Layout where
  owner a :=
    if a.toNat % 4 ≠ 0 then .shared
    else if a.toNat = 0x100 then .eaxSave
    else if 0x1000 ≤ a.toNat ∧ a.toNat < 0x1024 then .context 0x1000
    else if 0x2000 ≤ a.toNat ∧ a.toNat < 0x2024 then .context 0x2000
    else if 0x10000 ≤ a.toNat ∧ a.toNat < 0x14000 then .stack 0x1000
    else if 0x20000 ≤ a.toNat ∧ a.toNat < 0x24000 then .stack 0x2000
    else .shared
  thread t := t = 0x1000 ∨ t = 0x2000
  save := 0x100
  ThreadRoot := 1
  InterruptEnable := 2
  ThreadFinish := 3
  owner_context := by
    rintro t (rfl | rfl) a (⟨r, rfl⟩ | rfl)
    · cases r <;> rfl
    · rfl
    · cases r <;> rfl
    · rfl
  owner_save := rfl
  aligned a ha := by
    by_contra hodd
    exact ha (if_pos hodd)

/-- The first thread has called `SWITCH`, and will return to 7. -/
def mainCalls : Kernel where
  machine := ⟨fun _ => 0x10000, 0,
    fun a => if a = 0x10004 then 0x1000 else if a = 0x10008 then 0x2000 else 7⟩
  current := 0x1000
  started v := v = 0x1000

def forkSecond : Action := .fork 0x2000 0x20000 9 5 fun _ => 7

theorem obeys_forkSecond : Obeys twoThreads mainCalls forkSecond := by
  have hne : (0x2000 : Word) ≠ 0x1000 := by decide
  refine ⟨.inr rfl, hne, fun i hi => ?_, fun r => by cases r <;> rfl⟩
  have ha : ((0x20000 : Word) + BitVec.ofNat 32 (4 * i)).toNat = 0x20000 + 4 * i := by
    simp only [StackSize] at hi
    rw [BitVec.toNat_add, BitVec.toNat_ofNat]
    show (0x20000 + 4 * i % 2 ^ 32) % 2 ^ 32 = _
    omega
  simp only [StackSize] at hi
  simp only [twoThreads, ha]
  rw [if_neg (by omega), if_neg (by omega), if_neg (by omega), if_neg (by omega),
    if_neg (by omega), if_pos (by omega)]

theorem obeys_switchSecond {k : Kernel} (hk : step twoThreads mainCalls forkSecond = some k) :
    Obeys twoThreads k (.switch 0x2000 7) := by
  obtain rfl := Option.some.inj hk
  refine ⟨.inl rfl, ?_, rfl, rfl, rfl⟩
  rintro (_ | _ | _ | i) hi
  · rfl
  · rfl
  · rfl
  · omega

theorem threads_have_own_registers_second :
    ∃ k', run (step twoThreads) mainCalls [forkSecond, .switch 0x2000 7] = some k' ∧
      k'.current = 0x2000 ∧ k'.machine.eip = 1 ∧ k'.machine.regs edx = 5 := by
  obtain ⟨k', hrun, hcurrent, hcontext⟩ := threads_have_own_registers twoThreads mainCalls
    (.inl rfl) (fun _ => Iff.rfl) [forkSecond, .switch 0x2000 7]
    ⟨obeys_forkSecond, obeys_switchSecond rfl, by split <;> trivial⟩
  refine ⟨k', hrun, hcurrent.symm, ?_, ?_⟩
  · rw [← hcurrent] at hcontext
    exact (congrArg Context.eip hcontext).symm
  · rw [← hcurrent] at hcontext
    exact (congrFun (congrArg Context.regs hcontext) edx).symm

theorem switch_writes_second : ∃ k k', step twoThreads mainCalls forkSecond = some k ∧
    step twoThreads k (.switch 0x2000 7) = some k' ∧
    k'.machine.memory 0x10000 = k.machine.memory 0x10000 ∧
    k'.machine.memory (k'.machine.regs esp - 4#32) = 1 := by
  obtain ⟨k', hstep, hframe, -, -, hret⟩ := switch_writes twoThreads mainCalls _
    (.inl rfl) (fun _ => Iff.rfl)
    [forkSecond] ⟨obeys_forkSecond, trivial⟩ rfl 0x2000 7 (obeys_switchSecond rfl)
  obtain rfl := Option.some.inj hstep
  exact ⟨_, _, rfl, hstep, hframe 0x10000 (by simp [twoThreads]) (by simp [twoThreads]) (by decide),
    hret⟩

/-! ## New threads -/

/-- A C function has been entered in the state `m`, and has returned. -/
structure Returned (m m' : Machine) : Prop where
  eip : m'.eip = m.memory (m.regs esp)
  esp : m'.regs esp = m.regs esp + 4#32
  preserved : ∀ r, r ≠ eax → r ≠ ecx → r ≠ edx → r ≠ .esp → m'.regs r = m.regs r

/-- At the first call of `ThreadRoot` the argument is above the return address. -/
theorem threadRoot_arg (save : Word) (m : Machine) (next : Fin 3 → Word) :
    (m.execAll save ((threadRoot next).take 4)).memory
      ((m.execAll save ((threadRoot next).take 4)).regs esp + 4#32) = m.regs edx := by
  have hne : m.regs esp - 4#32 - 4#32 ≠ m.regs esp - 4#32 - 4#32 - 4#32 := by bv_omega
  simp [threadRoot, Machine.execAll, Machine.exec, Machine.push, Machine.write, Machine.set,
    Machine.fetch, Machine.store, hne]

/-- When a new thread gets the processor for the first time it is in `ThreadRoot`, which
calls `InterruptEnable`, then `func` with its argument, and then `ThreadFinish`. -/
theorem new_thread_calls (L : Layout) (k k' : Kernel) (hthread : L.thread k.current)
    (hstart : ∀ v, k.started v ↔ v = k.current) (as : List Action)
    (hok : Along (step L) (Obeys L) k as) (hrun : run (step L) k as = some k') (u ret : Word)
    (hswitch : Obeys L k' (.switch u ret)) (hne : u ≠ k'.current) (stack func arg : Word)
    (junk : Reg → Word)
    (hentry : (as.foldl (Cpus.step L) k.cpus).contexts u = L.entry stack func arg junk)
    (next : Fin 3 → Word) :
    ∃ k'', step L k' (.switch u ret) = some k'' ∧ k''.machine.eip = L.ThreadRoot ∧
      ∃ m1, k''.machine.execAll L.save ((threadRoot next).take 4) = m1 ∧
        m1.eip = L.InterruptEnable ∧
      ∀ m2, Returned m1 m2 → m2.memory (m2.regs esp) = m1.memory (m1.regs esp + 4#32) →
      ∃ m3, m2.execAll L.save (((threadRoot next).drop 4).take 1) = m3 ∧ m3.eip = func ∧
        m3.memory (m3.regs esp + 4#32) = arg ∧
      ∀ m4, Returned m3 m4 →
      ∃ m5, m4.execAll L.save (((threadRoot next).drop 5).take 1) = m5 ∧
        m5.eip = L.ThreadFinish := by
  have h := refines_of_run hthread hstart hok hrun
  obtain ⟨⟨⟨regs, eip, memory⟩, current, started⟩, hstep, h'⟩ := step_refines h hswitch
  obtain rfl : u = current := h'.current
  have hcontext : L.entry stack func arg junk = ⟨regs, eip⟩ := by
    refine (hentry.symm.trans (update_of_ne ?_ _ _).symm).trans h'.running
    rwa [h.current]
  obtain ⟨rfl, rfl⟩ := Context.mk.inj hcontext
  refine ⟨_, hstep, rfl, _, rfl, rfl, fun m2 hm2 harg => ?_⟩
  refine ⟨_, rfl, ?_, ?_, fun m4 hm4 => ⟨_, rfl, ?_⟩⟩
  · exact hm2.preserved esi (by decide) (by decide) (by decide) (by decide)
  · have hne : m2.regs esp ≠ m2.regs esp - 4#32 := by bv_omega
    rw [threadRoot_arg] at harg
    simp [threadRoot, Machine.execAll, Machine.exec, Machine.push, Machine.write, Machine.set,
      hne, harg]
  · exact (hm4.preserved edi (by decide) (by decide) (by decide) (by decide)).trans
      (hm2.preserved edi (by decide) (by decide) (by decide) (by decide))

theorem new_thread_calls_second : ∃ k k', step twoThreads mainCalls forkSecond = some k ∧
    step twoThreads k (.switch 0x2000 7) = some k' ∧ k'.machine.eip = 1 ∧
    (k'.machine.execAll 0x100 ((threadRoot fun _ => 8).take 4)).eip = 2 := by
  obtain ⟨k', hstep, heip, m1, rfl, hm1, -⟩ := new_thread_calls twoThreads mainCalls _ (.inl rfl)
    (fun _ => Iff.rfl) [forkSecond] ⟨obeys_forkSecond, trivial⟩ rfl 0x2000 7
    (obeys_switchSecond rfl) (by decide) 0x20000 9 5 (fun _ => 7) rfl fun _ => 8
  exact ⟨_, k', rfl, hstep, heip, hm1⟩

end Nachos.Threads.I386

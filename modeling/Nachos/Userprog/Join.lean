import Nachos.Userprog.Registers

/-!
# `SC_Exit` and `SC_Join`

`SC_Join` polls `ThreadIDOccupied` at the id that it is given, and yields as long
as the id is occupied.  The table has an entry for the id, not for the thread.
When the thread has been deleted its id is free, and a new thread may get it
before the caller polls again.

`SC_Exit` reads its status and forgets it, and `SC_Join` does not write the
register of its result.  So the caller gets back what that register held before,
which is the code of the system call.

The model has the registers of each user thread on their own;
`registers_isolated` says why this is right.  A thread is in user code, or in the
loop of `SC_Join` with the local variable `threadId`.  The user program is a
script of instructions, which may do anything to the registers, and of system
calls, which `ExceptionHandler` tells apart by the register `r2`.  A file system
call is an instruction here, and so is a delayed load that an interrupt completes.
In the loop of `SC_Join` no load is pending.  `SC_Exec` passes its argument to
`exec_func` as a pointer of the host; what `exec_func` opens there is an input.

`target`, `exited` and `joins` are the history: the thread that had the id when
`SC_Join` was called, the status that a thread has passed to `SC_Exit`, and what
the calls of `SC_Join` have returned.
-/

namespace Nachos.Userprog

open Function Lib Threads Machine

/-! ## The system calls -/

def SC_Exit : Word := 1

def SC_Exec : Word := 2

def SC_Join : Word := 3

def SC_Fork : Word := 9

def SC_Yield : Word := 10

/-- `r2`, the code of a system call and its result. -/
def r2 : Register := ⟨2, by decide⟩

/-- `Machine::AdvancePC`. -/
def advancePC (r : Registers) : Registers :=
  update (update (update r PrevPCReg (r PCReg)) PCReg (r PCReg + 4)) NextPCReg (r NextPCReg + 4)

/-- `RaiseException(SyscallException, 0)` up to the handler. -/
def trap (r : Registers) : Option Registers := completeLoad (update r BadVAddrReg 0)

/-- What a user program does. -/
inductive JoinOp where
  | instr (f : Registers → Registers)
  /-- The instruction `SYSCALL`.  If the call creates a thread, that one executes
  `child`.  `exec_func` opens a file of `executable` pages, or no file. -/
  | syscall (executable : Option Nat) (child : List JoinOp)

inductive JoinCode where
  /-- `machine->Run()`, also while the thread is in the loop of `SC_Join`. -/
  | run (script : List JoinOp)
  /-- `StartProcess` and `exec_func`, which return if they cannot open the file,
  and `fork_func`. -/
  | start (numPages : Option Nat) (forkPC : Option Word) (script : List JoinOp)

/-- Where a user thread is. -/
inductive UserMode where
  | user
  /-- `while (ThreadIDOccupied[threadId] == true)`. -/
  | joining (threadId : Nat) (target : Option ThreadPtr)

/-- A call of `SC_Join` that has returned. -/
structure JoinReturn where
  caller : ThreadPtr
  target : Option ThreadPtr
  result : Word

structure JoinData where
  mode : ThreadPtr → UserMode
  registers : ThreadPtr → Registers
  /-- `space->numPages`. -/
  numPages : ThreadPtr → Nat
  exited : ThreadPtr → Option Word
  joins : List JoinReturn

namespace JoinData

def setRegisters (x : JoinData) (t : ThreadPtr) (r : Registers) : JoinData :=
  { x with registers := update x.registers t r }

/-- `ExceptionHandler(SyscallException)` in thread `s.currentThread`, whose
registers are `r`. -/
def syscall (x : JoinData) (s : Sched) (r : Registers) (executable : Option Nat)
    (child script : List JoinOp) : Option (JoinData × List (Call JoinCode)) :=
  let t := s.currentThread
  if r r2 = SC_Exit then
    some ({ x.setRegisters t (advancePC r) with exited := update x.exited t (some (r arg1)) },
      [.finish])
  else if r r2 = SC_Join then
    let threadId := (r arg1).toNat
    if MaxThreadCount ≤ threadId then none
    else
      some ({ x.setRegisters t r with
          mode := update x.mode t (.joining threadId (s.ids.threadPoiners threadId)) },
        [.client (.run script)])
  else if r r2 = SC_Fork then
    some (x.setRegisters t (advancePC r),
      [.newThread defaultPriority,
        .fork s.created (.start (some (x.numPages t)) (some (r arg1)) child),
        .oneTick, .client (.run script)])
  else if r r2 = SC_Yield then
    some (x.setRegisters t (advancePC r), [.yield, .oneTick, .client (.run script)])
  else if r r2 = SC_Exec then
    some (x.setRegisters t
        (advancePC (update r r2 (BitVec.ofNat 32 (s.ids.firstFree.getD 0)))),
      [.newThread defaultPriority, .fork s.created (.start executable none child),
        .oneTick, .client (.run script)])
  else none

/-- `SC_Join` returns. -/
def joinReturn (x : JoinData) (t : ThreadPtr) (target : Option ThreadPtr) : JoinData :=
  let r := advancePC (x.registers t)
  { x.setRegisters t r with
    mode := update x.mode t .user
    joins := x.joins ++ [⟨t, target, r r2⟩] }

end JoinData

/-- The code of the user threads. -/
def joinProgram : Program JoinCode JoinData Empty where
  exec s i x :=
    match i with
    | .start none _ _ => some (x, [])
    | .start (some numPages) forkPC script =>
        some ({ x.setRegisters s.currentThread (initRegisters numPages forkPC) with
            numPages := update x.numPages s.currentThread numPages
            mode := update x.mode s.currentThread .user },
          [.client (.run script)])
    | .run script =>
        match x.mode s.currentThread with
        | .joining threadId target =>
            if s.ids.threadIDOccupied threadId then some (x, [.yield, .client (.run script)])
            else some (x.joinReturn s.currentThread target, [.oneTick, .client (.run script)])
        | .user =>
            match script with
            | [] => some (x, [.oneTick, .client (.run [])])
            | .instr f :: script =>
                some (x.setRegisters s.currentThread (f (x.registers s.currentThread)),
                  [.oneTick, .client (.run script)])
            | .syscall executable child :: script =>
                (trap (x.registers s.currentThread)).bind fun r =>
                  x.syscall s r executable child script
  handler d _ := d.elim

/-- No thread has started. -/
def joinStart : JoinData where
  mode _ := .user
  registers _ _ := 0
  numPages _ := 0
  exited _ := none
  joins := []

theorem advancePC_r2 (r : Registers) : advancePC r r2 = r r2 := by
  have h1 : r2 ≠ NextPCReg := by decide
  have h2 : r2 ≠ PCReg := by decide
  have h3 : r2 ≠ PrevPCReg := by decide
  rw [advancePC, update_of_ne h1, update_of_ne h2, update_of_ne h3]

/-! ## The invariant -/

/-- What the callers of `SC_Join` wait for, and what they have got. -/
structure JoinInv (s : Sched) (x : JoinData) : Prop where
  /-- A caller polls at the id of its target, and has not touched `r2`. -/
  waiting : ∀ t threadId target, x.mode t = .joining threadId target →
    x.registers t r2 = SC_Join ∧
      ∀ u, target = some u → u < s.created ∧ s.ids.tid u = threadId
  returned : ∀ j ∈ x.joins, j.result = SC_Join ∧
    ∀ u, j.target = some u → s.destroyed u = true

namespace JoinInv

variable {s s' : Sched} {x x' : JoinData}

/-- The scheduler goes on. -/
theorem congr (h : JoinInv s x) (hcreated : s.created ≤ s'.created)
    (htid : ∀ u, u < s.created → s'.ids.tid u = s.ids.tid u)
    (hdestroyed : ∀ u, s.destroyed u = true → s'.destroyed u = true) : JoinInv s' x where
  waiting t threadId target hmode := by
    obtain ⟨hr, htarget⟩ := h.waiting t threadId target hmode
    refine ⟨hr, fun u hu => ?_⟩
    obtain ⟨hlt, hid⟩ := htarget u hu
    exact ⟨hlt.trans_le hcreated, (htid u hlt).trans hid⟩
  returned j hj := by
    obtain ⟨hr, htarget⟩ := h.returned j hj
    exact ⟨hr, fun u hu => hdestroyed u (htarget u hu)⟩

theorem lifecycle (h : JoinInv s x) (hs : s'.lifecycle = s.lifecycle) : JoinInv s' x := by
  simp only [Sched.lifecycle, Prod.mk.injEq] at hs
  obtain ⟨hcreated, hids, _, hdestroyed, _⟩ := hs
  refine h.congr hcreated.ge (fun u _ => by rw [hids]) fun u hu => ?_
  rw [hdestroyed]
  exact hu

theorem newThread {p : Int} (h : JoinInv s x) (hs : s.newThread p = some s') : JoinInv s' x := by
  obtain ⟨ids, hids, rfl⟩ := Sched.newThread_spec hs
  obtain ⟨i, _, _, rfl⟩ := ThreadIds.construct_spec hids
  refine h.congr (Nat.le_succ _) (fun u hu => ?_) fun _ hu => hu
  exact update_of_ne (Nat.ne_of_lt hu) _ _

theorem reap (h : JoinInv s x) (hs : s.reap = some s') : JoinInv s' x := by
  rcases Sched.reap_spec hs with ⟨rfl, _⟩ | ⟨t, _, _, rfl⟩
  · exact h
  · refine h.congr le_rfl (fun _ _ => rfl) fun u hu => ?_
    show update s.destroyed t true u = true
    by_cases hut : u = t
    · rw [hut, update_self]
    · rw [update_of_ne hut]
      exact hu

/-- A thread that is not in `SC_Join` afterwards may write its registers. -/
theorem toUser (h : JoinInv s x) {t : ThreadPtr}
    (hother : ∀ u, u ≠ t → x'.mode u = x.mode u ∧ x'.registers u = x.registers u)
    (ht : x'.mode t = .user)
    (hjoins : ∀ j ∈ x'.joins, j ∈ x.joins ∨ j.result = SC_Join ∧
      ∀ u, j.target = some u → s.destroyed u = true) : JoinInv s x' where
  waiting u threadId target hmode := by
    have hut : u ≠ t := by
      rintro rfl
      rw [ht] at hmode
      cases hmode
    obtain ⟨hm, hr⟩ := hother u hut
    rw [hm] at hmode
    rw [hr]
    exact h.waiting u threadId target hmode
  returned j hj := by
    rcases hjoins j hj with hold | hnew
    · exact h.returned j hold
    · exact hnew

theorem setRegisters (h : JoinInv s x) {t : ThreadPtr} (ht : x.mode t = .user)
    (r : Registers) : JoinInv s (x.setRegisters t r) :=
  h.toUser (fun _ hu => ⟨rfl, update_of_ne hu _ _⟩) ht fun _ hj => Or.inl hj

/-- The id of a caller's target is free, so the target has been deleted. -/
theorem joinReturn (h : JoinInv s x) (hids : s.ids.Valid s.Live) {t : ThreadPtr} {threadId : Nat}
    {target : Option ThreadPtr} (ht : x.mode t = .joining threadId target)
    (hfree : s.ids.threadIDOccupied threadId = false) : JoinInv s (x.joinReturn t target) := by
  obtain ⟨hr, htarget⟩ := h.waiting t threadId target ht
  refine h.toUser (t := t) (fun u hu => ⟨update_of_ne hu _ _, update_of_ne hu _ _⟩)
    (update_self _ _ _) fun j hj => ?_
  rcases List.mem_append.mp hj with hold | hnew
  · exact Or.inl hold
  · rw [List.mem_singleton.mp hnew]
    refine Or.inr ⟨(advancePC_r2 _).trans hr, fun u hu => ?_⟩
    obtain ⟨hlt, hid⟩ := htarget u hu
    by_contra hnot
    have hocc := (hids.occupied_iff threadId).mpr ⟨u, ⟨hlt, eq_false_of_ne_true hnot⟩, hid⟩
    rw [hfree] at hocc
    cases hocc

/-- The caller of `SC_Join` enters the loop with the thread that has the id. -/
theorem joinCall (h : JoinInv s x) (hids : s.ids.Valid s.Live) (t : ThreadPtr) {r : Registers}
    (hr : r r2 = SC_Join) (threadId : Nat) :
    JoinInv s { x.setRegisters t r with
      mode := update x.mode t (.joining threadId (s.ids.threadPoiners threadId)) } where
  waiting u id target hmode := by
    by_cases hut : u = t
    · subst hut
      have hmode' := (update_self u _ x.mode).symm.trans hmode
      cases hmode'
      refine ⟨?_, fun v hv => ?_⟩
      · show update x.registers u r u r2 = SC_Join
        rw [update_self]
        exact hr
      · obtain ⟨hlive, htid⟩ := hids.live_of_poiner hv
        exact ⟨hlive.1, htid⟩
    · have hmode' : x.mode u = .joining id target := (update_of_ne hut _ _).symm.trans hmode
      show update x.registers t r u r2 = SC_Join ∧ _
      rw [update_of_ne hut]
      exact h.waiting u id target hmode'
  returned := h.returned

/-- A system call of a thread in user code. -/
theorem syscall (h : JoinInv s x) (hids : s.ids.Valid s.Live)
    (hmode : x.mode s.currentThread = .user) {r : Registers} {executable : Option Nat}
    {child script : List JoinOp} {y : JoinData × List (Call JoinCode)}
    (hy : x.syscall s r executable child script = some y) : JoinInv s y.1 := by
  simp only [JoinData.syscall] at hy
  split at hy
  · cases hy
    have hset := h.setRegisters hmode (advancePC r)
    exact ⟨hset.waiting, hset.returned⟩
  · split at hy
    · rename_i hr
      split at hy
      · cases hy
      · cases hy
        exact h.joinCall hids _ hr _
    · split at hy
      · cases hy
        exact h.setRegisters hmode _
      · split at hy
        · cases hy
          exact h.setRegisters hmode _
        · split at hy
          · cases hy
            exact h.setRegisters hmode _
          · cases hy

theorem exec (h : JoinInv s x) (hids : s.ids.Valid s.Live) {i : JoinCode}
    {y : JoinData × List (Call JoinCode)} (hy : joinProgram.exec s i x = some y) :
    JoinInv s y.1 := by
  cases i with
  | start numPages forkPC script =>
      cases numPages with
      | none =>
          cases hy
          exact h
      | some numPages =>
          cases hy
          exact h.toUser (fun u hu => ⟨update_of_ne hu _ _, update_of_ne hu _ _⟩)
            (update_self _ _ _) fun _ hj => Or.inl hj
  | run script =>
      simp only [joinProgram] at hy
      split at hy
      · rename_i threadId target hmode
        split at hy
        · cases hy
          exact h
        · rename_i hfree
          cases hy
          exact h.joinReturn hids hmode (eq_false_of_ne_true hfree)
      · rename_i hmode
        split at hy
        · cases hy
          exact h
        · cases hy
          exact h.setRegisters hmode _
        · obtain ⟨r, _, hr⟩ := Option.bind_eq_some_iff.mp hy
          exact h.syscall hids hmode hr

end JoinInv

end Nachos.Userprog

namespace Nachos.Threads.Kernel

open Function Lib Machine Userprog

/-! ## Runs -/

section Join

variable {k k' : Kernel JoinCode JoinData} {a : Action JoinCode Empty}

theorem joinInv_step (hc : k.Control) (h : JoinInv k.sched k.shared)
    (hstep : k.step joinProgram a = some k') : JoinInv k'.sched k'.shared := by
  rcases step_shared hstep with hshared | ⟨_, hsched, i, rest, y, _, hexec, hshared⟩ |
    ⟨d, _⟩
  · rw [hshared]
    rcases step_sched hstep with ⟨rest, _, _, hs⟩ | ⟨rest, _, _, hs⟩ | hs
    · rw [hs]
      exact h.congr le_rfl (fun _ _ => rfl) fun _ hu => hu
    · exact h.reap hs
    · rcases Sched.lifecycle_of_schedStep hs with heq | ⟨p, hn⟩
      · exact h.lifecycle heq
      · exact h.newThread hn
  · rw [hsched, hshared]
    exact h.exec hc.sched.ids_valid hexec
  · exact d.elim

/-- What `SC_Join` promises to its caller, as far as the code keeps it. -/
structure Joins (k : Kernel JoinCode JoinData) : Prop where
  /-- A call with the id of a thread that exists waits for this thread. -/
  call : ∀ executable child script rest r u,
    k.code k.cur = .call (.client (.run (.syscall executable child :: script))) :: rest →
    k.shared.mode k.cur = .user → trap (k.shared.registers k.cur) = some r → r r2 = SC_Join →
    k.sched.Live u → k.sched.ids.tid u = (r arg1).toNat →
    ∃ k', k.step joinProgram .exec = some k' ∧
      k'.shared.mode k.cur = .joining (k.sched.ids.tid u) (some u)
  /-- A call returns only after its thread has finished and has been deleted. -/
  finished : ∀ j ∈ k.shared.joins, ∀ u, j.target = some u →
    k.sched.finished u = true ∧ k.sched.destroyed u = true
  /-- The caller gets the status of the thread if this is the code of `SC_Join`. -/
  status : ∀ j ∈ k.shared.joins, ∀ u status, j.target = some u →
    k.shared.exited u = some status → (j.result = status ↔ status = SC_Join)
  /-- After the thread has been deleted, the test succeeds if no new thread has its
  id. -/
  test : ∀ script rest threadId u, k.code k.cur = .call (.client (.run script)) :: rest →
    k.shared.mode k.cur = .joining threadId (some u) → k.sched.destroyed u = true →
    ((∃ k', k.step joinProgram .exec = some k' ∧ k'.shared.mode k.cur = .user) ↔
      ∀ v, k.sched.Live v → k.sched.ids.tid v ≠ k.sched.ids.tid u)

theorem step_run {script : List JoinOp} {rest : List (Instr JoinCode)}
    (hcode : k.code k.cur = .call (.client (.run script)) :: rest) :
    k.step joinProgram .exec = (joinProgram.exec k.sched (.run script) k.shared).map fun y =>
      { k with shared := y.1 }.setCode (y.2.map Instr.call ++ rest) := by
  simp only [step, hcode, execInstr, execCall]

/-- The loop ends when the id is free. -/
theorem step_joining {script : List JoinOp} {rest : List (Instr JoinCode)} {threadId : Nat}
    {target : Option ThreadPtr} (hcode : k.code k.cur = .call (.client (.run script)) :: rest)
    (hmode : k.shared.mode k.cur = .joining threadId target) :
    (∃ k', k.step joinProgram .exec = some k' ∧ k'.shared.mode k.cur = .user) ↔
      k.sched.ids.threadIDOccupied threadId = false := by
  rw [step_run hcode]
  simp only [joinProgram, hmode]
  constructor
  · rintro ⟨k', hk, hk'⟩
    by_contra hocc
    rw [if_pos (Bool.eq_true_of_not_eq_false hocc)] at hk
    rw [← Option.some.inj hk] at hk'
    have hstay : k.shared.mode k.cur = .user := hk'
    rw [hmode] at hstay
    cases hstay
  · intro hfree
    rw [if_neg (by rw [hfree]; exact Bool.false_ne_true)]
    exact ⟨_, rfl, update_self _ _ _⟩

theorem joins_of_inv (hc : k.Control) (h : JoinInv k.sched k.shared) : k.Joins where
  call executable child script rest r u hcode hmode htrap hr hlive htid := by
    have hids := hc.sched.ids_valid
    have hlt := hids.tid_lt u hlive
    have hnot1 : ¬r r2 = SC_Exit := by
      rw [hr]
      decide
    have hnot2 : ¬MaxThreadCount ≤ (r arg1).toNat := by
      rw [← htid]
      omega
    rw [step_run hcode]
    simp only [joinProgram, hmode, htrap, Option.bind_some, JoinData.syscall, if_neg hnot1,
      if_pos hr, if_neg hnot2]
    refine ⟨_, rfl, ?_⟩
    rw [← htid, hids.poiner_eq u hlive]
    exact update_self _ _ _
  finished j hj u hu := by
    have hdestroyed := (h.returned j hj).2 u hu
    exact ⟨hc.sched.destroyed_finished u hdestroyed, hdestroyed⟩
  status j hj u status _ _ := by
    rw [(h.returned j hj).1]
    exact eq_comm
  test script rest threadId u hcode hmode _ := by
    have htid := ((h.waiting _ _ _ hmode).2 u rfl).2
    rw [step_joining hcode hmode, htid, ← Bool.not_eq_true,
      hc.sched.ids_valid.occupied_iff threadId]
    constructor
    · intro hnone v hv he
      exact hnone ⟨v, hv, he⟩
    · rintro hnone ⟨v, hv, he⟩
      exact hnone v hv he

/-- In every run in which each thread is forked once, `SC_Join` returns only after
its thread has finished.  The caller gets the status of the thread if it is the
code of `SC_Join`, and the test after the deletion succeeds if no new thread has
the id. -/
theorem join_after_exit (initialValue : Nat → Int) (holding : Nat → Option ThreadPtr)
    (as : List (Action JoinCode Empty)) (k : Kernel JoinCode JoinData)
    (hfork : Along (step joinProgram) ForkOnce (init initialValue holding joinStart) as)
    (hrun : run (step joinProgram) (init initialValue holding joinStart) as = some k) :
    k.Joins := by
  have hinv : k.Control ∧ JoinInv k.sched k.shared := by
    refine run_invariant (I := fun k => k.Control ∧ JoinInv k.sched k.shared) ?_ ?_ hfork hrun
    · intro k1 a k2 h hok hstep
      exact ⟨control_step h.1 hok hstep, joinInv_step h.1 h.2 hstep⟩
    · refine ⟨control_init _ _ _, fun t threadId target hmode => ?_, fun j hj => ?_⟩
      · cases hmode
      · cases hj
  exact joins_of_inv hinv.1 hinv.2

end Join

/-! ## Two programs -/

/-- The instructions that load the code of a system call and its argument. -/
def loadCall (code arg : Word) : JoinOp := .instr fun r => update (update r r2 code) arg1 arg

def systemCall (code arg : Word) (child : List JoinOp) : List JoinOp :=
  [loadCall code arg, .syscall none child]

def exitWith (status : Word) : List JoinOp := systemCall SC_Exit status []

def yieldOnce : List JoinOp := systemCall SC_Yield 0 []

/-- The child starts at the address 16. -/
def forkChild (child : List JoinOp) : List JoinOp := systemCall SC_Fork 16 child

/-- A program forks a child that exits with `status`, and joins it. -/
def forkAndJoin (status : Word) (n : Nat) : List (Action JoinCode Empty) :=
  .start [.client (.start (some 1) none
      (forkChild (exitWith status) ++ systemCall SC_Join 1 []))] ::
    List.replicate n .exec

/-- The child exits with `3`, and its parent gets this. -/
theorem join_after_exit_three : ∃ k : Kernel JoinCode JoinData,
    run (step joinProgram) (init (fun _ => 0) (fun _ => none) joinStart) (forkAndJoin 3 30) =
        some k ∧
      k.shared.exited 1 = some 3 ∧ k.shared.joins.map JoinReturn.result = [3] ∧
      k.shared.joins.map JoinReturn.target = [some 1] ∧ k.Joins :=
  ⟨_, rfl, rfl, rfl, rfl, join_after_exit (fun _ => 0) (fun _ => none) (forkAndJoin 3 30) _
    (by decide) rfl⟩

/-- The program forks two children and joins the first.  The first one yields and
exits.  The second one yields, forks a child of its own, which gets the id of the
first, and yields again. -/
def joinReused (n : Nat) : List (Action JoinCode Empty) :=
  .start [.client (.start (some 1) none
      (forkChild (yieldOnce ++ exitWith 7) ++
        forkChild (yieldOnce ++ forkChild [] ++ yieldOnce) ++ systemCall SC_Join 1 []))] ::
    List.replicate n .exec

/-- A child exits with `7`, and its parent gets `3`.  A parent polls again after
its child has been deleted, and the test fails because a new thread has the id. -/
theorem join_loses_exit :
    (∃ k : Kernel JoinCode JoinData,
      run (step joinProgram) (init (fun _ => 0) (fun _ => none) joinStart) (forkAndJoin 7 30) =
          some k ∧
        ∃ j ∈ k.shared.joins, j.target = some 1 ∧ k.shared.exited 1 = some 7 ∧ j.result = 3) ∧
    ∃ k k' : Kernel JoinCode JoinData,
      run (step joinProgram) (init (fun _ => 0) (fun _ => none) joinStart) (joinReused 82) =
          some k ∧
        k.shared.mode 0 = .joining 1 (some 1) ∧ k.sched.destroyed 1 = true ∧
        k.sched.ids.tid 3 = 1 ∧ k.step joinProgram .exec = some k' ∧
        k'.shared.mode 0 = .joining 1 (some 1) ∧
        (k'.code 0).head? = some (.call .yield) :=
  ⟨⟨_, rfl, _, List.mem_singleton.mpr rfl, rfl, rfl, rfl⟩,
    _, _, rfl, rfl, rfl, rfl, rfl, rfl, rfl⟩

end Nachos.Threads.Kernel

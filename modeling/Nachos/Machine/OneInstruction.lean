import Nachos.Machine.Alu

/-!
# The parts of `OneInstruction`

`OneInstruction` fetches a word and executes one case of the `switch`.  A case
that ends goes on to the code after the `switch`; a case that raises, or a fetch
that does, goes on to `RaiseException`.  Both ways complete the delayed load.
`oneInstruction_eq` puts the two ways into one equation.

The registers from `PCReg` on are written by these two ends only.  `SameControl`
says so of a case, and `Sequential` says in addition that the case leaves
`pcAfter` alone.  All cases but those of branches and jumps are sequential.
-/

namespace Nachos.Machine

open Function Lib Lib.Exec Code

/-- `x & SIGN_BIT`. -/
theorem and_signBit_eq_zero (x : Word) : x &&& signBit = 0 ↔ x.msb = false := by
  rw [show signBit = BitVec.twoPow 32 31 from rfl, BitVec.and_twoPow, BitVec.msb_eq_getLsbD_last]
  cases x.getLsbD (32 - 1) <;> decide

/-! ## The two ends -/

namespace State

/-- The state after the end of `OneInstruction`. -/
def completed (s : State) (n : Next) : State :=
  let t := s.loaded (BitVec.ofNat 32 n.nextLoadReg) n.nextLoadValue
  ((t.written PrevPCReg (t.registers PCReg)).written PCReg (t.registers NextPCReg)).written
    NextPCReg n.pcAfter

/-- The state after `RaiseException`, at the call of the handler. -/
def raised (s : State) (trap : Trap) : State :=
  (s.written BadVAddrReg trap.badVAddr).loaded 0 0

/-- The fetch and the `switch`. -/
def body (tid : Nat) : Code Next := do
  let pc ← reg PCReg
  let raw ← readMem tid pc 4
  let nextPC ← reg NextPCReg
  (decode raw).execute (nextPC + 4) tid

/-- What follows the `switch`.  The index of the delayed load may be outside of
`registers`. -/
def finish : Except Trap Next × State → Option (Option Trap × State)
  | (.ok n, s) =>
      if (s.registers LoadReg).toNat < NumTotalRegs then some (none, s.completed n) else none
  | (.error trap, s) =>
      if (s.registers LoadReg).toNat < NumTotalRegs then some (some trap, s.raised trap) else none

theorem advance_eq (s : State) (n : Next) : advance n s =
    if (s.registers LoadReg).toNat < NumTotalRegs then some (.ok (), s.completed n) else none := by
  unfold advance
  rw [bind_apply]
  by_cases h : (s.registers LoadReg).toNat < NumTotalRegs
  · rw [delayedLoad_eq h, if_pos h]
    rfl
  · rw [delayedLoad_crash h, if_neg h]

theorem raiseException_cases (s : State) (trap : Trap) : raiseException trap.badVAddr s =
    if (s.registers LoadReg).toNat < NumTotalRegs then some (.ok (), s.raised trap) else none := by
  by_cases h : (s.registers LoadReg).toNat < NumTotalRegs
  · rw [raiseException_eq h, if_pos h]
    rfl
  · rw [if_neg h]
    refine delayedLoad_crash ?_ 0 0
    show ¬(update s.registers BadVAddrReg trap.badVAddr LoadReg).toNat < NumTotalRegs
    rwa [update_of_ne (by decide)]

/-- `OneInstruction` is its `switch` with one of the two ends. -/
theorem oneInstruction_eq (s : State) (tid : Nat) :
    s.oneInstruction tid = (body tid s).bind finish := by
  have hinstr : instruction tid s = (body tid >>= advance) s := by
    show (readMem tid (s.registers PCReg) 4 >>= fun raw => do
        let nextPC ← reg NextPCReg
        let n ← (decode raw).execute (nextPC + 4) tid
        advance n) s =
      ((readMem tid (s.registers PCReg) 4 >>= fun raw => do
        let nextPC ← reg NextPCReg
        (decode raw).execute (nextPC + 4) tid) >>= advance) s
    rw [bind_apply, bind_apply, bind_apply]
    cases readMem tid (s.registers PCReg) 4 s with
    | none => rfl
    | some x =>
        obtain ⟨r, s1⟩ := x
        cases r with
        | error trap => rfl
        | ok raw => rfl
  unfold oneInstruction
  rw [hinstr, bind_apply]
  cases body tid s with
  | none => rfl
  | some x =>
      obtain ⟨r, s1⟩ := x
      by_cases h : (s1.registers LoadReg).toNat < NumTotalRegs
      · cases r with
        | error trap => simp only [Option.bind_some, finish, raiseException_cases, if_pos h]
        | ok n => simp only [Option.bind_some, finish, advance_eq, if_pos h]
      · cases r with
        | error trap => simp only [Option.bind_some, finish, raiseException_cases, if_neg h]
        | ok n => simp only [Option.bind_some, finish, advance_eq, if_neg h]

/-- The `switch` starts with the fetched word. -/
theorem body_of_fetch {s s1 : State} {tid : Nat} {raw : Word}
    (h : readMem tid (s.registers PCReg) 4 s = some (.ok raw, s1)) :
    body tid s = (decode raw).execute (s1.registers NextPCReg + 4) tid s1 := by
  show (readMem tid (s.registers PCReg) 4 >>= fun raw => do
    let nextPC ← reg NextPCReg
    (decode raw).execute (nextPC + 4) tid) s = _
  rw [bind_apply, h]
  rfl

/-- An instruction that raises nothing has come to the end of the `switch`. -/
theorem completed_of_run {s s1 s' : State} {tid : Nat} {raw : Word}
    (hfetch : readMem tid (s.registers PCReg) 4 s = some (.ok raw, s1))
    (hrun : s.oneInstruction tid = some (none, s')) :
    ∃ n s2, (decode raw).execute (s1.registers NextPCReg + 4) tid s1 = some (.ok n, s2) ∧
      s' = s2.completed n := by
  rw [oneInstruction_eq, body_of_fetch hfetch] at hrun
  obtain ⟨⟨r, s2⟩, hexecute, hfinish⟩ := Option.bind_eq_some_iff.mp hrun
  cases r with
  | error trap =>
      simp only [finish] at hfinish
      split at hfinish <;> cases hfinish
  | ok n =>
      simp only [finish] at hfinish
      split at hfinish
      · cases hfinish
        exact ⟨n, s2, hexecute, rfl⟩
      · cases hfinish

/-! ## Registers after the two ends -/

variable {s : State}

/-- A delayed load into a general register leaves the other registers. -/
theorem loaded_special (hload : (s.registers LoadReg).toNat < NumGPRegs) {q : Register}
    (hq : NumGPRegs ≤ q.val) (hq1 : q ≠ LoadReg) (hq2 : q ≠ LoadValueReg)
    (nextReg nextValue : Word) : (s.loaded nextReg nextValue).registers q = s.registers q := by
  have hne : q.val ≠ (s.registers LoadReg).toNat := by omega
  show (if q = gp R0 then 0 else if q = LoadValueReg then nextValue
    else if q = LoadReg then nextReg
    else if q.val = (s.registers LoadReg).toNat then s.registers LoadValueReg
    else s.registers q) = _
  rw [if_neg (gp_ne_of_le hq).symm, if_neg hq2, if_neg hq1, if_neg hne]

theorem afterLoad_congr {s s' : State} (h : s'.registers = s.registers) (r : Fin NumGPRegs) :
    s'.afterLoad r = s.afterLoad r := by
  unfold afterLoad
  rw [h]

theorem registers_written (s : State) (r : Register) (value : Word) :
    (s.written r value).registers = update s.registers r value := rfl

theorem registers_completed (s : State) (n : Next) (q : Register) :
    (s.completed n).registers q =
      if q = NextPCReg then n.pcAfter
      else if q = PCReg then
        (s.loaded (BitVec.ofNat 32 n.nextLoadReg) n.nextLoadValue).registers NextPCReg
      else if q = PrevPCReg then
        (s.loaded (BitVec.ofNat 32 n.nextLoadReg) n.nextLoadValue).registers PCReg
      else (s.loaded (BitVec.ofNat 32 n.nextLoadReg) n.nextLoadValue).registers q := by
  unfold completed
  rw [registers_written, registers_written, registers_written, update_apply, update_apply,
    update_apply]

theorem completed_gp (s : State) (n : Next) (r : Fin NumGPRegs) :
    (s.completed n).registers (gp r) = s.afterLoad r := by
  rw [registers_completed, if_neg (gp_ne_of_le (by decide)), if_neg (gp_ne_of_le (by decide)),
    if_neg (gp_ne_of_le (by decide)), loaded_gp]

theorem completed_pc (hload : (s.registers LoadReg).toNat < NumGPRegs) (n : Next) :
    (s.completed n).registers PCReg = s.registers NextPCReg := by
  rw [registers_completed, if_neg (by decide), if_pos rfl]
  exact loaded_special hload (by decide) (by decide) (by decide) _ _

theorem completed_nextPC (s : State) (n : Next) :
    (s.completed n).registers NextPCReg = n.pcAfter := by
  rw [registers_completed, if_pos rfl]

theorem raised_gp (s : State) (trap : Trap) (r : Fin NumGPRegs) :
    (s.raised trap).registers (gp r) = s.afterLoad r := by
  have hsame : ∀ q : Register, q ≠ BadVAddrReg →
      (s.written BadVAddrReg trap.badVAddr).registers q = s.registers q := by
    intro q hq
    rw [registers_written, update_of_ne hq]
  unfold raised
  rw [loaded_gp]
  unfold afterLoad
  rw [hsame LoadReg (by decide), hsame LoadValueReg (by decide),
    hsame (gp r) (gp_ne_of_le (by decide))]

/-- An exception leaves the program counters, `Hi` and `Lo`. -/
theorem raised_special (hload : (s.registers LoadReg).toNat < NumGPRegs) {q : Register}
    (hq : NumGPRegs ≤ q.val) (hlt : q.val < LoadReg.val) (trap : Trap) :
    (s.raised trap).registers q = s.registers q := by
  have hne : ∀ r : Register, LoadReg.val ≤ r.val → q ≠ r := by
    intro r hr e
    exact absurd hlt (Nat.not_lt.mpr (e ▸ hr))
  have hload' : ((s.written BadVAddrReg trap.badVAddr).registers LoadReg).toNat < NumGPRegs := by
    rwa [registers_written, update_of_ne (by decide)]
  unfold raised
  rw [loaded_special hload' hq (hne _ (by decide)) (hne _ (by decide)), registers_written,
    update_of_ne (hne _ (by decide))]

end State

/-! ## The cases of the `switch` -/

/-- The registers from `PCReg` on are the same. -/
def SameControl (s s' : State) : Prop :=
  ∀ q : Register, PCReg.val ≤ q.val → s'.registers q = s.registers q

/-- A piece that writes no register from `PCReg` on. -/
def Controlled {α : Type} (p : Code α) : Prop :=
  ∀ s, Triple (SameControl s) p (fun _ => SameControl s) (fun _ => SameControl s)

/-- A case that writes no register from `PCReg` on and does not jump. -/
def Sequential (pcAfter : Word) (p : Code Next) : Prop :=
  ∀ s, Triple (SameControl s) p (fun n s' => n.pcAfter = pcAfter ∧ SameControl s s')
    (fun _ => SameControl s)

section Rules

variable {α β : Type} {p : Code α} {pcAfter : Word}

theorem Controlled.bind {f : α → Code β} (hp : Controlled p) (hf : ∀ a, Controlled (f a)) :
    Controlled (p >>= f) :=
  fun s => (hp s).bind fun a => hf a s

theorem Controlled.sequential {f : α → Code Next} (hp : Controlled p)
    (hf : ∀ a, Sequential pcAfter (f a)) : Sequential pcAfter (p >>= f) :=
  fun s => (hp s).bind fun a => hf a s

theorem controlled_pure (a : α) : Controlled (pure a : Code α) :=
  fun _ => Triple.pure fun _ h => h

theorem controlled_reg (r : Register) : Controlled (reg r) := by
  intro s s1 h1 res s2 hrun
  cases hrun
  exact h1

theorem controlled_setReg {r : Register} (hr : r.val < PCReg.val) (value : Word) :
    Controlled (setReg r value) := by
  intro s s1 h1 res s2 hrun
  cases hrun
  intro q hq
  have hne : q ≠ r := fun e => absurd hr (Nat.not_lt.mpr (e ▸ hq))
  exact (update_of_ne hne ..).trans (h1 q hq)

theorem controlled_setReg_gp (r : Fin NumGPRegs) (value : Word) :
    Controlled (setReg (gp r) value) :=
  controlled_setReg (Nat.lt_of_lt_of_le r.isLt (by decide)) value

theorem controlled_assert (b : Bool) : Controlled (Code.assert b) := by
  cases b with
  | true => exact controlled_pure ()
  | false => exact fun _ => Triple.crash

theorem controlled_readMem (tid : Nat) (addr : Word) (size : Nat) :
    Controlled (readMem tid addr size) := by
  intro s s1 h1 res s2 hrun
  simp only [readMem] at hrun
  split at hrun
  · cases hrun
  · cases hrun
    exact h1
  · obtain ⟨v, _, hv⟩ := Option.map_eq_some_iff.mp hrun
    cases hv
    exact h1

theorem controlled_writeMem (tid : Nat) (addr : Word) (size : Nat) (value : Word) :
    Controlled (writeMem tid addr size value) := by
  intro s s1 h1 res s2 hrun
  simp only [writeMem] at hrun
  split at hrun
  · cases hrun
  · cases hrun
    exact h1
  · obtain ⟨f, _, hf⟩ := Option.map_eq_some_iff.mp hrun
    cases hf
    exact h1

theorem sequential_pure {n : Next} (h : n.pcAfter = pcAfter) :
    Sequential pcAfter (pure n : Code Next) :=
  fun _ => Triple.pure fun _ hs => ⟨h, hs⟩

theorem sequential_raise (trap : Trap) : Sequential pcAfter (Exec.raise trap : Code Next) :=
  fun _ => Triple.raise fun _ hs => hs

theorem sequential_crash : Sequential pcAfter (Exec.crash : Code Next) :=
  fun _ => Triple.crash

/-- The end of a case that writes one register. -/
theorem sequential_result (r : Fin NumGPRegs) (value : Word) :
    Sequential pcAfter (do setReg (gp r) value; Instruction.next pcAfter : Code Next) :=
  (controlled_setReg_gp r value).sequential fun _ => sequential_pure rfl

end Rules

/-- The branches and jumps. -/
def OpCode.transfers : OpCode → Bool
  | .beq | .bne | .blez | .bgtz | .bltz | .bgez | .bltzal | .bgezal => true
  | .j | .jal | .jr | .jalr => true
  | _ => false

namespace Instruction

variable (i : Instruction) (pcAfter : Word) (tid : Nat)

theorem sequential_computeRd (f : Word → Word → Word) :
    Sequential pcAfter (i.computeRd pcAfter f) :=
  (controlled_reg _).sequential fun _ => (controlled_reg _).sequential fun _ =>
    sequential_result _ _

theorem sequential_computeRt (f : Word → Word → Word) :
    Sequential pcAfter (i.computeRt pcAfter f) :=
  (controlled_reg _).sequential fun _ => sequential_result _ _

theorem sequential_shiftRd (f : Word → Word → Word) :
    Sequential pcAfter (i.shiftRd pcAfter f) :=
  (controlled_reg _).sequential fun _ => sequential_result _ _

theorem sequential_move (source : Register) {target : Register} (h : target.val < PCReg.val) :
    Sequential pcAfter (move pcAfter source target) :=
  (controlled_reg _).sequential fun _ => (controlled_setReg h _).sequential fun _ =>
    sequential_pure rfl

theorem sequential_checkedRd (f : Word → Word → Word) (overflows : Word → Word → Word → Bool) :
    Sequential pcAfter (i.checkedRd pcAfter f overflows) := by
  refine (controlled_reg _).sequential fun rs => (controlled_reg _).sequential fun rt => ?_
  split
  · exact sequential_raise _
  · exact sequential_result _ _

theorem sequential_checkedRt : Sequential pcAfter (i.checkedRt pcAfter) := by
  refine (controlled_reg _).sequential fun rs => ?_
  show Sequential pcAfter (if _ then _ else _)
  split
  · exact sequential_raise _
  · exact sequential_result _ _

theorem sequential_setHiLo (f : Word → Word → Option (Word × Word)) :
    Sequential pcAfter (i.setHiLo pcAfter f) := by
  refine (controlled_reg _).sequential fun rs => (controlled_reg _).sequential fun rt => ?_
  cases f rs rt with
  | none => exact sequential_crash
  | some x =>
      exact (controlled_setReg (by decide) _).sequential fun _ =>
        (controlled_setReg (by decide) _).sequential fun _ => sequential_pure rfl

theorem controlled_address : Controlled i.address :=
  (controlled_reg _).bind fun _ => controlled_pure _

theorem controlled_forwarded : Controlled i.forwarded := by
  refine (controlled_reg _).bind fun target => ?_
  split <;> exact controlled_reg _

theorem sequential_load (size : Nat) (align : Word) (f : Word → Word) :
    Sequential pcAfter (i.load pcAfter tid size align f) := by
  refine i.controlled_address.sequential fun tmp => ?_
  split
  · exact sequential_raise _
  · exact (controlled_readMem _ _ _).sequential fun _ => sequential_pure rfl

theorem sequential_loadMerged (merge : Nat → Word → Word → Word) :
    Sequential pcAfter (i.loadMerged pcAfter tid merge) :=
  i.controlled_address.sequential fun _ => (controlled_assert _).sequential fun _ =>
    (controlled_readMem _ _ _).sequential fun _ => i.controlled_forwarded.sequential fun _ =>
      sequential_pure rfl

theorem sequential_store (size : Nat) : Sequential pcAfter (i.store pcAfter tid size) :=
  i.controlled_address.sequential fun _ => (controlled_reg _).sequential fun _ =>
    (controlled_writeMem _ _ _ _).sequential fun _ => sequential_pure rfl

theorem sequential_storeMerged (merge : Nat → Word → Word → Word) :
    Sequential pcAfter (i.storeMerged pcAfter tid merge) :=
  i.controlled_address.sequential fun _ => (controlled_assert _).sequential fun _ =>
    (controlled_readMem _ _ _).sequential fun _ => (controlled_reg _).sequential fun _ =>
      (controlled_writeMem _ _ _ _).sequential fun _ => sequential_pure rfl

/-- All instructions but the branches and jumps are sequential. -/
theorem sequential_execute (h : i.opCode.transfers = false) :
    Sequential pcAfter (i.execute pcAfter tid) := by
  unfold execute
  cases hop : i.opCode with
  | beq | bne | blez | bgtz | bltz | bgez | bltzal | bgezal | j | jal | jr | jalr =>
      rw [hop] at h
      cases h
  | add | sub => exact i.sequential_checkedRd pcAfter _ _
  | addi => exact i.sequential_checkedRt pcAfter
  | addiu | andi | ori | slti | sltiu | xori => exact i.sequential_computeRt pcAfter _
  | addu | and | nor | sllv | slt | sltu | srav | srlv | subu | xor =>
      exact i.sequential_computeRd pcAfter _
  | sll | sra | srl => exact i.sequential_shiftRd pcAfter _
  | lui => exact sequential_result _ _
  | or => exact (controlled_reg _).sequential fun _ => sequential_result _ _
  | div | divu | mult | multu => exact i.sequential_setHiLo pcAfter _
  | mfhi | mflo =>
      exact sequential_move pcAfter _ (Nat.lt_of_lt_of_le i.rd.isLt (by decide))
  | mthi | mtlo => exact sequential_move pcAfter _ (by decide)
  | lb | lbu | lh | lhu | lw => exact i.sequential_load pcAfter tid _ _ _
  | lwl | lwr => exact i.sequential_loadMerged pcAfter tid _
  | sb | sh | sw => exact i.sequential_store pcAfter tid _
  | swl | swr => exact i.sequential_storeMerged pcAfter tid _
  | syscall | unimp | res => exact sequential_raise _

end Instruction

end Nachos.Machine

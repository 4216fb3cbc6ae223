import Nachos.Machine.OneInstruction

/-!
# Instructions that end the simulator

A user instruction completes, or it raises an exception, or it ends the
simulator.  The last case is a failed `ASSERT` or an operation that the host
does not define.  There are three such places that a program can reach with
registers of its own choice: the `ASSERT` of `LWL`, `LWR`, `SWL` and `SWR` on the
address, and the quotient of `DIV` that does not fit in a word.  `Defined` is the
condition that keeps an instruction away from them.

The other places are never reached.  The `ASSERT` at the end of `Translate` holds
for every table (`translate_isSome`), and the `default` of the `switch` is not
reached by any instruction word (`caseOf_opNumber`).  The index of the delayed
load is in range in every state that instructions lead to.
-/

namespace Nachos.Machine

open Function Lib Lib.Exec Code

/-! ## The `default` of the `switch` -/

/-- The numbers `OP_ADD` to `OP_RES`. -/
def OpCode.number : OpCode → Nat
  | add => 1
  | addi => 2
  | addiu => 3
  | addu => 4
  | and => 5
  | andi => 6
  | beq => 7
  | bgez => 8
  | bgezal => 9
  | bgtz => 10
  | blez => 11
  | bltz => 12
  | bltzal => 13
  | bne => 14
  | div => 16
  | divu => 17
  | j => 18
  | jal => 19
  | jalr => 20
  | jr => 21
  | lb => 22
  | lbu => 23
  | lh => 24
  | lhu => 25
  | lui => 26
  | lw => 27
  | lwl => 28
  | lwr => 29
  | mfhi => 31
  | mflo => 32
  | mthi => 34
  | mtlo => 35
  | mult => 36
  | multu => 37
  | nor => 38
  | or => 39
  | ori => 40
  | sb => 42
  | sh => 43
  | sll => 44
  | sllv => 45
  | slt => 46
  | slti => 47
  | sltiu => 48
  | sltu => 49
  | sra => 50
  | srav => 51
  | srl => 52
  | srlv => 53
  | sub => 54
  | subu => 55
  | sw => 56
  | swl => 57
  | swr => 58
  | xor => 59
  | xori => 60
  | syscall => 61
  | unimp => 62
  | res => 63

def SPECIAL : Nat := 100

def BCOND : Nat := 101

/-- `OpInfo::opCode` as a number. -/
def TableCode.number : TableCode → Nat
  | op o => o.number
  | special => SPECIAL
  | bcond => BCOND

/-- `instr->opCode` after `Decode`, as a number. -/
def opNumber (value : Word) : Nat :=
  let opCode := (opTable.get ((tableField value 26).cast length_opTable)).1.number
  if opCode = SPECIAL then
    (specialTable.get ((tableField value 0).cast length_specialTable)).number
  else if opCode = BCOND then
    let i := value &&& 0x1f0000
    if i = 0 then OpCode.bltz.number
    else if i = 0x10000 then OpCode.bgez.number
    else if i = 0x100000 then OpCode.bltzal.number
    else if i = 0x110000 then OpCode.bgezal.number
    else OpCode.unimp.number
  else opCode

/-- The labels of the `switch`.  `none` is its `default`. -/
def caseOf : Nat → Option OpCode
  | 1 => some .add
  | 2 => some .addi
  | 3 => some .addiu
  | 4 => some .addu
  | 5 => some .and
  | 6 => some .andi
  | 7 => some .beq
  | 8 => some .bgez
  | 9 => some .bgezal
  | 10 => some .bgtz
  | 11 => some .blez
  | 12 => some .bltz
  | 13 => some .bltzal
  | 14 => some .bne
  | 16 => some .div
  | 17 => some .divu
  | 18 => some .j
  | 19 => some .jal
  | 20 => some .jalr
  | 21 => some .jr
  | 22 => some .lb
  | 23 => some .lbu
  | 24 => some .lh
  | 25 => some .lhu
  | 26 => some .lui
  | 27 => some .lw
  | 28 => some .lwl
  | 29 => some .lwr
  | 31 => some .mfhi
  | 32 => some .mflo
  | 34 => some .mthi
  | 35 => some .mtlo
  | 36 => some .mult
  | 37 => some .multu
  | 38 => some .nor
  | 39 => some .or
  | 40 => some .ori
  | 42 => some .sb
  | 43 => some .sh
  | 44 => some .sll
  | 45 => some .sllv
  | 46 => some .slt
  | 47 => some .slti
  | 48 => some .sltiu
  | 49 => some .sltu
  | 50 => some .sra
  | 51 => some .srav
  | 52 => some .srl
  | 53 => some .srlv
  | 54 => some .sub
  | 55 => some .subu
  | 56 => some .sw
  | 57 => some .swl
  | 58 => some .swr
  | 59 => some .xor
  | 60 => some .xori
  | 61 => some .syscall
  | 62 => some .unimp
  | 63 => some .res
  | _ => none

theorem caseOf_number (o : OpCode) : caseOf o.number = some o := by
  cases o <;> rfl

theorem number_lt (o : OpCode) : o.number < SPECIAL := by
  cases o <;> decide

/-- Every instruction word reaches the case of its op code. -/
theorem caseOf_opNumber (raw : Word) : caseOf (opNumber raw) = some (decode raw).opCode := by
  cases hrow : (opTable.get ((tableField raw 26).cast length_opTable)).1 with
  | op o =>
      have hspecial : o.number ≠ SPECIAL := Nat.ne_of_lt (number_lt o)
      have hbcond : o.number ≠ BCOND := Nat.ne_of_lt (Nat.lt_succ_of_lt (number_lt o))
      simp only [opNumber, decode, hrow, TableCode.number, if_neg hspecial, if_neg hbcond]
      exact caseOf_number o
  | special =>
      simp only [opNumber, decode, hrow, TableCode.number, if_true]
      exact caseOf_number _
  | bcond =>
      have hspecial : BCOND ≠ SPECIAL := by decide
      simp only [opNumber, decode, hrow, TableCode.number, if_neg hspecial, if_true]
      split
      · rfl
      split
      · rfl
      split
      · rfl
      split
      · rfl
      · rfl

/-! ## The `ASSERT` of `Translate` -/

/-- `Translate` returns for every table. -/
theorem translate_isSome (m : Memory) (tid : Nat) (addr : Word) {size : Nat}
    (hsize : size = 1 ∨ size = 2 ∨ size = 4) (writing : Bool) :
    ∃ r, m.translate tid addr size writing = some r := by
  simp only [Memory.translate]
  split
  · exact ⟨_, rfl⟩
  · rename_i halign
    split
    · exact ⟨_, rfl⟩
    · rename_i i _
      split
      · exact ⟨_, rfl⟩
      · split
        · exact ⟨_, rfl⟩
        · rename_i hframe
          have hoffset := Memory.offset_le_of_aligned hsize (Bool.eq_false_of_not_eq_true halign)
          have hle : (m.rtPageTable i).physicalPage * PageSize + addr.toNat % PageSize + size ≤
              MemorySize := by
            simp only [MemorySize, NumPhysPages, PageSize, SectorSize] at hframe hoffset ⊢
            omega
          rw [if_pos hle]
          exact ⟨_, rfl⟩

/-! ## Pieces that return or raise -/

/-- The piece ends in every state. -/
def Runs {α : Type} (p : Code α) : Prop := ∀ s, ∃ r, p s = some r

section Rules

variable {α β : Type} {p : Code α}

theorem Runs.bind {f : α → Code β} (hp : Runs p) (hf : ∀ a, Runs (f a)) : Runs (p >>= f) := by
  intro s
  obtain ⟨⟨r, s1⟩, hmid⟩ := hp s
  rw [bind_apply, hmid]
  cases r with
  | error e => exact ⟨_, rfl⟩
  | ok a => exact hf a s1

theorem runs_pure (a : α) : Runs (pure a : Code α) := fun _ => ⟨_, rfl⟩

theorem runs_raise (trap : Trap) : Runs (Exec.raise trap : Code α) := fun _ => ⟨_, rfl⟩

theorem runs_reg (r : Register) : Runs (reg r) := fun _ => ⟨_, rfl⟩

theorem runs_setReg (r : Register) (value : Word) : Runs (setReg r value) := fun _ => ⟨_, rfl⟩

theorem runs_readMem (tid : Nat) (addr : Word) {size : Nat}
    (hsize : size = 1 ∨ size = 2 ∨ size = 4) : Runs (readMem tid addr size) := by
  intro s
  obtain ⟨r, hr⟩ := translate_isSome s.memory tid addr hsize false
  simp only [readMem, hr]
  cases r with
  | error e => exact ⟨_, rfl⟩
  | ok x =>
      obtain ⟨physicalAddress, m⟩ := x
      obtain ⟨v, hv⟩ := Memory.readValue_isSome m.mainMemory.get physicalAddress hsize
      exact ⟨_, congrArg (Option.map _) hv⟩

theorem runs_writeMem (tid : Nat) (addr : Word) {size : Nat}
    (hsize : size = 1 ∨ size = 2 ∨ size = 4) (value : Word) :
    Runs (writeMem tid addr size value) := by
  intro s
  obtain ⟨r, hr⟩ := translate_isSome s.memory tid addr hsize true
  simp only [writeMem, hr]
  cases r with
  | error e => exact ⟨_, rfl⟩
  | ok x => exact ⟨_, congrArg (Option.map _) (Memory.writeValue_eq _ _ _ hsize)⟩

end Rules

/-! ## The instructions -/

namespace Instruction

/-- The operands for which the instruction stays away from the `ASSERT` on its
address and from the quotient that does not fit. -/
def Defined (i : Instruction) (s : State) : Prop :=
  match i.opCode with
  | .lwl | .lwr | .swl | .swr => (s.registers (gp i.rs) + i.extra) &&& 0x3 = 0
  | .div => ¬(s.registers (gp i.rs) = signBit ∧ s.registers (gp i.rt) = -1)
  | _ => True

section Families

variable (i : Instruction) (pcAfter : Word) (tid : Nat)

theorem runs_result (r : Register) (value : Word) :
    Runs (do setReg r value; next pcAfter : Code Next) :=
  (runs_setReg r value).bind fun _ => runs_pure _

theorem runs_computeRd (f : Word → Word → Word) : Runs (i.computeRd pcAfter f) :=
  (runs_reg _).bind fun _ => (runs_reg _).bind fun _ => runs_result _ _ _

theorem runs_computeRt (f : Word → Word → Word) : Runs (i.computeRt pcAfter f) :=
  (runs_reg _).bind fun _ => runs_result _ _ _

theorem runs_shiftRd (f : Word → Word → Word) : Runs (i.shiftRd pcAfter f) :=
  (runs_reg _).bind fun _ => runs_result _ _ _

theorem runs_move (source target : Register) : Runs (move pcAfter source target) :=
  (runs_reg _).bind fun _ => runs_result _ _ _

theorem runs_checkedRd (f : Word → Word → Word) (overflows : Word → Word → Word → Bool) :
    Runs (i.checkedRd pcAfter f overflows) := by
  refine (runs_reg _).bind fun rs => (runs_reg _).bind fun rt => ?_
  split
  · exact runs_raise _
  · exact runs_result _ _ _

theorem runs_checkedRt : Runs (i.checkedRt pcAfter) := by
  refine (runs_reg _).bind fun rs => ?_
  show Runs (if _ then _ else _)
  split
  · exact runs_raise _
  · exact runs_result _ _ _

theorem runs_branchRsRt (taken : Word → Word → Bool) : Runs (i.branchRsRt pcAfter taken) :=
  (runs_reg _).bind fun _ => (runs_reg _).bind fun _ => (runs_reg _).bind fun _ => runs_pure _

theorem runs_branchRs (taken : Word → Bool) : Runs (i.branchRs pcAfter taken) :=
  (runs_reg _).bind fun _ => (runs_reg _).bind fun _ => runs_pure _

theorem runs_link (r : Fin NumGPRegs) : Runs (link r) :=
  (runs_reg _).bind fun _ => runs_setReg _ _

theorem runs_jumpRegister : Runs i.jumpRegister :=
  (runs_reg _).bind fun _ => runs_pure _

theorem runs_address : Runs i.address :=
  (runs_reg _).bind fun _ => runs_pure _

theorem runs_forwarded : Runs i.forwarded := by
  refine (runs_reg _).bind fun target => ?_
  split
  · exact runs_reg _
  · exact runs_reg _

theorem runs_load {size : Nat} (hsize : size = 1 ∨ size = 2 ∨ size = 4) (align : Word)
    (f : Word → Word) : Runs (i.load pcAfter tid size align f) := by
  refine i.runs_address.bind fun tmp => ?_
  split
  · exact runs_raise _
  · exact (runs_readMem tid _ hsize).bind fun _ => runs_pure _

theorem runs_store {size : Nat} (hsize : size = 1 ∨ size = 2 ∨ size = 4) :
    Runs (i.store pcAfter tid size) :=
  i.runs_address.bind fun _ => (runs_reg _).bind fun _ =>
    (runs_writeMem tid _ hsize _).bind fun _ => runs_pure _

/-- A failed `ASSERT` is the end. -/
theorem assert_bind_isSome {f : Unit → Code Next} (hf : Runs (f ())) (b : Bool) (s : State) :
    (∃ r, (Code.assert b >>= f) s = some r) ↔ b = true := by
  cases b with
  | true => exact ⟨fun _ => rfl, fun _ => hf s⟩
  | false =>
      constructor
      · rintro ⟨r, hr⟩
        cases hr
      · intro h
        cases h

theorem loadMerged_isSome (merge : Nat → Word → Word → Word) (s : State) :
    (∃ r, i.loadMerged pcAfter tid merge s = some r) ↔
      (s.registers (gp i.rs) + i.extra) &&& 0x3 = 0 := by
  have hrest := (runs_readMem tid (s.registers (gp i.rs) + i.extra) (.inr (.inr rfl))).bind
    fun value => i.runs_forwarded.bind fun old =>
      runs_pure (Next.mk pcAfter i.rt
        (merge ((s.registers (gp i.rs) + i.extra) &&& 0x3).toNat old value))
  exact (assert_bind_isSome hrest _ s).trans beq_iff_eq

theorem storeMerged_isSome (merge : Nat → Word → Word → Word) (s : State) :
    (∃ r, i.storeMerged pcAfter tid merge s = some r) ↔
      (s.registers (gp i.rs) + i.extra) &&& 0x3 = 0 := by
  have hrest := (runs_readMem tid ((s.registers (gp i.rs) + i.extra) &&& ~~~0x3)
    (.inr (.inr rfl))).bind fun value => (runs_reg (gp i.rt)).bind fun rt =>
      (runs_writeMem tid ((s.registers (gp i.rs) + i.extra) &&& ~~~0x3) (.inr (.inr rfl))
        (merge ((s.registers (gp i.rs) + i.extra) &&& 0x3).toNat value rt)).bind fun _ =>
          runs_pure (Next.mk pcAfter R0 0)
  exact (assert_bind_isSome hrest _ s).trans beq_iff_eq

theorem setHiLo_isSome (f : Word → Word → Option (Word × Word)) (s : State) :
    (∃ r, i.setHiLo pcAfter f s = some r) ↔
      (f (s.registers (gp i.rs)) (s.registers (gp i.rt))).isSome = true := by
  simp only [setHiLo, bind_apply, Code.reg]
  cases f (s.registers (gp i.rs)) (s.registers (gp i.rt)) with
  | none =>
      constructor
      · rintro ⟨r, hr⟩
        cases hr
      · intro h
        cases h
  | some x => exact ⟨fun _ => rfl, fun _ => ⟨_, rfl⟩⟩

end Families

/-- An instruction ends exactly when its operands are as `Defined` says. -/
theorem execute_isSome (i : Instruction) (pcAfter : Word) (tid : Nat) (s : State) :
    (∃ r, i.execute pcAfter tid s = some r) ↔ i.Defined s := by
  unfold execute Defined
  cases hop : i.opCode with
  | lwl | lwr => exact i.loadMerged_isSome pcAfter tid _ s
  | swl | swr => exact i.storeMerged_isSome pcAfter tid _ s
  | div =>
      refine (i.setHiLo_isSome pcAfter _ s).trans ?_
      split
      · rename_i hzero
        rw [hzero]
        exact ⟨fun _ h => absurd h.2 (by decide), fun _ => rfl⟩
      · split
        · rename_i hboth
          exact ⟨fun h => (nomatch h), fun h => absurd hboth h⟩
        · rename_i hboth
          exact ⟨fun _ => hboth, fun _ => rfl⟩
  | divu =>
      refine iff_true_intro ((i.setHiLo_isSome pcAfter _ s).mpr ?_)
      split <;> rfl
  | mult | multu => exact iff_true_intro ((i.setHiLo_isSome pcAfter _ s).mpr rfl)
  | add | sub => exact iff_true_intro (i.runs_checkedRd pcAfter _ _ s)
  | addi => exact iff_true_intro (i.runs_checkedRt pcAfter s)
  | addiu | andi | ori | slti | sltiu | xori =>
      exact iff_true_intro (i.runs_computeRt pcAfter _ s)
  | addu | and | nor | sllv | slt | sltu | srav | srlv | subu | xor =>
      exact iff_true_intro (i.runs_computeRd pcAfter _ s)
  | sll | sra | srl => exact iff_true_intro (i.runs_shiftRd pcAfter _ s)
  | lui => exact iff_true_intro (runs_result pcAfter _ _ s)
  | or => exact iff_true_intro (((runs_reg _).bind fun _ => runs_result pcAfter _ _) s)
  | mfhi | mflo | mthi | mtlo => exact iff_true_intro (runs_move pcAfter _ _ s)
  | beq | bne => exact iff_true_intro (i.runs_branchRsRt pcAfter _ s)
  | bgez | bgtz | blez | bltz => exact iff_true_intro (i.runs_branchRs pcAfter _ s)
  | bgezal | bltzal =>
      exact iff_true_intro (((runs_link _).bind fun _ => i.runs_branchRs pcAfter _) s)
  | j => exact iff_true_intro (runs_pure _ s)
  | jal => exact iff_true_intro (((runs_link _).bind fun _ => runs_pure _) s)
  | jr => exact iff_true_intro (i.runs_jumpRegister s)
  | jalr => exact iff_true_intro (((runs_link _).bind fun _ => i.runs_jumpRegister) s)
  | lb | lbu => exact iff_true_intro (i.runs_load pcAfter tid (.inl rfl) _ _ s)
  | lh | lhu => exact iff_true_intro (i.runs_load pcAfter tid (.inr (.inl rfl)) _ _ s)
  | lw => exact iff_true_intro (i.runs_load pcAfter tid (.inr (.inr rfl)) _ _ s)
  | sb => exact iff_true_intro (i.runs_store pcAfter tid (.inl rfl) s)
  | sh => exact iff_true_intro (i.runs_store pcAfter tid (.inr (.inl rfl)) s)
  | sw => exact iff_true_intro (i.runs_store pcAfter tid (.inr (.inr rfl)) s)
  | syscall | unimp | res => exact iff_true_intro (runs_raise _ s)

theorem controlled_branch (i : Instruction) (pcAfter : Word) (taken : Bool) :
    Controlled (i.branch pcAfter taken) :=
  (controlled_reg _).bind fun _ => controlled_pure _

theorem controlled_link (r : Fin NumGPRegs) : Controlled (link r) :=
  (controlled_reg _).bind fun _ => controlled_setReg_gp _ _

theorem controlled_jumpRegister (i : Instruction) : Controlled i.jumpRegister :=
  (controlled_reg _).bind fun _ => controlled_pure _

/-- No case of the `switch` writes the registers from `PCReg` on. -/
theorem controlled_execute (i : Instruction) (pcAfter : Word) (tid : Nat) :
    Controlled (i.execute pcAfter tid) := by
  cases htransfers : i.opCode.transfers with
  | false =>
      intro s
      exact (i.sequential_execute pcAfter tid htransfers s).mono (fun _ h => h)
        (fun _ _ h => h.2) (fun _ _ h => h)
  | true =>
      unfold execute
      cases hop : i.opCode with
      | beq | bne =>
          exact (controlled_reg _).bind fun _ => (controlled_reg _).bind fun _ =>
            i.controlled_branch pcAfter _
      | bgez | bgtz | blez | bltz =>
          exact (controlled_reg _).bind fun _ => i.controlled_branch pcAfter _
      | bgezal | bltzal =>
          exact (controlled_link _).bind fun _ => (controlled_reg _).bind fun _ =>
            i.controlled_branch pcAfter _
      | j => exact controlled_pure _
      | jal => exact (controlled_link _).bind fun _ => controlled_pure _
      | jr => exact i.controlled_jumpRegister
      | jalr => exact (controlled_link _).bind fun _ => i.controlled_jumpRegister
      | _ =>
          rw [hop] at htransfers
          cases htransfers

end Instruction

/-! ## `OneInstruction` -/

namespace State

/-- The simulator goes on after the instruction.  It comes back, with or without
an exception, and the `switch` has a case for the fetched word. -/
structure Survives (s : State) (tid : Nat) : Prop where
  returns : ∃ raised s', s.oneInstruction tid = some (raised, s')
  handled : ∀ raw s1, readMem tid (s.registers PCReg) 4 s = some (.ok raw, s1) →
    caseOf (opNumber raw) ≠ none

theorem finish_isSome (r : Except Trap Next) (s : State) :
    (∃ x, finish (r, s) = some x) ↔ (s.registers LoadReg).toNat < NumTotalRegs := by
  cases r with
  | error trap | ok n =>
      simp only [finish]
      split
      · rename_i hindex
        exact ⟨fun _ => hindex, fun _ => ⟨_, rfl⟩⟩
      · rename_i hindex
        constructor
        · rintro ⟨_, h⟩
          cases h
        · intro h
          exact absurd h hindex

theorem controlled_body (tid : Nat) : Controlled (body tid) :=
  (controlled_reg _).bind fun _ => (controlled_readMem _ _ _).bind fun _ =>
    (controlled_reg _).bind fun _ => Instruction.controlled_execute _ _ _

/-- The two ends need the index of the delayed load only. -/
theorem oneInstruction_isSome (s : State) (tid : Nat) :
    (∃ raised s', s.oneInstruction tid = some (raised, s')) ↔
      (s.registers LoadReg).toNat < NumTotalRegs ∧ ∃ x, body tid s = some x := by
  rw [oneInstruction_eq]
  cases hbody : body tid s with
  | none =>
      constructor
      · rintro ⟨raised, s', h⟩
        cases h
      · rintro ⟨_, x, h⟩
        cases h
  | some x =>
      obtain ⟨r, s2⟩ := x
      have hsame : SameControl s s2 := by
        have h := controlled_body tid s s (fun _ _ => rfl) r s2 hbody
        cases r with
        | error trap => exact h
        | ok n => exact h
      rw [Option.bind_some, ← hsame LoadReg (by decide), ← finish_isSome r s2]
      constructor
      · rintro ⟨raised, s', h⟩
        exact ⟨⟨_, h⟩, _, rfl⟩
      · rintro ⟨⟨⟨raised, s'⟩, h⟩, _⟩
        exact ⟨raised, s', h⟩

/-- The `switch` ends exactly when the operands of the fetched instruction are as
`Instruction.Defined` says. -/
theorem body_isSome (s : State) (tid : Nat) :
    (∃ x, body tid s = some x) ↔
      ∀ raw s1, readMem tid (s.registers PCReg) 4 s = some (.ok raw, s1) →
        (decode raw).Defined s := by
  obtain ⟨⟨r, s1⟩, hfetch⟩ := runs_readMem tid (s.registers PCReg) (.inr (.inr rfl)) s
  cases r with
  | error trap =>
      have hbody : body tid s = some (.error trap, s1) := by
        show (readMem tid (s.registers PCReg) 4 >>= _) s = _
        rw [bind_apply, hfetch]
      rw [hbody, hfetch]
      exact ⟨fun _ raw s2 h => (nomatch h), fun _ => ⟨_, rfl⟩⟩
  | ok raw =>
      have hdefined : (decode raw).Defined s1 ↔ (decode raw).Defined s := by
        unfold Instruction.Defined
        rw [readMem_registers hfetch]
      rw [body_of_fetch hfetch, Instruction.execute_isSome, hdefined, hfetch]
      constructor
      · intro h raw' s2 hsame
        cases hsame
        exact h
      · intro h
        exact h raw s1 rfl

/-- The simulator goes on exactly when the delayed load has a register to go to
and the operands of the fetched instruction are as `Instruction.Defined` says. -/
theorem survives_iff (s : State) (tid : Nat) :
    s.Survives tid ↔ (s.registers LoadReg).toNat < NumTotalRegs ∧
      ∀ raw s1, readMem tid (s.registers PCReg) 4 s = some (.ok raw, s1) →
        (decode raw).Defined s := by
  rw [← body_isSome, ← oneInstruction_isSome]
  constructor
  · intro h
    exact h.returns
  · intro h
    refine ⟨h, fun raw s1 _ hdefault => ?_⟩
    rw [caseOf_opNumber] at hdefault
    cases hdefault

/-- `lwl $3, 0($1)`. -/
def lwlWord : Word := 0x88230000

/-- `swr $2, 0($1)`. -/
def swrWord : Word := 0xb8220000

/-- `div $1, $2`. -/
def divWord : Word := 0x0022001a

/-- A left load and a right store at the address 1, and the division of the
smallest word by -1. -/
theorem instruction_ends_simulator :
    ¬(AluOp.atInstruction lwlWord 1 0).Survives 1 ∧
    ¬(AluOp.atInstruction swrWord 1 0).Survives 1 ∧
    ¬(AluOp.atInstruction divWord signBit (-1)).Survives 1 := by
  have hends : ∀ s : State, s.outcome PCReg = none → ¬s.Survives 1 := by
    intro s h hs
    obtain ⟨raised, s', hrun⟩ := hs.returns
    rw [outcome, hrun] at h
    cases h
  exact ⟨hends _ (by decide +kernel), hends _ (by decide +kernel), hends _ (by decide +kernel)⟩

end State

end Nachos.Machine

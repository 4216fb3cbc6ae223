import Nachos.Machine.OneInstruction

/-!
# The instructions with an overflow trap

`ADD`, `ADDI` and `SUB` compute in 32 bits and compare sign bits afterwards.
Each has a test of its own: `ADD` compares the signs of the operands and then
the sum with `rs`, `ADDI` compares the sum with the immediate operand, and `SUB`
asks for operands of different signs.  `overflows_iff` says that each test finds
exactly the results that do not fit in a word.

`Follows` is what the instruction does as a whole.  A delayed load that is
pending is completed in both cases, after the result has been written or before
the handler is called.  So the result does not reach a destination that awaits a
load, and an exception changes such a destination.
-/

namespace Nachos.Machine

open Function Lib Lib.Exec Code

/-! ## The architecture -/

inductive CheckedOp where
  | add | addi | sub
  deriving DecidableEq, Repr

namespace CheckedOp

def encoding : CheckedOp → Encoding
  | add => .special ⟨0x20, by decide⟩
  | addi => .immediate ⟨0x08, by decide⟩
  | sub => .special ⟨0x22, by decide⟩

/-- The word is an instruction of this kind. -/
def Encodes (op : CheckedOp) (raw : Word) : Prop := op.encoding.Matches raw

def destination (op : CheckedOp) (raw : Word) : Fin NumGPRegs := op.encoding.destination raw

/-- The sum or difference of the operands as integers. -/
def value (op : CheckedOp) (rs rt raw : Word) : Int :=
  match op with
  | add => rs.toInt + rt.toInt
  | addi => rs.toInt + (immediate raw).toInt
  | sub => rs.toInt - rt.toInt

/-- The value with the operands in the registers. -/
def valueIn (op : CheckedOp) (s : State) (raw : Word) : Int :=
  op.value (s.registers (gp (regField raw 21))) (s.registers (gp (regField raw 16))) raw

/-! ## The simulator -/

def opCode : CheckedOp → OpCode
  | add => .add
  | addi => .addi
  | sub => .sub

/-- `sum` and `diff`. -/
def compute (op : CheckedOp) (rs rt extra : Word) : Word :=
  match op with
  | add => rs + rt
  | addi => rs + extra
  | sub => rs - rt

/-- The test before the register is written. -/
def overflows (op : CheckedOp) (rs rt extra : Word) : Bool :=
  match op with
  | add => (rs ^^^ rt) &&& signBit == 0 && (rs ^^^ (rs + rt)) &&& signBit != 0
  | addi => (rs ^^^ extra) &&& signBit == 0 && (extra ^^^ (rs + extra)) &&& signBit != 0
  | sub => (rs ^^^ rt) &&& signBit != 0 && (rs ^^^ (rs - rt)) &&& signBit != 0

/-- The `switch` in the cases of this module. -/
theorem execute_eq (op : CheckedOp) {i : Instruction} (h : i.opCode = op.opCode) (pcAfter : Word)
    (tid : Nat) (s : State) :
    i.execute pcAfter tid s =
      if op.overflows (s.registers (gp i.rs)) (s.registers (gp i.rt)) i.extra then
        some (.error ⟨.overflowException, 0⟩, s)
      else some (.ok { pcAfter := pcAfter }, s.written (gp (op.encoding.target i))
        (op.compute (s.registers (gp i.rs)) (s.registers (gp i.rt)) i.extra)) := by
  unfold Instruction.execute
  rw [h]
  cases op with
  | add | sub =>
      show (if _ then _ else _ : Code Next) s = _
      unfold overflows
      split <;> rfl
  | addi =>
      show (if _ then _ else _ : Code Next) s = _
      simp only [overflows, Bool.and_eq_true, beq_iff_eq, bne_iff_ne]
      split <;> rfl

theorem code_encoding (op : CheckedOp) : op.encoding.code = .op op.opCode := by
  cases op <;> rfl

theorem extra_addi {raw : Word} (h : addi.Encodes raw) :
    (decode raw).extra = (immediate raw).signExtend 32 := by
  have hop : tableField raw 26 = 0x08 := h
  apply AluOp.extra_of_ifmt
  rw [hop]
  rfl

/-! ## The tests -/

theorem inInt_add_iff (x y : Word) : InInt (x.toInt + y.toInt) ↔ x.saddOverflow y = false := by
  unfold BitVec.saddOverflow InInt
  rw [Bool.or_eq_false_iff, decide_eq_false_iff_not, decide_eq_false_iff_not]
  omega

theorem inInt_sub_iff (x y : Word) : InInt (x.toInt - y.toInt) ↔ x.ssubOverflow y = false := by
  unfold BitVec.ssubOverflow InInt
  rw [Bool.or_eq_false_iff, decide_eq_false_iff_not, decide_eq_false_iff_not]
  omega

/-- Equal signs of the operands, and another sign of the sum. -/
theorem saddOverflow_iff (x y : Word) :
    x.saddOverflow y = true ↔ x.msb = y.msb ∧ ¬x.msb = (x + y).msb := by
  rw [BitVec.saddOverflow_eq]
  cases x.msb <;> cases y.msb <;> cases (x + y).msb <;> decide

/-- Different signs of the operands, and the sign of `x` is lost. -/
theorem ssubOverflow_iff (x y : Word) :
    x.ssubOverflow y = true ↔ ¬x.msb = y.msb ∧ ¬x.msb = (x - y).msb := by
  rw [BitVec.ssubOverflow_eq]
  cases x.msb <;> cases y.msb <;> cases (x - y).msb <;> decide

theorem xor_signBit_eq_zero (x y : Word) : (x ^^^ y) &&& signBit = 0 ↔ x.msb = y.msb := by
  rw [and_signBit_eq_zero, BitVec.msb_xor]
  cases x.msb <;> cases y.msb <;> decide

/-- The test finds exactly the results that do not fit. -/
theorem overflows_iff {op : CheckedOp} {raw : Word} (h : op.Encodes raw) (rs rt : Word) :
    op.overflows rs rt (decode raw).extra = true ↔ ¬InInt (op.value rs rt raw) := by
  cases op with
  | add =>
      show ((rs ^^^ rt) &&& signBit == 0 && (rs ^^^ (rs + rt)) &&& signBit != 0) = true ↔
        ¬InInt (rs.toInt + rt.toInt)
      rw [inInt_add_iff, Bool.not_eq_false, saddOverflow_iff, Bool.and_eq_true, beq_iff_eq,
        bne_iff_ne, Ne, xor_signBit_eq_zero, xor_signBit_eq_zero]
  | addi =>
      rw [extra_addi h]
      have himm : (immediate raw).toInt = ((immediate raw).signExtend 32).toInt :=
        (BitVec.toInt_signExtend_of_le (by decide)).symm
      show ((rs ^^^ _) &&& signBit == 0 && (_ ^^^ (rs + _)) &&& signBit != 0) = true ↔
        ¬InInt (rs.toInt + (immediate raw).toInt)
      rw [himm, inInt_add_iff, Bool.not_eq_false, saddOverflow_iff, Bool.and_eq_true, beq_iff_eq,
        bne_iff_ne, Ne, xor_signBit_eq_zero, xor_signBit_eq_zero]
      -- the signs of the operands are equal, so it does not matter which is compared
      constructor
      all_goals
        rintro ⟨hsame, hsum⟩
        exact ⟨hsame, fun e => hsum (hsame ▸ e)⟩
  | sub =>
      show ((rs ^^^ rt) &&& signBit != 0 && (rs ^^^ (rs - rt)) &&& signBit != 0) = true ↔
        ¬InInt (rs.toInt - rt.toInt)
      rw [inInt_sub_iff, Bool.not_eq_false, ssubOverflow_iff, Bool.and_eq_true, bne_iff_ne,
        bne_iff_ne, Ne, Ne, xor_signBit_eq_zero, xor_signBit_eq_zero]

/-- A result that fits is exact. -/
theorem toInt_compute {op : CheckedOp} {raw : Word} (h : op.Encodes raw) {rs rt : Word}
    (hfits : InInt (op.value rs rt raw)) :
    (op.compute rs rt (decode raw).extra).toInt = op.value rs rt raw := by
  cases op with
  | add =>
      apply BitVec.toInt_add_of_not_saddOverflow
      rw [(inInt_add_iff rs rt).mp hfits]
      decide
  | addi =>
      rw [extra_addi h]
      have himm : (immediate raw).toInt = ((immediate raw).signExtend 32).toInt :=
        (BitVec.toInt_signExtend_of_le (by decide)).symm
      have hsum : InInt (rs.toInt + (immediate raw).toInt) := hfits
      show (rs + (immediate raw).signExtend 32).toInt = rs.toInt + (immediate raw).toInt
      rw [himm] at hsum ⊢
      apply BitVec.toInt_add_of_not_saddOverflow
      rw [(inInt_add_iff _ _).mp hsum]
      decide
  | sub =>
      apply BitVec.toInt_sub_of_not_ssubOverflow
      rw [(inInt_sub_iff rs rt).mp hfits]
      decide

end CheckedOp

/-! ## `OneInstruction` -/

/-- What the instruction does.  `raised` is its exception, and `s'` the state at
its end or at the call of the handler. -/
structure CheckedOp.Follows (op : CheckedOp) (raw : Word) (s : State) (raised : Option Trap)
    (s' : State) : Prop where
  raises : raised = if InInt (op.valueIn s raw) then none else some ⟨.overflowException, 0⟩
  /-- The program counters stay, and the general registers have changed by the
  pending delayed load only. -/
  trapped : ¬InInt (op.valueIn s raw) →
    s'.registers PCReg = s.registers PCReg ∧ s'.registers NextPCReg = s.registers NextPCReg ∧
      ∀ r, s'.registers (gp r) = s.afterLoad r
  /-- The result is exact where it arrives. -/
  result : InInt (op.valueIn s raw) → op.destination raw ≠ R0 →
    s.registers LoadReg ≠ BitVec.ofNat 32 (op.destination raw) →
      (s'.registers (gp (op.destination raw))).toInt = op.valueIn s raw
  /-- It does not arrive in register 0 or in a register that awaits a load. -/
  others : InInt (op.valueIn s raw) → ∀ r, r ≠ op.destination raw ∨ r = R0 ∨
    s.registers LoadReg = BitVec.ofNat 32 r → s'.registers (gp r) = s.afterLoad r
  counters : InInt (op.valueIn s raw) →
    s'.registers PCReg = s.registers NextPCReg ∧
      s'.registers NextPCReg = s.registers NextPCReg + 4

namespace CheckedOp

variable {op : CheckedOp} {raw : Word} {s s1 : State} {tid : Nat}

/-- **The overflow trap is exact**, and the result is, up to the delayed load. -/
theorem overflow_trap_exact (hload : (s.registers LoadReg).toNat < NumGPRegs)
    (hfetch : readMem tid (s.registers PCReg) 4 s = some (.ok raw, s1)) (hop : op.Encodes raw) :
    ∃ raised s', s.oneInstruction tid = some (raised, s') ∧ op.Follows raw s raised s' := by
  have hregs := State.readMem_registers hfetch
  have hload1 : (s1.registers LoadReg).toNat < NumGPRegs := hregs ▸ hload
  have htest : op.overflows (s1.registers (gp (decode raw).rs)) (s1.registers (gp (decode raw).rt))
      (decode raw).extra = true ↔ ¬InInt (op.valueIn s raw) := by
    rw [hregs]
    exact overflows_iff hop _ _
  rw [State.oneInstruction_eq, State.body_of_fetch hfetch,
    op.execute_eq (Encoding.opCode_decode hop op.code_encoding),
    show op.encoding.target (decode raw) = op.destination raw from Encoding.target_decode _ _]
  by_cases hfits : InInt (op.valueIn s raw)
  · rw [if_neg (fun h => htest.mp h hfits), Option.bind_some]
    have hvalue : (op.compute (s1.registers (gp (decode raw).rs))
        (s1.registers (gp (decode raw).rt)) (decode raw).extra).toInt = op.valueIn s raw := by
      rw [hregs]
      exact toInt_compute hop hfits
    generalize op.compute _ _ _ = v at hvalue ⊢
    have hload2 : ((s1.written (gp (op.destination raw)) v).registers LoadReg).toNat <
        NumGPRegs := by
      rwa [State.registers_written, update_of_ne (State.gp_ne_of_le (by decide)).symm]
    have hnextPC : (s1.written (gp (op.destination raw)) v).registers NextPCReg =
        s.registers NextPCReg := by
      rw [State.registers_written, update_of_ne (State.gp_ne_of_le (by decide)).symm, hregs]
    refine ⟨none, _, if_pos (Nat.lt_trans hload2 (by decide)), ?_⟩
    constructor
    case raises => rw [if_pos hfits]
    case trapped => exact fun h => absurd hfits h
    case result =>
      intro _ h0 hpending
      rw [State.completed_gp, State.afterLoad_written, hregs, if_neg h0, if_neg hpending,
        if_pos rfl]
      exact hvalue
    case others =>
      intro _ r hr
      rw [State.completed_gp, State.afterLoad_written, hregs]
      unfold State.afterLoad
      by_cases h0 : r = R0
      · rw [if_pos h0, if_pos h0]
      · rw [if_neg h0, if_neg h0]
        by_cases hpending : s.registers LoadReg = BitVec.ofNat 32 r
        · rw [if_pos hpending, if_pos hpending]
        · rw [if_neg hpending, if_neg hpending]
          rcases hr with hr | hr | hr
          · rw [if_neg hr]
          · exact absurd hr h0
          · exact absurd hr hpending
    case counters =>
      intro _
      rw [State.completed_pc hload2, State.completed_nextPC, hnextPC, hregs]
      exact ⟨rfl, rfl⟩
  · rw [if_pos (htest.mpr hfits), Option.bind_some]
    refine ⟨some ⟨.overflowException, 0⟩, s1.raised ⟨.overflowException, 0⟩,
      if_pos (Nat.lt_trans hload1 (by decide)), ?_⟩
    constructor
    case raises => rw [if_neg hfits]
    case trapped =>
      intro _
      rw [State.raised_special hload1 (by decide) (by decide),
        State.raised_special hload1 (by decide) (by decide), hregs]
      refine ⟨rfl, rfl, fun r => ?_⟩
      rw [State.raised_gp, State.afterLoad_congr hregs]
    all_goals exact fun h => absurd h hfits

/-- `add $3, $1, $2`. -/
def addWord : Word := 0x00221820

/-- The largest word and 1: the sum does not fit. -/
theorem overflow_trap_exact_add : ∃ raised s',
    (AluOp.atInstruction addWord 0x7fffffff 1).oneInstruction 1 = some (raised, s') ∧
      add.Follows addWord (AluOp.atInstruction addWord 0x7fffffff 1) raised s' := by
  have hword : AluOp.fetchedWord (AluOp.atInstruction addWord 0x7fffffff 1) = some addWord := by
    decide +kernel
  obtain ⟨s1, hfetch⟩ := AluOp.readMem_of_fetchedWord hword
  have hop : add.Encodes addWord := ⟨rfl, rfl⟩
  exact overflow_trap_exact (AluOp.valid_atInstruction _ _ _).load hfetch hop

/-- The addition with a load of 7 into register 3 pending. -/
def pendingAdd (rs rt : Word) : State :=
  ((AluOp.atInstruction addWord rs rt).written LoadReg 3).written LoadValueReg 7

/-- 1 + 2 is 7 in a destination that awaits a load of 7, and the trap for
`0x7fffffff + 1` changes it from 0 to 7. -/
theorem pending_load_overwrites :
    add.Encodes addWord ∧ add.destination addWord = AluOp.R3 ∧
    add.valueIn (pendingAdd 1 2) addWord = 3 ∧
    (pendingAdd 1 2).outcome (gp AluOp.R3) = some (none, 7) ∧
    ¬InInt (add.valueIn (pendingAdd 0x7fffffff 1) addWord) ∧
    (pendingAdd 0x7fffffff 1).registers (gp AluOp.R3) = 0 ∧
    (pendingAdd 0x7fffffff 1).outcome (gp AluOp.R3) = some (some ⟨.overflowException, 0⟩, 7) := by
  refine ⟨⟨rfl, rfl⟩, rfl, by decide, by decide +kernel, by decide, by decide, by decide +kernel⟩

end CheckedOp

end Nachos.Machine

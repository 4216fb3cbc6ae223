import Nachos.Machine.Restart

/-!
# Logical, shift, compare and arithmetic instructions

The instructions of this module write one general register from other general
registers and go on.  `AluOp` lists them, `Encodes` gives their encoding, and
`result` what the MIPS-I architecture says they compute, all in terms of the
fields of the instruction word.

`compute` is what the `switch` of `OneInstruction` does in their cases.  It
differs from `result` in three of them: `OR` reads `rs` twice, and the logical
right shifts shift a variable of type `int`.  `Agrees` says for which operands
this makes no difference.
-/

namespace Nachos.Machine

open Function Lib Lib.Exec Code

/-- The state after a write of one register. -/
def State.written (s : State) (r : Register) (value : Word) : State :=
  { s with registers := update s.registers r value }

/-! ## The architecture -/

/-- The instructions without an overflow trap that write a general register from
other general registers. -/
inductive AluOp where
  | addu | addiu | subu | and | andi | or | ori | xor | xori | nor | lui
  | sll | sllv | srl | srlv | sra | srav | slt | slti | sltu | sltiu
  deriving DecidableEq, Repr

/-- Where the number of an instruction stands in its word. -/
inductive Encoding where
  | special (function : Fin 64)
  | immediate (opcode : Fin 64)

namespace Encoding

/-- The word is an instruction with this number, and with any registers, immediate and
shift amount. -/
def Matches : Encoding → Word → Prop
  | special function, raw => tableField raw 26 = 0 ∧ tableField raw 0 = function
  | immediate opcode, raw => tableField raw 26 = opcode

/-- The register that the instruction writes. -/
def destination : Encoding → Word → Fin NumGPRegs
  | special _, raw => regField raw 11
  | immediate _, raw => regField raw 16

/-- The register that its case of the `switch` writes. -/
def target : Encoding → Instruction → Fin NumGPRegs
  | special _, i => i.rd
  | immediate _, i => i.rt

theorem target_decode (e : Encoding) (raw : Word) : e.target (decode raw) = e.destination raw := by
  cases e <;> rfl

/-- What the tables of `Decode` have for it. -/
def code : Encoding → TableCode
  | special function => .op (specialTable.get (function.cast length_specialTable))
  | immediate opcode => (opTable.get (opcode.cast length_opTable)).1

theorem opCode_decode {e : Encoding} {raw : Word} {o : OpCode} (h : e.Matches raw)
    (ho : e.code = .op o) : (decode raw).opCode = o := by
  cases e with
  | special function =>
      unfold decode
      rw [h.1, h.2]
      exact TableCode.op.inj ho
  | immediate opcode =>
      have hop : tableField raw 26 = opcode := h
      have hrow : (opTable.get (opcode.cast length_opTable)).1 = .op o := ho
      simp only [decode, hop, hrow]

end Encoding

namespace AluOp

def encoding : AluOp → Encoding
  | sll => .special 0x00
  | srl => .special 0x02
  | sra => .special 0x03
  | sllv => .special 0x04
  | srlv => .special 0x06
  | srav => .special 0x07
  | addu => .special 0x21
  | subu => .special 0x23
  | and => .special 0x24
  | or => .special 0x25
  | xor => .special 0x26
  | nor => .special 0x27
  | slt => .special 0x2a
  | sltu => .special 0x2b
  | addiu => .immediate 0x09
  | slti => .immediate 0x0a
  | sltiu => .immediate 0x0b
  | andi => .immediate 0x0c
  | ori => .immediate 0x0d
  | xori => .immediate 0x0e
  | lui => .immediate 0x0f

/-- The word is an instruction of this kind. -/
def Encodes (op : AluOp) (raw : Word) : Prop := op.encoding.Matches raw

def destination (op : AluOp) (raw : Word) : Fin NumGPRegs := op.encoding.destination raw

end AluOp

/-- The immediate operand. -/
def immediate (raw : Word) : BitVec 16 := raw.extractLsb' 0 16

/-- The shift amount. -/
def shamt (raw : Word) : BitVec 5 := raw.extractLsb' 6 5

/-- The shift amount of the variable shifts. -/
def lowFive (x : Word) : BitVec 5 := x.extractLsb' 0 5

/-- The value of a comparison. -/
def flag (b : Bool) : Word := if b then 1 else 0

namespace AluOp

/-- What the instruction computes from the values of `rs` and `rt`. -/
def result (op : AluOp) (rs rt raw : Word) : Word :=
  match op with
  | addu => rs + rt
  | addiu => rs + (immediate raw).signExtend 32
  | subu => rs - rt
  | and => rs &&& rt
  | andi => rs &&& (immediate raw).zeroExtend 32
  | or => rs ||| rt
  | ori => rs ||| (immediate raw).zeroExtend 32
  | xor => rs ^^^ rt
  | xori => rs ^^^ (immediate raw).zeroExtend 32
  | nor => ~~~(rs ||| rt)
  | lui => immediate raw ++ 0#16
  | sll => rt <<< (shamt raw).toNat
  | sllv => rt <<< (lowFive rs).toNat
  | srl => rt >>> (shamt raw).toNat
  | srlv => rt >>> (lowFive rs).toNat
  | sra => rt.sshiftRight (shamt raw).toNat
  | srav => rt.sshiftRight (lowFive rs).toNat
  | slt => flag (rs.toInt < rt.toInt)
  | slti => flag (rs.toInt < (immediate raw).toInt)
  | sltu => flag (rs.toNat < rt.toNat)
  | sltiu => flag (rs.toNat < ((immediate raw).signExtend 32).toNat)

/-- The operands for which the simulator computes the same. -/
def Agrees (op : AluOp) (rs rt raw : Word) : Prop :=
  match op with
  | or => rt &&& ~~~rs = 0
  | srl => shamt raw = 0 ∨ 0 ≤ rt.toInt
  | srlv => lowFive rs = 0 ∨ 0 ≤ rt.toInt
  | _ => True

/-! ## The simulator -/

def opCode : AluOp → OpCode
  | addu => .addu
  | addiu => .addiu
  | subu => .subu
  | and => .and
  | andi => .andi
  | or => .or
  | ori => .ori
  | xor => .xor
  | xori => .xori
  | nor => .nor
  | lui => .lui
  | sll => .sll
  | sllv => .sllv
  | srl => .srl
  | srlv => .srlv
  | sra => .sra
  | srav => .srav
  | slt => .slt
  | slti => .slti
  | sltu => .sltu
  | sltiu => .sltiu

/-- What the case of the `switch` writes. -/
def compute (op : AluOp) (rs rt extra : Word) : Word :=
  match op with
  | addu => rs + rt
  | addiu => rs + extra
  | subu => rs - rt
  | and => rs &&& rt
  | andi => rs &&& (extra &&& 0xffff)
  | or => rs ||| rs
  | ori => rs ||| (extra &&& 0xffff)
  | xor => rs ^^^ rt
  | xori => rs ^^^ (extra &&& 0xffff)
  | nor => ~~~(rs ||| rt)
  | lui => extra <<< 16
  | sll => rt <<< extra
  | sllv => rt <<< (rs &&& 0x1f)
  | srl => rt.sshiftRight' extra
  | srlv => rt.sshiftRight' (rs &&& 0x1f)
  | sra => rt.sshiftRight' extra
  | srav => rt.sshiftRight' (rs &&& 0x1f)
  | slt => if rs.slt rt then 1 else 0
  | slti => if rs.slt extra then 1 else 0
  | sltu => if rs.ult rt then 1 else 0
  | sltiu => if rs.ult extra then 1 else 0

/-- The `switch` in the cases of this module. -/
theorem execute_eq (op : AluOp) {i : Instruction} (h : i.opCode = op.opCode) (pcAfter : Word)
    (tid : Nat) (s : State) :
    i.execute pcAfter tid s = some (.ok { pcAfter := pcAfter },
      s.written (gp (op.encoding.target i))
        (op.compute (s.registers (gp i.rs)) (s.registers (gp i.rt)) i.extra)) := by
  unfold Instruction.execute
  rw [h]
  cases op <;> rfl

theorem code_encoding (op : AluOp) : op.encoding.code = .op op.opCode := by
  cases op <;> rfl

/-! ## The operands -/

variable {raw : Word}

theorem extra_special {op : AluOp} {function : Fin 64}
    (hop : op.encoding = .special function) (h : op.Encodes raw) :
    (decode raw).extra = raw >>> 6 &&& 0x1f := by
  unfold Encodes at h
  rw [hop] at h
  unfold decode
  rw [h.1]
  rfl

/-- The sign of the immediate operand, filled in by hand. -/
theorem fill_eq_signExtend (y : BitVec 16) :
    (if y.zeroExtend 32 &&& 0x8000 ≠ 0 then y.zeroExtend 32 ||| 0xffff0000
      else y.zeroExtend 32 : Word) = y.signExtend 32 := by
  have hsign : y.zeroExtend 32 &&& 0x8000 ≠ 0 ↔ y.msb = true := by
    rw [show (0x8000 : Word) = BitVec.twoPow 32 15 from rfl, BitVec.and_twoPow,
      BitVec.getLsbD_setWidth, BitVec.msb_eq_getLsbD_last]
    cases y.getLsbD (16 - 1) <;> decide
  have hfill : (0xffff0000 : Word) = BitVec.allOnes 32 <<< 16 := by decide
  cases hmsb : y.msb with
  | true =>
      rw [if_pos (hsign.mpr hmsb), hfill]
      ext i hi
      rw [BitVec.getElem_or, BitVec.getElem_setWidth, BitVec.getElem_signExtend, hmsb,
        BitVec.getElem_shiftLeft]
      simp only [BitVec.getElem_allOnes]
      by_cases hlow : i < 16
      · simp [hlow]
      · simp [hlow]
  | false =>
      have hpos : ¬ y.zeroExtend 32 &&& 0x8000 ≠ 0 := by
        rw [hsign, hmsb]
        decide
      rw [if_neg hpos]
      exact (BitVec.signExtend_eq_setWidth_of_msb_false hmsb).symm

theorem and_0xffff (x : Word) : x &&& 0xffff = (immediate x).zeroExtend 32 := by
  apply BitVec.eq_of_toNat_eq
  rw [BitVec.toNat_and, BitVec.toNat_setWidth, immediate, BitVec.extractLsb'_toNat]
  have hmask : x.toNat &&& (0xffff : Word).toNat = x.toNat % 2 ^ 16 :=
    Nat.and_two_pow_sub_one_eq_mod x.toNat 16
  rw [hmask, Nat.shiftRight_zero]
  omega

/-- The format with an immediate operand. -/
theorem extra_of_ifmt (h : (opTable.get ((tableField raw 26).cast length_opTable)).2 = .ifmt) :
    (decode raw).extra = (immediate raw).signExtend 32 := by
  have hformat : (decode raw).extra =
      if raw &&& 0xffff &&& 0x8000 ≠ 0 then raw &&& 0xffff ||| 0xffff0000 else raw &&& 0xffff := by
    simp only [decode, h]
  rw [hformat, and_0xffff, fill_eq_signExtend]

theorem extra_immediate {op : AluOp} {opcode : Fin 64}
    (hop : op.encoding = .immediate opcode) (h : op.Encodes raw) :
    (decode raw).extra = (immediate raw).signExtend 32 := by
  have hfield : tableField raw 26 = _ := (hop ▸ h : Encoding.Matches (.immediate opcode) raw)
  apply extra_of_ifmt
  cases op with
  | addiu | slti | sltiu | andi | ori | xori | lui =>
      cases hop
      rw [hfield]
      rfl
  | _ => cases hop

theorem immediate_signExtend (y : BitVec 16) : immediate (y.signExtend 32) = y := by
  unfold immediate
  ext i hi
  rw [BitVec.getElem_extractLsb', Nat.zero_add, BitVec.getLsbD_signExtend]
  simp [hi]
  omega

/-- `extra & 0xffff` undoes the sign extension. -/
theorem signExtend_and_0xffff (y : BitVec 16) :
    y.signExtend 32 &&& 0xffff = (y.zeroExtend 32 : Word) := by
  rw [and_0xffff, immediate_signExtend]

theorem signExtend_shiftLeft (y : BitVec 16) : y.signExtend 32 <<< 16 = y ++ 0#16 := by
  ext i hi
  rw [BitVec.getElem_shiftLeft, BitVec.getElem_append]
  by_cases hlow : i < 16
  · simp [hlow]
  · have hhigh : i - 16 < 16 := by omega
    rw [dif_neg hlow]
    simp [hlow, hhigh, BitVec.getElem_signExtend]

theorem toNat_shamt (raw : Word) : (raw >>> 6 &&& 0x1f).toNat = (shamt raw).toNat := by
  unfold shamt
  rw [BitVec.toNat_and, BitVec.extractLsb'_toNat, BitVec.toNat_ushiftRight]
  exact Nat.and_two_pow_sub_one_eq_mod (raw.toNat >>> 6) 5

theorem toNat_lowFive (x : Word) : (x &&& 0x1f).toNat = (lowFive x).toNat := by
  unfold lowFive
  rw [BitVec.toNat_and, BitVec.extractLsb'_toNat]
  exact Nat.and_two_pow_sub_one_eq_mod x.toNat 5

/-! ## Where the two differ -/

/-- `rs | rs` is `rs | rt` exactly when `rt` has no bit of its own. -/
theorem or_self_eq_iff (rs rt : Word) : rs ||| rs = rs ||| rt ↔ rt &&& ~~~rs = 0 := by
  rw [BitVec.or_self]
  constructor
  · intro h
    have hrs : ~~~rs = ~~~rs &&& ~~~rt := by
      rw [← BitVec.not_or, ← h]
    rw [hrs, BitVec.and_comm, BitVec.and_assoc, BitVec.not_and_self]
    exact BitVec.and_zero
  · intro h
    ext i hi
    have hbit : (rt &&& ~~~rs)[i] = (0 : Word)[i] := by rw [h]
    simp only [BitVec.getElem_and, BitVec.getElem_not, BitVec.ofNat_eq_ofNat,
      BitVec.getElem_zero] at hbit
    rw [BitVec.getElem_or]
    cases hrs : rs[i] <;> cases hrt : rt[i] <;> simp_all

/-- Sign fill is zero fill exactly when nothing is filled in or the sign is
clear. -/
theorem sshiftRight_eq_iff (rt : Word) {n : Nat} (hn : n < 32) :
    rt.sshiftRight n = rt >>> n ↔ n = 0 ∨ 0 ≤ rt.toInt := by
  have hsign : rt.msb = decide (rt.toInt < 0) := BitVec.msb_eq_toInt
  by_cases h : 0 ≤ rt.toInt
  · have hmsb : rt.msb = false := by
      rw [hsign]
      exact decide_eq_false (by omega)
    exact iff_of_true (BitVec.sshiftRight_eq_of_msb_false hmsb) (Or.inr h)
  · have hmsb : rt.msb = true := by
      rw [hsign]
      exact decide_eq_true (by omega)
    by_cases h0 : n = 0
    · subst h0
      exact iff_of_true (by simp) (Or.inl rfl)
    · refine iff_of_false (fun heq => ?_) (by omega)
      have htop := congrArg BitVec.msb heq
      rw [BitVec.msb_sshiftRight, BitVec.msb_ushiftRight, hmsb] at htop
      simp [h0] at htop

/-- The simulator computes what the architecture says exactly on the operands of
`Agrees`. -/
theorem compute_eq_result_iff {op : AluOp} (h : op.Encodes raw) (rs rt : Word) :
    op.compute rs rt (decode raw).extra = op.result rs rt raw ↔ op.Agrees rs rt raw := by
  cases op with
  | addu | subu | and | xor | nor | slt | sltu => exact iff_of_true rfl trivial
  | or => exact or_self_eq_iff rs rt
  | addiu | sltiu =>
      rw [extra_immediate rfl h]
      exact iff_of_true rfl trivial
  | andi | ori | xori =>
      rw [extra_immediate rfl h]
      refine iff_of_true ?_ trivial
      simp only [compute, result, signExtend_and_0xffff]
  | lui =>
      rw [extra_immediate rfl h]
      exact iff_of_true (signExtend_shiftLeft _) trivial
  | slti =>
      rw [extra_immediate rfl h]
      refine iff_of_true ?_ trivial
      show flag (decide (rs.toInt < ((immediate raw).signExtend 32).toInt)) = _
      rw [BitVec.toInt_signExtend_of_le (by decide)]
      rfl
  | sll =>
      rw [extra_special rfl h]
      refine iff_of_true ?_ trivial
      show rt <<< (raw >>> 6 &&& 0x1f).toNat = rt <<< (shamt raw).toNat
      rw [toNat_shamt]
  | sllv =>
      refine iff_of_true ?_ trivial
      show rt <<< (rs &&& 0x1f).toNat = rt <<< (lowFive rs).toNat
      rw [toNat_lowFive]
  | sra =>
      rw [extra_special rfl h]
      refine iff_of_true ?_ trivial
      show rt.sshiftRight (raw >>> 6 &&& 0x1f).toNat = rt.sshiftRight (shamt raw).toNat
      rw [toNat_shamt]
  | srav =>
      refine iff_of_true ?_ trivial
      show rt.sshiftRight (rs &&& 0x1f).toNat = rt.sshiftRight (lowFive rs).toNat
      rw [toNat_lowFive]
  | srl =>
      rw [extra_special rfl h]
      show rt.sshiftRight (raw >>> 6 &&& 0x1f).toNat = rt >>> (shamt raw).toNat ↔
        shamt raw = 0 ∨ 0 ≤ rt.toInt
      rw [toNat_shamt, sshiftRight_eq_iff rt (shamt raw).isLt, BitVec.toNat_eq]
      rfl
  | srlv =>
      show rt.sshiftRight (rs &&& 0x1f).toNat = rt >>> (lowFive rs).toNat ↔
        lowFive rs = 0 ∨ 0 ≤ rt.toInt
      rw [toNat_lowFive, sshiftRight_eq_iff rt (lowFive rs).isLt, BitVec.toNat_eq]
      rfl

end AluOp

/-! ## `OneInstruction` -/

/-- A general register after the pending delayed load and nothing else. -/
def State.afterLoad (s : State) (r : Fin NumGPRegs) : Word :=
  if r = R0 then 0
  else if s.registers LoadReg = BitVec.ofNat 32 r then s.registers LoadValueReg
  else s.registers (gp r)

/-- The instruction has done what the architecture says: the destination holds
the result, and the other general registers have changed by the pending delayed
load only. -/
structure AluOp.Follows (op : AluOp) (raw : Word) (s s' : State) : Prop where
  result : s'.registers (gp (op.destination raw)) =
    op.result (s.registers (gp (regField raw 21))) (s.registers (gp (regField raw 16))) raw
  others : ∀ r, r ≠ op.destination raw → s'.registers (gp r) = s.afterLoad r

namespace State

theorem loaded_gp (s : State) (nextReg nextValue : Word) (r : Fin NumGPRegs) :
    (s.loaded nextReg nextValue).registers (gp r) = s.afterLoad r := by
  have hzero : gp r = gp R0 ↔ r = R0 := by
    rw [Fin.ext_iff, Fin.ext_iff]
    rfl
  have htarget : (gp r).val = (s.registers LoadReg).toNat ↔
      s.registers LoadReg = BitVec.ofNat 32 r := by
    rw [BitVec.toNat_eq, Instruction.toNat_ofNat_gp]
    exact eq_comm
  show (if gp r = gp R0 then 0 else if gp r = LoadValueReg then nextValue
    else if gp r = LoadReg then nextReg
    else if (gp r).val = (s.registers LoadReg).toNat then s.registers LoadValueReg
    else s.registers (gp r)) = _
  rw [if_neg (gp_ne_of_le (q := LoadValueReg) (by decide)),
    if_neg (gp_ne_of_le (q := LoadReg) (by decide))]
  unfold afterLoad
  simp only [hzero, htarget]

/-- The end of `OneInstruction` changes the general registers by the pending
delayed load. -/
theorem advance_gp {s : State} (h : (s.registers LoadReg).toNat < NumTotalRegs) (n : Next) :
    ∃ s', advance n s = some (.ok (), s') ∧ ∀ r, s'.registers (gp r) = s.afterLoad r := by
  unfold advance
  rw [bind_apply, delayedLoad_eq h]
  refine ⟨_, rfl, fun r => ?_⟩
  rw [← loaded_gp s (BitVec.ofNat 32 n.nextLoadReg) n.nextLoadValue r]
  show update (update (update _ PrevPCReg _) PCReg _) NextPCReg _ (gp r) = _
  rw [update_of_ne (gp_ne_of_le (by decide)), update_of_ne (gp_ne_of_le (by decide)),
    update_of_ne (gp_ne_of_le (by decide))]

theorem readMem_registers {s s' : State} {tid size : Nat} {addr v : Word}
    (h : readMem tid addr size s = some (.ok v, s')) : s'.registers = s.registers := by
  unfold readMem at h
  split at h
  · cases h
  · cases h
  · obtain ⟨w, _, hw⟩ := Option.map_eq_some_iff.mp h
    cases hw
    rfl

theorem afterLoad_written {s : State} (d r : Fin NumGPRegs) (v : Word) :
    (s.written (gp d) v).afterLoad r =
      if r = R0 then 0
      else if s.registers LoadReg = BitVec.ofNat 32 r then s.registers LoadValueReg
      else if r = d then v else s.registers (gp r) := by
  have hgp : gp r = gp d ↔ r = d := by
    rw [Fin.ext_iff, Fin.ext_iff]
    rfl
  show (if r = R0 then 0
    else if update s.registers (gp d) v LoadReg = BitVec.ofNat 32 r
      then update s.registers (gp d) v LoadValueReg
    else update s.registers (gp d) v (gp r)) = _
  rw [update_of_ne (gp_ne_of_le (by decide)).symm, update_of_ne (gp_ne_of_le (by decide)).symm,
    update_apply]
  simp only [hgp]

end State

namespace AluOp

variable {op : AluOp} {raw : Word} {s s1 : State} {tid : Nat}

/-- `OneInstruction` on an instruction of this module: the register is written,
then the delayed load takes place. -/
theorem oneInstruction_gp (hs : s.Valid)
    (hfetch : readMem tid (s.registers PCReg) 4 s = some (.ok raw, s1)) (hop : op.Encodes raw) :
    ∃ s', s.oneInstruction tid = some (none, s') ∧ ∀ r, s'.registers (gp r) =
      (s.written (gp (op.destination raw)) (op.compute (s.registers (gp (regField raw 21)))
        (s.registers (gp (regField raw 16))) (decode raw).extra)).afterLoad r := by
  have hregs := State.readMem_registers hfetch
  have hload : ((s1.written (gp (op.destination raw)) (op.compute
      (s1.registers (gp (regField raw 21))) (s1.registers (gp (regField raw 16)))
      (decode raw).extra)).registers LoadReg).toNat < NumTotalRegs := by
    show (update s1.registers _ _ LoadReg).toNat < NumTotalRegs
    rw [update_of_ne (State.gp_ne_of_le (by decide)).symm, hregs]
    exact Nat.lt_trans hs.load (by decide)
  obtain ⟨s', hadvance, hgp⟩ :=
    State.advance_gp hload { pcAfter := s1.registers NextPCReg + 4 }
  have hinstr : State.instruction tid s = some (.ok (), s') := by
    show (readMem tid (s.registers PCReg) 4 >>= fun raw => do
        let nextPC ← reg NextPCReg
        let n ← (decode raw).execute (nextPC + 4) tid
        State.advance n) s = _
    rw [bind_apply, hfetch]
    show ((decode raw).execute (s1.registers NextPCReg + 4) tid >>= State.advance) s1 = _
    rw [bind_apply, op.execute_eq (Encoding.opCode_decode hop op.code_encoding),
      Encoding.target_decode]
    exact hadvance
  refine ⟨s', ?_, fun r => ?_⟩
  · unfold State.oneInstruction
    rw [hinstr]
  · rw [hgp r, State.afterLoad_written, State.afterLoad_written, hregs]

/-- The instructions of this module follow the MIPS-I definition exactly where no
load into their destination is pending and the operands agree, or where the
pending load brings the result. -/
theorem follows_iff (hs : s.Valid)
    (hfetch : readMem tid (s.registers PCReg) 4 s = some (.ok raw, s1)) (hop : op.Encodes raw)
    (hdest : op.destination raw ≠ R0) :
    (∃ s', s.oneInstruction tid = some (none, s') ∧ op.Follows raw s s') ↔
      if s.registers LoadReg = BitVec.ofNat 32 (op.destination raw) then
        s.registers LoadValueReg = op.result (s.registers (gp (regField raw 21)))
          (s.registers (gp (regField raw 16))) raw
      else
        op.Agrees (s.registers (gp (regField raw 21)))
          (s.registers (gp (regField raw 16))) raw := by
  obtain ⟨s', hrun, hgp⟩ := oneInstruction_gp hs hfetch hop
  have hresult := hgp (op.destination raw)
  rw [State.afterLoad_written, if_neg hdest, if_pos rfl] at hresult
  have hothers : ∀ r, r ≠ op.destination raw → s'.registers (gp r) = s.afterLoad r := by
    intro r hr
    rw [hgp r, State.afterLoad_written, if_neg hr]
    rfl
  have hiff : (∃ s', s.oneInstruction tid = some (none, s') ∧ op.Follows raw s s') ↔
      s'.registers (gp (op.destination raw)) =
        op.result (s.registers (gp (regField raw 21)))
          (s.registers (gp (regField raw 16))) raw := by
    constructor
    · rintro ⟨s'', hrun'', hfollows⟩
      cases hrun.symm.trans hrun''
      exact hfollows.result
    · intro h
      exact ⟨s', hrun, h, hothers⟩
  rw [hiff, hresult]
  by_cases hpending : s.registers LoadReg = BitVec.ofNat 32 (op.destination raw)
  · rw [if_pos hpending, if_pos hpending]
  · rw [if_neg hpending, if_neg hpending]
    exact compute_eq_result_iff hop _ _

/-- A thread with id 1 at the instruction `raw`, with two operands in the
registers 1 and 2 and no load pending. -/
def atInstruction (raw rs rt : Word) : State where
  registers r := if r = NextPCReg then 4 else if r.val = 1 then rs else if r.val = 2 then rt else 0
  memory :=
    (Memory.boot (fun _ => false) fun _ => ⟨0, fun _ => 0⟩).install 1 0 0
      ⟨MemorySize, Bytes.store (fun _ => 0) 0 raw 4⟩

theorem valid_atInstruction (raw rs rt : Word) : (atInstruction raw rs rt).Valid :=
  ⟨rfl, by show (0 : Word).toNat < NumGPRegs; decide⟩

def R3 : Fin NumGPRegs := ⟨3, by decide⟩

/-- `or $3, $1, $2`. -/
def orWord : Word := 0x00221825

/-- `srl $3, $2, 1`. -/
def srlWord : Word := 0x00021842

/-- `OR` of 0 and 1 is 0, and `SRL` of the most negative number by one place is
negative. -/
theorem or_and_srl_differ :
    or.Encodes orWord ∧ srl.Encodes srlWord ∧
    (∃ s', (atInstruction orWord 0 1).oneInstruction 1 = some (none, s') ∧
      s'.registers (gp R3) = 0 ∧ or.result 0 1 orWord = 1 ∧
      ¬or.Follows orWord (atInstruction orWord 0 1) s') ∧
    ∃ s', (atInstruction srlWord 0 0x80000000).oneInstruction 1 = some (none, s') ∧
      s'.registers (gp R3) = 0xc0000000 ∧ srl.result 0 0x80000000 srlWord = 0x40000000 ∧
      ¬srl.Follows srlWord (atInstruction srlWord 0 0x80000000) s' := by
  have hor : (atInstruction orWord 0 1).outcome (gp R3) = some (none, 0) := by decide +kernel
  have hsrl : (atInstruction srlWord 0 0x80000000).outcome (gp R3) = some (none, 0xc0000000) := by
    decide +kernel
  obtain ⟨s, hs, hs3⟩ := State.oneInstruction_of_outcome hor
  obtain ⟨t, ht, ht3⟩ := State.oneInstruction_of_outcome hsrl
  refine ⟨⟨rfl, rfl⟩, ⟨rfl, rfl⟩, ⟨s, hs, hs3, by decide, fun h => ?_⟩,
    ⟨t, ht, ht3, by decide, fun h => ?_⟩⟩
  · exact absurd (hs3.symm.trans h.result) (by decide)
  · exact absurd (ht3.symm.trans h.result) (by decide)

/-- The word at the program counter of thread 1. -/
def fetchedWord (s : State) : Option Word :=
  match readMem 1 (s.registers PCReg) 4 s with
  | some (.ok raw, _) => some raw
  | _ => none

theorem readMem_of_fetchedWord {s : State} {raw : Word} (h : fetchedWord s = some raw) :
    ∃ s1, readMem 1 (s.registers PCReg) 4 s = some (.ok raw, s1) := by
  unfold fetchedWord at h
  split at h
  · rename_i raw' s1 hread
    cases h
    exact ⟨s1, hread⟩
  · cases h

/-- With 0 in `rt` the instruction `OR` is right. -/
theorem follows_iff_or : ∃ s', (atInstruction orWord 5 0).oneInstruction 1 = some (none, s') ∧
    or.Follows orWord (atInstruction orWord 5 0) s' := by
  have hword : fetchedWord (atInstruction orWord 5 0) = some orWord := by decide +kernel
  obtain ⟨s1, hfetch⟩ := readMem_of_fetchedWord hword
  have hop : or.Encodes orWord := ⟨rfl, rfl⟩
  refine (follows_iff (valid_atInstruction orWord 5 0) hfetch hop (by decide)).mpr ?_
  rw [if_neg (by decide)]
  show (0 : Word) &&& ~~~5 = 0
  decide

end AluOp

end Nachos.Machine

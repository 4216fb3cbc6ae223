import Nachos.Machine.OneInstruction

/-!
# Branches and jumps

The processor has one delay slot.  `PCReg` is the instruction that is executed,
`NextPCReg` the one after it, and an instruction says where the processor goes
after that one.  `TransferOp` lists the instructions that say something else
than `NextPC + 4`, and `transferOf` finds them in the instruction word.

`taken`, `target` and `link` are their meaning in the MIPS-I architecture.  The
simulator differs in one place: the region of a jump.  The architecture takes
the upper four bits of the address of the delay slot, and the simulator those of
the address after it.

`FollowsControl` says that an instruction has moved the two program counters and
written the link register as the architecture says.
-/

namespace Nachos.Machine

open Function Lib Lib.Exec Code

/-! ## The architecture -/

inductive TransferOp where
  | beq | bne | blez | bgtz | bltz | bgez | bltzal | bgezal
  | j | jal | jr | jalr
  deriving DecidableEq, Repr

/-- The branch or jump in an instruction word. -/
def transferOf (raw : Word) : Option TransferOp :=
  match (tableField raw 26).val with
  | 0x00 =>
      match (tableField raw 0).val with
      | 0x08 => some .jr
      | 0x09 => some .jalr
      | _ => none
  | 0x01 =>
      match (regField raw 16).val with
      | 0x00 => some .bltz
      | 0x01 => some .bgez
      | 0x10 => some .bltzal
      | 0x11 => some .bgezal
      | _ => none
  | 0x02 => some .j
  | 0x03 => some .jal
  | 0x04 => some .beq
  | 0x05 => some .bne
  | 0x06 => some .blez
  | 0x07 => some .bgtz
  | _ => none

/-- The index of a jump. -/
def jumpIndex (raw : Word) : BitVec 26 := raw.extractLsb' 0 26

/-- The region of 256 megabytes that an address is in. -/
def region (addr : Word) : BitVec 4 := addr.extractLsb' 28 4

namespace TransferOp

/-- The condition on the values of `rs` and `rt`. -/
def taken (op : TransferOp) (rs rt : Word) : Bool :=
  match op with
  | beq => rs = rt
  | bne => rs ≠ rt
  | blez => rs.toInt ≤ 0
  | bgtz => 0 < rs.toInt
  | bltz | bltzal => rs.toInt < 0
  | bgez | bgezal => 0 ≤ rs.toInt
  | j | jal | jr | jalr => true

/-- Where the instruction goes.  `nextPC` is the address of the delay slot. -/
def target (op : TransferOp) (rs nextPC raw : Word) : Word :=
  match op with
  | j | jal => region nextPC ++ jumpIndex raw ++ 0#2
  | jr | jalr => rs
  | _ => nextPC + 4 * (immediate raw).signExtend 32

/-- The register for the return address. -/
def link (op : TransferOp) (raw : Word) : Option (Fin NumGPRegs) :=
  match op with
  | jal | bltzal | bgezal => some R31
  | jalr => some (regField raw 11)
  | _ => none

end TransferOp

/-- `NextPCReg` after the instruction. -/
def nextPCAfter (raw : Word) (s : State) : Word :=
  match transferOf raw with
  | none => s.registers NextPCReg + 4
  | some op =>
      if op.taken (s.registers (gp (regField raw 21))) (s.registers (gp (regField raw 16))) then
        op.target (s.registers (gp (regField raw 21))) (s.registers NextPCReg) raw
      else s.registers NextPCReg + 4

/-- The instruction in `s` has left `s'`, and control goes on as the architecture
says. -/
structure FollowsControl (raw : Word) (s s' : State) : Prop where
  pc : s'.registers PCReg = s.registers NextPCReg
  nextPC : s'.registers NextPCReg = nextPCAfter raw s
  link : ∀ op r, transferOf raw = some op → op.link raw = some r →
    s'.registers (gp r) = s.registers NextPCReg + 4

/-- The link register is not read.  `JAL` reads no register. -/
def LinkApart (raw : Word) : Prop :=
  ∀ op r, transferOf raw = some op → op.link raw = some r → op ≠ .jal → r ≠ regField raw 21

namespace TransferOp

/-! ## The simulator -/

def opCode : TransferOp → OpCode
  | beq => .beq
  | bne => .bne
  | blez => .blez
  | bgtz => .bgtz
  | bltz => .bltz
  | bgez => .bgez
  | bltzal => .bltzal
  | bgezal => .bgezal
  | j => .j
  | jal => .jal
  | jr => .jr
  | jalr => .jalr

/-- The row of `opTable` that the instruction is in. -/
def row : TransferOp → Nat
  | jr | jalr => 0x00
  | bltz | bgez | bltzal | bgezal => 0x01
  | j => 0x02
  | jal => 0x03
  | beq => 0x04
  | bne => 0x05
  | blez => 0x06
  | bgtz => 0x07

/-- The test of the case. -/
def test (op : TransferOp) (rs rt : Word) : Bool :=
  match op with
  | beq => rs == rt
  | bne => rs != rt
  | blez => rs.sle 0
  | bgtz => (0 : Word).slt rs
  | bltz | bltzal => rs &&& signBit != 0
  | bgez | bgezal => rs &&& signBit == 0
  | j | jal | jr | jalr => true

/-- What the case assigns to `pcAfter`. -/
def assigned (op : TransferOp) (rs nextPC pcAfter extra : Word) : Word :=
  match op with
  | j | jal => pcAfter &&& 0xf0000000 ||| indexToAddr extra
  | jr | jalr => rs
  | _ => nextPC + indexToAddr extra

/-- The state after the assignment to the link register. -/
def linked (op : TransferOp) (i : Instruction) (s : State) : State :=
  match op with
  | jal | bltzal | bgezal => s.written (gp R31) (s.registers NextPCReg + 4)
  | jalr => s.written (gp i.rd) (s.registers NextPCReg + 4)
  | _ => s

/-- `pcAfter` at the end of the case. -/
def pcAfterIn (op : TransferOp) (i : Instruction) (pcAfter : Word) (s : State) : Word :=
  if op.test (s.registers (gp i.rs)) (s.registers (gp i.rt)) then
    op.assigned (s.registers (gp i.rs)) (s.registers NextPCReg) pcAfter i.extra
  else pcAfter

/-- The `switch` in the cases of this module.  The link register is written
first. -/
theorem execute_eq (op : TransferOp) {i : Instruction} (h : i.opCode = op.opCode)
    (pcAfter : Word) (tid : Nat) (s : State) :
    i.execute pcAfter tid s =
      some (.ok { pcAfter := op.pcAfterIn i pcAfter (op.linked i s) }, op.linked i s) := by
  unfold Instruction.execute
  rw [h]
  cases op <;> rfl

end TransferOp

/-! ## Decoding -/

/-- The bits that tell the branches on `rs` apart are the field `rt`. -/
theorem and_0x1f0000 (raw : Word) :
    raw &&& (0x1f0000 : Word) = (raw >>> 16 &&& (0x1f : Word)) <<< 16 := by
  rw [show (0x1f0000 : Word) = (0x1f : Word) <<< 16 from rfl]
  ext k hk
  rw [BitVec.getElem_and, BitVec.getElem_shiftLeft, BitVec.getElem_shiftLeft]
  by_cases hlow : k < 16
  · simp [hlow]
  · have hsum : 16 + (k - 16) = k := by omega
    simp [hlow, hsum, BitVec.getLsbD_eq_getElem hk]

theorem and_0x1f0000_eq_iff (raw : Word) {k : Nat} (hk : k < 32) :
    raw &&& 0x1f0000 = BitVec.ofNat 32 (k * 65536) ↔ (regField raw 16).val = k := by
  have hfield : (regField raw 16).val = (raw >>> 16 &&& 0x1f).toNat := rfl
  have hlt : (raw >>> 16 &&& 0x1f).toNat < 32 := (regField raw 16).isLt
  rw [and_0x1f0000, hfield, BitVec.toNat_eq, BitVec.toNat_shiftLeft, BitVec.toNat_ofNat,
    Nat.shiftLeft_eq]
  omega

/-- A row of `opTable` that is decoded completely, and not to a transfer. -/
def TableCode.sequential : TableCode → Bool
  | .op o => !o.transfers
  | _ => false

theorem sequential_opTable :
    ∀ k : Fin 64, 8 ≤ k.val → (opTable.get (k.cast length_opTable)).1.sequential = true := by
  decide

theorem not_transfers_specialTable : ∀ k : Fin 64, k.val ≠ 8 → k.val ≠ 9 →
    (specialTable.get (k.cast length_specialTable)).transfers = false := by
  decide

section Decode

variable {raw : Word}

theorem opCode_of_row {k : Fin 64} {o : OpCode} (h : (tableField raw 26).val = k.val)
    (ho : (opTable.get (k.cast length_opTable)).1 = .op o) : (decode raw).opCode = o := by
  have hfield : tableField raw 26 = k := Fin.ext h
  simp only [decode, hfield, ho]

theorem opCode_of_special (h : (tableField raw 26).val = 0) :
    (decode raw).opCode =
      specialTable.get ((tableField raw 0).cast length_specialTable) := by
  have hfield : tableField raw 26 = 0 := Fin.ext h
  unfold decode
  rw [hfield]
  rfl

theorem opCode_of_bcond (h : (tableField raw 26).val = 1) :
    (decode raw).opCode =
      if (regField raw 16).val = 0 then .bltz
      else if (regField raw 16).val = 1 then .bgez
      else if (regField raw 16).val = 0x10 then .bltzal
      else if (regField raw 16).val = 0x11 then .bgezal
      else .unimp := by
  have hfield : tableField raw 26 = 1 := Fin.ext h
  have hcode : (decode raw).opCode =
      if raw &&& 0x1f0000 = 0 then .bltz
      else if raw &&& 0x1f0000 = 0x10000 then .bgez
      else if raw &&& 0x1f0000 = 0x100000 then .bltzal
      else if raw &&& 0x1f0000 = 0x110000 then .bgezal
      else .unimp := by
    unfold decode
    rw [hfield]
    rfl
  have h0 := and_0x1f0000_eq_iff raw (k := 0) (by decide)
  have h1 := and_0x1f0000_eq_iff raw (k := 1) (by decide)
  have h16 := and_0x1f0000_eq_iff raw (k := 16) (by decide)
  have h17 := and_0x1f0000_eq_iff raw (k := 17) (by decide)
  rw [hcode]
  simp only [← h0, ← h1, ← h16, ← h17]
  rfl

theorem opCode_of_transferOf {op : TransferOp} (h : transferOf raw = some op) :
    (decode raw).opCode = op.opCode := by
  unfold transferOf at h
  split at h
  · rename_i hrow
    rw [opCode_of_special hrow]
    split at h
    · rename_i hfunction
      cases h
      rw [show tableField raw 0 = 8 from Fin.ext hfunction]
      rfl
    · rename_i hfunction
      cases h
      rw [show tableField raw 0 = 9 from Fin.ext hfunction]
      rfl
    · cases h
  · rename_i hrow
    rw [opCode_of_bcond hrow]
    split at h
    all_goals
      rename_i hrt
      cases h
      try rw [hrt]
      try rfl
  · rename_i hrow
    cases h
    exact opCode_of_row (k := 2) hrow rfl
  · rename_i hrow
    cases h
    exact opCode_of_row (k := 3) hrow rfl
  · rename_i hrow
    cases h
    exact opCode_of_row (k := 4) hrow rfl
  · rename_i hrow
    cases h
    exact opCode_of_row (k := 5) hrow rfl
  · rename_i hrow
    cases h
    exact opCode_of_row (k := 6) hrow rfl
  · rename_i hrow
    cases h
    exact opCode_of_row (k := 7) hrow rfl
  · cases h

theorem not_transfers_of_transferOf (h : transferOf raw = none) :
    (decode raw).opCode.transfers = false := by
  unfold transferOf at h
  split at h
  · rename_i hrow
    rw [opCode_of_special hrow]
    split at h
    · cases h
    · cases h
    · rename_i h8 h9
      exact not_transfers_specialTable _ h8 h9
  · rename_i hrow
    rw [opCode_of_bcond hrow]
    split at h
    · cases h
    · cases h
    · cases h
    · cases h
    · rename_i h0 h1 h16 h17
      rw [if_neg h0, if_neg h1, if_neg h16, if_neg h17]
      rfl
  iterate 6 cases h
  rename_i h0 h1 h2 h3 h4 h5 h6 h7
  have hge : 8 ≤ (tableField raw 26).val := by
    simp only [imp_false] at h0 h1 h2 h3 h4 h5 h6 h7
    omega
  have hrow := sequential_opTable (tableField raw 26) hge
  cases hop : (opTable.get ((tableField raw 26).cast length_opTable)).1 with
  | op o =>
      rw [hop] at hrow
      simp only [decode, hop]
      exact (Bool.not_eq_true' _).mp hrow
  | special | bcond =>
      rw [hop] at hrow
      cases hrow

end Decode

/-! ## Tests and targets -/

namespace TransferOp

theorem test_eq_taken (op : TransferOp) (rs rt : Word) : op.test rs rt = op.taken rs rt := by
  have hsign : rs &&& signBit = 0 ↔ 0 ≤ rs.toInt := by
    rw [and_signBit_eq_zero, BitVec.msb_eq_toInt, decide_eq_false_iff_not, Int.not_lt]
  cases op with
  | beq | blez | bgtz | j | jal | jr | jalr => rfl
  | bne =>
      rw [Bool.eq_iff_iff]
      show (rs != rt) = true ↔ decide (rs ≠ rt) = true
      rw [bne_iff_ne, decide_eq_true_iff]
  | bltz | bltzal =>
      rw [Bool.eq_iff_iff]
      show (rs &&& signBit != 0) = true ↔ decide (rs.toInt < 0) = true
      rw [bne_iff_ne, Ne, hsign, Int.not_le, decide_eq_true_iff]
  | bgez | bgezal =>
      rw [Bool.eq_iff_iff]
      show (rs &&& signBit == 0) = true ↔ decide (0 ≤ rs.toInt) = true
      rw [beq_iff_eq, hsign, decide_eq_true_iff]

end TransferOp

theorem indexToAddr_eq (x : Word) : indexToAddr x = 4 * x := by
  unfold indexToAddr
  rw [BitVec.shiftLeft_eq_mul_twoPow, BitVec.mul_comm]
  rfl

theorem jump_target (pcAfter raw : Word) :
    pcAfter &&& 0xf0000000 ||| indexToAddr (raw &&& 0x3ffffff) =
      region pcAfter ++ jumpIndex raw ++ 0#2 := by
  have hlow : ∀ k : Fin 32, (0x3ffffff : Word).getLsbD k = decide (k.val < 26) := by decide
  have hhigh : ∀ k : Fin 32, (0xf0000000 : Word).getLsbD k = decide (28 ≤ k.val) := by decide
  unfold indexToAddr region jumpIndex
  apply BitVec.eq_of_getLsbD_eq
  intro k hk
  rw [BitVec.getLsbD_append, BitVec.getLsbD_append, BitVec.getLsbD_or, BitVec.getLsbD_and,
    BitVec.getLsbD_shiftLeft, BitVec.getLsbD_and, BitVec.getLsbD_extractLsb',
    BitVec.getLsbD_extractLsb', hhigh ⟨k, hk⟩, hlow ⟨k - 2, by omega⟩]
  by_cases h2 : k < 2
  · have h28 : ¬28 ≤ k := by omega
    simp [h2, h28]
  · by_cases h26 : k - 2 < 26
    · have h28 : ¬28 ≤ k := by omega
      simp [h2, h28, h26, hk]
    · have h28 : 28 ≤ k := by omega
      have h4 : k - 2 - 26 < 4 := by omega
      have hsum : 28 + (k - 2 - 26) = k := by omega
      simp [h2, h28, h26, h4, hsum]

/-- The region can be read off the target. -/
theorem target_inj {a b : BitVec 4} {x : BitVec 26} :
    a ++ x ++ 0#2 = b ++ x ++ 0#2 ↔ a = b := by
  constructor
  · intro h
    apply BitVec.eq_of_getLsbD_eq
    intro k hk
    have hbit : (a ++ x ++ 0#2).getLsbD (28 + k) = (b ++ x ++ 0#2).getLsbD (28 + k) := by rw [h]
    have h2 : ¬28 + k < 2 := by omega
    have h26 : ¬28 + k - 2 < 26 := by omega
    have hsum : 28 + k - 2 - 26 = k := by omega
    rwa [BitVec.getLsbD_append, BitVec.getLsbD_append, BitVec.getLsbD_append,
      BitVec.getLsbD_append, if_neg h2, if_neg h26, if_neg h2, if_neg h26, hsum] at hbit
  · intro h
    rw [h]

/-- The two addresses after the jump are in one region. -/
theorem region_add_four (nextPC : Word) :
    region (nextPC + 4) = region nextPC ↔ nextPC.toNat % 2 ^ 28 + 4 < 2 ^ 28 := by
  have hlt : nextPC.toNat < 2 ^ 32 := nextPC.isLt
  have hfour : (4 : Word).toNat = 4 := rfl
  unfold region
  rw [BitVec.toNat_eq, BitVec.extractLsb'_toNat, BitVec.extractLsb'_toNat, BitVec.toNat_add,
    Nat.shiftRight_eq_div_pow, Nat.shiftRight_eq_div_pow, hfour]
  omega

section Operands

variable {raw : Word}

theorem row_of_transferOf {op : TransferOp} (h : transferOf raw = some op) :
    (tableField raw 26).val = op.row := by
  unfold transferOf at h
  split at h
  case h_1 hrow | h_2 hrow =>
    split at h
    all_goals
      cases h
      try exact hrow
  case h_9 => cases h
  all_goals
    rename_i hrow
    cases h
    exact hrow

theorem extra_of_row {k : Fin 64} (h : (tableField raw 26).val = k.val)
    (hformat : (opTable.get (k.cast length_opTable)).2 = .ifmt) :
    (decode raw).extra = (immediate raw).signExtend 32 := by
  apply AluOp.extra_of_ifmt
  rw [show tableField raw 26 = k from Fin.ext h]
  exact hformat

theorem extra_of_jump (h : (tableField raw 26).val = 2 ∨ (tableField raw 26).val = 3) :
    (decode raw).extra = raw &&& 0x3ffffff := by
  rcases h with h | h
  · have hfield : tableField raw 26 = 2 := Fin.ext h
    unfold decode
    rw [hfield]
    rfl
  · have hfield : tableField raw 26 = 3 := Fin.ext h
    unfold decode
    rw [hfield]
    rfl

end Operands

namespace TransferOp

variable {op : TransferOp} {raw : Word}

theorem linked_decode (op : TransferOp) (raw : Word) (s : State) :
    op.linked (decode raw) s =
      (op.link raw).elim s fun r => s.written (gp r) (s.registers NextPCReg + 4) := by
  cases op <;> rfl

theorem linked_special (op : TransferOp) (i : Instruction) (s : State) {q : Register}
    (hq : NumGPRegs ≤ q.val) : (op.linked i s).registers q = s.registers q := by
  cases op with
  | jal | bltzal | bgezal | jalr => exact update_of_ne (State.gp_ne_of_le hq).symm _ _
  | _ => rfl

/-- The link register is not an operand, so it does not matter that it is written
first. -/
theorem pcAfterIn_linked (h : transferOf raw = some op) (hapart : LinkApart raw)
    (pcAfter : Word) (s : State) :
    op.pcAfterIn (decode raw) pcAfter (op.linked (decode raw) s) =
      op.pcAfterIn (decode raw) pcAfter s := by
  have hnext := op.linked_special (decode raw) s (q := NextPCReg) (by decide)
  have hrs : ∀ r, op.link raw = some r → op ≠ .jal →
      (op.linked (decode raw) s).registers (gp (decode raw).rs) =
        s.registers (gp (decode raw).rs) := by
    intro r hr hjal
    have hne : gp (regField raw 21) ≠ gp r := by
      intro e
      have hval : (gp (regField raw 21)).val = (gp r).val := congrArg Fin.val e
      exact hapart op r h hr hjal (Fin.ext hval.symm)
    rw [linked_decode, hr]
    exact update_of_ne hne _ _
  unfold pcAfterIn
  cases op with
  | bltzal | bgezal | jalr =>
      rw [hnext, hrs _ rfl (by decide)]
      rfl
  | _ => rfl

end TransferOp

namespace TransferOp

variable {op : TransferOp} {raw : Word}

/-- The branches go where the architecture says, and the jumps do if they are not
at the end of a region. -/
theorem assigned_eq_iff (h : transferOf raw = some op) (rs nextPC : Word) :
    op.assigned rs nextPC (nextPC + 4) (decode raw).extra = op.target rs nextPC raw ↔
      (op = .j ∨ op = .jal → nextPC.toNat % 2 ^ 28 + 4 < 2 ^ 28) := by
  have hrow := row_of_transferOf h
  have hbranch (hextra : (decode raw).extra = (immediate raw).signExtend 32) :
      nextPC + indexToAddr (decode raw).extra = nextPC + 4 * (immediate raw).signExtend 32 := by
    rw [hextra, indexToAddr_eq]
  have hjump (hextra : (decode raw).extra = raw &&& 0x3ffffff) :
      (nextPC + 4) &&& 0xf0000000 ||| indexToAddr (decode raw).extra =
          region nextPC ++ jumpIndex raw ++ 0#2 ↔ nextPC.toNat % 2 ^ 28 + 4 < 2 ^ 28 := by
    rw [hextra, jump_target, target_inj, region_add_four]
  cases op with
  | j =>
      exact (hjump (extra_of_jump (Or.inl hrow))).trans
        ⟨fun hlt _ => hlt, fun himp => himp (Or.inl rfl)⟩
  | jal =>
      exact (hjump (extra_of_jump (Or.inr hrow))).trans
        ⟨fun hlt _ => hlt, fun himp => himp (Or.inr rfl)⟩
  | jr | jalr => exact iff_of_true rfl (by simp)
  | bltz | bgez | bltzal | bgezal =>
      exact iff_of_true (hbranch (extra_of_row (k := 1) hrow rfl)) (by simp)
  | beq => exact iff_of_true (hbranch (extra_of_row (k := 4) hrow rfl)) (by simp)
  | bne => exact iff_of_true (hbranch (extra_of_row (k := 5) hrow rfl)) (by simp)
  | blez => exact iff_of_true (hbranch (extra_of_row (k := 6) hrow rfl)) (by simp)
  | bgtz => exact iff_of_true (hbranch (extra_of_row (k := 7) hrow rfl)) (by simp)

/-- `NextPCReg` after the end of the instruction. -/
theorem pcAfterIn_eq_iff (h : transferOf raw = some op) (s : State) :
    op.pcAfterIn (decode raw) (s.registers NextPCReg + 4) s = nextPCAfter raw s ↔
      (op = .j ∨ op = .jal → (s.registers NextPCReg).toNat % 2 ^ 28 + 4 < 2 ^ 28) := by
  have hafter : nextPCAfter raw s =
      if op.taken (s.registers (gp (regField raw 21))) (s.registers (gp (regField raw 16))) then
        op.target (s.registers (gp (regField raw 21))) (s.registers NextPCReg) raw
      else s.registers NextPCReg + 4 := by
    simp only [nextPCAfter, h]
  rw [hafter, ← assigned_eq_iff h (s.registers (gp (regField raw 21)))]
  unfold pcAfterIn
  rw [test_eq_taken]
  by_cases htaken : op.taken (s.registers (gp (regField raw 21)))
      (s.registers (gp (regField raw 16))) = true
  · rw [if_pos htaken]
    exact (congrArg (· = _) (if_pos htaken)).to_iff
  · -- a jump is always taken
    have hop : ¬(op = .j ∨ op = .jal) := by
      rintro (rfl | rfl)
      · exact htaken rfl
      · exact htaken rfl
    rw [if_neg htaken]
    refine iff_of_true (if_neg htaken) ?_
    exact (assigned_eq_iff h _ _).mpr fun hj => absurd hj hop

end TransferOp

/-! ## `OneInstruction` -/

/-- The condition on the state before the instruction: a jump is not at the end of
its region, and no load that is pending overwrites the link register. -/
structure ControlAgrees (raw : Word) (s : State) : Prop where
  region : ∀ op, transferOf raw = some op → op = .j ∨ op = .jal →
    (s.registers NextPCReg).toNat % 2 ^ 28 + 4 < 2 ^ 28
  link : ∀ op r, transferOf raw = some op → op.link raw = some r →
    if r = R0 then s.registers NextPCReg + 4 = 0
    else s.registers LoadReg = BitVec.ofNat 32 r →
      s.registers LoadValueReg = s.registers NextPCReg + 4

section Control

variable {raw : Word} {s s1 s' : State} {tid : Nat}

/-- An instruction that is no transfer goes on. -/
theorem followsControl_of_sequential (hload : (s.registers LoadReg).toNat < NumGPRegs)
    (hfetch : readMem tid (s.registers PCReg) 4 s = some (.ok raw, s1))
    (hrun : s.oneInstruction tid = some (none, s')) (h : transferOf raw = none) :
    FollowsControl raw s s' := by
  obtain ⟨n, s2, hexecute, rfl⟩ := State.completed_of_run hfetch hrun
  have hregs := State.readMem_registers hfetch
  have hsequential := (decode raw).sequential_execute (s1.registers NextPCReg + 4) tid
    (not_transfers_of_transferOf h)
  obtain ⟨hpc, hsame⟩ : n.pcAfter = s1.registers NextPCReg + 4 ∧ SameControl s1 s2 :=
    hsequential s1 s1 (fun _ _ => rfl) _ _ hexecute
  have hload2 : (s2.registers LoadReg).toNat < NumGPRegs := by
    rwa [hsame LoadReg (by decide), hregs]
  constructor
  case pc => rw [State.completed_pc hload2, hsame NextPCReg (by decide), hregs]
  case nextPC =>
    rw [State.completed_nextPC, hpc, hregs]
    simp only [nextPCAfter, h]
  case link =>
    intro op r hop
    rw [h] at hop
    cases hop

/-- A branch or jump always completes, and what it leaves. -/
theorem oneInstruction_transfer {op : TransferOp}
    (hload : (s.registers LoadReg).toNat < NumGPRegs)
    (hfetch : readMem tid (s.registers PCReg) 4 s = some (.ok raw, s1)) (hapart : LinkApart raw)
    (h : transferOf raw = some op) :
    ∃ s', s.oneInstruction tid = some (none, s') ∧
      s'.registers PCReg = s.registers NextPCReg ∧
      s'.registers NextPCReg = op.pcAfterIn (decode raw) (s.registers NextPCReg + 4) s ∧
      ∀ r, op.link raw = some r → s'.registers (gp r) =
        (s.written (gp r) (s.registers NextPCReg + 4)).afterLoad r := by
  have hregs := State.readMem_registers hfetch
  have hload2 : ((op.linked (decode raw) s1).registers LoadReg).toNat < NumGPRegs := by
    rwa [op.linked_special _ _ (by decide), hregs]
  have hpc : op.pcAfterIn (decode raw) (s1.registers NextPCReg + 4) (op.linked (decode raw) s1) =
      op.pcAfterIn (decode raw) (s.registers NextPCReg + 4) s := by
    rw [TransferOp.pcAfterIn_linked h hapart]
    unfold TransferOp.pcAfterIn
    rw [hregs]
  rw [State.oneInstruction_eq, State.body_of_fetch hfetch,
    op.execute_eq (opCode_of_transferOf h), Option.bind_some]
  refine ⟨_, if_pos (Nat.lt_trans hload2 (by decide)), ?_, ?_, fun r hr => ?_⟩
  · rw [State.completed_pc hload2, op.linked_special _ _ (by decide), hregs]
  · rw [State.completed_nextPC, hpc]
  · rw [State.completed_gp, TransferOp.linked_decode, hr]
    refine State.afterLoad_congr ?_ r
    show update s1.registers (gp r) _ = update s.registers (gp r) _
    rw [hregs]

/-- **Branches and jumps follow the architecture exactly where `ControlAgrees`
holds.**  Every other instruction goes on, and a branch or jump always
completes. -/
theorem followsControl_iff (hload : (s.registers LoadReg).toNat < NumGPRegs)
    (hfetch : readMem tid (s.registers PCReg) 4 s = some (.ok raw, s1))
    (hapart : LinkApart raw) :
    (transferOf raw ≠ none → ∃ s', s.oneInstruction tid = some (none, s')) ∧
      ∀ s', s.oneInstruction tid = some (none, s') →
        (FollowsControl raw s s' ↔ ControlAgrees raw s) := by
  cases hop : transferOf raw with
  | none =>
      refine ⟨fun h => absurd rfl h, fun s' hrun => ?_⟩
      refine iff_of_true (followsControl_of_sequential hload hfetch hrun hop) ⟨?_, ?_⟩
      · intro op h
        cases hop.symm.trans h
      · intro op r h
        cases hop.symm.trans h
  | some op =>
      obtain ⟨s', hrun, hpc, hnextPC, hlink⟩ := oneInstruction_transfer hload hfetch hapart hop
      refine ⟨fun _ => ⟨s', hrun⟩, fun s'' hrun'' => ?_⟩
      cases hrun.symm.trans hrun''
      have hlink_iff : ∀ r, op.link raw = some r →
          (s'.registers (gp r) = s.registers NextPCReg + 4 ↔
            if r = R0 then s.registers NextPCReg + 4 = 0
            else s.registers LoadReg = BitVec.ofNat 32 r →
              s.registers LoadValueReg = s.registers NextPCReg + 4) := by
        intro r hr
        rw [hlink r hr, State.afterLoad_written]
        by_cases h0 : r = R0
        · rw [if_pos h0, if_pos h0, eq_comm]
        · rw [if_neg h0, if_neg h0, if_pos rfl]
          by_cases hpending : s.registers LoadReg = BitVec.ofNat 32 r
          · rw [if_pos hpending]
            exact ⟨fun e _ => e, fun e => e hpending⟩
          · rw [if_neg hpending]
            exact iff_of_true rfl fun e => absurd e hpending
      constructor
      · intro hfollows
        refine ⟨fun op' hop' => ?_, fun op' r hop' hr => ?_⟩
        · cases hop.symm.trans hop'
          exact (TransferOp.pcAfterIn_eq_iff hop s).mp (hnextPC.symm.trans hfollows.nextPC)
        · cases hop.symm.trans hop'
          exact (hlink_iff r hr).mp (hfollows.link op r hop hr)
      · intro hagrees
        refine ⟨hpc, ?_, fun op' r hop' hr => ?_⟩
        · exact hnextPC.trans ((TransferOp.pcAfterIn_eq_iff hop s).mpr (hagrees.region op hop))
        · cases hop.symm.trans hop'
          exact (hlink_iff r hr).mpr (hagrees.link op r hop hr)

end Control

/-- `jal 64`. -/
def jalWord : Word := 0x0c000010

/-- A call at address 0. -/
theorem followsControl_iff_jal : ∃ s',
    (AluOp.atInstruction jalWord 0 0).oneInstruction 1 = some (none, s') ∧
      FollowsControl jalWord (AluOp.atInstruction jalWord 0 0) s' := by
  have hword : AluOp.fetchedWord (AluOp.atInstruction jalWord 0 0) = some jalWord := by
    decide +kernel
  obtain ⟨s1, hfetch⟩ := AluOp.readMem_of_fetchedWord hword
  have hop : transferOf jalWord = some .jal := rfl
  have hapart : LinkApart jalWord := by
    intro op r h _ hjal
    cases hop.symm.trans h
    exact absurd rfl hjal
  obtain ⟨hruns, hiff⟩ :=
    followsControl_iff (AluOp.valid_atInstruction jalWord 0 0).load hfetch hapart
  obtain ⟨s', hrun⟩ := hruns (by rw [hop]; exact Option.some_ne_none _)
  refine ⟨s', hrun, (hiff s' hrun).mpr ⟨fun _ _ _ => by decide, fun op r h hr => ?_⟩⟩
  cases hop.symm.trans h
  cases hr
  rw [if_neg (by decide)]
  exact fun hload => absurd hload (by decide)

/-- `j 0`. -/
def jWord : Word := 0x08000000

/-- A thread with id 1 at the jump in the last word but one of the first region. -/
def atRegionEnd : State where
  registers r := if r = PCReg then 0x0ffffff8 else if r = NextPCReg then 0x0ffffffc else 0
  memory :=
    (Memory.boot (fun _ => false) fun _ => ⟨0, fun _ => 0⟩).install 1 0x1fffff 0
      ⟨MemorySize, Bytes.store (fun _ => 0) 120 jWord 4⟩

/-- The delay slot is the last word of the first region, and the jump to address 0
of that region goes to the second one. -/
theorem jump_leaves_region :
    transferOf jWord = some .j ∧ AluOp.fetchedWord atRegionEnd = some jWord ∧
    atRegionEnd.registers NextPCReg = 0x0ffffffc ∧ nextPCAfter jWord atRegionEnd = 0 ∧
    ∃ s', atRegionEnd.oneInstruction 1 = some (none, s') ∧
      s'.registers NextPCReg = 0x10000000 ∧ ¬FollowsControl jWord atRegionEnd s' := by
  have hafter : nextPCAfter jWord atRegionEnd = 0 := by decide +kernel
  have hrun : atRegionEnd.outcome NextPCReg = some (none, 0x10000000) := by decide +kernel
  obtain ⟨s', hs', hnextPC⟩ := State.oneInstruction_of_outcome hrun
  refine ⟨rfl, by decide +kernel, rfl, hafter, s', hs', hnextPC, fun h => ?_⟩
  exact absurd ((hnextPC.symm.trans h.nextPC).trans hafter) (by decide)

end Nachos.Machine

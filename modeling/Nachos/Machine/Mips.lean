import Nachos.Lib.Exec
import Nachos.Machine.Memory

/-!
# The processor: `machine/mipssim.cc`

A user program runs on a simulated MIPS processor.  Its registers are one array
of words: 32 general registers, then `Hi` and `Lo`, the program counters, the
target and the value of the delayed load, and the address of the last fault.

`oneInstruction` follows `Machine::OneInstruction` up to the call of
`ExceptionHandler`.  An instruction is a program of `Lib.Exec`: every read and
write of a register is a step of its own, and an exception is raised in the
state of that moment.  `raiseException` is what `RaiseException` does before it
calls the handler.

A crash stands for a failed `ASSERT`, for an index outside `registers` and for
the one quotient of `DIV` that does not fit in a word.
-/

namespace Nachos.Machine

open Function Lib

abbrev Word : Type := BitVec 32

/-! ## Registers -/

def NumGPRegs : Nat := 32

def NumTotalRegs : Nat := 40

abbrev Register : Type := Fin NumTotalRegs

def R31 : Fin NumGPRegs := ⟨31, by decide⟩
def HiReg : Register := ⟨32, by decide⟩
def LoReg : Register := ⟨33, by decide⟩
def PCReg : Register := ⟨34, by decide⟩
def NextPCReg : Register := ⟨35, by decide⟩
def PrevPCReg : Register := ⟨36, by decide⟩
def LoadReg : Register := ⟨37, by decide⟩
def LoadValueReg : Register := ⟨38, by decide⟩
def BadVAddrReg : Register := ⟨39, by decide⟩

/-- A general register as an index of `registers`. -/
def gp (r : Fin NumGPRegs) : Register := r.castLE (by decide)

/-- `registers[0]`. -/
def R0 : Fin NumGPRegs := ⟨0, by decide⟩

/-- The registers of the processor and the memory. -/
structure State where
  registers : Register → Word
  memory : Memory

/-- The arguments of `RaiseException`. -/
structure Trap where
  which : ExceptionType
  badVAddr : Word
  deriving DecidableEq

/-- A piece of `OneInstruction`. -/
abbrev Code : Type → Type := Exec State Trap

namespace Code

/-- Read a register. -/
def reg (r : Register) : Code Word := fun s => some (.ok (s.registers r), s)

/-- Write a register. -/
def setReg (r : Register) (value : Word) : Code Unit := fun s =>
  some (.ok (), { s with registers := update s.registers r value })

/-- `ASSERT`. -/
def assert (b : Bool) : Code Unit := if b then pure () else Exec.crash

/-- `Machine::ReadMem` by the thread with id `tid`, up to the handler. -/
def readMem (tid : Nat) (addr : Word) (size : Nat) : Code Word := fun s =>
  match s.memory.translate tid addr size false with
  | none => none
  | some (.error e) => some (.error ⟨e, addr⟩, s)
  | some (.ok (physicalAddress, m)) =>
      (Memory.readValue m.mainMemory.get physicalAddress size).map fun v =>
        (.ok v, { s with memory := m })

/-- `Machine::WriteMem` by the thread with id `tid`, up to the handler. -/
def writeMem (tid : Nat) (addr : Word) (size : Nat) (value : Word) : Code Unit := fun s =>
  match s.memory.translate tid addr size true with
  | none => none
  | some (.error e) => some (.error ⟨e, addr⟩, s)
  | some (.ok (physicalAddress, m)) =>
      (Memory.writeValue m.mainMemory.get physicalAddress size value).map fun f =>
        (.ok (), { s with memory := m.poke f })

/-- `Machine::DelayedLoad`.  The index `registers[LoadReg]` is outside the array
when the register holds no register number. -/
def delayedLoad (nextReg nextValue : Word) : Code Unit := do
  let target ← reg LoadReg
  let value ← reg LoadValueReg
  if h : target.toNat < NumTotalRegs then
    setReg ⟨target.toNat, h⟩ value
    setReg LoadReg nextReg
    setReg LoadValueReg nextValue
    setReg (gp R0) 0
  else Exec.crash

/-- `Machine::RaiseException`, up to the call of `ExceptionHandler`. -/
def raiseException (badVAddr : Word) : Code Unit := do
  setReg BadVAddrReg badVAddr
  delayedLoad 0 0

end Code

/-! ## Instructions -/

/-- The op codes of `mipssim.h` that the decoding tables contain. -/
inductive OpCode where
  | add | addi | addiu | addu | and | andi
  | beq | bgez | bgezal | bgtz | blez | bltz | bltzal | bne
  | div | divu | j | jal | jalr | jr
  | lb | lbu | lh | lhu | lui | lw | lwl | lwr
  | mfhi | mflo | mthi | mtlo | mult | multu | nor | or | ori
  | sb | sh | sll | sllv | slt | slti | sltiu | sltu
  | sra | srav | srl | srlv | sub | subu | sw | swl | swr
  | xor | xori | syscall | unimp | res
  deriving DecidableEq, Repr

/-- `class Instruction`, decoded. -/
structure Instruction where
  opCode : OpCode
  rs : Fin NumGPRegs
  rt : Fin NumGPRegs
  rd : Fin NumGPRegs
  extra : Word
  deriving DecidableEq

/-- `IFMT`, `JFMT` and `RFMT`. -/
inductive Format where
  | ifmt
  | jfmt
  | rfmt

/-- `OpInfo::opCode`: an op code, or one of the two values for further
decoding. -/
inductive TableCode where
  | op (o : OpCode)
  | special
  | bcond

open OpCode in
/-- `opTable`.  The rows are those of the source. -/
def opTable : List (TableCode × Format) :=
  [(.special, .rfmt), (.bcond, .ifmt), (.op j, .jfmt), (.op jal, .jfmt)] ++
  ([beq, bne, blez, bgtz,
    addi, addiu, slti, sltiu,
    andi, ori, xori, lui,
    unimp, unimp, unimp, unimp,
    res, res, res, res,
    res, res, res, res,
    res, res, res, res,
    lb, lh, lwl, lw,
    lbu, lhu, lwr, res,
    sb, sh, swl, sw,
    res, res, swr, res,
    unimp, unimp, unimp, unimp,
    res, res, res, res,
    unimp, unimp, unimp, unimp,
    res, res, res, res].map fun o => (.op o, .ifmt))

open OpCode in
/-- `specialTable`. -/
def specialTable : List OpCode :=
  [sll, res, srl, sra, sllv, res, srlv, srav,
   jr, jalr, res, res, syscall, unimp, res, res,
   mfhi, mthi, mflo, mtlo, res, res, res, res,
   mult, multu, div, divu, res, res, res, res,
   add, addu, sub, subu, .and, .or, .xor, nor,
   res, res, slt, sltu, res, res, res, res,
   res, res, res, res, res, res, res, res,
   res, res, res, res, res, res, res, res]

theorem length_opTable : 64 = opTable.length := by
  decide

theorem length_specialTable : 64 = specialTable.length := by
  decide

/-- The five bits of a register number. -/
def regField (value : Word) (shift : Nat) : Fin NumGPRegs :=
  ⟨(value >>> shift &&& 0x1f).toNat, by
    rw [BitVec.toNat_and]
    exact Nat.lt_succ_of_le Nat.and_le_right⟩

/-- The six bits of an index of a table. -/
def tableField (value : Word) (shift : Nat) : Fin 64 :=
  ⟨(value >>> shift &&& 0x3f).toNat, by
    rw [BitVec.toNat_and]
    exact Nat.lt_succ_of_le Nat.and_le_right⟩

/-- `Instruction::Decode`. -/
def decode (value : Word) : Instruction :=
  let info := opTable.get ((tableField value 26).cast length_opTable)
  { opCode :=
      match info.1 with
      | .op o => o
      | .special => specialTable.get ((tableField value 0).cast length_specialTable)
      | .bcond =>
          let i := value &&& 0x1f0000
          if i = 0 then .bltz
          else if i = 0x10000 then .bgez
          else if i = 0x100000 then .bltzal
          else if i = 0x110000 then .bgezal
          else .unimp
    rs := regField value 21
    rt := regField value 16
    rd := regField value 11
    extra :=
      match info.2 with
      | .ifmt =>
          let extra := value &&& 0xffff
          if extra &&& 0x8000 ≠ 0 then extra ||| 0xffff0000 else extra
      | .rfmt => value >>> 6 &&& 0x1f
      | .jfmt => value &&& 0x3ffffff }

/-! ## Arithmetic -/

/-- `SIGN_BIT`. -/
def signBit : Word := 0x80000000

/-- `IndexToAddr`. -/
def indexToAddr (x : Word) : Word := x <<< 2

/-- The loop of `Mult`, with `fuel` rounds left. -/
def multLoop : Nat → Word → Word → Word → Word → Word → Word × Word
  | 0, _, _, _, lo, hi => (hi, lo)
  | fuel + 1, a, bLo, bHi, lo, hi =>
      let added := lo + bLo
      let carried := if added < bLo then hi + 1 else hi
      let lo' := if a &&& 1 ≠ 0 then added else lo
      let hi' := if a &&& 1 ≠ 0 then carried + bHi else hi
      if a &&& 1 ≠ 0 ∧ a &&& 0xfffffffe = 0 then (hi', lo')
      else
        let shifted := bHi <<< 1
        multLoop fuel (a.sshiftRight 1) (bLo <<< 1)
          (if bLo &&& 0x80000000 ≠ 0 then shifted ||| 1 else shifted) lo' hi'

/-- `Mult`: the words for `Hi` and `Lo`. -/
def mult (a b : Word) (signedArith : Bool) : Word × Word :=
  if a = 0 ∨ b = 0 then (0, 0)
  else
    let negative := signedArith && (a.slt 0 != b.slt 0)
    let a := if signedArith && a.slt 0 then -a else a
    let b := if signedArith && b.slt 0 then -b else b
    let (hi, lo) := multLoop 32 a b 0 0 0
    if negative then
      let lo := ~~~lo + 1
      (if lo = 0 then ~~~hi + 1 else ~~~hi, lo)
    else (hi, lo)

/-- The value that `LB`, `LBU`, `LH` and `LHU` load. -/
def extend (value sign fill mask : Word) (signed : Bool) : Word :=
  if value &&& sign ≠ 0 ∧ signed then value ||| fill else value &&& mask

/-- The `switch` of `LWL`. -/
def mergeLoadLeft (low : Nat) (old value : Word) : Word :=
  match low with
  | 0 => value
  | 1 => old &&& 0xff ||| value <<< 8
  | 2 => old &&& 0xffff ||| value <<< 16
  | _ => old &&& 0xffffff ||| value <<< 24

/-- The `switch` of `LWR`. -/
def mergeLoadRight (low : Nat) (old value : Word) : Word :=
  match low with
  | 0 => old &&& 0xffffff00 ||| (value.sshiftRight 24 &&& 0xff)
  | 1 => old &&& 0xffff0000 ||| (value.sshiftRight 16 &&& 0xffff)
  | 2 => old &&& 0xff000000 ||| (value.sshiftRight 8 &&& 0xffffff)
  | _ => value

/-- The `switch` of `SWL`. -/
def mergeStoreLeft (low : Nat) (value rt : Word) : Word :=
  match low with
  | 0 => rt
  | 1 => value &&& 0xff000000 ||| (rt.sshiftRight 8 &&& 0xffffff)
  | 2 => value &&& 0xffff0000 ||| (rt.sshiftRight 16 &&& 0xffff)
  | _ => value &&& 0xffffff00 ||| (rt.sshiftRight 24 &&& 0xff)

/-- The `switch` of `SWR`. -/
def mergeStoreRight (low : Nat) (value rt : Word) : Word :=
  match low with
  | 0 => value &&& 0xffffff ||| rt <<< 24
  | 1 => value &&& 0xffff ||| rt <<< 16
  | 2 => value &&& 0xff ||| rt <<< 8
  | _ => rt

/-! ## The cases of `OneInstruction` -/

/-- The local variables that `OneInstruction` uses after its `switch`. -/
structure Next where
  pcAfter : Word
  nextLoadReg : Fin NumGPRegs := R0
  nextLoadValue : Word := 0

namespace Instruction

open Code

variable (i : Instruction) (pcAfter : Word)

/-- `break`, with no load and no jump. -/
def next : Code Next := pure { pcAfter := pcAfter }

/-- `registers[rd] = f(registers[rs], registers[rt])`. -/
def computeRd (f : Word → Word → Word) : Code Next := do
  let rs ← reg (gp i.rs)
  let rt ← reg (gp i.rt)
  setReg (gp i.rd) (f rs rt)
  next pcAfter

/-- `registers[rt] = f(registers[rs], extra)`. -/
def computeRt (f : Word → Word → Word) : Code Next := do
  let rs ← reg (gp i.rs)
  setReg (gp i.rt) (f rs i.extra)
  next pcAfter

/-- `registers[rd] = f(registers[rt], extra)`. -/
def shiftRd (f : Word → Word → Word) : Code Next := do
  let rt ← reg (gp i.rt)
  setReg (gp i.rd) (f rt i.extra)
  next pcAfter

/-- One register to another. -/
def move (source target : Register) : Code Next := do
  let value ← reg source
  setReg target value
  next pcAfter

/-- `ADD` and `SUB`: `overflows` is the test before the register is written. -/
def checkedRd (f : Word → Word → Word) (overflows : Word → Word → Word → Bool) : Code Next := do
  let rs ← reg (gp i.rs)
  let rt ← reg (gp i.rt)
  if overflows rs rt (f rs rt) then Exec.raise ⟨.overflowException, 0⟩
  else
    setReg (gp i.rd) (f rs rt)
    next pcAfter

/-- `ADDI`.  The test compares the sign of the sum with that of `extra`. -/
def checkedRt : Code Next := do
  let rs ← reg (gp i.rs)
  let sum := rs + i.extra
  if (rs ^^^ i.extra) &&& signBit = 0 ∧ (i.extra ^^^ sum) &&& signBit ≠ 0 then
    Exec.raise ⟨.overflowException, 0⟩
  else
    setReg (gp i.rt) sum
    next pcAfter

/-- The target of a branch, if it is taken. -/
def branch (taken : Bool) : Code Next := do
  let nextPC ← reg NextPCReg
  pure { pcAfter := if taken then nextPC + indexToAddr i.extra else pcAfter }

/-- A branch on two registers. -/
def branchRsRt (taken : Word → Word → Bool) : Code Next := do
  let rs ← reg (gp i.rs)
  let rt ← reg (gp i.rt)
  i.branch pcAfter (taken rs rt)

/-- A branch on one register. -/
def branchRs (taken : Word → Bool) : Code Next := do
  let rs ← reg (gp i.rs)
  i.branch pcAfter (taken rs)

/-- The return address of a call, written before the case falls through. -/
def link (r : Fin NumGPRegs) : Code Unit := do
  let nextPC ← reg NextPCReg
  setReg (gp r) (nextPC + 4)

/-- `J`. -/
def jump : Code Next :=
  pure { pcAfter := pcAfter &&& 0xf0000000 ||| indexToAddr i.extra }

/-- `JR`. -/
def jumpRegister : Code Next := do
  let rs ← reg (gp i.rs)
  pure { pcAfter := rs }

/-- `Hi` and `Lo` from two registers, or a crash. -/
def setHiLo (f : Word → Word → Option (Word × Word)) : Code Next := do
  let rs ← reg (gp i.rs)
  let rt ← reg (gp i.rt)
  match f rs rt with
  | none => Exec.crash
  | some (hi, lo) =>
      setReg LoReg lo
      setReg HiReg hi
      next pcAfter

/-- `tmp = registers[rs] + extra`. -/
def address : Code Word := do
  let rs ← reg (gp i.rs)
  pure (rs + i.extra)

/-- `LB`, `LH`, `LW` and their unsigned variants: `align` are the bits of the
address that the case itself tests. -/
def load (tid size : Nat) (align : Word) (f : Word → Word) : Code Next := do
  let tmp ← i.address
  if tmp &&& align ≠ 0 then Exec.raise ⟨.addressErrorException, tmp⟩
  else
    let value ← readMem tid tmp size
    pure { pcAfter := pcAfter, nextLoadReg := i.rt, nextLoadValue := f value }

/-- The value of `rt` for `LWL` and `LWR`, which look through the delayed
load. -/
def forwarded : Code Word := do
  let target ← reg LoadReg
  if target = BitVec.ofNat 32 i.rt then reg LoadValueReg else reg (gp i.rt)

/-- `LWL` and `LWR`. -/
def loadMerged (tid : Nat) (merge : Nat → Word → Word → Word) : Code Next := do
  let tmp ← i.address
  assert (tmp &&& 0x3 == 0)
  let value ← readMem tid tmp 4
  let old ← i.forwarded
  pure { pcAfter := pcAfter, nextLoadReg := i.rt,
         nextLoadValue := merge (tmp &&& 0x3).toNat old value }

/-- `SB`, `SH` and `SW`. -/
def store (tid size : Nat) : Code Next := do
  let tmp ← i.address
  let rt ← reg (gp i.rt)
  writeMem tid tmp size rt
  next pcAfter

/-- `SWL` and `SWR`. -/
def storeMerged (tid : Nat) (merge : Nat → Word → Word → Word) : Code Next := do
  let tmp ← i.address
  assert (tmp &&& 0x3 == 0)
  let value ← readMem tid (tmp &&& ~~~0x3) 4
  let rt ← reg (gp i.rt)
  writeMem tid (tmp &&& ~~~0x3) 4 (merge (tmp &&& 0x3).toNat value rt)
  next pcAfter

/-- The `switch` of `OneInstruction` in the thread with id `tid`. -/
def execute (tid : Nat) : Code Next :=
  match i.opCode with
  | .add => i.checkedRd pcAfter (· + ·) fun rs rt sum =>
      (rs ^^^ rt) &&& signBit == 0 && (rs ^^^ sum) &&& signBit != 0
  | .addi => i.checkedRt pcAfter
  | .addiu => i.computeRt pcAfter (· + ·)
  | .addu => i.computeRd pcAfter (· + ·)
  | .and => i.computeRd pcAfter (· &&& ·)
  | .andi => i.computeRt pcAfter fun rs extra => rs &&& (extra &&& 0xffff)
  | .beq => i.branchRsRt pcAfter fun rs rt => rs == rt
  | .bgezal => do
      link R31
      i.branchRs pcAfter fun rs => rs &&& signBit == 0
  | .bgez => i.branchRs pcAfter fun rs => rs &&& signBit == 0
  | .bgtz => i.branchRs pcAfter fun rs => (0 : Word).slt rs
  | .blez => i.branchRs pcAfter fun rs => rs.sle 0
  | .bltzal => do
      link R31
      i.branchRs pcAfter fun rs => rs &&& signBit != 0
  | .bltz => i.branchRs pcAfter fun rs => rs &&& signBit != 0
  | .bne => i.branchRsRt pcAfter fun rs rt => rs != rt
  | .div => i.setHiLo pcAfter fun rs rt =>
      if rt = 0 then some (0, 0)
      else if rs = signBit ∧ rt = -1 then none
      else some (rs.srem rt, rs.sdiv rt)
  | .divu => i.setHiLo pcAfter fun rs rt =>
      if rt = 0 then some (0, 0) else some (rs % rt, rs / rt)
  | .jal => do
      link R31
      i.jump pcAfter
  | .j => i.jump pcAfter
  | .jalr => do
      link i.rd
      i.jumpRegister
  | .jr => i.jumpRegister
  | .lb => i.load pcAfter tid 1 0 fun value => extend value 0x80 0xffffff00 0xff true
  | .lbu => i.load pcAfter tid 1 0 fun value => extend value 0x80 0xffffff00 0xff false
  | .lh => i.load pcAfter tid 2 0x1 fun value => extend value 0x8000 0xffff0000 0xffff true
  | .lhu => i.load pcAfter tid 2 0x1 fun value => extend value 0x8000 0xffff0000 0xffff false
  | .lui => do
      setReg (gp i.rt) (i.extra <<< 16)
      next pcAfter
  | .lw => i.load pcAfter tid 4 0x3 fun value => value
  | .lwl => i.loadMerged pcAfter tid mergeLoadLeft
  | .lwr => i.loadMerged pcAfter tid mergeLoadRight
  | .mfhi => move pcAfter HiReg (gp i.rd)
  | .mflo => move pcAfter LoReg (gp i.rd)
  | .mthi => move pcAfter (gp i.rs) HiReg
  | .mtlo => move pcAfter (gp i.rs) LoReg
  | .mult => i.setHiLo pcAfter fun rs rt => some (Machine.mult rs rt true)
  | .multu => i.setHiLo pcAfter fun rs rt => some (Machine.mult rs rt false)
  | .nor => i.computeRd pcAfter fun rs rt => ~~~(rs ||| rt)
  | .or => do
      -- The source reads `rs` twice; `rt` is not an operand.
      let rs ← reg (gp i.rs)
      setReg (gp i.rd) (rs ||| rs)
      next pcAfter
  | .ori => i.computeRt pcAfter fun rs extra => rs ||| (extra &&& 0xffff)
  | .sb => i.store pcAfter tid 1
  | .sh => i.store pcAfter tid 2
  | .sll => i.shiftRd pcAfter fun rt extra => rt <<< extra
  | .sllv => i.computeRd pcAfter fun rs rt => rt <<< (rs &&& 0x1f)
  | .slt => i.computeRd pcAfter fun rs rt => if rs.slt rt then 1 else 0
  | .slti => i.computeRt pcAfter fun rs extra => if rs.slt extra then 1 else 0
  | .sltiu => i.computeRt pcAfter fun rs extra => if rs.ult extra then 1 else 0
  | .sltu => i.computeRd pcAfter fun rs rt => if rs.ult rt then 1 else 0
  | .sra => i.shiftRd pcAfter fun rt extra => rt.sshiftRight' extra
  | .srav => i.computeRd pcAfter fun rs rt => rt.sshiftRight' (rs &&& 0x1f)
  -- `tmp` is an `int`, so the logical shifts of the source are arithmetic.
  | .srl => i.shiftRd pcAfter fun rt extra => rt.sshiftRight' extra
  | .srlv => i.computeRd pcAfter fun rs rt => rt.sshiftRight' (rs &&& 0x1f)
  | .sub => i.checkedRd pcAfter (· - ·) fun rs rt diff =>
      (rs ^^^ rt) &&& signBit != 0 && (rs ^^^ diff) &&& signBit != 0
  | .subu => i.computeRd pcAfter (· - ·)
  | .sw => i.store pcAfter tid 4
  | .swl => i.storeMerged pcAfter tid mergeStoreLeft
  | .swr => i.storeMerged pcAfter tid mergeStoreRight
  | .xor => i.computeRd pcAfter (· ^^^ ·)
  | .xori => i.computeRt pcAfter fun rs extra => rs ^^^ (extra &&& 0xffff)
  | .syscall => Exec.raise ⟨.syscallException, 0⟩
  | .unimp | .res => Exec.raise ⟨.illegalInstrException, 0⟩

/-- The general registers that the instruction reads or writes. -/
def operands : List (Fin NumGPRegs) :=
  match i.opCode with
  | .add | .addu | .and | .nor | .slt | .sltu | .sllv | .srav | .srlv | .sub | .subu | .xor =>
      [i.rs, i.rt, i.rd]
  | .addi | .addiu | .andi | .ori | .slti | .sltiu | .xori => [i.rs, i.rt]
  | .beq | .bne | .div | .divu | .mult | .multu => [i.rs, i.rt]
  | .lb | .lbu | .lh | .lhu | .lw | .lwl | .lwr => [i.rs, i.rt]
  | .sb | .sh | .sw | .swl | .swr => [i.rs, i.rt]
  | .bgez | .bgtz | .blez | .bltz | .jr | .mthi | .mtlo => [i.rs]
  | .bgezal | .bltzal => [i.rs, R31]
  | .jalr | .or => [i.rs, i.rd]
  | .sll | .sra | .srl => [i.rt, i.rd]
  | .jal => [R31]
  | .lui => [i.rt]
  | .mfhi | .mflo => [i.rd]
  | .j | .syscall | .unimp | .res => []

end Instruction

/-! ## `OneInstruction` -/

namespace State

open Code

/-- The end of `OneInstruction`. -/
def advance (n : Next) : Code Unit := do
  delayedLoad (BitVec.ofNat 32 n.nextLoadReg) n.nextLoadValue
  let pc ← reg PCReg
  setReg PrevPCReg pc
  let nextPC ← reg NextPCReg
  setReg PCReg nextPC
  setReg NextPCReg n.pcAfter

/-- `OneInstruction` without the exceptions that it raises. -/
def instruction (tid : Nat) : Code Unit := do
  let pc ← reg PCReg
  let raw ← readMem tid pc 4
  let nextPC ← reg NextPCReg
  let n ← (decode raw).execute (nextPC + 4) tid
  advance n

/-- `Machine::OneInstruction` by the thread with id `tid`: the exception, if
there is one, and the state at the end or at the call of `ExceptionHandler`. -/
def oneInstruction (s : State) (tid : Nat) : Option (Option Trap × State) :=
  match instruction tid s with
  | none => none
  | some (.ok (), s') => some (none, s')
  | some (.error trap, s') =>
      match raiseException trap.badVAddr s' with
      | some (.ok (), s'') => some (some trap, s'')
      | _ => none

end State

end Nachos.Machine

import Nachos.Lib.DoubleWord
import Nachos.Machine.Mips

/-!
# The product of two words: `Mult` in `machine/mipssim.cc`

`Mult` adds shifted copies of `b` for the bits of `a`, from the lowest bit on.
The sum is kept in `hi` and `lo`, the shifted copy in `bHi` and `bLo`, and both
are numbers of 64 bits: the carry and the shift are those of `Lib.DoubleWord`.

The loop shifts `a` as a signed number, in the unsigned case as well.  The bits
that come in at the top are never looked at: after `k` rounds there are `32 - k`
left, and they read only as many bits.
-/

namespace Nachos.Machine

open Lib

/-! ## The tests of the loop -/

theorem toNat_and_one (a : Word) : (a &&& 1).toNat = a.toNat % 2 := by
  rw [BitVec.toNat_and]
  exact Nat.and_one_is_mod a.toNat

theorem and_one_ne_zero (a : Word) : a &&& 1 ≠ 0 ↔ a.toNat % 2 = 1 := by
  rw [ne_eq, BitVec.toNat_eq, toNat_and_one]
  show ¬ a.toNat % 2 = 0 ↔ _
  omega

/-- The `break`: no bit but the lowest is left. -/
theorem eq_one_of_and (a : Word) (hodd : a &&& 1 ≠ 0) (hrest : a &&& 0xfffffffe = 0) : a = 1 := by
  have hsplit : a &&& 1 = a := by
    calc a &&& 1 = (a &&& 1) ||| (a &&& 0xfffffffe) := by rw [hrest]; exact BitVec.or_zero.symm
      _ = a &&& (1 ||| 0xfffffffe) := by rw [BitVec.and_or_distrib_left]
      _ = a := BitVec.and_allOnes
  apply BitVec.eq_of_toNat_eq
  rw [← hsplit, toNat_and_one, (and_one_ne_zero a).mp hodd]
  rfl

/-- The bit that the shift of `bLo` loses is the carry of `bLo + bLo`. -/
theorem and_signBit_ne_zero (x : Word) : x &&& 0x80000000 ≠ 0 ↔ x + x < x := by
  have hx := x.isLt
  have htop : x.getLsbD 31 = decide (2 ^ 31 ≤ x.toNat) := by
    rw [← BitVec.msb_eq_getLsbD_last, BitVec.msb_eq_decide]
  rw [show (0x80000000 : Word) = BitVec.twoPow 32 31 from rfl, BitVec.and_twoPow, htop,
    BitVec.lt_def, BitVec.toNat_add]
  by_cases h : 2 ^ 31 ≤ x.toNat
  · have hne : BitVec.twoPow 32 31 ≠ (0 : Word) := by decide
    rw [decide_eq_true h, if_pos rfl, iff_true_left hne]
    omega
  · have heq : ¬ (0#32 : Word) ≠ 0 := by decide
    rw [decide_eq_false h, if_neg (by decide), iff_false_left heq]
    omega

/-- One round of shifting `b`. -/
theorem shift_append (bHi bLo : Word) :
    (if bLo &&& 0x80000000 ≠ 0 then bHi <<< 1 ||| 1 else bHi <<< 1) ++ bLo <<< 1 =
      bHi ++ bLo + (bHi ++ bLo) := by
  have hdouble : ∀ x : Word, x <<< 1 = x + x := by
    intro x
    rw [BitVec.shiftLeft_eq_mul_twoPow, ← BitVec.mul_two]
    rfl
  have hor : bHi <<< 1 ||| 1 = bHi + 1 + bHi := by
    rw [← BitVec.add_eq_or_of_and_eq_zero, hdouble]
    · ring
    · apply BitVec.eq_of_toNat_eq
      rw [toNat_and_one, BitVec.toNat_shiftLeft, Nat.shiftLeft_eq]
      show (bHi.toNat * 2 ^ 1) % 2 ^ 32 % 2 = 0
      omega
  rw [← DoubleWord.add_append, hor, hdouble bHi, hdouble bLo]
  by_cases h : bLo + bLo < bLo
  · rw [if_pos h, if_pos ((and_signBit_ne_zero bLo).mpr h)]
  · rw [if_neg h, if_neg (mt (and_signBit_ne_zero bLo).mp h)]

/-- The bits of `a` that the remaining rounds look at. -/
theorem toNat_sshiftRight_mod (a : Word) {fuel : Nat} (hfuel : fuel ≤ 31) :
    (a.sshiftRight 1).toNat % 2 ^ fuel = a.toNat / 2 % 2 ^ fuel := by
  have ha := a.isLt
  rw [BitVec.toNat_sshiftRight]
  cases hmsb : a.msb with
  | false => rw [if_neg (by decide), Nat.shiftRight_eq_div_pow]
  | true =>
      have hfill : 2 ^ 32 - 1 - (2 ^ 32 - 1 - a.toNat) >>> 1 =
          2 ^ fuel * 2 ^ (31 - fuel) + a.toNat / 2 := by
        rw [← Nat.pow_add, Nat.add_sub_of_le hfuel, Nat.shiftRight_eq_div_pow]
        omega
      rw [if_pos rfl, hfill, Nat.mul_add_mod]

/-! ## The loop -/

/-- With `fuel` rounds left, the low `fuel` bits of `a` are still to be
multiplied. -/
theorem multLoop_spec (fuel : Nat) (hfuel : fuel ≤ 32) (a bLo bHi lo hi : Word) :
    (multLoop fuel a bLo bHi lo hi).1 ++ (multLoop fuel a bLo bHi lo hi).2 =
      hi ++ lo + (bHi ++ bLo) * ((a.toNat % 2 ^ fuel : Nat) : BitVec 64) := by
  induction fuel generalizing a bLo bHi lo hi with
  | zero => simp [multLoop, Nat.mod_one]
  | succ fuel ih =>
      have hbits : a.toNat % 2 ^ (fuel + 1) =
          a.toNat % 2 + 2 * ((a.sshiftRight 1).toNat % 2 ^ fuel) := by
        rw [toNat_sshiftRight_mod a (by omega), Nat.pow_succ, Nat.mul_comm, Nat.mod_mul]
      by_cases hodd : a &&& 1 ≠ 0
      · have hbit := (and_one_ne_zero a).mp hodd
        simp only [multLoop, if_pos hodd]
        by_cases hrest : a &&& 0xfffffffe = 0
        · -- The last bit of `a`: the `break`.
          have hone := eq_one_of_and a hodd hrest
          have hlow : a.toNat % 2 ^ (fuel + 1) = 1 := by
            rw [hone]
            exact Nat.mod_eq_of_lt (Nat.one_lt_two_pow (by omega))
          rw [if_pos ⟨hodd, hrest⟩, hlow, DoubleWord.add_append, Nat.cast_one, mul_one]
        · rw [if_neg (fun h => hrest h.2), ih (by omega), DoubleWord.add_append, shift_append,
            hbits, hbit, Nat.cast_add, Nat.cast_mul, Nat.cast_one, Nat.cast_two]
          ring
      · have hbit : a.toNat % 2 = 0 := by
          have := mt (and_one_ne_zero a).mpr hodd
          omega
        simp only [multLoop, if_neg hodd]
        rw [if_neg (fun h => hodd h.1), ih (by omega), shift_append, hbits, hbit, Nat.zero_add,
          Nat.cast_mul, Nat.cast_two]
        ring

/-- The whole loop: an unsigned product, which fits in two words. -/
theorem toNat_multLoop (a b : Word) :
    ((multLoop 32 a b 0 0 0).1 ++ (multLoop 32 a b 0 0 0).2).toNat = a.toNat * b.toNat := by
  have hfits : b.toNat * a.toNat < 2 ^ 64 := by
    have hmul := Nat.mul_lt_mul'' b.isLt a.isLt
    rwa [← Nat.pow_add] at hmul
  have hb : b.toNat < 2 ^ 64 := Nat.lt_trans b.isLt (by decide)
  have ha : a.toNat < 2 ^ 64 := Nat.lt_trans a.isLt (by decide)
  rw [multLoop_spec 32 (Nat.le_refl 32), Nat.mod_eq_of_lt a.isLt, BitVec.toNat_add,
    BitVec.toNat_mul, DoubleWord.toNat_append, DoubleWord.toNat_append, BitVec.natCast_eq_ofNat,
    BitVec.toNat_ofNat]
  show (0 + (0 + b.toNat) * (a.toNat % 2 ^ 64) % 2 ^ 64) % 2 ^ 64 = _
  rw [Nat.zero_add, Nat.zero_add, Nat.mod_eq_of_lt ha, Nat.mod_eq_of_lt hfits,
    Nat.mod_eq_of_lt hfits, Nat.mul_comm]

theorem multLoop_eq_ofInt (a b : Word) :
    (multLoop 32 a b 0 0 0).1 ++ (multLoop 32 a b 0 0 0).2 =
      BitVec.ofInt 64 ((a.toNat : Int) * b.toNat) := by
  rw [← Nat.cast_mul, ← toNat_multLoop, BitVec.ofInt_natCast, BitVec.ofNat_toNat,
    BitVec.setWidth_eq]

/-! ## The signs -/

/-- `-a` for a negative `a`, the most negative number included: as an unsigned
word it is the absolute value. -/
theorem toInt_of_slt {a : Word} (h : a.slt 0 = true) : a.toInt = -((-a).toNat : Int) := by
  have hmsb : a.msb = true := BitVec.slt_zero_iff_msb_cond.mp h
  have hlarge : 2 ^ 31 ≤ a.toNat := of_decide_eq_true ((BitVec.msb_eq_decide a).symm.trans hmsb)
  have ha := a.isLt
  rw [BitVec.toInt_eq_msb_cond, if_pos hmsb, BitVec.toNat_neg]
  omega

theorem toInt_of_not_slt {a : Word} (h : a.slt 0 = false) : a.toInt = a.toNat := by
  have hmsb : a.msb = false := BitVec.slt_zero_eq_msb.symm.trans h
  rw [BitVec.toInt_eq_msb_cond, hmsb, if_neg (by decide)]

/-- A signed product always fits in two words. -/
theorem toInt_ofInt_mul (a b : Word) :
    (BitVec.ofInt 64 (a.toInt * b.toInt)).toInt = a.toInt * b.toInt := by
  have hle : a.toInt * b.toInt ≤ 2 ^ (32 * 2 - 2) := BitVec.toInt_mul_toInt_le
  have hge : -2 ^ (32 * 2 - 2) ≤ a.toInt * b.toInt := BitVec.le_toInt_mul_toInt
  rw [BitVec.toInt_ofInt]
  apply Int.bmod_eq_of_le_mul_two
  · omega
  · omega

theorem mult_unsigned (a b : Word) :
    ((mult a b false).1 ++ (mult a b false).2).toNat = a.toNat * b.toNat := by
  unfold mult
  by_cases hzero : a = 0 ∨ b = 0
  · rw [if_pos hzero]
    rcases hzero with rfl | rfl
    · simp
    · simp
  · rw [if_neg hzero]
    exact toNat_multLoop a b

theorem mult_signed (a b : Word) :
    (mult a b true).1 ++ (mult a b true).2 = BitVec.ofInt 64 (a.toInt * b.toInt) := by
  unfold mult
  by_cases hzero : a = 0 ∨ b = 0
  · rw [if_pos hzero]
    rcases hzero with rfl | rfl
    · simp
    · simp
  · rw [if_neg hzero]
    cases ha : a.slt 0 with
    | false =>
        cases hb : b.slt 0 with
        | false =>
            rw [toInt_of_not_slt ha, toInt_of_not_slt hb]
            exact multLoop_eq_ofInt a b
        | true =>
            rw [toInt_of_not_slt ha, toInt_of_slt hb, mul_neg, BitVec.ofInt_neg,
              ← multLoop_eq_ofInt a (-b)]
            exact DoubleWord.neg_append _ _
    | true =>
        cases hb : b.slt 0 with
        | false =>
            rw [toInt_of_slt ha, toInt_of_not_slt hb, neg_mul, BitVec.ofInt_neg,
              ← multLoop_eq_ofInt (-a) b]
            exact DoubleWord.neg_append _ _
        | true =>
            rw [toInt_of_slt ha, toInt_of_slt hb, neg_mul_neg]
            exact multLoop_eq_ofInt (-a) (-b)

/-- **`Mult` is exact.**  The two words are the 64 bits of the product: of the
signed operands, and of the unsigned ones. -/
theorem mult_exact (a b : Word) :
    ((mult a b true).1 ++ (mult a b true).2).toInt = a.toInt * b.toInt ∧
      ((mult a b false).1 ++ (mult a b false).2).toNat = a.toNat * b.toNat := by
  constructor
  · rw [mult_signed, toInt_ofInt_mul]
  · exact mult_unsigned a b

/-! ## The instructions -/

/-- The state after the two writes of `MULT` and `MULTU`. -/
def State.setProduct (s : State) (hi lo : Word) : State :=
  { s with registers := Function.update (Function.update s.registers LoReg lo) HiReg hi }

/-- `Hi` and `Lo` as one number. -/
def State.product (s : State) : BitVec 64 := s.registers HiReg ++ s.registers LoReg

theorem product_setProduct (s : State) (hi lo : Word) :
    (s.setProduct hi lo).product = hi ++ lo := by
  have hne : LoReg ≠ HiReg := by decide
  show Function.update (Function.update s.registers LoReg lo) HiReg hi HiReg ++
    Function.update (Function.update s.registers LoReg lo) HiReg hi LoReg = hi ++ lo
  rw [Function.update_self, Function.update_of_ne hne, Function.update_self]

variable (i : Instruction) (pcAfter : Word) (tid : Nat) (s : State)

theorem execute_setHiLo (f : Word → Word → Word × Word) :
    i.setHiLo pcAfter (fun rs rt => some (f rs rt)) s =
      some (.ok { pcAfter := pcAfter },
        s.setProduct (f (s.registers (gp i.rs)) (s.registers (gp i.rt))).1
          (f (s.registers (gp i.rs)) (s.registers (gp i.rt))).2) := rfl

/-- `MULT` leaves the signed product of its operands in `Hi` and `Lo`. -/
theorem execute_mult (h : i.opCode = .mult) :
    ∃ s', i.execute pcAfter tid s = some (.ok { pcAfter := pcAfter }, s') ∧
      s'.product.toInt =
        (s.registers (gp i.rs)).toInt * (s.registers (gp i.rt)).toInt := by
  unfold Instruction.execute
  rw [h]
  refine ⟨_, execute_setHiLo i pcAfter s fun rs rt => mult rs rt true, ?_⟩
  rw [product_setProduct, mult_signed, toInt_ofInt_mul]

/-- `MULTU` leaves the unsigned product there. -/
theorem execute_multu (h : i.opCode = .multu) :
    ∃ s', i.execute pcAfter tid s = some (.ok { pcAfter := pcAfter }, s') ∧
      s'.product.toNat =
        (s.registers (gp i.rs)).toNat * (s.registers (gp i.rt)).toNat := by
  unfold Instruction.execute
  rw [h]
  refine ⟨_, execute_setHiLo i pcAfter s fun rs rt => mult rs rt false, ?_⟩
  rw [product_setProduct, mult_unsigned]

end Nachos.Machine

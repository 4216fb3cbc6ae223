import Mathlib.Data.BitVec
import Mathlib.Tactic.Ring

/-!
# Two words as one number of twice the width

A program without a wide enough type keeps such a number in two variables.  The
number is `hi ++ lo`; the lemmas say what it costs to add, to double and to
negate it word by word, with the carry found by a comparison.
-/

namespace Nachos.Lib.DoubleWord

variable {w : Nat}

theorem toNat_append (hi lo : BitVec w) : (hi ++ lo).toNat = hi.toNat * 2 ^ w + lo.toNat := by
  rw [BitVec.toNat_append, ← Nat.shiftLeft_add_eq_or_of_lt lo.isLt, Nat.shiftLeft_eq]

/-- The high word may be given as a number that does not fit: what is lost there
is lost in the double word too. -/
theorem ofNat_append (n : Nat) (lo : BitVec w) :
    BitVec.ofNat w n ++ lo = BitVec.ofNat (w + w) (n * 2 ^ w + lo.toNat) := by
  apply BitVec.eq_of_toNat_eq
  rw [toNat_append, BitVec.toNat_ofNat, BitVec.toNat_ofNat, Nat.pow_add,
    Nat.mul_comm (2 ^ w) (2 ^ w), Nat.mod_mul]
  have hlo : (n * 2 ^ w + lo.toNat) % 2 ^ w = lo.toNat := by
    rw [Nat.mul_comm, Nat.mul_add_mod, Nat.mod_eq_of_lt lo.isLt]
  have hhi : (n * 2 ^ w + lo.toNat) / 2 ^ w = n := by
    rw [Nat.mul_comm, Nat.mul_add_div (Nat.two_pow_pos w), Nat.div_eq_of_lt lo.isLt, Nat.add_zero]
  rw [hlo, hhi, Nat.add_comm, Nat.mul_comm]

theorem append_eq_ofNat (hi lo : BitVec w) :
    hi ++ lo = BitVec.ofNat (w + w) (hi.toNat * 2 ^ w + lo.toNat) := by
  rw [← ofNat_append, BitVec.ofNat_toNat, BitVec.setWidth_eq]

/-- A sum of two words is smaller than one of them exactly when it wraps. -/
theorem toNat_add_carry (x y : BitVec w) :
    (x + y).toNat + (if x + y < y then 2 ^ w else 0) = x.toNat + y.toNat := by
  have hx := x.isLt
  have hy := y.isLt
  simp only [BitVec.lt_def, BitVec.toNat_add]
  by_cases h : x.toNat + y.toNat < 2 ^ w
  · rw [Nat.mod_eq_of_lt h, if_neg (by omega), Nat.add_zero]
  · rw [Nat.mod_eq_sub_mod (by omega), Nat.mod_eq_of_lt (by omega), if_pos (by omega)]
    omega

/-- Addition, with the carry out of the low words. -/
theorem add_append (hi lo bHi bLo : BitVec w) :
    (if lo + bLo < bLo then hi + 1 else hi) + bHi ++ (lo + bLo) = hi ++ lo + (bHi ++ bLo) := by
  have hcarry := toNat_add_carry lo bLo
  rw [append_eq_ofNat hi lo, append_eq_ofNat bHi bLo, BitVec.ofNat_add_ofNat]
  by_cases h : lo + bLo < bLo
  · have hhi : hi + 1 + bHi = BitVec.ofNat w (hi.toNat + 1 + bHi.toNat) := by
      rw [BitVec.ofNat_add, BitVec.ofNat_add, BitVec.ofNat_toNat, BitVec.setWidth_eq,
        BitVec.ofNat_toNat, BitVec.setWidth_eq]
      rfl
    rw [if_pos h] at hcarry ⊢
    rw [hhi, ofNat_append, Nat.add_mul, Nat.add_mul]
    congr 1
    omega
  · have hhi : hi + bHi = BitVec.ofNat w (hi.toNat + bHi.toNat) := by
      rw [BitVec.ofNat_add, BitVec.ofNat_toNat, BitVec.setWidth_eq, BitVec.ofNat_toNat,
        BitVec.setWidth_eq]
    rw [if_neg h] at hcarry ⊢
    rw [hhi, ofNat_append, Nat.add_mul]
    congr 1
    omega

theorem zero_append (lo : BitVec w) : (0 : BitVec w) ++ lo = BitVec.ofNat (w + w) lo.toNat := by
  rw [append_eq_ofNat]
  simp

/-- Negation: both words are complemented, and one is added at the low end. -/
theorem neg_append (hi lo : BitVec (w + 1)) :
    (if ~~~lo + 1 = 0 then ~~~hi + 1 else ~~~hi) ++ (~~~lo + 1) = -(hi ++ lo) := by
  have hone : (1#(w + 1 + (w + 1))) = (0 : BitVec (w + 1)) ++ (1 : BitVec (w + 1)) := by
    rw [zero_append]
    simp
  have hcarry : ~~~lo + 1 < 1 ↔ ~~~lo + 1 = 0 := by
    simp [BitVec.lt_def, BitVec.toNat_eq]
  rw [BitVec.neg_eq_not_add, BitVec.not_append, hone, ← add_append]
  simp only [hcarry, add_zero]

end Nachos.Lib.DoubleWord

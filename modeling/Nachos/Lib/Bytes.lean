import Mathlib.Logic.Function.Basic
import Mathlib.Data.BitVec

/-!
# Byte memories

A memory is a function from addresses to bytes.  `copy` is the loop that
copies a block, and `load` and `store` are the accesses of a little-endian
machine to a block of a few bytes.  `word` is a load of four bytes.  A
`CharArray` is a memory with a size, as `new char[size]` makes it; an access
outside the size is undefined, and the operations return `none` for it.

The lemmas say which bytes an operation reads and writes: `copy_apply` and
`store_apply` for the contents afterwards, `load_congr` for two memories that
agree on a block, and `word_of_bytes` for a word that is stored byte by byte.

`i32` is the value of an `int` expression: the exact result, wrapped to 32
bits.  `map_range_splice` says what a list of bytes is after one block of it
was overwritten.
-/

namespace Nachos.Lib

open Function

abbrev Byte := BitVec 8

/-- The bytes at all addresses. -/
abbrev Bytes := Nat → Byte

namespace Bytes

variable {f g : Bytes}

/-! ## Copies -/

/-- `for (j = 0; j < n; j++) dst[d + j] = src[s + j]`, for two arrays that do
not overlap. -/
def copy (dst : Bytes) (d : Nat) (src : Bytes) (s : Nat) : Nat → Bytes
  | 0 => dst
  | n + 1 => update (copy dst d src s n) (d + n) (src (s + n))

theorem copy_apply (dst : Bytes) (d : Nat) (src : Bytes) (s n a : Nat) :
    copy dst d src s n a = if d ≤ a ∧ a < d + n then src (s + (a - d)) else dst a := by
  induction n with
  | zero =>
    rw [copy, if_neg (by omega)]
  | succ n ih =>
    rw [copy]
    by_cases ha : a = d + n
    · subst ha
      rw [update_self, if_pos (by omega), Nat.add_sub_cancel_left]
    · rw [update_of_ne ha, ih]
      by_cases hin : d ≤ a ∧ a < d + n
      · rw [if_pos hin, if_pos (by omega)]
      · rw [if_neg hin, if_neg (by omega)]

/-! ## Little-endian accesses -/

/-- The number in the `n` bytes at `a`. -/
def load (f : Bytes) (a : Nat) : Nat → Nat
  | 0 => 0
  | n + 1 => load f a n + 256 ^ n * (f (a + n)).toNat

/-- Store the low `n` bytes of `v` at `a`. -/
def store (f : Bytes) (a : Nat) (v : BitVec 32) : Nat → Bytes
  | 0 => f
  | n + 1 => update (store f a v n) (a + n) (v.extractLsb' (8 * n) 8)

theorem load_congr {a b n : Nat} (h : ∀ j, j < n → f (a + j) = g (b + j)) :
    load f a n = load g b n := by
  induction n with
  | zero => rfl
  | succ n ih =>
    rw [load, load, ih fun j hj => h j (by omega), h n (by omega)]

theorem store_apply (f : Bytes) (a : Nat) (v : BitVec 32) (n x : Nat) :
    store f a v n x = if a ≤ x ∧ x < a + n then v.extractLsb' (8 * (x - a)) 8 else f x := by
  induction n with
  | zero =>
    rw [store, if_neg (by omega)]
  | succ n ih =>
    rw [store]
    by_cases hx : x = a + n
    · subst hx
      rw [update_self, if_pos (by omega), Nat.add_sub_cancel_left]
    · rw [update_of_ne hx, ih]
      by_cases hin : a ≤ x ∧ x < a + n
      · rw [if_pos hin, if_pos (by omega)]
      · rw [if_neg hin, if_neg (by omega)]

theorem load_of_bytes {a n : Nat} {w : BitVec 32}
    (h : ∀ j, j < n → f (a + j) = w.extractLsb' (8 * j) 8) :
    load f a n = w.toNat % 256 ^ n := by
  induction n with
  | zero => simp [load, Nat.mod_one]
  | succ n ih =>
    have hpow : 2 ^ (8 * n) = 256 ^ n := by
      rw [Nat.pow_mul]
    rw [load, ih fun j hj => h j (by omega), h n (by omega), Nat.pow_succ, Nat.mod_mul,
      BitVec.extractLsb'_toNat, Nat.shiftRight_eq_div_pow, hpow]

/-- The word at `a`. -/
def word (f : Bytes) (a : Nat) : BitVec 32 := BitVec.ofNat 32 (load f a 4)

theorem word_congr {a b : Nat} (h : ∀ j, j < 4 → f (a + j) = g (b + j)) :
    word f a = word g b := by
  rw [word, word, load_congr h]

/-- The four bytes of a word. -/
theorem word_of_bytes {a : Nat} {w : BitVec 32}
    (h : ∀ j, j < 4 → f (a + j) = w.extractLsb' (8 * j) 8) : word f a = w := by
  rw [word, load_of_bytes h]
  apply BitVec.eq_of_toNat_eq
  have := w.isLt
  simp only [BitVec.toNat_ofNat]
  omega

theorem load_lt (f : Bytes) (a n : Nat) : load f a n < 2 ^ (8 * n) := by
  induction n with
  | zero => exact Nat.one_pos
  | succ n ih =>
    have hbyte := (f (a + n)).isLt
    have hpow : 256 ^ n = 2 ^ (8 * n) := by rw [Nat.pow_mul]
    rw [load, hpow, Nat.mul_succ, Nat.pow_add]
    calc load f a n + 2 ^ (8 * n) * (f (a + n)).toNat
        < 2 ^ (8 * n) + 2 ^ (8 * n) * (f (a + n)).toNat := Nat.add_lt_add_right ih _
      _ = 2 ^ (8 * n) * ((f (a + n)).toNat + 1) := by rw [Nat.mul_succ, Nat.add_comm]
      _ ≤ 2 ^ (8 * n) * 2 ^ 8 := Nat.mul_le_mul_left _ hbyte

/-- A bit of the number is a bit of one of the bytes. -/
theorem testBit_load (f : Bytes) (a : Nat) {n k : Nat} (hk : k < 8 * n) :
    (load f a n).testBit k = (f (a + k / 8)).getLsbD (k % 8) := by
  induction n with
  | zero => exact absurd hk (Nat.not_lt_zero k)
  | succ n ih =>
    have hpow : 256 ^ n = 2 ^ (8 * n) := by rw [Nat.pow_mul]
    rw [load, hpow, Nat.add_comm, Nat.testBit_two_pow_mul_add _ (load_lt f a n)]
    by_cases hlow : k < 8 * n
    · rw [if_pos hlow, ih hlow]
    · rw [if_neg hlow, show k / 8 = n by omega, show k - 8 * n = k % 8 by omega]
      rfl

theorem getLsbD_word (f : Bytes) (a : Nat) {k : Nat} (hk : k < 32) :
    (word f a).getLsbD k = (f (a + k / 8)).getLsbD (k % 8) := by
  rw [word, BitVec.getLsbD_ofNat, decide_eq_true hk, Bool.true_and, testBit_load f a hk]

/-- The bytes of an array of words. -/
def ofWords (w : Nat → BitVec 32) : Bytes := fun a => (w (a / 4)).extractLsb' (8 * (a % 4)) 8

theorem word_ofWords (w : Nat → BitVec 32) (k : Nat) : (ofWords w).word (4 * k) = w k := by
  refine word_of_bytes fun j hj => ?_
  rw [ofWords, show (4 * k + j) / 4 = k by omega, show (4 * k + j) % 4 = j by omega]

theorem getLsbD_ofWords (w : Nat → BitVec 32) (a : Nat) {k : Nat} (hk : k < 8) :
    (ofWords w a).getLsbD k = (w (a / 4)).getLsbD (8 * (a % 4) + k) := by
  rw [ofWords, BitVec.getLsbD_extractLsb', decide_eq_true hk, Bool.true_and]

end Bytes

/-! ## Integers -/

/-- The range of `int`. -/
abbrev InInt (x : Int) : Prop := -2 ^ 31 ≤ x ∧ x < 2 ^ 31

/-- The value of an `int` expression. -/
def i32 (x : Int) : Int := (BitVec.ofInt 32 x).toInt

theorem i32_eq {x : Int} (hlo : -2 ^ 31 ≤ x) (hhi : x < 2 ^ 31) : i32 x = x := by
  rw [i32, BitVec.toInt_ofInt]
  exact Int.bmod_eq_of_le (by omega) (by omega)

@[simp] theorem i32_zero : i32 0 = 0 := rfl

@[simp] theorem i32_one : i32 1 = 1 := rfl

/-- A number that is too large for an `int`, by less than the range. -/
theorem i32_wrap {x : Int} (hlo : 2 ^ 31 ≤ x) (hhi : x < 2 ^ 32) : i32 x = x - 2 ^ 32 := by
  rw [i32, BitVec.toInt_ofInt, Int.bmod_def]
  omega

theorem inInt_toInt (w : BitVec 32) : InInt w.toInt :=
  ⟨BitVec.le_toInt _, BitVec.toInt_lt⟩

theorem inInt_i32 (x : Int) : InInt (i32 x) := inInt_toInt _

/-! ## Arrays -/

/-- An array of `size` bytes. -/
structure CharArray where
  size : Nat
  get : Bytes

namespace CharArray

/-- Copy `n` bytes from one array into another.  `none` is an access outside
of one of them. -/
def copy (dst : CharArray) (d : Nat) (src : CharArray) (s n : Nat) : Option CharArray :=
  if d + n ≤ dst.size ∧ s + n ≤ src.size then
    some { dst with get := dst.get.copy d src.get s n }
  else none

theorem copy_of_le {dst src : CharArray} {d s n : Nat} (hd : d + n ≤ dst.size)
    (hs : s + n ≤ src.size) :
    dst.copy d src s n = some { dst with get := dst.get.copy d src.get s n } :=
  if_pos ⟨hd, hs⟩

theorem copy_eq_some {dst src a : CharArray} {d s n : Nat} (h : dst.copy d src s n = some a) :
    a = { dst with get := dst.get.copy d src.get s n } := by
  rw [copy] at h
  split at h
  · exact (Option.some.inj h).symm
  · cases h

/-- The contents. -/
def toList (a : CharArray) : List Byte := (List.range a.size).map a.get

/-- An array with these contents. -/
def ofList (l : List Byte) : CharArray := ⟨l.length, fun k => l.getD k 0⟩

@[simp] theorem size_ofList (l : List Byte) : (ofList l).size = l.length := rfl

theorem toList_ofList (l : List Byte) : (ofList l).toList = l := by
  apply List.ext_getElem
  · simp [toList]
  · intro k hk hk'
    simp [toList, ofList, hk']

end CharArray

/-- The first bytes of an array. -/
theorem map_range_ofList {l : List Byte} {m : Nat} (h : m ≤ l.length) :
    (List.range m).map (CharArray.ofList l).get = l.take m := by
  have htake := congrArg (List.take m) (CharArray.toList_ofList l)
  rwa [CharArray.toList, ← List.map_take, List.take_range, CharArray.size_ofList,
    Nat.min_eq_left h] at htake

/-- A block of values inside a range. -/
theorem map_range_drop_take {α : Type*} (f : Nat → α) {n p m : Nat} (h : m = 0 ∨ p + m ≤ n) :
    (((List.range n).map f).drop p).take m = (List.range m).map fun k => f (p + k) := by
  apply List.ext_getElem
  · simp
    omega
  · intro k hk hk'
    simp

/-- A range of values in which one block is replaced. -/
theorem map_range_splice {α : Type*} (f g : Nat → α) {n p m : Nat} (h : m = 0 ∨ p + m ≤ n) :
    (List.range n).map (fun x => if p ≤ x ∧ x < p + m then g (x - p) else f x) =
      ((List.range n).map f).take p ++ (List.range m).map g ++
        ((List.range n).map f).drop (p + m) := by
  apply List.ext_getElem
  · simp
    omega
  · intro x hx hx'
    simp only [List.length_map, List.length_range] at hx
    simp only [List.getElem_map, List.getElem_range, List.getElem_append, List.length_append,
      List.length_take, List.length_map, List.length_range, List.getElem_take, List.getElem_drop]
    by_cases hin : p ≤ x ∧ x < p + m
    · rw [if_pos hin, dif_pos (by omega), dif_neg (by omega)]
      congr 1
      omega
    · rw [if_neg hin]
      by_cases hlt : x < p
      · rw [dif_pos (by omega), dif_pos (by omega)]
      · rw [dif_neg (by omega)]
        congr 1
        omega

end Nachos.Lib

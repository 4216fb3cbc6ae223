import Mathlib.Data.Finset.Card
import Mathlib.Order.Bounds.Defs
import Nachos.Lib.Run
import Nachos.Userprog.BitMap

/-!
# A bit map is a set of items

The calls of `Mark`, `Clear` and `Find` on a bit map, in any order.  The memory of
the words is arbitrary before the constructor runs, and so are the bits of the last
word that belong to no item.

`marked` is the set of the items that have been marked, by `Mark` or by `Find`, and
not been cleared since.  `IsSet` says what the functions return in terms of it.
-/

namespace Nachos.Userprog

open Lib

namespace BitMap

/-! ## Runs -/

/-- A bit map, and the items that are marked. -/
structure Session where
  bitMap : BitMap
  marked : Finset Nat

inductive SessionCall where
  | mark (which : Int)
  | clear (which : Int)
  | find

namespace Session

/-- A new bit map. -/
def new (nitems : Nat) (junk : Nat → BitVec 32) : Session where
  bitMap := .new nitems junk
  marked := ∅

/-- One call. -/
def step (s : Session) : SessionCall → Option Session
  | .mark which => (s.bitMap.mark which).map fun m => ⟨m, insert which.toNat s.marked⟩
  | .clear which => (s.bitMap.clear which).map fun m => ⟨m, s.marked.erase which.toNat⟩
  | .find =>
      let (i, m) := s.bitMap.find
      some ⟨m, if i = -1 then s.marked else insert i.toNat s.marked⟩

end Session

/-- `Test` returns `value` for `which`, and what it returned before for all other
items. -/
def TestSet (m m' : BitMap) (which : Nat) (value : Bool) : Prop :=
  m'.test which = some value ∧ ∀ j : Nat, j ≠ which → m'.test j = m.test j

/-- What the next call does after a run, for a bit map of `nitems` bits. -/
structure IsSet (nitems : Nat) (s : Session) : Prop where
  /-- The word of an item is in the array. -/
  word : ∀ i < nitems, i / BitsInWord < s.bitMap.numWords
  test : ∀ i < nitems, s.bitMap.test i = some (decide (i ∈ s.marked))
  mark : ∀ i < nitems, ∃ m', s.bitMap.mark i = some m' ∧ TestSet s.bitMap m' i true
  clear : ∀ i < nitems, ∃ m', s.bitMap.clear i = some m' ∧ TestSet s.bitMap m' i false
  numClear : s.bitMap.numClear = (Finset.range nitems \ s.marked).card
  /-- `Find` returns the smallest clear item and marks it. -/
  find : (∃ i < nitems, i ∉ s.marked) →
    ∃ (i : Nat) (m' : BitMap), s.bitMap.find = ((i : Int), m') ∧
      IsLeast {i | i < nitems ∧ i ∉ s.marked} i ∧
      TestSet s.bitMap m' i true ∧ m'.numClear + 1 = s.bitMap.numClear
  find_none : (∀ i < nitems, i ∈ s.marked) → s.bitMap.find = (-1, s.bitMap)

/-! ## The invariant -/

variable {m : BitMap} {i n : Nat}

theorem test_of_lt (hi : i < m.numBits) : m.test i = some (m.testBit i) := by
  rw [test, if_pos ⟨Int.natCast_nonneg i, Int.ofNat_lt.mpr hi⟩, Int.toNat_natCast]

theorem test_of_le (hi : m.numBits ≤ i) : m.test i = none := by
  have hout : ¬m.InRange i := fun h => absurd (Int.ofNat_lt.mp h.2) (by omega)
  rw [test, if_neg hout]

theorem mark_of_lt (hi : i < m.numBits) : m.mark i = some (m.setBit i) := by
  rw [mark, if_pos ⟨Int.natCast_nonneg i, Int.ofNat_lt.mpr hi⟩, Int.toNat_natCast]

theorem clear_of_lt (hi : i < m.numBits) : m.clear i = some (m.clearBit i) := by
  rw [clear, if_pos ⟨Int.natCast_nonneg i, Int.ofNat_lt.mpr hi⟩, Int.toNat_natCast]

/-- Two maps that differ in one bit. -/
theorem testSet_of_bits {m' : BitMap} {value : Bool} (hi : i < m.numBits)
    (hnum : m'.numBits = m.numBits) (hbit : m'.testBit i = value)
    (hsame : ∀ j, j ≠ i → m'.testBit j = m.testBit j) : TestSet m m' i value := by
  constructor
  · rw [test_of_lt (hnum ▸ hi), hbit]
  · intro j hj
    rcases Nat.lt_or_ge j m.numBits with hlt | hge
    · rw [test_of_lt hlt, test_of_lt (hnum ▸ hlt), hsame j hj]
    · rw [test_of_le hge, test_of_le (hnum ▸ hge)]

theorem testSet_setBit (hi : i < m.numBits) : TestSet m (m.setBit i) i true :=
  testSet_of_bits hi rfl (by rw [testBit_setBit, decide_eq_true rfl, Bool.true_or])
    fun j hj => by rw [testBit_setBit, decide_eq_false hj, Bool.false_or]

theorem testSet_clearBit (hi : i < m.numBits) : TestSet m (m.clearBit i) i false :=
  testSet_of_bits hi rfl (by rw [testBit_clearBit, decide_eq_true rfl]; rfl)
    fun j hj => by rw [testBit_clearBit, decide_eq_false hj]; rfl

/-- The bits are those of the marked items. -/
structure SetInv (nitems : Nat) (s : Session) : Prop where
  numBits : s.bitMap.numBits = nitems
  bits : ∀ i < nitems, s.bitMap.testBit i = decide (i ∈ s.marked)

namespace SetInv

variable {nitems : Nat} {s s' : Session}

theorem new (nitems : Nat) (junk : Nat → BitVec 32) : SetInv nitems (.new nitems junk) where
  numBits := numBits_new nitems junk
  bits i hi := by
    show (BitMap.new nitems junk).testBit i = decide (i ∈ (∅ : Finset Nat))
    rw [testBit_new junk hi, decide_eq_false (Finset.notMem_empty i)]

theorem setBit (h : SetInv nitems s) (i : Nat) :
    SetInv nitems ⟨s.bitMap.setBit i, insert i s.marked⟩ where
  numBits := h.numBits
  bits j hj := by
    show (s.bitMap.setBit i).testBit j = decide (j ∈ insert i s.marked)
    rw [testBit_setBit, h.bits j hj, ← Bool.decide_or]
    simp only [Finset.mem_insert]

theorem clearBit (h : SetInv nitems s) (i : Nat) :
    SetInv nitems ⟨s.bitMap.clearBit i, s.marked.erase i⟩ where
  numBits := h.numBits
  bits j hj := by
    show (s.bitMap.clearBit i).testBit j = decide (j ∈ s.marked.erase i)
    rw [testBit_clearBit, h.bits j hj]
    simp only [Finset.mem_erase, Bool.decide_and, decide_not]

/-- `Find` takes the smallest item that is not marked. -/
theorem find_of_exists (h : SetInv nitems s) (hclear : ∃ i < nitems, i ∉ s.marked) :
    ∃ i : Nat, s.bitMap.find = ((i : Int), s.bitMap.setBit i) ∧
      IsLeast {i | i < nitems ∧ i ∉ s.marked} i := by
  have hbits := h.bits
  obtain rfl := h.numBits
  cases hfind : (List.range s.bitMap.numBits).find? fun i => !s.bitMap.testBit i with
  | none =>
    obtain ⟨i, hi, hout⟩ := hclear
    have hset := List.find?_eq_none.mp hfind i (List.mem_range.mpr hi)
    rw [hbits i hi, decide_eq_false hout] at hset
    exact absurd rfl hset
  | some i =>
    obtain ⟨hbit, hrange, hmin⟩ := List.find?_range_eq_some.mp hfind
    have hi := List.mem_range.mp hrange
    refine ⟨i, by rw [find, hfind], ⟨hi, ?_⟩, ?_⟩
    · intro hmarked
      rw [hbits i hi, decide_eq_true hmarked] at hbit
      cases hbit
    · rintro j ⟨hj, hout⟩
      by_contra hlt
      have hset := hmin j (Nat.lt_of_not_le hlt)
      rw [hbits j hj, decide_eq_false hout] at hset
      cases hset

theorem find_of_forall (h : SetInv nitems s) (hall : ∀ i < nitems, i ∈ s.marked) :
    s.bitMap.find = (-1, s.bitMap) := by
  have hbits := h.bits
  obtain rfl := h.numBits
  have hnone : (List.range s.bitMap.numBits).find? (fun i => !s.bitMap.testBit i) = none := by
    rw [List.find?_eq_none]
    intro i hi hbit
    have hlt := List.mem_range.mp hi
    rw [hbits i hlt, decide_eq_true (hall i hlt)] at hbit
    cases hbit
  rw [find, hnone]

theorem numClear_eq (h : SetInv nitems s) :
    s.bitMap.numClear = (Finset.range nitems \ s.marked).card := by
  have hcount : s.bitMap.numClear = (List.range nitems).countP fun i => decide (i ∉ s.marked) := by
    rw [numClear, h.numBits]
    exact countP_range_congr fun i hi => by rw [h.bits i hi, decide_not]
  rw [hcount, List.countP_eq_length_filter, Finset.sdiff_eq_filter]
  rfl

theorem step {a : SessionCall} (h : SetInv nitems s) (hstep : s.step a = some s') :
    SetInv nitems s' := by
  cases a with
  | mark which =>
    obtain ⟨m, hm, rfl⟩ := Option.map_eq_some_iff.mp hstep
    rw [BitMap.mark] at hm
    split at hm
    · cases hm
      exact h.setBit which.toNat
    · cases hm
  | clear which =>
    obtain ⟨m, hm, rfl⟩ := Option.map_eq_some_iff.mp hstep
    rw [BitMap.clear] at hm
    split at hm
    · cases hm
      exact h.clearBit which.toNat
    · cases hm
  | find =>
    by_cases hclear : ∃ i < nitems, i ∉ s.marked
    · obtain ⟨i, hfind, _⟩ := h.find_of_exists hclear
      rw [Session.step, hfind] at hstep
      cases hstep
      rw [if_neg (by omega), Int.toNat_natCast]
      exact h.setBit i
    · push Not at hclear
      rw [Session.step, h.find_of_forall hclear] at hstep
      cases hstep
      exact h

theorem isSet (h : SetInv nitems s) : IsSet nitems s where
  word i hi := by
    have hle := s.bitMap.le_numWords
    rw [h.numBits] at hle
    simp only [BitsInWord]
    omega
  test i hi := by rw [test_of_lt (h.numBits ▸ hi), h.bits i hi]
  mark i hi := ⟨_, mark_of_lt (h.numBits ▸ hi), testSet_setBit (h.numBits ▸ hi)⟩
  clear i hi := ⟨_, clear_of_lt (h.numBits ▸ hi), testSet_clearBit (h.numBits ▸ hi)⟩
  numClear := h.numClear_eq
  find hclear := by
    obtain ⟨i, hfind, hleast⟩ := h.find_of_exists hclear
    have hi : i < s.bitMap.numBits := h.numBits ▸ hleast.1.1
    have hbit : s.bitMap.testBit i = false := by
      rw [h.bits i hleast.1.1, decide_eq_false hleast.1.2]
    exact ⟨i, _, hfind, hleast, testSet_setBit hi, numClear_setBit hi hbit⟩
  find_none := h.find_of_forall

end SetInv

/-- **A bit map is a set of items**, for any number of items and after any calls. -/
theorem isSet_of_run (nitems : Nat) (junk : Nat → BitVec 32) {as : List SessionCall} {s : Session}
    (hrun : run Session.step (.new nitems junk) as = some s) : IsSet nitems s := by
  have h := run_preserves (I := SetInv nitems) (fun _ _ _ h hstep => h.step hstep)
    (SetInv.new nitems junk) hrun
  exact h.isSet

/-- 33 items in two words, of which the second one is not used to the end. -/
theorem isSet_of_run_two_words : ∃ s,
    run Session.step (.new 33 fun _ => 0xffffffff#32) [.mark 32, .find, .clear 32, .find] =
      some s ∧ s.marked = {0, 1} ∧ IsSet 33 s :=
  ⟨_, rfl, by decide, isSet_of_run 33 (fun _ => 0xffffffff#32) (show run Session.step _
    [.mark 32, .find, .clear 32, .find] = some _ from rfl)⟩

end BitMap

end Nachos.Userprog

import Mathlib.Data.List.Basic
import Nachos.Filesys.Requests

/-!
# Bit maps: `userprog/bitmap.cc`

A bit map is an array of words, with one bit for each item.  `Mark`, `Clear`
and `Test` check the number of the item; `Find` and `NumClear` go through all
items, so their checks always pass.

`testBit_setBit` and `testBit_clearBit` say that an operation changes one bit.
`find_of_clear` and `find_of_full` are the two ways of `Find`, with the effect on
`NumClear`.
-/

namespace Nachos.Userprog

open Function Lib Machine Filesys

def BitsInByte : Nat := 8

def BitsInWord : Nat := 32

/-- `class BitMap`. -/
structure BitMap where
  numBits : Nat
  map : Nat → BitVec 32

namespace BitMap

/-- The number of words of the array. -/
def numWords (m : BitMap) : Nat :=
  m.numBits / BitsInWord + if 0 < m.numBits % BitsInWord then 1 else 0

/-! ## One bit -/

/-- `1 << (which % BitsInWord)`. -/
def mask (which : Nat) : BitVec 32 := 1#32 <<< (which % BitsInWord)

def setBit (m : BitMap) (which : Nat) : BitMap :=
  { m with map := update m.map (which / BitsInWord) (m.map (which / BitsInWord) ||| mask which) }

def clearBit (m : BitMap) (which : Nat) : BitMap :=
  { m with
    map := update m.map (which / BitsInWord) (m.map (which / BitsInWord) &&& ~~~mask which) }

def testBit (m : BitMap) (which : Nat) : Bool := m.map (which / BitsInWord) &&& mask which != 0

/-- The `ASSERT` of `Mark`, `Clear` and `Test`. -/
def InRange (m : BitMap) (which : Int) : Prop := 0 ≤ which ∧ which < m.numBits

instance (m : BitMap) (which : Int) : Decidable (m.InRange which) :=
  inferInstanceAs (Decidable (_ ∧ _))

/-- `BitMap::Mark`. -/
def mark (m : BitMap) (which : Int) : Option BitMap :=
  if m.InRange which then some (m.setBit which.toNat) else none

/-- `BitMap::Clear`. -/
def clear (m : BitMap) (which : Int) : Option BitMap :=
  if m.InRange which then some (m.clearBit which.toNat) else none

/-- `BitMap::Test`. -/
def test (m : BitMap) (which : Int) : Option Bool :=
  if m.InRange which then some (m.testBit which.toNat) else none

/-! ## All bits -/

/-- `BitMap::BitMap`: the array is new, and the loop clears the bits. -/
def new (nitems : Nat) (junk : Nat → BitVec 32) : BitMap :=
  (List.range nitems).foldl clearBit ⟨nitems, junk⟩

/-- `BitMap::Find`. -/
def find (m : BitMap) : Int × BitMap :=
  match (List.range m.numBits).find? fun i => !m.testBit i with
  | some i => (i, m.setBit i)
  | none => (-1, m)

/-- `BitMap::NumClear`. -/
def numClear (m : BitMap) : Nat := (List.range m.numBits).countP fun i => !m.testBit i

/-- `BitMap::FetchFrom`. -/
def fetchFrom (m : BitMap) (d : Disk) (junk : Bytes) (file : OpenFile) : Option BitMap :=
  (readAt d file.hdr junk ⟨m.numWords * 4, .ofWords m.map⟩ 0 (m.numWords * 4) 0).map fun r =>
    { m with map := fun i => r.2.get.word (4 * i) }

/-- `BitMap::WriteBack`. -/
def writeBack (m : BitMap) (d : Disk) (junk : Bytes) (file : OpenFile) : Option Disk :=
  (writeAt d file.hdr junk ⟨m.numWords * 4, .ofWords m.map⟩ (m.numWords * 4) 0).map Prod.snd

/-! ## What the operations do -/

variable {m : BitMap} {i j : Nat}

theorem getLsbD_mask (i : Nat) {k : Nat} :
    (mask i).getLsbD k = decide (i % BitsInWord = k) := by
  have hlt : i % BitsInWord < 32 := Nat.mod_lt i (by decide)
  rw [mask, ← BitVec.twoPow_eq, BitVec.getLsbD_twoPow, decide_eq_true hlt, Bool.true_and]

theorem testBit_eq (m : BitMap) (i : Nat) :
    m.testBit i = (m.map (i / BitsInWord)).getLsbD (i % BitsInWord) := by
  have hmask : mask i ≠ 0 := by
    intro h0
    have hbit := getLsbD_mask i (k := i % BitsInWord)
    rw [h0, decide_eq_true rfl] at hbit
    simp at hbit
  rw [testBit, mask, ← BitVec.twoPow_eq, BitVec.and_twoPow, BitVec.twoPow_eq]
  cases (m.map (i / BitsInWord)).getLsbD (i % BitsInWord) with
  | true => exact bne_iff_ne.mpr hmask
  | false => rfl

@[simp] theorem numBits_setBit : (m.setBit i).numBits = m.numBits := rfl

@[simp] theorem numBits_clearBit : (m.clearBit i).numBits = m.numBits := rfl

/-- Two items are the same if they have the same word and the same bit. -/
theorem eq_iff_word_bit (i j : Nat) :
    j = i ↔ j / BitsInWord = i / BitsInWord ∧ i % BitsInWord = j % BitsInWord := by
  simp only [BitsInWord]
  omega

theorem testBit_setBit (m : BitMap) (i j : Nat) :
    (m.setBit i).testBit j = (decide (j = i) || m.testBit j) := by
  simp only [testBit_eq, setBit, eq_iff_word_bit i j]
  by_cases hw : j / BitsInWord = i / BitsInWord
  · rw [hw, update_self, BitVec.getLsbD_or, getLsbD_mask, Bool.or_comm]
    simp
  · rw [update_of_ne hw]
    simp [hw]

theorem testBit_clearBit (m : BitMap) (i j : Nat) :
    (m.clearBit i).testBit j = (!decide (j = i) && m.testBit j) := by
  simp only [testBit_eq, clearBit, eq_iff_word_bit i j]
  by_cases hw : j / BitsInWord = i / BitsInWord
  · have hlt : j % BitsInWord < 32 := Nat.mod_lt j (by decide)
    rw [hw, update_self, BitVec.getLsbD_and, BitVec.getLsbD_not, getLsbD_mask, Bool.and_comm]
    simp [hlt]
  · rw [update_of_ne hw]
    simp [hw]

theorem testBit_foldl_clearBit (is : List Nat) (m : BitMap) (j : Nat) :
    (is.foldl clearBit m).testBit j = (!decide (j ∈ is) && m.testBit j) := by
  induction is generalizing m with
  | nil => simp
  | cons i is ih =>
    rw [List.foldl_cons, ih, testBit_clearBit]
    by_cases hj : j = i <;> simp [hj]

theorem numBits_foldl_clearBit (is : List Nat) (m : BitMap) :
    (is.foldl clearBit m).numBits = m.numBits := by
  induction is generalizing m with
  | nil => rfl
  | cons i is ih => rw [List.foldl_cons, ih, numBits_clearBit]

@[simp] theorem numBits_new (nitems : Nat) (junk : Nat → BitVec 32) :
    (new nitems junk).numBits = nitems :=
  numBits_foldl_clearBit _ _

/-- All the bits of a new map are clear. -/
theorem testBit_new {nitems : Nat} (junk : Nat → BitVec 32) (hi : i < nitems) :
    (new nitems junk).testBit i = false := by
  rw [new, testBit_foldl_clearBit, decide_eq_true (List.mem_range.mpr hi)]
  rfl

/-! ## Counting -/

theorem countP_range_congr {p q : Nat → Bool} {n : Nat} (h : ∀ i < n, p i = q i) :
    (List.range n).countP p = (List.range n).countP q :=
  List.countP_congr fun i hi => by rw [h i (List.mem_range.mp hi)]

/-- One item less is counted. -/
theorem countP_range_erase {p q : Nat → Bool} {n : Nat} (hi : i < n) (hp : p i = true)
    (hq : q i = false) (hsame : ∀ j, j ≠ i → q j = p j) :
    (List.range n).countP q + 1 = (List.range n).countP p := by
  induction n with
  | zero => exact absurd hi (Nat.not_lt_zero i)
  | succ n ih =>
    rw [List.range_succ, List.countP_append, List.countP_append]
    by_cases hin : i = n
    · subst hin
      have hrest := countP_range_congr (n := i) (fun j hj => hsame j (Nat.ne_of_lt hj))
      simp [hp, hq, hrest]
    · have hrest := ih (by omega)
      simp only [List.countP_singleton, hsame n (Ne.symm hin)]
      omega

theorem numClear_le (m : BitMap) : m.numClear ≤ m.numBits := by
  have hle := List.countP_le_length (p := fun i => !m.testBit i) (l := List.range m.numBits)
  rwa [List.length_range] at hle

theorem numClear_setBit (hi : i < m.numBits) (hclear : m.testBit i = false) :
    (m.setBit i).numClear + 1 = m.numClear := by
  refine countP_range_erase hi (by simp [hclear]) (by simp [testBit_setBit]) fun j hj => ?_
  simp [testBit_setBit, hj]

theorem numClear_new (nitems : Nat) (junk : Nat → BitVec 32) :
    (new nitems junk).numClear = nitems := by
  have hall : (List.range nitems).countP (fun i => !(new nitems junk).testBit i) =
      (List.range nitems).countP fun _ => true :=
    countP_range_congr fun i hi => by rw [testBit_new junk hi]; rfl
  rw [numClear, numBits_new, hall]
  simp

/-- `Find` when a bit is clear. -/
theorem find_of_clear (h : 0 < m.numClear) :
    ∃ i : Nat, m.find = ((i : Int), m.setBit i) ∧ i < m.numBits ∧ m.testBit i = false := by
  obtain ⟨j, hj, hclear⟩ := List.countP_pos_iff.mp h
  cases hfind : (List.range m.numBits).find? fun i => !m.testBit i with
  | none =>
    rw [List.find?_eq_none] at hfind
    exact absurd hclear (hfind j hj)
  | some i =>
    refine ⟨i, by rw [find, hfind], List.mem_range.mp (List.mem_of_find?_eq_some hfind), ?_⟩
    simpa using List.find?_some hfind

/-- `Find` when no bit is clear. -/
theorem find_of_full (h : m.numClear = 0) : m.find = (-1, m) := by
  have hnone : (List.range m.numBits).find? (fun i => !m.testBit i) = none := by
    rw [List.find?_eq_none]
    intro i hi
    exact List.countP_eq_zero.mp h i hi
  rw [find, hnone]

/-! ## Taking items -/

/-- The items were clear in `m`, and `m'` is `m` with their bits set. -/
structure Taken (m m' : BitMap) (items : List Nat) : Prop where
  nodup : items.Nodup
  free : ∀ i ∈ items, i < m.numBits ∧ m.testBit i = false
  numBits : m'.numBits = m.numBits
  bits : ∀ i, m'.testBit i = (m.testBit i || decide (i ∈ items))
  clear : m'.numClear + items.length = m.numClear

variable {m' : BitMap} {items : List Nat}

theorem taken_nil (m : BitMap) : Taken m m [] := by
  constructor <;> simp

theorem Taken.perm {items' : List Nat} (h : Taken m m' items) (hp : items.Perm items') :
    Taken m m' items' where
  nodup := hp.nodup_iff.mp h.nodup
  free i hi := h.free i (hp.mem_iff.mpr hi)
  numBits := h.numBits
  bits i := by
    rw [h.bits]
    simp only [hp.mem_iff]
  clear := by
    rw [← hp.length_eq]
    exact h.clear

theorem Taken.setBit (h : Taken m m' items) (hi : i < m.numBits) (hclear : m'.testBit i = false) :
    Taken m (m'.setBit i) (i :: items) := by
  have hbits := h.bits i
  rw [hclear, eq_comm, Bool.or_eq_false_iff, decide_eq_false_iff_not] at hbits
  refine ⟨List.nodup_cons.mpr ⟨hbits.2, h.nodup⟩, fun j hj => ?_, h.numBits, fun j => ?_, ?_⟩
  · rcases List.mem_cons.mp hj with rfl | hj
    · exact ⟨hi, hbits.1⟩
    · exact h.free j hj
  · rw [testBit_setBit, h.bits, Bool.or_left_comm]
    simp only [List.mem_cons, Bool.decide_or]
  · have hcount := numClear_setBit (h.numBits.symm ▸ hi) hclear
    have hold := h.clear
    rw [List.length_cons]
    omega

/-- `Find` takes one more item. -/
theorem Taken.find (h : Taken m m' items) (hclear : 0 < m'.numClear) :
    ∃ i : Nat, m'.find = ((i : Int), m'.setBit i) ∧ i < m.numBits ∧
      Taken m (m'.setBit i) (i :: items) := by
  obtain ⟨i, hfind, hi, hbit⟩ := find_of_clear hclear
  rw [h.numBits] at hi
  exact ⟨i, hfind, hi, h.setBit hi hbit⟩

/-- More items are taken. -/
theorem Taken.trans {m'' : BitMap} {items' : List Nat} (h : Taken m m' items)
    (h' : Taken m' m'' items') : Taken m m'' (items' ++ items) := by
  have hfree : ∀ i ∈ items', i < m.numBits ∧ m.testBit i = false ∧ i ∉ items := by
    intro i hi
    obtain ⟨hlt, hbit⟩ := h'.free i hi
    rw [h.bits, Bool.or_eq_false_iff, decide_eq_false_iff_not] at hbit
    exact ⟨h.numBits ▸ hlt, hbit⟩
  refine ⟨?_, fun i hi => ?_, h'.numBits.trans h.numBits, fun i => ?_, ?_⟩
  · refine List.nodup_append'.mpr ⟨h'.nodup, h.nodup, fun i hi hi' => (hfree i hi).2.2 hi'⟩
  · rcases List.mem_append.mp hi with hi | hi
    · exact ⟨(hfree i hi).1, (hfree i hi).2.1⟩
    · exact h.free i hi
  · rw [h'.bits, h.bits, Bool.or_assoc, Bool.or_comm (decide (i ∈ items))]
    simp only [List.mem_append, Bool.decide_or]
  · have hcount := h.clear
    have hcount' := h'.clear
    rw [List.length_append]
    omega

/-! ## The map on disk -/

/-- The bit of an item in the bytes of the map. -/
def bitOf (b : Bytes) (i : Nat) : Bool := (b (i / BitsInByte)).getLsbD (i % BitsInByte)

theorem bitOf_ofWords (m : BitMap) (i : Nat) : bitOf (.ofWords m.map) i = m.testBit i := by
  have hlt : i % BitsInByte < 8 := Nat.mod_lt i (by decide)
  rw [bitOf, Bytes.getLsbD_ofWords _ _ hlt, testBit_eq]
  simp only [BitsInByte, BitsInWord]
  rw [show i / 8 / 4 = i / 32 by omega, show 8 * (i / 8 % 4) + i % 8 = i % 32 by omega]

theorem testBit_words (b : Bytes) (n i : Nat) :
    testBit ⟨n, fun k => b.word (4 * k)⟩ i = bitOf b i := by
  have hlt : i % BitsInWord < 32 := Nat.mod_lt i (by decide)
  rw [testBit_eq, Bytes.getLsbD_word b _ hlt, bitOf]
  simp only [BitsInByte, BitsInWord]
  rw [show 4 * (i / 32) + i % 32 / 8 = i / 8 by omega, show i % 32 % 8 = i % 8 by omega]

theorem bitOf_congr {f g : Bytes} {n : Nat} (h : ∀ x, x < n → f x = g x) (hi : i < n * 8) :
    bitOf f i = bitOf g i := by
  rw [bitOf, bitOf, h]
  simp only [BitsInByte]
  omega

theorem le_numWords (m : BitMap) : m.numBits ≤ m.numWords * 4 * 8 := by
  rw [numWords]
  split
  all_goals
    simp only [BitsInWord] at *
    omega

section OnDisk

variable {L : Layout} {d : Disk} {file : OpenFile}

/-- `FetchFrom` reads the bits of the file. -/
theorem fetchFrom_spec (hd : L.OnDisk d) (hh : L.Heads file.hdr)
    (hlen : m.numWords * 4 ≤ L.length) (junk : Bytes) :
    ∃ m', m.fetchFrom d junk file = some m' ∧ m'.numBits = m.numBits ∧
      ∀ i, i < m.numBits → m'.testBit i = bitOf (L.byte d) i := by
  obtain ⟨into, hread, hget⟩ := Layout.readAt_start hd hh hlen junk
    ⟨m.numWords * 4, .ofWords m.map⟩ le_rfl
  rw [Nat.cast_mul] at hread
  refine ⟨{ m with map := fun i => into.get.word (4 * i) }, ?_, rfl, fun i hi => ?_⟩
  · exact (congrArg (Option.map _) hread).trans (Option.map_some _ _)
  · rw [testBit_words]
    exact bitOf_congr hget (lt_of_lt_of_le hi m.le_numWords)

/-- `WriteBack` writes the bits of the file. -/
theorem writeBack_spec (hd : L.OnDisk d) (hh : L.Heads file.hdr)
    (hlen : m.numWords * 4 ≤ L.length) (junk : Bytes) :
    ∃ d', m.writeBack d junk file = some d' ∧ (∀ s, s ∉ L.data → d' s = d s) ∧
      ∀ i, i < m.numBits → bitOf (L.byte d') i = m.testBit i := by
  obtain ⟨d', hwrite, hsame, hbyte⟩ := Layout.writeAt_start hd hh hlen junk
    ⟨m.numWords * 4, .ofWords m.map⟩ le_rfl
  rw [Nat.cast_mul] at hwrite
  refine ⟨d', ?_, hsame, fun i hi => ?_⟩
  · exact (congrArg (Option.map _) hwrite).trans (Option.map_some _ _)
  · rw [← bitOf_ofWords]
    exact bitOf_congr hbyte (lt_of_lt_of_le hi m.le_numWords)

end OnDisk

end BitMap

end Nachos.Userprog

import Nachos.Bin.Image
import Nachos.Filesys.Requests
import Nachos.Lib.Exec
import Nachos.Machine.Memory

/-!
# `AddrSpace::AddrSpace(OpenFile *executable)`

The constructor reads the header of a NOFF file, allocates the array `disk` for the
whole address space, and copies the code and the initialized data into it, one byte at
a time.

`Loading` is the state: the memory around the array, addressed from the start of the
array, and the list of all stores so far.  Nothing keeps a store inside the array, so the
memory has a byte at every index.  A failed `ASSERT` raises, and the stores before it
remain.  The contents of the new array and of the header on the stack are parameters.
The allocation succeeds, and the host is little-endian, so that `SwapHeader` is not
called.

`copySegment_eq` says what one of the two loops does for any header.  The file is the
one of the host (`FILESYS_STUB`); `readAt_one` says that a file of the Nachos file
system is read in the same way.
-/

namespace Nachos.Userprog

open Function Lib Bin Machine

/-- A file that can be executed.  Its length is an `int`. -/
structure Executable where
  length : Nat
  get : Bytes
  length_lt : length < 2 ^ 31

/-- A failed `ASSERT`. -/
inductive Stop where
  | assertFailed
  deriving DecidableEq

/-- The memory at `&disk[index]`, and the indices of the stores. -/
structure Loading where
  disk : Int → Byte
  stores : List Int

/-- A part of the constructor. -/
abbrev Loader : Type → Type := Exec Loading Stop

/-- `disk[index] = value`. -/
def Loading.store (s : Loading) (index : Int) (value : Byte) : Loading :=
  ⟨update s.disk index value, s.stores ++ [index]⟩

/-- The assignment as a step. -/
def assign (index : Int) (value : Byte) : Loader Unit := fun s =>
  some (.ok (), s.store index value)

/-- `#define UserStackSize 1024`. -/
def UserStackSize : Long := 1024

namespace Executable

variable (e : Executable)

/-- `executable->ReadAt(&disk[index], 1, position)`.  `Lseek` stops at a negative
position, and behind the end there is nothing to read. -/
def readByte (index position : Int) : Loader Unit :=
  if position < 0 then Exec.raise .assertFailed
  else if position < e.length then assign index (e.get position.toNat)
  else pure ()

/-- The bytes of `noffH` after `executable->ReadAt((char *)&noffH, sizeof(noffH), 0)`. -/
def header (junk : Bytes) : Bytes := fun k => if k < e.length then e.get k else junk k

/-- Round `i` of a loop that copies a segment. -/
def copyByte (g : Segment) (i : Nat) : Loader Unit :=
  let address := i32 (g.virtualAddr.toInt + i)
  let vpn := address.tdiv PageSize
  let offset := address.tmod PageSize
  let physicalAddress := i32 (i32 (vpn * PageSize) + offset)
  e.readByte physicalAddress (i32 (g.inFileAddr.toInt + i))

/-- The first rounds of the loop. -/
def copyRounds (g : Segment) : Nat → Loader Unit
  | 0 => pure ()
  | n + 1 => do
      copyRounds g n
      e.copyByte g n

/-- `if (segment.size > 0)`, and the loop. -/
def copySegment (g : Segment) : Loader Unit :=
  if 0 < g.size.toInt then e.copyRounds g g.size.toInt.toNat else pure ()

end Executable

/-- `numPages`.  The sum of the sizes is an `unsigned int`. -/
def numPages (noffH : NoffHeader) : Nat :=
  let size := (noffH.code.size + noffH.initData.size + noffH.uninitData.size + UserStackSize).toNat
  size / PageSize + if 0 < size % PageSize then 1 else 0

/-- `size = numPages * PageSize`, the size of the array. -/
def spaceSize (noffH : NoffHeader) : Nat := numPages noffH * PageSize % 2 ^ 32

/-- The constructor.  It returns `numPages`. -/
def construct (e : Executable) (junk : Bytes) : Loader Nat :=
  let noffH := NoffHeader.load (e.header junk)
  if (e.header junk).word 0 ≠ NOFFMAGIC then Exec.raise .assertFailed
  else do
    e.copySegment noffH.code
    e.copySegment noffH.initData
    pure (numPages noffH)

/-! ## One loop -/

namespace Loading

variable (e : Executable) (g : Segment) (s : Loading)

/-- The state after `n` bytes of the segment have been copied. -/
def copied : Nat → Loading
  | 0 => s
  | n + 1 => (copied n).store (i32 (g.virtualAddr.toInt + n)) (e.get (g.inFileAddr.toInt.toNat + n))

theorem stores_copied (n : Nat) :
    (s.copied e g n).stores =
      s.stores ++ (List.range n).map fun i : Nat => i32 (g.virtualAddr.toInt + i) := by
  induction n with
  | zero => simp [copied]
  | succ n ih =>
    rw [copied, store, ih, List.range_succ, List.map_append, List.append_assoc]
    rfl

end Loading

namespace Executable

variable {e : Executable} {g : Segment} {s : Loading} {n i : Nat}

/-- The page number and the offset are put together again. -/
theorem copyByte_eq (e : Executable) (g : Segment) (i : Nat) :
    e.copyByte g i =
      e.readByte (i32 (g.virtualAddr.toInt + i)) (i32 (g.inFileAddr.toInt + i)) := by
  have hrange := inInt_i32 (g.virtualAddr.toInt + i)
  unfold copyByte
  generalize i32 (g.virtualAddr.toInt + i) = address at hrange
  obtain ⟨hlo, hhi⟩ := hrange
  have hsum := Int.tdiv_mul_add_tmod address PageSize
  have hpage : i32 (address.tdiv PageSize * PageSize) = address.tdiv PageSize * PageSize := by
    rcases le_or_gt 0 address with hpos | hneg
    · rw [Int.tdiv_eq_ediv_of_nonneg hpos]
      simp only [PageSize, SectorSize]
      exact i32_eq (by omega) (by omega)
    · have hdiv : address.tdiv PageSize = -((-address) / PageSize) :=
        Filesys.Layout.tdiv_sectorSize_neg hneg
      rw [hdiv]
      simp only [PageSize, SectorSize]
      exact i32_eq (by omega) (by omega)
  simp only [hpage, hsum]
  rw [i32_eq hlo hhi]

/-- A round after rounds that have come to their end. -/
theorem copyRounds_succ {s' : Loading} (h : e.copyRounds g n s = some (.ok (), s')) :
    e.copyRounds g (n + 1) s = e.copyByte g n s' := by
  rw [copyRounds, Exec.bind_apply, h]

/-- No round follows a failed `ASSERT`. -/
theorem copyRounds_succ_error {s' : Loading} {stop : Stop}
    (h : e.copyRounds g n s = some (.error stop, s')) :
    e.copyRounds g (n + 1) s = some (.error stop, s') := by
  rw [copyRounds, Exec.bind_apply, h]

/-- The rounds before the position leaves the range of `int`.  Those behind the end of
the file copy nothing. -/
theorem copyRounds_ok (hfile : 0 ≤ g.inFileAddr.toInt) (hn : g.inFileAddr.toInt + n ≤ 2 ^ 31) :
    e.copyRounds g n s =
      some (.ok (), s.copied e g (min n (e.length - g.inFileAddr.toInt.toNat))) := by
  induction n with
  | zero => rw [Nat.zero_min]; rfl
  | succ n ih =>
    have hposition : i32 (g.inFileAddr.toInt + n) = g.inFileAddr.toInt + n :=
      i32_eq (by omega) (by omega)
    rw [copyRounds_succ (ih (by omega)), copyByte_eq, hposition, readByte, if_neg (by omega)]
    by_cases hinside : g.inFileAddr.toInt + n < e.length
    · have hindex : (g.inFileAddr.toInt + n).toNat = g.inFileAddr.toInt.toNat + n := by omega
      rw [if_pos hinside, hindex, Nat.min_eq_left (by omega), Nat.min_eq_left (by omega)]
      rfl
    · rw [if_neg hinside, Nat.min_eq_right (by omega), Nat.min_eq_right (by omega)]
      rfl

/-- `Lseek` stops at the first negative position: at once, or when the position leaves
the range of `int`. -/
theorem copyRounds_stop (hfile : 0 ≤ g.inFileAddr.toInt) (hn : 2 ^ 31 < g.inFileAddr.toInt + n) :
    e.copyRounds g n s =
      some (.error .assertFailed, s.copied e g (e.length - g.inFileAddr.toInt.toNat)) := by
  have hrange := inInt_toInt g.inFileAddr
  have hlength := e.length_lt
  induction n with
  | zero => omega
  | succ n ih =>
    by_cases hlast : g.inFileAddr.toInt + n ≤ 2 ^ 31
    · have hposition : i32 (g.inFileAddr.toInt + n) = g.inFileAddr.toInt + n - 2 ^ 32 :=
        i32_wrap (by omega) (by omega)
      rw [copyRounds_succ (copyRounds_ok hfile hlast), Nat.min_eq_right (by omega), copyByte_eq,
        hposition, readByte, if_pos (by omega)]
      rfl
    · exact copyRounds_succ_error (ih (by omega))

theorem copyRounds_negative (hfile : g.inFileAddr.toInt < 0) (hn : 0 < n) :
    e.copyRounds g n s = some (.error .assertFailed, s) := by
  have hrange := inInt_toInt g.inFileAddr
  induction n with
  | zero => omega
  | succ n ih =>
    rcases Nat.eq_zero_or_pos n with rfl | hpos
    · have hposition : i32 (g.inFileAddr.toInt + (0 : Nat)) < 0 := by
        rw [i32_eq (by omega) (by omega)]
        omega
      have hstart : e.copyRounds g 0 s = some (.ok (), s) := rfl
      rw [copyRounds_succ hstart, copyByte_eq, readByte, if_pos hposition]
      rfl
    · exact copyRounds_succ_error (ih hpos)

/-- The number of bytes that the loop for the segment copies. -/
def stored (e : Executable) (g : Segment) : Nat :=
  if 0 ≤ g.inFileAddr.toInt then min g.size.toInt.toNat (e.length - g.inFileAddr.toInt.toNat) else 0

/-- The loop for the segment comes to its end. -/
def Completes (g : Segment) : Prop :=
  g.size.toInt ≤ 0 ∨ 0 ≤ g.inFileAddr.toInt ∧ g.inFileAddr.toInt + g.size.toInt ≤ 2 ^ 31

instance (g : Segment) : Decidable (Completes g) := inferInstanceAs (Decidable (_ ∨ _))

/-- What the loop for a segment does. -/
theorem copySegment_eq (e : Executable) (g : Segment) (s : Loading) :
    e.copySegment g s =
      some (if Completes g then .ok () else .error .assertFailed, s.copied e g (e.stored g)) := by
  have hlength := e.length_lt
  unfold copySegment
  by_cases hsize : 0 < g.size.toInt
  · rw [if_pos hsize]
    by_cases hfile : 0 ≤ g.inFileAddr.toInt
    · rw [stored, if_pos hfile]
      by_cases hend : g.inFileAddr.toInt + g.size.toInt ≤ 2 ^ 31
      · rw [if_pos (.inr ⟨hfile, hend⟩), copyRounds_ok hfile (by omega)]
      · have hnot : ¬ Completes g := by
          unfold Completes
          omega
        rw [if_neg hnot, copyRounds_stop hfile (by omega), Nat.min_eq_right (by omega)]
    · have hnot : ¬ Completes g := by
        unfold Completes
        omega
      rw [if_neg hnot, stored, if_neg hfile, copyRounds_negative (by omega) (by omega)]
      rfl
  · have hzero : e.stored g = 0 := by
      unfold stored
      split <;> omega
    rw [if_neg hsize, if_pos (.inl (by omega)), hzero]
    rfl

end Executable

/-- What the constructor does with a file that has the right magic number. -/
theorem construct_eq {e : Executable} {junk : Bytes} (hmagic : (e.header junk).word 0 = NOFFMAGIC)
    {noffH : NoffHeader} (hload : NoffHeader.load (e.header junk) = noffH) (s : Loading) :
    construct e junk s =
      if Executable.Completes noffH.code then
        some (
          if Executable.Completes noffH.initData then .ok (numPages noffH)
          else .error .assertFailed,
          (s.copied e noffH.code (e.stored noffH.code)).copied e noffH.initData
            (e.stored noffH.initData))
      else some (.error .assertFailed, s.copied e noffH.code (e.stored noffH.code)) := by
  unfold construct
  rw [if_neg (not_not_intro hmagic), hload, Exec.bind_apply, Executable.copySegment_eq]
  by_cases hcode : Executable.Completes noffH.code
  · rw [if_pos hcode, if_pos hcode]
    show (e.copySegment noffH.initData >>= fun _ => pure (numPages noffH)) _ = _
    rw [Exec.bind_apply, Executable.copySegment_eq]
    by_cases hdata : Executable.Completes noffH.initData
    · rw [if_pos hdata, if_pos hdata]
      rfl
    · rw [if_neg hdata, if_neg hdata]
  · rw [if_neg hcode, if_neg hcode]

/-! ## Files of the Nachos file system -/

section OpenFile

open Filesys

variable {L : Layout} {d : Disk} {h : FileHeader}

theorem length_lt_int (L : Layout) : L.length < 2 ^ 31 := by
  have hle := L.length_le
  simp only [NumSectors, SectorsPerTrack, NumTracks, SectorSize] at hle
  omega

/-- A file on the disk as an executable. -/
def ofLayout (L : Layout) (d : Disk) : Executable := ⟨L.length, L.byte d, length_lt_int L⟩

/-- `ReadAt` of the Nachos file system reads one byte as `readByte` does.  Where
`readByte` stops, it leaves the file or its buffer. -/
theorem readAt_one (hd : L.OnDisk d) (hh : L.Heads h) (junk : Bytes) (disk : CharArray)
    {index : Nat} (hindex : index < disk.size) {position : Int} (hp : InInt position) :
    readAt d h junk disk index 1 position =
      if position < 0 then none
      else if position < (ofLayout L d).length then
        some (1, { disk with
          get := update disk.get index ((ofLayout L d).get position.toNat) })
      else some (0, disk) := by
  by_cases hneg : position < 0
  · rw [if_pos hneg]
    exact Layout.readAt_neg hd hh (by decide) (by decide) hneg hp.1 junk disk index
  rw [if_neg hneg]
  obtain ⟨pos, rfl⟩ := Int.eq_ofNat_of_zero_le (show 0 ≤ position by omega)
  have hlength : (ofLayout L d).length = L.length := rfl
  have hbyte : (ofLayout L d).get = L.byte d := rfl
  rw [hlength, hbyte]
  by_cases hinside : (pos : Int) < L.length
  · have hcount : L.count pos 1 = 1 := by
      unfold Layout.count
      omega
    have hle := (ofLayout L d).length_lt
    have hend : pos + 1 < 2 ^ 31 := lt_of_le_of_lt (show pos + 1 ≤ L.length by omega) hle
    have hpos : pos < L.length := by omega
    obtain ⟨disk', hread, hsize, hget⟩ := Layout.readAt_spec hd hh hpos Nat.one_pos hend junk disk
      (o := index) (by omega)
    rw [hcount] at hread hget
    have hdisk : disk' = { disk with get := update disk.get index (L.byte d pos) } := by
      have hbytes : disk'.get = update disk.get index (L.byte d pos) := by
        funext k
        rw [hget k]
        by_cases hk : k = index
        · rw [if_pos (by omega), hk, update_self, Nat.sub_self, Nat.add_zero]
        · rw [if_neg (by omega), update_of_ne hk]
      cases disk'
      simp only [CharArray.mk.injEq]
      exact ⟨hsize, hbytes⟩
    rw [if_pos hinside, Int.toNat_natCast, ← hdisk]
    exact hread
  · rw [if_neg hinside, readAt, Layout.transfer_empty hh (.inr (by omega))]

end OpenFile

end Nachos.Userprog

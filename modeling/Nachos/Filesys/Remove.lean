import Nachos.Filesys.Reboot

/-!
# `Deallocate` and `Remove`

`Deallocate` should give back what `Allocate` has taken.  Its `for` loop is the whole
body of a `while(true)`, and the `break` at the end of the chain of headers leaves
the `for` loop only.  So it does not return, and neither does a `Remove` that has
found the file.

What it does instead depends on the number of data sectors.

* A file without data sectors: the body does nothing, and the loop goes on forever
  (`whileRounds_empty`).
* Any other file: every round clears a bit that was set, so after some rounds the
  sector is not marked any more, and the `ASSERT` fails (`whileRounds_fails`).
-/

namespace Nachos.Filesys

open Function Lib Machine Userprog

/-- One bit less is set. -/
theorem numClear_clearBit {m : BitMap} {i : Nat} (hi : i < m.numBits)
    (hmarked : m.testBit i = true) : (m.clearBit i).numClear = m.numClear + 1 := by
  have hclear : (m.clearBit i).testBit i = false := by
    rw [BitMap.testBit_clearBit, decide_eq_true rfl]
    rfl
  have hset := BitMap.numClear_setBit (m := m.clearBit i) hi hclear
  have hback : ((m.clearBit i).setBit i).numClear = m.numClear := by
    unfold BitMap.numClear
    apply BitMap.countP_range_congr
    intro j _
    rw [BitMap.testBit_setBit, BitMap.testBit_clearBit]
    by_cases hj : j = i
    · rw [hj, hmarked, decide_eq_true rfl]
      rfl
    · rw [decide_eq_false hj]
      rfl
  omega

namespace FileHeader

variable {h hdr hdr' : FileHeader} {d : Disk} {m m' : BitMap}

/-! ## The rounds of `while(true)` -/

/-- The first rounds of `while(true)`.  `none` is a failed `ASSERT`, or a header
outside the disk. -/
def whileRounds (h : FileHeader) (d : Disk) :
    Nat → FileHeader → BitMap → Option (FileHeader × BitMap)
  | 0, hdr, freeMap => some (hdr, freeMap)
  | n + 1, hdr, freeMap =>
      (freeSectors d h.numSectors.toInt.toNat 0 hdr freeMap).bind fun r =>
        whileRounds h d n r.1 r.2

/-- `Clear` after a `Test` that found the bit set. -/
theorem clear_of_test {sector : Int} (htest : m.test sector = some true)
    (hclear : m.clear sector = some m') :
    m'.numBits = m.numBits ∧ m'.numClear = m.numClear + 1 := by
  unfold BitMap.test at htest
  unfold BitMap.clear at hclear
  split at htest
  · rename_i hrange
    rw [if_pos hrange] at hclear
    cases hclear
    obtain ⟨hlow, hhigh⟩ := hrange
    exact ⟨rfl, numClear_clearBit (by omega) (Option.some.inj htest)⟩
  · cases htest

/-- The `for` loop clears a set bit in each of its rounds. -/
theorem freeSectors_clears {k i : Nat} (hfree : freeSectors d k i hdr m = some (hdr', m')) :
    m'.numBits = m.numBits ∧ m.numClear ≤ m'.numClear ∧ (0 < k → m.numClear < m'.numClear) := by
  induction k generalizing i hdr m with
  | zero =>
      cases hfree
      exact ⟨rfl, le_rfl, fun h0 => absurd h0 (lt_irrefl 0)⟩
  | succ k ih =>
      simp only [freeSectors, Option.bind_eq_bind, Option.bind_eq_some_iff] at hfree
      obtain ⟨marked, htest, hfree⟩ := hfree
      cases marked with
      | false => cases hfree
      | true =>
          obtain ⟨m1, hclear, hfree⟩ := Option.bind_eq_some_iff.mp hfree
          obtain ⟨hbits, hcount⟩ := clear_of_test htest hclear
          split at hfree
          · cases hfree
            exact ⟨hbits, by omega, fun _ => by omega⟩
          · obtain ⟨next, _, hrest⟩ := Option.bind_eq_some_iff.mp hfree
            obtain ⟨hbits', hle, _⟩ := ih hrest
            exact ⟨hbits'.trans hbits, by omega, fun _ => by omega⟩

/-- A file without data sectors. -/
theorem whileRounds_empty (hn : h.numSectors.toInt ≤ 0) (n : Nat) :
    h.whileRounds d n hdr m = some (hdr, m) := by
  have hzero : h.numSectors.toInt.toNat = 0 := by omega
  induction n with
  | zero => rfl
  | succ n ih =>
      unfold whileRounds
      rw [hzero]
      exact ih

/-- A file with data sectors: there is a round for each set bit at most. -/
theorem whileRounds_fails (hn : 0 < h.numSectors.toInt) {n : Nat}
    (hgap : m.numBits - m.numClear < n) : h.whileRounds d n hdr m = none := by
  induction n generalizing hdr m with
  | zero => omega
  | succ n ih =>
      unfold whileRounds
      cases hfree : freeSectors d h.numSectors.toInt.toNat 0 hdr m with
      | none => rfl
      | some r =>
          obtain ⟨hbits, _, hmore⟩ := freeSectors_clears hfree
          have hlt := hmore (by omega)
          have hle := r.2.numClear_le
          exact ih (by omega)

end FileHeader

/-! ## What was asked for -/

/-- `Deallocate` returns, and the free map is the one before `Allocate`.  `h'`, `m'`
and `d'` are what `Allocate` has made. -/
def Undoes (m : BitMap) (h' : FileHeader) (m' : BitMap) (d' : Disk) : Prop :=
  ∃ fuel m'', h'.deallocate d' fuel h' m' = some m'' ∧ m''.numBits = m.numBits ∧
    ∀ i, i < m.numBits → m''.testBit i = m.testBit i

/-- A `Remove` that finds the file does not return. -/
theorem FileSystem.remove_of_found {fs : FileSystem} {mem : Strings} {f : Fresh}
    {name : BitVec 32} {dir : Directory} {sector : Int} (hfetch : fs.fetchDirectory f = some dir)
    (hfind : dir.find mem name = some sector) (hfound : sector ≠ -1) (fuel : Nat) :
    fs.remove mem f fuel name = none := by
  simp only [FileSystem.remove, hfetch, hfind, Option.bind_eq_bind, Option.bind_some,
    if_neg hfound]
  cases FileHeader.fetchFrom fs.disk sector with
  | none => rfl
  | some fileHdr =>
      cases fs.fetchFreeMap f with
      | none => rfl
      | some freeMap =>
          rw [Option.bind_some, Option.bind_some, FileHeader.deallocate_eq_none]
          rfl

/-- The directory of a new file system has the file "a" that was created. -/
theorem exists_found :
    ∃ (fs0 fs1 : FileSystem) (dir : Directory) (q : Nat),
      FileSystem.format (fun _ _ => 0) zeroFresh zeroFresh zeroFresh = some fs0 ∧
      fs0.create firstRun zeroFresh 1 100 = some (true, fs1) ∧
      fs1.fetchDirectory zeroFresh = some dir ∧ dir.find firstRun 1 = some (q : Int) ∧
      q < NumSectors := by
  obtain ⟨fs0, fs1, -, v1, table, q, hformat, -, -, hcreate, hv1, hq, hbyte, hunused⟩ :=
    exists_created firstRun 1 100 (by decide) (by decide)
  obtain ⟨dir, hfetch, hfind⟩ := Volume.openFile_of_entry
    (hv1.onDisk.files .directory _ rfl) hv1.directoryFile hbyte hunused firstRun zeroFresh 1
    (show strcmp firstRun 1 1 = some true from rfl)
  rw [if_pos rfl, Building.toInt_ofInt_sector hq] at hfind
  exact ⟨fs0, fs1, dir, q, hformat, hcreate, hfetch, hfind, hq⟩

/-- `Deallocate` never undoes `Allocate`: it does not return.  For a file without
data sectors it goes on forever, and otherwise an `ASSERT` fails.  `Remove` does not
return for a file that exists. -/
theorem deallocate_never_undoes (h : FileHeader) (m : BitMap) (d : Disk)
    (newHdr : Nat → FileHeader) (curSector time : BitVec 32) (size : Nat) (h' : FileHeader)
    (m' : BitMap) (d' : Disk) (fs : FileSystem) (mem : Strings) (f : Fresh) (name : BitVec 32)
    (dir : Directory) (sector : Int) :
    (h.allocate m d newHdr curSector time size = some (some (h', m', d')) →
      ¬Undoes m h' m' d' ∧
        (h'.numSectors.toInt ≤ 0 → ∀ n, h'.whileRounds d' n h' m' = some (h', m')) ∧
        (0 < h'.numSectors.toInt → ∃ n, h'.whileRounds d' n h' m' = none)) ∧
    (fs.fetchDirectory f = some dir → dir.find mem name = some sector → sector ≠ -1 →
      ∀ fuel, fs.remove mem f fuel name = none) := by
  constructor
  · intro _
    refine ⟨?_, fun hn n => FileHeader.whileRounds_empty hn n, fun hn => ?_⟩
    · rintro ⟨fuel, m'', hreturn, _⟩
      rw [FileHeader.deallocate_eq_none] at hreturn
      cases hreturn
    · exact ⟨_, FileHeader.whileRounds_fails hn (Nat.lt_succ_self _)⟩
  · intro hfetch hfind hfound fuel
    exact FileSystem.remove_of_found hfetch hfind hfound fuel

/-- One sector is allocated from an empty map, and not given back.  The file "a"
is created, and not removed. -/
theorem deallocate_never_undoes_one : ∃ h' m' d' fs0 fs1,
    zeroFresh.header.allocate (.new NumSectors fun _ => 0) (fun _ _ => 0) zeroFresh.newHdr 0 0 100 =
        some (some (h', m', d')) ∧
      ¬Undoes (.new NumSectors fun _ => 0) h' m' d' ∧
      FileSystem.format (fun _ _ => 0) zeroFresh zeroFresh zeroFresh = some fs0 ∧
      fs0.create firstRun zeroFresh 1 100 = some (true, fs1) ∧
      ∀ fuel, fs1.remove firstRun zeroFresh fuel 1 = none := by
  have hspace : (100 + (SectorSize - 1)) / SectorSize +
      ((100 + (SectorSize - 1)) / SectorSize - 1) / NumDirect ≤
        (BitMap.new NumSectors fun _ => 0).numClear := by
    rw [BitMap.numClear_new]
    decide
  obtain ⟨h', m', d', _, _, halloc, _⟩ := FileHeader.allocate_spec (h := zeroFresh.header)
    (d := fun _ _ => 0) (BitMap.numBits_new _ _).le hspace (by decide) zeroFresh.newHdr 0 0
  obtain ⟨fs0, fs1, dir, q, hformat, hcreate, hfetch, hfind, _⟩ := exists_found
  obtain ⟨hundo, hremove⟩ := deallocate_never_undoes _ _ _ _ _ _ 100 h' m' d' fs1 firstRun
    zeroFresh 1 dir q
  exact ⟨h', m', d', fs0, fs1, halloc, (hundo halloc).1, hformat, hcreate,
    hremove hfetch hfind (by omega)⟩

/-- The file "a" is created and can be opened, and its `Remove` does not return. -/
theorem created_file_stays :
    ∃ fs0 fs1 fs2, FileSystem.format (fun _ _ => 0) zeroFresh zeroFresh zeroFresh = some fs0 ∧
      fs0.create firstRun zeroFresh 1 100 = some (true, fs1) ∧
      fs1.openFile firstRun zeroFresh 1 = some (true, fs2) ∧
      ∀ fuel, fs1.remove firstRun zeroFresh fuel 1 = none := by
  obtain ⟨fs0, fs1, dir, q, hformat, hcreate, hfetch, hfind, hq⟩ := exists_found
  have hopen := FileSystem.openFile_of_found hfetch hfind hq
  exact ⟨fs0, fs1, _, hformat, hcreate, hopen,
    fun fuel => FileSystem.remove_of_found hfetch hfind (by omega) fuel⟩

end Nachos.Filesys

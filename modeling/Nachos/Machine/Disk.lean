import Nachos.Lib.Bytes

/-!
# The disk: `machine/disk.cc` and `filesys/synchdisk.cc`

The disk holds `NumSectors` sectors of `SectorSize` bytes.  `SynchDisk` reads
and writes one sector and returns when the request is done, so a request is
one function on the contents.  `none` is the failed `ASSERT` on the sector
number.
-/

namespace Nachos.Machine

open Function Lib

def SectorSize : Nat := 128

def SectorsPerTrack : Nat := 32

def NumTracks : Nat := 32

def NumSectors : Nat := SectorsPerTrack * NumTracks

/-- The contents of the sectors. -/
abbrev Disk := Nat → Bytes

/-- `SynchDisk::ReadSector`. -/
def readSector (d : Disk) (sectorNumber : Int) : Option Bytes :=
  if 0 ≤ sectorNumber ∧ sectorNumber < NumSectors then some (d sectorNumber.toNat) else none

/-- `SynchDisk::WriteSector`. -/
def writeSector (d : Disk) (sectorNumber : Int) (data : Bytes) : Option Disk :=
  if 0 ≤ sectorNumber ∧ sectorNumber < NumSectors then
    some (update d sectorNumber.toNat data)
  else none

theorem readSector_of_lt (d : Disk) {s : Nat} (h : s < NumSectors) :
    readSector d s = some (d s) := by
  rw [readSector, if_pos ⟨Int.natCast_nonneg s, Int.ofNat_lt.mpr h⟩, Int.toNat_natCast]

theorem writeSector_of_lt (d : Disk) {s : Nat} (h : s < NumSectors) (data : Bytes) :
    writeSector d s data = some (update d s data) := by
  rw [writeSector, if_pos ⟨Int.natCast_nonneg s, Int.ofNat_lt.mpr h⟩, Int.toNat_natCast]

end Nachos.Machine

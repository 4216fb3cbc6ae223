import Nachos.Filesys.FileHeader

/-!
# Open files: `filesys/openfile.cc`

An `OpenFile` has a copy of the file header, the sector of the header, and a
position.  The disk knows whole sectors only, so `readAt` reads all the sectors
of the request into a buffer and copies the part that was asked for, and
`writeAt` first reads the sectors that it changes in part.  `read` and `write`
also store the time in the header and write the header back.

The arithmetic is that of `int`.  `none` stands for a failed `ASSERT` and for
an access outside a buffer.  The contents of a new buffer are a parameter.
-/

namespace Nachos.Filesys

open Function Lib Machine

/-- `bcopy(&src[s], &dst[d], n)`. -/
def bcopy (src : CharArray) (s : Int) (dst : CharArray) (d n : Int) : Option CharArray :=
  if 0 ≤ s ∧ 0 ≤ d ∧ 0 ≤ n then dst.copy d.toNat src s.toNat n.toNat else none

theorem bcopy_of_le {src dst : CharArray} {s d n : Nat} (hs : s + n ≤ src.size)
    (hd : d + n ≤ dst.size) :
    bcopy src s dst d n = some { dst with get := dst.get.copy d src.get s n } := by
  rw [bcopy, if_pos ⟨Int.natCast_nonneg s, Int.natCast_nonneg d, Int.natCast_nonneg n⟩]
  exact CharArray.copy_of_le hd hs

/-! ## The request -/

/-- The sectors of a request. -/
structure Transfer where
  numBytes : Int
  firstSector : Int
  lastSector : Int

/-- The first part of `ReadAt` and `WriteAt`: check the request, and cut it off
at the end of the file.  `none` is the return of `0`. -/
def transfer (hdr : FileHeader) (numBytes position : Int) : Option Transfer :=
  let fileLength := hdr.fileLength
  if numBytes ≤ 0 ∨ fileLength ≤ position then none
  else
    let numBytes :=
      if fileLength < i32 (position + numBytes) then i32 (fileLength - position) else numBytes
    some
      { numBytes := numBytes
        firstSector := position.tdiv SectorSize
        lastSector := (i32 (i32 (position + numBytes) - 1)).tdiv SectorSize }

namespace Transfer

/-- `buf = new char[numSectors * SectorSize]`. -/
def newBuffer (t : Transfer) (junk : Bytes) : Option CharArray :=
  let numSectors := i32 (1 + t.lastSector - t.firstSector)
  let size := i32 (numSectors * SectorSize)
  if 0 ≤ size then some ⟨size.toNat, junk⟩ else none

/-- The number of rounds of `for (i = firstSector; i <= lastSector; i++)`. -/
def rounds (t : Transfer) : Nat := (t.lastSector + 1 - t.firstSector).toNat

end Transfer

/-! ## Reading and writing at a position -/

/-- `n` rounds of the loop of `ReadAt`: read the sectors into the buffer. -/
def readSectors (d : Disk) (hdr : FileHeader) (firstSector : Int) (buf : CharArray) :
    Nat → Option CharArray
  | 0 => some buf
  | n + 1 => do
      let buf ← readSectors d hdr firstSector buf n
      let sector ← hdr.byteToSector d (BitVec.ofInt 32 ((firstSector + n) * SectorSize))
      let data ← readSector d sector
      buf.copy (n * SectorSize) ⟨SectorSize, data⟩ 0 SectorSize

/-- `n` rounds of the loop of `WriteAt`: write the buffer to the sectors. -/
def writeSectors (d : Disk) (hdr : FileHeader) (firstSector : Int) (buf : CharArray) :
    Nat → Option Disk
  | 0 => some d
  | n + 1 => do
      let d ← writeSectors d hdr firstSector buf n
      let sector ← hdr.byteToSector d (BitVec.ofInt 32 ((firstSector + n) * SectorSize))
      let data ← (⟨SectorSize, fun _ => 0⟩ : CharArray).copy 0 buf (n * SectorSize) SectorSize
      writeSector d sector data.get

/-- `OpenFile::ReadAt(&into[o], numBytes, position)`: the count, and the
buffer of the caller. -/
def readAt (d : Disk) (hdr : FileHeader) (junk : Bytes) (into : CharArray)
    (o numBytes position : Int) : Option (Int × CharArray) :=
  match transfer hdr numBytes position with
  | none => some (0, into)
  | some t => do
      let buf ← t.newBuffer junk
      let buf ← readSectors d hdr t.firstSector buf t.rounds
      let into ← bcopy buf (position - t.firstSector * SectorSize) into o t.numBytes
      some (t.numBytes, into)

/-- The part of `WriteAt` that reads the first and the last sector into the
buffer, if the request changes only a part of them. -/
def readPartial (d : Disk) (hdr : FileHeader) (junk : Bytes) (buf : CharArray) (t : Transfer)
    (position : Int) : Option CharArray := do
  let firstAligned := decide (position = t.firstSector * SectorSize)
  let lastAligned := decide (i32 (position + t.numBytes) = i32 ((t.lastSector + 1) * SectorSize))
  let buf ←
    (if !firstAligned then
      (readAt d hdr junk buf 0 SectorSize (t.firstSector * SectorSize)).map Prod.snd
    else some buf)
  if !lastAligned && (t.firstSector ≠ t.lastSector || firstAligned) then
    (readAt d hdr junk buf (i32 ((t.lastSector - t.firstSector) * SectorSize)) SectorSize
      (t.lastSector * SectorSize)).map Prod.snd
  else some buf

/-- `OpenFile::WriteAt(from, numBytes, position)`: the count, and the disk. -/
def writeAt (d : Disk) (hdr : FileHeader) (junk : Bytes) (source : CharArray)
    (numBytes position : Int) : Option (Int × Disk) :=
  match transfer hdr numBytes position with
  | none => some (0, d)
  | some t => do
      let buf ← t.newBuffer junk
      let buf ← readPartial d hdr junk buf t position
      let buf ← bcopy source 0 buf (position - t.firstSector * SectorSize) t.numBytes
      let d ← writeSectors d hdr t.firstSector buf t.rounds
      some (t.numBytes, d)

/-! ## Handles -/

/-- `class OpenFile`. -/
structure OpenFile where
  hdr : FileHeader
  hdrSector : Int
  seekPosition : Int

namespace OpenFile

/-- `OpenFile::OpenFile`. -/
def openAt (d : Disk) (sector : Int) : Option OpenFile :=
  (FileHeader.fetchFrom d sector).map fun hdr => ⟨hdr, sector, 0⟩

/-- `OpenFile::Seek`. -/
def seek (f : OpenFile) (position : Int) : OpenFile := { f with seekPosition := position }

/-- `OpenFile::Read` at the given time. -/
def read (f : OpenFile) (d : Disk) (time : BitVec 32) (junk : Bytes) (into : CharArray)
    (numBytes : Int) : Option (Int × CharArray × OpenFile × Disk) := do
  let (result, into) ← readAt d f.hdr junk into 0 numBytes f.seekPosition
  let f := { f with
    seekPosition := i32 (f.seekPosition + result)
    hdr.lastAccessTime := time }
  let d ← f.hdr.writeBack d f.hdrSector
  some (result, into, f, d)

/-- `OpenFile::Write` at the given time. -/
def write (f : OpenFile) (d : Disk) (time : BitVec 32) (junk : Bytes) (source : CharArray)
    (numBytes : Int) : Option (Int × OpenFile × Disk) := do
  let (result, d) ← writeAt d f.hdr junk source numBytes f.seekPosition
  let f := { f with
    seekPosition := i32 (f.seekPosition + result)
    hdr.lastAccessTime := time
    hdr.lastWriteTime := time }
  let d ← f.hdr.writeBack d f.hdrSector
  some (result, f, d)

end OpenFile

end Nachos.Filesys

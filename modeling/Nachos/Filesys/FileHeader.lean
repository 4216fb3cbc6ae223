import Nachos.Machine.Disk

/-!
# File headers: `filesys/filehdr.cc`

A file header fills one sector: three times, the sector of the next header, the
length of the file, the number of its data sectors, and `NumDirect` data
sectors.  A file with more data sectors has a chain of headers, and only the
first one has the length.  `decode` and `encode` are the two casts between a
header and the bytes of its sector.

`byteToSector` follows the chain.  The loop of the source subtracts
`NumDirect * SectorSize` from the offset for each header that it fetches; the
comparison is between unsigned numbers, since `NumDirect` is one.
-/

namespace Nachos.Filesys

open Function Lib Machine

/-- `NumDirect`, for a `time_t` of four bytes. -/
def NumDirect : Nat := (SectorSize - 3 * 4 - 3 * 4) / 4

theorem numDirect_eq : NumDirect = 26 := rfl

theorem mod_numDirect_lt (k : Nat) : k % NumDirect < NumDirect := Nat.mod_lt k (by decide)

/-- `class FileHeader`.  The `int` fields are words. -/
structure FileHeader where
  createTime : BitVec 32
  lastAccessTime : BitVec 32
  lastWriteTime : BitVec 32
  nextFdrSector : BitVec 32
  numBytes : BitVec 32
  numSectors : BitVec 32
  dataSectors : Fin NumDirect → BitVec 32

namespace FileHeader

/-! ## The layout in memory -/

/-- The words of a header. -/
def words (h : FileHeader) : Nat → BitVec 32
  | 0 => h.createTime
  | 1 => h.lastAccessTime
  | 2 => h.lastWriteTime
  | 3 => h.nextFdrSector
  | 4 => h.numBytes
  | 5 => h.numSectors
  | i + 6 => if hi : i < NumDirect then h.dataSectors ⟨i, hi⟩ else 0

/-- The bytes of a header. -/
def encode (h : FileHeader) : Bytes := Bytes.ofWords h.words

/-- The header in the bytes. -/
def decode (b : Bytes) : FileHeader where
  createTime := b.word 0
  lastAccessTime := b.word 4
  lastWriteTime := b.word 8
  nextFdrSector := b.word 12
  numBytes := b.word 16
  numSectors := b.word 20
  dataSectors i := b.word (4 * (i + 6))

theorem word_encode (h : FileHeader) (k : Nat) : h.encode.word (4 * k) = h.words k :=
  Bytes.word_ofWords h.words k

/-- A header that is written to a sector and fetched again is the same. -/
theorem decode_encode (h : FileHeader) : decode h.encode = h := by
  obtain ⟨t1, t2, t3, next, bytes, sectors, data⟩ := h
  simp only [decode, mk.injEq]
  refine ⟨word_encode _ 0, word_encode _ 1, word_encode _ 2, word_encode _ 3, word_encode _ 4,
    word_encode _ 5, ?_⟩
  funext i
  rw [word_encode]
  exact dif_pos i.isLt

/-! ## Operations -/

/-- `FileHeader::FetchFrom`. -/
def fetchFrom (d : Disk) (sector : Int) : Option FileHeader := (readSector d sector).map decode

/-- `FileHeader::WriteBack`. -/
def writeBack (h : FileHeader) (d : Disk) (sector : Int) : Option Disk :=
  writeSector d sector h.encode

/-- `FileHeader::FileLength`. -/
def fileLength (h : FileHeader) : Int := h.numBytes.toInt

/-- The header that is `n` headers further in the chain. -/
def hop (d : Disk) (h : FileHeader) : Nat → Option FileHeader
  | 0 => some h
  | n + 1 => (fetchFrom d h.nextFdrSector.toInt).bind fun next => hop d next n

/-- `FileHeader::ByteToSector`.  The loop fetches one header for each
`NumDirect * SectorSize` bytes of the offset. -/
def byteToSector (d : Disk) (h : FileHeader) (offset : BitVec 32) : Option Int :=
  (hop d h (offset.toNat / (NumDirect * SectorSize))).map fun last =>
    (last.dataSectors ⟨offset.toNat % (NumDirect * SectorSize) / SectorSize,
      Nat.div_lt_of_lt_mul (Nat.mul_comm NumDirect SectorSize ▸ Nat.mod_lt _ (by decide))⟩).toInt

end FileHeader

end Nachos.Filesys

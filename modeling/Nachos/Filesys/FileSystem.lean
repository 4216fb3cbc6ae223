import Nachos.Filesys.Allocate
import Nachos.Filesys.Directory

/-!
# The file system: `filesys/filesys.cc`

The free map, the directory and the pipe are files with headers in the first
three sectors.  An operation fetches the free map and the directory from the
disk, works on its copies, and writes them back.

`FileSystem` is the disk, the two files that stay open, and the files that were
opened by name.  `format` is the constructor with `format = TRUE`, and `mount` with
`format = FALSE`.  A `Request` is
one call from outside, and `step` is the state after it.  `none` is a call that
does not return: a failed `ASSERT`, an access outside an array, or a loop without
end.
-/

namespace Nachos.Filesys

open Function Lib Machine Userprog

def FreeMapSector : Nat := 0

def DirectorySector : Nat := 1

def PipeSector : Nat := 2

def FreeMapFileSize : Nat := NumSectors / BitsInByte

def NumDirEntries : Nat := 10

def DirectoryFileSize : Nat := EntrySize * NumDirEntries

def PipeFileSize : Nat := 500

/-- What a call finds in memory that it does not initialise, and the time. -/
structure Fresh where
  buffer : Bytes
  words : Nat → BitVec 32
  table : Bytes
  header : FileHeader
  newHdr : Nat → FileHeader
  curSector : BitVec 32
  time : BitVec 32

/-- `class FileSystem`, with the disk and the open files. -/
structure FileSystem where
  disk : Disk
  freeMapFile : OpenFile
  directoryFile : OpenFile
  handles : List OpenFile

namespace FileSystem

/-- `ASSERT(hdr->Allocate(freeMap, fileSize))` for a new header. -/
def allocateNew (freeMap : BitMap) (d : Disk) (f : Fresh) (fileSize : Nat) :
    Option (FileHeader × BitMap × Disk) :=
  (f.header.allocate freeMap d f.newHdr f.curSector f.time fileSize).join

/-- `FileSystem::FileSystem(TRUE)`. -/
def format (d : Disk) (f g h : Fresh) : Option FileSystem := do
  let freeMap := BitMap.new NumSectors f.words
  let directory := Directory.new NumDirEntries f.table
  let freeMap ← freeMap.mark FreeMapSector
  let freeMap ← freeMap.mark DirectorySector
  let freeMap ← freeMap.mark PipeSector
  let (mapHdr, freeMap, d) ← allocateNew freeMap d f FreeMapFileSize
  let (dirHdr, freeMap, d) ← allocateNew freeMap d g DirectoryFileSize
  let (pipeHdr, freeMap, d) ← allocateNew freeMap d h PipeFileSize
  let d ← mapHdr.writeBack d FreeMapSector
  let d ← dirHdr.writeBack d DirectorySector
  let d ← pipeHdr.writeBack d PipeSector
  let freeMapFile ← OpenFile.openAt d FreeMapSector
  let directoryFile ← OpenFile.openAt d DirectorySector
  let _pipeFile ← OpenFile.openAt d PipeSector
  let d ← freeMap.writeBack d f.buffer freeMapFile
  let d ← directory.writeBack d f.buffer directoryFile
  some ⟨d, freeMapFile, directoryFile, []⟩

/-- `FileSystem::FileSystem(FALSE)`. -/
def mount (d : Disk) : Option FileSystem := do
  let freeMapFile ← OpenFile.openAt d FreeMapSector
  let directoryFile ← OpenFile.openAt d DirectorySector
  let _pipeFile ← OpenFile.openAt d PipeSector
  some ⟨d, freeMapFile, directoryFile, []⟩

variable (fs : FileSystem)

/-- A new `Directory`, fetched from the disk. -/
def fetchDirectory (f : Fresh) : Option Directory :=
  (Directory.new NumDirEntries f.table).fetchFrom fs.disk f.buffer fs.directoryFile

/-- A new `BitMap`, fetched from the disk. -/
def fetchFreeMap (f : Fresh) : Option BitMap :=
  (BitMap.new NumSectors f.words).fetchFrom fs.disk f.buffer fs.freeMapFile

/-- The last part of `Create`: the header, the directory and the free map are
written. -/
def commit (f : Fresh) (hdr : FileHeader) (sector : Int) (directory : Directory)
    (freeMap : BitMap) (d : Disk) : Option FileSystem := do
  let d ← hdr.writeBack d sector
  let d ← directory.writeBack d f.buffer fs.directoryFile
  let d ← freeMap.writeBack d f.buffer fs.freeMapFile
  some { fs with disk := d }

/-- `FileSystem::Create`. -/
def create (mem : Strings) (f : Fresh) (name : BitVec 32) (initialSize : Int) :
    Option (Bool × FileSystem) := do
  let directory ← fs.fetchDirectory f
  let found ← directory.find mem name
  if found ≠ -1 then some (false, fs)
  else
    let freeMap ← fs.fetchFreeMap f
    let (sector, freeMap) := freeMap.find
    if sector = -1 then some (false, fs)
    else
      match ← directory.add mem name (BitVec.ofInt 32 sector) with
      | none => some (false, fs)
      | some directory =>
          match ← f.header.allocate freeMap fs.disk f.newHdr f.curSector f.time initialSize with
          | none => some (false, fs)
          | some (hdr, freeMap, d) =>
              (fs.commit f hdr sector directory freeMap d).map fun fs => (true, fs)

/-- `FileSystem::Open`.  The handle of a file that was found is added to the open
files. -/
def openFile (mem : Strings) (f : Fresh) (name : BitVec 32) : Option (Bool × FileSystem) := do
  let directory ← fs.fetchDirectory f
  let sector ← directory.find mem name
  if 0 ≤ sector then
    let file ← OpenFile.openAt fs.disk sector
    some (true, { fs with handles := fs.handles ++ [file] })
  else some (false, fs)

/-- `FileSystem::Remove`, with the fuel of `Deallocate`. -/
def remove (mem : Strings) (f : Fresh) (fuel : Nat) (name : BitVec 32) :
    Option (Bool × FileSystem) := do
  let directory ← fs.fetchDirectory f
  let sector ← directory.find mem name
  if sector = -1 then some (false, fs)
  else
    let fileHdr ← FileHeader.fetchFrom fs.disk sector
    let freeMap ← fs.fetchFreeMap f
    let freeMap ← fileHdr.deallocate fs.disk fuel fileHdr freeMap
    let freeMap ← freeMap.clear sector
    let removed ← directory.remove mem name
    let d ← freeMap.writeBack fs.disk f.buffer fs.freeMapFile
    let d ← (removed.getD directory).writeBack d f.buffer fs.directoryFile
    some (true, { fs with disk := d })

/-- `FileSystem::ReadPipe`. -/
def readPipe (f : Fresh) (data : CharArray) (numBytes : BitVec 32) :
    Option (Int × CharArray × FileSystem) := do
  let pipeFile ← OpenFile.openAt fs.disk PipeSector
  let (size, data, _, d) ← pipeFile.read fs.disk f.time f.buffer data numBytes.toInt
  some (size, data, { fs with disk := d })

/-- `FileSystem::WritePipe`. -/
def writePipe (f : Fresh) (data : CharArray) (numBytes : BitVec 32) :
    Option (Int × FileSystem) := do
  let pipeFile ← OpenFile.openAt fs.disk PipeSector
  let (size, _, d) ← pipeFile.write fs.disk f.time f.buffer data numBytes.toInt
  some (size, { fs with disk := d })

/-! ## Runs -/

/-- A call of the file system or of an open file. -/
inductive Request where
  | create (mem : Strings) (name : BitVec 32) (initialSize : Int)
  | openFile (mem : Strings) (name : BitVec 32)
  | remove (mem : Strings) (name : BitVec 32) (fuel : Nat)
  | seek (handle : Nat) (position : BitVec 32)
  | read (handle : Nat) (into : CharArray) (numBytes : BitVec 32)
  | write (handle : Nat) (source : CharArray) (numBytes : BitVec 32)
  | readPipe (data : CharArray) (numBytes : BitVec 32)
  | writePipe (data : CharArray) (numBytes : BitVec 32)

/-- The state after a call that returns. -/
def step (r : Request × Fresh) : Option FileSystem :=
  match r.1 with
  | .create mem name initialSize => (fs.create mem r.2 name initialSize).map Prod.snd
  | .openFile mem name => (fs.openFile mem r.2 name).map Prod.snd
  | .remove mem name fuel => (fs.remove mem r.2 fuel name).map Prod.snd
  | .seek k position => do
      let file ← fs.handles[k]?
      some { fs with handles := fs.handles.set k (file.seek position.toInt) }
  | .read k into numBytes => do
      let file ← fs.handles[k]?
      let (_, _, file, d) ← file.read fs.disk r.2.time r.2.buffer into numBytes.toInt
      some { fs with disk := d, handles := fs.handles.set k file }
  | .write k source numBytes => do
      let file ← fs.handles[k]?
      let (_, file, d) ← file.write fs.disk r.2.time r.2.buffer source numBytes.toInt
      some { fs with disk := d, handles := fs.handles.set k file }
  | .readPipe data numBytes => (fs.readPipe r.2 data numBytes).map fun x => x.2.2
  | .writePipe data numBytes => (fs.writePipe r.2 data numBytes).map Prod.snd

variable {fs}

/-- A `Remove` that returns has not found the file. -/
theorem remove_eq_some {mem : Strings} {f : Fresh} {fuel : Nat} {name : BitVec 32} {b : Bool}
    {fs' : FileSystem} (h : fs.remove mem f fuel name = some (b, fs')) : fs' = fs := by
  simp only [remove, FileHeader.deallocate_eq_none, Option.bind_eq_bind,
    Option.bind_eq_some_iff] at h
  obtain ⟨directory, -, sector, -, h⟩ := h
  split at h
  · exact (Prod.mk.inj (Option.some.inj h)).2.symm
  · simp only [Option.bind_eq_some_iff] at h
    obtain ⟨_, -, _, -, _, hnone, -⟩ := h
    cases hnone

end FileSystem

end Nachos.Filesys

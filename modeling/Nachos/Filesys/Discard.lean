import Nachos.Filesys.CreateFrame
import Nachos.Lib.Exec

/-!
# A `Create` that fails leaves the disk alone

`Create` works on copies of the directory and of the free map in memory, and
writes them at the end.  The header comment of `filesys.cc` promises that a
failed operation discards them.

Here `Create` is a program of `Lib.Exec` with the disk and the objects in memory
as its state, one step for each statement, so that the order of the changes and
the writes is visible.  `Failed` lists the four exits with `FALSE`, each with the
state of the objects in memory at that point: the later the exit, the more has
been changed in memory.  `program_eq_create` ties the program to the function
`create` of the other modules.
-/

namespace Nachos.Filesys

open Function Lib Machine Userprog

/-- The disk, and the objects that `Create` makes: `directory`, `freeMap` and
`hdr`. -/
structure Working where
  disk : Disk
  directory : Directory
  freeMap : BitMap
  hdr : FileHeader

namespace Working

/-- A piece of `Create`.  It raises nothing. -/
abbrev Code : Type → Type := Exec Working Empty

/-- A step that only reads. -/
def ask {α : Type} (p : Working → Option α) : Code α := fun w => (p w).map fun a => (.ok a, w)

/-- A step that changes the state. -/
def act (p : Working → Option Working) : Code Unit := fun w => (p w).map fun w' => (.ok (), w')

/-- `sector = freeMap->Find()`. -/
def findSector : Code Int := fun w =>
  some (.ok w.freeMap.find.1, { w with freeMap := w.freeMap.find.2 })

/-- `directory->Add(name, sector)`. -/
def add (mem : Strings) (name : BitVec 32) (sector : Int) : Code Bool := fun w =>
  (w.directory.add mem name (BitVec.ofInt 32 sector)).map fun r =>
    match r with
    | none => (.ok false, w)
    | some directory => (.ok true, { w with directory := directory })

/-- The first two assignments of `Allocate`. -/
def setSize (w : Working) (fileSize : Int) : Working :=
  { w with
    hdr := { w.hdr with
      numBytes := BitVec.ofInt 32 fileSize
      numSectors := BitVec.ofInt 32 (divRoundUp fileSize SectorSize) } }

/-- `hdr->Allocate(freeMap, initialSize)`. -/
def allocate (f : Fresh) (initialSize : Int) : Code Bool := do
  let numSectors := divRoundUp initialSize SectorSize
  act fun w => some (w.setSize initialSize)
  let numClear ← ask fun w => some w.freeMap.numClear
  if numClear < numSectors then pure false
  else
    act fun w => do
      let b ← Building.rounds f.newHdr ⟨w.freeMap, w.disk, w.hdr, none, f.curSector.toInt⟩
        numSectors.toNat
      let (hdr, freeMap, disk) ← b.finish numSectors.toNat f.time
      some { w with hdr := hdr, freeMap := freeMap, disk := disk }
    pure true

section Bind

variable {α β : Type} (w : Working)

theorem ask_bind (p : Working → Option α) (k : α → Code β) :
    (ask p >>= k) w = (p w).bind fun a => k a w := by
  rw [Exec.bind_apply, ask]
  cases p w <;> rfl

theorem act_bind (p : Working → Option Working) (k : Unit → Code β) :
    (act p >>= k) w = (p w).bind fun w' => k () w' := by
  rw [Exec.bind_apply, act]
  cases p w <;> rfl

theorem findSector_bind (k : Int → Code β) :
    (findSector >>= k) w = k w.freeMap.find.1 { w with freeMap := w.freeMap.find.2 } := rfl

theorem add_bind (mem : Strings) (name : BitVec 32) (sector : Int) (k : Bool → Code β) :
    (add mem name sector >>= k) w =
      (w.directory.add mem name (BitVec.ofInt 32 sector)).bind fun r =>
        match r with
        | none => k false w
        | some directory => k true { w with directory := directory } := by
  rw [Exec.bind_apply, add]
  rcases w.directory.add mem name (BitVec.ofInt 32 sector) with - | - | directory <;> rfl

/-- `Allocate` writes to the disk only after the comparison that can end it with
`FALSE`. -/
theorem allocate_bind (f : Fresh) (initialSize : Int) (k : Bool → Code β) :
    (allocate f initialSize >>= k) w =
      (w.hdr.allocate w.freeMap w.disk f.newHdr f.curSector f.time initialSize).bind fun r =>
        match r with
        | none => k false (w.setSize initialSize)
        | some (hdr, freeMap, disk) =>
            k true { w with hdr := hdr, freeMap := freeMap, disk := disk } := by
  rw [Exec.bind_apply, allocate, act_bind, Option.bind_some, ask_bind, Option.bind_some,
    FileHeader.allocate]
  by_cases hclear : (w.freeMap.numClear : Int) < divRoundUp initialSize SectorSize
  · have hclear' : ((w.setSize initialSize).freeMap.numClear : Int) <
        divRoundUp initialSize SectorSize := hclear
    rw [if_pos hclear, if_pos hclear']
    rfl
  · have hclear' : ¬ ((w.setSize initialSize).freeMap.numClear : Int) <
        divRoundUp initialSize SectorSize := hclear
    rw [if_neg hclear, if_neg hclear', act_bind]
    simp only [setSize, Option.bind_eq_bind]
    cases Building.rounds f.newHdr _ _ with
    | none => rfl
    | some b =>
      rw [Option.bind_some, Option.bind_some]
      cases b.finish _ f.time with
      | none => rfl
      | some r => rfl

end Bind

end Working

/-- `Allocate` returns `FALSE` at its comparison only. -/
theorem FileHeader.clear_lt_of_allocate {h : FileHeader} {m : BitMap} {d : Disk}
    {newHdr : Nat → FileHeader} {curSector time : BitVec 32} {fileSize : Int}
    (hfalse : h.allocate m d newHdr curSector time fileSize = some none) :
    m.numClear < divRoundUp fileSize SectorSize := by
  rw [FileHeader.allocate] at hfalse
  by_contra hclear
  simp only [if_neg hclear, Option.bind_eq_bind, Option.bind_eq_some_iff] at hfalse
  obtain ⟨b, -, result, -, hresult⟩ := hfalse
  cases hresult

namespace FileSystem

open Working

variable (fs : FileSystem) (mem : Strings) (f : Fresh) (name : BitVec 32) (initialSize : Int)

/-- The new objects of `Create`. -/
def working : Working where
  disk := fs.disk
  directory := Directory.new NumDirEntries f.table
  freeMap := BitMap.new NumSectors f.words
  hdr := f.header

/-- The writes at the end of `Create`. -/
def writeBackAll (sector : Int) : Working.Code Unit := do
  act fun w => (w.hdr.writeBack w.disk sector).map fun disk => { w with disk := disk }
  act fun w => (w.directory.writeBack w.disk f.buffer fs.directoryFile).map fun disk =>
    { w with disk := disk }
  act fun w => (w.freeMap.writeBack w.disk f.buffer fs.freeMapFile).map fun disk =>
    { w with disk := disk }

/-- `FileSystem::Create`, step by step. -/
def createProgram : Working.Code Bool := do
  act fun w => (w.directory.fetchFrom w.disk f.buffer fs.directoryFile).map fun directory =>
    { w with directory := directory }
  let found ← ask fun w => w.directory.find mem name
  if found ≠ -1 then pure false
  else
    act fun w => (w.freeMap.fetchFrom w.disk f.buffer fs.freeMapFile).map fun freeMap =>
      { w with freeMap := freeMap }
    let sector ← findSector
    if sector = -1 then pure false
    else
      let added ← add mem name sector
      if added then
        let allocated ← allocate f initialSize
        if allocated then
          fs.writeBackAll f sector
          pure true
        else pure false
      else pure false

/-- The exits of `Create` with `FALSE`, and the state there. -/
inductive Failed : Working → Prop where
  /-- The name is in the directory. -/
  | present {directory : Directory} {sector : Int}
      (hdir : fs.fetchDirectory f = some directory)
      (hfound : directory.find mem name = some sector) (hsector : sector ≠ -1) :
      Failed { fs.working f with directory := directory }
  /-- There is no sector for the header. -/
  | noHeader {directory : Directory} {freeMap : BitMap}
      (hdir : fs.fetchDirectory f = some directory) (hnew : directory.find mem name = some (-1))
      (hmap : fs.fetchFreeMap f = some freeMap) (hnone : freeMap.find.1 = -1) :
      Failed { fs.working f with directory := directory, freeMap := freeMap.find.2 }
  /-- The directory is full.  The sector of the header is marked in memory. -/
  | noEntry {directory : Directory} {freeMap : BitMap}
      (hdir : fs.fetchDirectory f = some directory) (hnew : directory.find mem name = some (-1))
      (hmap : fs.fetchFreeMap f = some freeMap) (hsector : freeMap.find.1 ≠ -1)
      (hadd : directory.add mem name (BitVec.ofInt 32 freeMap.find.1) = some none) :
      Failed { fs.working f with directory := directory, freeMap := freeMap.find.2 }
  /-- There are not enough sectors for the data.  The sector of the header is
  marked and the entry is made, both in memory. -/
  | noSpace {directory directory' : Directory} {freeMap : BitMap}
      (hdir : fs.fetchDirectory f = some directory) (hnew : directory.find mem name = some (-1))
      (hmap : fs.fetchFreeMap f = some freeMap) (hsector : freeMap.find.1 ≠ -1)
      (hadd : directory.add mem name (BitVec.ofInt 32 freeMap.find.1) = some (some directory'))
      (hclear : freeMap.find.2.numClear < divRoundUp initialSize SectorSize) :
      Failed ({ fs.working f with directory := directory', freeMap := freeMap.find.2 }.setSize
        initialSize)

/-- How a run of the program ends, beside the result of `create`. -/
inductive Ends : Option (Except Empty Bool × Working) → Option (Bool × FileSystem) → Prop where
  | crash : Ends none none
  | failed {w : Working} (h : Failed fs mem f name initialSize w) :
      Ends (some (.ok false, w)) (some (false, fs))
  | done {w : Working} : Ends (some (.ok true, w)) (some (true, { fs with disk := w.disk }))

variable {fs mem f name initialSize}

/-- The changes before an exit with `FALSE` are in memory. -/
theorem Failed.disk {w : Working} (h : Failed fs mem f name initialSize w) : w.disk = fs.disk := by
  cases h with
  | present => rfl
  | noHeader => rfl
  | noEntry => rfl
  | noSpace => rfl

/-- The program writes as `commit` does. -/
theorem ends_writeBackAll (w : Working) (sector : Int) :
    Ends fs mem f name initialSize ((fs.writeBackAll f sector >>= fun _ => pure true) w)
      ((fs.commit f w.hdr sector w.directory w.freeMap w.disk).map fun fs => (true, fs)) := by
  rw [Exec.bind_apply, writeBackAll, act_bind, commit]
  cases w.hdr.writeBack w.disk sector with
  | none => exact .crash
  | some d1 =>
  rw [Option.map_some, Option.bind_some, act_bind]
  simp only [Option.bind_eq_bind, Option.bind_some]
  cases w.directory.writeBack d1 f.buffer fs.directoryFile with
  | none => exact .crash
  | some d2 =>
  rw [Option.map_some, Option.bind_some, Option.bind_some, act]
  cases w.freeMap.writeBack d2 f.buffer fs.freeMapFile with
  | none => exact .crash
  | some d3 => exact .done

/-- One walk through `Create`, exit by exit. -/
theorem program_ends :
    Ends fs mem f name initialSize (fs.createProgram mem f name initialSize (fs.working f))
      (fs.create mem f name initialSize) := by
  have hfetchDir : (fs.working f).directory.fetchFrom (fs.working f).disk f.buffer
      fs.directoryFile = fs.fetchDirectory f := by rw [fetchDirectory, working]
  have hfetchMap : (fs.working f).freeMap.fetchFrom (fs.working f).disk f.buffer
      fs.freeMapFile = fs.fetchFreeMap f := by rw [fetchFreeMap, working]
  rw [createProgram, create, act_bind, hfetchDir]
  cases hdir : fs.fetchDirectory f with
  | none => exact .crash
  | some directory =>
  rw [Option.map_some, Option.bind_some, ask_bind]
  simp only [Option.bind_eq_bind, Option.bind_some]
  cases hfind : directory.find mem name with
  | none => exact .crash
  | some found =>
  rw [Option.bind_some, Option.bind_some]
  by_cases hfound : found ≠ -1
  · rw [if_pos hfound, if_pos hfound]
    exact .failed (.present hdir hfind hfound)
  rw [if_neg hfound, if_neg hfound, act_bind, hfetchMap]
  obtain rfl := not_not.mp hfound
  cases hmap : fs.fetchFreeMap f with
  | none => exact .crash
  | some freeMap =>
  rw [Option.map_some, Option.bind_some, Option.bind_some, findSector_bind]
  by_cases hsector : freeMap.find.1 = -1
  · rw [if_pos hsector, if_pos hsector]
    exact .failed (.noHeader hdir hfind hmap hsector)
  rw [if_neg hsector, if_neg hsector, add_bind]
  rcases hadd : directory.add mem name (BitVec.ofInt 32 freeMap.find.1) with - | - | directory'
  · exact .crash
  · exact .failed (.noEntry hdir hfind hmap hsector hadd)
  rw [Option.bind_some, Option.bind_some]
  simp only [if_true]
  rw [allocate_bind]
  have hhdr : (fs.working f).hdr.allocate freeMap.find.2 (fs.working f).disk f.newHdr f.curSector
      f.time initialSize =
        f.header.allocate freeMap.find.2 fs.disk f.newHdr f.curSector f.time initialSize := rfl
  rw [hhdr]
  rcases halloc : f.header.allocate freeMap.find.2 fs.disk f.newHdr f.curSector f.time
    initialSize with - | - | ⟨hdr, freeMap', d⟩
  · exact .crash
  · exact .failed (.noSpace hdir hfind hmap hsector hadd (FileHeader.clear_lt_of_allocate halloc))
  · exact ends_writeBackAll ⟨d, directory', freeMap', hdr⟩ freeMap.find.1

/-- What the caller of `Create` sees of a run. -/
def outcome (fs : FileSystem) : Except Empty Bool × Working → Bool × FileSystem
  | (.ok result, w) => (result, { fs with disk := w.disk })
  | (.error e, _) => e.elim

/-- The program computes what `create` computes. -/
theorem program_eq_create :
    (fs.createProgram mem f name initialSize (fs.working f)).map fs.outcome =
      fs.create mem f name initialSize := by
  have hends : Ends fs mem f name initialSize _ _ := program_ends
  generalize fs.createProgram mem f name initialSize (fs.working f) = x,
    fs.create mem f name initialSize = y at hends ⊢
  cases hends with
  | crash => rfl
  | failed h =>
    rw [Option.map_some, outcome, h.disk]
  | done => rfl

/-- A `Create` that returns `FALSE` has left every sector as it was.  It has ended
at one of the four exits, and what it has changed there is in memory. -/
theorem create_false_disk {w : Working}
    (h : fs.createProgram mem f name initialSize (fs.working f) = some (.ok false, w)) :
    (∀ sector, w.disk sector = fs.disk sector) ∧ Failed fs mem f name initialSize w := by
  have hends : Ends fs mem f name initialSize _ _ := program_ends
  rw [h] at hends
  generalize fs.create mem f name initialSize = y at hends
  cases hends with
  | failed hfailed => exact ⟨congrFun hfailed.disk, hfailed⟩

/-- On a formatted disk, 1014 sectors are free.  A file with that many data sectors
is refused by `Allocate`: by then the sector of its header is marked and its entry
is made. -/
theorem create_false_disk_large :
    ∃ fs0 w, format (fun _ _ => 0) zeroFresh zeroFresh zeroFresh = some fs0 ∧
      fs0.createProgram (fun _ => some "a") zeroFresh 1 129792 (fs0.working zeroFresh) =
        some (.ok false, w) ∧
      (∀ sector, w.disk sector = fs0.disk sector) ∧
      Failed fs0 (fun _ => some "a") zeroFresh 1 129792 w := by
  obtain ⟨fs0, v, hformat, hv, hentry, hclear, -⟩ :=
    format_spec (fun _ _ => 0) zeroFresh zeroFresh zeroFresh
  obtain ⟨dir', m, q, hp, hcount⟩ := prepared_blank hv hentry (by rw [hclear]; decide)
    (fun _ => some "a") zeroFresh 1
  have hfull : (m.setBit q).numClear < (129792 + (SectorSize - 1)) / SectorSize := by
    have hdata : (129792 + (SectorSize - 1)) / SectorSize = 1014 := by decide
    omega
  have hfalse : fs0.create (fun _ => some "a") zeroFresh 1 129792 = some (false, fs0) := by
    have halloc := FileHeader.allocate_of_full (h := zeroFresh.header) (d := fs0.disk) hfull
      zeroFresh.newHdr zeroFresh.curSector zeroFresh.time
    rw [Nat.cast_ofNat] at halloc
    rw [hp.create_eq, halloc, Option.bind_some, FileSystem.afterAllocate]
  have hends : Ends fs0 (fun _ => some "a") zeroFresh 1 129792 _ _ := program_ends
  rw [hfalse] at hends
  generalize hrun : fs0.createProgram (fun _ => some "a") zeroFresh 1 129792
    (fs0.working zeroFresh) = x at hends
  cases hends with
  | failed h => exact ⟨fs0, _, hformat, hrun, create_false_disk hrun⟩

end FileSystem

end Nachos.Filesys

import Nachos.Filesys.Requests

/-!
# Directories: `filesys/directory.cc`

A directory is a table of entries.  The table goes to the disk and comes back as
it is in memory, so the model keeps its bytes: an entry has sixteen of them, the
flag at offset 0, the sector at 4, the type at 8, and the name at 12.  The name
is a pointer.  The strings that the pointers refer to are in the memory of the
process, and a lookup has them as a parameter.
-/

namespace Nachos.Filesys

open Function Lib Machine

/-- The strings in the memory of the process.  `none` is a pointer to no
string. -/
abbrev Strings := BitVec 32 → Option String

/-- `!strcmp(a, b)`. -/
def strcmp (mem : Strings) (a b : BitVec 32) : Option Bool := do
  let x ← mem a
  let y ← mem b
  some (x == y)

/-- `sizeof(DirectoryEntry)`. -/
def EntrySize : Nat := 16

/-- `class Directory`. -/
structure Directory where
  tableSize : Nat
  table : Bytes

namespace Directory

/-! ## Entries -/

/-- `table[i].inUse`. -/
def inUse (table : Bytes) (i : Nat) : Bool := table (EntrySize * i) != 0

/-- `table[i].sector`. -/
def sector (table : Bytes) (i : Nat) : BitVec 32 := table.word (EntrySize * i + 4)

/-- `table[i].name`. -/
def name (table : Bytes) (i : Nat) : BitVec 32 := table.word (EntrySize * i + 12)

/-- The four assignments of `Add` to the entry `i`.  The type is `'F'`. -/
def setEntry (table : Bytes) (i : Nat) (name newSector : BitVec 32) : Bytes :=
  let table : Bytes := update table (EntrySize * i) 1
  let table : Bytes := update table (EntrySize * i + 8) 70
  let table : Bytes := table.store (EntrySize * i + 12) name 4
  table.store (EntrySize * i + 4) newSector 4

/-! ## Operations -/

/-- `Directory::Directory`. -/
def new (size : Nat) (junk : Bytes) : Directory where
  tableSize := size
  table := (List.range size).foldl (fun table i => update table (EntrySize * i) 0) junk

/-- `Directory::FetchFrom`. -/
def fetchFrom (dir : Directory) (d : Disk) (junk : Bytes) (file : OpenFile) : Option Directory :=
  (readAt d file.hdr junk ⟨dir.tableSize * EntrySize, dir.table⟩ 0 (dir.tableSize * EntrySize)
    0).map fun r => { dir with table := r.2.get }

/-- `Directory::WriteBack`. -/
def writeBack (dir : Directory) (d : Disk) (junk : Bytes) (file : OpenFile) : Option Disk :=
  (writeAt d file.hdr junk ⟨dir.tableSize * EntrySize, dir.table⟩ (dir.tableSize * EntrySize)
    0).map Prod.snd

/-- The loop of `FindIndex` over the indices. -/
def findIndexIn (table : Bytes) (mem : Strings) (key : BitVec 32) : List Nat → Option Int
  | [] => some (-1)
  | i :: is =>
      if inUse table i then do
        let same ← strcmp mem (name table i) key
        if same then some i else findIndexIn table mem key is
      else findIndexIn table mem key is

/-- `Directory::FindIndex`. -/
def findIndex (dir : Directory) (mem : Strings) (key : BitVec 32) : Option Int :=
  findIndexIn dir.table mem key (List.range dir.tableSize)

/-- `Directory::Find`. -/
def find (dir : Directory) (mem : Strings) (key : BitVec 32) : Option Int := do
  let i ← dir.findIndex mem key
  if i ≠ -1 then some (sector dir.table i.toNat).toInt else some (-1)

/-- `Directory::Add`.  The inner `none` is the return of `FALSE`. -/
def add (dir : Directory) (mem : Strings) (key newSector : BitVec 32) :
    Option (Option Directory) := do
  let i ← dir.findIndex mem key
  if i ≠ -1 then some none
  else
    match (List.range dir.tableSize).find? fun i => !inUse dir.table i with
    | some i => some (some { dir with table := setEntry dir.table i key newSector })
    | none => some none

/-- `Directory::Remove`.  The inner `none` is the return of `FALSE`. -/
def remove (dir : Directory) (mem : Strings) (key : BitVec 32) : Option (Option Directory) := do
  let i ← dir.findIndex mem key
  if i = -1 then some none
  else some (some { dir with table := update dir.table (EntrySize * i.toNat) 0 })

/-! ## What the operations do -/

variable {table table' : Bytes} {i j n : Nat}

/-- Two tables with the same bytes have the same entries. -/
theorem entry_congr (h : ∀ x, x < n * EntrySize → table' x = table x) (hi : i < n) :
    inUse table' i = inUse table i ∧ sector table' i = sector table i ∧
      name table' i = name table i := by
  have hin : EntrySize * i + 16 ≤ n * EntrySize := by
    simp only [EntrySize]
    omega
  refine ⟨?_, Bytes.word_congr fun j hj => h _ (by omega), Bytes.word_congr fun j hj => h _ (by omega)⟩
  rw [inUse, inUse, h _ (by omega)]

theorem setEntry_apply (table : Bytes) (i : Nat) (key newSector : BitVec 32) (x : Nat) :
    setEntry table i key newSector x =
      if EntrySize * i + 4 ≤ x ∧ x < EntrySize * i + 8 then
        newSector.extractLsb' (8 * (x - (EntrySize * i + 4))) 8
      else if EntrySize * i + 12 ≤ x ∧ x < EntrySize * i + 16 then
        key.extractLsb' (8 * (x - (EntrySize * i + 12))) 8
      else if x = EntrySize * i + 8 then 70
      else if x = EntrySize * i then 1
      else table x := by
  simp only [setEntry, Bytes.store_apply, update_apply]

/-- The new entry. -/
theorem setEntry_self (table : Bytes) (i : Nat) (key newSector : BitVec 32) :
    inUse (setEntry table i key newSector) i = true ∧
      sector (setEntry table i key newSector) i = newSector ∧
      name (setEntry table i key newSector) i = key := by
  refine ⟨?_, Bytes.word_of_bytes fun j hj => ?_, Bytes.word_of_bytes fun j hj => ?_⟩
  · rw [inUse, setEntry_apply, if_neg (by omega), if_neg (by omega), if_neg (by omega),
      if_pos rfl]
    rfl
  · rw [setEntry_apply, if_pos (by omega)]
    congr 2
    omega
  · rw [setEntry_apply, if_neg (by omega), if_pos (by omega)]
    congr 2
    omega

/-- The other entries. -/
theorem setEntry_of_ne (table : Bytes) (key newSector : BitVec 32) (hne : j ≠ i) :
    inUse (setEntry table i key newSector) j = inUse table j ∧
      sector (setEntry table i key newSector) j = sector table j ∧
      name (setEntry table i key newSector) j = name table j := by
  have hapart : EntrySize * j + 16 ≤ EntrySize * i ∨ EntrySize * i + 16 ≤ EntrySize * j := by
    simp only [EntrySize]
    omega
  have hsame : ∀ x, EntrySize * j ≤ x → x < EntrySize * j + 16 →
      setEntry table i key newSector x = table x := by
    intro x hlo hhi
    rw [setEntry_apply, if_neg (by omega), if_neg (by omega), if_neg (by omega),
      if_neg (by omega)]
  refine ⟨?_, Bytes.word_congr fun k hk => hsame _ (by omega) (by omega),
    Bytes.word_congr fun k hk => hsame _ (by omega) (by omega)⟩
  rw [inUse, inUse, hsame _ (by omega) (by omega)]

theorem foldl_clear_apply (is : List Nat) (table : Bytes) (x : Nat) :
    is.foldl (fun table i => update table (EntrySize * i) (0 : Byte)) table x =
      if ∃ i ∈ is, x = EntrySize * i then 0 else table x := by
  induction is generalizing table with
  | nil => simp
  | cons k is ih =>
    rw [List.foldl_cons, ih, update_apply]
    by_cases hk : x = EntrySize * k <;> simp [hk]

@[simp] theorem tableSize_new (size : Nat) (junk : Bytes) : (new size junk).tableSize = size := rfl

/-- No entry of a new table is in use. -/
theorem inUse_new (junk : Bytes) (hi : i < n) : inUse (new n junk).table i = false := by
  have hzero : (new n junk).table (EntrySize * i) = 0 := by
    show (List.range n).foldl _ junk (EntrySize * i) = 0
    rw [foldl_clear_apply, if_pos ⟨i, List.mem_range.mpr hi, rfl⟩]
  rw [inUse, hzero]
  rfl

/-! ## The table on disk -/

section OnDisk

variable {L : Layout} {d : Disk} {file : OpenFile}

/-- `FetchFrom` reads the bytes of the file. -/
theorem fetchFrom_spec (dir : Directory) (hd : L.OnDisk d) (hh : L.Heads file.hdr)
    (hlen : dir.tableSize * EntrySize ≤ L.length) (junk : Bytes) :
    ∃ dir', dir.fetchFrom d junk file = some dir' ∧ dir'.tableSize = dir.tableSize ∧
      ∀ x, x < dir.tableSize * EntrySize → dir'.table x = L.byte d x := by
  obtain ⟨into, hread, hget⟩ := Layout.readAt_start hd hh hlen junk
    ⟨dir.tableSize * EntrySize, dir.table⟩ le_rfl
  rw [Nat.cast_mul] at hread
  refine ⟨{ dir with table := into.get }, ?_, rfl, hget⟩
  rw [fetchFrom, hread, Option.map_some]

/-- `WriteBack` writes the bytes of the file. -/
theorem writeBack_spec (dir : Directory) (hd : L.OnDisk d) (hh : L.Heads file.hdr)
    (hlen : dir.tableSize * EntrySize ≤ L.length) (junk : Bytes) :
    ∃ d', dir.writeBack d junk file = some d' ∧ (∀ s, s ∉ L.data → d' s = d s) ∧
      ∀ x, x < dir.tableSize * EntrySize → L.byte d' x = dir.table x := by
  obtain ⟨d', hwrite, hsame, hbyte⟩ := Layout.writeAt_start hd hh hlen junk
    ⟨dir.tableSize * EntrySize, dir.table⟩ le_rfl
  rw [Nat.cast_mul] at hwrite
  refine ⟨d', ?_, hsame, hbyte⟩
  rw [writeBack, hwrite, Option.map_some]

end OnDisk

end Directory

end Nachos.Filesys

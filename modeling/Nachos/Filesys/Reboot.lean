import Nachos.Filesys.CreateFrame

/-!
# The directory in a later run

`WriteBack` writes the table of a directory as it is in memory, and an entry has a
pointer to its name.  The bytes come back with `FetchFrom` (`fetched_table`), but
the names are those that the later run has at the same addresses.

`directory_survives` says that the names and the results of `Find` are the same
exactly when the two runs have the same strings there, and that `Open` then finds a
file that was created in the first run.  `created_file_lost` is a file that is created
in one run and not found in the next.
-/

namespace Nachos.Filesys

open Function Lib Machine

namespace Directory

variable {table table' : Bytes} {mem mem' : Strings} {n : Nat} {dir dir' : Directory}
  {key key' : BitVec 32}

/-- The names of the entries in use. -/
def names (dir : Directory) (mem : Strings) : List (Option String) :=
  ((List.range dir.tableSize).filter (inUse dir.table)).map fun i => mem (name dir.table i)

/-- The two memories have the same names for the entries in use. -/
def SameNames (table : Bytes) (n : Nat) (mem mem' : Strings) : Prop :=
  ∀ i, i < n → inUse table i = true → mem' (name table i) = mem (name table i)

/-- The loop of `FindIndex` in two runs. -/
theorem findIndexIn_congr {is : List Nat}
    (hentry : ∀ i ∈ is, inUse table' i = inUse table i ∧ name table' i = name table i)
    (hmem : ∀ i ∈ is, inUse table i = true → mem' (name table i) = mem (name table i))
    (hkey : mem' key' = mem key) :
    findIndexIn table' mem' key' is = findIndexIn table mem key is := by
  induction is with
  | nil => rfl
  | cons i is ih =>
    obtain ⟨huse, hname⟩ := hentry i List.mem_cons_self
    have hrest := ih (fun j hj => hentry j (List.mem_cons_of_mem i hj))
      fun j hj => hmem j (List.mem_cons_of_mem i hj)
    rw [findIndexIn, findIndexIn, huse, hname, hrest]
    by_cases hi : inUse table i = true
    · have hsame : strcmp mem' (name table i) key' = strcmp mem (name table i) key := by
        unfold strcmp
        rw [hmem i List.mem_cons_self hi, hkey]
      rw [if_pos hi, if_pos hi, hsame]
    · rw [if_neg hi, if_neg hi]

theorem findIndex_congr (hsize : dir'.tableSize = dir.tableSize)
    (hbyte : ∀ x, x < dir.tableSize * EntrySize → dir'.table x = dir.table x)
    (hmem : SameNames dir.table dir.tableSize mem mem') (hkey : mem' key' = mem key) :
    dir'.findIndex mem' key' = dir.findIndex mem key := by
  unfold findIndex
  rw [hsize]
  apply findIndexIn_congr
  · intro i hi
    obtain ⟨huse, -, hname⟩ := entry_congr hbyte (List.mem_range.mp hi)
    exact ⟨huse, hname⟩
  · intro i hi
    exact hmem i (List.mem_range.mp hi)
  · exact hkey

/-- Two tables with the same bytes, in memories with the same names. -/
theorem find_congr (hsize : dir'.tableSize = dir.tableSize)
    (hbyte : ∀ x, x < dir.tableSize * EntrySize → dir'.table x = dir.table x)
    (hmem : SameNames dir.table dir.tableSize mem mem') (hkey : mem' key' = mem key) :
    dir'.find mem' key' = dir.find mem key := by
  simp only [find, findIndex_congr hsize hbyte hmem hkey, Option.bind_eq_bind]
  cases hk : dir.findIndex mem key with
  | none => rw [Option.bind_none, Option.bind_none]
  | some k =>
    simp only [Option.bind_some]
    rcases findIndexIn_cases hk with hneg | ⟨i, hki, hi, -⟩
    · simp only [hneg, ne_eq, not_true_eq_false, if_false]
    · rw [hki, Int.toNat_natCast, (entry_congr hbyte (List.mem_range.mp hi)).2.1]

/-- The later run looks up the pointers of the first one. -/
theorem names_table (hsize : dir'.tableSize = dir.tableSize)
    (hbyte : ∀ x, x < dir.tableSize * EntrySize → dir'.table x = dir.table x) :
    dir'.names mem' =
      ((List.range dir.tableSize).filter (inUse dir.table)).map
        fun i => mem' (name dir.table i) := by
  have huse : (List.range dir.tableSize).filter (inUse dir'.table) =
      (List.range dir.tableSize).filter (inUse dir.table) :=
    List.filter_congr fun i hi => (entry_congr hbyte (List.mem_range.mp hi)).1
  rw [names, hsize, huse]
  refine List.map_congr_left fun i hi => ?_
  rw [(entry_congr hbyte (List.mem_range.mp (List.mem_of_mem_filter hi))).2.2]

theorem names_congr (hsize : dir'.tableSize = dir.tableSize)
    (hbyte : ∀ x, x < dir.tableSize * EntrySize → dir'.table x = dir.table x)
    (hmem : SameNames dir.table dir.tableSize mem mem') : dir'.names mem' = dir.names mem := by
  rw [names_table hsize hbyte]
  refine List.map_congr_left fun i hi => ?_
  obtain ⟨hrange, huse⟩ := List.mem_filter.mp hi
  exact hmem i (List.mem_range.mp hrange) huse

/-- The table that a later run reads. -/
theorem fetched_table {L : Layout} {d : Disk} {file : OpenFile} (dir : Directory) (hd : L.OnDisk d)
    (hh : L.Heads file.hdr) (hlen : dir.tableSize * EntrySize ≤ L.length)
    (junk junk' memory : Bytes) :
    ∃ d' file' dir', dir.writeBack d junk file = some d' ∧
      OpenFile.openAt d' L.header = some file' ∧
      (Directory.new dir.tableSize memory).fetchFrom d' junk' file' = some dir' ∧
      dir'.tableSize = dir.tableSize ∧
      ∀ x, x < dir.tableSize * EntrySize → dir'.table x = dir.table x := by
  obtain ⟨d', hwrite, hsame, hbyte⟩ := writeBack_spec dir hd hh hlen junk
  have hd' : L.OnDisk d' := hd.congr fun s hs => hsame s (Layout.header_not_data hs)
  have hopen : OpenFile.openAt d' L.header = some ⟨.decode (d' L.header), L.header, 0⟩ := by
    rw [OpenFile.openAt, FileHeader.fetchFrom, readSector_of_lt d' (Layout.header_lt L.header_mem)]
    rfl
  have hheads : L.Heads (⟨.decode (d' L.header), L.header, 0⟩ : OpenFile).hdr := hd'.head
  obtain ⟨dir', hfetch, hsize, hget⟩ := fetchFrom_spec (Directory.new dir.tableSize memory) hd'
    hheads hlen junk'
  exact ⟨d', _, dir', hwrite, hopen, hfetch, hsize, fun x hx => (hget x hx).trans (hbyte x hx)⟩

theorem names_inj (hsize : dir'.tableSize = dir.tableSize)
    (hbyte : ∀ x, x < dir.tableSize * EntrySize → dir'.table x = dir.table x)
    (hnames : dir'.names mem' = dir.names mem) : SameNames dir.table dir.tableSize mem mem' := by
  rw [names_table hsize hbyte] at hnames
  intro i hi huse
  exact List.map_inj_left.mp hnames i (List.mem_filter.mpr ⟨List.mem_range.mpr hi, huse⟩)

/-- The loop of `FindIndex` after an `Add`. -/
theorem findIndexIn_setEntry {key sector : BitVec 32} {s : String} {i : Nat} {is : List Nat}
    (hkey : mem key = some s) (hindex : findIndexIn table mem key is = some (-1))
    (hslot : is.find? (fun i => !inUse table i) = some i) :
    findIndexIn (setEntry table i key sector) mem key is = some (i : Int) := by
  induction is with
  | nil => cases hslot
  | cons j is ih =>
    rw [findIndexIn] at hindex ⊢
    cases hj : inUse table j with
    | false =>
      rw [List.find?_cons_of_pos (by rw [hj]; rfl)] at hslot
      cases hslot
      obtain ⟨huse, -, hname⟩ := setEntry_self table i key sector
      simp [huse, hname, strcmp, hkey]
    | true =>
      rw [List.find?_cons_of_neg (by rw [hj]; simp)] at hslot
      have hne : j ≠ i := by
        rintro rfl
        simpa [hj] using List.find?_some hslot
      obtain ⟨huse, -, hname⟩ := setEntry_of_ne table key sector hne
      rw [hj, if_pos rfl] at hindex
      rw [huse, hj, if_pos rfl, hname]
      simp only [Option.bind_eq_bind, Option.bind_eq_some_iff] at hindex ⊢
      obtain ⟨same, hsame, hrest⟩ := hindex
      cases same with
      | true => cases hrest
      | false => exact ⟨false, hsame, ih hrest hslot⟩

/-- `Find` after an `Add`. -/
theorem find_setEntry {dir : Directory} {key : BitVec 32} {s : String} {i : Nat}
    (sector : BitVec 32) (hkey : mem key = some s) (hindex : dir.findIndex mem key = some (-1))
    (hslot : (List.range dir.tableSize).find? (fun i => !inUse dir.table i) = some i) :
    find { dir with table := setEntry dir.table i key sector } mem key = some sector.toInt := by
  have hfound : findIndex { dir with table := setEntry dir.table i key sector } mem key =
      some (i : Int) := findIndexIn_setEntry hkey hindex hslot
  have hne : (i : Int) ≠ -1 := by omega
  simp only [find, hfound, Option.bind_eq_bind, Option.bind_some, if_pos hne, Int.toNat_natCast]
  rw [(setEntry_self dir.table i key sector).2.1]

end Directory

/-! ## The next run -/

namespace Volume

variable {v : Volume} {d : Disk}

/-- A later run opens the directory. -/
theorem mount_spec (hd : v.directory.OnDisk d) : ∃ fs, FileSystem.mount d = some fs ∧
    v.directory.OnDisk fs.disk ∧ v.directory.Heads fs.directoryFile.hdr ∧ fs.disk = d := by
  have hopen : ∀ s : Nat, s < NumSectors →
      OpenFile.openAt d s = some ⟨.decode (d s), s, 0⟩ := by
    intro s hs
    rw [OpenFile.openAt, FileHeader.fetchFrom, readSector_of_lt d hs]
    rfl
  have hhead := hd.head
  have hsector : v.directory.header = DirectorySector := by
    simp [Layout.header, v.directory_headers]
  rw [hsector] at hhead
  refine ⟨⟨d, ⟨.decode (d FreeMapSector), FreeMapSector, 0⟩,
    ⟨.decode (d DirectorySector), DirectorySector, 0⟩, []⟩, ?_, hd, hhead, rfl⟩
  simp only [FileSystem.mount, hopen FreeMapSector (by decide), hopen DirectorySector (by decide),
    hopen PipeSector (by decide), Option.bind_eq_bind, Option.bind_some]

end Volume

/-- `Open` of a name that the directory has. -/
theorem FileSystem.openFile_of_found {fs : FileSystem} {mem : Strings} {f : Fresh}
    {name : BitVec 32} {dir : Directory} {q : Nat} (hfetch : fs.fetchDirectory f = some dir)
    (hfind : dir.find mem name = some (q : Int)) (hq : q < NumSectors) :
    fs.openFile mem f name = some (true,
      { fs with handles := fs.handles ++ [⟨.decode (fs.disk q), q, 0⟩] }) := by
  simp only [FileSystem.openFile, hfetch, hfind, Option.bind_eq_bind, Option.bind_some]
  rw [if_pos (Int.natCast_nonneg q), OpenFile.openAt, FileHeader.fetchFrom, readSector_of_lt _ hq]
  rfl

/-- A file that has been created is found in the next run. -/
theorem Volume.openFile_created {v : Volume} {fs fs1 : FileSystem} {f f1 f2 : Fresh}
    {mem mem' : Strings} {name key : BitVec 32} {s : String} {size : Nat} {dir1 : Directory}
    (hv : v.Mounted fs) (hdirect : dataSectors size ≠ NumDirect) (hname : mem name = some s)
    (hcreate : fs.create mem f name size = some (true, fs1))
    (hfetch1 : fs1.fetchDirectory f1 = some dir1)
    (hmem : Directory.SameNames dir1.table dir1.tableSize mem mem') (hkey : mem' key = mem name) :
    ∃ fs2 fs3, FileSystem.mount fs1.disk = some fs2 ∧
      fs2.openFile mem' f2 key = some (true, fs3) := by
  obtain ⟨hframe, hfile, dir', _, q, hp, hq, hbyte⟩ := create_of_ne hv hdirect hcreate
  obtain ⟨dir, hfetch, -, hadd⟩ := hp.directory
  obtain ⟨hindex, i, hslot, rfl⟩ := (add_eq_some _).mp hadd
  have hd1 := (hframe.headers .directory _ rfl).1
  -- the directory before `Create`, at its end, and in the next run
  obtain ⟨dir', hfetch', hsize, -⟩ := fetchDirectory_spec hv f
  obtain rfl := Option.some.inj (hfetch.symm.trans hfetch')
  have hh1 : v.directory.Heads fs1.directoryFile.hdr := by
    rw [hfile]
    exact hv.directoryFile
  obtain ⟨dir1', hfetch1', hsize1, hbyte1⟩ := fetchDirectory_of_heads hd1 hh1 f1
  obtain rfl := Option.some.inj (hfetch1.symm.trans hfetch1')
  obtain ⟨fs2, hmount, hd2, hh2, hdisk⟩ := mount_spec hd1
  obtain ⟨dir2, hfetch2, hsize2, hbyte2⟩ := fetchDirectory_of_heads hd2 hh2 f2
  have hlen : NumDirEntries * EntrySize = DirectoryFileSize := Nat.mul_comm _ _
  have hfind1 : dir1.find mem name = some (q : Int) := by
    have hadded := Directory.find_setEntry (BitVec.ofInt 32 q) hname hindex hslot
    rw [Building.toInt_ofInt_sector hq] at hadded
    rw [← hadded]
    refine Directory.find_congr (hsize1.trans hsize.symm) (fun x hx => ?_) (fun _ _ _ => rfl) rfl
    rw [hsize, hlen] at hx
    exact (hbyte1 x hx).trans (hbyte x hx)
  have hfind2 : dir2.find mem' key = some (q : Int) := by
    refine (Directory.find_congr (hsize2.trans hsize1.symm) (fun x hx => ?_) hmem hkey).trans hfind1
    rw [hsize1, hlen] at hx
    rw [hbyte2 x hx, hbyte1 x hx, hdisk]
  exact ⟨fs2, _, hmount, FileSystem.openFile_of_found hfetch2 hfind2 hq⟩

/-- The strings of a run. -/
def firstRun : Strings := fun _ => some "a"

namespace Directory

/-- The later run has the names and the results of `Find` of the first one. -/
def Kept (dir dir' : Directory) (mem mem' : Strings) : Prop :=
  dir'.names mem' = dir.names mem ∧
    ∀ key key', mem' key' = mem key → dir'.find mem' key' = dir.find mem key

/-- A later run finds the same files exactly when it has the same strings at the
addresses of the names.  A file that the first run has created is then found by
`Open`. -/
theorem directory_survives {L : Layout} {d : Disk} (file : OpenFile) (dir : Directory)
    (hd : L.OnDisk d) (hh : L.Heads file.hdr) (hlen : dir.tableSize * EntrySize ≤ L.length)
    (junk junk' memory : Bytes) (mem mem' : Strings) :
    (∃ d' file' dir', dir.writeBack d junk file = some d' ∧
      OpenFile.openAt d' L.header = some file' ∧
      (Directory.new dir.tableSize memory).fetchFrom d' junk' file' = some dir' ∧
      (Kept dir dir' mem mem' ↔ SameNames dir.table dir.tableSize mem mem')) ∧
    ∀ (v : Volume) (fs fs1 : FileSystem) (f f1 f2 : Fresh) (name key : BitVec 32) (s : String)
      (size : Nat) (dir1 : Directory), v.Mounted fs → dataSectors size ≠ NumDirect →
      mem name = some s → fs.create mem f name size = some (true, fs1) →
      fs1.fetchDirectory f1 = some dir1 → SameNames dir1.table dir1.tableSize mem mem' →
      mem' key = mem name →
      ∃ fs2 fs3, FileSystem.mount fs1.disk = some fs2 ∧
        fs2.openFile mem' f2 key = some (true, fs3) := by
  obtain ⟨d', file', dir', hwrite, hopen, hfetch, hsize, hbyte⟩ :=
    fetched_table dir hd hh hlen junk junk' memory
  refine ⟨⟨d', file', dir', hwrite, hopen, hfetch, fun h => names_inj hsize hbyte h.1,
    fun hmem => ⟨names_congr hsize hbyte hmem, fun key key' => find_congr hsize hbyte hmem⟩⟩, ?_⟩
  intro v fs fs1 f f1 f2 name key s size dir1 hv hdirect hname hcreate hfetch hmem hkey
  exact Volume.openFile_created hv hdirect hname hcreate hfetch hmem hkey

/-- A table with one entry, for a file with its header in sector 5. -/
def oneEntry : Directory := ⟨1, setEntry (fun _ => 0) 0 1 5⟩

/-- Both runs have the name of the entry, and the name of a file that is created. -/
theorem directory_survives_one_entry :
    (∃ d' file' dir',
      oneEntry.writeBack twoFiles (fun _ => 7) ⟨plainHeader longFile, 0, 0⟩ = some d' ∧
        OpenFile.openAt d' 0 = some file' ∧
        (Directory.new 1 fun _ => 9).fetchFrom d' (fun _ => 8) file' = some dir' ∧
        dir'.names firstRun = [some "a"] ∧ dir'.find firstRun 2 = some 5) ∧
    ∃ fs0 fs1 fs2 fs3, FileSystem.format (fun _ _ => 0) zeroFresh zeroFresh zeroFresh = some fs0 ∧
      fs0.create firstRun zeroFresh 1 100 = some (true, fs1) ∧
      FileSystem.mount fs1.disk = some fs2 ∧
      fs2.openFile firstRun zeroFresh 2 = some (true, fs3) := by
  have hheads : longFile.Heads (plainHeader longFile) :=
    FileHeader.decode_encode (plainHeader longFile) ▸ onDisk_longFile.head
  obtain ⟨⟨d', file', dir', hwrite, hopen, hfetch, hkept⟩, hfound⟩ := directory_survives
    ⟨plainHeader longFile, 0, 0⟩ oneEntry onDisk_longFile hheads (by decide) (fun _ => 7)
    (fun _ => 8) (fun _ => 9) firstRun firstRun
  obtain ⟨hnames, hfind⟩ := hkept.mpr fun _ _ _ => rfl
  refine ⟨⟨d', file', dir', hwrite, hopen, hfetch, hnames.trans ?_, (hfind 2 2 rfl).trans ?_⟩, ?_⟩
  · decide +kernel
  · decide +kernel
  · obtain ⟨fs0, fs1, v0, v, _, _, hformat, hv0, -, hcreate, hv, -⟩ :=
      exists_created firstRun 1 100 (by decide) (by decide)
    obtain ⟨dir1, hfetch1, -⟩ := Volume.fetchDirectory_spec hv zeroFresh
    obtain ⟨fs2, fs3, hmount, hopen'⟩ := hfound v0 fs0 fs1 zeroFresh zeroFresh zeroFresh 1 2 "a" 100
      dir1 hv0 (by decide) rfl hcreate hfetch1 (fun _ _ _ => rfl) rfl
    exact ⟨fs0, fs1, fs2, fs3, hformat, hcreate, hmount, hopen'⟩

end Directory

/-! ## A file that is lost -/

namespace Volume

variable {v : Volume}

/-- `Open` in a file system whose directory has one entry. -/
theorem openFile_of_entry {fs : FileSystem} {table : Bytes} {ptr sector : BitVec 32}
    (hd : v.directory.OnDisk fs.disk) (hh : v.directory.Heads fs.directoryFile.hdr)
    (hbyte : ∀ x, x < DirectoryFileSize →
      v.directory.byte fs.disk x = Directory.setEntry table 0 ptr sector x)
    (hunused : ∀ i, i < NumDirEntries → Directory.inUse table i = false) (mem : Strings) (f : Fresh)
    (key : BitVec 32) {same : Bool} (hcmp : strcmp mem ptr key = some same) :
    ∃ dir, fs.fetchDirectory f = some dir ∧
      dir.find mem key = some (if same then sector.toInt else -1) := by
  obtain ⟨dir, hfetch, hsize, htable⟩ := fetchDirectory_of_heads hd hh f
  have hdir : ∀ x, x < DirectoryFileSize →
      dir.table x = Directory.setEntry table 0 ptr sector x := by
    intro x hx
    rw [htable x hx, hbyte x hx]
  obtain ⟨huse, hsector, hname⟩ := Directory.entry_congr (n := NumDirEntries) (i := 0) hdir
    (by decide)
  obtain ⟨huse', hsector', hname'⟩ := Directory.setEntry_self table 0 ptr sector
  have hrest : ∀ i ∈ (List.range 9).map Nat.succ, Directory.inUse dir.table i = false := by
    intro i hi
    obtain ⟨j, hj, rfl⟩ := List.mem_map.mp hi
    have hlt : j + 1 < NumDirEntries := Nat.succ_lt_succ (List.mem_range.mp hj)
    rw [(Directory.entry_congr hdir hlt).1,
      (Directory.setEntry_of_ne table ptr sector (Nat.succ_ne_zero j)).1]
    exact hunused _ hlt
  have hindex : dir.findIndex mem key = some (if same then 0 else -1) := by
    rw [Directory.findIndex, hsize, NumDirEntries, List.range_succ_eq_map, Directory.findIndexIn,
      if_pos (huse.trans huse'), hname, hname', hcmp, findIndexIn_unused hrest]
    cases same <;> rfl
  refine ⟨dir, hfetch, ?_⟩
  cases same with
  | true =>
    simp only [Directory.find, hindex, Option.bind_eq_bind, Option.bind_some, if_true]
    rw [if_pos (by decide), Int.toNat_zero, hsector, hsector']
  | false =>
    simp only [Directory.find, hindex, Option.bind_eq_bind, Option.bind_some]
    rfl

end Volume

/-- The strings of a later run.  The address of the name has something else. -/
def secondRun : Strings := fun p => if p = 1 then some "b" else some "a"

/-- The file "a" is created and can be opened.  After a new start from the same
disk it is not found. -/
theorem created_file_lost :
    ∃ fs0 fs1 fs2 fs3, FileSystem.format (fun _ _ => 0) zeroFresh zeroFresh zeroFresh = some fs0 ∧
      fs0.create firstRun zeroFresh 1 100 = some (true, fs1) ∧
      fs1.openFile firstRun zeroFresh 1 = some (true, fs2) ∧
      FileSystem.mount fs1.disk = some fs3 ∧
      fs3.openFile secondRun zeroFresh 2 = some (false, fs3) := by
  obtain ⟨fs0, fs1, -, v1, table, q, hformat, -, -, hcreate, hv1, hq, hbyte, hunused⟩ :=
    exists_created firstRun 1 100 (by decide) (by decide)
  have hd1 := hv1.onDisk.files .directory _ rfl
  obtain ⟨fs3, hmount, hd3, hh3, hdisk⟩ := Volume.mount_spec hd1
  obtain ⟨dir1, hfetch1, hfind1⟩ := Volume.openFile_of_entry hd1 hv1.directoryFile hbyte hunused
    firstRun zeroFresh 1 (show strcmp firstRun 1 1 = some true from rfl)
  rw [← hdisk] at hbyte
  obtain ⟨dir3, hfetch3, hfind3⟩ := Volume.openFile_of_entry hd3 hh3 hbyte hunused secondRun
    zeroFresh 2 (show strcmp secondRun 1 2 = some false by decide +kernel)
  rw [if_pos rfl, Building.toInt_ofInt_sector hq] at hfind1
  have hopen := FileSystem.openFile_of_found hfetch1 hfind1 hq
  refine ⟨fs0, fs1, _, fs3, hformat, hcreate, hopen, hmount, ?_⟩
  simp only [FileSystem.openFile, hfetch3, hfind3, Option.bind_eq_bind, Option.bind_some]
  rfl

end Nachos.Filesys

import Nachos.Filesys.FlatFile
import Nachos.Filesys.Volume

/-!
# A new file in the file system

`Mounted` says that the disk has a volume and that the open files belong to it.
Reading and writing keep the volume (`OnDisk.change`).  `Create` adds a file to it:
`commit_spec` says what the three writes at its end do, and `onDisk_addFile` that
the new disk has the new volume.

`Create` does this only when the free map has sectors for the further headers of
the file too, and when the file does not just fill its first header.  `Fits` is the
condition, and `create_keeps` is the result.
-/

namespace Nachos.Filesys

open Function Lib Machine Userprog

namespace Volume

variable {v : Volume} {d d' : Disk} {L M : Layout} {j k : FileId} {s : Nat}

/-! ## A change in one file -/

theorem not_mem_of_ne (hne : j ≠ k) (hL : v.file j = some L) (hM : v.file k = some M)
    (hs : s ∈ M.sectors) : s ∉ L.sectors :=
  fun h => disjoint hne hL hM h hs

/-- The bytes of a file are not changed through another one. -/
theorem byte_same (hne : j ≠ k) (hL : v.file k = some L) (hM : v.file j = some M)
    (hsame : ∀ s, s ∉ L.sectors → d' s = d s) {x : Nat} (hx : x < M.length) :
    M.byte d' x = M.byte d x := by
  refine Layout.byte_congr (fun s hs => hsame s ?_) (Layout.sector_of_lt hx)
  exact not_mem_of_ne hne.symm hL hM (List.mem_append_right _ hs)

/-- A change of a file that is not the free map and not the directory. -/
theorem OnDisk.change (hd : v.OnDisk d) (hmap : k ≠ .freeMap) (hdir : k ≠ .directory)
    (hL : v.file k = some L) (hLd : L.OnDisk d') (hsame : ∀ s, s ∉ L.sectors → d' s = d s) :
    v.OnDisk d' := by
  have hmapByte : ∀ x, x < FreeMapFileSize → v.freeMap.byte d' x = v.freeMap.byte d x := by
    intro x hx
    exact byte_same hmap.symm hL rfl hsame (by rwa [v.freeMap_length])
  have hdirByte : ∀ x, x < DirectoryFileSize → v.directory.byte d' x = v.directory.byte d x := by
    intro x hx
    exact byte_same hdir.symm hL rfl hsame (by rwa [v.directory_length])
  refine ⟨fun j M hM => ?_, fun s hs => ?_, fun i => ?_, fun i M hM => ?_⟩
  · by_cases hjk : j = k
    · subst hjk
      obtain rfl := Option.some.inj (hL.symm.trans hM)
      exact hLd
    · refine (hd.files j M hM).congr fun s hs => hsame s ?_
      exact not_mem_of_ne (Ne.symm hjk) hL hM (List.mem_append_left _ hs)
  · rw [BitMap.bitOf_congr hmapByte hs]
    exact hd.bits s hs
  · rw [(Directory.entry_congr hdirByte i.isLt).1]
    exact hd.inUse i
  · rw [(Directory.entry_congr hdirByte i.isLt).2.1]
    exact hd.sector i M hM

/-- The file system has the volume. -/
structure Mounted (v : Volume) (fs : FileSystem) : Prop where
  onDisk : v.OnDisk fs.disk
  freeMapFile : v.freeMap.Heads fs.freeMapFile.hdr
  directoryFile : v.directory.Heads fs.directoryFile.hdr
  handles : ∀ f ∈ fs.handles, InInt f.seekPosition ∧
    ∃ i L, v.entry i = some L ∧ L.Heads f.hdr ∧ f.hdrSector = L.header

end Volume

/-! ## Reading and writing -/

namespace Layout

variable {L : Layout} {d d' : Disk} {f f' : OpenFile} {time : BitVec 32} {junk : Bytes} {n r : Int}

/-- What a call through a handle does to a file, whatever the arguments. -/
structure Touched (L : Layout) (d d' : Disk) (f' : OpenFile) : Prop where
  onDisk : L.OnDisk d'
  same : ∀ s, s ∉ L.sectors → d' s = d s
  heads : L.Heads f'.hdr
  sector : f'.hdrSector = L.header
  range : InInt f'.seekPosition

theorem read_touched (hd : L.OnDisk d) (hh : L.Heads f.hdr) (hsec : f.hdrSector = L.header)
    {into into' : CharArray} (hr : f.read d time junk into n = some (r, into', f', d')) :
    L.Touched d d' f' := by
  simp only [OpenFile.read, Option.bind_eq_bind, Option.bind_eq_some_iff, hsec, writeBack_header,
    Option.some.injEq, Prod.mk.injEq] at hr
  obtain ⟨⟨result, into1⟩, -, d1, rfl, -, -, rfl, rfl⟩ := hr
  have hheads : L.Heads { f.hdr with lastAccessTime := time } := hh.touch time _
  refine ⟨hd.writeHeader hheads, fun s hs => update_of_ne ?_ _ _, hheads, rfl, inInt_i32 _⟩
  rintro rfl
  exact hs (List.mem_append_left _ L.header_mem)

theorem write_touched (hd : L.OnDisk d) (hh : L.Heads f.hdr) (hsec : f.hdrSector = L.header)
    (hn : InInt n) (hpos : InInt f.seekPosition) (hend : f.seekPosition + n ≠ 2 ^ 31)
    {source : CharArray} (hw : f.write d time junk source n = some (r, f', d')) :
    L.Touched d d' f' := by
  simp only [OpenFile.write, Option.bind_eq_bind, Option.bind_eq_some_iff, hsec, writeBack_header,
    Option.some.injEq, Prod.mk.injEq] at hw
  obtain ⟨⟨result, d1⟩, hw1, d2, rfl, -, rfl, rfl⟩ := hw
  have hsame := writeAt_frame hd hh hn hpos hend hw1
  have hd1 : L.OnDisk d1 := hd.congr fun s hs => hsame s (header_not_data hs)
  have hheads : L.Heads { f.hdr with lastAccessTime := time, lastWriteTime := time } :=
    hh.touch time time
  refine ⟨hd1.writeHeader hheads, fun s hs => ?_, hheads, rfl, inInt_i32 _⟩
  have hne : s ≠ L.header := by
    rintro rfl
    exact hs (List.mem_append_left _ L.header_mem)
  exact (update_of_ne hne _ _).trans (hsame s fun h => hs (List.mem_append_right _ h))

end Layout

/-! ## The directory and the free map in memory -/

/-- The number of clear bits in the free map on disk. -/
def clearBits (d : Disk) : Nat := (List.range NumSectors).countP fun s => !freeMapBit d s

namespace Volume

variable {v : Volume} {fs : FileSystem} {m : BitMap} {d : Disk} {q s : Nat}

/-- The directory that an operation fetches, if its header is right. -/
theorem fetchDirectory_of_heads (hd : v.directory.OnDisk fs.disk)
    (hh : v.directory.Heads fs.directoryFile.hdr) (f : Fresh) :
    ∃ dir, fs.fetchDirectory f = some dir ∧ dir.tableSize = NumDirEntries ∧
      ∀ x, x < DirectoryFileSize → dir.table x = v.directory.byte fs.disk x := by
  have hlen : (Directory.new NumDirEntries f.table).tableSize * EntrySize = DirectoryFileSize := by
    rw [Directory.tableSize_new, Nat.mul_comm]
    rfl
  have hspec := Directory.fetchFrom_spec (Directory.new NumDirEntries f.table) hd hh
    (by rw [hlen, v.directory_length]) f.buffer
  rwa [hlen] at hspec

theorem fetchDirectory_spec (hv : v.Mounted fs) (f : Fresh) :
    ∃ dir, fs.fetchDirectory f = some dir ∧ dir.tableSize = NumDirEntries ∧
      ∀ x, x < DirectoryFileSize → dir.table x = v.directory.byte fs.disk x :=
  fetchDirectory_of_heads (hv.onDisk.files .directory _ rfl) hv.directoryFile f

theorem numWords_new (junk : Nat → BitVec 32) :
    (BitMap.new NumSectors junk).numWords * 4 = FreeMapFileSize := by
  rw [BitMap.numWords, BitMap.numBits_new]
  rfl

theorem clearBits_eq (hd : v.OnDisk d) :
    clearBits d = (List.range NumSectors).countP fun s => !BitMap.bitOf (v.freeMap.byte d) s := by
  refine BitMap.countP_range_congr fun s hs => ?_
  rw [freeMapBit, BitMap.bitOf_congr (fun x hx => fileByte_freeMap hd hx) hs]

/-- The free map that an operation fetches. -/
theorem fetchFreeMap_spec (hv : v.Mounted fs) (f : Fresh) :
    ∃ m, fs.fetchFreeMap f = some m ∧ m.numBits = NumSectors ∧
      (∀ s, s < NumSectors → (m.testBit s = true ↔ v.Has s)) ∧ m.numClear = clearBits fs.disk := by
  obtain ⟨m, hfetch, hnum, hbits⟩ := BitMap.fetchFrom_spec (m := BitMap.new NumSectors f.words)
    (hv.onDisk.files .freeMap _ rfl) hv.freeMapFile
    (by rw [numWords_new, v.freeMap_length]) f.buffer
  rw [BitMap.numBits_new] at hnum hbits
  refine ⟨m, hfetch, hnum, fun s hs => ?_, ?_⟩
  · rw [hbits s hs]
    exact hv.onDisk.bits s hs
  · rw [BitMap.numClear, hnum, clearBits_eq hv.onDisk]
    exact BitMap.countP_range_congr fun s hs => congrArg _ (hbits s hs)

/-! ## The end of `Create` -/

theorem has_of_headers {s : Nat} (hs : s ∈ v.directory.headers ++ v.freeMap.headers) :
    v.Has s :=
  (List.mem_append.mp hs).elim (fun hs => ⟨.directory, _, rfl, List.mem_append_left _ hs⟩)
    fun hs => ⟨.freeMap, _, rfl, List.mem_append_left _ hs⟩

/-- The three writes: the header goes to its sector, and the data sectors of the
directory and of the free map get the copies in memory.  Only the headers of these
two files are needed. -/
theorem commit_spec (hv : v.Mounted fs) (hq : q < NumSectors) (hfree : ¬ v.Has q)
    (hsame : ∀ s ∈ v.directory.headers ++ v.freeMap.headers, d s = fs.disk s) (dir : Directory)
    (hdir : dir.tableSize = NumDirEntries) (hmap : m.numBits = NumSectors) (f : Fresh)
    (h : FileHeader) :
    ∃ d', fs.commit f h q dir m d = some { fs with disk := d' } ∧
      (∀ s, s ∉ v.directory.data → s ∉ v.freeMap.data → d' s = update d q h.encode s) ∧
      (∀ x, x < DirectoryFileSize → v.directory.byte d' x = dir.table x) ∧
      ∀ s, s < NumSectors → BitMap.bitOf (v.freeMap.byte d') s = m.testBit s := by
  have hold : ∀ {k L}, v.file k = some L → L.headers ⊆ v.directory.headers ++ v.freeMap.headers →
      L.OnDisk (update d q h.encode) := by
    intro k L hL hsub
    refine (hv.onDisk.files k L hL).congr fun s hs => ?_
    have hne : s ≠ q := by
      rintro rfl
      exact hfree ⟨k, L, hL, List.mem_append_left _ hs⟩
    rw [update_of_ne hne, hsame s (hsub hs)]
  have hdir0 : v.directory.OnDisk (update d q h.encode) :=
    hold (k := .directory) rfl (List.subset_append_left _ _)
  have hmap0 : v.freeMap.OnDisk (update d q h.encode) :=
    hold (k := .freeMap) rfl (List.subset_append_right _ _)
  have hlen : dir.tableSize * EntrySize = DirectoryFileSize := by
    rw [hdir, Nat.mul_comm]
    rfl
  have hwords : m.numWords * 4 = FreeMapFileSize := by
    rw [BitMap.numWords, hmap]
    rfl
  obtain ⟨d1, hwrite1, hsame1, hbyte1⟩ := Directory.writeBack_spec dir hdir0
    hv.directoryFile (by rw [hlen, v.directory_length]) f.buffer
  have hdisj : v.freeMap.sectors.Disjoint v.directory.sectors :=
    disjoint (v := v) (j := .freeMap) (k := .directory) (by decide) rfl rfl
  have hd1 : v.freeMap.OnDisk d1 := hmap0.congr fun s hs =>
    hsame1 s fun hs' => hdisj (List.mem_append_left _ hs) (List.mem_append_right _ hs')
  obtain ⟨d2, hwrite2, hsame2, hbit2⟩ := BitMap.writeBack_spec hd1 hv.freeMapFile
    (by rw [hwords, v.freeMap_length]) f.buffer
  refine ⟨d2, ?_, fun s hs hs' => ?_, fun x hx => ?_, fun s hs => ?_⟩
  · simp only [FileSystem.commit, FileHeader.writeBack, writeSector_of_lt d hq, hwrite1, hwrite2,
      Option.bind_eq_bind, Option.bind_some]
  · rw [hsame2 s hs', hsame1 s hs]
  · rw [← hbyte1 x (by rwa [hlen])]
    refine Layout.byte_congr (fun s hs => hsame2 s fun hs' => ?_)
      (Layout.sector_of_lt (by rwa [v.directory_length]))
    exact hdisj (List.mem_append_right _ hs') (List.mem_append_right _ hs)
  · exact hbit2 s (by rwa [hmap])

/-! ## A new file -/

theorem placeOf_update (freeMap directory pipe : Layout) (entry : Fin NumDirEntries → Option Layout)
    (i : Fin NumDirEntries) (L : Layout) (k : FileId) :
    placeOf freeMap directory pipe (update entry i (some L)) k =
      if k = .entry i then some L else placeOf freeMap directory pipe entry k := by
  cases k with
  | freeMap => rfl
  | directory => rfl
  | pipe => rfl
  | entry j =>
    by_cases hj : j = i <;> simp [placeOf, hj]

/-- The volume with one more file. -/
def addFile (v : Volume) (i : Fin NumDirEntries) (L : Layout) (hnew : ∀ s ∈ L.sectors, ¬ v.Has s) :
    Volume :=
  { v with
    entry := update v.entry i (some L)
    apart := by
      intro j k A B hne hA hB
      rw [placeOf_update] at hA hB
      split at hA
      · obtain rfl := Option.some.inj hA
        rw [if_neg (fun hk => hne (by rw [‹j = _›, hk]))] at hB
        exact fun s hs hs' => hnew s hs ⟨k, B, hB, hs'⟩
      · split at hB
        · obtain rfl := Option.some.inj hB
          exact fun s hs hs' => hnew s hs' ⟨j, A, hA, hs⟩
        · exact v.apart j k A B hne hA hB }

section AddFile

variable {i : Fin NumDirEntries} {L M : Layout} {hnew : ∀ s ∈ L.sectors, ¬ v.Has s} {k : FileId}

theorem file_addFile :
    (v.addFile i L hnew).file k = if k = .entry i then some L else v.file k :=
  placeOf_update _ _ _ _ i L k

theorem has_addFile (hnone : v.entry i = none) :
    (v.addFile i L hnew).Has s ↔ v.Has s ∨ s ∈ L.sectors := by
  constructor
  · rintro ⟨k, M, hM, hs⟩
    rw [file_addFile] at hM
    split at hM
    · obtain rfl := Option.some.inj hM
      exact .inr hs
    · exact .inl ⟨k, M, hM, hs⟩
  · rintro (⟨k, M, hM, hs⟩ | hs)
    · have hk : k ≠ .entry i := by
        rintro rfl
        have hM' : v.entry i = some M := hM
        rw [hnone] at hM'
        cases hM'
      exact ⟨k, M, by rw [file_addFile, if_neg hk]; exact hM, hs⟩
    · exact ⟨.entry i, L, by rw [file_addFile, if_pos rfl], hs⟩

/-- The headers of a file are not written with the directory and the free map. -/
theorem header_not_meta (hM : v.file k = some M) (hs : s ∈ M.headers) :
    s ∉ v.directory.data ∧ s ∉ v.freeMap.data := by
  have hnot : ∀ j N, v.file j = some N → s ∉ N.data := by
    intro j N hN hs'
    by_cases hjk : j = k
    · subst hjk
      obtain rfl := Option.some.inj (hN.symm.trans hM)
      exact Layout.header_not_data hs hs'
    · exact disjoint hjk hN hM (List.mem_append_right _ hs') (List.mem_append_left _ hs)
  exact ⟨hnot .directory _ rfl, hnot .freeMap _ rfl⟩

/-- The disk after `Create` has the volume with the new file. -/
theorem onDisk_addFile {d' : Disk} {table : Bytes} {key sector : BitVec 32} (hd : v.OnDisk d)
    (hnone : v.entry i = none) (hLd : L.OnDisk d') (hsector : sector.toInt = L.header)
    (hsame : ∀ s, v.Has s → s ∉ v.directory.data → s ∉ v.freeMap.data → d' s = d s)
    (htable : ∀ x, x < DirectoryFileSize → table x = v.directory.byte d x)
    (hdir : ∀ x, x < DirectoryFileSize →
      v.directory.byte d' x = Directory.setEntry table i key sector x)
    (hbits : ∀ s, s < NumSectors →
      (BitMap.bitOf (v.freeMap.byte d') s = true ↔ v.Has s ∨ s ∈ L.sectors)) :
    (v.addFile i L hnew).OnDisk d' where
  files k M hM := by
    rw [file_addFile] at hM
    split at hM
    · obtain rfl := Option.some.inj hM
      exact hLd
    · refine (hd.files k M hM).congr fun s hs => ?_
      obtain ⟨hs1, hs2⟩ := header_not_meta hM hs
      exact hsame s ⟨k, M, hM, List.mem_append_left _ hs⟩ hs1 hs2
  bits s hs := by
    rw [has_addFile hnone]
    exact hbits s hs
  inUse j := by
    have hnew := (Directory.entry_congr hdir j.isLt).1
    have hold := (Directory.entry_congr htable j.isLt).1
    show Directory.inUse (v.directory.byte d') j = (update v.entry i (some L) j).isSome
    rw [hnew]
    by_cases hj : j = i
    · rw [hj, (Directory.setEntry_self table i key sector).1, update_self]
      rfl
    · rw [(Directory.setEntry_of_ne table key sector (Fin.val_ne_of_ne hj)).1, hold,
        update_of_ne hj]
      exact hd.inUse j
  sector j M hM := by
    have hnew := (Directory.entry_congr hdir j.isLt).2.1
    have hold := (Directory.entry_congr htable j.isLt).2.1
    have hM' : update v.entry i (some L) j = some M := hM
    show (Directory.sector (v.directory.byte d') j).toInt = M.header
    rw [hnew]
    by_cases hj : j = i
    · rw [hj, update_self] at hM'
      obtain rfl := Option.some.inj hM'
      rw [hj, (Directory.setEntry_self table i key sector).2.1, hsector]
    · rw [update_of_ne hj] at hM'
      rw [(Directory.setEntry_of_ne table key sector (Fin.val_ne_of_ne hj)).2.1, hold]
      exact hd.sector j M hM'

end AddFile

end Volume

/-! ## `Create` -/

/-- The number of data sectors of a file. -/
def dataSectors (size : Nat) : Nat := (size + (SectorSize - 1)) / SectorSize

/-- The number of sectors that a file needs, with its headers. -/
def needed (size : Nat) : Nat := 1 + dataSectors size + (dataSectors size - 1) / NumDirect

/-- The condition under which `Create` keeps the volume: the file does not just
fill its first header, and the free map has the sectors for its headers too,
unless it has not even those for the data. -/
def Fits (d : Disk) (size : Int) : Prop :=
  0 ≤ size ∧ dataSectors size.toNat ≠ NumDirect ∧
    (clearBits d ≤ dataSectors size.toNat ∨ needed size.toNat ≤ clearBits d)

namespace Volume

variable {v : Volume} {fs : FileSystem} {m : BitMap} {d : Disk} {q s : Nat}

/-- `Add` returns `TRUE` when the name is new and an entry is free. -/
theorem add_eq_some {dir dir' : Directory} {mem : Strings} {key : BitVec 32} (sector : BitVec 32) :
    dir.add mem key sector = some (some dir') ↔ dir.findIndex mem key = some (-1) ∧
      ∃ i, (List.range dir.tableSize).find? (fun i => !Directory.inUse dir.table i) = some i ∧
        { dir with table := Directory.setEntry dir.table i key sector } = dir' := by
  rw [Directory.add]
  cases dir.findIndex mem key with
  | none => simp
  | some k =>
    by_cases hk : k = -1
    · subst hk
      simp only [Option.bind_eq_bind, Option.bind_some, ne_eq, not_true_eq_false, if_false, true_and]
      cases (List.range dir.tableSize).find? fun i => !Directory.inUse dir.table i <;> simp
    · simp [hk]

/-- A bit that is clear in the free map belongs to no file. -/
theorem not_has (hbits : ∀ s, s < NumSectors → (m.testBit s = true ↔ v.Has s)) (hs : s < NumSectors)
    (hclear : m.testBit s = false) : ¬ v.Has s := by
  intro h
  rw [(hbits s hs).mpr h] at hclear
  cases hclear

/-- The sectors that `Create` takes belong to no file. -/
theorem taken_fresh (hmap : m.numBits = NumSectors)
    (hbits : ∀ s, s < NumSectors → (m.testBit s = true ↔ v.Has s)) (hq : q < NumSectors)
    (hclear : m.testBit q = false) {m' : BitMap} {items : List Nat}
    (htaken : (m.setBit q).Taken m' items) :
    q ∉ items ∧ ∀ s ∈ q :: items, s < NumSectors ∧ ¬ v.Has s := by
  have hold : ∀ s ∈ items, s < NumSectors ∧ s ≠ q ∧ m.testBit s = false := by
    intro s hs
    obtain ⟨hlt, hbit⟩ := htaken.free s hs
    rw [BitMap.testBit_setBit, Bool.or_eq_false_iff, decide_eq_false_iff_not] at hbit
    exact ⟨hmap ▸ hlt, hbit⟩
  refine ⟨fun h => (hold q h).2.1 rfl, fun s hs => ?_⟩
  rcases List.mem_cons.mp hs with rfl | hs
  · exact ⟨hq, not_has hbits hq hclear⟩
  · exact ⟨(hold s hs).1, not_has hbits (hold s hs).1 (hold s hs).2.2⟩

/-- The new file is on the disk after the writes of `Create`. -/
theorem commit_allocated (hv : v.Mounted fs) (f : Fresh) (key : BitVec 32) {m' : BitMap}
    {dir : Directory} {i size : Nat} {h : FileHeader} {d' : Disk} {hs data : List Nat}
    (hmap : m.numBits = NumSectors) (hbits : ∀ s, s < NumSectors → (m.testBit s = true ↔ v.Has s))
    (hdirSize : dir.tableSize = NumDirEntries)
    (hdir : ∀ x, x < DirectoryFileSize → dir.table x = v.directory.byte fs.disk x)
    (hi : i < NumDirEntries) (hfree : Directory.inUse dir.table i = false)
    (hq : q < NumSectors) (hclear : m.testBit q = false)
    (ha : Allocated (m.setBit q) fs.disk size h m' d' hs data) :
    ∃ (fs' : FileSystem) (v' : Volume), fs.commit f h q
        { dir with table := Directory.setEntry dir.table i key (BitVec.ofInt 32 q) } m' d' = some fs' ∧
      v'.Mounted fs' ∧ clearBits fs'.disk = m'.numClear ∧
      ∀ x, x < DirectoryFileSize → v'.directory.byte fs'.disk x =
        Directory.setEntry dir.table i key (BitVec.ofInt 32 q) x := by
  obtain ⟨hnew, hfresh⟩ := taken_fresh hmap hbits hq hclear ha.taken
  have hle : (m.setBit q).numBits ≤ NumSectors := hmap.le
  let L := ha.layout hle hq hnew
  have hmem : ∀ s, s ∈ L.sectors ↔ s = q ∨ s ∈ hs ++ data := fun s => List.mem_cons
  have hL : ∀ s ∈ L.sectors, ¬ v.Has s := fun s hs' => (hfresh s hs').2
  have hsame : ∀ s, v.Has s → d' s = fs.disk s := fun s hs' =>
    ha.same s fun h => hL s ((hmem s).mpr (.inr (List.mem_append_left _ h))) hs'
  have hnum : m'.numBits = NumSectors := ha.taken.numBits.trans hmap
  obtain ⟨d2, hcommit, hrest, hbyte, hmapBits⟩ := commit_spec hv hq (not_has hbits hq hclear)
    (fun s hs => hsame s (has_of_headers hs))
    { dir with table := Directory.setEntry dir.table i key (BitVec.ofInt 32 q) } hdirSize hnum f h
  have hnone : v.entry ⟨i, hi⟩ = none := by
    have huse := hv.onDisk.inUse ⟨i, hi⟩
    rw [← (Directory.entry_congr hdir hi).1, hfree] at huse
    exact Option.isNone_iff_eq_none.mp (Option.isSome_eq_false_iff.mp huse.symm)
  have hLd : L.OnDisk d2 := (ha.onDisk hle hq hnew).congr fun s hs' => by
    have hfree' := hL s (List.mem_append_left _ hs')
    exact hrest s (fun h => hfree' ⟨.directory, _, rfl, List.mem_append_right _ h⟩)
      fun h => hfree' ⟨.freeMap, _, rfl, List.mem_append_right _ h⟩
  have hd2 : (v.addFile ⟨i, hi⟩ L hL).OnDisk d2 := by
    refine onDisk_addFile hv.onDisk hnone hLd (Building.toInt_ofInt_sector hq)
      (fun s hs' h1 h2 => ?_) hdir hbyte fun s hs' => ?_
    · have hne : s ≠ q := by
        rintro rfl
        exact not_has hbits hq hclear hs'
      rw [hrest s h1 h2, update_of_ne hne, hsame s hs']
    · rw [hmapBits s hs', ha.taken.bits, BitMap.testBit_setBit, hmem, ← hbits s hs']
      simp only [Bool.or_eq_true, decide_eq_true_eq]
      exact or_assoc.trans or_left_comm
  refine ⟨_, v.addFile ⟨i, hi⟩ L hL, hcommit, ⟨hd2, hv.freeMapFile, hv.directoryFile, ?_⟩, ?_,
    hbyte⟩
  · intro g hg
    obtain ⟨hrange, j, M, hM, hheads⟩ := hv.handles g hg
    have hj : j ≠ ⟨i, hi⟩ := by
      rintro rfl
      rw [hnone] at hM
      cases hM
    exact ⟨hrange, j, M, (update_of_ne hj _ _).trans hM, hheads⟩
  · rw [clearBits_eq hd2, BitMap.numClear, hnum]
    exact BitMap.countP_range_congr fun s hs' => congrArg _ (hmapBits s hs')

end Volume

/-! ### Up to the call of `Allocate` -/

/-- A sector that is free in the map. -/
def Vacant (m : BitMap) (s : Nat) : Prop := s < m.numBits ∧ m.testBit s = false

/-- `Find` takes a free sector, or there is none. -/
theorem find_cases (m : BitMap) :
    m.find = (-1, m) ∨ ∃ s : Nat, m.find = ((s : Int), m.setBit s) ∧ Vacant m s := by
  rcases Nat.eq_zero_or_pos m.numClear with hfull | hclear
  · exact .inl (BitMap.find_of_full hfull)
  · exact .inr (BitMap.find_of_clear hclear)

/-- `Create` has found that the name is new, a sector `q` for the header, and a free
entry. -/
structure Prepared (fs : FileSystem) (mem : Strings) (f : Fresh) (name : BitVec 32)
    (dir' : Directory) (m : BitMap) (q : Nat) : Prop where
  directory : ∃ dir, fs.fetchDirectory f = some dir ∧ dir.find mem name = some (-1) ∧
    dir.add mem name (BitVec.ofInt 32 q) = some (some dir')
  freeMap : fs.fetchFreeMap f = some m
  find : m.find = ((q : Int), m.setBit q)
  vacant : Vacant m q

/-- The rest of `Create`, after the call of `Allocate`. -/
def FileSystem.afterAllocate (fs : FileSystem) (f : Fresh) (sector : Int) (directory : Directory) :
    Option (FileHeader × BitMap × Disk) → Option (Bool × FileSystem)
  | none => some (false, fs)
  | some (hdr, freeMap, d) =>
      (fs.commit f hdr sector directory freeMap d).map fun fs => (true, fs)

namespace Prepared

variable {fs fs' : FileSystem} {mem : Strings} {f : Fresh} {name : BitVec 32} {dir dir' : Directory}
  {m : BitMap} {q i : Nat} {size : Int}

/-- The name is new, and the entry `i` is free. -/
theorem of_slot (hfetch : fs.fetchDirectory f = some dir)
    (hindex : dir.findIndex mem name = some (-1))
    (hslot : (List.range dir.tableSize).find? (fun i => !Directory.inUse dir.table i) = some i)
    (hmap : fs.fetchFreeMap f = some m) (hfind : m.find = ((q : Int), m.setBit q))
    (hvacant : Vacant m q) :
    Prepared fs mem f name
      { dir with table := Directory.setEntry dir.table i name (BitVec.ofInt 32 q) } m q := by
  have hnew : dir.find mem name = some (-1) := by
    rw [Directory.find, hindex]
    rfl
  have hadd := (Volume.add_eq_some (BitVec.ofInt 32 q)).mpr ⟨hindex, i, hslot, rfl⟩
  exact ⟨⟨dir, hfetch, hnew, hadd⟩, hmap, hfind, hvacant⟩

theorem create_eq (hp : Prepared fs mem f name dir' m q) :
    fs.create mem f name size =
      (f.header.allocate (m.setBit q) fs.disk f.newHdr f.curSector f.time size).bind
        (fs.afterAllocate f q dir') := by
  obtain ⟨dir, hfetch, hfind, hadd⟩ := hp.directory
  simp only [FileSystem.create, hfetch, hfind, hp.freeMap, hp.find, hadd, Option.bind_eq_bind,
    Option.bind_some]
  rw [if_neg (not_not_intro rfl), if_neg (by omega)]
  rfl

/-- `Allocate` returns `TRUE`. -/
theorem create_true (hp : Prepared fs mem f name dir' m q) {h : FileHeader} {m' : BitMap}
    {d' : Disk}
    (halloc : f.header.allocate (m.setBit q) fs.disk f.newHdr f.curSector f.time size =
      some (some (h, m', d')))
    (hcommit : fs.commit f h q dir' m' d' = some fs') :
    fs.create mem f name size = some (true, fs') := by
  rw [hp.create_eq, halloc, Option.bind_some, FileSystem.afterAllocate, hcommit, Option.map_some]

/-- The uninitialised variable of `Allocate` is not read before. -/
theorem curSector (hp : Prepared fs mem f name dir' m q) (c : BitVec 32) :
    Prepared fs mem { f with curSector := c } name dir' m q :=
  ⟨hp.directory, hp.freeMap, hp.find, hp.vacant⟩

end Prepared

/-- A `Create` that returns has done nothing, or it has allocated the file. -/
theorem create_cases {fs fs' : FileSystem} {mem : Strings} {f : Fresh} {name : BitVec 32}
    {size : Int} {b : Bool} (h : fs.create mem f name size = some (b, fs')) :
    b = false ∧ fs' = fs ∨ b = true ∧ ∃ dir' m q, Prepared fs mem f name dir' m q ∧ ∃ h m' d',
      f.header.allocate (m.setBit q) fs.disk f.newHdr f.curSector f.time size =
        some (some (h, m', d')) ∧
      fs.commit f h q dir' m' d' = some fs' := by
  have hsame : some (false, fs) = some (b, fs') → b = false ∧ fs' = fs := by
    intro heq
    cases heq
    exact ⟨rfl, rfl⟩
  have hcode := h
  simp only [FileSystem.create, Option.bind_eq_bind, Option.bind_eq_some_iff] at hcode
  obtain ⟨dir, hfetch, found, hfound, hcode⟩ := hcode
  split at hcode
  · exact .inl (hsame hcode)
  rename_i hnew
  obtain rfl := not_not.mp hnew
  simp only [Option.bind_eq_some_iff] at hcode
  obtain ⟨m, hmap, hcode⟩ := hcode
  split at hcode
  · exact .inl (hsame hcode)
  rename_i hsector
  simp only [Option.bind_eq_some_iff] at hcode
  obtain ⟨added, hadd, hcode⟩ := hcode
  cases added with
  | none => exact .inl (hsame hcode)
  | some dir' =>
    rcases find_cases m with hnone | ⟨q, hfind, hvacant⟩
    · rw [hnone] at hsector
      exact absurd rfl hsector
    rw [hfind] at hadd
    have hp : Prepared fs mem f name dir' m q :=
      ⟨⟨dir, hfetch, hfound, hadd⟩, hmap, hfind, hvacant⟩
    rw [hp.create_eq] at h
    obtain ⟨r, halloc, hrest⟩ := Option.bind_eq_some_iff.mp h
    cases r with
    | none => exact .inl (hsame hrest)
    | some x =>
      obtain ⟨h', m', d'⟩ := x
      rw [FileSystem.afterAllocate] at hrest
      obtain ⟨fs1, hcommit, hfs1⟩ := Option.map_eq_some_iff.mp hrest
      cases hfs1
      exact .inr ⟨rfl, dir', m, q, hp, h', m', d', halloc, hcommit⟩

namespace Volume

variable {v : Volume} {fs : FileSystem} {m : BitMap} {d : Disk} {q s : Nat}

/-- `Create` when the free map has the sectors that the file needs. -/
theorem create_of_space (hv : v.Mounted fs) (mem : Strings) (f : Fresh) (name : BitVec 32)
    {size i : Nat} (hspace : needed size ≤ clearBits fs.disk)
    (hdirect : dataSectors size ≠ NumDirect) {dir : Directory}
    (hfetch : fs.fetchDirectory f = some dir) (hindex : dir.findIndex mem name = some (-1))
    (hslot : (List.range dir.tableSize).find? (fun i => !Directory.inUse dir.table i) = some i) :
    ∃ (fs' : FileSystem) (v' : Volume) (q : Nat), fs.create mem f name size = some (true, fs') ∧
      v'.Mounted fs' ∧ clearBits fs'.disk + needed size = clearBits fs.disk ∧ q < NumSectors ∧
      ∀ x, x < DirectoryFileSize → v'.directory.byte fs'.disk x =
        Directory.setEntry dir.table i name (BitVec.ofInt 32 q) x := by
  obtain ⟨dir', hfetch', hdirSize, hdir⟩ := fetchDirectory_spec hv f
  obtain rfl := Option.some.inj (hfetch.symm.trans hfetch')
  obtain ⟨m, hmapFetch, hmap, hbits, hcount⟩ := fetchFreeMap_spec hv f
  have hone : 1 ≤ needed size := le_trans (Nat.le_add_right _ _) (Nat.le_add_right _ _)
  obtain ⟨q, hq, hqlt, hqclear⟩ := BitMap.find_of_clear (m := m) (by omega)
  have hp := Prepared.of_slot hfetch hindex hslot hmapFetch hq ⟨hqlt, hqclear⟩
  rw [needed] at hspace ⊢
  have hcount1 := BitMap.numClear_setBit hqlt hqclear
  have hroom : dataSectors size + (dataSectors size - 1) / NumDirect ≤ (m.setBit q).numClear := by
    omega
  obtain ⟨h, m', d', hs, data, halloc, ha⟩ := FileHeader.allocate_spec (m := m.setBit q)
    (h := f.header) (d := fs.disk) hmap.le hroom hdirect f.newHdr f.curSector f.time
  have hfree : Directory.inUse dir.table i = false := by simpa using List.find?_some hslot
  have hi := List.mem_range.mp (List.mem_of_find?_eq_some hslot)
  rw [hdirSize] at hi
  rw [hmap] at hqlt
  obtain ⟨fs', v', hcommit, hv', hclear, hbyte⟩ := commit_allocated hv f name hmap hbits
    hdirSize hdir hi hfree hqlt hqclear ha
  refine ⟨fs', v', q, ?_, hv', ?_, hqlt, hbyte⟩
  · exact hp.create_true halloc hcommit
  · have htaken := ha.taken.clear
    have hdata := ha.data_length
    have hhs := ha.hs_length
    rw [List.length_append, hhs, hdata] at htaken
    rw [hclear, ← hcount, ← hcount1, ← htaken, dataSectors]
    omega

theorem create_keeps (hv : v.Mounted fs) {mem : Strings} {f : Fresh} {name : BitVec 32} {size : Int}
    (hfits : Fits fs.disk size) {b : Bool} {fs' : FileSystem}
    (h : fs.create mem f name size = some (b, fs')) : ∃ v' : Volume, v'.Mounted fs' := by
  obtain ⟨hsize, hdirect, hspace⟩ := hfits
  obtain ⟨n, rfl⟩ := Int.eq_ofNat_of_zero_le hsize
  rw [Int.toNat_natCast] at hdirect hspace
  rcases create_cases h with ⟨-, rfl⟩ | ⟨-, dir', m, q, hp, h', m', d', halloc, -⟩
  · exact ⟨v, hv⟩
  rcases hspace with hfull | hspace
  · -- The header takes one sector, so `Allocate` finds too few.
    obtain ⟨m1, hmapFetch1, -, -, hcount⟩ := fetchFreeMap_spec hv f
    obtain rfl := Option.some.inj (hp.freeMap.symm.trans hmapFetch1)
    have hcount1 := BitMap.numClear_setBit hp.vacant.1 hp.vacant.2
    have hless : (m.setBit q).numClear < dataSectors n := by omega
    rw [FileHeader.allocate_of_full hless] at halloc
    cases halloc
  · obtain ⟨dir, hfetch, -, hadd⟩ := hp.directory
    obtain ⟨hindex, i, hslot, -⟩ := (add_eq_some _).mp hadd
    obtain ⟨fs1, v', q, hfs1, hv', -⟩ := create_of_space hv mem f name hspace hdirect hfetch hindex
      hslot
    obtain rfl := (Prod.mk.inj (Option.some.inj (hfs1.symm.trans h))).2
    exact ⟨v', hv'⟩

end Volume

end Nachos.Filesys

import Nachos.Filesys.Create

/-!
# The file system keeps the owners of the sectors apart

`format_spec` says that a formatted disk has a volume without entries.  Every
call that returns keeps the volume or adds a file to it (`step_keeps`), so the
owners are apart in every state that a run from a formatted disk reaches
(`ownership`).  The condition on the calls is `Regular`.

`create_without_space` is a call that does not meet it: `Allocate` compares the
number of data sectors with the number of clear bits, but it also takes sectors
for the further headers.
-/

namespace Nachos.Filesys

open Function Lib Machine Userprog

/-! ## A formatted disk -/

namespace Volume

variable {d : Disk} {m : BitMap} {L M N : Layout}

/-- A volume without entries. -/
def blank (L M N : Layout) (hL : L.headers = [FreeMapSector]) (hL' : L.length = FreeMapFileSize)
    (hM : M.headers = [DirectorySector]) (hM' : M.length = DirectoryFileSize)
    (hN : N.headers = [PipeSector]) (hnodup : (L.sectors ++ (M.sectors ++ N.sectors)).Nodup) :
    Volume where
  freeMap := L
  directory := M
  pipe := N
  entry _ := none
  freeMap_headers := hL
  freeMap_length := hL'
  directory_headers := hM
  directory_length := hM'
  pipe_headers := hN
  apart j k A B hne hA hB := by
    obtain ⟨-, hMN, hLs⟩ := List.nodup_append'.mp hnodup
    obtain ⟨-, -, hMs⟩ := List.nodup_append'.mp hMN
    rw [List.disjoint_append_right] at hLs
    cases j <;> cases k <;> cases hA <;> cases hB
    · exact absurd rfl hne
    · exact hLs.1
    · exact hLs.2
    · exact hLs.1.symm
    · exact absurd rfl hne
    · exact hMs
    · exact hLs.2.symm
    · exact hMs.symm
    · exact absurd rfl hne

theorem has_blank {hL : L.headers = [FreeMapSector]} {hL' : L.length = FreeMapFileSize}
    {hM : M.headers = [DirectorySector]} {hM' : M.length = DirectoryFileSize}
    {hN : N.headers = [PipeSector]} {hnodup : (L.sectors ++ (M.sectors ++ N.sectors)).Nodup}
    {s : Nat} :
    (blank L M N hL hL' hM hM' hN hnodup).Has s ↔ s ∈ L.sectors ++ (M.sectors ++ N.sectors) := by
  rw [List.mem_append, List.mem_append]
  constructor
  · rintro ⟨k, A, hA, hs⟩
    cases k <;> cases hA
    · exact .inl hs
    · exact .inr (.inl hs)
    · exact .inr (.inr hs)
  · rintro (hs | hs | hs)
    · exact ⟨.freeMap, L, rfl, hs⟩
    · exact ⟨.directory, M, rfl, hs⟩
    · exact ⟨.pipe, N, rfl, hs⟩

variable {v : Volume}

/-- The free map and an empty directory are written to a disk with the headers. -/
theorem write_blank (hentry : ∀ i, v.entry i = none) (hfiles : ∀ k L, v.file k = some L → L.OnDisk d)
    (hmap : m.numBits = NumSectors) (hbits : ∀ s, s < NumSectors → (m.testBit s = true ↔ v.Has s))
    (mapFile dirFile : OpenFile) (hmapFile : v.freeMap.Heads mapFile.hdr)
    (hdirFile : v.directory.Heads dirFile.hdr) (dir : Directory)
    (hsize : dir.tableSize = NumDirEntries)
    (hunused : ∀ i, i < NumDirEntries → Directory.inUse dir.table i = false) (junk : Bytes) :
    ∃ d1 d2, m.writeBack d junk mapFile = some d1 ∧ dir.writeBack d1 junk dirFile = some d2 ∧
      v.OnDisk d2 ∧ clearBits d2 = m.numClear := by
  have hlen : dir.tableSize * EntrySize = DirectoryFileSize := by
    rw [hsize, Nat.mul_comm]
    rfl
  have hwords : m.numWords * 4 = FreeMapFileSize := by
    rw [BitMap.numWords, hmap]
    rfl
  have hdisj : v.freeMap.sectors.Disjoint v.directory.sectors :=
    disjoint (v := v) (j := .freeMap) (k := .directory) (by decide) rfl rfl
  obtain ⟨d1, hwrite1, hsame1, hbit1⟩ := BitMap.writeBack_spec (hfiles .freeMap _ rfl) hmapFile
    (by rw [hwords, v.freeMap_length]) junk
  have hkeep1 : ∀ k L, v.file k = some L → L.OnDisk d1 := fun k L hL =>
    (hfiles k L hL).congr fun s hs => hsame1 s (header_not_meta hL hs).2
  obtain ⟨d2, hwrite2, hsame2, hbyte2⟩ := Directory.writeBack_spec dir (hkeep1 .directory _ rfl)
    hdirFile (by rw [hlen, v.directory_length]) junk
  have hmapByte : ∀ x, x < FreeMapFileSize → v.freeMap.byte d2 x = v.freeMap.byte d1 x := by
    intro x hx
    refine Layout.byte_congr (fun s hs => hsame2 s fun hs' => ?_)
      (Layout.sector_of_lt (by rwa [v.freeMap_length]))
    exact hdisj (List.mem_append_right _ hs) (List.mem_append_right _ hs')
  have hmapBits : ∀ s, s < NumSectors → BitMap.bitOf (v.freeMap.byte d2) s = m.testBit s := by
    intro s hs
    rw [BitMap.bitOf_congr hmapByte hs]
    exact hbit1 s (by rwa [hmap])
  have hd2 : v.OnDisk d2 := by
    refine ⟨fun k L hL => ?_, fun s hs => ?_, fun i => ?_, fun i L hL => ?_⟩
    · exact (hkeep1 k L hL).congr fun s hs => hsame2 s (header_not_meta hL hs).1
    · rw [hmapBits s hs]
      exact hbits s hs
    · rw [hentry i, (Directory.entry_congr (n := NumDirEntries)
        (fun x hx => hbyte2 x (by rwa [hsize])) i.isLt).1]
      exact hunused i i.isLt
    · rw [hentry i] at hL
      cases hL
  refine ⟨d1, d2, hwrite1, hwrite2, hd2, ?_⟩
  rw [clearBits_eq hd2, BitMap.numClear, hmap]
  exact BitMap.countP_range_congr fun s hs => congrArg _ (hmapBits s hs)

end Volume

theorem mark_of_lt {m : BitMap} {i : Nat} (hi : i < m.numBits) : m.mark i = some (m.setBit i) := by
  rw [BitMap.mark, if_pos ⟨Int.natCast_nonneg i, Int.ofNat_lt.mpr hi⟩, Int.toNat_natCast]

/-- A small file takes data sectors only. -/
theorem allocateNew_spec (m : BitMap) (size : Nat) (hm : m.numBits ≤ NumSectors)
    (hspace : dataSectors size ≤ m.numClear) (hsmall : dataSectors size < NumDirect) (d : Disk)
    (f : Fresh) :
    ∃ h m' data, FileSystem.allocateNew m d f size = some (h, m', d) ∧
      Allocated m d size h m' d [] data := by
  have hnone : (dataSectors size - 1) / NumDirect = 0 :=
    Nat.div_eq_of_lt (lt_of_le_of_lt (Nat.sub_le _ _) hsmall)
  obtain ⟨h, m', d', hs, data, halloc, ha⟩ := FileHeader.allocate_spec (h := f.header) (d := d) hm
    (by rw [show (size + (SectorSize - 1)) / SectorSize = dataSectors size from rfl, hnone]
        exact hspace)
    (Nat.ne_of_lt hsmall) f.newHdr f.curSector f.time
  obtain rfl : hs = [] := by
    have hlen := ha.hs_length
    rw [ha.data_length] at hlen
    exact List.eq_nil_of_length_eq_zero (hlen.trans hnone)
  obtain rfl : d' = d := funext fun s => ha.same s List.not_mem_nil
  exact ⟨h, m', data, by rw [FileSystem.allocateNew, halloc]; rfl, ha⟩

/-- A file with its only header in a sector. -/
theorem Layout.onDisk_single {L : Layout} {d : Disk} {s : Nat} (hhdr : L.headers = [s])
    (hh : L.Heads (.decode (d s))) : L.OnDisk d := by
  have hs : L.header = s := by simp [Layout.header, hhdr]
  exact onDisk_of_head (by rw [hhdr]; rfl) (hs.symm ▸ hh)

/-- The first three sectors are marked in a new map. -/
theorem marked_spec (words : Nat → BitVec 32) :
    ∃ m1 m2 m3, (BitMap.new NumSectors words).mark FreeMapSector = some m1 ∧
      m1.mark DirectorySector = some m2 ∧ m2.mark PipeSector = some m3 ∧
      (BitMap.new NumSectors words).Taken m3 [PipeSector, DirectorySector, FreeMapSector] := by
  have hnew : ∀ s, s < NumSectors → (BitMap.new NumSectors words).testBit s = false :=
    fun s hs => BitMap.testBit_new words hs
  have h0 := (BitMap.taken_nil (BitMap.new NumSectors words)).setBit (i := FreeMapSector)
    (by rw [BitMap.numBits_new]; decide) (hnew _ (by decide))
  have h1 := h0.setBit (i := DirectorySector) (by rw [BitMap.numBits_new]; decide)
    (by rw [h0.bits, hnew _ (by decide)]; rfl)
  have h2 := h1.setBit (i := PipeSector) (by rw [BitMap.numBits_new]; decide)
    (by rw [h1.bits, hnew _ (by decide)]; rfl)
  refine ⟨_, _, _, mark_of_lt ?_, mark_of_lt ?_, mark_of_lt ?_, h2⟩
  · rw [BitMap.numBits_new]
    decide
  · rw [h0.numBits, BitMap.numBits_new]
    decide
  · rw [h1.numBits, BitMap.numBits_new]
    decide

/-- The three files of a new file system: a volume without entries. -/
theorem allocate_blank {m3 : BitMap} {words : Nat → BitVec 32}
    (htaken : (BitMap.new NumSectors words).Taken m3 [PipeSector, DirectorySector, FreeMapSector])
    (d : Disk) (f g h : Fresh) :
    ∃ h1 m4 h2 m5 h3 m6, FileSystem.allocateNew m3 d f FreeMapFileSize = some (h1, m4, d) ∧
      FileSystem.allocateNew m4 d g DirectoryFileSize = some (h2, m5, d) ∧
      FileSystem.allocateNew m5 d h PipeFileSize = some (h3, m6, d) ∧
      m6.numBits = NumSectors ∧ m6.numClear = 1014 ∧
      ∃ v : Volume, (∀ i, v.entry i = none) ∧ v.freeMap.Heads h1 ∧ v.directory.Heads h2 ∧
        v.pipe.Heads h3 ∧ v.pipe.length = PipeFileSize ∧
        ∀ s, s < NumSectors → (m6.testBit s = true ↔ v.Has s) := by
  have hnum3 : m3.numBits = NumSectors := by rw [htaken.numBits, BitMap.numBits_new]
  have hclear3 : m3.numClear + 3 = 1024 := by
    have hclear := htaken.clear
    rw [BitMap.numClear_new] at hclear
    exact hclear
  obtain ⟨h1, m4, data1, halloc1, ha1⟩ := allocateNew_spec m3 FreeMapFileSize hnum3.le
    (le_trans (by decide) (show 1 ≤ m3.numClear by omega)) (by decide) d f
  have hnum4 := ha1.taken.numBits.trans hnum3
  have hclear4 : m4.numClear + data1.length = m3.numClear := ha1.taken.clear
  have hlen4 : data1.length = 1 := ha1.data_length
  obtain ⟨h2, m5, data2, halloc2, ha2⟩ := allocateNew_spec m4 DirectoryFileSize hnum4.le
    (le_trans (by decide) (show 2 ≤ m4.numClear by omega)) (by decide) d g
  have hnum5 := ha2.taken.numBits.trans hnum4
  have hclear5 : m5.numClear + data2.length = m4.numClear := ha2.taken.clear
  have hlen5 : data2.length = 2 := ha2.data_length
  obtain ⟨h3, m6, data3, halloc3, ha3⟩ := allocateNew_spec m5 PipeFileSize hnum5.le
    (le_trans (by decide) (show 4 ≤ m5.numClear by omega)) (by decide) d h
  have hnum6 := ha3.taken.numBits.trans hnum5
  have hclear6 : m6.numClear + data3.length = m5.numClear := ha3.taken.clear
  have hlen6 : data3.length = 4 := ha3.data_length
  have hall := ((htaken.trans ha1.taken).trans ha2.taken).trans ha3.taken
  have hperm : ([] ++ data3 ++ ([] ++ data2 ++ ([] ++ data1 ++
      [PipeSector, DirectorySector, FreeMapSector]))).Perm
      ((FreeMapSector :: data1) ++ ((DirectorySector :: data2) ++ (PipeSector :: data3))) := by
    rw [List.perm_iff_count]
    intro a
    simp only [List.count_append, List.count_cons, List.count_nil]
    omega
  have hitems := hall.perm hperm
  have hnodup := hitems.nodup
  have hnew1 : FreeMapSector ∉ [] ++ data1 := fun hmem =>
    (List.nodup_cons.mp hnodup).1 (List.mem_append_left _ hmem)
  have hnodup2 := (List.nodup_append'.mp hnodup).2.1
  have hnew2 : DirectorySector ∉ [] ++ data2 := fun hmem =>
    (List.nodup_cons.mp hnodup2).1 (List.mem_append_left _ hmem)
  have hnew3 : PipeSector ∉ [] ++ data3 :=
    (List.nodup_cons.mp (List.nodup_append'.mp hnodup2).2.1).1
  refine ⟨h1, m4, h2, m5, h3, m6, halloc1, halloc2, halloc3, hnum6, by omega,
    Volume.blank (ha1.layout hnum3.le (by decide) hnew1) (ha2.layout hnum4.le (by decide) hnew2)
    (ha3.layout hnum5.le (by decide) hnew3) rfl rfl rfl rfl rfl hnodup,
    fun _ => rfl, ha1.heads hnum3.le (by decide) hnew1, ha2.heads hnum4.le (by decide) hnew2,
    ha3.heads hnum5.le (by decide) hnew3, rfl, fun s hs => ?_⟩
  rw [hitems.bits, BitMap.testBit_new words hs, Bool.false_or, decide_eq_true_eq]
  exact (Volume.has_blank (L := ha1.layout hnum3.le (by decide) hnew1)
    (M := ha2.layout hnum4.le (by decide) hnew2) (N := ha3.layout hnum5.le (by decide) hnew3)).symm

/-- A formatted disk has a volume without entries. -/
theorem format_spec (d : Disk) (f g h : Fresh) :
    ∃ (fs : FileSystem) (v : Volume), FileSystem.format d f g h = some fs ∧ v.Mounted fs ∧
      (∀ i, v.entry i = none) ∧ clearBits fs.disk = 1014 ∧ v.pipe.length = PipeFileSize := by
  obtain ⟨m1, m2, m3, hm1, hm2, hm3, htaken⟩ := marked_spec f.words
  obtain ⟨h1, m4, h2, m5, h3, m6, halloc1, halloc2, halloc3, hnum, hclear, v, hentry, hheads1,
    hheads2, hheads3, hpipeLength, hbits⟩ := allocate_blank htaken d f g h
  obtain ⟨d3, hd3⟩ : ∃ d3 : Disk, update (update (update d FreeMapSector h1.encode) DirectorySector
      h2.encode) PipeSector h3.encode = d3 := ⟨_, rfl⟩
  have hmap : FileHeader.decode (d3 FreeMapSector) = h1 := hd3 ▸ FileHeader.decode_encode h1
  have hdir : FileHeader.decode (d3 DirectorySector) = h2 := hd3 ▸ FileHeader.decode_encode h2
  have hpipe : FileHeader.decode (d3 PipeSector) = h3 := hd3 ▸ FileHeader.decode_encode h3
  have hfiles : ∀ k L, v.file k = some L → L.OnDisk d3 := by
    intro k L hL
    cases k with
    | freeMap =>
      cases hL
      exact Layout.onDisk_single v.freeMap_headers (hmap.symm ▸ hheads1)
    | directory =>
      cases hL
      exact Layout.onDisk_single v.directory_headers (hdir.symm ▸ hheads2)
    | pipe =>
      cases hL
      exact Layout.onDisk_single v.pipe_headers (hpipe.symm ▸ hheads3)
    | entry i =>
      have hnone : v.entry i = some L := hL
      rw [hentry i] at hnone
      cases hnone
  obtain ⟨d4, d5, hwrite4, hwrite5, hd5, hclear5⟩ := Volume.write_blank hentry hfiles hnum hbits
    ⟨h1, FreeMapSector, 0⟩ ⟨h2, DirectorySector, 0⟩ hheads1 hheads2
    (Directory.new NumDirEntries f.table) rfl (fun i hi => Directory.inUse_new f.table hi) f.buffer
  refine ⟨⟨d5, ⟨h1, FreeMapSector, 0⟩, ⟨h2, DirectorySector, 0⟩, []⟩, v, ?_,
    ⟨hd5, hheads1, hheads2, by simp⟩, hentry, hclear5.trans hclear, hpipeLength⟩
  have hopen : ∀ s : Nat, s < NumSectors →
      OpenFile.openAt d3 s = some ⟨.decode (d3 s), s, 0⟩ := by
    intro s hs
    rw [OpenFile.openAt, FileHeader.fetchFrom, readSector_of_lt d3 hs]
    rfl
  simp only [FileSystem.format, hm1, hm2, hm3, halloc1, halloc2, halloc3, Option.bind_eq_bind,
    Option.bind_some, FileHeader.writeBack, writeSector_of_lt _ (by decide : FreeMapSector < NumSectors),
    writeSector_of_lt _ (by decide : DirectorySector < NumSectors),
    writeSector_of_lt _ (by decide : PipeSector < NumSectors), hd3,
    hopen FreeMapSector (by decide), hopen DirectorySector (by decide), hopen PipeSector (by decide),
    hmap, hdir, hwrite4, hwrite5]

/-! ## One call -/

/-- The condition on a call: a file that is created fits, and a write does not end
where the numbers end. -/
def Regular (fs : FileSystem) (r : FileSystem.Request × Fresh) : Prop :=
  match r.1 with
  | .create _ _ initialSize => Fits fs.disk initialSize
  | .write k _ numBytes => ∀ file, fs.handles[k]? = some file →
      file.seekPosition + numBytes.toInt ≠ 2 ^ 31
  | _ => True

theorem findIndexIn_cases {table : Bytes} {mem : Strings} {key : BitVec 32} {is : List Nat} {k : Int}
    (h : Directory.findIndexIn table mem key is = some k) :
    k = -1 ∨ ∃ i : Nat, k = i ∧ i ∈ is ∧ Directory.inUse table i = true := by
  induction is with
  | nil => exact .inl (Option.some.inj h).symm
  | cons i is ih =>
    have hrest : Directory.findIndexIn table mem key is = some k →
        k = -1 ∨ ∃ j : Nat, k = j ∧ j ∈ i :: is ∧ Directory.inUse table j = true := by
      intro h
      rcases ih h with hk | ⟨j, hk, hj, huse⟩
      · exact .inl hk
      · exact .inr ⟨j, hk, List.mem_cons_of_mem i hj, huse⟩
    rw [Directory.findIndexIn] at h
    split at h
    · simp only [Option.bind_eq_bind, Option.bind_eq_some_iff] at h
      obtain ⟨same, -, h⟩ := h
      split at h
      · exact .inr ⟨i, (Option.some.inj h).symm, List.mem_cons_self, ‹_›⟩
      · exact hrest h
    · exact hrest h

namespace Volume

variable {v : Volume} {fs fs' : FileSystem} {mem : Strings} {f : Fresh} {name : BitVec 32}

/-- A sector that `Find` returns is the header of an entry. -/
theorem find_spec (hv : v.Mounted fs) {dir : Directory} {sector : Int}
    (hfetch : fs.fetchDirectory f = some dir) (hfind : dir.find mem name = some sector)
    (hsector : 0 ≤ sector) : ∃ i L, v.entry i = some L ∧ sector = L.header := by
  obtain ⟨dir', hfetch', hsize, hbyte⟩ := fetchDirectory_spec hv f
  obtain rfl := Option.some.inj (hfetch.symm.trans hfetch')
  simp only [Directory.find, Option.bind_eq_bind, Option.bind_eq_some_iff] at hfind
  obtain ⟨k, hk, hfind⟩ := hfind
  split at hfind
  · rcases findIndexIn_cases hk with rfl | ⟨i, rfl, hi, huse⟩
    · exact absurd rfl ‹_›
    · rw [hsize, List.mem_range] at hi
      obtain ⟨huse', hsec, -⟩ := Directory.entry_congr hbyte hi
      have hsome := hv.onDisk.inUse ⟨i, hi⟩
      rw [← huse', huse] at hsome
      obtain ⟨L, hL⟩ := Option.isSome_iff_exists.mp hsome.symm
      refine ⟨⟨i, hi⟩, L, hL, ?_⟩
      rw [← hv.onDisk.sector ⟨i, hi⟩ L hL, ← hsec]
      exact (Option.some.inj hfind).symm
  · cases hfind
    omega

/-- A file that is opened by its header. -/
theorem openAt_spec {L : Layout} {d : Disk} {file : OpenFile} (hd : L.OnDisk d)
    (h : OpenFile.openAt d L.header = some file) :
    L.Heads file.hdr ∧ file.hdrSector = L.header ∧ file.seekPosition = 0 := by
  rw [OpenFile.openAt, FileHeader.fetchFrom, readSector_of_lt d (Layout.header_lt L.header_mem)] at h
  obtain rfl := Option.some.inj h
  exact ⟨hd.head, rfl, rfl⟩

theorem openFile_keeps (hv : v.Mounted fs) {b : Bool}
    (h : fs.openFile mem f name = some (b, fs')) : v.Mounted fs' := by
  simp only [FileSystem.openFile, Option.bind_eq_bind, Option.bind_eq_some_iff] at h
  obtain ⟨dir, hfetch, sector, hfind, h⟩ := h
  split at h
  · simp only [Option.bind_eq_some_iff, Option.some.injEq, Prod.mk.injEq] at h
    obtain ⟨file, hopen, -, rfl⟩ := h
    obtain ⟨i, L, hL, rfl⟩ := find_spec hv hfetch hfind ‹_›
    obtain ⟨hheads, hsec, hpos⟩ := openAt_spec (hv.onDisk.files (.entry i) L hL) hopen
    refine ⟨hv.onDisk, hv.freeMapFile, hv.directoryFile, fun g hg => ?_⟩
    rcases List.mem_append.mp hg with hg | hg
    · exact hv.handles g hg
    · obtain rfl := List.mem_singleton.mp hg
      rw [hpos]
      exact ⟨by decide, i, L, hL, hheads, hsec⟩
  · obtain rfl := (Prod.mk.inj (Option.some.inj h)).2
    exact hv

/-- A call through a handle. -/
theorem touched_keeps (hv : v.Mounted fs) {k : Nat} {file file' : OpenFile} {d' : Disk}
    (hk : fs.handles[k]? = some file)
    (htouch : ∀ L : Layout, L.OnDisk fs.disk → L.Heads file.hdr → file.hdrSector = L.header →
      InInt file.seekPosition → L.Touched fs.disk d' file') :
    v.Mounted { fs with disk := d', handles := fs.handles.set k file' } := by
  obtain ⟨hpos, i, L, hL, hheads, hsec⟩ := hv.handles file (List.mem_of_getElem? hk)
  have ht := htouch L (hv.onDisk.files (.entry i) L hL) hheads hsec hpos
  refine ⟨hv.onDisk.change (k := .entry i) (by simp) (by simp) hL ht.onDisk ht.same, hv.freeMapFile,
    hv.directoryFile, fun g hg => ?_⟩
  rcases List.mem_or_eq_of_mem_set hg with hg | rfl
  · exact hv.handles g hg
  · exact ⟨ht.range, i, L, hL, ht.heads, ht.sector⟩

/-- A call through the pipe. -/
theorem pipe_keeps (hv : v.Mounted fs) {file file' : OpenFile} {d' : Disk}
    (hopen : OpenFile.openAt fs.disk PipeSector = some file)
    (htouch : ∀ L : Layout, L.OnDisk fs.disk → L.Heads file.hdr → file.hdrSector = L.header →
      file.seekPosition = 0 → L.Touched fs.disk d' file') :
    v.Mounted { fs with disk := d' } := by
  have hd := hv.onDisk.files .pipe _ rfl
  have hs : v.pipe.header = PipeSector := by simp [Layout.header, v.pipe_headers]
  rw [← hs] at hopen
  obtain ⟨hheads, hsec, hpos⟩ := openAt_spec hd hopen
  have ht := htouch v.pipe hd hheads hsec hpos
  exact ⟨hv.onDisk.change (k := .pipe) (by decide) (by decide) rfl ht.onDisk ht.same, hv.freeMapFile,
    hv.directoryFile, hv.handles⟩

/-- Every call keeps the volume or adds a file to it. -/
theorem step_keeps {r : FileSystem.Request × Fresh} (hv : v.Mounted fs) (hok : Regular fs r)
    (h : fs.step r = some fs') : ∃ v' : Volume, v'.Mounted fs' := by
  obtain ⟨request, f⟩ := r
  cases request with
  | create mem name size =>
    obtain ⟨⟨b, fs1⟩, hcreate, rfl⟩ := Option.map_eq_some_iff.mp h
    exact create_keeps hv hok hcreate
  | openFile mem name =>
    obtain ⟨⟨b, fs1⟩, hopen, rfl⟩ := Option.map_eq_some_iff.mp h
    exact ⟨v, openFile_keeps hv hopen⟩
  | remove mem name fuel =>
    obtain ⟨⟨b, fs1⟩, hremove, rfl⟩ := Option.map_eq_some_iff.mp h
    obtain rfl := FileSystem.remove_eq_some hremove
    exact ⟨v, hv⟩
  | seek k position =>
    simp only [FileSystem.step, Option.bind_eq_bind, Option.bind_eq_some_iff, Option.some.injEq] at h
    obtain ⟨file, hk, rfl⟩ := h
    obtain ⟨-, i, L, hL, hheads⟩ := hv.handles file (List.mem_of_getElem? hk)
    refine ⟨v, hv.onDisk, hv.freeMapFile, hv.directoryFile, fun g hg => ?_⟩
    rcases List.mem_or_eq_of_mem_set hg with hg | rfl
    · exact hv.handles g hg
    · exact ⟨⟨BitVec.le_toInt position, BitVec.toInt_lt⟩, i, L, hL, hheads⟩
  | read k into numBytes =>
    simp only [FileSystem.step, Option.bind_eq_bind, Option.bind_eq_some_iff, Option.some.injEq] at h
    obtain ⟨file, hk, ⟨r, into', file', d'⟩, hread, rfl⟩ := h
    exact ⟨v, touched_keeps hv hk fun L hd hh hs _ => Layout.read_touched hd hh hs hread⟩
  | write k source numBytes =>
    simp only [FileSystem.step, Option.bind_eq_bind, Option.bind_eq_some_iff, Option.some.injEq] at h
    obtain ⟨file, hk, ⟨r, file', d'⟩, hwrite, rfl⟩ := h
    exact ⟨v, touched_keeps hv hk fun L hd hh hs hpos => Layout.write_touched hd hh hs
      ⟨BitVec.le_toInt numBytes, BitVec.toInt_lt⟩ hpos (hok file hk) hwrite⟩
  | readPipe data numBytes =>
    simp only [FileSystem.step, FileSystem.readPipe, Option.bind_eq_bind, Option.map_eq_some_iff,
      Option.bind_eq_some_iff, Option.some.injEq] at h
    obtain ⟨_, ⟨file, hopen, ⟨r, into', file', d'⟩, hread, rfl⟩, rfl⟩ := h
    exact ⟨v, pipe_keeps hv hopen fun L hd hh hs _ => Layout.read_touched hd hh hs hread⟩
  | writePipe data numBytes =>
    simp only [FileSystem.step, FileSystem.writePipe, Option.bind_eq_bind, Option.map_eq_some_iff,
      Option.bind_eq_some_iff, Option.some.injEq] at h
    obtain ⟨_, ⟨file, hopen, ⟨r, file', d'⟩, hwrite, rfl⟩, rfl⟩ := h
    refine ⟨v, pipe_keeps hv hopen fun L hd hh hs hpos => Layout.write_touched hd hh hs
      ⟨BitVec.le_toInt numBytes, BitVec.toInt_lt⟩ (hpos ▸ by decide) ?_ hwrite⟩
    have hlt := BitVec.toInt_lt (x := numBytes)
    rw [hpos, Int.zero_add]
    omega

end Volume

/-! ## Runs -/

/-- In every state that a run from a formatted disk reaches, the owners of the
sectors are apart and the free map has their bits. -/
theorem ownership {d : Disk} {f g h : Fresh} {fs0 fs : FileSystem}
    {requests : List (FileSystem.Request × Fresh)} (hformat : FileSystem.format d f g h = some fs0)
    (hok : Along FileSystem.step Regular fs0 requests)
    (hrun : run FileSystem.step fs0 requests = some fs) : Consistent fs.disk := by
  obtain ⟨fs1, v, hformat1, hv, -⟩ := format_spec d f g h
  obtain rfl := Option.some.inj (hformat.symm.trans hformat1)
  obtain ⟨v', hv'⟩ := run_invariant (I := fun fs => ∃ v : Volume, v.Mounted fs)
    (fun s a s' hs hok hstep => Exists.elim hs fun v hv => Volume.step_keeps hv hok hstep)
    ⟨v, hv⟩ hok hrun
  exact hv'.onDisk.consistent

/-! ## Runs of one call -/

theorem findIndexIn_unused {table : Bytes} {is : List Nat}
    (h : ∀ i ∈ is, Directory.inUse table i = false) (mem : Strings) (key : BitVec 32) :
    Directory.findIndexIn table mem key is = some (-1) := by
  induction is with
  | nil => rfl
  | cons i is ih =>
    rw [Directory.findIndexIn, if_neg (by simp [h i List.mem_cons_self])]
    exact ih fun j hj => h j (List.mem_cons_of_mem i hj)

theorem mem_owned_of_entry {d : Disk} {i : Fin NumDirEntries} {x : Int} (huse : entryInUse d i = true)
    (hmem : x ∈ fileSectors d (entrySector d i)) : x ∈ owned d := by
  refine List.mem_append_right _ (List.mem_flatMap.mpr ⟨i, ?_, hmem⟩)
  exact List.mem_filter.mpr ⟨List.mem_finRange i, huse⟩

/-- A file that has the number -1 for its last data sector. -/
theorem unfound_mem_fileSectors {d : Disk} {q : Nat} (hs : List Nat) (z n : Nat)
    (hlt : ∀ s ∈ q :: hs, s < NumSectors) (hlen : (q :: hs).length ≤ NumSectors)
    (hnext : ∀ i s, (q :: hs)[i]? = some s →
      (FileHeader.decode (d s)).nextFdrSector.toInt = (q :: hs)[i + 1]?.elim (-1) Int.ofNat)
    (hsectors : (FileHeader.decode (d q)).numSectors.toInt = n + 1)
    (hz : (q :: hs)[n / NumDirect]? = some z)
    (hslot : ((FileHeader.decode (d z)).dataSectors
      ⟨n % NumDirect, Nat.mod_lt n (by decide)⟩).toInt = -1) :
    -1 ∈ fileSectors d q := by
  have hfetch : ∀ s ∈ q :: hs, FileHeader.fetchFrom d s = some (.decode (d s)) := by
    intro s hs'
    rw [FileHeader.fetchFrom, readSector_of_lt d (hlt s hs'), Option.map_some]
  have hchain : headerSectors d NumSectors q = (q :: hs).map Int.ofNat :=
    Layout.headerSectors_eq hlt hnext NumSectors (i := 0) (Nat.succ_pos _) (by rwa [Nat.zero_add])
  rw [fileSectors, hchain]
  refine List.mem_append_right _ (List.mem_filterMap.mpr ⟨n, List.mem_range.mpr ?_, ?_⟩)
  · rw [sectorCount, hfetch q List.mem_cons_self]
    show n < (FileHeader.decode (d q)).numSectors.toInt.toNat
    rw [hsectors]
    omega
  · rw [storedSector, List.getElem?_map, hz, Option.map_some, Option.bind_eq_bind, Option.bind_some,
      Int.ofNat_eq_natCast, hfetch z (List.mem_of_getElem? hz), Option.bind_eq_bind, Option.bind_some,
      hslot]

/-- The same of a file that `Allocate` has made, once its headers are on the disk. -/
theorem Chained.unfound_mem {m m' : BitMap} {d d' d2 : Disk} {h : FileHeader}
    {hs data : List Nat} {q n z : Nat} (ha : Chained m d h m' d' hs data)
    (hhs : hs.length = n / NumDirect) (hsectors : h.numSectors.toInt = n + 1)
    (hz : hs[hs.length - 1]? = some z)
    (hlast : ((FileHeader.decode (d' z)).dataSectors
      ⟨n % NumDirect, Nat.mod_lt n (by decide)⟩).toInt = -1)
    (hlarge : NumDirect < n) (hlt : ∀ s ∈ q :: hs, s < NumSectors)
    (hlen : (q :: hs).length ≤ NumSectors) (hdq : d2 q = h.encode)
    (hds : ∀ s ∈ hs, d2 s = d' s) : -1 ∈ fileSectors d2 q := by
  refine unfound_mem_fileSectors hs z n hlt hlen (fun i s hi => ?_) ?_ ?_ ?_
  · cases i with
    | zero =>
      obtain rfl := Option.some.inj hi
      rw [hdq, FileHeader.decode_encode]
      exact ha.firstNext
    | succ i =>
      rw [hds s (List.mem_of_getElem? hi)]
      exact (ha.chain i s hi).2
  · rw [hdq, FileHeader.decode_encode, hsectors]
  · have hpos : n / NumDirect ≠ 0 := Nat.div_ne_zero_iff.mpr ⟨by decide, hlarge.le⟩
    rw [List.getElem?_cons, if_neg hpos, ← hhs]
    exact hz
  · rw [hds z (List.mem_of_getElem? hz), hlast]

namespace Volume

variable {v : Volume} {fs : FileSystem}

/-- The new entry on the disk. -/
theorem entry_of_bytes {d : Disk} {table : Bytes} {key sector : BitVec 32} (i : Fin NumDirEntries)
    (hd : v.directory.OnDisk d) (hbyte : ∀ x, x < DirectoryFileSize →
      v.directory.byte d x = Directory.setEntry table i key sector x) :
    entryInUse d i = true ∧ entrySector d i = sector.toInt := by
  have hread : ∀ x, x < DirectoryFileSize →
      fileByte d DirectorySector x = Directory.setEntry table i key sector x := by
    intro x hx
    rw [Layout.fileByte_eq hd v.directory_headers (by rwa [v.directory_length]), hbyte x hx]
  obtain ⟨huse, hsector, -⟩ := Directory.entry_congr hread i.isLt
  obtain ⟨huse', hsector', -⟩ := Directory.setEntry_self table i key sector
  exact ⟨huse.trans huse', by rw [entrySector, hsector, hsector']⟩

/-- The directory of a volume without entries. -/
theorem fetchDirectory_blank (hv : v.Mounted fs) (hentry : ∀ i, v.entry i = none) (f : Fresh) :
    ∃ dir, fs.fetchDirectory f = some dir ∧
      (∀ mem name, dir.findIndex mem name = some (-1)) ∧
      (List.range dir.tableSize).find? (fun i => !Directory.inUse dir.table i) = some 0 ∧
      ∀ i, i < NumDirEntries → Directory.inUse dir.table i = false := by
  obtain ⟨dir, hfetch, hsize, hbyte⟩ := fetchDirectory_spec hv f
  have hunused : ∀ i, i < NumDirEntries → Directory.inUse dir.table i = false := by
    intro i hi
    rw [(Directory.entry_congr hbyte hi).1]
    exact (hv.onDisk.inUse ⟨i, hi⟩).trans (by rw [hentry]; rfl)
  refine ⟨dir, hfetch, fun mem name => findIndexIn_unused (fun i hi => hunused i ?_) mem name, ?_,
    hunused⟩
  · rwa [hsize, List.mem_range] at hi
  · rw [hsize, NumDirEntries, List.range_succ_eq_map, List.find?_cons, hunused 0 (by decide)]
    rfl

/-- A `Create` that takes the last free sector before it has the last data sector
returns `TRUE`, and the file has the sector -1. -/
theorem create_short (hv : v.Mounted fs) (hentry : ∀ i, v.entry i = none) (mem : Strings)
    (f : Fresh) (name : BitVec 32) {n : Nat} (hlarge : NumDirect < n) (hmod : n % NumDirect ≠ 0)
    (hclear : clearBits fs.disk = n + (n - 1) / NumDirect + 1) :
    ∃ fs', fs.create mem f name (SectorSize * (n + 1) : Nat) = some (true, fs') ∧
      -1 ∈ owned fs'.disk := by
  obtain ⟨dir', hfetch', hindex, hslot, -⟩ := fetchDirectory_blank hv hentry f
  obtain ⟨dir, hfetch, hdirSize, hdir⟩ := fetchDirectory_spec hv f
  obtain rfl := Option.some.inj (hfetch.symm.trans hfetch')
  obtain ⟨m, hmapFetch, hmap, hbits, hcount⟩ := fetchFreeMap_spec hv f
  obtain ⟨q, hq, hqlt, hqclear⟩ := BitMap.find_of_clear (m := m)
    (by rw [hcount, hclear]; exact Nat.succ_pos _)
  have hp := Prepared.of_slot hfetch (hindex mem name) hslot hmapFetch hq ⟨hqlt, hqclear⟩
  have hcount1 := BitMap.numClear_setBit hqlt hqclear
  rw [hcount, hclear, Nat.succ_inj] at hcount1
  obtain ⟨h, m', d', hs, data, z, halloc, ha, hhs, hsectors, hz, hlast⟩ := FileHeader.allocate_short
    (h := f.header) (d := fs.disk) (m := m.setBit q) hmap.le hlarge hmod hcount1 f.newHdr
    f.curSector f.time
  rw [hmap] at hqlt
  obtain ⟨hnew, hfresh⟩ := taken_fresh hmap hbits hqlt hqclear ha.taken
  have hsame : ∀ s, v.Has s → s ≠ q ∧ d' s = fs.disk s := by
    intro s hs'
    have hout : s ∉ q :: (hs ++ data) := fun hmem => (hfresh s hmem).2 hs'
    rw [List.mem_cons, List.mem_append, not_or, not_or] at hout
    exact ⟨hout.1, ha.same s hout.2.1⟩
  obtain ⟨d2, hcommit, hrest, hbyte, -⟩ := commit_spec hv hqlt (hfresh q List.mem_cons_self).2
    (fun s hs' => (hsame s (has_of_headers hs')).2)
    { dir with table := Directory.setEntry dir.table 0 name (BitVec.ofInt 32 q) } hdirSize
    (ha.taken.numBits.trans hmap) f h
  have hheaders : ∀ s ∈ q :: hs, d2 s = update d' q h.encode s := by
    intro s hs'
    have hmem : s ∈ q :: (hs ++ data) := List.mem_append_left data hs'
    exact hrest s (fun h => (hfresh s hmem).2 ⟨.directory, _, rfl, List.mem_append_right _ h⟩)
      fun h => (hfresh s hmem).2 ⟨.freeMap, _, rfl, List.mem_append_right _ h⟩
  have hd2 : v.directory.OnDisk d2 := by
    refine (hv.onDisk.files .directory _ rfl).congr fun s hs' => ?_
    obtain ⟨hs1, hs2⟩ := header_not_meta (v := v) (k := .directory) rfl hs'
    obtain ⟨hne, heq⟩ := hsame s ⟨.directory, _, rfl, List.mem_append_left _ hs'⟩
    rw [hrest s hs1 hs2, update_of_ne hne, heq]
  obtain ⟨huse, hsector⟩ := entry_of_bytes ⟨0, by decide⟩ hd2 hbyte
  refine ⟨{ fs with disk := d2 }, ?_, mem_owned_of_entry huse ?_⟩
  · exact hp.create_true halloc hcommit
  · show -1 ∈ fileSectors d2 (entrySector d2 ⟨0, _⟩)
    rw [hsector, Building.toInt_ofInt_sector hqlt]
    have hdq : d2 q = h.encode := (hheaders q List.mem_cons_self).trans (update_self q _ _)
    have hds : ∀ s ∈ hs, d2 s = d' s := by
      intro s hs'
      have hne : s ≠ q := by
        rintro rfl
        exact hnew (List.mem_append_left _ hs')
      rw [hheaders s (List.mem_cons_of_mem q hs'), update_of_ne hne]
    refine ha.unfound_mem hhs hsectors hz hlast hlarge (fun s hs' => ?_) ?_ hdq hds
    · exact (hfresh s (List.mem_append_left data hs')).1
    · have hle := (m.setBit q).numClear_le
      rw [hcount1, BitMap.numBits_setBit, hmap, numDirect_eq] at hle
      rw [List.length_cons, hhs, numDirect_eq]
      rw [numDirect_eq] at hlarge
      omega

end Volume

/-- Memory that is filled with zeros. -/
def zeroFresh : Fresh where
  buffer _ := 0
  words _ := 0
  table _ := 0
  header := .decode fun _ => 0
  newHdr _ := .decode fun _ => 0
  curSector := 0
  time := 0

/-- The first file on a formatted disk. -/
theorem exists_created (mem : Strings) (name : BitVec 32) (size : Nat)
    (hfits : needed size ≤ 1014) (hdirect : dataSectors size ≠ NumDirect) :
    ∃ (fs0 fs1 : FileSystem) (v0 v : Volume) (table : Bytes) (q : Nat),
      FileSystem.format (fun _ _ => 0) zeroFresh zeroFresh zeroFresh = some fs0 ∧
      v0.Mounted fs0 ∧ needed size ≤ clearBits fs0.disk ∧
      fs0.create mem zeroFresh name size = some (true, fs1) ∧ v.Mounted fs1 ∧ q < NumSectors ∧
      (∀ x, x < DirectoryFileSize → v.directory.byte fs1.disk x =
        Directory.setEntry table 0 name (BitVec.ofInt 32 q) x) ∧
      ∀ i, i < NumDirEntries → Directory.inUse table i = false := by
  obtain ⟨fs0, v, hformat, hv, hentry, hclear, -⟩ :=
    format_spec (fun _ _ => 0) zeroFresh zeroFresh zeroFresh
  obtain ⟨dir, hfetch, hindex, hslot, hunused⟩ := Volume.fetchDirectory_blank hv hentry zeroFresh
  have hspace : needed size ≤ clearBits fs0.disk := hclear ▸ hfits
  obtain ⟨fs1, v1, q, hcreate, hv1, -, hq, hbyte⟩ := Volume.create_of_space hv mem zeroFresh name
    hspace hdirect hfetch (hindex _ _) hslot
  exact ⟨fs0, fs1, v, v1, dir.table, q, hformat, hv, hspace, hcreate, hv1, hq, hbyte, hunused⟩

/-- A file is created on a formatted disk. -/
theorem ownership_one_file :
    ∃ fs0 fs, FileSystem.format (fun _ _ => 0) zeroFresh zeroFresh zeroFresh = some fs0 ∧
      Along FileSystem.step Regular fs0 [(.create (fun _ => some "a") 1 5000, zeroFresh)] ∧
      run FileSystem.step fs0 [(.create (fun _ => some "a") 1 5000, zeroFresh)] = some fs ∧
      Consistent fs.disk := by
  obtain ⟨fs0, fs, _, _, _, _, hformat, -, hspace, hcreate, -⟩ :=
    exists_created (fun _ => some "a") 1 5000 (by decide) (by decide)
  have hstep : fs0.step (.create (fun _ => some "a") 1 5000, zeroFresh) = some fs :=
    congrArg (Option.map Prod.snd) hcreate
  have hok : Along FileSystem.step Regular fs0 [(.create (fun _ => some "a") 1 5000, zeroFresh)] :=
    (along_cons hstep).mpr ⟨⟨by decide, by decide, .inr hspace⟩, trivial⟩
  have hrun : run FileSystem.step fs0 [(.create (fun _ => some "a") 1 5000, zeroFresh)] = some fs :=
    run_cons_eq_some.mpr ⟨fs, hstep, rfl⟩
  exact ⟨fs0, fs, hformat, hok, hrun, ownership hformat hok hrun⟩

/-- On a formatted disk, 1014 sectors are free.  A file of 977 data sectors needs
one header and 37 further headers, 1015 sectors in all: it is created, and its last
data sector is number -1. -/
theorem create_without_space :
    ∃ fs0 fs, FileSystem.format (fun _ _ => 0) zeroFresh zeroFresh zeroFresh = some fs0 ∧
      run FileSystem.step fs0 [(.create (fun _ => some "a") 1 125056, zeroFresh)] = some fs ∧
      -1 ∈ owned fs.disk ∧ ¬ Consistent fs.disk := by
  obtain ⟨fs0, v, hformat, hv, hentry, hclear, -⟩ :=
    format_spec (fun _ _ => 0) zeroFresh zeroFresh zeroFresh
  obtain ⟨fs, hcreate, hmem⟩ := Volume.create_short hv hentry (fun _ => some "a") zeroFresh 1
    (n := 976) (by decide) (by decide) hclear
  have hstep : fs0.step (.create (fun _ => some "a") 1 125056, zeroFresh) = some fs :=
    congrArg (Option.map Prod.snd) hcreate
  refine ⟨fs0, fs, hformat, run_cons_eq_some.mpr ⟨fs, hstep, rfl⟩, hmem, fun hcons => ?_⟩
  exact absurd (hcons.range (-1) hmem).1 (by decide)

end Nachos.Filesys

import Nachos.Filesys.FileSystem
import Nachos.Filesys.Requests

/-!
# Who owns the sectors of the disk

`owned` reads the owners of the sectors off the disk: the three fixed headers and
the entries of the directory that are in use lead to the first headers, the
chains lead to the other ones, and the headers have the data sectors.
`Consistent` says that all of them are sectors of the disk, that none is owned
twice, and that the free map has exactly their bits.

A `Volume` is the intended contents of the disk: where the files are.  Its fields
say that they do not overlap.  A disk that has the files of a volume, with the
directory and the free map of the volume, is consistent (`OnDisk.consistent`).
-/

namespace Nachos.Filesys

open Function Lib Machine Userprog

/-! ## Sectors on the disk -/

/-- Byte `x` of the file with its only header in the sector. -/
def fileByte (d : Disk) (sector x : Nat) : Byte :=
  let h := FileHeader.decode (d sector)
  d (h.dataSectors ⟨x / SectorSize % NumDirect, Nat.mod_lt _ (by decide)⟩).toNat (x % SectorSize)

/-- The sectors of the chain of headers that starts in a sector. -/
def headerSectors (d : Disk) : Nat → Int → List Int
  | 0, _ => []
  | fuel + 1, sector => sector ::
      match FileHeader.fetchFrom d sector with
      | none => []
      | some h =>
          if h.nextFdrSector.toInt = -1 then [] else headerSectors d fuel h.nextFdrSector.toInt

/-- The data sector number `k` that the chain of headers has. -/
def storedSector (d : Disk) (headers : List Int) (k : Nat) : Option Int := do
  let sector ← headers[k / NumDirect]?
  let h ← FileHeader.fetchFrom d sector
  some (h.dataSectors ⟨k % NumDirect, mod_numDirect_lt k⟩).toInt

/-- The number of data sectors in the header. -/
def sectorCount (d : Disk) (sector : Int) : Nat :=
  match FileHeader.fetchFrom d sector with
  | none => 0
  | some h => h.numSectors.toInt.toNat

/-- The sectors of the file with the first header in the sector.  A chain of
more than `NumSectors` headers has one of them twice. -/
def fileSectors (d : Disk) (sector : Int) : List Int :=
  let headers := headerSectors d NumSectors sector
  headers ++ (List.range (sectorCount d sector)).filterMap (storedSector d headers)

/-- The entry of the directory on disk is in use. -/
def entryInUse (d : Disk) (i : Fin NumDirEntries) : Bool :=
  Directory.inUse (fileByte d DirectorySector) i

/-- The sector in the entry of the directory on disk. -/
def entrySector (d : Disk) (i : Fin NumDirEntries) : Int :=
  (Directory.sector (fileByte d DirectorySector) i).toInt

/-- The bit of the sector in the free map on disk. -/
def freeMapBit (d : Disk) (s : Nat) : Bool := BitMap.bitOf (fileByte d FreeMapSector) s

/-- The sectors of all files. -/
def owned (d : Disk) : List Int :=
  [FreeMapSector, DirectorySector, PipeSector].flatMap (fun s : Nat => fileSectors d s) ++
    ((List.finRange NumDirEntries).filter (entryInUse d)).flatMap fun i =>
      fileSectors d (entrySector d i)

/-- The owners of the sectors and the free map agree. -/
structure Consistent (d : Disk) : Prop where
  range : ∀ s ∈ owned d, 0 ≤ s ∧ s < NumSectors
  nodup : (owned d).Nodup
  freeMap : ∀ s : Nat, s < NumSectors → (freeMapBit d s = true ↔ (s : Int) ∈ owned d)

/-! ## Volumes -/

/-- The files of a file system. -/
inductive FileId where
  | freeMap
  | directory
  | pipe
  | entry (i : Fin NumDirEntries)
deriving DecidableEq

/-- The places of the files, by their names. -/
def placeOf (freeMap directory pipe : Layout) (entry : Fin NumDirEntries → Option Layout) :
    FileId → Option Layout
  | .freeMap => some freeMap
  | .directory => some directory
  | .pipe => some pipe
  | .entry i => entry i

/-- Files that do not overlap. -/
structure Volume where
  freeMap : Layout
  directory : Layout
  pipe : Layout
  entry : Fin NumDirEntries → Option Layout
  freeMap_headers : freeMap.headers = [FreeMapSector]
  freeMap_length : freeMap.length = FreeMapFileSize
  directory_headers : directory.headers = [DirectorySector]
  directory_length : directory.length = DirectoryFileSize
  pipe_headers : pipe.headers = [PipeSector]
  apart : ∀ j k L M, j ≠ k → placeOf freeMap directory pipe entry j = some L →
    placeOf freeMap directory pipe entry k = some M → L.sectors.Disjoint M.sectors

namespace Volume

/-- The place of a file. -/
def file (v : Volume) : FileId → Option Layout := placeOf v.freeMap v.directory v.pipe v.entry

/-- A sector of one of the files. -/
def Has (v : Volume) (s : Nat) : Prop := ∃ k L, v.file k = some L ∧ s ∈ L.sectors

/-- The disk has the files, the directory and the free map of the volume. -/
structure OnDisk (v : Volume) (d : Disk) : Prop where
  files : ∀ k L, v.file k = some L → L.OnDisk d
  bits : ∀ s, s < NumSectors → (BitMap.bitOf (v.freeMap.byte d) s = true ↔ v.Has s)
  inUse : ∀ i : Fin NumDirEntries,
    Directory.inUse (v.directory.byte d) i = (v.entry i).isSome
  sector : ∀ (i : Fin NumDirEntries) L, v.entry i = some L →
    (Directory.sector (v.directory.byte d) i).toInt = L.header

variable {v : Volume} {d : Disk} {L M : Layout} {j k : FileId} {s : Nat}

theorem disjoint (hne : j ≠ k) (hL : v.file j = some L) (hM : v.file k = some M) :
    L.sectors.Disjoint M.sectors :=
  v.apart j k L M hne hL hM

end Volume

/-! ## The sectors of a file with a layout -/

namespace Layout

variable {L : Layout} {d : Disk} {s i n : Nat}

theorem toNat_of_toInt {w : BitVec 32} (h : w.toInt = s) : w.toNat = s := by
  have hlt := w.isLt
  rw [BitVec.toInt_eq_toNat_cond] at h
  split at h <;> omega

theorem fileByte_eq (hd : L.OnDisk d) (hhdr : L.headers = [s]) {x : Nat} (hx : x < L.length) :
    fileByte d s x = L.byte d x := by
  have hs : L.header = s := by simp [header, hhdr]
  have hdata := sector_of_lt hx
  have hsec := List.getElem?_eq_getElem hdata
  generalize L.data[x / SectorSize] = q at hsec
  have hfits := L.fits
  rw [hhdr, List.length_singleton, Nat.mul_one] at hfits
  have hlt : x / SectorSize < NumDirect := lt_of_lt_of_le hdata hfits
  have hstored := hd.head.sectors ⟨x / SectorSize, hlt⟩ q (by rwa [Nat.mul_zero, Nat.zero_add])
  rw [hs] at hstored
  rw [byte_eq hsec, fileByte]
  simp only [Nat.mod_eq_of_lt hlt]
  rw [toNat_of_toInt hstored]

/-- The chain of headers is found. -/
theorem headerSectors_eq {hs : List Nat} (hlt : ∀ s ∈ hs, s < NumSectors)
    (hnext : ∀ i s, hs[i]? = some s →
      (FileHeader.decode (d s)).nextFdrSector.toInt = hs[i + 1]?.elim (-1) Int.ofNat)
    (fuel : Nat) (hi : i < hs.length) (hfuel : hs.length ≤ i + fuel) :
    headerSectors d fuel hs[i] = (hs.drop i).map Int.ofNat := by
  induction fuel generalizing i with
  | zero => omega
  | succ fuel ih =>
    have hfetch : FileHeader.fetchFrom d hs[i] = some (.decode (d hs[i])) := by
      rw [FileHeader.fetchFrom, readSector_of_lt d (hlt _ (List.getElem_mem hi)), Option.map_some]
    rw [headerSectors, hfetch, List.drop_eq_getElem_cons hi, List.map_cons]
    simp only [hnext i _ (List.getElem?_eq_getElem hi)]
    by_cases hlast : i + 1 < hs.length
    · have hsome := List.getElem?_eq_getElem hlast
      rw [hsome, Option.elim_some, Int.ofNat_eq_natCast, if_neg (by omega), ih hlast (by omega)]
      rfl
    · rw [List.getElem?_eq_none (by omega), Option.elim_none, if_pos rfl,
        List.drop_eq_nil_of_le (by omega)]
      rfl

theorem headers_length_le (L : Layout) : L.headers.length ≤ NumSectors := by
  have hle := L.length_sectors_le
  rw [sectors, List.length_append] at hle
  exact le_trans (Nat.le_add_right _ _) hle

theorem storedSector_eq (hd : L.OnDisk d) (hn : n < L.data.length) :
    storedSector d (L.headers.map Int.ofNat) n = some (L.data[n] : Int) := by
  have hi : n / NumDirect < L.headers.length := Nat.div_lt_of_lt_mul (lt_of_lt_of_le hn L.fits)
  have hshow := hd.chain _ _ (List.getElem?_eq_getElem hi)
  have hslot := hshow.sectors ⟨n % NumDirect, Nat.mod_lt n (by decide)⟩ L.data[n]
    (by rw [Nat.div_add_mod]; exact List.getElem?_eq_getElem hn)
  rw [storedSector, List.getElem?_map, List.getElem?_eq_getElem hi]
  simp only [Option.map_some, Option.bind_eq_bind, Option.bind_some, FileHeader.fetchFrom,
    Int.ofNat_eq_natCast, readSector_of_lt d (header_lt (List.getElem_mem hi))]
  rw [hslot]

/-- The owned sectors of a file are those of its layout. -/
theorem fileSectors_eq (hd : L.OnDisk d) :
    fileSectors d L.header = L.sectors.map Int.ofNat := by
  have hpos : 0 < L.headers.length := List.length_pos_of_ne_nil L.headers_ne
  have hhead : L.header = L.headers[0] := List.head_eq_getElem _
  have hchain := headerSectors_eq (fun s => header_lt) (fun i s hs => (hd.chain i s hs).next)
    NumSectors hpos (by simpa using L.headers_length_le)
  have hcount : sectorCount d L.header = L.data.length := by
    rw [sectorCount, FileHeader.fetchFrom, readSector_of_lt d (header_lt L.header_mem)]
    simp only [Option.map_some]
    rw [hd.head.numSectors, Int.toNat_natCast]
  have hdata : (List.range L.data.length).filterMap (storedSector d (L.headers.map Int.ofNat)) =
      L.data.map Int.ofNat := by
    have hget : ∀ k ∈ List.range L.data.length, storedSector d (L.headers.map Int.ofNat) k =
        some (Int.ofNat (L.data.getD k 0)) := by
      intro k hk
      have hlt := List.mem_range.mp hk
      rw [storedSector_eq hd hlt]
      simp [hlt]
    rw [List.filterMap_congr hget]
    apply List.ext_getElem
    · simp
    · intro k hk hk'
      simp only [List.length_map] at hk'
      simp [hk']
  rw [← hhead, List.drop_zero] at hchain
  rw [fileSectors, hchain, hcount, hdata, sectors, List.map_append]

end Layout

/-! ## A disk with a volume is consistent -/

namespace Volume

variable {v : Volume} {d : Disk} {L M : Layout} {j k : FileId} {s : Nat}

theorem fileByte_freeMap (hd : v.OnDisk d) {x : Nat} (hx : x < FreeMapFileSize) :
    fileByte d FreeMapSector x = v.freeMap.byte d x :=
  Layout.fileByte_eq (hd.files .freeMap _ rfl) v.freeMap_headers (by rwa [v.freeMap_length])

theorem fileByte_directory (hd : v.OnDisk d) {x : Nat} (hx : x < DirectoryFileSize) :
    fileByte d DirectorySector x = v.directory.byte d x :=
  Layout.fileByte_eq (hd.files .directory _ rfl) v.directory_headers
    (by rwa [v.directory_length])

theorem entryInUse_eq (hd : v.OnDisk d) (i : Fin NumDirEntries) :
    entryInUse d i = (v.entry i).isSome := by
  rw [← hd.inUse i]
  exact (Directory.entry_congr (fun x hx => fileByte_directory hd hx) i.isLt).1

theorem entrySector_eq (hd : v.OnDisk d) {i : Fin NumDirEntries} (hL : v.entry i = some L) :
    entrySector d i = L.header := by
  rw [← hd.sector i L hL, entrySector,
    (Directory.entry_congr (fun x hx => fileByte_directory hd hx) i.isLt).2.1]

theorem freeMapBit_eq (hd : v.OnDisk d) (hs : s < NumSectors) :
    freeMapBit d s = true ↔ v.Has s := by
  have hx : s / BitsInByte < FreeMapFileSize := Nat.div_lt_div_of_lt_of_dvd (by decide) hs
  rw [← hd.bits s hs, freeMapBit, BitMap.bitOf, BitMap.bitOf, fileByte_freeMap hd hx]

/-- The names of all files. -/
def ids : List FileId := [.freeMap, .directory, .pipe] ++ (List.finRange NumDirEntries).map .entry

theorem mem_ids (k : FileId) : k ∈ ids := by
  cases k <;> simp [ids]

theorem nodup_ids : ids.Nodup := by
  decide

theorem owned_entries (hd : v.OnDisk d) (l : List (Fin NumDirEntries)) :
    (l.filter (entryInUse d)).flatMap (fun i => fileSectors d (entrySector d i)) =
      (l.filterMap v.entry).flatMap fun L => L.sectors.map Int.ofNat := by
  induction l with
  | nil => rfl
  | cons i l ih =>
    cases hL : v.entry i with
    | none =>
      have hfree : ¬ entryInUse d i = true := by simp [entryInUse_eq hd, hL]
      rw [List.filter_cons_of_neg hfree, List.filterMap_cons_none hL, ih]
    | some L =>
      have huse : entryInUse d i = true := by simp [entryInUse_eq hd, hL]
      rw [List.filter_cons_of_pos huse, List.filterMap_cons_some hL, List.flatMap_cons,
        List.flatMap_cons, ih, entrySector_eq hd hL, Layout.fileSectors_eq (hd.files (.entry i) L hL)]

/-- The owned sectors are those of the files of the volume. -/
theorem owned_eq (hd : v.OnDisk d) :
    owned d = (ids.filterMap v.file).flatMap fun L => L.sectors.map Int.ofNat := by
  have hmap : fileSectors d FreeMapSector = v.freeMap.sectors.map Int.ofNat := by
    rw [← Layout.fileSectors_eq (hd.files .freeMap _ rfl), Layout.header]
    simp [v.freeMap_headers]
  have hdir : fileSectors d DirectorySector = v.directory.sectors.map Int.ofNat := by
    rw [← Layout.fileSectors_eq (hd.files .directory _ rfl), Layout.header]
    simp [v.directory_headers]
  have hpipe : fileSectors d PipeSector = v.pipe.sectors.map Int.ofNat := by
    rw [← Layout.fileSectors_eq (hd.files .pipe _ rfl), Layout.header]
    simp [v.pipe_headers]
  have hids : ids.filterMap v.file =
      [v.freeMap, v.directory, v.pipe] ++ (List.finRange NumDirEntries).filterMap v.entry := by
    rw [ids, List.filterMap_append, List.filterMap_map]
    rfl
  rw [owned, owned_entries hd, hids, List.flatMap_append]
  simp only [List.flatMap_cons, hmap, hdir, hpipe, List.flatMap_nil]

/-- No sector is owned twice. -/
theorem nodup_owned (hd : v.OnDisk d) : (owned d).Nodup := by
  rw [owned_eq hd, List.nodup_flatMap]
  constructor
  · intro L _
    exact L.nodup.map Int.ofNat_injective
  · rw [List.pairwise_filterMap]
    refine nodup_ids.imp fun {j k} hne L hL M hM => ?_
    exact List.disjoint_map Int.ofNat_injective (disjoint hne hL hM)

/-- A disk with a volume is consistent. -/
theorem OnDisk.consistent (hd : v.OnDisk d) : Consistent d := by
  have hmem : ∀ x : Int, x ∈ owned d ↔ ∃ s : Nat, v.Has s ∧ (s : Int) = x := by
    intro x
    simp only [owned_eq hd, List.mem_flatMap, List.mem_filterMap, List.mem_map]
    constructor
    · rintro ⟨L, ⟨k, -, hL⟩, s, hs, rfl⟩
      exact ⟨s, ⟨k, L, hL, hs⟩, rfl⟩
    · rintro ⟨s, ⟨k, L, hL, hs⟩, rfl⟩
      exact ⟨L, ⟨k, mem_ids k, hL⟩, s, hs, rfl⟩
  refine ⟨fun x hx => ?_, nodup_owned hd, fun s hs => ?_⟩
  · obtain ⟨s, ⟨k, L, hL, hs⟩, rfl⟩ := (hmem x).mp hx
    exact ⟨Int.natCast_nonneg s, Int.ofNat_lt.mpr (L.sector_lt s hs)⟩
  · rw [freeMapBit_eq hd hs, hmem]
    constructor
    · intro h
      exact ⟨s, h, rfl⟩
    · rintro ⟨s', h, hs'⟩
      rwa [← Int.ofNat_inj.mp hs']

end Volume

end Nachos.Filesys

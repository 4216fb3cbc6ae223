import Mathlib.Data.List.Perm.Subperm
import Nachos.Filesys.OpenFile

/-!
# Files on the disk

A `Layout` says where a file is: its length, the sectors of its chain of
headers, and its data sectors.  All of them are sectors of the disk, and none
occurs twice.  `OnDisk` says that the disk has the headers of the layout, and
`byte` reads a byte of the file directly from its data sector.

The lemmas say what the operations on open files do to the bytes of a file with
a layout: `byteToSector_spec` for the chain of headers, and `readSectors_spec`
and `writeSectors_spec` for the loops over sectors.
-/

namespace Nachos.Filesys

open Function Lib Machine

/-! ## Layouts -/

/-- Where a file is on the disk. -/
structure Layout where
  length : Nat
  headers : List Nat
  data : List Nat
  headers_ne : headers ≠ []
  data_length : data.length = (length + (SectorSize - 1)) / SectorSize
  fits : data.length ≤ NumDirect * headers.length
  sector_lt : ∀ s ∈ headers ++ data, s < NumSectors
  nodup : (headers ++ data).Nodup

namespace Layout

/-- All the sectors of the file. -/
def sectors (L : Layout) : List Nat := L.headers ++ L.data

/-- The header is number `i` in the chain. -/
structure Shows (L : Layout) (i : Nat) (h : FileHeader) : Prop where
  next : h.nextFdrSector.toInt = (L.headers[i + 1]?).elim (-1) Int.ofNat
  sectors : ∀ j s, L.data[NumDirect * i + j.val]? = some s → (h.dataSectors j).toInt = s

/-- The header is the first one. -/
structure Heads (L : Layout) (h : FileHeader) : Prop extends L.Shows 0 h where
  numBytes : h.numBytes.toInt = L.length
  numSectors : h.numSectors.toInt = L.data.length

/-- The sector of the first header. -/
def header (L : Layout) : Nat := L.headers.head L.headers_ne

/-- The disk has the headers of the file. -/
structure OnDisk (L : Layout) (d : Disk) : Prop where
  chain : ∀ i s, L.headers[i]? = some s → L.Shows i (.decode (d s))
  head : L.Heads (.decode (d L.header))

/-- A byte of the file. -/
def byte (L : Layout) (d : Disk) (x : Nat) : Byte :=
  d (L.data[x / SectorSize]?.getD 0) (x % SectorSize)

variable {L : Layout} {d d' : Disk} {h : FileHeader} {s i n : Nat}

theorem data_lt (hs : s ∈ L.data) : s < NumSectors :=
  L.sector_lt s (List.mem_append_right _ hs)

theorem header_lt (hs : s ∈ L.headers) : s < NumSectors :=
  L.sector_lt s (List.mem_append_left _ hs)

theorem header_mem (L : Layout) : L.header ∈ L.headers := List.head_mem L.headers_ne

theorem getElem?_header (hs : L.headers[i]? = some L.header) : i = 0 := by
  have h0 : L.headers[0]? = some L.header := by
    rw [← List.head?_eq_getElem?, List.head?_eq_some_head L.headers_ne]
    rfl
  exact (List.getElem?_inj (List.getElem?_eq_some_iff.mp hs).1
    (List.nodup_append.mp L.nodup).1).mp (hs.trans h0.symm)

theorem header_not_data (hs : s ∈ L.headers) : s ∉ L.data :=
  fun hd => (List.nodup_append.mp L.nodup).2.2 s hs s hd rfl

theorem data_nodup (L : Layout) : L.data.Nodup := (List.nodup_append.mp L.nodup).2.1

/-- A file has at most as many sectors as the disk. -/
theorem length_sectors_le (L : Layout) : L.sectors.length ≤ NumSectors := by
  have hsub : L.sectors ⊆ List.range NumSectors := fun s hs =>
    List.mem_range.mpr (L.sector_lt s hs)
  have hle := (List.Nodup.subperm L.nodup hsub).length_le
  rwa [List.length_range] at hle

theorem length_data_le (L : Layout) : L.data.length ≤ NumSectors := by
  have hle := L.length_sectors_le
  rw [sectors, List.length_append] at hle
  exact le_trans (Nat.le_add_left _ _) hle

theorem length_le (L : Layout) : L.length ≤ NumSectors * SectorSize := by
  have hle := L.length_data_le
  have hdata := L.data_length
  simp only [NumSectors, SectorsPerTrack, NumTracks, SectorSize] at *
  omega

/-- A byte before the end is in a data sector. -/
theorem sector_of_lt {x : Nat} (hx : x < L.length) : x / SectorSize < L.data.length := by
  rw [L.data_length]
  simp only [SectorSize]
  omega

theorem OnDisk.congr (hd : L.OnDisk d) (heq : ∀ s ∈ L.headers, d' s = d s) : L.OnDisk d' where
  chain i s hs := by
    rw [heq s (List.mem_of_getElem? hs)]
    exact hd.chain i s hs
  head := by
    rw [heq L.header L.header_mem]
    exact hd.head

/-- A first header with the same length and sectors is written back. -/
theorem OnDisk.writeHeader (hd : L.OnDisk d) (hh : L.Heads h) :
    L.OnDisk (update d L.header h.encode) where
  chain i s hs := by
    by_cases hi : s = L.header
    · obtain rfl := getElem?_header (hi ▸ hs)
      rw [hi, update_self, FileHeader.decode_encode]
      exact hh.toShows
    · rw [update_of_ne hi]
      exact hd.chain i s hs
  head := by
    rw [update_self, FileHeader.decode_encode]
    exact hh

/-- A file with one header. -/
theorem onDisk_of_head (hone : L.headers.length = 1) (hh : L.Heads (.decode (d L.header))) :
    L.OnDisk d where
  chain i s hs := by
    have hi : i = 0 := by
      have := (List.getElem?_eq_some_iff.mp hs).1
      omega
    subst hi
    have hs' : s = L.header := by
      rw [← List.head?_eq_getElem?, List.head?_eq_some_head L.headers_ne] at hs
      exact (Option.some.inj hs).symm
    rw [hs']
    exact hh.toShows
  head := hh

theorem byte_eq {x : Nat} (hs : L.data[x / SectorSize]? = some s) :
    L.byte d x = d s (x % SectorSize) := by
  rw [byte, hs, Option.getD_some]

theorem byte_congr (heq : ∀ s ∈ L.data, d' s = d s) {x : Nat}
    (hx : x / SectorSize < L.data.length) : L.byte d' x = L.byte d x := by
  have hs := List.getElem?_eq_getElem hx
  rw [byte_eq hs, byte_eq hs, heq _ (List.getElem_mem hx)]

/-! ## The chain of headers -/

/-- The next header is fetched. -/
theorem fetch_next (hh : L.Shows i h) (hi : i + 1 < L.headers.length) :
    FileHeader.fetchFrom d h.nextFdrSector.toInt = some (.decode (d L.headers[i + 1])) := by
  rw [hh.next, List.getElem?_eq_getElem hi]
  simp only [FileHeader.fetchFrom, Option.elim_some]
  rw [Int.ofNat_eq_natCast, readSector_of_lt d (L.header_lt (List.getElem_mem hi)),
    Option.map_some]

theorem hop_spec (hd : L.OnDisk d) (hh : L.Shows i h) (hn : i + n < L.headers.length) :
    ∃ h', h.hop d n = some h' ∧ L.Shows (i + n) h' := by
  induction n generalizing i h with
  | zero => exact ⟨h, rfl, hh⟩
  | succ n ih =>
    have hi : i + 1 < L.headers.length := by omega
    have hnext : L.headers[i + 1]? = some L.headers[i + 1] := List.getElem?_eq_getElem hi
    obtain ⟨h', hh', hshow⟩ := ih (hd.chain (i + 1) _ hnext) (by omega)
    refine ⟨h', ?_, by rw [show i + (n + 1) = i + 1 + n by omega]; exact hshow⟩
    rw [FileHeader.hop, fetch_next hh hi, Option.bind_some]
    exact hh'

/-- The sectors of the chain are found by the offset. -/
theorem byteToSector_spec (hd : L.OnDisk d) (hh : L.Shows 0 h) (hs : L.data[i]? = some s) :
    h.byteToSector d (BitVec.ofInt 32 (i * SectorSize)) = some (s : Int) := by
  have hi : i < L.data.length := (List.getElem?_eq_some_iff.mp hs).1
  have hoffset : (BitVec.ofInt 32 ((i : Int) * SectorSize)).toNat = i * SectorSize := by
    have hle := L.length_data_le
    rw [BitVec.toNat_ofInt]
    simp only [NumSectors, SectorsPerTrack, NumTracks, SectorSize] at *
    omega
  have hdiv : i * SectorSize / (NumDirect * SectorSize) = i / NumDirect := by
    rw [Nat.mul_div_mul_right _ _ (by decide)]
  have hmod : i * SectorSize % (NumDirect * SectorSize) / SectorSize = i % NumDirect := by
    rw [Nat.mul_mod_mul_right, Nat.mul_div_cancel _ (by decide)]
  have hlt : 0 + i / NumDirect < L.headers.length := by
    rw [Nat.zero_add]
    exact Nat.div_lt_of_lt_mul (lt_of_lt_of_le hi L.fits)
  obtain ⟨h', hh', hshow⟩ := hop_spec hd hh hlt
  rw [FileHeader.byteToSector]
  simp only [hoffset, hdiv, hmod, hh', Option.map_some, Option.some.injEq]
  refine hshow.sectors _ s ?_
  rw [Nat.zero_add, Nat.div_add_mod]
  exact hs

/-! ## The loops over sectors -/

/-- Byte `k` of the file from sector `first` on is in sector `first + n`. -/
theorem byte_in_sector {first k : Nat} (hs : L.data[first + n]? = some s)
    (hlo : n * SectorSize ≤ k) (hhi : k < n * SectorSize + SectorSize) :
    L.byte d (first * SectorSize + k) = d s (k - n * SectorSize) := by
  have hdiv : (first * SectorSize + k) / SectorSize = first + n := by
    simp only [SectorSize] at *
    omega
  have hmod : (first * SectorSize + k) % SectorSize = k - n * SectorSize := by
    simp only [SectorSize] at *
    omega
  rw [byte_eq (hdiv.symm ▸ hs), hmod]

theorem readSectors_spec {first : Nat} (hd : L.OnDisk d) (hh : L.Shows 0 h)
    (hn : first + n ≤ L.data.length) (buf : CharArray) (hsize : n * SectorSize ≤ buf.size) :
    ∃ buf' : CharArray, readSectors d h first buf n = some buf' ∧ buf'.size = buf.size ∧
      ∀ k, buf'.get k =
        if k < n * SectorSize then L.byte d (first * SectorSize + k) else buf.get k := by
  induction n with
  | zero => exact ⟨buf, rfl, rfl, by simp⟩
  | succ n ih =>
    rw [Nat.succ_mul] at hsize
    obtain ⟨buf1, hread, hsize1, hget⟩ := ih (by omega) (by omega)
    have hs := List.getElem?_eq_getElem (l := L.data) (i := first + n) (by omega)
    generalize hsec : L.data[first + n] = s at hs
    have hlt : s < NumSectors := L.data_lt (List.mem_of_getElem? hs)
    have hcopy : readSectors d h first buf (n + 1) =
        buf1.copy (n * SectorSize) ⟨SectorSize, d s⟩ 0 SectorSize := by
      have hbyte := byteToSector_spec hd hh hs
      rw [Nat.cast_add] at hbyte
      simp [readSectors, hread, hbyte, readSector_of_lt d hlt]
    rw [hcopy, CharArray.copy_of_le (by omega) (by simp)]
    refine ⟨_, rfl, hsize1, fun k => ?_⟩
    simp only [Nat.succ_mul, Bytes.copy_apply, Nat.zero_add, hget]
    by_cases hk : n * SectorSize ≤ k ∧ k < n * SectorSize + SectorSize
    · rw [if_pos hk, if_pos hk.2, byte_in_sector hs hk.1 hk.2]
    · rw [if_neg hk]
      by_cases hk' : k < n * SectorSize
      · rw [if_pos hk', if_pos (by omega)]
      · rw [if_neg hk', if_neg (by omega)]

/-- A write to one of the data sectors. -/
theorem byte_update (hs : L.data[i]? = some s) {x : Nat} (hx : x / SectorSize < L.data.length)
    (bytes : Bytes) : L.byte (update d s bytes) x =
      if x / SectorSize = i then bytes (x % SectorSize) else L.byte d x := by
  by_cases hq : x / SectorSize = i
  · rw [if_pos hq, byte_eq (hq ▸ hs), update_self]
  · have hx' := List.getElem?_eq_getElem hx
    obtain ⟨hi, hsi⟩ := List.getElem?_eq_some_iff.mp hs
    have hne : L.data[x / SectorSize] ≠ s := by
      rw [← hsi]
      intro he
      exact hq ((List.Nodup.getElem_inj_iff L.data_nodup).mp he)
    rw [if_neg hq, byte_eq hx', byte_eq hx', update_of_ne hne]

theorem writeSectors_spec {first : Nat} (hd : L.OnDisk d) (hh : L.Shows 0 h)
    (hn : first + n ≤ L.data.length) (buf : CharArray) (hsize : n * SectorSize ≤ buf.size) :
    ∃ d', writeSectors d h first buf n = some d' ∧ (∀ s, s ∉ L.data → d' s = d s) ∧
      ∀ x, x / SectorSize < L.data.length → L.byte d' x =
        if first * SectorSize ≤ x ∧ x < first * SectorSize + n * SectorSize then
          buf.get (x - first * SectorSize)
        else L.byte d x := by
  induction n with
  | zero =>
    refine ⟨d, rfl, fun _ _ => rfl, fun x _ => ?_⟩
    rw [if_neg (by omega)]
  | succ n ih =>
    rw [Nat.succ_mul] at hsize
    obtain ⟨d1, hwrite, hsame, hbytes⟩ := ih (by omega) (by omega)
    have hd1 : L.OnDisk d1 := hd.congr fun s hs => hsame s (header_not_data hs)
    have hlen : first + n < L.data.length := by omega
    have hs := List.getElem?_eq_getElem hlen
    generalize hsec : L.data[first + n] = s at hs
    have hmem : s ∈ L.data := List.mem_of_getElem? hs
    have hcopy : (⟨SectorSize, fun _ => 0⟩ : CharArray).copy 0 buf (n * SectorSize) SectorSize =
        some ⟨SectorSize, Bytes.copy (fun _ => 0) 0 buf.get (n * SectorSize) SectorSize⟩ :=
      CharArray.copy_of_le (by simp) (by omega)
    have hwrite1 : writeSectors d h first buf (n + 1) = writeSector d1 s
        (Bytes.copy (fun _ => 0) 0 buf.get (n * SectorSize) SectorSize) := by
      have hbyte := byteToSector_spec hd1 hh hs
      rw [Nat.cast_add] at hbyte
      simp only [writeSectors, hwrite, hbyte, hcopy, Option.bind_eq_bind, Option.bind_some]
    rw [hwrite1, writeSector_of_lt d1 (L.data_lt hmem)]
    refine ⟨_, rfl, fun s' hs' => ?_, fun x hx => ?_⟩
    · have hne : s' ≠ s := by
        rintro rfl
        exact hs' hmem
      rw [update_of_ne hne, hsame s' hs']
    · rw [byte_update hs hx, hbytes x hx]
      by_cases hq : x / SectorSize = first + n
      · have hpart := Nat.div_add_mod x SectorSize
        have hmod := Nat.mod_lt x (show 0 < SectorSize by decide)
        rw [hq, Nat.mul_add, Nat.mul_comm, Nat.mul_comm SectorSize n] at hpart
        rw [if_pos hq, if_pos (by rw [Nat.succ_mul]; omega), Bytes.copy_apply,
          if_pos (by omega)]
        congr 1
        omega
      · have hout : ¬ (first * SectorSize + n * SectorSize ≤ x ∧
            x < first * SectorSize + n * SectorSize + SectorSize) := by
          simp only [SectorSize] at hq ⊢
          omega
        rw [if_neg hq, Nat.succ_mul]
        by_cases hin : first * SectorSize ≤ x ∧ x < first * SectorSize + n * SectorSize
        · rw [if_pos hin, if_pos (by omega)]
        · rw [if_neg hin, if_neg (by omega)]

end Layout

end Nachos.Filesys

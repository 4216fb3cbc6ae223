import Nachos.Filesys.FlatFile

/-!
# Which requests stay inside the file

`ReadAt` and `WriteAt` take any two numbers of type `int`: `Seek` stores every
position, and the length comes from the program.  `Safe` says what a request on a
well-formed file must do: return 0 at once, or transfer the bytes up to the end of
the file, with every sector index in the file and every index into the buffer inside
it.

The check at the start of both functions is not enough for this.  It compares
`position` with the length of the file, so a negative position passes.  It computes
`position + numBytes`, and when the sum is too large for an `int`, the request is not
cut off.  `safe_iff` says that these are the only two gaps.
-/

namespace Nachos.Filesys

open Lib Machine

/-- The number of bytes that a request should move. -/
def served (L : Layout) (numBytes position : Int) : Int :=
  max 0 (min numBytes (L.length - position))

/-- The sectors and the indices of a transfer are those of a file. -/
structure Transfer.InFile (L : Layout) (numBytes position : Int) (t : Transfer) : Prop where
  positive : 0 < t.numBytes
  exact : t.numBytes = min numBytes (L.length - position)
  reach : position + t.numBytes ≤ L.length
  first : 0 ≤ t.firstSector
  last : t.lastSector < L.data.length
  /-- The request starts in the buffer, and ends in it. -/
  start : 0 ≤ position - t.firstSector * SectorSize
  stop : position - t.firstSector * SectorSize + t.numBytes ≤
    (1 + t.lastSector - t.firstSector) * SectorSize

/-- The request is handled as it should be, for all callers with a buffer that is
large enough. -/
structure Safe (L : Layout) (d : Disk) (h : FileHeader) (numBytes position : Int) : Prop where
  /-- There is nothing to do, or the transfer is in the file. -/
  request : transfer h numBytes position = none ∧ served L numBytes position = 0 ∨
    ∃ t, transfer h numBytes position = some t ∧ t.InFile L numBytes position
  read : ∀ junk into, numBytes ≤ (into.size : Int) → ∃ into',
    readAt d h junk into 0 numBytes position = some (served L numBytes position, into')
  write : ∀ junk source, numBytes ≤ (source.size : Int) → ∃ d',
    writeAt d h junk source numBytes position = some (served L numBytes position, d') ∧
      ∀ s, s ∉ L.data → d' s = d s

namespace Layout

variable {L : Layout} {d : Disk} {h : FileHeader} {numBytes position : Int}

theorem served_empty (hempty : numBytes ≤ 0 ∨ L.length ≤ position) :
    served L numBytes position = 0 := by
  unfold served
  omega

theorem served_natCast (n pos : Nat) (hpos : pos < L.length) :
    served L n pos = L.count pos n := by
  unfold served count
  omega

/-- A request for nothing, or after the end of the file. -/
theorem safe_empty (hh : L.Heads h) (hempty : numBytes ≤ 0 ∨ L.length ≤ position) :
    Safe L d h numBytes position := by
  have hnone := transfer_empty hh hempty
  have hzero := served_empty hempty
  refine ⟨.inl ⟨hnone, hzero⟩, fun junk into _ => ⟨into, ?_⟩, fun junk source _ => ⟨d, ?_, ?_⟩⟩
  · rw [readAt, hnone, hzero]
  · rw [writeAt, hnone, hzero]
  · exact fun s _ => rfl

/-- The transfer of a request that starts in the file. -/
theorem inFile_request {n pos : Nat} (hpos : pos < L.length) (hn : 0 < n) :
    (L.request pos n).InFile L n pos := by
  obtain ⟨hdata, hall, -, hspan⟩ := span_spec (n := n) hpos hn
  have hpositive := count_pos hpos hn
  have hend := add_count_le (n := n) hpos
  have hlast := lastSector_request hpos hn
  have hfirst : (L.request pos n).firstSector = (pos / SectorSize : Nat) := rfl
  have hbytes : (L.request pos n).numBytes = (L.count pos n : Nat) := rfl
  have hcount : (L.count pos n : Int) = min (n : Int) (L.length - pos) := by
    unfold count
    omega
  have hstart : (pos : Int) - (L.request pos n).firstSector * SectorSize =
      (pos % SectorSize : Nat) := start_request
  have hnonneg : 0 ≤ (L.request pos n).firstSector := hfirst ▸ Int.natCast_nonneg _
  refine ⟨by omega, by omega, by omega, hnonneg, by omega, by omega, ?_⟩
  rw [hstart, hlast, hfirst, hbytes]
  simp only [SectorSize] at *
  omega

/-- A request that starts in the file, with its end in the range of `int`. -/
theorem safe_request (hd : L.OnDisk d) (hh : L.Heads h) {n pos : Nat} (hpos : pos < L.length)
    (hn : 0 < n) (hrange : pos + n < 2 ^ 31) : Safe L d h n pos := by
  have hserved := served_natCast n pos hpos
  have hcount : L.count pos n ≤ n := Nat.min_le_left _ _
  refine ⟨.inr ⟨_, transfer_eq hh hpos hn hrange, inFile_request hpos hn⟩, fun junk into hfit => ?_,
    fun junk source hfit => ?_⟩
  · obtain ⟨into', hread, -⟩ := readAt_spec hd hh hpos hn hrange junk into (o := 0) (by omega)
    rw [hserved]
    exact ⟨into', hread⟩
  · obtain ⟨d', hwrite, hsame, -⟩ := writeAt_spec hd hh hpos hn hrange junk source (by omega)
    rw [hserved]
    exact ⟨d', hwrite, hsame⟩

/-- A negative position gives a negative sector, or an index before the buffer. -/
theorem not_inFile_neg {t : Transfer} (hneg : position < 0)
    (ht : transfer h numBytes position = some t) : ¬ t.InFile L numBytes position := by
  intro hin
  have hfirst : t.firstSector = position.tdiv SectorSize := by
    simp only [transfer, Option.ite_none_left_eq_some, Option.some.injEq] at ht
    rw [← ht.2]
  have hnonneg := hin.first
  have hstart := hin.start
  rw [hfirst, tdiv_sectorSize_neg hneg] at hnonneg hstart
  simp only [SectorSize] at *
  omega

/-- A request that ends outside the range of `int` is not cut off. -/
theorem not_inFile_overflow (hh : L.Heads h) {t : Transfer} (hn : InInt numBytes)
    (hp : InInt position) (hend : 2 ^ 31 ≤ position + numBytes)
    (ht : transfer h numBytes position = some t) : ¬ t.InFile L numBytes position := by
  intro hin
  have hle := L.length_le
  have hlen : h.fileLength = L.length := hh.numBytes
  simp only [NumSectors, SectorsPerTrack, NumTracks, SectorSize] at hle
  have hsum : i32 (position + numBytes) = position + numBytes - 2 ^ 32 := by
    have hmax := hn.2
    have hmax' := hp.2
    exact i32_wrap hend (by omega)
  have hcut : ¬ h.fileLength < i32 (position + numBytes) := by
    have hmax := hn.2
    have hmax' := hp.2
    rw [hsum]
    omega
  have hbytes : t.numBytes = numBytes := by
    simp only [transfer, if_neg hcut, Option.ite_none_left_eq_some, Option.some.injEq] at ht
    rw [← ht.2]
  have hreach := hin.reach
  rw [hbytes] at hreach
  omega

/-- The two gaps of the check. -/
theorem not_safe (hh : L.Heads h) (hn : InInt numBytes) (hp : InInt position) (hn0 : 0 < numBytes)
    (hin : position < L.length) (hbad : position < 0 ∨ 2 ^ 31 ≤ position + numBytes) :
    ¬ Safe L d h numBytes position := by
  intro hsafe
  rcases hsafe.request with ⟨-, hzero⟩ | ⟨t, ht, hfile⟩
  · unfold served at hzero
    omega
  · rcases hbad with hneg | hend
    · exact not_inFile_neg hneg ht hfile
    · exact not_inFile_overflow hh hn hp hend ht hfile

end Layout

/-- A request on a well-formed file is safe if and only if it is for nothing, or
after the end of the file, or its position is not negative and its end is in the
range of `int`. -/
theorem safe_iff {L : Layout} {d : Disk} {h : FileHeader} (hd : L.OnDisk d) (hh : L.Heads h)
    {numBytes position : Int} (hn : InInt numBytes) (hp : InInt position) :
    Safe L d h numBytes position ↔
      numBytes ≤ 0 ∨ L.length ≤ position ∨ 0 ≤ position ∧ position + numBytes < 2 ^ 31 := by
  constructor
  · intro hsafe
    by_contra hnot
    exact Layout.not_safe hh hn hp (by omega) (by omega) (by omega) hsafe
  · intro hcond
    by_cases hempty : numBytes ≤ 0 ∨ L.length ≤ position
    · exact Layout.safe_empty hh hempty
    · obtain ⟨n, rfl⟩ := Int.eq_ofNat_of_zero_le (show 0 ≤ numBytes by omega)
      obtain ⟨pos, rfl⟩ := Int.eq_ofNat_of_zero_le (show 0 ≤ position by omega)
      exact Layout.safe_request hd hh (by omega) (by omega) (by omega)

/-- The last two bytes of a file of 130 bytes, with a request for ten. -/
theorem safe_iff_last : longFile.OnDisk twoFiles ∧ longFile.Heads (.decode (twoFiles 0)) ∧
    Safe longFile twoFiles (.decode (twoFiles 0)) 10 128 :=
  ⟨onDisk_longFile, onDisk_longFile.head,
    (safe_iff onDisk_longFile onDisk_longFile.head ⟨by decide, by decide⟩
      ⟨by decide, by decide⟩).mpr (.inr (.inr (by decide)))⟩

/-- At position -1 a read of one byte leaves the buffer, and so does a write.  A read
of 2147483647 bytes at position 1 is not cut off at the end of the file, and goes over
16777216 sectors. -/
theorem requests_outside :
    (readAt twoFiles (.decode (twoFiles 0)) (fun _ => 0) ⟨1, fun _ => 0⟩ 0 1 (-1)).isNone ∧
      (writeAt twoFiles (.decode (twoFiles 0)) (fun _ => 0) ⟨1, fun _ => 0⟩ 1 (-1)).isNone ∧
      ¬ Safe longFile twoFiles (.decode (twoFiles 0)) 1 (-1) ∧
      (transfer (.decode (twoFiles 0)) 2147483647 1).map (fun t => (t.numBytes, t.lastSector)) =
        some (2147483647, 16777215) ∧
      ¬ Safe longFile twoFiles (.decode (twoFiles 0)) 2147483647 1 := by
  refine ⟨by decide +kernel, by decide +kernel, ?_, by decide +kernel, ?_⟩
  all_goals
    exact Layout.not_safe onDisk_longFile.head ⟨by decide, by decide⟩ ⟨by decide, by decide⟩
      (by decide) (by decide) (by decide)

end Nachos.Filesys

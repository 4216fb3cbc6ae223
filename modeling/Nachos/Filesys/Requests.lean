import Nachos.Filesys.Layout

/-!
# Requests on files: `ReadAt` and `WriteAt`

A request inside a file reads or writes the bytes that it names and nothing
else (`readAt_spec`, `writeAt_spec`).  The proofs follow the source: the sectors
of the request (`transfer_eq`, `span_spec`), the two reads that fill the buffer
of `WriteAt` (`readPartial_spec`), and the loops.  `readAt_total` and
`writeAt_total` add the requests that move no byte, and `readAt_start` and
`writeAt_start` are the requests for a structure that a file holds.

`writeAt_frame` is for any two numbers as the arguments: a call that returns has
changed only data sectors of the file.
-/

namespace Nachos.Filesys

open Function Lib Machine

namespace Layout

variable {L : Layout} {d d' : Disk} {h : FileHeader} {s i n : Nat}

/-! ## The sectors of a request -/

/-- The number of bytes of a request that are before the end of the file. -/
def count (L : Layout) (pos n : Nat) : Nat := min n (L.length - pos)

/-- The request inside the file, as the source computes it. -/
def request (L : Layout) (pos n : Nat) : Transfer where
  numBytes := L.count pos n
  firstSector := (pos / SectorSize : Nat)
  lastSector := ((pos + L.count pos n - 1) / SectorSize : Nat)

/-- The number of sectors of the request. -/
def span (L : Layout) (pos n : Nat) : Nat :=
  (pos + L.count pos n - 1) / SectorSize + 1 - pos / SectorSize

variable {pos : Nat}

theorem add_count_le (hpos : pos < L.length) : pos + L.count pos n ≤ L.length := by
  have := Nat.min_le_right n (L.length - pos)
  rw [count]
  omega

theorem count_pos (hpos : pos < L.length) (hn : 0 < n) : 0 < L.count pos n := by
  rw [count]
  omega

theorem transfer_empty (hh : L.Heads h) {m pos : Int} (hempty : m ≤ 0 ∨ L.length ≤ pos) :
    transfer h m pos = none := by
  have hlen : h.fileLength = L.length := hh.numBytes
  rw [transfer]
  exact if_pos (by omega)

theorem transfer_eq (hh : L.Heads h) (hpos : pos < L.length) (hn : 0 < n)
    (hrange : pos + n < 2 ^ 31) : transfer h n pos = some (L.request pos n) := by
  have hle := L.length_le
  have hlen : h.fileLength = L.length := hh.numBytes
  simp only [NumSectors, SectorsPerTrack, NumTracks, SectorSize] at hle
  have hguard : ¬ ((n : Int) ≤ 0 ∨ h.fileLength ≤ (pos : Int)) := by
    rw [hlen]
    omega
  have hsum : i32 ((pos : Int) + n) = pos + n := i32_eq (by omega) (by omega)
  have hcount : (if h.fileLength < i32 ((pos : Int) + n) then i32 (h.fileLength - pos)
      else (n : Int)) = L.count pos n := by
    rw [hsum, hlen, i32_eq (by omega) (by omega), count]
    split <;> omega
  have hend : i32 (i32 ((pos : Int) + L.count pos n) - 1) =
      ((pos + L.count pos n - 1 : Nat) : Int) := by
    have hpositive := count_pos hpos hn
    have hbound : L.count pos n ≤ n := Nat.min_le_left _ _
    rw [i32_eq (x := pos + L.count pos n) (by omega) (by omega), i32_eq (by omega) (by omega)]
    omega
  simp only [transfer, if_neg hguard, hcount, hend]
  rfl

/-- The sectors of a request are sectors of the file, and they have all its
bytes. -/
theorem span_spec (hpos : pos < L.length) (hn : 0 < n) :
    pos / SectorSize + L.span pos n ≤ L.data.length ∧
      pos + L.count pos n ≤ (pos / SectorSize + L.span pos n) * SectorSize ∧
      (pos / SectorSize + L.span pos n) * SectorSize < pos + L.count pos n + SectorSize ∧
      0 < L.span pos n := by
  have hle := add_count_le (n := n) hpos
  have hpositive := count_pos hpos hn
  have hdata := L.data_length
  simp only [span, SectorSize] at *
  omega

theorem rounds_request (hpos : pos < L.length) (hn : 0 < n) :
    (L.request pos n).rounds = L.span pos n := by
  have hspan := span_spec hpos hn
  simp only [Transfer.rounds, request, span] at *
  omega

theorem newBuffer_request (hpos : pos < L.length) (hn : 0 < n) (junk : Bytes) :
    (L.request pos n).newBuffer junk = some ⟨L.span pos n * SectorSize, junk⟩ := by
  have hspan := span_spec hpos hn
  have hle := L.length_data_le
  have hsub : 1 + (L.request pos n).lastSector - (L.request pos n).firstSector =
      (L.span pos n : Int) := by
    simp only [request, span] at *
    omega
  have hsize : i32 (i32 (L.span pos n : Int) * SectorSize) = (L.span pos n * SectorSize : Nat) := by
    simp only [NumSectors, SectorsPerTrack, NumTracks, SectorSize] at *
    rw [i32_eq (x := (L.span pos n : Int)) (by omega) (by omega), i32_eq (by omega) (by omega)]
    omega
  simp only [Transfer.newBuffer, hsub, hsize]
  rw [if_pos (Int.natCast_nonneg _), Int.toNat_natCast]

/-- The request starts in the first sector. -/
theorem start_request : (pos : Int) - (L.request pos n).firstSector * SectorSize =
    (pos % SectorSize : Nat) := by
  simp only [request, SectorSize]
  omega

/-- `ReadAt` copies the bytes of the file. -/
theorem readAt_spec (hd : L.OnDisk d) (hh : L.Heads h) (hpos : pos < L.length) (hn : 0 < n)
    (hrange : pos + n < 2 ^ 31) (junk : Bytes) (into : CharArray) {o : Nat}
    (hfit : o + L.count pos n ≤ into.size) :
    ∃ into' : CharArray, readAt d h junk into o n pos = some ((L.count pos n : Int), into') ∧
      into'.size = into.size ∧ ∀ k, into'.get k =
        if o ≤ k ∧ k < o + L.count pos n then L.byte d (pos + (k - o)) else into.get k := by
  obtain ⟨hlast, hall, -, -⟩ := span_spec hpos hn
  obtain ⟨buf, hread, hsize, hget⟩ := readSectors_spec hd hh.toShows hlast
    ⟨L.span pos n * SectorSize, junk⟩ le_rfl
  have hpart := Nat.div_add_mod' pos SectorSize
  rw [Nat.add_mul] at hall
  have hcopy : bcopy buf (pos % SectorSize : Nat) into o (L.count pos n : Nat) = some
      { into with get := into.get.copy o buf.get (pos % SectorSize) (L.count pos n) } := by
    apply bcopy_of_le
    · rw [hsize]
      show pos % SectorSize + L.count pos n ≤ L.span pos n * SectorSize
      omega
    · exact hfit
  refine ⟨{ into with get := into.get.copy o buf.get (pos % SectorSize) (L.count pos n) }, ?_, rfl,
    fun k => ?_⟩
  · simp only [readAt, transfer_eq hh hpos hn hrange, newBuffer_request hpos hn,
      rounds_request hpos hn, start_request, Option.bind_eq_bind, Option.bind_some]
    simp only [request] at hread hcopy ⊢
    rw [hread, Option.bind_some, hcopy, Option.bind_some]
  · simp only [Bytes.copy_apply]
    by_cases hk : o ≤ k ∧ k < o + L.count pos n
    · rw [if_pos hk, if_pos hk, hget, if_pos (by omega)]
      congr 1
      omega
    · rw [if_neg hk, if_neg hk]

/-- A whole sector is read as far as the file goes. -/
theorem readAt_sector (hd : L.OnDisk d) (hh : L.Heads h) (hi : i * SectorSize < L.length)
    (junk : Bytes) {buf : CharArray} {o : Nat} (hfit : o + SectorSize ≤ buf.size) :
    ∃ buf' : CharArray, (readAt d h junk buf o SectorSize (i * SectorSize)).map Prod.snd = some buf' ∧
      buf'.size = buf.size ∧ ∀ k, buf'.get k =
        if o ≤ k ∧ k < o + SectorSize ∧ i * SectorSize + (k - o) < L.length then
          L.byte d (i * SectorSize + (k - o))
        else buf.get k := by
  have hle := L.length_le
  have hcount : L.count (i * SectorSize) SectorSize ≤ SectorSize := Nat.min_le_left _ _
  have hrange : i * SectorSize + SectorSize < 2 ^ 31 := by
    simp only [NumSectors, SectorsPerTrack, NumTracks, SectorSize] at *
    omega
  obtain ⟨buf', hread, hsize, hget⟩ := readAt_spec hd hh hi (show 0 < SectorSize by decide) hrange
    junk buf (show o + L.count (i * SectorSize) SectorSize ≤ buf.size by omega)
  rw [Int.natCast_mul] at hread
  refine ⟨buf', by rw [hread, Option.map_some], hsize, fun k => ?_⟩
  have hsame : (o ≤ k ∧ k < o + L.count (i * SectorSize) SectorSize) ↔
      o ≤ k ∧ k < o + SectorSize ∧ i * SectorSize + (k - o) < L.length := by
    unfold count
    omega
  rw [hget]
  simp only [hsame]

theorem lastSector_request (hpos : pos < L.length) (hn : 0 < n) :
    (L.request pos n).lastSector = (pos / SectorSize + (L.span pos n - 1) : Nat) := by
  have hspan := span_spec hpos hn
  simp only [request, span] at *
  omega

theorem firstAligned_request :
    (pos : Int) = (L.request pos n).firstSector * SectorSize ↔ pos % SectorSize = 0 := by
  simp only [request, SectorSize]
  omega

theorem lastAligned_request (hpos : pos < L.length) (hn : 0 < n) :
    i32 (pos + (L.request pos n).numBytes) =
      i32 (((L.request pos n).lastSector + 1) * SectorSize) ↔
    pos + L.count pos n = (pos / SectorSize + L.span pos n) * SectorSize := by
  obtain ⟨hlast, -, -, hspan⟩ := span_spec hpos hn
  have hend := add_count_le (n := n) hpos
  have hdata := L.length_data_le
  have hle := L.length_le
  have hbytes : (L.request pos n).numBytes = (L.count pos n : Nat) := rfl
  rw [lastSector_request hpos hn, hbytes]
  generalize L.count pos n = c at *
  generalize L.span pos n = m at *
  simp only [NumSectors, SectorsPerTrack, NumTracks, SectorSize] at *
  rw [i32_eq (by omega) (by omega), i32_eq (by omega) (by omega)]
  omega

theorem several_request (hpos : pos < L.length) (hn : 0 < n) :
    (L.request pos n).firstSector ≠ (L.request pos n).lastSector ↔ 1 < L.span pos n := by
  rw [lastSector_request hpos hn]
  simp only [request]
  omega

theorem lastOffset_request (hpos : pos < L.length) (hn : 0 < n) :
    i32 (((L.request pos n).lastSector - (L.request pos n).firstSector) * SectorSize) =
      ((L.span pos n - 1) * SectorSize : Nat) := by
  obtain ⟨hlast, -, -, -⟩ := span_spec hpos hn
  have hdata := L.length_data_le
  have hfirst : (L.request pos n).firstSector = (pos / SectorSize : Nat) := rfl
  rw [lastSector_request hpos hn, hfirst]
  generalize L.span pos n = m at *
  simp only [NumSectors, SectorsPerTrack, NumTracks, SectorSize] at *
  rw [i32_eq (by omega) (by omega)]
  omega

/-- After the two reads of `WriteAt` the buffer has the bytes of the file that
the request does not change. -/
theorem readPartial_spec (hd : L.OnDisk d) (hh : L.Heads h) (hpos : pos < L.length) (hn : 0 < n)
    (junk : Bytes) (buf : CharArray) (hsize : buf.size = L.span pos n * SectorSize) :
    ∃ buf' : CharArray, readPartial d h junk buf (L.request pos n) pos = some buf' ∧
      buf'.size = buf.size ∧
      ∀ k, k < L.span pos n * SectorSize → pos / SectorSize * SectorSize + k < L.length →
        ¬ (pos % SectorSize ≤ k ∧ k < pos % SectorSize + L.count pos n) →
        buf'.get k = L.byte d (pos / SectorSize * SectorSize + k) := by
  obtain ⟨hlast, hall, hend, hspan⟩ := span_spec hpos hn
  have hpart := Nat.div_add_mod' pos SectorSize
  have hmod := Nat.mod_lt pos (show 0 < SectorSize by decide)
  have hcount := add_count_le (n := n) hpos
  have hlastS := lastSector_request hpos hn
  have hfirstS : (L.request pos n).firstSector = (pos / SectorSize : Nat) := rfl
  simp only [readPartial, firstAligned_request, lastAligned_request hpos hn,
    several_request hpos hn, lastOffset_request hpos hn]
  simp only [hlastS, hfirstS]
  generalize L.count pos n = c at *
  generalize L.span pos n = m at *
  generalize pos / SectorSize = first at *
  generalize pos % SectorSize = r at *
  obtain ⟨buf1, hread1, hsize1, hget1⟩ : ∃ buf1 : CharArray,
      (if !decide (r = 0) then
        (readAt d h junk buf 0 SectorSize (first * SectorSize)).map Prod.snd
      else some buf) = some buf1 ∧ buf1.size = buf.size ∧
      (r ≠ 0 → ∀ k, k < SectorSize → first * SectorSize + k < L.length →
        buf1.get k = L.byte d (first * SectorSize + k)) := by
    by_cases hr : r = 0
    · exact ⟨buf, by simp [hr], rfl, fun h => absurd hr h⟩
    · have hone : SectorSize ≤ m * SectorSize := Nat.le_mul_of_pos_left _ hspan
      obtain ⟨buf1, hread, hsize1, hget⟩ := readAt_sector hd hh (i := first) (by omega) junk
        (show 0 + SectorSize ≤ buf.size by omega)
      refine ⟨buf1, by simpa [hr] using hread, hsize1, fun _ k hk hlen => ?_⟩
      rw [hget, if_pos (by omega), Nat.sub_zero]
  have hm : m * SectorSize = (m - 1) * SectorSize + SectorSize := by
    rw [← Nat.succ_mul, Nat.succ_eq_add_one, Nat.sub_add_cancel hspan]
  rw [Nat.add_mul] at hall hend
  by_cases hcond : ¬ pos + c = (first + m) * SectorSize ∧ (1 < m ∨ r = 0)
  · obtain ⟨buf2, hread2, hsize2, hget2⟩ := readAt_sector hd hh (i := first + (m - 1))
      (by rw [Nat.add_mul]; omega) junk
      (show (m - 1) * SectorSize + SectorSize ≤ buf1.size by omega)
    refine ⟨buf2, ?_, by omega, fun k hk hlen hout => ?_⟩
    · rw [hread1, Option.bind_eq_bind, Option.bind_some, if_pos (by simpa using hcond)]
      exact hread2
    · rw [hget2]
      by_cases hk' : (m - 1) * SectorSize ≤ k
      · have hshift : (first + (m - 1)) * SectorSize + (k - (m - 1) * SectorSize) =
            first * SectorSize + k := by
          rw [Nat.add_mul]
          omega
        rw [if_pos (by omega), hshift]
      · rw [if_neg (by omega)]
        exact hget1 (by omega) k (by omega) hlen
  · refine ⟨buf1, ?_, hsize1, fun k hk hlen hout => ?_⟩
    · rw [hread1, Option.bind_eq_bind, Option.bind_some, if_neg (by simpa using hcond)]
    · -- the last sector is not read: the request fills it, or it is the first
      rw [Nat.add_mul] at hcond
      by_cases hfull : pos + c = first * SectorSize + m * SectorSize
      · exact hget1 (by omega) k (by omega) hlen
      · have hr : r ≠ 0 := fun hr => hcond ⟨hfull, .inr hr⟩
        have hone : m - 1 = 0 := by
          have : ¬ 1 < m := fun hm => hcond ⟨hfull, .inl hm⟩
          omega
        rw [hone, Nat.zero_mul] at hm
        exact hget1 hr k (by omega) hlen

/-- `WriteAt` changes the bytes of the request, and nothing else on the disk. -/
theorem writeAt_spec (hd : L.OnDisk d) (hh : L.Heads h) (hpos : pos < L.length) (hn : 0 < n)
    (hrange : pos + n < 2 ^ 31) (junk : Bytes) (source : CharArray)
    (hfit : L.count pos n ≤ source.size) :
    ∃ d', writeAt d h junk source n pos = some ((L.count pos n : Int), d') ∧
      (∀ s, s ∉ L.data → d' s = d s) ∧
      ∀ x, x < L.length → L.byte d' x =
        if pos ≤ x ∧ x < pos + L.count pos n then source.get (x - pos) else L.byte d x := by
  obtain ⟨hlast, hall, -, -⟩ := span_spec hpos hn
  have hpart := Nat.div_add_mod' pos SectorSize
  rw [Nat.add_mul] at hall
  obtain ⟨buf, hread, hsize, hget⟩ := readPartial_spec hd hh hpos hn junk
    ⟨L.span pos n * SectorSize, junk⟩ rfl
  have hcopy : bcopy source (0 : Nat) buf (pos % SectorSize : Nat) (L.count pos n : Nat) = some
      { buf with get := buf.get.copy (pos % SectorSize) source.get 0 (L.count pos n) } := by
    apply bcopy_of_le
    · omega
    · rw [hsize]
      show pos % SectorSize + L.count pos n ≤ L.span pos n * SectorSize
      omega
  obtain ⟨d', hwrite, hsame, hbyte⟩ := writeSectors_spec hd hh.toShows hlast
    { buf with get := buf.get.copy (pos % SectorSize) source.get 0 (L.count pos n) } hsize.ge
  refine ⟨d', ?_, hsame, fun x hx => ?_⟩
  · simp only [writeAt, transfer_eq hh hpos hn hrange, newBuffer_request hpos hn,
      rounds_request hpos hn, start_request, hread, Option.bind_eq_bind, Option.bind_some]
    simp only [request, Int.natCast_zero] at hcopy ⊢
    rw [hcopy, Option.bind_some, hwrite, Option.bind_some]
  · rw [hbyte x (sector_of_lt hx)]
    simp only [Bytes.copy_apply]
    generalize pos / SectorSize * SectorSize = f at *
    by_cases hin : pos ≤ x ∧ x < pos + L.count pos n
    · rw [if_pos hin, if_pos (by omega), if_pos (by omega)]
      congr 1
      omega
    · rw [if_neg hin]
      by_cases hx' : f ≤ x ∧ x < f + L.span pos n * SectorSize
      · rw [if_pos hx', if_neg (by omega), hget (x - f) (by omega) (by omega) (by omega),
          Nat.add_sub_cancel' hx'.1]
      · rw [if_neg hx']

/-- `ReadAt` at a position in the file or after it. -/
theorem readAt_total (pos : Nat) (hd : L.OnDisk d) (hh : L.Heads h) {m : Int}
    (hrange : pos + m < 2 ^ 31) (junk : Bytes) (into : CharArray) {o : Nat}
    (hfit : o + L.count pos m.toNat ≤ into.size) :
    ∃ into' : CharArray, readAt d h junk into o m pos = some ((L.count pos m.toNat : Int), into') ∧
      into'.size = into.size ∧ ∀ k, into'.get k =
        if o ≤ k ∧ k < o + L.count pos m.toNat then L.byte d (pos + (k - o)) else into.get k := by
  by_cases hempty : m ≤ 0 ∨ L.length ≤ pos
  · have hzero : L.count pos m.toNat = 0 := by
      unfold count
      omega
    refine ⟨into, ?_, rfl, fun k => by rw [hzero, if_neg (by omega)]⟩
    rw [readAt, transfer_empty hh (by omega), hzero]
    rfl
  · have hm : m = (m.toNat : Int) := by omega
    rw [hm, Int.toNat_natCast]
    exact readAt_spec hd hh (by omega) (by omega) (by omega) junk into hfit

/-- `WriteAt` at a position in the file or after it. -/
theorem writeAt_total (pos : Nat) (hd : L.OnDisk d) (hh : L.Heads h) {m : Int}
    (hrange : pos + m < 2 ^ 31) (junk : Bytes) (source : CharArray)
    (hfit : L.count pos m.toNat ≤ source.size) :
    ∃ d', writeAt d h junk source m pos = some ((L.count pos m.toNat : Int), d') ∧
      (∀ s, s ∉ L.data → d' s = d s) ∧
      ∀ x, x < L.length → L.byte d' x =
        if pos ≤ x ∧ x < pos + L.count pos m.toNat then source.get (x - pos) else L.byte d x := by
  by_cases hempty : m ≤ 0 ∨ L.length ≤ pos
  · have hzero : L.count pos m.toNat = 0 := by
      unfold count
      omega
    refine ⟨d, ?_, fun s _ => rfl, fun x _ => by rw [hzero, if_neg (by omega)]⟩
    rw [writeAt, transfer_empty hh (by omega), hzero]
    rfl
  · have hm : m = (m.toNat : Int) := by omega
    rw [hm, Int.toNat_natCast]
    exact writeAt_spec hd hh (by omega) (by omega) (by omega) junk source hfit

/-- A structure that is the start of a file is fetched. -/
theorem readAt_start (hd : L.OnDisk d) (hh : L.Heads h) (hn : n ≤ L.length) (junk : Bytes)
    (into : CharArray) (hfit : n ≤ into.size) :
    ∃ into' : CharArray, readAt d h junk into 0 n 0 = some ((n : Int), into') ∧
      ∀ k, k < n → into'.get k = L.byte d k := by
  have hle := L.length_le
  have hcount : L.count 0 n = n := Nat.min_eq_left hn
  simp only [NumSectors, SectorsPerTrack, NumTracks, SectorSize] at hle
  obtain ⟨into', hread, -, hget⟩ := readAt_total 0 hd hh (m := n) (by omega) junk into
    (o := 0) (by rw [Int.toNat_natCast, hcount]; omega)
  rw [Int.toNat_natCast, hcount] at hread hget
  refine ⟨into', hread, fun k hk => ?_⟩
  rw [hget, if_pos (by omega), Nat.zero_add, Nat.sub_zero]

/-- And it is written back. -/
theorem writeAt_start (hd : L.OnDisk d) (hh : L.Heads h) (hn : n ≤ L.length) (junk : Bytes)
    (source : CharArray) (hfit : n ≤ source.size) :
    ∃ d', writeAt d h junk source n 0 = some ((n : Int), d') ∧
      (∀ s, s ∉ L.data → d' s = d s) ∧ ∀ k, k < n → L.byte d' k = source.get k := by
  have hle := L.length_le
  have hcount : L.count 0 n = n := Nat.min_eq_left hn
  simp only [NumSectors, SectorsPerTrack, NumTracks, SectorSize] at hle
  obtain ⟨d', hwrite, hsame, hbyte⟩ := writeAt_total 0 hd hh (m := n) (by omega) junk source
    (by rw [Int.toNat_natCast, hcount]; omega)
  rw [Int.toNat_natCast, hcount] at hwrite hbyte
  refine ⟨d', hwrite, hsame, fun k hk => ?_⟩
  rw [hbyte k (by omega), if_pos (by omega), Nat.sub_zero]

/-! ## Any request

A request can also have a negative position or an end outside the range of
`int`.  Such a call of `WriteAt` either does not return or writes nothing, with
one exception: when the end is just outside the range, the loop runs over the
unused entries of the last header. -/

theorem hop_none (hd : L.OnDisk d) (hh : L.Shows i h) (hi : i < L.headers.length)
    (hn : L.headers.length ≤ i + n) : h.hop d n = none := by
  induction n generalizing i h with
  | zero => omega
  | succ n ih =>
    rw [FileHeader.hop]
    by_cases hlast : i + 1 < L.headers.length
    · rw [fetch_next hh hlast, Option.bind_some]
      exact ih (hd.chain (i + 1) _ (List.getElem?_eq_getElem hlast)) hlast (by omega)
    · have hnext : L.headers[i + 1]? = none := List.getElem?_eq_none (by omega)
      rw [hh.next, hnext]
      rfl

/-- A negative offset is a large unsigned number. -/
theorem byteToSector_neg (hd : L.OnDisk d) (hh : L.Heads h) {x : Int} (hlo : -2 ^ 31 ≤ x)
    (hneg : x < 0) : h.byteToSector d (BitVec.ofInt 32 x) = none := by
  have hle := L.length_sectors_le
  have hpos : 0 < L.headers.length := List.length_pos_of_ne_nil L.headers_ne
  have hoffset : 2 ^ 31 ≤ (BitVec.ofInt 32 x).toNat := by
    rw [BitVec.toNat_ofInt]
    omega
  have hfar : L.headers.length ≤ (BitVec.ofInt 32 x).toNat / (NumDirect * SectorSize) := by
    rw [sectors, List.length_append] at hle
    simp only [NumSectors, SectorsPerTrack, NumTracks, NumDirect, SectorSize] at *
    omega
  rw [FileHeader.byteToSector, hop_none hd hh.toShows hpos (by rwa [Nat.zero_add])]
  rfl

/-- The ways in which `WriteAt` returns. -/
theorem writeAt_cases {m x r : Int} {junk : Bytes} {source : CharArray}
    (hw : writeAt d h junk source m x = some (r, d')) :
    d' = d ∨ ∃ t buf buf', transfer h m x = some t ∧
      bcopy source 0 buf (x - t.firstSector * SectorSize) t.numBytes = some buf' ∧
      writeSectors d h t.firstSector buf' t.rounds = some d' := by
  unfold writeAt at hw
  cases ht : transfer h m x with
  | none =>
    simp only [ht, Option.some.injEq, Prod.mk.injEq] at hw
    exact .inl hw.2.symm
  | some t =>
    simp only [ht, Option.bind_eq_bind, Option.bind_eq_some_iff, Option.some.injEq,
      Prod.mk.injEq] at hw
    obtain ⟨_, -, buf, -, buf', hcopy, d'', hwrite, -, rfl⟩ := hw
    exact .inr ⟨t, buf, buf', rfl, hcopy, hwrite⟩

/-- A loop that returns has found its first sector. -/
theorem writeSectors_first {first : Int} {buf : CharArray}
    (hw : writeSectors d h first buf (n + 1) = some d') :
    ∃ s, h.byteToSector d (BitVec.ofInt 32 (first * SectorSize)) = some s := by
  induction n generalizing d' with
  | zero =>
    simp only [writeSectors, Option.bind_eq_bind, Option.bind_eq_some_iff, Option.some.injEq] at hw
    obtain ⟨_, rfl, s, hs, -⟩ := hw
    exact ⟨s, by simpa using hs⟩
  | succ n ih =>
    rw [writeSectors, Option.bind_eq_bind, Option.bind_eq_some_iff] at hw
    obtain ⟨d1, hw1, -⟩ := hw
    exact ih hw1

theorem tdiv_sectorSize_neg {x : Int} (hx : x < 0) :
    x.tdiv SectorSize = -((-x) / SectorSize) := by
  have hnonneg : 0 ≤ -x := by omega
  rw [← Int.tdiv_eq_ediv_of_nonneg hnonneg, Int.neg_tdiv, Int.neg_neg]

/-- A request at a negative position. -/
theorem transfer_neg (hh : L.Heads h) {m x : Int} {t : Transfer} (hm : 0 < m) (hmax : m < 2 ^ 31)
    (hneg : x < 0) (hmin : -2 ^ 31 ≤ x) (ht : transfer h m x = some t) :
    t.firstSector = -((-x) / SectorSize) ∧ t.firstSector ≤ t.lastSector := by
  have hlen : h.fileLength = L.length := hh.numBytes
  have hguard : ¬ (m ≤ 0 ∨ h.fileLength ≤ x) := by omega
  simp only [transfer, if_neg hguard, Option.some.injEq] at ht
  have hsum : i32 (x + m) = x + m := i32_eq (by omega) (by omega)
  have hcount : 0 < (if h.fileLength < i32 (x + m) then i32 (h.fileLength - x) else m) ∧
      (if h.fileLength < i32 (x + m) then i32 (h.fileLength - x) else m) ≤ m := by
    rw [hsum, hlen]
    split
    · rw [i32_eq (by omega) (by omega)]
      omega
    · omega
  generalize (if h.fileLength < i32 (x + m) then i32 (h.fileLength - x) else m) = c at ht hcount
  subst ht
  refine ⟨tdiv_sectorSize_neg hneg, ?_⟩
  rw [i32_eq (x := x + c) (by omega) (by omega), i32_eq (by omega) (by omega)]
  exact Int.tdiv_le_tdiv (by decide) (by omega)

/-- A loop of `ReadAt` that ends has found its first sector. -/
theorem readSectors_first {first : Int} {buf buf' : CharArray}
    (hr : readSectors d h first buf (n + 1) = some buf') :
    ∃ s, h.byteToSector d (BitVec.ofInt 32 (first * SectorSize)) = some s := by
  induction n generalizing buf' with
  | zero =>
    simp only [readSectors, Option.bind_eq_bind, Option.bind_eq_some_iff, Option.some.injEq] at hr
    obtain ⟨_, rfl, s, hs, -⟩ := hr
    exact ⟨s, by simpa using hs⟩
  | succ n ih =>
    rw [readSectors, Option.bind_eq_bind, Option.bind_eq_some_iff] at hr
    obtain ⟨buf1, hr1, -⟩ := hr
    exact ih hr1

/-- `ReadAt` at a negative position leaves the file or the buffer. -/
theorem readAt_neg (hd : L.OnDisk d) (hh : L.Heads h) {m x : Int} (hm : 0 < m) (hmax : m < 2 ^ 31)
    (hneg : x < 0) (hmin : -2 ^ 31 ≤ x) (junk : Bytes) (into : CharArray) (o : Int) :
    readAt d h junk into o m x = none := by
  have hlen : h.fileLength = L.length := hh.numBytes
  rw [Option.eq_none_iff_forall_ne_some]
  intro result hresult
  unfold readAt at hresult
  cases ht : transfer h m x with
  | none =>
    simp only [transfer, ite_eq_left_iff, reduceCtorEq, imp_false, not_not] at ht
    omega
  | some t =>
    obtain ⟨hfirst, hlast⟩ := transfer_neg hh hm hmax hneg hmin ht
    simp only [ht, Option.bind_eq_bind, Option.bind_eq_some_iff] at hresult
    obtain ⟨buf, -, buf1, hread, into', hcopy, -⟩ := hresult
    have hstart : 0 ≤ x - t.firstSector * SectorSize := by
      simp only [bcopy, Option.ite_none_right_eq_some] at hcopy
      exact hcopy.1.1
    obtain ⟨k, hk⟩ : ∃ k, t.rounds = k + 1 := by
      refine ⟨t.rounds - 1, ?_⟩
      simp only [Transfer.rounds]
      omega
    rw [hk] at hread
    obtain ⟨s, hs⟩ := readSectors_first hread
    rw [byteToSector_neg hd hh] at hs
    · cases hs
    all_goals
      rw [hfirst] at hstart ⊢
      simp only [SectorSize] at *
      omega

/-- A request whose end is outside the range of `int`. -/
theorem transfer_overflow (hh : L.Heads h) {m x : Int} {t : Transfer} (hm : m < 2 ^ 31)
    (hx : 0 ≤ x) (hend : 2 ^ 31 < x + m) (ht : transfer h m x = some t) : t.rounds = 0 := by
  have hle := L.length_le
  have hlen : h.fileLength = L.length := hh.numBytes
  simp only [NumSectors, SectorsPerTrack, NumTracks, SectorSize] at hle
  by_cases hguard : m ≤ 0 ∨ h.fileLength ≤ x
  · simp only [transfer, if_pos hguard] at ht
    cases ht
  · have hsum : i32 (x + m) = x + m - 2 ^ 32 := i32_wrap (by omega) (by omega)
    have hcount : ¬ h.fileLength < i32 (x + m) := by
      rw [hsum]
      omega
    simp only [transfer, if_neg hguard, if_neg hcount, Option.some.injEq] at ht
    subst ht
    simp only [Transfer.rounds, hsum]
    rw [i32_eq (x := x + m - 2 ^ 32 - 1) (by omega) (by omega),
      tdiv_sectorSize_neg (x := x + m - 2 ^ 32 - 1) (by omega),
      Int.tdiv_eq_ediv_of_nonneg hx]
    simp only [SectorSize]
    omega

theorem le_of_bcopy {src dst dst' : CharArray} {s e k : Int}
    (hc : bcopy src s dst e k = some dst') : 0 ≤ e ∧ s.toNat + k.toNat ≤ src.size := by
  simp only [bcopy, CharArray.copy, Option.ite_none_right_eq_some] at hc
  exact ⟨hc.1.2.1, hc.2.1.2⟩

/-- Whatever the request, `WriteAt` changes only data sectors of the file. -/
theorem writeAt_frame (hd : L.OnDisk d) (hh : L.Heads h) {m x r : Int} (hm : InInt m)
    (hx : InInt x) (hend : x + m ≠ 2 ^ 31) {junk : Bytes} {source : CharArray}
    (hw : writeAt d h junk source m x = some (r, d')) : ∀ s, s ∉ L.data → d' s = d s := by
  rcases writeAt_cases hw with rfl | ⟨t, buf, buf', ht, hcopy, hwrite⟩
  · exact fun _ _ => rfl
  obtain ⟨hoffset, hfit⟩ := le_of_bcopy hcopy
  have hm0 : 0 < m := by
    by_contra hle
    rw [transfer_empty hh (.inl (by omega))] at ht
    cases ht
  by_cases hneg : x < 0
  · -- the loop runs, and its first offset is negative
    obtain ⟨hfirst, hlast⟩ := transfer_neg hh hm0 hm.2 hneg hx.1 ht
    obtain ⟨k, hk⟩ : ∃ k, t.rounds = k + 1 := by
      refine ⟨t.rounds - 1, ?_⟩
      simp only [Transfer.rounds]
      omega
    rw [hk] at hwrite
    obtain ⟨s, hs⟩ := writeSectors_first hwrite
    rw [byteToSector_neg hd hh] at hs
    · cases hs
    all_goals
      rw [hfirst] at hoffset ⊢
      simp only [SectorSize] at *
      omega
  · obtain ⟨p, rfl⟩ := Int.eq_ofNat_of_zero_le (show 0 ≤ x by omega)
    by_cases hrange : p + m < 2 ^ 31
    · have hcount : L.count p m.toNat ≤ source.size := by
        by_cases hlast : L.length ≤ p
        · rw [count]
          omega
        · have hreq : transfer h (m.toNat : Int) p = some (L.request p m.toNat) :=
            transfer_eq hh (by omega) (by omega) (by omega)
          rw [Int.toNat_of_nonneg hm0.le, ht] at hreq
          obtain rfl := Option.some.inj hreq
          simpa [request] using hfit
      obtain ⟨d1, hw1, hsame, -⟩ := writeAt_total p hd hh hrange junk source hcount
      obtain ⟨-, rfl⟩ := Prod.mk.inj (Option.some.inj (hw.symm.trans hw1))
      exact hsame
    · rw [transfer_overflow hh hm.2 (by omega) (by omega) ht] at hwrite
      obtain rfl := Option.some.inj hwrite
      exact fun _ _ => rfl

end Layout

end Nachos.Filesys

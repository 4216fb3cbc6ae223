import Nachos.Filesys.Ownership

/-!
# The space check of `Allocate`

`Allocate` compares the number of clear bits with the number of data sectors, and
then takes data sectors and header sectors.  It should return `TRUE` if and only if
there are enough for both.  It returns `FALSE` before the first `Find`, so the free
map is then unchanged.

`AllOrNothing` is the whole contract for one call, and `allocate_all_or_nothing` says
for which calls it is kept.  Two kinds of calls are left out.

* The free map has enough sectors for the data, but not for the headers too.  Then
  `Allocate` stores the `-1` of a `Find` that failed, or stops at a header that it
  writes to sector `-1`.
* The file just fills its first header.  Then `Allocate` writes the header to the
  sector `cur_sector`, which is not initialised.  If this is not a sector, the disk
  stops the machine.
-/

namespace Nachos.Filesys

open Function Lib Machine Userprog

/-- The sectors that a file has, as its headers say: `hs` has the further headers of
the chain, and `data` the data sectors. -/
structure Stores (h : FileHeader) (d : Disk) (hs data : List Nat) : Prop where
  first : Building.Slots data 0 h
  firstNext : h.nextFdrSector.toInt = hs[0]?.elim (-1) Int.ofNat
  chain : ∀ t s : Nat, hs[t]? = some s → Building.Slots data (t + 1) (.decode (d s)) ∧
    (FileHeader.decode (d s)).nextFdrSector.toInt = hs[t + 1]?.elim (-1) Int.ofNat

/-- The number of further headers of a file. -/
def furtherHeaders (size : Nat) : Nat := (dataSectors size - 1) / NumDirect

/-- A call of `Allocate` takes all sectors that the file needs, or none. -/
structure AllOrNothing (h : FileHeader) (m : BitMap) (d : Disk) (newHdr : Nat → FileHeader)
    (curSector time : BitVec 32) (size : Nat) : Prop where
  /-- It returns `TRUE` if and only if there are enough sectors. -/
  space : ∃ r, h.allocate m d newHdr curSector time size = some r ∧
    (r.isSome = true ↔ dataSectors size + furtherHeaders size ≤ m.numClear)
  /-- The sectors that it has stored were free, are different, and are now taken. -/
  sectors : ∀ h' m' d', h.allocate m d newHdr curSector time size = some (some (h', m', d')) →
    ∃ hs data, Stores h' d' hs data ∧ hs.length = furtherHeaders size ∧
      data.length = dataSectors size ∧ m.Taken m' (hs ++ data) ∧ ∀ s ∈ hs ++ data, s < NumSectors

/-- The sector to which `Allocate` writes the only header of a file that just fills
it. -/
def SectorOk (curSector : BitVec 32) : Prop :=
  0 ≤ curSector.toInt ∧ curSector.toInt < NumSectors

instance (curSector : BitVec 32) : Decidable (SectorOk curSector) :=
  inferInstanceAs (Decidable (_ ∧ _))

section Allocate

variable {h : FileHeader} {m : BitMap} {d : Disk} {newHdr : Nat → FileHeader}
  {curSector time : BitVec 32} {size : Nat}

/-- `cur_sector` is not set before the first header is full. -/
theorem curSector_rounds {n : Nat} {b b' : Building} (hn : n ≤ NumDirect)
    (hrounds : b.rounds newHdr n = some b') : b'.curSector = b.curSector := by
  induction n generalizing b' with
  | zero =>
      cases hrounds
      rfl
  | succ n ih =>
      obtain ⟨b1, hb1, hround⟩ := Option.bind_eq_some_iff.mp hrounds
      have hfirst : ¬(n ≠ 0 ∧ n % NumDirect = 0) := by
        rw [numDirect_eq] at hn ⊢
        omega
      rw [Building.round, if_neg hfirst] at hround
      rw [← ih (by omega) hb1, ← Option.some.inj hround]
      unfold Building.takeSector Building.modify
      cases b1.hdr with
      | none => rfl
      | some h1 => rfl

/-- `Allocate` passes its check. -/
theorem allocate_of_clear (hclear : dataSectors size ≤ m.numClear) :
    h.allocate m d newHdr curSector time size =
      (Building.rounds newHdr ⟨m, d, { h with
          numBytes := BitVec.ofInt 32 size
          numSectors := BitVec.ofInt 32 (dataSectors size : Nat) }, none, curSector.toInt⟩
        (dataSectors size)).bind fun b =>
          (b.finish (dataSectors size) time).bind fun r => some (some r) := by
  have hcheck : ¬(m.numClear : Int) < ((dataSectors size : Nat) : Int) := by omega
  unfold FileHeader.allocate
  have hdiv : divRoundUp (size : Int) SectorSize = (dataSectors size : Nat) :=
    divRoundUp_natCast size
  simp only [hdiv, if_neg hcheck, Int.toNat_natCast]
  rfl

/-- A call that passes the check does not return `FALSE`. -/
theorem allocate_ne_false (hclear : dataSectors size ≤ m.numClear) :
    h.allocate m d newHdr curSector time size ≠ some none := by
  intro hfalse
  rw [allocate_of_clear hclear] at hfalse
  obtain ⟨b, _, hb⟩ := Option.bind_eq_some_iff.mp hfalse
  obtain ⟨r, _, hr⟩ := Option.bind_eq_some_iff.mp hb
  cases hr

variable (h d newHdr curSector time) in
/-- A file that just fills its first header. -/
theorem allocate_direct (hm : m.numBits ≤ NumSectors) (hn : dataSectors size = NumDirect)
    (hclear : NumDirect ≤ m.numClear) :
    ∃ (h' h'' : FileHeader) (m' : BitMap) (data : List Nat), (∀ d', Stores h' d' [] data) ∧
      Building.Slots data 0 h'' ∧ h''.numSectors = BitVec.ofInt 32 NumDirect ∧
      data.length = NumDirect ∧ m.Taken m' data ∧ h.allocate m d newHdr curSector time size =
        if SectorOk curSector then
          some (some (h', m', update d curSector.toInt.toNat h''.encode))
        else none := by
  have hspace : dataSectors size + (dataSectors size - 1) / NumDirect ≤ m.numClear := by
    rw [hn, numDirect_eq]
    rw [numDirect_eq] at hclear
    omega
  obtain ⟨hs, data, b, hrounds, hb, hdata, hhs, -⟩ := Building.built_rounds (d := d)
    (h := { h with
      numBytes := BitVec.ofInt 32 size
      numSectors := BitVec.ofInt 32 (dataSectors size : Nat) }) hm (dataSectors size) hspace
    newHdr curSector.toInt
  obtain rfl : hs = [] := by
    apply List.eq_nil_of_length_eq_zero
    rw [hhs, hn, numDirect_eq]
  have hhdr := hb.alone rfl
  have hcur : b.curSector = curSector.toInt := curSector_rounds hn.le hrounds
  have hdisk : b.disk = d := funext fun s => hb.same s List.not_mem_nil
  have hlarge : NumDirect ≤ dataSectors size := hn.ge
  refine ⟨{ b.this with nextFdrSector := -1, createTime := time, lastWriteTime := time },
    { b.this with nextFdrSector := -1 }, b.freeMap, data, fun d' => ?_, hb.first,
    hb.numSectors.trans (by rw [hn]), hdata.trans hn, hb.taken, ?_⟩
  · refine ⟨hb.first, rfl, fun t s ht => ?_⟩
    cases ht
  · rw [allocate_of_clear (by omega), hrounds, Option.bind_some]
    simp only [Building.finish, Building.modify, Building.current, hhdr, if_pos hlarge, hcur, hdisk,
      FileHeader.writeBack, writeSector, Option.getD_none]
    by_cases hok : 0 ≤ curSector.toInt ∧ curSector.toInt < NumSectors
    · rw [if_pos hok, if_pos (show SectorOk curSector from hok)]
      rfl
    · rw [if_neg hok, if_neg (show ¬SectorOk curSector from hok)]
      rfl

theorem sector_lt {m' : BitMap} {items : List Nat} (hm : m.numBits = NumSectors)
    (htaken : m.Taken m' items) : ∀ s ∈ items, s < NumSectors := by
  intro s hs
  rw [← hm]
  exact (htaken.free s hs).1

/-- The contract with enough sectors. -/
theorem allOrNothing_of_space (hm : m.numBits = NumSectors)
    (hspace : dataSectors size + furtherHeaders size ≤ m.numClear)
    (hcur : dataSectors size = NumDirect → SectorOk curSector) :
    AllOrNothing h m d newHdr curSector time size := by
  by_cases hn : dataSectors size = NumDirect
  · obtain ⟨h', h'', m', data, hstores, -, -, hdata, htaken, halloc⟩ := allocate_direct h d newHdr
      curSector time hm.le hn (by omega)
    rw [if_pos (hcur hn)] at halloc
    refine ⟨⟨_, halloc, fun _ => hspace, fun _ => rfl⟩, fun h1 m1 d1 h1alloc => ?_⟩
    rw [halloc] at h1alloc
    cases h1alloc
    refine ⟨[], data, hstores _, ?_, hdata.trans hn.symm, htaken, sector_lt hm htaken⟩
    unfold furtherHeaders
    rw [hn, numDirect_eq]
    rfl
  · obtain ⟨h', m', d', hs, data, halloc, ha⟩ := FileHeader.allocate_spec (h := h) (d := d) hm.le
      hspace hn newHdr curSector time
    refine ⟨⟨_, halloc, fun _ => hspace, fun _ => rfl⟩, fun h1 m1 d1 h1alloc => ?_⟩
    rw [halloc] at h1alloc
    cases h1alloc
    refine ⟨hs, data, ⟨ha.first, ha.firstNext, ha.chain⟩, ?_, ha.data_length, ha.taken,
      sector_lt hm ha.taken⟩
    rw [ha.hs_length, ha.data_length]
    rfl

/-- A call is all or nothing if and only if the free map has enough sectors for the
data and for the headers or not even those for the data, and a file that just fills
its first header finds a sector in `cur_sector`. -/
theorem allocate_all_or_nothing (h : FileHeader) (m : BitMap) (hm : m.numBits = NumSectors)
    (d : Disk) (newHdr : Nat → FileHeader) (curSector time : BitVec 32) (size : Nat) :
    AllOrNothing h m d newHdr curSector time size ↔
      (m.numClear < dataSectors size ∨ dataSectors size + furtherHeaders size ≤ m.numClear) ∧
        (dataSectors size = NumDirect → NumDirect ≤ m.numClear → SectorOk curSector) := by
  constructor
  · intro hall
    obtain ⟨r, hr, hiff⟩ := hall.space
    constructor
    · by_contra hnot
      have hclear : dataSectors size ≤ m.numClear := by omega
      cases r with
      | none => exact allocate_ne_false hclear hr
      | some x =>
          have henough := hiff.mp rfl
          omega
    · intro hn hclear
      obtain ⟨_, _, _, _, _, _, _, _, _, halloc⟩ := allocate_direct h d newHdr curSector time hm.le
        hn hclear
      by_contra hbad
      rw [if_neg hbad, hr] at halloc
      cases halloc
  · rintro ⟨hfull | hspace, hcur⟩
    · have halloc : h.allocate m d newHdr curSector time size = some none :=
        FileHeader.allocate_of_full hfull newHdr curSector time
      refine ⟨⟨none, halloc, ?_⟩, fun h' m' d' htrue => ?_⟩
      · constructor
        · intro hsome
          cases hsome
        · intro henough
          omega
      · rw [halloc] at htrue
        cases htrue
    · exact allOrNothing_of_space hm hspace fun hn => hcur hn (by omega)

end Allocate

/-! ## A nearly full disk -/

/-- A free map with 28 clear bits. -/
def nearlyFull : BitMap := ⟨NumSectors, fun i => if i < 31 then 0xffffffff else 0xf⟩

/-- A file of 27 sectors and its second header take them all. -/
theorem allocate_all_or_nothing_last :
    AllOrNothing zeroFresh.header nearlyFull (fun _ _ => 0) zeroFresh.newHdr 0 0 3455 :=
  (allocate_all_or_nothing zeroFresh.header nearlyFull rfl (fun _ _ => 0) zeroFresh.newHdr 0 0
    3455).mpr ⟨.inr (by decide +kernel), by decide +kernel⟩

/-- A file of 28 sectors needs a second header, and the free map has 28 clear bits.
`Allocate` returns `TRUE`. -/
theorem allocate_without_space :
    (∃ r, zeroFresh.header.allocate nearlyFull (fun _ _ => 0) zeroFresh.newHdr 0 0 3584 =
        some (some r)) ∧
      ¬AllOrNothing zeroFresh.header nearlyFull (fun _ _ => 0) zeroFresh.newHdr 0 0 3584 := by
  have hclear : nearlyFull.numClear = 28 := by decide +kernel
  obtain ⟨h', m', d', _, _, _, halloc, _⟩ := FileHeader.allocate_short (h := zeroFresh.header)
    (m := nearlyFull) (d := fun _ _ => 0) (n := 27) (by decide) (by decide) (by decide) hclear
    zeroFresh.newHdr 0 0
  refine ⟨⟨_, halloc⟩, fun hall => ?_⟩
  obtain ⟨r, hr, hiff⟩ := hall.space
  have htrue : r = some (h', m', d') := Option.some.inj (hr.symm.trans halloc)
  rw [htrue, hclear] at hiff
  exact absurd (hiff.mp rfl) (by decide)

end Nachos.Filesys

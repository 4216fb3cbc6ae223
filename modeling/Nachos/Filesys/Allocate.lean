import Nachos.Filesys.Layout
import Nachos.Userprog.BitMap

/-!
# Allocation of files: `FileHeader::Allocate` and `FileHeader::Deallocate`

`Allocate` takes the data sectors of a file from the free map one after another.
After every `NumDirect` of them it takes one more sector for the next header of
the chain, stores its number in the current header, and goes on with a new
header.  A header is written to its sector when the next one is started; the
first header is left to the caller.

The variables of the loop are the fields of `Building`.  `hdr` is `none` while it
points to the header that is allocated, `curSector` is the sector of `hdr`
otherwise, and it is not initialised before the first new header.

`Built` is the invariant of the loop: which sectors were taken, and which headers
have them.  `built_rounds` says that it holds after any number of rounds for
which the free map has enough sectors.  The loop itself never checks that `Find`
found one.
-/

namespace Nachos.Filesys

open Function Lib Machine Userprog

/-- `divRoundUp(n, s)`. -/
def divRoundUp (n s : Int) : Int := n.tdiv s + if 0 < n.tmod s then 1 else 0

/-! ## The loop of `Allocate` -/

/-- The variables of `Allocate`. -/
structure Building where
  freeMap : BitMap
  disk : Disk
  this : FileHeader
  hdr : Option FileHeader
  curSector : Int

namespace Building

/-- `*hdr`. -/
def current (b : Building) : FileHeader := b.hdr.getD b.this

/-- An assignment to a field of `*hdr`. -/
def modify (b : Building) (f : FileHeader → FileHeader) : Building :=
  match b.hdr with
  | none => { b with this := f b.this }
  | some h => { b with hdr := some (f h) }

/-- The part of round `i` that starts a new header. -/
def chain (newHdr : FileHeader) (i : Nat) (b : Building) : Option Building := do
  let (nextSector, freeMap) := b.freeMap.find
  let b := { b with freeMap := freeMap }.modify fun h =>
    { h with nextFdrSector := BitVec.ofInt 32 nextSector }
  let d ← (if i ≠ NumDirect then b.current.writeBack b.disk b.curSector else some b.disk)
  some { b with disk := d, curSector := nextSector, hdr := some newHdr }

/-- The part of round `i` that takes a data sector. -/
def takeSector (i : Nat) (b : Building) : Building :=
  let (sector, freeMap) := b.freeMap.find
  { b with freeMap := freeMap }.modify fun h =>
    { h with dataSectors := fun j =>
        if j.val = i % NumDirect then BitVec.ofInt 32 sector else h.dataSectors j }

/-- Round `i` of the loop. -/
def round (newHdr : FileHeader) (i : Nat) (b : Building) : Option Building :=
  (if i ≠ 0 ∧ i % NumDirect = 0 then b.chain newHdr i else some b).map (takeSector i)

/-- The first rounds of the loop.  `newHdr` are the contents of the new
headers. -/
def rounds (newHdr : Nat → FileHeader) (b : Building) : Nat → Option Building
  | 0 => some b
  | n + 1 => (rounds newHdr b n).bind (round (newHdr n) n)

/-- The part of `Allocate` after the loop. -/
def finish (b : Building) (numSectors : Nat) (time : BitVec 32) :
    Option (FileHeader × BitMap × Disk) := do
  let b := b.modify fun h => { h with nextFdrSector := -1 }
  let d ← (if NumDirect ≤ numSectors then b.current.writeBack b.disk b.curSector else some b.disk)
  some ({ b.this with createTime := time, lastWriteTime := time }, b.freeMap, d)

end Building

namespace FileHeader

/-- `FileHeader::Allocate`.  The parameters are the contents of the new headers,
the value of `cur_sector` that is not initialised, and the time.  The inner
`none` is the return of `FALSE`. -/
def allocate (h : FileHeader) (freeMap : BitMap) (d : Disk) (newHdr : Nat → FileHeader)
    (curSector time : BitVec 32) (fileSize : Int) :
    Option (Option (FileHeader × BitMap × Disk)) :=
  let numSectors := divRoundUp fileSize SectorSize
  let h := { h with
    numBytes := BitVec.ofInt 32 fileSize
    numSectors := BitVec.ofInt 32 numSectors }
  if freeMap.numClear < numSectors then some none
  else do
    let b ← Building.rounds newHdr ⟨freeMap, d, h, none, curSector.toInt⟩ numSectors.toNat
    let result ← b.finish numSectors.toNat time
    some (some result)

/-! ## `Deallocate` -/

/-- The remaining rounds of the `for` loop of `Deallocate`, from `i` on. -/
def freeSectors (d : Disk) : Nat → Nat → FileHeader → BitMap → Option (FileHeader × BitMap)
  | 0, _, hdr, freeMap => some (hdr, freeMap)
  | k + 1, i, hdr, freeMap => do
      let sector := (hdr.dataSectors ⟨i % NumDirect, Nat.mod_lt i (by decide)⟩).toInt
      let marked ← freeMap.test sector
      if marked then
        let freeMap ← freeMap.clear sector
        if hdr.nextFdrSector = -1 then some (hdr, freeMap)
        else
          let next ← fetchFrom d hdr.nextFdrSector.toInt
          freeSectors d k (i + 1) next freeMap
      else none

/-- `FileHeader::Deallocate`.  The body of `while(true)` is the `for` loop, and
its `break` leaves the `for` loop only.  `fuel` is a number of rounds. -/
def deallocate (h : FileHeader) (d : Disk) : Nat → FileHeader → BitMap → Option BitMap
  | 0, _, _ => none
  | fuel + 1, hdr, freeMap =>
      (freeSectors d h.numSectors.toInt.toNat 0 hdr freeMap).bind fun r =>
        deallocate h d fuel r.1 r.2

/-- `Deallocate` never returns. -/
theorem deallocate_eq_none (h : FileHeader) (d : Disk) (fuel : Nat) (hdr : FileHeader)
    (freeMap : BitMap) : h.deallocate d fuel hdr freeMap = none := by
  induction fuel generalizing hdr freeMap with
  | zero => rfl
  | succ fuel ih =>
    rw [deallocate]
    cases freeSectors d h.numSectors.toInt.toNat 0 hdr freeMap with
    | none => rfl
    | some r => exact ih r.1 r.2

end FileHeader

/-! ## The invariant of the loop -/

namespace Building

variable {m : BitMap} {d : Disk} {h : FileHeader} {b b' : Building} {hs data : List Nat} {i : Nat}

/-- The header has the part of the data sectors that belongs to header `t` of the
chain. -/
def Slots (data : List Nat) (t : Nat) (h : FileHeader) : Prop :=
  ∀ j s, data[NumDirect * t + j.val]? = some s → (h.dataSectors j).toInt = s

/-- The loop has taken the sectors `hs` for headers and the sectors `data`, from
the map `m`.  `h` has the length and the number of sectors. -/
structure Built (b : Building) (m : BitMap) (d : Disk) (h : FileHeader) (hs data : List Nat) :
    Prop where
  low : NumDirect * hs.length ≤ data.length
  high : data.length ≤ NumDirect * (hs.length + 1)
  taken : m.Taken b.freeMap (hs ++ data)
  numBytes : b.this.numBytes = h.numBytes
  numSectors : b.this.numSectors = h.numSectors
  first : Slots data 0 b.this
  firstNext : ∀ s : Nat, hs[0]? = some s → b.this.nextFdrSector.toInt = s
  alone : hs = [] → b.hdr = none
  last : hs ≠ [] → ∃ h', b.hdr = some h' ∧ Slots data hs.length h' ∧
    ∃ s, hs[hs.length - 1]? = some s ∧ b.curSector = s
  same : ∀ s, s ∉ hs → b.disk s = d s
  written : ∀ t s s' : Nat, hs[t]? = some s → hs[t + 1]? = some s' →
    Slots data (t + 1) (.decode (b.disk s)) ∧
      (FileHeader.decode (b.disk s)).nextFdrSector.toInt = s'

theorem built_start (m : BitMap) (d : Disk) (h : FileHeader) (curSector : Int) :
    Built ⟨m, d, h, none, curSector⟩ m d h [] [] := by
  constructor <;> simp [Slots, BitMap.taken_nil]

theorem toInt_ofInt_sector {s : Nat} (hs : s < NumSectors) :
    (BitVec.ofInt 32 (s : Int)).toInt = s := by
  simp only [NumSectors, SectorsPerTrack, NumTracks] at hs
  exact i32_eq (by omega) (by omega)

/-- One more data sector, in the header that is being filled. -/
theorem Slots.take {t s : Nat} (hslots : Slots data t h) (hlo : NumDirect * t ≤ data.length)
    (hhi : data.length < NumDirect * (t + 1)) (hs : s < NumSectors) :
    Slots (data ++ [s]) t { h with dataSectors := fun j =>
      if j.val = data.length % NumDirect then BitVec.ofInt 32 s else h.dataSectors j } := by
  intro j s' hs'
  rw [Nat.mul_succ] at hhi
  have hmod : data.length % NumDirect = data.length - NumDirect * t := by
    rw [Nat.mod_eq_sub_mul_div, Nat.div_eq_of_lt_le]
    · rwa [Nat.mul_comm]
    · rw [Nat.mul_comm, Nat.mul_succ]
      exact hhi
  have hj := j.isLt
  by_cases heq : j.val = data.length % NumDirect
  · have hlast : NumDirect * t + j.val = data.length := by omega
    rw [hlast, List.getElem?_concat_length] at hs'
    obtain rfl := Option.some.inj hs'
    simp only [if_pos heq]
    exact toInt_ofInt_sector hs
  · rw [List.getElem?_append] at hs'
    simp only [if_neg heq]
    split at hs'
    · exact hslots j s' hs'
    · rw [List.getElem?_eq_none (by simp; omega)] at hs'
      cases hs'

/-- One more data sector, in a later header. -/
theorem Slots.append {t : Nat} (hslots : Slots data t h) (hlo : NumDirect * (t + 1) ≤ data.length)
    (more : List Nat) : Slots (data ++ more) t h := by
  intro j s hs
  have hj := j.isLt
  rw [Nat.mul_succ] at hlo
  rw [List.getElem?_append_left (by omega)] at hs
  exact hslots j s hs

/-- A data sector is taken. -/
theorem Built.takeSector (hb : b.Built m d h hs data) (hm : m.numBits ≤ NumSectors)
    (hroom : data.length < NumDirect * (hs.length + 1)) (hclear : 0 < b.freeMap.numClear) :
    ∃ s : Nat, b.freeMap.find.1 = s ∧
      (b.takeSector data.length).Built m d h hs (data ++ [s]) := by
  obtain ⟨s, hfind, hlt, htaken⟩ := hb.taken.find hclear
  have hperm : (s :: (hs ++ data)).Perm (hs ++ (data ++ [s])) := by
    rw [← List.append_assoc]
    exact (List.perm_append_singleton s _).symm
  have hfull := hb.low
  refine ⟨s, by rw [hfind], ?_⟩
  by_cases hnil : hs = []
  · have hhdr := hb.alone hnil
    subst hnil
    have hslots := hb.first.take (Nat.zero_le _) hroom (lt_of_lt_of_le hlt hm)
    simp only [Building.takeSector, hfind, modify, hhdr]
    refine ⟨by simp, ?_, htaken.perm hperm, hb.numBytes, hb.numSectors, hslots, by simp,
      fun _ => rfl, fun h => absurd rfl h, hb.same, by simp⟩
    rw [List.length_append]
    exact hroom
  · obtain ⟨h', hhdr, hlast, hcur⟩ := hb.last hnil
    have hpos := List.length_pos_of_ne_nil hnil
    have hslots := hlast.take hfull hroom (lt_of_lt_of_le hlt hm)
    simp only [Building.takeSector, hfind, modify, hhdr]
    refine ⟨?_, ?_, htaken.perm hperm, hb.numBytes, hb.numSectors, ?_, hb.firstNext,
      fun h => absurd h hnil, fun _ => ⟨_, rfl, hslots, hcur⟩, hb.same, fun t s' s'' ht ht' => ?_⟩
    · rw [List.length_append]
      omega
    · rw [List.length_append]
      exact hroom
    · exact hb.first.append (le_trans (Nat.mul_le_mul_left _ hpos) hfull) [s]
    · obtain ⟨hw, hnext⟩ := hb.written t s' s'' ht ht'
      have hle : t + 1 + 1 ≤ hs.length := (List.getElem?_eq_some_iff.mp ht').1
      exact ⟨hw.append (le_trans (Nat.mul_le_mul_left _ hle) hfull) [s], hnext⟩

/-- A new header has no data sectors yet. -/
theorem slots_of_length {t : Nat} (hlen : data.length = NumDirect * t) : Slots data t h := by
  intro j s hs
  rw [List.getElem?_eq_none (by omega)] at hs
  cases hs

/-- The headers on the disk, after the last one got the number of the next. -/
theorem Built.written_chain {q s : Nat} {h' : FileHeader} (hb : b.Built m d h hs data)
    (hq : hs[hs.length - 1]? = some q) (hslots : Slots data hs.length h')
    (hnext : (BitVec.ofInt 32 (s : Int)).toInt = s) (t s1 s2 : Nat)
    (h1 : (hs ++ [s])[t]? = some s1) (h2 : (hs ++ [s])[t + 1]? = some s2) :
    let disk := update b.disk q { h' with nextFdrSector := BitVec.ofInt 32 s : FileHeader }.encode
    Slots data (t + 1) (.decode (disk s1)) ∧
      (FileHeader.decode (disk s1)).nextFdrSector.toInt = s2 := by
  have hlt2 := (List.getElem?_eq_some_iff.mp h2).1
  rw [List.length_append, List.length_singleton] at hlt2
  rw [List.getElem?_append_left (by omega)] at h1
  by_cases hend : t + 1 = hs.length
  · obtain rfl : s1 = q := by
      rw [show hs.length - 1 = t by omega, h1] at hq
      exact Option.some.inj hq
    obtain rfl : s = s2 := by
      rw [hend, List.getElem?_concat_length] at h2
      exact Option.some.inj h2
    simp only [update_self, FileHeader.decode_encode]
    rw [hend]
    exact ⟨hslots, hnext⟩
  · rw [List.getElem?_append_left (by omega)] at h2
    have hne : s1 ≠ q := by
      rintro rfl
      have hsame := (List.getElem?_inj (List.getElem?_eq_some_iff.mp h1).1
        (List.nodup_append.mp hb.taken.nodup).1).mp (h1.trans hq.symm)
      omega
    simp only [update_of_ne hne]
    exact hb.written t s1 s2 h1 h2

/-- A new header is started. -/
theorem Built.chain (hb : b.Built m d h hs data) (hm : m.numBits ≤ NumSectors)
    (hfull : data.length = NumDirect * (hs.length + 1)) (hclear : 0 < b.freeMap.numClear)
    (newHdr : FileHeader) :
    ∃ s b', b.chain newHdr data.length = some b' ∧ b'.Built m d h (hs ++ [s]) data := by
  obtain ⟨s, hfind, hlt, htaken⟩ := hb.taken.find hclear
  have hnext : (BitVec.ofInt 32 (s : Int)).toInt = s := toInt_ofInt_sector (lt_of_lt_of_le hlt hm)
  have hperm : (s :: (hs ++ data)).Perm (hs ++ [s] ++ data) := by
    rw [List.append_assoc]
    exact List.perm_middle.symm
  have hlow : NumDirect * (hs ++ [s]).length = data.length := by
    rw [List.length_append]
    exact hfull.symm
  have hhigh : data.length ≤ NumDirect * ((hs ++ [s]).length + 1) := by
    rw [← hlow]
    exact Nat.mul_le_mul_left _ (Nat.le_succ _)
  have hlast : ∃ s' : Nat, (hs ++ [s])[(hs ++ [s]).length - 1]? = some s' ∧ (s : Int) = s' :=
    ⟨s, by simp, rfl⟩
  refine ⟨s, ?_⟩
  by_cases hnil : hs = []
  · have hhdr := hb.alone hnil
    subst hnil
    have hone : data.length = NumDirect := by simpa using hfull
    have hchain : b.chain newHdr data.length = some
        { freeMap := b.freeMap.setBit s
          disk := b.disk
          this := { b.this with nextFdrSector := BitVec.ofInt 32 s }
          hdr := some newHdr
          curSector := s } := by
      simp only [Building.chain, hfind, modify, hhdr]
      rw [if_neg (not_not_intro hone)]
      rfl
    refine ⟨_, hchain, hlow.le, hhigh, htaken.perm hperm, hb.numBytes, hb.numSectors, hb.first, ?_,
      by simp, fun _ => ⟨newHdr, rfl, slots_of_length hlow.symm, hlast⟩, ?_, by simp⟩
    · intro s' h0
      obtain rfl := Option.some.inj h0
      exact hnext
    · intro s' _
      exact hb.same s' (by simp)
  · obtain ⟨h', hhdr, hslots, q, hq, hcur⟩ := hb.last hnil
    have hpos := List.length_pos_of_ne_nil hnil
    have hqlt : q < NumSectors :=
      lt_of_lt_of_le (hb.taken.free q (List.mem_append_left _ (List.mem_of_getElem? hq))).1 hm
    have hmore : data.length ≠ NumDirect := by
      rw [hfull, numDirect_eq]
      omega
    have hchain : b.chain newHdr data.length = some
        { freeMap := b.freeMap.setBit s
          disk := update b.disk q
            { h' with nextFdrSector := BitVec.ofInt 32 s : FileHeader }.encode
          this := b.this
          hdr := some newHdr
          curSector := s } := by
      simp only [Building.chain, hfind, modify, hhdr, current]
      rw [if_pos hmore, hcur, FileHeader.writeBack, writeSector_of_lt _ hqlt]
      rfl
    refine ⟨_, hchain, hlow.le, hhigh, htaken.perm hperm, hb.numBytes, hb.numSectors, hb.first, ?_,
      by simp, fun _ => ⟨newHdr, rfl, slots_of_length hlow.symm, hlast⟩, ?_, ?_⟩
    · intro s' h0
      rw [List.getElem?_append_left hpos] at h0
      exact hb.firstNext s' h0
    · intro s' hs'
      rw [List.mem_append, not_or] at hs'
      have hne : s' ≠ q := by
        rintro rfl
        exact hs'.1 (List.mem_of_getElem? hq)
      exact (update_of_ne hne _ _).trans (hb.same s' hs'.1)
    · exact hb.written_chain hq hslots hnext

/-- The data sectors that the first rounds obtain from the map, and the map after
them. -/
def obtained (m : BitMap) : Nat → List Int × BitMap
  | 0 => ([], m)
  | i + 1 =>
      let found := obtained m i
      let m := if i ≠ 0 ∧ i % NumDirect = 0 then found.2.find.2 else found.2
      (found.1 ++ [m.find.1], m.find.2)

theorem freeMap_takeSector (i : Nat) (b : Building) :
    (b.takeSector i).freeMap = b.freeMap.find.2 := by
  unfold Building.takeSector modify
  cases b.hdr with
  | none => rfl
  | some h => rfl

theorem freeMap_chain {newHdr : FileHeader} (h : b.chain newHdr i = some b') :
    b'.freeMap = b.freeMap.find.2 := by
  obtain ⟨d, _, hb'⟩ := Option.bind_eq_some_iff.mp h
  cases hb'
  unfold modify
  cases b.hdr with
  | none => rfl
  | some h => rfl

/-- The loop, when the free map has enough sectors for the data and for the
headers, with the sectors that it obtains. -/
theorem built_rounds (hm : m.numBits ≤ NumSectors) (n : Nat)
    (hspace : n + (n - 1) / NumDirect ≤ m.numClear) (newHdr : Nat → FileHeader) (curSector : Int) :
    ∃ hs data b, rounds newHdr ⟨m, d, h, none, curSector⟩ n = some b ∧ b.Built m d h hs data ∧
      data.length = n ∧ hs.length = (n - 1) / NumDirect ∧
      obtained m n = (data.map Int.ofNat, b.freeMap) := by
  induction n with
  | zero => exact ⟨[], [], _, rfl, built_start m d h curSector, rfl, by simp, rfl⟩
  | succ n ih =>
    rw [numDirect_eq] at ih hspace ⊢
    obtain ⟨hs, data, b, hrounds, hb, hdata, hhs, hfound⟩ := ih (by omega)
    have hclear := hb.taken.clear
    rw [List.length_append] at hclear
    rw [rounds, hrounds, Option.bind_some, round, Nat.add_sub_cancel]
    simp only [obtained, hfound]
    by_cases hnew : n ≠ 0 ∧ n % NumDirect = 0
    · rw [if_pos hnew, if_pos hnew]
      rw [numDirect_eq] at hnew
      obtain ⟨q, b1, hchain, hb1⟩ := hb.chain hm (by rw [numDirect_eq]; omega) (by omega) (newHdr n)
      have hclear1 := hb1.taken.clear
      rw [List.length_append, List.length_append, List.length_singleton] at hclear1
      obtain ⟨s, hs1, hb2⟩ := hb1.takeSector hm
        (by rw [numDirect_eq, List.length_append, List.length_singleton]; omega) (by omega)
      rw [hdata] at hchain hb2
      rw [hchain]
      refine ⟨_, _, _, rfl, hb2, by simp [hdata], ?_, ?_⟩
      · rw [List.length_append, List.length_singleton]
        omega
      · rw [freeMap_takeSector, ← freeMap_chain hchain, hs1, List.map_append]
        rfl
    · rw [if_neg hnew, if_neg hnew]
      rw [numDirect_eq] at hnew
      obtain ⟨s, hs1, hb2⟩ := hb.takeSector hm (by rw [numDirect_eq]; omega) (by omega)
      rw [hdata] at hb2
      refine ⟨_, _, _, rfl, hb2, by simp [hdata], ?_, ?_⟩
      · omega
      · rw [freeMap_takeSector, hs1, List.map_append]
        rfl

end Building

/-! ## The result of `Allocate` -/

/-- The loop has taken the sectors `hs` for the further headers and the sectors
`data`.  All headers but the first are on the disk. -/
structure Chained (m : BitMap) (d : Disk) (h : FileHeader) (m' : BitMap) (d' : Disk)
    (hs data : List Nat) : Prop where
  taken : m.Taken m' (hs ++ data)
  first : Building.Slots data 0 h
  firstNext : h.nextFdrSector.toInt = hs[0]?.elim (-1) Int.ofNat
  same : ∀ s, s ∉ hs → d' s = d s
  chain : ∀ t s : Nat, hs[t]? = some s → Building.Slots data (t + 1) (.decode (d' s)) ∧
    (FileHeader.decode (d' s)).nextFdrSector.toInt = hs[t + 1]?.elim (-1) Int.ofNat

/-- The sectors of an allocated file, as many as its length needs. -/
structure Allocated (m : BitMap) (d : Disk) (size : Nat) (h : FileHeader) (m' : BitMap) (d' : Disk)
    (hs data : List Nat) : Prop extends Chained m d h m' d' hs data where
  data_length : data.length = (size + (SectorSize - 1)) / SectorSize
  hs_length : hs.length = (data.length - 1) / NumDirect
  numBytes : h.numBytes.toInt = size
  numSectors : h.numSectors.toInt = data.length

theorem divRoundUp_natCast (size : Nat) :
    divRoundUp size SectorSize = ((size + (SectorSize - 1)) / SectorSize : Nat) := by
  have hmod : (size : Int).tmod SectorSize = (size % SectorSize : Nat) := rfl
  have hdiv : (size : Int).tdiv SectorSize = (size / SectorSize : Nat) := rfl
  rw [divRoundUp, hmod, hdiv]
  split
  all_goals
    simp only [SectorSize] at *
    omega

/-- The last header is closed, and written if it is not the first one. -/
theorem Building.Built.finish {m : BitMap} {d : Disk} {h : FileHeader} {hs data : List Nat}
    {b : Building} {n : Nat} (hb : b.Built m d h hs data) (hm : m.numBits ≤ NumSectors)
    (hn : hs = [] ↔ n < NumDirect) (time : BitVec 32) :
    ∃ h' d', b.finish n time = some (h', b.freeMap, d') ∧ Chained m d h' b.freeMap d' hs data ∧
      h'.numBytes = h.numBytes ∧ h'.numSectors = h.numSectors ∧
      ∀ last (q : Nat), b.hdr = some last → b.curSector = q →
        (FileHeader.decode (d' q)).dataSectors = last.dataSectors := by
  by_cases hnil : hs = []
  · have hhdr := hb.alone hnil
    have hsmall : ¬ NumDirect ≤ n := Nat.not_le.mpr (hn.mp hnil)
    subst hnil
    refine ⟨{ b.this with nextFdrSector := -1, createTime := time, lastWriteTime := time },
      b.disk, ?_, ⟨hb.taken, hb.first, rfl, hb.same, by simp⟩, hb.numBytes, hb.numSectors,
      by simp [hhdr]⟩
    simp only [Building.finish, modify, hhdr, if_neg hsmall]
    rfl
  · obtain ⟨h', hhdr, hslots, q, hq, hcur⟩ := hb.last hnil
    have hpos := List.length_pos_of_ne_nil hnil
    have hlarge : NumDirect ≤ n := Nat.not_lt.mp fun hlt => hnil (hn.mpr hlt)
    have hqlt : q < NumSectors :=
      lt_of_lt_of_le (hb.taken.free q (List.mem_append_left _ (List.mem_of_getElem? hq))).1 hm
    refine ⟨{ b.this with createTime := time, lastWriteTime := time },
      update b.disk q { h' with nextFdrSector := -1 : FileHeader }.encode, ?_,
      ⟨hb.taken, hb.first, ?_, fun s hs' => ?_, fun t s ht => ?_⟩, hb.numBytes, hb.numSectors, ?_⟩
    · simp only [Building.finish, modify, current, hhdr, if_pos hlarge, hcur, FileHeader.writeBack]
      rw [Option.getD_some, writeSector_of_lt _ hqlt]
      rfl
    · have h0 := List.getElem?_eq_getElem hpos
      rw [h0]
      exact hb.firstNext _ h0
    · have hne : s ≠ q := by
        rintro rfl
        exact hs' (List.mem_of_getElem? hq)
      rw [update_of_ne hne]
      exact hb.same s hs'
    · have hlt := (List.getElem?_eq_some_iff.mp ht).1
      by_cases hend : t + 1 = hs.length
      · obtain rfl : s = q := by
          rw [show hs.length - 1 = t by omega, ht] at hq
          exact Option.some.inj hq
        rw [update_self, FileHeader.decode_encode, hend, List.getElem?_eq_none le_rfl]
        exact ⟨hslots, rfl⟩
      · have hnext := List.getElem?_eq_getElem (show t + 1 < hs.length by omega)
        have hne : s ≠ q := by
          rintro rfl
          have hsame := (List.getElem?_inj hlt (List.nodup_append.mp hb.taken.nodup).1).mp
            (ht.trans hq.symm)
          omega
        rw [update_of_ne hne, hnext]
        exact hb.written t s _ ht hnext
    · intro last q' hlast hq'
      obtain rfl := Option.some.inj (hhdr.symm.trans hlast)
      obtain rfl := Int.ofNat_inj.mp (hcur.symm.trans hq')
      rw [update_self, FileHeader.decode_encode]

namespace FileHeader

variable {m : BitMap} {h : FileHeader} {d : Disk} {size : Nat}

theorem allocate_of_full (hfull : m.numClear < (size + (SectorSize - 1)) / SectorSize)
    (newHdr : Nat → FileHeader) (curSector time : BitVec 32) :
    h.allocate m d newHdr curSector time size = some none := by
  rw [allocate]
  simp only [divRoundUp_natCast]
  rw [if_pos (by omega)]

/-- `Allocate` with enough sectors for the data and for the headers, for a file
that does not just fill its first header. -/
theorem allocate_spec (hm : m.numBits ≤ NumSectors)
    (hspace : (size + (SectorSize - 1)) / SectorSize +
      ((size + (SectorSize - 1)) / SectorSize - 1) / NumDirect ≤ m.numClear)
    (hdirect : (size + (SectorSize - 1)) / SectorSize ≠ NumDirect)
    (newHdr : Nat → FileHeader) (curSector time : BitVec 32) :
    ∃ h' m' d' hs data, h.allocate m d newHdr curSector time size = some (some (h', m', d')) ∧
      Allocated m d size h' m' d' hs data := by
  generalize hn : (size + (SectorSize - 1)) / SectorSize = n at *
  obtain ⟨hs, data, b, hrounds, hb, hdata, hhs, -⟩ := Building.built_rounds (d := d)
    (h := { h with numBytes := BitVec.ofInt 32 size, numSectors := BitVec.ofInt 32 n }) hm n hspace
    newHdr curSector.toInt
  have hcheck : ¬ (m.numClear : Int) < (n : Int) := by omega
  have hle := m.numClear_le
  have hbytes : (BitVec.ofInt 32 (size : Int)).toInt = size := by
    simp only [NumSectors, SectorsPerTrack, NumTracks, SectorSize] at hm hn
    exact i32_eq (by omega) (by omega)
  have hsectors : (BitVec.ofInt 32 (n : Int)).toInt = n := by
    simp only [NumSectors, SectorsPerTrack, NumTracks] at hm
    exact i32_eq (by omega) (by omega)
  have hsmall : hs = [] ↔ n < NumDirect := by
    rw [← List.length_eq_zero_iff, hhs, Nat.div_eq_zero_iff]
    rw [numDirect_eq] at hdirect ⊢
    omega
  obtain ⟨h', d', hfinish, hchain, hbytes', hsectors', -⟩ := hb.finish hm hsmall time
  refine ⟨h', b.freeMap, d', hs, data, ?_, hchain, hdata.trans hn.symm, by rw [hdata]; exact hhs,
    by rw [hbytes']; exact hbytes, by rw [hsectors', hdata]; exact hsectors⟩
  simp only [allocate, divRoundUp_natCast, hn, if_neg hcheck, Int.toNat_natCast, hrounds,
    Option.bind_eq_bind, Option.bind_some, hfinish]

/-- `Allocate` when the free map has enough sectors for the data, but not for the
headers too: the last data sector is not found, and its number is stored as -1. -/
theorem allocate_short {n : Nat} (hm : m.numBits ≤ NumSectors) (hlarge : NumDirect < n)
    (hmod : n % NumDirect ≠ 0) (hclear : m.numClear = n + (n - 1) / NumDirect)
    (newHdr : Nat → FileHeader) (curSector time : BitVec 32) :
    ∃ h' m' d' hs data z,
      h.allocate m d newHdr curSector time (SectorSize * (n + 1) : Nat) = some (some (h', m', d')) ∧
      Chained m d h' m' d' hs data ∧ hs.length = n / NumDirect ∧ h'.numSectors.toInt = n + 1 ∧
      hs[hs.length - 1]? = some z ∧ ((FileHeader.decode (d' z)).dataSectors
        ⟨n % NumDirect, Nat.mod_lt n (by decide)⟩).toInt = -1 := by
  have hsize : (SectorSize * (n + 1) + (SectorSize - 1)) / SectorSize = n + 1 := by
    simp only [SectorSize]
    omega
  obtain ⟨hs, data, b, hrounds, hb, hdata, hhs, -⟩ := Building.built_rounds (d := d)
    (h := { h with
      numBytes := BitVec.ofInt 32 (SectorSize * (n + 1) : Nat)
      numSectors := BitVec.ofInt 32 (n + 1 : Nat) }) hm n hclear.ge newHdr curSector.toInt
  have hnone : b.freeMap.numClear = 0 := by
    have hcount := hb.taken.clear
    rw [List.length_append, hdata, hhs] at hcount
    omega
  rw [numDirect_eq] at hlarge hmod hclear hhs
  have hpos : hs ≠ [] := by
    rintro rfl
    rw [List.length_nil] at hhs
    omega
  obtain ⟨last, hhdr, hslots, z, hz, hcur⟩ := hb.last hpos
  -- The number of a sector that is not found goes to the next slot of the header.
  let last' : FileHeader := { last with dataSectors := fun j =>
    if j.val = n % NumDirect then BitVec.ofInt 32 (-1) else last.dataSectors j }
  have hround : b.round (newHdr n) n = some { b with hdr := some last' } := by
    rw [Building.round, if_neg (by rw [numDirect_eq]; omega), Option.map_some, Building.takeSector,
      BitMap.find_of_full hnone]
    simp only [Building.modify, hhdr]
    rfl
  have hslots' : Building.Slots data hs.length last' := by
    intro j s hs'
    have hne : j.val ≠ n % NumDirect := by
      intro heq
      rw [List.getElem?_eq_none (by rw [heq, hdata, hhs, numDirect_eq]; omega)] at hs'
      cases hs'
    show (if j.val = n % NumDirect then BitVec.ofInt 32 (-1) else last.dataSectors j).toInt = s
    rw [if_neg hne]
    exact hslots j s hs'
  have hb' : Building.Built { b with hdr := some last' } m d _ hs data :=
    ⟨hb.low, hb.high, hb.taken, hb.numBytes, hb.numSectors, hb.first, hb.firstNext,
      fun h => absurd h hpos, fun _ => ⟨last', rfl, hslots', z, hz, hcur⟩, hb.same, hb.written⟩
  have hmany : hs = [] ↔ n + 1 < NumDirect := by
    rw [numDirect_eq]
    exact ⟨fun h => absurd h hpos, fun h => by omega⟩
  obtain ⟨h', d', hfinish, hchain, -, hsectors, hlast⟩ := hb'.finish hm hmany time
  refine ⟨h', _, d', hs, data, z, ?_, hchain, by rw [hhs, numDirect_eq]; omega, ?_, hz, ?_⟩
  · have hcheck : ¬ (m.numClear : Int) < ((n + 1 : Nat) : Int) := by omega
    simp only [allocate, divRoundUp_natCast, hsize, if_neg hcheck, Int.toNat_natCast,
      Building.rounds, hrounds, hround, Option.bind_eq_bind, Option.bind_some, hfinish]
  · rw [hsectors]
    have hle := m.numClear_le
    simp only [NumSectors, SectorsPerTrack, NumTracks] at hm
    exact i32_eq (by omega) (by omega)
  · rw [hlast last' z rfl hcur]
    show (if n % NumDirect = n % NumDirect then BitVec.ofInt 32 (-1) else _).toInt = -1
    rw [if_pos rfl]
    rfl

end FileHeader

/-! ## The new file -/

section NewFile

variable {m m' : BitMap} {d d' : Disk} {h : FileHeader} {size q : Nat} {hs data : List Nat}

/-- The file, with its first header in the sector `q`. -/
def Allocated.layout (ha : Allocated m d size h m' d' hs data) (hm : m.numBits ≤ NumSectors)
    (hq : q < NumSectors) (hnew : q ∉ hs ++ data) : Layout where
  length := size
  headers := q :: hs
  data := data
  headers_ne := List.cons_ne_nil q hs
  data_length := ha.data_length
  fits := by
    have hlen := ha.hs_length
    rw [numDirect_eq] at hlen ⊢
    rw [List.length_cons]
    omega
  sector_lt s hs' := by
    rw [List.cons_append, List.mem_cons] at hs'
    rcases hs' with rfl | hs'
    · exact hq
    · exact lt_of_lt_of_le (ha.taken.free s hs').1 hm
  nodup := List.nodup_cons.mpr ⟨hnew, ha.taken.nodup⟩

theorem Allocated.heads (ha : Allocated m d size h m' d' hs data) (hm : m.numBits ≤ NumSectors)
    (hq : q < NumSectors) (hnew : q ∉ hs ++ data) : (ha.layout hm hq hnew).Heads h :=
  ⟨⟨ha.firstNext, ha.first⟩, ha.numBytes, ha.numSectors⟩

theorem Allocated.onDisk (ha : Allocated m d size h m' d' hs data) (hm : m.numBits ≤ NumSectors)
    (hq : q < NumSectors) (hnew : q ∉ hs ++ data) :
    (ha.layout hm hq hnew).OnDisk (update d' q h.encode) where
  chain i s hi := by
    cases i with
    | zero =>
      obtain rfl : q = s := Option.some.inj hi
      rw [update_self, FileHeader.decode_encode]
      exact (ha.heads hm hq hnew).toShows
    | succ i =>
      have hne : s ≠ q := by
        rintro rfl
        exact hnew (List.mem_append_left _ (List.mem_of_getElem? hi))
      rw [update_of_ne hne]
      obtain ⟨hslots, hnext⟩ := ha.chain i s hi
      exact ⟨hnext, hslots⟩
  head := by
    have hself : update d' q h.encode (ha.layout hm hq hnew).header = h.encode := update_self q _ d'
    rw [hself, FileHeader.decode_encode]
    exact ha.heads hm hq hnew

end NewFile

end Nachos.Filesys

import Nachos.Filesys.Space

/-!
# `ByteToSector` reads the chain that `Allocate` writes

`Allocate` keeps one header in memory and writes it when the next one begins; the
first header stays with the caller, and the last one is written after the loop.
`ByteToSector` starts at the first header and fetches the others from the disk.

`Building.obtained` are the data sectors that the rounds of `Allocate` get from
`Find`, in their order.  `byteToSector_agrees` says that `ByteToSector` finds them
again by the offset, for files of any length, as long as the chained headers are
on the disk.  The chain may take all sectors of the disk, and the disk may have
changed in every other sector.
-/

namespace Nachos.Filesys

open Function Lib Machine Userprog

/-- `ByteToSector` maps the bytes of the file to the sectors, one for each block. -/
structure Agreement (h : FileHeader) (d : Disk) (sectors : List Int) (size : Nat) : Prop where
  sector : ∀ offset, offset < size → ∃ s, sectors[offset / SectorSize]? = some s ∧
    h.byteToSector d (BitVec.ofNat 32 offset) = some s
  /-- No header that `ByteToSector` goes on from is the end of the chain. -/
  linked : ∀ offset, offset < size → ∀ k, k < offset / (NumDirect * SectorSize) →
    ∃ hdr, h.hop d k = some hdr ∧ hdr.nextFdrSector ≠ -1
  injective : ∀ offset offset', offset < size → offset' < size →
    h.byteToSector d (BitVec.ofNat 32 offset) = h.byteToSector d (BitVec.ofNat 32 offset') →
      offset / SectorSize = offset' / SectorSize

/-! ## Following the chain -/

section Chain

variable {h : FileHeader} {d : Disk} {hs data : List Nat}

/-- The headers further in the chain. -/
theorem Stores.hop (hstores : Stores h d hs data) (hlt : ∀ s ∈ hs, s < NumSectors) {k : Nat}
    (hk : k ≤ hs.length) :
    ∃ hdr, h.hop d k = some hdr ∧ Building.Slots data k hdr ∧
      hdr.nextFdrSector.toInt = hs[k]?.elim (-1) Int.ofNat := by
  -- The induction is on the headers that are left, from any header of the chain.
  have hrest : ∀ (k t : Nat) (hdr : FileHeader), t + k ≤ hs.length →
      Building.Slots data t hdr → hdr.nextFdrSector.toInt = hs[t]?.elim (-1) Int.ofNat →
      ∃ hdr', hdr.hop d k = some hdr' ∧ Building.Slots data (t + k) hdr' ∧
        hdr'.nextFdrSector.toInt = hs[t + k]?.elim (-1) Int.ofNat := by
    intro k
    induction k with
    | zero =>
        intro t hdr _ hslots hnext
        exact ⟨hdr, rfl, hslots, hnext⟩
    | succ k ih =>
        intro t hdr ht _ hnext
        have hget := List.getElem?_eq_getElem (show t < hs.length by omega)
        obtain ⟨hslots', hnext'⟩ := hstores.chain t _ hget
        have hfetch : FileHeader.fetchFrom d hdr.nextFdrSector.toInt =
            some (.decode (d hs[t])) := by
          rw [hnext, hget]
          show FileHeader.fetchFrom d ((hs[t] : Nat) : Int) = _
          rw [FileHeader.fetchFrom, readSector_of_lt d (hlt _ (List.getElem_mem _)),
            Option.map_some]
        obtain ⟨hdr', hhop, hslots, hnext⟩ := ih (t + 1) _ (by omega) hslots' hnext'
        rw [show t + (k + 1) = t + 1 + k by omega]
        refine ⟨hdr', ?_, hslots, hnext⟩
        rw [FileHeader.hop, hfetch, Option.bind_some]
        exact hhop
  obtain ⟨hdr, hhop, hslots, hnext⟩ := hrest k 0 h (by omega) hstores.first hstores.firstNext
  rw [Nat.zero_add] at hslots hnext
  exact ⟨hdr, hhop, hslots, hnext⟩

theorem Stores.byteToSector (hstores : Stores h d hs data) (hlt : ∀ s ∈ hs, s < NumSectors)
    (hlen : data.length ≤ NumDirect * (hs.length + 1)) {offset s : Nat}
    (hsmall : offset < 2 ^ 32) (hs' : data[offset / SectorSize]? = some s) :
    h.byteToSector d (BitVec.ofNat 32 offset) = some (s : Int) := by
  have hi : offset / SectorSize < data.length := (List.getElem?_eq_some_iff.mp hs').1
  have hdiv : offset / (NumDirect * SectorSize) = offset / SectorSize / NumDirect := by
    rw [Nat.mul_comm, Nat.div_div_eq_div_mul]
  have hmod : offset % (NumDirect * SectorSize) / SectorSize = offset / SectorSize % NumDirect := by
    rw [Nat.mul_comm, Nat.mod_mul_right_div_self]
  have hk : offset / SectorSize / NumDirect ≤ hs.length :=
    Nat.le_of_lt_succ (Nat.div_lt_of_lt_mul (lt_of_lt_of_le hi hlen))
  obtain ⟨hdr, hhop, hslots, _⟩ := hstores.hop hlt hk
  unfold FileHeader.byteToSector
  simp only [BitVec.toNat_ofNat, Nat.mod_eq_of_lt hsmall, hdiv, hmod, hhop, Option.map_some,
    Option.some.injEq]
  refine hslots _ s ?_
  rw [Nat.div_add_mod]
  exact hs'

/-- A file with different data sectors, as many as its length needs. -/
theorem Stores.agreement (hstores : Stores h d hs data) (hlt : ∀ s ∈ hs, s < NumSectors)
    (hnodup : data.Nodup) {size : Nat} (hdata : data.length = dataSectors size)
    (hhs : hs.length = furtherHeaders size) (hsize : size < 2 ^ 32) :
    Agreement h d (data.map Int.ofNat) size := by
  unfold furtherHeaders at hhs
  have hlen : data.length ≤ NumDirect * (hs.length + 1) := by
    rw [hhs, hdata, numDirect_eq]
    omega
  have hblock : ∀ offset, offset < size → offset / SectorSize < data.length := by
    intro offset hoffset
    rw [hdata]
    simp only [dataSectors, SectorSize]
    omega
  have hfound : ∀ offset, offset < size → ∃ s : Nat, data[offset / SectorSize]? = some s ∧
      h.byteToSector d (BitVec.ofNat 32 offset) = some (s : Int) := by
    intro offset hoffset
    have hget := List.getElem?_eq_getElem (hblock offset hoffset)
    exact ⟨_, hget, hstores.byteToSector hlt hlen (by omega) hget⟩
  refine ⟨fun offset hoffset => ?_, fun offset hoffset k hk => ?_, fun o o' ho ho' heq => ?_⟩
  · obtain ⟨s, hget, hs'⟩ := hfound offset hoffset
    refine ⟨s, ?_, hs'⟩
    rw [List.getElem?_map, hget]
    rfl
  · have hin := hblock offset hoffset
    have hk' : k < hs.length := by
      rw [hhs]
      rw [hdata] at hin
      rw [Nat.mul_comm, ← Nat.div_div_eq_div_mul, numDirect_eq] at hk
      rw [numDirect_eq]
      omega
    obtain ⟨hdr, hhop, _, hnext⟩ := hstores.hop hlt (Nat.le_of_lt hk')
    refine ⟨hdr, hhop, fun hend => ?_⟩
    rw [hend, List.getElem?_eq_getElem hk'] at hnext
    have hneg : (-1 : Int) = (hs[k] : Nat) := hnext
    omega
  · obtain ⟨s, hget, hs'⟩ := hfound o ho
    obtain ⟨s', hget', hs''⟩ := hfound o' ho'
    rw [hs', hs''] at heq
    have hsame : data[o / SectorSize]? = data[o' / SectorSize]? := by
      rw [hget, hget', Int.ofNat_inj.mp (Option.some.inj heq)]
    exact (List.getElem?_inj (hblock o ho) hnodup).mp hsame

end Chain

/-! ## What `Allocate` leaves -/

section Allocate

variable {h h' : FileHeader} {m m' : BitMap} {d d' : Disk} {newHdr : Nat → FileHeader}
  {curSector time : BitVec 32} {size : Nat}

/-- The end of `Allocate`, with any value of `cur_sector` for a file with one
header. -/
theorem Building.Built.stores {hs data : List Nat} {b : Building} {n : Nat}
    (hb : b.Built m d h hs data) (hm : m.numBits ≤ NumSectors) (hn : hs ≠ [] → NumDirect ≤ n)
    (hfinish : b.finish n time = some (h', m', d')) : Stores h' d' hs data ∧ m' = b.freeMap := by
  by_cases hnil : hs = []
  · subst hnil
    have hhdr := hb.alone rfl
    unfold Building.finish Building.modify at hfinish
    rw [hhdr] at hfinish
    obtain ⟨d1, _, heq⟩ := Option.bind_eq_some_iff.mp hfinish
    cases heq
    refine ⟨⟨hb.first, rfl, fun t s ht => ?_⟩, rfl⟩
    cases ht
  · have hlarge := hn hnil
    have hiff : hs = [] ↔ n < NumDirect := iff_of_false hnil (Nat.not_lt.mpr hlarge)
    obtain ⟨h1, d1, hfinish1, hchain, _⟩ := hb.finish hm hiff time
    cases hfinish.symm.trans hfinish1
    exact ⟨⟨hchain.first, hchain.firstNext, hchain.chain⟩, rfl⟩

/-- The sectors of the headers are those that the rounds have obtained. -/
theorem stores_of_allocate (hm : m.numBits ≤ NumSectors)
    (hspace : dataSectors size + furtherHeaders size ≤ m.numClear)
    (halloc : h.allocate m d newHdr curSector time size = some (some (h', m', d'))) :
    ∃ hs data, Stores h' d' hs data ∧ m.Taken m' (hs ++ data) ∧ hs.length = furtherHeaders size ∧
      data.length = dataSectors size ∧
      (Building.obtained m (dataSectors size)).1 = data.map Int.ofNat := by
  obtain ⟨hs, data, b, hrounds, hb, hdata, hhs, hobtained⟩ := Building.built_rounds
    (d := d) (h := { h with
      numBytes := BitVec.ofInt 32 size
      numSectors := BitVec.ofInt 32 (dataSectors size : Nat) }) hm (dataSectors size) hspace
    newHdr curSector.toInt
  rw [allocate_of_clear (by omega), hrounds, Option.bind_some] at halloc
  obtain ⟨r, hfinish, heq⟩ := Option.bind_eq_some_iff.mp halloc
  cases heq
  have hlarge : hs ≠ [] → NumDirect ≤ dataSectors size := by
    intro hne
    have hpos := List.length_pos_of_ne_nil hne
    rw [numDirect_eq] at hhs ⊢
    omega
  obtain ⟨hstores, rfl⟩ := hb.stores hm hlarge hfinish
  exact ⟨hs, data, hstores, hb.taken, hhs, hdata, by rw [hobtained]⟩

/-- **`ByteToSector` agrees with `Allocate`.**  With enough clear bits for the data
and for the chained headers, `Allocate` returns `TRUE`, unless a file that just
fills its first header finds no sector in `cur_sector`; and then `ByteToSector`
finds the data sectors that `Allocate` has obtained, on every disk that has the
chained headers as `Allocate` wrote them. -/
theorem byteToSector_agrees (h : FileHeader) (m : BitMap) (hm : m.numBits = NumSectors) (d : Disk)
    (newHdr : Nat → FileHeader) (curSector time : BitVec 32) (size : Nat)
    (hspace : dataSectors size + furtherHeaders size ≤ m.numClear) :
    ((dataSectors size = NumDirect → SectorOk curSector) →
      ∃ r, h.allocate m d newHdr curSector time size = some (some r)) ∧
    ∀ h' m' d', h.allocate m d newHdr curSector time size = some (some (h', m', d')) →
      ∃ hs : List Nat, hs.length = furtherHeaders size ∧
        (∀ s ∈ hs, m.testBit s = false ∧
          (s : Int) ∉ (Building.obtained m (dataSectors size)).1) ∧
        ∀ disk : Disk, (∀ s ∈ hs, disk s = d' s) →
          Agreement h' disk (Building.obtained m (dataSectors size)).1 size := by
  constructor
  · intro hcur
    obtain ⟨r, hr, hiff⟩ := (allOrNothing_of_space (h := h) (d := d) hm hspace hcur).space
    obtain ⟨x, rfl⟩ := Option.isSome_iff_exists.mp (hiff.mpr hspace)
    exact ⟨x, hr⟩
  · intro h' m' d' halloc
    obtain ⟨hs, data, hstores, htaken, hhs, hdata, hobtained⟩ :=
      stores_of_allocate hm.le hspace halloc
    have hnodup := List.nodup_append.mp htaken.nodup
    have hsize : size < 2 ^ 32 := by
      have hle := m.numClear_le
      rw [hm] at hle
      simp only [dataSectors, NumSectors, SectorsPerTrack, NumTracks, SectorSize] at hspace hle
      omega
    rw [hobtained]
    refine ⟨hs, hhs, fun s hs' => ⟨(htaken.free s (List.mem_append_left _ hs')).2, fun hmem => ?_⟩,
      fun disk hsame => ?_⟩
    · obtain ⟨s', hs'', heq⟩ := List.mem_map.mp hmem
      rw [Int.ofNat_inj.mp heq] at hs''
      exact hnodup.2.2 s hs' s hs'' rfl
    · have hstores' : Stores h' disk hs data := by
        refine ⟨hstores.first, hstores.firstNext, fun t s ht => ?_⟩
        rw [hsame s (List.mem_of_getElem? ht)]
        exact hstores.chain t s ht
      exact hstores'.agreement (fun s hs' => sector_lt hm htaken s (List.mem_append_left _ hs'))
        hnodup.2.1 hdata hhs hsize

end Allocate

/-- A file of 27 sectors, with two headers, takes the last 28 sectors. -/
theorem byteToSector_agrees_last : ∃ h' m' d',
    zeroFresh.header.allocate nearlyFull (fun _ _ => 0) zeroFresh.newHdr 0 0 (3455 : Nat) =
      some (some (h', m', d')) ∧
    Agreement h' d' (Building.obtained nearlyFull (dataSectors 3455)).1 3455 := by
  obtain ⟨hreturns, hagrees⟩ := byteToSector_agrees zeroFresh.header nearlyFull rfl
    (fun _ _ => 0) zeroFresh.newHdr 0 0 3455 (by decide +kernel)
  obtain ⟨r, hr⟩ := hreturns (by decide)
  obtain ⟨h', m', d'⟩ := r
  obtain ⟨_, _, _, hagree⟩ := hagrees h' m' d' hr
  exact ⟨h', m', d', hr, hagree d' fun _ _ => rfl⟩

end Nachos.Filesys

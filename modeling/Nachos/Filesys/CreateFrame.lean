import Nachos.Filesys.Space

/-!
# What `Create` leaves as it is

A file that is created should change the free map, the directory, and sectors that
were free.  `CreateFrame` says this of the disk before and after, together with what
it means for the other files.

`Allocate` writes the further headers while its loop still runs.  `Within` is the
invariant: the free map only grows, and the disk changes only where the free map was
clear.  It needs no assumption about space, since a header that finds no sector is
written to sector `-1`, and there the disk stops the machine.

The exception is the file that just fills its first header.  `Allocate` then writes
this header to `cur_sector`, which has no value yet.  If it happens to be the sector
of another header, that file is lost.
-/

namespace Nachos.Filesys

open Function Lib Machine Userprog

/-! ## The loop of `Allocate` -/

namespace Building

variable {m : BitMap} {d d' : Disk} {b b' : Building} {i n : Nat}

/-- What `Allocate` has changed since it started with the map `m` and the disk `d`. -/
structure Within (m : BitMap) (d : Disk) (b : Building) : Prop where
  numBits : b.freeMap.numBits = m.numBits
  grows : ∀ s, m.testBit s = true → b.freeMap.testBit s = true
  same : ∀ s, ¬ Vacant m s → b.disk s = d s
  current : b.hdr ≠ none → b.curSector = -1 ∨ ∃ s : Nat, b.curSector = s ∧ Vacant m s

theorem Within.vacant (hb : Within m d b) {s : Nat} (hs : Vacant b.freeMap s) : Vacant m s := by
  obtain ⟨hlt, hclear⟩ := hs
  refine ⟨hb.numBits ▸ hlt, Bool.eq_false_iff.mpr fun hset => ?_⟩
  rw [hb.grows s hset] at hclear
  cases hclear

/-- The map after a `Find`. -/
theorem Within.find (hb : Within m d b) :
    b.freeMap.find.2.numBits = m.numBits ∧
      ∀ s, m.testBit s = true → b.freeMap.find.2.testBit s = true := by
  rcases find_cases b.freeMap with hfind | ⟨q, hfind, _⟩
  · rw [hfind]
    exact ⟨hb.numBits, hb.grows⟩
  · rw [hfind]
    refine ⟨hb.numBits, fun s hs => ?_⟩
    rw [BitMap.testBit_setBit, hb.grows s hs, Bool.or_true]

/-- A header is written to a free sector. -/
theorem Within.writeBack (hb : Within m d b) (hhdr : b.hdr ≠ none) {h : FileHeader}
    (hwrite : h.writeBack b.disk b.curSector = some d') : ∀ s, ¬ Vacant m s → d' s = d s := by
  intro s hs
  rcases hb.current hhdr with hcur | ⟨q, hcur, hq⟩
  · rw [hcur] at hwrite
    cases hwrite
  · have hne : s ≠ q := by
      rintro rfl
      exact hs hq
    rw [hcur, FileHeader.writeBack, writeSector] at hwrite
    split at hwrite
    · rw [← Option.some.inj hwrite, Int.toNat_natCast, update_of_ne hne]
      exact hb.same s hs
    · cases hwrite

theorem hdr_modify (b : Building) (f : FileHeader → FileHeader) :
    (b.modify f).hdr = none ↔ b.hdr = none := by
  unfold modify
  cases b.hdr with
  | none => exact iff_of_true rfl rfl
  | some h => exact iff_of_false (Option.some_ne_none _) (Option.some_ne_none _)

theorem Within.modify (hb : Within m d b) (f : FileHeader → FileHeader) :
    Within m d (b.modify f) := by
  unfold Building.modify
  cases hhdr : b.hdr with
  | none => exact ⟨hb.numBits, hb.grows, hb.same, fun h => absurd rfl h⟩
  | some h =>
    refine ⟨hb.numBits, hb.grows, hb.same, fun _ => hb.current ?_⟩
    rw [hhdr]
    exact Option.some_ne_none h

/-- The map is the one after a `Find`. -/
theorem Within.withFind (hb : Within m d b) : Within m d { b with freeMap := b.freeMap.find.2 } :=
  ⟨hb.find.1, hb.find.2, hb.same, hb.current⟩

theorem takeSector_eq (i : Nat) (b : Building) :
    b.takeSector i = { b with freeMap := b.freeMap.find.2 }.modify fun h =>
      { h with dataSectors := fun j =>
          if j.val = i % NumDirect then BitVec.ofInt 32 b.freeMap.find.1 else h.dataSectors j } :=
  rfl

theorem Within.takeSector (hb : Within m d b) (i : Nat) : Within m d (b.takeSector i) := by
  rw [takeSector_eq]
  exact hb.withFind.modify _

theorem hdr_takeSector (i : Nat) (b : Building) : (b.takeSector i).hdr = none ↔ b.hdr = none := by
  rw [takeSector_eq]
  exact hdr_modify { b with freeMap := b.freeMap.find.2 } _

/-- A new header is started.  The header before it is written, if it is not the
first one. -/
theorem Within.chain (hb : Within m d b) {newHdr : FileHeader}
    (hhdr : i ≠ NumDirect → b.hdr ≠ none) (hchain : b.chain newHdr i = some b') :
    Within m d b' ∧ b'.hdr ≠ none := by
  obtain ⟨d1, hwrite, hb'⟩ := Option.bind_eq_some_iff.mp hchain
  have hb1 := hb.withFind.modify fun h =>
    { h with nextFdrSector := BitVec.ofInt 32 b.freeMap.find.1 }
  have hsame : ∀ s, ¬ Vacant m s → d1 s = d s := by
    split at hwrite
    · rename_i hi
      refine hb1.writeBack (fun hnone => ?_) hwrite
      exact hhdr hi ((hdr_modify { b with freeMap := b.freeMap.find.2 } _).mp hnone)
    · rw [← Option.some.inj hwrite]
      exact hb1.same
  rw [← Option.some.inj hb']
  refine ⟨⟨hb1.numBits, hb1.grows, hsame, fun _ => ?_⟩, Option.some_ne_none _⟩
  rcases find_cases b.freeMap with hfind | ⟨q, hfind, hq⟩
  · exact .inl (congrArg Prod.fst hfind)
  · exact .inr ⟨q, congrArg Prod.fst hfind, hb.vacant hq⟩

/-- One round.  After round `NumDirect` there is a further header. -/
theorem Within.round (hb : Within m d b) {newHdr : FileHeader} (hhdr : NumDirect < i → b.hdr ≠ none)
    (hround : b.round newHdr i = some b') :
    Within m d b' ∧ (NumDirect < i + 1 → b'.hdr ≠ none) := by
  rw [Building.round] at hround
  split at hround
  · rename_i hnew
    obtain ⟨b1, hchain, rfl⟩ := Option.map_eq_some_iff.mp hround
    have hlarge : i ≠ NumDirect → b.hdr ≠ none := by
      intro hi
      apply hhdr
      rw [numDirect_eq] at hi hnew ⊢
      omega
    obtain ⟨hb1, hhdr1⟩ := hb.chain hlarge hchain
    exact ⟨hb1.takeSector i, fun _ hnone => hhdr1 ((hdr_takeSector i b1).mp hnone)⟩
  · rename_i hold
    rw [Option.map_some, Option.some.injEq] at hround
    subst hround
    refine ⟨hb.takeSector i, fun hi hnone => ?_⟩
    refine hhdr ?_ ((hdr_takeSector i b).mp hnone)
    rw [numDirect_eq] at hi hold ⊢
    omega

theorem within_rounds {newHdr : Nat → FileHeader} {h : FileHeader} {curSector : Int}
    (hrounds : rounds newHdr ⟨m, d, h, none, curSector⟩ n = some b) :
    Within m d b ∧ (NumDirect < n → b.hdr ≠ none) := by
  induction n generalizing b with
  | zero =>
    rw [← Option.some.inj hrounds]
    exact ⟨⟨rfl, fun _ hs => hs, fun _ _ => rfl, fun hnone => absurd rfl hnone⟩,
      fun hlt => absurd hlt (Nat.not_lt_zero _)⟩
  | succ n ih =>
    obtain ⟨b1, hb1, hround⟩ := Option.bind_eq_some_iff.mp hrounds
    obtain ⟨hwithin, hhdr⟩ := ih hb1
    exact hwithin.round hhdr hround

/-- The last header is written to a free sector, if it is not the first one. -/
theorem Within.finish (hb : Within m d b) (hhdr : NumDirect ≤ n → b.hdr ≠ none) {time : BitVec 32}
    {h' : FileHeader} {m' : BitMap} (hfinish : b.finish n time = some (h', m', d')) :
    m'.numBits = m.numBits ∧ ∀ s, ¬ Vacant m s → d' s = d s := by
  obtain ⟨d1, hwrite, hresult⟩ := Option.bind_eq_some_iff.mp hfinish
  have hb1 := hb.modify fun h => { h with nextFdrSector := -1 }
  have hsame : ∀ s, ¬ Vacant m s → d1 s = d s := by
    split at hwrite
    · rename_i hn
      exact hb1.writeBack (fun hnone => hhdr hn ((hdr_modify _ _).mp hnone)) hwrite
    · rw [← Option.some.inj hwrite]
      exact hb1.same
  cases hresult
  exact ⟨hb1.numBits, hsame⟩

end Building

/-- `Allocate` changes free sectors only, for a file that does not just fill its
first header. -/
theorem allocate_within {h h' : FileHeader} {m m' : BitMap} {d d' : Disk} {size : Nat}
    {newHdr : Nat → FileHeader} {curSector time : BitVec 32} (hn : dataSectors size ≠ NumDirect)
    (htrue : h.allocate m d newHdr curSector time size = some (some (h', m', d'))) :
    m'.numBits = m.numBits ∧ ∀ s, ¬ Vacant m s → d' s = d s := by
  have hclear : dataSectors size ≤ m.numClear := by
    by_contra hfull
    rw [FileHeader.allocate_of_full (Nat.not_le.mp hfull)] at htrue
    cases htrue
  rw [allocate_of_clear hclear] at htrue
  obtain ⟨b, hrounds, htrue⟩ := Option.bind_eq_some_iff.mp htrue
  obtain ⟨r, hfinish, hr⟩ := Option.bind_eq_some_iff.mp htrue
  cases hr
  obtain ⟨hb, hhdr⟩ := Building.within_rounds hrounds
  exact hb.finish (fun hle => hhdr (lt_of_le_of_ne hle hn.symm)) hfinish

/-! ## The other files -/

/-- What a file system with the files of `v` keeps when a file is created. -/
structure CreateFrame (v : Volume) (d d' : Disk) : Prop where
  /-- Only the contents of the free map and of the directory change, and sectors that
  were free. -/
  sectors : ∀ s, s < NumSectors → d' s ≠ d s →
    s ∈ v.freeMap.data ∨ s ∈ v.directory.data ∨ freeMapBit d s = false
  /-- The headers of every file are the same, and the length with them. -/
  headers : ∀ k L, v.file k = some L → L.OnDisk d' ∧ ∀ s ∈ L.headers, d' s = d s
  /-- The contents of every other file are the same. -/
  contents : ∀ k L, v.file k = some L → k ≠ .freeMap → k ≠ .directory →
    ∀ x, x < L.length → L.byte d' x = L.byte d x

namespace Volume

variable {v : Volume} {fs fs' : FileSystem} {mem : Strings} {f : Fresh} {name : BitVec 32}
  {dir' : Directory} {m : BitMap} {q s : Nat} {d d' : Disk}

theorem Has.lt (hs : v.Has s) : s < NumSectors := by
  obtain ⟨k, L, _, hmem⟩ := hs
  exact L.sector_lt s hmem

theorem pipeSector_mem (v : Volume) : PipeSector ∈ v.pipe.headers := by
  rw [v.pipe_headers]
  exact List.mem_singleton_self _

/-- It is enough that the sectors of the files are kept. -/
theorem createFrame_of_same (hd : v.OnDisk d)
    (hsame : ∀ s, v.Has s → s ∉ v.directory.data → s ∉ v.freeMap.data → d' s = d s) :
    CreateFrame v d d' where
  sectors s hs hne := by
    by_contra hnot
    rw [not_or, not_or, Bool.not_eq_false, freeMapBit_eq hd hs] at hnot
    exact hne (hsame s hnot.2.2 hnot.2.1 hnot.1)
  headers k L hL := by
    have hheaders : ∀ s ∈ L.headers, d' s = d s := by
      intro s hs
      obtain ⟨hdir, hmap⟩ := header_not_meta hL hs
      exact hsame s ⟨k, L, hL, List.mem_append_left _ hs⟩ hdir hmap
    exact ⟨(hd.files k L hL).congr hheaders, hheaders⟩
  contents k L hL hmap hdir x hx := by
    refine Layout.byte_congr (fun s hs => ?_) (Layout.sector_of_lt hx)
    have hmem : s ∈ L.sectors := List.mem_append_right _ hs
    refine hsame s ⟨k, L, hL, hmem⟩ (fun h => ?_) fun h => ?_
    · exact disjoint (j := .directory) (Ne.symm hdir) rfl hL (List.mem_append_right _ h) hmem
    · exact disjoint (j := .freeMap) (Ne.symm hmap) rfl hL (List.mem_append_right _ h) hmem

/-- The copies that `Create` has prepared. -/
theorem prepared_spec (hv : v.Mounted fs) (hp : Prepared fs mem f name dir' m q) :
    dir'.tableSize = NumDirEntries ∧ m.numBits = NumSectors ∧ q < NumSectors ∧ ¬ v.Has q ∧
      ∀ s, v.Has s → ¬ Vacant (m.setBit q) s := by
  obtain ⟨dir, hfetch, _, hadd⟩ := hp.directory
  obtain ⟨dir1, hfetch1, hsize, _⟩ := fetchDirectory_spec hv f
  obtain rfl := Option.some.inj (hfetch.symm.trans hfetch1)
  obtain ⟨m1, hmap1, hnum, hbits, _⟩ := fetchFreeMap_spec hv f
  obtain rfl := Option.some.inj (hp.freeMap.symm.trans hmap1)
  obtain ⟨_, i, _, rfl⟩ := (add_eq_some _).mp hadd
  have hq : q < NumSectors := hnum ▸ hp.vacant.1
  refine ⟨hsize, hnum, hq, not_has hbits hq hp.vacant.2, fun s hs hvacant => ?_⟩
  have hset := (hbits s hs.lt).mpr hs
  have hclear := hvacant.2
  rw [BitMap.testBit_setBit, hset, Bool.or_true] at hclear
  cases hclear

/-- `Create` keeps the other files and writes the new directory, for a file that does
not just fill its first header. -/
theorem create_of_ne (hv : v.Mounted fs) {size : Nat} (hn : dataSectors size ≠ NumDirect)
    (htrue : fs.create mem f name size = some (true, fs')) :
    CreateFrame v fs.disk fs'.disk ∧ fs'.directoryFile = fs.directoryFile ∧
      ∃ dir' m q, Prepared fs mem f name dir' m q ∧ q < NumSectors ∧
        ∀ x, x < DirectoryFileSize → v.directory.byte fs'.disk x = dir'.table x := by
  obtain ⟨hfalse, -⟩ | ⟨-, dir', m, q, hp, h, m', d1, halloc, hcommit⟩ := create_cases htrue
  · cases hfalse
  obtain ⟨hsize, hnum, hq, hfree, hheld⟩ := prepared_spec hv hp
  obtain ⟨hnum', hwithin⟩ := allocate_within hn halloc
  have hsame : ∀ s, v.Has s → d1 s = fs.disk s := fun s hs => hwithin s (hheld s hs)
  obtain ⟨d2, hcommit2, hrest, hbyte, _⟩ := commit_spec hv hq hfree
    (fun s hs => hsame s (has_of_headers hs)) dir' hsize (hnum'.trans hnum) f h
  obtain rfl := Option.some.inj (hcommit2.symm.trans hcommit)
  refine ⟨createFrame_of_same hv.onDisk fun s hs hdir hmap => ?_, rfl, dir', m, q, hp, hq, hbyte⟩
  have hne : s ≠ q := by
    rintro rfl
    exact hfree hs
  show d2 s = fs.disk s
  rw [hrest s hdir hmap, update_of_ne hne, hsame s hs]

/-- The header of the pipe does not have the new data sectors. -/
theorem pipe_header_ne (hv : v.Mounted fs) (hheld : ∀ s, v.Has s → ¬ Vacant m s) {m' : BitMap}
    {h : FileHeader} {data : List Nat} (hslots : Building.Slots data 0 h)
    (hsectors : h.numSectors = BitVec.ofInt 32 NumDirect) (hdata : data.length = NumDirect)
    (htaken : m.Taken m' data) : fs.disk PipeSector ≠ h.encode := by
  intro heq
  have hhead := (hv.onDisk.files .pipe _ rfl).head
  have hheader : v.pipe.header = PipeSector := by simp [Layout.header, v.pipe_headers]
  rw [hheader, heq, FileHeader.decode_encode] at hhead
  have hlen := hhead.numSectors
  rw [hsectors] at hlen
  have hpipe : 0 < v.pipe.data.length := by
    have hnum : (BitVec.ofInt 32 (NumDirect : Int)).toInt = NumDirect := by decide
    rw [hnum, numDirect_eq] at hlen
    omega
  have hnew : 0 < data.length := by
    rw [hdata, numDirect_eq]
    decide
  have hfirst := hhead.sectors ⟨0, by decide⟩ _ (List.getElem?_eq_getElem hpipe)
  have hfirst' := hslots ⟨0, by decide⟩ _ (List.getElem?_eq_getElem hnew)
  have hsame : v.pipe.data[0] = data[0] := Int.ofNat_inj.mp (hfirst.symm.trans hfirst')
  have hvacant := htaken.free _ (List.getElem_mem hnew)
  refine hheld data[0] ?_ hvacant
  rw [← hsame]
  exact ⟨.pipe, _, rfl, List.mem_append_right _ (List.getElem_mem hpipe)⟩

/-- A file that just fills its first header, when `cur_sector` happens to be the
sector of the pipe: the header of the pipe is overwritten. -/
theorem create_over_pipe (hv : v.Mounted fs) {size : Nat} (hn : dataSectors size = NumDirect)
    (hp : Prepared fs mem f name dir' m q) (hclear : NumDirect ≤ (m.setBit q).numClear) :
    ∃ fs', fs.create mem { f with curSector := BitVec.ofNat 32 PipeSector } name size =
        some (true, fs') ∧ fs'.disk PipeSector ≠ fs.disk PipeSector := by
  obtain ⟨hsize, hnum, hq, hfree, hheld⟩ := prepared_spec hv hp
  obtain ⟨h', h'', m', data, -, hslots, hsectors, hdata, htaken, halloc⟩ := allocate_direct f.header
    fs.disk f.newHdr (BitVec.ofNat 32 PipeSector) f.time (m := m.setBit q) hnum.le hn hclear
  rw [if_pos (by decide)] at halloc
  have hpipe : v.Has PipeSector := ⟨.pipe, _, rfl, List.mem_append_left _ v.pipeSector_mem⟩
  have hsame : ∀ s ∈ v.directory.headers ++ v.freeMap.headers,
      update fs.disk PipeSector h''.encode s = fs.disk s := by
    intro s hs
    rw [v.directory_headers, v.freeMap_headers] at hs
    refine update_of_ne ?_ _ _
    rintro rfl
    exact absurd hs (by decide)
  obtain ⟨d2, hcommit, hrest, _⟩ := commit_spec hv hq hfree hsame dir' hsize
    (htaken.numBits.trans hnum) { f with curSector := BitVec.ofNat 32 PipeSector } h'
  refine ⟨{ fs with disk := d2 }, ?_, fun heq => ?_⟩
  · exact (hp.curSector _).create_true halloc hcommit
  · obtain ⟨hdir, hmap⟩ := header_not_meta (v := v) (k := .pipe) rfl v.pipeSector_mem
    have hne : PipeSector ≠ q := by
      rintro rfl
      exact hfree hpipe
    have hwritten : d2 PipeSector = h''.encode := by
      rw [hrest PipeSector hdir hmap, update_of_ne hne, update_self]
    have heq' : d2 PipeSector = fs.disk PipeSector := heq
    exact pipe_header_ne hv hheld hslots hsectors hdata htaken (heq'.symm.trans hwritten)

end Volume

/-- A `Create` that returns `TRUE` keeps the other files for every value of the
uninitialised `cur_sector` of `Allocate`, if and only if the file does not just fill
its first header. -/
theorem create_frame_iff {v : Volume} {fs : FileSystem} (hv : v.Mounted fs) (mem : Strings)
    (f : Fresh) (name : BitVec 32) (size : Nat)
    (htrue : ∃ c fs', fs.create mem { f with curSector := c } name size = some (true, fs')) :
    (∀ c fs', fs.create mem { f with curSector := c } name size = some (true, fs') →
      CreateFrame v fs.disk fs'.disk) ↔ dataSectors size ≠ NumDirect := by
  constructor
  · intro hframe hn
    obtain ⟨c, fs0, htrue⟩ := htrue
    obtain ⟨hfalse, -⟩ | ⟨-, dir', m, q, hp, h, m', d', halloc, -⟩ := create_cases htrue
    · cases hfalse
    have hclear : NumDirect ≤ (m.setBit q).numClear := by
      by_contra hfull
      rw [← hn] at hfull
      rw [FileHeader.allocate_of_full (Nat.not_le.mp hfull)] at halloc
      cases halloc
    obtain ⟨fs', hcreate, hchanged⟩ := Volume.create_over_pipe hv hn hp hclear
    exact hchanged (((hframe _ fs' hcreate).headers .pipe v.pipe rfl).2 PipeSector
      v.pipeSector_mem)
  · intro hn c fs' hcreate
    exact (Volume.create_of_ne hv hn hcreate).1

/-- The first `Create` on a formatted disk is prepared. -/
theorem prepared_blank {v : Volume} {fs : FileSystem} (hv : v.Mounted fs)
    (hentry : ∀ i, v.entry i = none) (hclear : 0 < clearBits fs.disk) (mem : Strings) (f : Fresh)
    (name : BitVec 32) :
    ∃ dir' m q, Prepared fs mem f name dir' m q ∧
      (m.setBit q).numClear + 1 = clearBits fs.disk := by
  obtain ⟨dir, hfetch, hindex, hslot, -⟩ := Volume.fetchDirectory_blank hv hentry f
  obtain ⟨m, hmap, -, -, hcount⟩ := Volume.fetchFreeMap_spec hv f
  rw [← hcount] at hclear
  obtain ⟨q, hfind, hlt, hbit⟩ := BitMap.find_of_clear hclear
  refine ⟨_, m, q, .of_slot hfetch (hindex mem name) hslot hmap hfind ⟨hlt, hbit⟩, ?_⟩
  rw [← hcount]
  exact BitMap.numClear_setBit hlt hbit

/-- A file of 40 sectors is created on a formatted disk. -/
theorem create_frame_iff_forty :
    ∃ fs0 v, FileSystem.format (fun _ _ => 0) zeroFresh zeroFresh zeroFresh = some fs0 ∧
      v.Mounted fs0 ∧
      (∃ c fs', fs0.create (fun _ => some "a") { zeroFresh with curSector := c } 1 (5000 : Nat) =
        some (true, fs')) ∧
      ∀ c fs', fs0.create (fun _ => some "a") { zeroFresh with curSector := c } 1 (5000 : Nat) =
        some (true, fs') → CreateFrame v fs0.disk fs'.disk := by
  obtain ⟨fs0, fs', v, _, _, _, hformat, hv, -, hcreate, -⟩ :=
    exists_created (fun _ => some "a") 1 5000 (by decide) (by decide)
  have htrue : ∃ c fs', fs0.create (fun _ => some "a") { zeroFresh with curSector := c } 1
      (5000 : Nat) = some (true, fs') := ⟨zeroFresh.curSector, fs', hcreate⟩
  exact ⟨fs0, v, hformat, hv, htrue,
    (create_frame_iff hv (fun _ => some "a") zeroFresh 1 5000 htrue).mpr (by decide)⟩

/-- A file of 26 sectors is created on a formatted disk, and `cur_sector` happens to
be 2: the header of the pipe, which is not free, is overwritten. -/
theorem create_loses_pipe :
    ∃ fs0 fs v, FileSystem.format (fun _ _ => 0) zeroFresh zeroFresh zeroFresh = some fs0 ∧
      v.Mounted fs0 ∧
      fs0.create (fun _ => some "a") { zeroFresh with curSector := 2 } 1 (3328 : Nat) =
        some (true, fs) ∧
      freeMapBit fs0.disk PipeSector = true ∧ fs.disk PipeSector ≠ fs0.disk PipeSector ∧
      ¬ CreateFrame v fs0.disk fs.disk := by
  obtain ⟨fs0, v, hformat, hv, hentry, hclear, -⟩ :=
    format_spec (fun _ _ => 0) zeroFresh zeroFresh zeroFresh
  obtain ⟨dir', m, q, hp, hcount⟩ := prepared_blank hv hentry (by rw [hclear]; decide)
    (fun _ => some "a") zeroFresh 1
  have hn : dataSectors 3328 = NumDirect := by decide
  obtain ⟨fs, hcreate, hchanged⟩ := Volume.create_over_pipe hv hn hp (by rw [numDirect_eq]; omega)
  refine ⟨fs0, fs, v, hformat, hv, hcreate, ?_, hchanged, fun hframe => ?_⟩
  · rw [Volume.freeMapBit_eq hv.onDisk (by decide)]
    exact ⟨.pipe, _, rfl, List.mem_append_left _ v.pipeSector_mem⟩
  · exact hchanged ((hframe.headers .pipe v.pipe rfl).2 PipeSector v.pipeSector_mem)

end Nachos.Filesys

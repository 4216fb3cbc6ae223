import Nachos.Lib.WriteBack
import Nachos.Machine.Memory

/-!
# Demand paging is transparent

The frames of main memory are a write-back cache of the `disk` arrays.
`cache` reads a memory as such a cache: its pages are the pages of the
threads.  A page fault is an eviction followed by a fill, a read leaves the
cache as it is, and a write changes one frame (`reverseTableReplace_spec`,
`readMem_spec`, `writeMem_spec`).

`Paged` ties the cache to one flat byte array for each thread.  The threads
have distinct ids and do not share arrays; that is `Private`.
`demand_paging_transparent` follows by induction over the accesses.
-/

namespace Nachos.Machine

open Function Lib Threads

/-! ## Memory as a cache -/

/-- The threads that have an address space exist, and each has an array of its
own. -/
structure Private (ids : ThreadIds) (live : ThreadPtr → Prop)
    (space : ThreadPtr → Option AddrSpace) (disk : Nat → CharArray) : Prop where
  ids : ids.Valid live
  live : ∀ t sp, space t = some sp → live t
  own : ∀ t u sp sp', space t = some sp → space u = some sp' → sp.disk = sp'.disk → t = u
  size : ∀ t sp, space t = some sp → (disk sp.disk).size = sp.numPages * PageSize

/-- One flat byte array for each thread. -/
abbrev FlatMemory := ThreadPtr → Bytes

/-- The contents of a page. -/
abbrev Page := Fin PageSize → Byte

/-- The pages of the flat arrays. -/
def FlatMemory.page (flat : FlatMemory) (k : ThreadPtr × Nat) : Page :=
  fun j => flat k.1 (k.2 * PageSize + j)

/-- The arrays of the address spaces as flat arrays. -/
def flatOf (space : ThreadPtr → Option AddrSpace) (disk : Nat → CharArray) : FlatMemory :=
  fun t =>
    match space t with
    | some sp => (disk sp.disk).get
    | none => fun _ => 0

/-- A change of an array changes the flat array of its thread. -/
theorem Private.flatOf_update {ids : ThreadIds} {live : ThreadPtr → Prop}
    {space : ThreadPtr → Option AddrSpace} {disk : Nat → CharArray} {t : ThreadPtr}
    {sp : AddrSpace} (h : Private ids live space disk) (ht : space t = some sp)
    (bytes : CharArray) :
    flatOf space (update disk sp.disk bytes) = update (flatOf space disk) t bytes.get := by
  funext u
  by_cases hut : u = t
  · subst hut
    simp [flatOf, ht]
  · rw [update_of_ne hut]
    cases hu : space u with
    | none => simp [flatOf, hu]
    | some sp' =>
      have hd : sp'.disk ≠ sp.disk := fun he => hut (h.own u t sp' sp hu ht he)
      simp [flatOf, hu, update_of_ne hd]

namespace Memory

/-- The frames as a cache of the arrays. -/
def cache (m : Memory) (ids : ThreadIds) :
    Cache (Fin NumPhysPages) (ThreadPtr × Nat) Page where
  tag i :=
    if (m.rtPageTable i).valid then
      (ids.threadPoiners (m.rtPageTable i).tid.toNat).map fun t =>
        (t, (m.rtPageTable i).virtualPage.toNat)
    else none
  dirty i := (m.rtPageTable i).dirty
  data i j := m.mainMemory.get (i * PageSize + j)
  store := (flatOf m.space m.disk).page

/-- The table maps pages of the address spaces. -/
structure Mapped (ids : ThreadIds) (live : ThreadPtr → Prop) (m : Memory) : Prop where
  spaces : Private ids live m.space m.disk
  size : m.mainMemory.size = MemorySize
  frame : ∀ i, (m.rtPageTable i).physicalPage = i
  writable : ∀ i, (m.rtPageTable i).readOnly = false
  page : ∀ i, (m.rtPageTable i).valid = true → ∃ t sp vpn, m.space t = some sp ∧
    vpn < sp.numPages ∧ (m.rtPageTable i).tid = ids.tid t ∧
      (m.rtPageTable i).virtualPage = (vpn : Nat)

/-- The invariant of demand paging. -/
structure Paged (ids : ThreadIds) (live : ThreadPtr → Prop) (flat : FlatMemory) (m : Memory) :
    Prop extends m.Mapped ids live where
  contents : (m.cache ids).Represents flat.page

variable {ids : ThreadIds} {live : ThreadPtr → Prop} {flat : FlatMemory} {m : Memory}
  {t : ThreadPtr} {sp : AddrSpace} {vpn : Nat} {i : Fin NumPhysPages}

/-! ## The table -/

theorem diskOf_tid (h : Private ids live m.space m.disk) (ht : m.space t = some sp) :
    m.diskOf ids (ids.tid t) = some sp.disk := by
  simp [diskOf, h.ids.poiner_eq t (h.live t sp ht), ht]

theorem cache_tag (h : Private ids live m.space m.disk) (ht : m.space t = some sp)
    (hvalid : (m.rtPageTable i).valid = true) (htid : (m.rtPageTable i).tid = ids.tid t)
    (hvpn : (m.rtPageTable i).virtualPage = vpn) : (m.cache ids).tag i = some (t, vpn) := by
  simp [cache, hvalid, htid, hvpn, h.ids.poiner_eq t (h.live t sp ht)]

/-- An entry that the search finds holds the page. -/
theorem lookup_eq_some (h : Private ids live m.space m.disk) (ht : m.space t = some sp)
    (hl : m.lookup (ids.tid t) vpn = some i) : (m.cache ids).tag i = some (t, vpn) := by
  obtain ⟨hvalid, hvpn, htid⟩ := lookup_spec hl
  exact cache_tag h ht hvalid htid hvpn

/-- When the search fails, no frame holds the page. -/
theorem lookup_eq_none (h : m.Paged ids live flat) (hl : m.lookup (ids.tid t) vpn = none) :
    ∀ i, (m.cache ids).tag i ≠ some (t, vpn) := by
  intro i htag
  cases hvalid : (m.rtPageTable i).valid with
  | false => simp [cache, hvalid] at htag
  | true =>
    obtain ⟨u, sp, v, hu, _, htid, hvpn⟩ := h.page i hvalid
    rw [cache_tag h.spaces hu hvalid htid hvpn] at htag
    cases htag
    have hnot := List.find?_eq_none.mp hl i (List.mem_finRange i)
    simp [hvalid, htid, hvpn] at hnot

/-! ## A page fault -/

theorem page_bound (h : Private ids live m.space m.disk) (ht : m.space t = some sp)
    (hv : vpn < sp.numPages) : vpn * PageSize + PageSize ≤ (m.disk sp.disk).size := by
  rw [h.size t sp ht, ← Nat.succ_mul]
  exact Nat.mul_le_mul_right _ hv

theorem frame_bound (hsize : m.mainMemory.size = MemorySize) (i : Fin NumPhysPages) :
    i * PageSize + PageSize ≤ m.mainMemory.size := by
  rw [hsize, ← Nat.succ_mul, MemorySize]
  exact Nat.mul_le_mul_right _ i.isLt

/-- A byte lies in one page only. -/
theorem in_page_iff {p q : Nat} (j : Fin PageSize) :
    p * PageSize ≤ q * PageSize + j ∧ q * PageSize + j < p * PageSize + PageSize ↔ q = p := by
  have hj := j.isLt
  simp only [PageSize, SectorSize] at *
  omega

/-- A copied page. -/
theorem copy_page (dst src : Bytes) (p q s : Nat) (j : Fin PageSize) :
    dst.copy (p * PageSize) src s PageSize (q * PageSize + j) =
      if q = p then src (s + j) else dst (q * PageSize + j) := by
  rw [Bytes.copy_apply]
  by_cases hq : q = p
  · rw [if_pos hq, if_pos ((in_page_iff j).mpr hq), hq, Nat.add_sub_cancel_left]
  · rw [if_neg hq, if_neg (fun hin => hq ((in_page_iff j).mp hin))]

/-- The write-back brings the store up to date for the frame. -/
theorem writeBack_spec (h : m.Paged ids live flat) (i : Fin NumPhysPages) :
    ∃ disk, m.writeBack ids i = some { m with disk := disk } ∧
      Private ids live m.space disk ∧
      (flatOf m.space disk).page = ((m.cache ids).evict i).store := by
  cases hvalid : (m.rtPageTable i).valid with
  | false =>
    refine ⟨m.disk, by simp [writeBack, hvalid], h.spaces, ?_⟩
    simp [Cache.evict, cache, hvalid]
  | true =>
    obtain ⟨t, sp, vpn, ht, hv, htid, hvpn⟩ := h.page i hvalid
    have htag := cache_tag h.spaces ht hvalid htid hvpn
    cases hdirty : (m.rtPageTable i).dirty with
    | false =>
      refine ⟨m.disk, by simp [writeBack, hvalid, hdirty], h.spaces, ?_⟩
      have hclean : (m.cache ids).dirty i = false := hdirty
      simp only [Cache.evict, htag, hclean, Bool.false_eq_true, if_false]
      rfl
    | true =>
      have hcopy := CharArray.copy_of_le (page_bound h.spaces ht hv) (frame_bound h.size i)
      refine ⟨update m.disk sp.disk
        { m.disk sp.disk with
          get := (m.disk sp.disk).get.copy (vpn * PageSize) m.mainMemory.get (i * PageSize)
            PageSize }, ?_, ?_, ?_⟩
      · simp [writeBack, hvalid, hdirty, htid, hvpn, h.frame i, diskOf_tid h.spaces ht, hcopy]
      · refine ⟨h.spaces.ids, h.spaces.live, h.spaces.own, fun u sp' hu => ?_⟩
        by_cases hd : sp'.disk = sp.disk
        · rw [hd, update_self]
          simpa [hd] using h.spaces.size u sp' hu
        · rw [update_of_ne hd]
          exact h.spaces.size u sp' hu
      · have hstore : ((m.cache ids).evict i).store =
            update (flatOf m.space m.disk).page (t, vpn) ((m.cache ids).data i) := by
          have hmarked : (m.cache ids).dirty i = true := hdirty
          simp only [Cache.evict, htag, hmarked, if_true]
          rfl
        rw [hstore, h.spaces.flatOf_update ht]
        funext p j
        obtain ⟨u, v⟩ := p
        by_cases hut : u = t
        · subst hut
          simp only [FlatMemory.page, update_self, copy_page]
          by_cases hvv : v = vpn
          · subst hvv
            simp [cache]
          · simp [hvv, FlatMemory.page, flatOf, ht]
        · have hne : (u, v) ≠ (t, vpn) := by simp [hut]
          simp [FlatMemory.page, update_of_ne hut, update_of_ne hne]

/-- The page of the thread is read into the frame. -/
theorem readPage_spec (h : Private ids live m.space m.disk)
    (hsize : m.mainMemory.size = MemorySize) (hframe : (m.rtPageTable i).physicalPage = i)
    (ht : m.space t = some sp) (hv : vpn < sp.numPages) :
    ∃ bytes, bytes.size = MemorySize ∧
      m.readPage ids (ids.tid t) vpn i = some (m.install (ids.tid t) vpn i bytes) ∧
      (m.install (ids.tid t) vpn i bytes).cache ids = (m.cache ids).fill i (t, vpn) := by
  refine ⟨{ m.mainMemory with
    get := m.mainMemory.get.copy (i * PageSize) (m.disk sp.disk).get (vpn * PageSize)
      PageSize }, hsize, ?_, ?_⟩
  · simp only [readPage, diskOf_tid h ht, hframe,
      CharArray.copy_of_le (frame_bound hsize i) (page_bound h ht hv), Option.map_some]
  · have hpoiner := h.ids.poiner_eq t (h.live t sp ht)
    simp only [Cache.fill, cache, Cache.mk.injEq]
    refine ⟨?_, ?_, ?_, rfl⟩
    · funext g
      by_cases hgi : g = i
      · subst hgi
        simp [install, hpoiner]
      · simp [install, update_of_ne hgi]
    · funext g
      by_cases hgi : g = i
      · subst hgi
        simp [install]
      · simp [install, update_of_ne hgi]
    · funext g j
      show Bytes.copy _ _ _ _ _ _ = _
      rw [copy_page]
      by_cases hgi : g = i
      · subst hgi
        simp [FlatMemory.page, flatOf, ht]
      · have hne : (g : Nat) ≠ i := fun he => hgi (Fin.ext he)
        simp [hne, update_of_ne hgi]

theorem Mapped.install {bytes : CharArray} (h : m.Mapped ids live) (ht : m.space t = some sp)
    (hv : vpn < sp.numPages) (hbytes : bytes.size = MemorySize) :
    (m.install (ids.tid t) vpn i bytes).Mapped ids live := by
  refine ⟨h.spaces, hbytes, ?_, ?_, ?_⟩
  · intro g
    by_cases hgi : g = i
    · subst hgi
      simpa [Memory.install] using h.frame g
    · simpa [Memory.install, update_of_ne hgi] using h.frame g
  · intro g
    by_cases hgi : g = i
    · subst hgi
      simpa [Memory.install] using h.writable g
    · simpa [Memory.install, update_of_ne hgi] using h.writable g
  · intro g hg
    by_cases hgi : g = i
    · subst hgi
      exact ⟨t, sp, vpn, ht, hv, by simp [Memory.install], by simp [Memory.install]⟩
    · simp only [Memory.install, update_of_ne hgi] at hg ⊢
      exact h.page g hg

/-- A page fault is an eviction and a fill. -/
theorem reverseTableReplace_spec (h : m.Paged ids live flat) {address : BitVec 32}
    (random : Nat) (ht : m.space t = some sp) (hv : address.toNat / PageSize < sp.numPages)
    (habsent : m.lookup (ids.tid t) (address.toNat / PageSize) = none) :
    ∃ m', m.reverseTableReplace ids (ids.tid t) address random = some m' ∧
      m'.Paged ids live flat ∧ m'.space = m.space ∧
      m'.cache ids = ((m.cache ids).evict (m.position random)).fill (m.position random)
        (t, address.toNat / PageSize) := by
  generalize hvpn : address.toNat / PageSize = vpn at hv habsent ⊢
  generalize hi : m.position random = i
  obtain ⟨disk, hback, hpriv, hstore⟩ := writeBack_spec h i
  obtain ⟨bytes, hbytes, hread, hcache⟩ := readPage_spec (m := { m with disk := disk })
    hpriv h.size (h.frame i) ht hv
  have hevict : ({ m with disk := disk }.cache ids).fill i (t, vpn) =
      ((m.cache ids).evict i).fill i (t, vpn) := by
    have hfill : ({ m with disk := disk }.cache ids) =
        { m.cache ids with store := ((m.cache ids).evict i).store } := by
      rw [← hstore]
      rfl
    rw [hfill]
    simp [Cache.fill, Cache.evict]
  have hmapped : { m with disk := disk }.Mapped ids live :=
    ⟨hpriv, h.size, h.frame, h.writable, h.page⟩
  refine ⟨_, ?_, ⟨hmapped.install ht hv hbytes, ?_⟩, rfl, hcache.trans hevict⟩
  · rw [reverseTableReplace, hvpn, hi, hback]
    exact hread
  · rw [hcache, hevict]
    refine (h.contents.evict i).fill (by simp [Cache.evict]) fun g hg => ?_
    exact lookup_eq_none h habsent g (Cache.evict_tag_eq_some.mp hg).2

/-! ## Accesses -/

/-- The access is aligned and lies in the address space. -/
def InSpace (sp : AddrSpace) (addr : BitVec 32) (size : Nat) : Prop :=
  (size = 1 ∨ size = 2 ∨ size = 4) ∧ addr.toNat % size = 0 ∧
    addr.toNat + size ≤ sp.numPages * PageSize

variable {addr : BitVec 32} {size : Nat}

theorem and_mask_eq_zero {k : Nat} (hk : k < 32) (h : addr.toNat % 2 ^ k = 0) :
    addr &&& BitVec.ofNat 32 (2 ^ k - 1) = 0 := by
  have hlt : 2 ^ k < 2 ^ 32 := Nat.pow_lt_pow_right (by decide) hk
  apply BitVec.eq_of_toNat_eq
  rw [BitVec.toNat_and, BitVec.toNat_ofNat, Nat.mod_eq_of_lt (by omega),
    Nat.and_two_pow_sub_one_eq_mod, h]
  rfl

theorem InSpace.aligned (h : InSpace sp addr size) : misaligned addr size = false := by
  obtain ⟨hsize, hmod, _⟩ := h
  rcases hsize with rfl | rfl | rfl
  · rfl
  · have hand : addr &&& 1#32 = 0#32 := and_mask_eq_zero (k := 1) (by decide) hmod
    simp [misaligned, hand]
  · have hand : addr &&& 3#32 = 0#32 := and_mask_eq_zero (k := 2) (by decide) hmod
    simp [misaligned, hand]

/-- An aligned access lies in one page. -/
theorem offset_le_of_aligned (hsize : size = 1 ∨ size = 2 ∨ size = 4)
    (h : misaligned addr size = false) : addr.toNat % PageSize + size ≤ PageSize := by
  have hmask (k : Nat) (hand : addr &&& BitVec.ofNat 32 (2 ^ k - 1) = 0) (hk : k < 32) :
      addr.toNat % 2 ^ k = 0 := by
    have hlt : 2 ^ k < 2 ^ 32 := Nat.pow_lt_pow_right (by decide) hk
    have hnat := congrArg BitVec.toNat hand
    rw [BitVec.toNat_and, BitVec.toNat_ofNat, Nat.mod_eq_of_lt (by omega),
      Nat.and_two_pow_sub_one_eq_mod] at hnat
    exact hnat
  simp only [PageSize, SectorSize]
  rcases hsize with rfl | rfl | rfl
  · omega
  · have hmod := hmask 1 (by simpa [misaligned] using h) (by decide)
    omega
  · have hmod := hmask 2 (by simpa [misaligned] using h) (by decide)
    omega

theorem InSpace.offset_le (h : InSpace sp addr size) :
    addr.toNat % PageSize + size ≤ PageSize :=
  offset_le_of_aligned h.1 h.aligned

theorem InSpace.page_lt (h : InSpace sp addr size) : addr.toNat / PageSize < sp.numPages := by
  obtain ⟨hsize, _, hle⟩ := h
  refine Nat.div_lt_of_lt_mul ?_
  rw [Nat.mul_comm]
  rcases hsize with rfl | rfl | rfl <;> omega

/-- A translation misses, or finds the frame of the page. -/
theorem translate_spec (h : m.Paged ids live flat) (ht : m.space t = some sp)
    (hin : InSpace sp addr size) (writing : Bool) :
    m.lookup (ids.tid t) (addr.toNat / PageSize) = none ∧
        m.translate (ids.tid t) addr size writing = some (.error .pageFaultException) ∨
      ∃ i, (m.cache ids).tag i = some (t, addr.toNat / PageSize) ∧
        m.translate (ids.tid t) addr size writing =
          some (.ok (i * PageSize + addr.toNat % PageSize, m.touch i writing)) := by
  cases hl : m.lookup (ids.tid t) (addr.toNat / PageSize) with
  | none => exact Or.inl ⟨rfl, by simp [translate, hin.aligned, hl]⟩
  | some i =>
    refine Or.inr ⟨i, lookup_eq_some h.spaces ht hl, ?_⟩
    have hbus : ¬ NumPhysPages ≤ (i : Nat) := Nat.not_le.mpr i.isLt
    have hassert : i * PageSize + addr.toNat % PageSize + size ≤ MemorySize := by
      have hframe := frame_bound h.size i
      rw [h.size] at hframe
      have := hin.offset_le
      omega
    simp [translate, hin.aligned, hl, h.writable i, h.frame i, hbus, hassert]

theorem readValue_congr {f g : Bytes} {a b : Nat} (hsize : size = 1 ∨ size = 2 ∨ size = 4)
    (h : ∀ j, j < size → f (a + j) = g (b + j)) : readValue f a size = readValue g b size := by
  rcases hsize with rfl | rfl | rfl
  · simpa [readValue] using congrArg (BitVec.signExtend 32) (h 0 (by decide))
  · simp only [readValue, Bytes.load_congr h]
  · simp only [readValue, Bytes.load_congr h]

theorem size_of_readValue {f : Bytes} {a : Nat} {v : BitVec 32}
    (h : readValue f a size = some v) : size = 1 ∨ size = 2 ∨ size = 4 := by
  unfold readValue at h
  split at h
  · exact Or.inl rfl
  · exact Or.inr (Or.inl rfl)
  · exact Or.inr (Or.inr rfl)
  · cases h

theorem size_of_writeValue {f f' : Bytes} {a : Nat} {v : BitVec 32}
    (h : writeValue f a size v = some f') : size = 1 ∨ size = 2 ∨ size = 4 := by
  unfold writeValue at h
  split at h
  · exact Or.inl rfl
  · exact Or.inr (Or.inl rfl)
  · exact Or.inr (Or.inr rfl)
  · cases h

theorem readValue_isSome (f : Bytes) (a : Nat) (hsize : size = 1 ∨ size = 2 ∨ size = 4) :
    ∃ v, readValue f a size = some v := by
  rcases hsize with rfl | rfl | rfl <;> exact ⟨_, rfl⟩

/-- A read from a copy of the page. -/
theorem readValue_page {f g : Bytes} {p : Nat} (hsize : size = 1 ∨ size = 2 ∨ size = 4)
    (hoff : addr.toNat % PageSize + size ≤ PageSize)
    (h : ∀ j, j < PageSize → f (p * PageSize + j) = g (addr.toNat / PageSize * PageSize + j)) :
    readValue f (p * PageSize + addr.toNat % PageSize) size = readValue g addr.toNat size := by
  refine readValue_congr hsize fun j hj => ?_
  have hbyte := h (addr.toNat % PageSize + j) (by omega)
  have hsplit : addr.toNat / PageSize * PageSize + (addr.toNat % PageSize + j) =
      addr.toNat + j := by
    have := Nat.div_add_mod' addr.toNat PageSize
    omega
  rw [hsplit, ← Nat.add_assoc] at hbyte
  exact hbyte

theorem writeValue_eq (f : Bytes) (a : Nat) (v : BitVec 32)
    (hsize : size = 1 ∨ size = 2 ∨ size = 4) :
    writeValue f a size v = some (f.store a v size) := by
  rcases hsize with rfl | rfl | rfl
  · rfl
  · rfl
  · rfl

/-- A resident byte is the byte of the flat array. -/
theorem Paged.byte (h : m.Paged ids live flat) (htag : (m.cache ids).tag i = some (t, vpn))
    {j : Nat} (hj : j < PageSize) :
    m.mainMemory.get (i * PageSize + j) = flat t (vpn * PageSize + j) :=
  congrFun (h.contents.resident i (t, vpn) htag) ⟨j, hj⟩

theorem Mapped.touch (h : m.Mapped ids live) (i : Fin NumPhysPages) (writing : Bool) :
    (m.touch i writing).Mapped ids live := by
  refine ⟨h.spaces, h.size, ?_, ?_, ?_⟩
  all_goals
    intro g
    obtain ⟨use, dirty, he⟩ := m.touch_entry i g writing
    rw [he]
  · exact h.frame g
  · exact h.writable g
  · exact h.page g

/-- A read leaves the cache as it is. -/
theorem cache_touch (i : Fin NumPhysPages) : (m.touch i false).cache ids = m.cache ids := by
  simp only [cache, Cache.mk.injEq]
  refine ⟨?_, ?_, rfl, rfl⟩
  all_goals
    funext g
    by_cases hgi : g = i
    · subst hgi
      simp [Memory.touch]
    · simp [Memory.touch, update_of_ne hgi]

/-- A write changes the frame. -/
theorem cache_touch_poke (i : Fin NumPhysPages) {f : Bytes}
    (hf : ∀ g : Fin NumPhysPages, ∀ j : Fin PageSize, g ≠ i →
      f (g * PageSize + j) = m.mainMemory.get (g * PageSize + j)) :
    ((m.touch i true).poke f).cache ids =
      (m.cache ids).modify i fun j => f (i * PageSize + j) := by
  simp only [cache, Cache.modify, Cache.mk.injEq]
  refine ⟨?_, ?_, ?_, rfl⟩
  on_goal 3 =>
    funext g j
    by_cases hgi : g = i
    · subst hgi
      rw [update_self]
      rfl
    · rw [update_of_ne hgi]
      exact hf g j hgi
  all_goals
    funext g
    by_cases hgi : g = i
    · subst hgi
      simp [Memory.touch, Memory.poke]
    · simp [Memory.touch, Memory.poke, update_of_ne hgi]

/-- `ReadMem` returns what the flat array of the thread holds. -/
theorem readMem_spec (h : m.Paged ids live flat) (ht : m.space t = some sp)
    (hin : InSpace sp addr size) (random : Nat) :
    ∃ m' r, m.readMem ids (ids.tid t) addr size random = some (m', r) ∧
      m'.Paged ids live flat ∧ m'.space = m.space ∧
      ∀ v, r = some v → readValue (flat t) addr.toNat size = some v := by
  rcases translate_spec h ht hin false with ⟨habsent, htr⟩ | ⟨i, htag, htr⟩
  · obtain ⟨m', hm', hpaged, hspace, _⟩ :=
      reverseTableReplace_spec h random ht hin.page_lt habsent
    exact ⟨m', none, by simp [readMem, htr, exceptionHandler, hm'], hpaged, hspace, by simp⟩
  · obtain ⟨v, hv⟩ := readValue_isSome (m.touch i false).mainMemory.get
      (i * PageSize + addr.toNat % PageSize) hin.1
    refine ⟨m.touch i false, some v, by simp [readMem, htr, hv],
      ⟨h.toMapped.touch i false, by rw [cache_touch]; exact h.contents⟩, rfl, ?_⟩
    rintro w ⟨⟩
    rw [← hv]
    exact (readValue_page hin.1 hin.offset_le fun j hj => h.byte htag hj).symm

/-- A store into a flat array changes one page, as a store into a copy of the
page does. -/
theorem page_store {f : Bytes} {p : Nat}
    (hf : ∀ j, j < PageSize → f (p * PageSize + j) =
      flat t (addr.toNat / PageSize * PageSize + j))
    (hoff : addr.toNat % PageSize + size ≤ PageSize) (v : BitVec 32) :
    FlatMemory.page (update flat t ((flat t).store addr.toNat v size)) =
      update flat.page (t, addr.toNat / PageSize) fun j =>
        f.store (p * PageSize + addr.toNat % PageSize) v size (p * PageSize + j) := by
  have hsplit := Nat.div_add_mod' addr.toNat PageSize
  funext p j
  obtain ⟨u, q⟩ := p
  have hj := j.isLt
  by_cases hut : u = t
  · subst hut
    simp only [FlatMemory.page, update_self]
    by_cases hq : q = addr.toNat / PageSize
    · subst hq
      rw [update_self, Bytes.store_apply, Bytes.store_apply, hf j hj]
      by_cases hin : addr.toNat % PageSize ≤ j ∧ (j : Nat) < addr.toNat % PageSize + size
      · rw [if_pos (by omega), if_pos (by omega)]
        congr 2
        omega
      · rw [if_neg (by omega), if_neg (by omega)]
    · have hne : (u, q) ≠ (u, addr.toNat / PageSize) := by simpa using hq
      rw [update_of_ne hne, Bytes.store_apply, if_neg]
      · rfl
      · intro hin
        exact hq ((in_page_iff j).mp (by omega))
  · have hne : (u, q) ≠ (t, addr.toNat / PageSize) := by simp [hut]
    simp [FlatMemory.page, update_of_ne hut, update_of_ne hne]

/-- A store into one frame leaves the others as they are. -/
theorem store_frame (f : Bytes) (v : BitVec 32)
    (hoff : addr.toNat % PageSize + size ≤ PageSize) (g : Fin NumPhysPages) (j : Fin PageSize)
    (hgi : g ≠ i) :
    f.store (i * PageSize + addr.toNat % PageSize) v size (g * PageSize + j) =
      f (g * PageSize + j) := by
  rw [Bytes.store_apply, if_neg]
  intro hin
  exact hgi (Fin.ext ((in_page_iff j).mp (by omega)))

/-- A store into a resident page, in memory and in the flat array. -/
theorem Paged.store (h : m.Paged ids live flat)
    (htag : (m.cache ids).tag i = some (t, addr.toNat / PageSize))
    (hoff : addr.toNat % PageSize + size ≤ PageSize) (v : BitVec 32) :
    ((m.touch i true).poke
      (m.mainMemory.get.store (i * PageSize + addr.toNat % PageSize) v size)).Paged ids live
        (update flat t ((flat t).store addr.toNat v size)) := by
  have htable := h.toMapped.touch i true
  refine ⟨⟨h.spaces, h.size, htable.frame, htable.writable, htable.page⟩, ?_⟩
  rw [cache_touch_poke i (store_frame _ v hoff), page_store (fun j hj => h.byte htag hj) hoff]
  exact h.contents.modify htag _

/-- `WriteMem` changes the flat array of the thread, or nothing. -/
theorem writeMem_spec (h : m.Paged ids live flat) (ht : m.space t = some sp)
    (hin : InSpace sp addr size) (v : BitVec 32) (random : Nat) :
    ∃ m' r, m.writeMem ids (ids.tid t) addr size v random = some (m', r) ∧
      m'.space = m.space ∧
      (r = false → m'.Paged ids live flat) ∧
      (r = true → ∃ f, writeValue (flat t) addr.toNat size v = some f ∧
        m'.Paged ids live (update flat t f)) := by
  rcases translate_spec h ht hin true with ⟨habsent, htr⟩ | ⟨i, htag, htr⟩
  · obtain ⟨m', hm', hpaged, hspace, _⟩ :=
      reverseTableReplace_spec h random ht hin.page_lt habsent
    exact ⟨m', false, by simp [writeMem, htr, exceptionHandler, hm'], hspace,
      fun _ => hpaged, by simp⟩
  · refine ⟨_, true, ?_, ?_, by simp,
      fun _ => ⟨_, writeValue_eq _ _ v hin.1, h.store htag hin.offset_le v⟩⟩
    · simp [writeMem, htr, writeValue_eq _ _ v hin.1, Memory.touch]
    · rfl

end Memory

/-! ## Runs -/

/-- The access is aligned and inside the address space of the thread. -/
def Request.InSpace (space : ThreadPtr → Option AddrSpace) (r : Request) : Prop :=
  ∃ sp, space r.thread = some sp ∧
    match r.access with
    | .read addr size => Memory.InSpace sp addr size
    | .write addr size _ => Memory.InSpace sp addr size

/-- A sequence of accesses, with the replies. -/
def Memory.serveAll (ids : ThreadIds) : Memory → List Request → Option (Memory × List Reply)
  | m, [] => some (m, [])
  | m, r :: rs =>
      (m.serve ids r).bind fun x => (serveAll ids x.1 rs).map fun y => (y.1, x.2 :: y.2)

/-- The replies are those of private flat arrays: a successful read returns
what the array of the thread holds, a successful write changes it, and a failed
access does nothing. -/
def FlatMemory.Answers : FlatMemory → List Request → List Reply → Prop
  | _, [], [] => True
  | flat, r :: rs, reply :: replies =>
      match r.access, reply with
      | _, .failed => Answers flat rs replies
      | .read addr size, .value v =>
          Memory.readValue (flat r.thread) addr.toNat size = some v ∧ Answers flat rs replies
      | .write addr size value, .done =>
          ∃ f, Memory.writeValue (flat r.thread) addr.toNat size value = some f ∧
            Answers (update flat r.thread f) rs replies
      | _, _ => False
  | _, _, _ => False

namespace Memory

variable {ids : ThreadIds} {live : ThreadPtr → Prop} {flat : FlatMemory} {m : Memory}

/-- One access keeps the invariant, and its reply is right. -/
theorem serve_spec (h : m.Paged ids live flat) {r : Request} (hr : r.InSpace m.space) :
    ∃ m' reply flat', m.serve ids r = some (m', reply) ∧ m'.Paged ids live flat' ∧
      m'.space = m.space ∧ ∀ rs replies, FlatMemory.Answers flat' rs replies →
        flat.Answers (r :: rs) (reply :: replies) := by
  obtain ⟨t, access, random⟩ := r
  obtain ⟨sp, ht, hin⟩ := hr
  cases access with
  | read addr size =>
    obtain ⟨m', v, hread, hpaged, hspace, hv⟩ := readMem_spec h ht hin random
    cases v with
    | none =>
      exact ⟨m', .failed, flat, by simp [serve, hread], hpaged, hspace, fun _ _ hrest => hrest⟩
    | some v =>
      exact ⟨m', .value v, flat, by simp [serve, hread], hpaged, hspace,
        fun _ _ hrest => ⟨hv v rfl, hrest⟩⟩
  | write addr size value =>
    obtain ⟨m', b, hwrite, hspace, hfailed, hdone⟩ := writeMem_spec h ht hin value random
    cases b with
    | false =>
      exact ⟨m', .failed, flat, by simp [serve, hwrite], hfailed rfl, hspace,
        fun _ _ hrest => hrest⟩
    | true =>
      obtain ⟨f, hf, hpaged⟩ := hdone rfl
      exact ⟨m', .done, _, by simp [serve, hwrite], hpaged, hspace,
        fun _ _ hrest => ⟨f, hf, hrest⟩⟩

/-- So does a sequence of accesses. -/
theorem serveAll_spec (rs : List Request) (h : m.Paged ids live flat)
    (hrs : ∀ r ∈ rs, r.InSpace m.space) :
    ∃ m' replies, serveAll ids m rs = some (m', replies) ∧ flat.Answers rs replies := by
  induction rs generalizing m flat with
  | nil => exact ⟨m, [], rfl, trivial⟩
  | cons r rs ih =>
    obtain ⟨m1, reply, flat1, hserve, hpaged, hspace, hanswer⟩ :=
      serve_spec h (hrs r List.mem_cons_self)
    obtain ⟨m2, replies, hall, hrest⟩ := ih hpaged fun r' hr' => by
      rw [hspace]
      exact hrs r' (List.mem_cons_of_mem r hr')
    exact ⟨m2, reply :: replies, by simp [serveAll, hserve, hall], hanswer rs replies hrest⟩

theorem serveAll_cons {m' : Memory} {r : Request} {rs : List Request} {replies : List Reply}
    (h : serveAll ids m (r :: rs) = some (m', replies)) :
    ∃ m₁ reply rest, m.serve ids r = some (m₁, reply) ∧
      serveAll ids m₁ rs = some (m', rest) ∧ replies = reply :: rest := by
  simp only [serveAll, Option.bind_eq_some_iff, Option.map_eq_some_iff] at h
  obtain ⟨⟨m₁, reply⟩, hserve, ⟨m₂, rest⟩, hall, heq⟩ := h
  cases heq
  exact ⟨m₁, reply, rest, hserve, hall, rfl⟩

/-- The machine after its construction, with the address spaces of the
threads. -/
theorem paged_boot {space : ThreadPtr → Option AddrSpace} {disk : Nat → CharArray}
    (dirty : Fin NumPhysPages → Bool) (h : Private ids live space disk) :
    ({ boot dirty disk with space := space } : Memory).Paged ids live (flatOf space disk) := by
  refine ⟨⟨h, rfl, fun _ => rfl, fun _ => rfl, fun i hi => ?_⟩,
    Cache.represents_empty fun i => rfl⟩
  cases hi

/-- Every access of every thread that is aligned and in its address space
returns, and the replies are those of one private flat byte array for each
thread, whatever the interleaving and the replaced frames. -/
theorem demand_paging_transparent (ids : ThreadIds) (live : ThreadPtr → Prop)
    (space : ThreadPtr → Option AddrSpace) (disk : Nat → CharArray)
    (hprivate : Private ids live space disk) (dirty : Fin NumPhysPages → Bool)
    (rs : List Request) (hrs : ∀ r ∈ rs, r.InSpace space) :
    ∃ m replies, serveAll ids { boot dirty disk with space := space } rs = some (m, replies) ∧
      (flatOf space disk).Answers rs replies :=
  serveAll_spec rs (paged_boot dirty hprivate) hrs

/-- Two threads, with the ids `0` and `1`. -/
def twoThreads : ThreadIds where
  threadIDOccupied i := i < 2
  threadPoiners i := if i < 2 then some i else none
  tid t := t

/-- Each of them has an address space of one page. -/
def onePage (t : ThreadPtr) : Option AddrSpace :=
  if t < 2 then some ⟨t, 1⟩ else none

theorem private_twoThreads :
    Private twoThreads (· < 2) onePage fun _ => ⟨PageSize, fun _ => 0⟩ where
  ids := by
    refine ⟨fun t ht => ?_, fun t ht => ?_, fun i => ?_, fun i hi => ?_⟩
    · exact Nat.lt_trans ht (by decide)
    · exact if_pos ht
    · simp [twoThreads]
    · simpa [twoThreads] using hi
  live t sp ht := by
    by_contra hlt
    simp [onePage, hlt] at ht
  own t u sp sp' ht hu hd := by
    simp only [onePage, Option.ite_none_right_eq_some, Option.some.injEq] at ht hu
    obtain ⟨_, rfl⟩ := ht
    obtain ⟨_, rfl⟩ := hu
    exact hd
  size t sp ht := by
    simp only [onePage, Option.ite_none_right_eq_some, Option.some.injEq] at ht
    obtain ⟨_, rfl⟩ := ht
    rfl

/-- The first thread writes, and both threads read the same address. -/
def writeAndRead : List Request :=
  [⟨0, .write 4 4 7, 0⟩, ⟨0, .write 4 4 7, 0⟩, ⟨1, .read 4 2, 0⟩, ⟨1, .read 4 2, 0⟩,
    ⟨0, .read 4 1, 0⟩]

/-- The threads do not see each other. -/
theorem demand_paging_transparent_two : ∃ m,
    serveAll twoThreads
        { boot (fun _ => true) (fun _ => ⟨PageSize, fun _ => 0⟩) with space := onePage }
        writeAndRead =
      some (m, [.failed, .done, .failed, .value 0, .value 7]) ∧
    (flatOf onePage fun _ => ⟨PageSize, fun _ => 0⟩).Answers writeAndRead
      [.failed, .done, .failed, .value 0, .value 7] := by
  obtain ⟨m, replies, hall, hanswers⟩ := demand_paging_transparent twoThreads (· < 2) onePage
    (fun _ => ⟨PageSize, fun _ => 0⟩) private_twoThreads (fun _ => true) writeAndRead (by
      simp [writeAndRead, Request.InSpace, onePage, InSpace, PageSize, SectorSize])
  have hreplies : (serveAll twoThreads
      { boot (fun _ => true) (fun _ => ⟨PageSize, fun _ => 0⟩) with space := onePage }
      writeAndRead).map Prod.snd =
        some [.failed, .done, .failed, .value 0, .value 7] := by
    decide +kernel
  rw [hall] at hreplies
  obtain rfl := Option.some.inj hreplies
  exact ⟨m, hall, hanswers⟩

end Memory

end Nachos.Machine

import Nachos.Machine.Paging
import Nachos.Userprog.Isolation

/-!
# One address space for several threads

`SC_Fork` gives the child the array of its parent.  `rt_page_table` has an
entry for a page of a thread, not for a page of an array, so a page that two
threads use is in two frames.

`UserState.pages` reads the frames as a cache of the arrays, and `Sharing` says
that this cache is coherent with one flat memory for each array.  A fault is
an eviction and a fill, and a write changes one frame.

* `forked_read_stale` is a run in which the child reads what the parent has
  overwritten.
* `shared_memory`: as long as a fault finds no changed frame with its page and
  a write finds no second frame with its page, every run is a run of one flat
  memory for each array.
-/

namespace Nachos.Userprog

open Function Lib Threads Machine

/-! ## The frames as a cache of the arrays -/

namespace UserState

/-- The frame holds the page `vpn` of the array, for the thread that has
filled it. -/
def Holds (x : UserState) (array vpn : Nat) (i : Fin NumPhysPages) : Prop :=
  (x.memory.rtPageTable i).valid = true ∧
    (x.memory.rtPageTable i).virtualPage.toNat = vpn ∧
      (x.memory.space (x.installer i)).map AddrSpace.disk = some array

instance (x : UserState) (array vpn : Nat) (i : Fin NumPhysPages) :
    Decidable (x.Holds array vpn i) :=
  inferInstanceAs (Decidable (_ ∧ _ ∧ _))

/-- The contents of the arrays. -/
def stored (disk : Nat → CharArray) : FlatMemory := fun d => (disk d).get

/-- The frames as a cache of the arrays. -/
def pages (x : UserState) : Cache (Fin NumPhysPages) (Nat × Nat) Page where
  tag i :=
    if (x.memory.rtPageTable i).valid then
      (x.memory.space (x.installer i)).map fun sp =>
        (sp.disk, (x.memory.rtPageTable i).virtualPage.toNat)
    else none
  dirty i := (x.memory.rtPageTable i).dirty
  data i j := x.memory.mainMemory.get (i * PageSize + j)
  store := (stored x.memory.disk).page

theorem pages_tag_eq_some {x : UserState} {i : Fin NumPhysPages} {array vpn : Nat} :
    x.pages.tag i = some (array, vpn) ↔ x.Holds array vpn i := by
  cases hvalid : (x.memory.rtPageTable i).valid with
  | false => simp [pages, Holds, hvalid]
  | true =>
    cases hsp : x.memory.space (x.installer i) with
    | none => simp [pages, Holds, hvalid, hsp]
    | some sp => simp [pages, Holds, hvalid, hsp, and_comm]

end UserState

/-- The threads with an address space see one flat memory for each array. -/
structure Sharing (s : Sched) (x : UserState) (flat : FlatMemory) : Prop where
  size : x.memory.mainMemory.size = MemorySize
  frame : ∀ i, (x.memory.rtPageTable i).physicalPage = i
  owner : ∀ i, (x.memory.rtPageTable i).valid = true →
    x.installer i < s.created ∧ (x.memory.rtPageTable i).tid = s.ids.tid (x.installer i)
  spaces : ∀ t sp, x.memory.space t = some sp → t < s.created ∧ sp.disk < x.arrays
  /-- A thread with an address space hits only the entries that it has
  installed. -/
  hit : ∀ t i, s.Live t → x.memory.space t ≠ none → (x.memory.rtPageTable i).valid = true →
    (x.memory.rtPageTable i).tid = s.ids.tid t → x.installer i = t
  contents : x.pages.Coherent flat.page

section Sharing

variable {s s' : Sched} {x x' : UserState} {flat : FlatMemory} {t : ThreadPtr} {sp : AddrSpace}
  {vpn : Nat} {i : Fin NumPhysPages}

/-- An entry that the thread finds holds the page of its array. -/
theorem Sharing.holds_of_lookup (h : Sharing s x flat) (ht : s.Live t)
    (hsp : x.memory.space t = some sp) (hl : x.memory.lookup (s.ids.tid t) vpn = some i) :
    x.Holds sp.disk vpn i := by
  obtain ⟨hvalid, hvpn, htid⟩ := Memory.lookup_spec hl
  have howner := h.hit t i ht (by simp [hsp]) hvalid htid
  refine ⟨hvalid, by simp [hvpn], by simp [howner, hsp]⟩

/-! ## A fault -/

/-- The write-back goes to the array whose page the frame holds. -/
theorem Sharing.writeBack (h : Sharing s x flat) (hids : s.ids.Valid s.Live) {m : Memory}
    (hm : x.memory.writeBack s.ids i = some m) :
    ∃ disk, m = { x.memory with disk := disk } ∧
      (UserState.stored disk).page = (x.pages.evict i).store := by
  simp only [Memory.writeBack] at hm
  split at hm
  · rename_i hvd
    obtain ⟨hvalid, hdirty⟩ := Bool.and_eq_true_iff.mp hvd
    split at hm
    · cases hm
    · rename_i d hd
      obtain ⟨bytes, hcopy, rfl⟩ := Option.map_eq_some_iff.mp hm
      refine ⟨_, rfl, ?_⟩
      obtain rfl := CharArray.copy_eq_some hcopy
      have hholds : x.Holds d (x.memory.rtPageTable i).virtualPage.toNat i := by
        simp only [Memory.diskOf] at hd
        split at hd
        · rename_i u hu
          obtain ⟨sp, hsp, rfl⟩ := Option.map_eq_some_iff.mp hd
          obtain ⟨hlive, htid⟩ := hids.live_of_poiner hu
          have howner : x.installer i = u := by
            refine h.hit u i hlive (by simp [hsp]) hvalid ?_
            rw [htid, (h.owner i hvalid).2]
            simp
          exact ⟨hvalid, rfl, by simp [howner, hsp]⟩
        · cases hd
      have hdirty' : x.pages.dirty i = true := hdirty
      simp only [Cache.evict, UserState.pages_tag_eq_some.mpr hholds, hdirty', if_true]
      funext p j
      obtain ⟨e, v⟩ := p
      by_cases hed : e = d
      · subst hed
        simp only [FlatMemory.page, UserState.stored, update_self, Memory.copy_page, h.frame i]
        by_cases hv : v = (x.memory.rtPageTable i).virtualPage.toNat
        · rw [if_pos hv, hv, update_self]
          rfl
        · have hne : (e, v) ≠ (e, (x.memory.rtPageTable i).virtualPage.toNat) := by simpa using hv
          rw [if_neg hv, update_of_ne hne]
          rfl
      · have hne : (e, v) ≠ (d, (x.memory.rtPageTable i).virtualPage.toNat) := by simp [hed]
        rw [update_of_ne hne]
        simp [FlatMemory.page, UserState.stored, update_of_ne hed, UserState.pages]
  · rename_i hvd
    refine ⟨x.memory.disk, (Option.some.inj hm).symm, ?_⟩
    show x.pages.store = _
    cases hvalid : (x.memory.rtPageTable i).valid with
    | false => simp [Cache.evict, UserState.pages, hvalid]
    | true =>
      have hdirty : (x.memory.rtPageTable i).dirty = false := by simpa [hvalid] using hvd
      have hclean : x.pages.dirty i = false := hdirty
      simp only [Cache.evict, hclean]
      split
      · rfl
      · rfl

/-- A fault is an eviction and a fill. -/
theorem Sharing.replace (h : Sharing s x flat) (hids : s.ids.Valid s.Live) (ht : s.Live t)
    (hsp : x.memory.space t = some sp) {addr : BitVec 32} {random : Nat} {m : Memory}
    (hm : x.memory.reverseTableReplace s.ids (s.ids.tid t) addr random = some m) :
    ∃ bytes disk, bytes.size = MemorySize ∧
      m = { x.memory with disk := disk }.install (s.ids.tid t) (addr.toNat / PageSize)
        (x.memory.position random) bytes ∧
      ({ x with
        memory := m
        installer := update x.installer (x.memory.position random) t } : UserState).pages =
        (x.pages.evict (x.memory.position random)).fill (x.memory.position random)
          (sp.disk, addr.toNat / PageSize) := by
  obtain ⟨m1, hback, hread⟩ := Option.bind_eq_some_iff.mp hm
  obtain ⟨disk, rfl, hstore⟩ := h.writeBack hids hback
  generalize addr.toNat / PageSize = vpn at hread ⊢
  generalize x.memory.position random = i at hread hstore ⊢
  have hdisk : Memory.diskOf { x.memory with disk := disk } s.ids (s.ids.tid t) = some sp.disk := by
    simp [Memory.diskOf, hids.poiner_eq t ht, hsp]
  simp only [Memory.readPage, hdisk] at hread
  obtain ⟨bytes, hcopy, rfl⟩ := Option.map_eq_some_iff.mp hread
  obtain rfl := CharArray.copy_eq_some hcopy
  refine ⟨_, disk, ?_, rfl, ?_⟩
  · exact h.size
  simp only [UserState.pages, Cache.fill, Cache.mk.injEq]
  refine ⟨?_, ?_, ?_, hstore⟩
  · funext g
    by_cases hgi : g = i
    · subst hgi
      simp [Memory.install, hsp]
    · simp [Memory.install, Cache.evict, update_of_ne hgi]
  · funext g
    by_cases hgi : g = i
    · subst hgi
      simp [Memory.install]
    · simp [Memory.install, Cache.evict, update_of_ne hgi]
  · funext g j
    show Bytes.copy _ _ _ _ _ _ = _
    rw [h.frame i, Memory.copy_page]
    by_cases hgi : g = i
    · subst hgi
      rw [if_pos rfl, update_self]
      exact congrFun (congrFun hstore (sp.disk, vpn)) j
    · have hne : (g : Nat) ≠ i := fun he => hgi (Fin.ext he)
      simp [hne, Cache.evict, update_of_ne hgi]

/-- A fault of a thread whose page no frame has changed. -/
theorem Sharing.fault (h : Sharing s x flat) (hids : s.ids.Valid s.Live) (ht : s.Live t)
    (hsp : x.memory.space t = some sp) {addr : BitVec 32} {random : Nat} {m : Memory}
    (hclean : ∀ i, x.Holds sp.disk (addr.toNat / PageSize) i →
      (x.memory.rtPageTable i).dirty = false)
    (hm : x.memory.reverseTableReplace s.ids (s.ids.tid t) addr random = some m) :
    Sharing s { x with
      memory := m
      installer := update x.installer (x.memory.position random) t } flat := by
  obtain ⟨bytes, disk, hbytes, rfl, hpages⟩ := h.replace hids ht hsp hm
  generalize addr.toNat / PageSize = vpn at hclean hpages ⊢
  generalize x.memory.position random = i at hpages ⊢
  refine ⟨hbytes, ?_, ?_, h.spaces, ?_, ?_⟩
  · intro g
    by_cases hgi : g = i
    · subst hgi
      simpa [Memory.install] using h.frame g
    · simpa [Memory.install, update_of_ne hgi] using h.frame g
  · intro g hg
    by_cases hgi : g = i
    · subst hgi
      simpa [Memory.install] using ht.1
    · simp only [Memory.install, update_of_ne hgi] at hg ⊢
      exact h.owner g hg
  · intro u g hu hspu hg htid
    by_cases hgi : g = i
    · subst hgi
      simp only [Memory.install, update_self, Nat.cast_inj] at htid ⊢
      exact hids.tid_inj ht hu htid
    · simp only [Memory.install, update_of_ne hgi] at hg htid ⊢
      exact h.hit u g hu hspu hg htid
  · rw [hpages]
    refine (h.contents.evict i).fill (by simp [Cache.evict]) fun g hg => ?_
    exact hclean g (UserState.pages_tag_eq_some.mp (Cache.evict_tag_eq_some.mp hg).2)

/-! ## A hit -/

/-- Neither the bits `use` and `dirty` nor the contents of main memory tell
which pages the frames hold. -/
theorem Sharing.touch (h : Sharing s x flat) (i : Fin NumPhysPages) (writing : Bool) (f : Bytes)
    (dirtier : Fin NumPhysPages → ThreadPtr) {flat' : FlatMemory}
    (hc : ({ x with
      memory := (x.memory.touch i writing).poke f
      dirtier := dirtier } : UserState).pages.Coherent flat'.page) :
    Sharing s { x with
      memory := (x.memory.touch i writing).poke f
      dirtier := dirtier } flat' := by
  have hentry : ∀ g, ∃ use dirty, (x.memory.touch i writing).rtPageTable g =
      { x.memory.rtPageTable g with use := use, dirty := dirty } := by
    intro g
    by_cases hgi : g = i
    · subst hgi
      exact ⟨_, _, update_self ..⟩
    · exact ⟨_, _, update_of_ne hgi ..⟩
  refine ⟨h.size, ?_, ?_, h.spaces, ?_, hc⟩
  · intro g
    obtain ⟨use, dirty, he⟩ := hentry g
    simpa only [Memory.poke, he] using h.frame g
  · intro g
    obtain ⟨use, dirty, he⟩ := hentry g
    simpa only [Memory.poke, he] using h.owner g
  · intro u g
    obtain ⟨use, dirty, he⟩ := hentry g
    simp only [Memory.poke, he]
    exact h.hit u g

/-- The frames after a hit: `f` agrees with main memory outside of the
frame. -/
theorem pages_touch_poke {f : Bytes} (i : Fin NumPhysPages) (writing : Bool)
    (dirtier : Fin NumPhysPages → ThreadPtr)
    (hf : ∀ g : Fin NumPhysPages, ∀ j : Fin PageSize, g ≠ i →
      f (g * PageSize + j) = x.memory.mainMemory.get (g * PageSize + j)) :
    ({ x with
      memory := (x.memory.touch i writing).poke f
      dirtier := dirtier } : UserState).pages =
      { x.pages with
        dirty := update x.pages.dirty i (x.pages.dirty i || writing)
        data := update x.pages.data i fun j => f (i * PageSize + j) } := by
  simp only [UserState.pages, Cache.mk.injEq]
  refine ⟨?_, ?_, ?_, rfl⟩
  on_goal 3 =>
    funext g j
    by_cases hgi : g = i
    · subst hgi
      simp [Memory.poke]
    · rw [update_of_ne hgi]
      exact hf g j hgi
  all_goals
    funext g
    by_cases hgi : g = i
    · subst hgi
      simp [Memory.touch, Memory.poke]
    · simp [Memory.touch, Memory.poke, update_of_ne hgi]

/-- A resident byte is the byte of the flat memory. -/
theorem Sharing.byte (h : Sharing s x flat) {d : Nat} (hi : x.Holds d vpn i) {j : Nat}
    (hj : j < PageSize) :
    x.memory.mainMemory.get (i * PageSize + j) = flat d (vpn * PageSize + j) :=
  congrFun (h.contents.resident i (d, vpn) (UserState.pages_tag_eq_some.mpr hi)) ⟨j, hj⟩

section Hit

variable {addr : BitVec 32} {size : Nat} {v : BitVec 32}

/-- A read returns what the flat memory holds. -/
theorem Sharing.read (h : Sharing s x flat) (hi : x.Holds sp.disk (addr.toNat / PageSize) i)
    (halign : Memory.misaligned addr size = false)
    (hv : Memory.readValue x.memory.mainMemory.get
      ((x.memory.rtPageTable i).physicalPage * PageSize + addr.toNat % PageSize) size = some v) :
    Memory.readValue (flat sp.disk) addr.toNat size = some v ∧
      Sharing s { x with memory := x.memory.touch i false } flat := by
  have hsize := Memory.size_of_readValue hv
  have hoff := Memory.offset_le_of_aligned hsize halign
  rw [h.frame i] at hv
  constructor
  · rw [← hv]
    exact (Memory.readValue_page hsize hoff fun j hj => h.byte hi hj).symm
  · refine h.touch i false x.memory.mainMemory.get x.dirtier ?_
    rw [pages_touch_poke i false x.dirtier fun _ _ _ => rfl]
    have hdata : (fun j : Fin PageSize => x.memory.mainMemory.get (i * PageSize + j)) =
        x.pages.data i := rfl
    rw [hdata, Bool.or_false, update_eq_self, update_eq_self]
    exact h.contents

/-- A write to the only frame with the page changes the flat memory. -/
theorem Sharing.write (h : Sharing s x flat) (hi : x.Holds sp.disk (addr.toNat / PageSize) i)
    (honly : ∀ g, x.Holds sp.disk (addr.toNat / PageSize) g → g = i) {f : Bytes}
    (dirtier : Fin NumPhysPages → ThreadPtr)
    (halign : Memory.misaligned addr size = false)
    (hf : Memory.writeValue x.memory.mainMemory.get
      ((x.memory.rtPageTable i).physicalPage * PageSize + addr.toNat % PageSize) size v = some f) :
    ∃ g, Memory.writeValue (flat sp.disk) addr.toNat size v = some g ∧
      Sharing s { x with
        memory := (x.memory.touch i true).poke f
        dirtier := dirtier } (update flat sp.disk g) := by
  have hsize := Memory.size_of_writeValue hf
  have hoff := Memory.offset_le_of_aligned hsize halign
  rw [h.frame i, Memory.writeValue_eq _ _ v hsize] at hf
  obtain rfl := Option.some.inj hf
  refine ⟨_, Memory.writeValue_eq _ _ v hsize, h.touch i true _ dirtier ?_⟩
  rw [pages_touch_poke i true dirtier (Memory.store_frame _ v hoff), Bool.or_true,
    Memory.page_store (fun j hj => h.byte hi hj) hoff]
  exact h.contents.modify (UserState.pages_tag_eq_some.mpr hi)
    (fun g hg => honly g (UserState.pages_tag_eq_some.mp hg)) _

end Hit

/-! ## New address spaces -/

/-- `new char[size]` makes an array that no frame has a page of. -/
theorem Sharing.newArray (h : Sharing s x flat) (bytes : CharArray) :
    Sharing s
      { x with
        memory.disk := update x.memory.disk x.arrays bytes
        arrays := x.arrays + 1 }
      (update flat x.arrays bytes.get) := by
  refine ⟨h.size, h.frame, h.owner, ?_, h.hit, ?_⟩
  · intro t sp hsp
    obtain ⟨hlt, hdisk⟩ := h.spaces t sp hsp
    exact ⟨hlt, Nat.lt_succ_of_lt hdisk⟩
  · have hold : ∀ g d v, x.pages.tag g = some (d, v) → d ≠ x.arrays := by
      intro g d v hg
      obtain ⟨_, _, hmap⟩ := UserState.pages_tag_eq_some.mp hg
      obtain ⟨sp, hsp, rfl⟩ := Option.map_eq_some_iff.mp hmap
      exact Nat.ne_of_lt (h.spaces _ sp hsp).2
    have hview : ∀ d v, d ≠ x.arrays →
        FlatMemory.page (update flat x.arrays bytes.get) (d, v) = flat.page (d, v) := by
      intro d v hd
      funext j
      simp [FlatMemory.page, update_of_ne hd]
    have hstore : ∀ d v, d ≠ x.arrays →
        (UserState.stored (update x.memory.disk x.arrays bytes)).page (d, v) =
          x.pages.store (d, v) := by
      intro d v hd
      funext j
      simp [FlatMemory.page, UserState.stored, UserState.pages, update_of_ne hd]
    refine ⟨h.contents.shared, ?_, ?_, ?_⟩
    · rintro g ⟨d, v⟩ hg
      rw [hview d v (hold g d v hg)]
      exact h.contents.resident g (d, v) hg
    · rintro g ⟨d, v⟩ hg hclean
      rw [hview d v (hold g d v hg)]
      exact (hstore d v (hold g d v hg)).trans (h.contents.clean g (d, v) hg hclean)
    · rintro ⟨d, v⟩ habsent
      by_cases hd : d = x.arrays
      · subst hd
        funext j
        simp [FlatMemory.page, UserState.stored, UserState.pages]
      · rw [hview d v hd]
        exact (hstore d v hd).trans (h.contents.absent (d, v) habsent)

/-- No valid entry has the id of the current thread. -/
def UserState.Unmapped (s : Sched) (x : UserState) : Prop :=
  ∀ i, (x.memory.rtPageTable i).valid = true →
    (x.memory.rtPageTable i).tid ≠ s.ids.tid s.currentThread

instance (s : Sched) (x : UserState) : Decidable (x.Unmapped s) :=
  inferInstanceAs (Decidable (∀ _, _))

/-- A thread without entries gets an address space. -/
theorem Sharing.setSpace (h : Sharing s x flat) (hlive : s.Live s.currentThread)
    (hfree : x.Unmapped s) (hdisk : sp.disk < x.arrays) :
    Sharing s (x.setSpace s.currentThread sp) flat := by
  have hother : ∀ g, (x.memory.rtPageTable g).valid = true → x.installer g ≠ s.currentThread := by
    intro g hg he
    have htid := (h.owner g hg).2
    rw [he] at htid
    exact hfree g hg htid
  refine ⟨h.size, h.frame, h.owner, ?_, ?_, ?_⟩
  · intro t sp' hsp'
    by_cases ht : t = s.currentThread
    · subst ht
      simp only [UserState.setSpace, update_self, Option.some.injEq] at hsp'
      subst hsp'
      exact ⟨hlive.1, hdisk⟩
    · simp only [UserState.setSpace, update_of_ne ht] at hsp'
      exact h.spaces t sp' hsp'
  · intro t g ht hsp' hg htid
    by_cases htc : t = s.currentThread
    · subst htc
      exact absurd htid (hfree g hg)
    · simp only [UserState.setSpace, update_of_ne htc] at hsp'
      exact h.hit t g ht hsp' hg htid
  · have hpages : (x.setSpace s.currentThread sp).pages = x.pages := by
      simp only [UserState.pages, Cache.mk.injEq]
      refine ⟨?_, rfl, rfl, rfl⟩
      funext g
      by_cases hg : (x.memory.rtPageTable g).valid = true
      · simp [UserState.setSpace, update_of_ne (hother g hg)]
      · simp [UserState.setSpace, hg]
    rw [hpages]
    exact h.contents

/-! ## The scheduler -/

/-- The objects and their ids stay, and no thread comes back. -/
theorem Sharing.congr (h : Sharing s x flat) (hcreated : s.created ≤ s'.created)
    (htid : ∀ t, t < s.created → s'.ids.tid t = s.ids.tid t)
    (hlive : ∀ t, t < s.created → s'.Live t → s.Live t) : Sharing s' x flat := by
  refine ⟨h.size, h.frame, ?_, ?_, ?_, h.contents⟩
  · intro i hi
    obtain ⟨hlt, htid'⟩ := h.owner i hi
    rw [htid _ hlt]
    exact ⟨Nat.lt_of_lt_of_le hlt hcreated, htid'⟩
  · intro t sp hsp
    obtain ⟨hlt, hdisk⟩ := h.spaces t sp hsp
    exact ⟨Nat.lt_of_lt_of_le hlt hcreated, hdisk⟩
  · intro t i ht hsp hi htid'
    obtain ⟨sp, hsp'⟩ := Option.ne_none_iff_exists'.mp hsp
    have hlt := (h.spaces t sp hsp').1
    rw [htid t hlt] at htid'
    exact h.hit t i (hlive t hlt ht) hsp hi htid'

theorem Sharing.newThread {p : Int} (h : Sharing s x flat) (hs : s.newThread p = some s') :
    Sharing s' x flat := by
  obtain ⟨ids, hids, rfl⟩ := Sched.newThread_spec hs
  obtain ⟨j, _, _, rfl⟩ := ThreadIds.construct_spec hids
  refine h.congr (Nat.le_succ _) ?_ ?_
  · intro t ht
    exact update_of_ne (Nat.ne_of_lt ht) _ _
  · intro t ht hlive
    exact ⟨ht, hlive.2⟩

theorem Sharing.reap (h : Sharing s x flat) (hs : s.reap = some s') : Sharing s' x flat := by
  rcases Sched.reap_spec hs with ⟨rfl, _⟩ | ⟨u, _, _, rfl⟩
  · exact h
  · refine h.congr le_rfl (fun _ _ => rfl) ?_
    intro t ht hlive
    have hne : t ≠ u := by
      intro he
      have := hlive.2
      simp [he] at this
    exact ⟨ht, by simpa [update_of_ne hne] using hlive.2⟩

theorem Sharing.lifecycle (h : Sharing s x flat) (hs : s'.lifecycle = s.lifecycle) :
    Sharing s' x flat := by
  simp only [Sched.lifecycle, Prod.mk.injEq] at hs
  obtain ⟨hcreated, hids, _, hdestroyed, _⟩ := hs
  refine h.congr hcreated.ge (fun _ _ => by rw [hids]) ?_
  intro t ht hlive
  exact ⟨ht, hdestroyed ▸ hlive.2⟩

end Sharing

/-! ## What the threads see -/

/-- A load of a program, and a successful access, with the array of the address
space. -/
inductive MemoryEvent where
  | load (array : Nat) (bytes : Bytes)
  | read (array : Nat) (addr : BitVec 32) (size : Nat) (value : BitVec 32)
  | write (array : Nat) (addr : BitVec 32) (size : Nat) (value : BitVec 32)

/-- The event in one flat memory for each array.  A read must return what the
last writes have left. -/
def MemoryEvent.apply (flat : FlatMemory) : MemoryEvent → Option FlatMemory
  | .load array bytes => some (update flat array bytes)
  | .read array addr size value =>
      if Memory.readValue (flat array) addr.toNat size = some value then some flat else none
  | .write array addr size value =>
      (Memory.writeValue (flat array) addr.toNat size value).map (update flat array)

/-- The event of an access with its reply. -/
def accessEvents (array : Nat) : Access → Reply → List MemoryEvent
  | .read addr size, .value v => [.read array addr size v]
  | .write addr size value, .done => [.write array addr size value]
  | _, _ => []

/-- The events of the code of a process. -/
def execEvents (s : Sched) (x : UserState) : UserCode → List MemoryEvent
  | .execFunc (some image) _ => [.load x.arrays image.bytes]
  | .run (.access a random :: _) =>
      match x.memory.space s.currentThread,
        x.memory.serve s.ids ⟨s.currentThread, a, random⟩ with
      | some sp, some (_, reply) => accessEvents sp.disk a reply
      | _, _ => []
  | _ => []

/-- The pages of shared arrays are in one changed frame or in unchanged frames:
a fault finds no changed frame with its page, and a write finds no second frame
with its page. -/
def Exclusive (s : Sched) (x : UserState) : UserCode → Prop
  | .run (.access a _ :: _) =>
      match x.memory.space s.currentThread with
      | none => True
      | some sp =>
          match x.memory.lookup (s.ids.tid s.currentThread) (a.addr.toNat / PageSize) with
          | none => ∀ i, x.Holds sp.disk (a.addr.toNat / PageSize) i →
              (x.memory.rtPageTable i).dirty = false
          | some j => a.writing = true →
              ∀ i, x.Holds sp.disk (a.addr.toNat / PageSize) i → i = j
  | _ => True

/-- A thread gets an address space only when no valid entry has its id. -/
def FreshSpace (s : Sched) (x : UserState) : UserCode → Prop
  | .execFunc (some _) _ => x.Unmapped s
  | .forkFunc (some _) _ => x.Unmapped s
  | _ => True

instance (s : Sched) (x : UserState) (i : UserCode) : Decidable (Exclusive s x i) := by
  unfold Exclusive
  split
  · split
    · infer_instance
    · split <;> infer_instance
  · infer_instance

instance (s : Sched) (x : UserState) (i : UserCode) : Decidable (FreshSpace s x i) := by
  unfold FreshSpace
  split <;> infer_instance

/-- The code is right for a thread with this address space, when `arrays`
arrays have been made. -/
def UserCode.Ok (arrays : Nat) (space : Option AddrSpace) : UserCode → Prop
  | .run _ => space ≠ none
  | .execFunc _ _ => True
  | .forkFunc sp _ => ∀ a, sp = some a → a.disk < arrays

theorem UserCode.Ok.mono {arrays arrays' : Nat} {space space' : Option AddrSpace}
    {i : UserCode} (h : i.Ok arrays space) (ha : arrays ≤ arrays')
    (hs : space ≠ none → space' ≠ none) : i.Ok arrays' space' := by
  cases i with
  | run script => exact hs h
  | execFunc executable script => trivial
  | forkFunc sp script => exact fun a hsp => Nat.lt_of_lt_of_le (h a hsp) ha

section Exec

variable {s : Sched} {x x' : UserState} {flat : FlatMemory}

/-- An access of a thread with an address space. -/
theorem Sharing.access {a : Access} {random : Nat} {script : List UserOp}
    (h : Sharing s x flat) (hids : s.ids.Valid s.Live) (hlive : s.Live s.currentThread)
    (hspace : x.memory.space s.currentThread ≠ none)
    (hexcl : Exclusive s x (.run (.access a random :: script)))
    (hx : x.access s a random = some x') :
    ∃ flat', run MemoryEvent.apply flat (execEvents s x (.run (.access a random :: script))) =
      some flat' ∧ Sharing s x' flat' := by
  obtain ⟨⟨m, reply⟩, hserve, rfl⟩ := Option.map_eq_some_iff.mp hx
  obtain ⟨sp, hsp⟩ := Option.ne_none_iff_exists'.mp hspace
  simp only [Exclusive, hsp] at hexcl
  simp only [execEvents, hsp, hserve]
  cases Memory.serve_cases hserve with
  | fault hl hm =>
    simp only [hl] at hexcl ⊢
    refine ⟨flat, ?_, h.fault hids hlive hsp hexcl hm⟩
    cases a <;> rfl
  | read halign hl hv =>
    simp only [Access.addr] at hexcl ⊢
    simp only [hl, Access.writing] at hexcl ⊢
    obtain ⟨hvalue, hsharing⟩ := h.read (h.holds_of_lookup hlive hsp hl) halign hv
    refine ⟨flat, ?_, by simpa using hsharing⟩
    simp [accessEvents, run, MemoryEvent.apply, hvalue]
  | write halign hl hf =>
    simp only [Access.addr] at hexcl ⊢
    simp only [hl, Access.writing, if_true] at hexcl ⊢
    obtain ⟨g, hg, hsharing⟩ :=
      h.write (h.holds_of_lookup hlive hsp hl) (hexcl trivial) _ halign hf
    refine ⟨_, ?_, hsharing⟩
    simp [accessEvents, run, MemoryEvent.apply, hg]

variable {i : UserCode} {r : UserState × List (Call UserCode)}

/-- The code of a process is a sequence of events of the flat memory. -/
theorem Sharing.exec (h : Sharing s x flat) (hids : s.ids.Valid s.Live)
    (hlive : s.Live s.currentThread)
    (hok : i.Ok x.arrays (x.memory.space s.currentThread)) (hexcl : Exclusive s x i)
    (hfresh : FreshSpace s x i) (hexec : userProgram.exec s i x = some r) :
    ∃ flat', run MemoryEvent.apply flat (execEvents s x i) = some flat' ∧
      Sharing s r.1 flat' := by
  obtain ⟨x', calls⟩ := r
  cases exec_effect hexec with
  | access hx => exact h.access hids hlive hok hexcl hx
  | @load image script =>
    exact ⟨_, rfl, (h.newArray ⟨image.numPages * PageSize, image.bytes⟩).setSpace hlive hfresh
      (Nat.lt_succ_self _)⟩
  | setSpace => exact ⟨flat, rfl, h.setSpace hlive hfresh (hok _ rfl)⟩
  | same haccess hload =>
    have hnone : execEvents s x' i = [] := by
      unfold execEvents
      split
      · exact absurd rfl (hload _ _)
      · exact absurd rfl (haccess _ _ _)
      · rfl
    rw [hnone]
    exact ⟨flat, rfl, h⟩

/-- Arrays and address spaces are not taken back. -/
theorem exec_spaces (hexec : userProgram.exec s i x = some r) :
    x.arrays ≤ r.1.arrays ∧
      ∀ t, x.memory.space t ≠ none → r.1.memory.space t ≠ none := by
  have hset : ∀ (y : UserState) sp t, y.memory.space t ≠ none →
      (y.setSpace s.currentThread sp).memory.space t ≠ none := by
    intro y sp t ht
    by_cases htc : t = s.currentThread
    · subst htc
      simp [UserState.setSpace]
    · simpa [UserState.setSpace, update_of_ne htc] using ht
  obtain ⟨x', calls⟩ := r
  cases exec_effect hexec with
  | access hx =>
    obtain ⟨harrays, hspace⟩ := access_spaces hx
    exact ⟨harrays.ge, fun t ht => by rw [hspace]; exact ht⟩
  | load => exact ⟨Nat.le_succ _, fun t ht => hset _ _ t ht⟩
  | setSpace => exact ⟨le_rfl, fun t ht => hset _ _ t ht⟩
  | same haccess hload => exact ⟨le_rfl, fun _ => id⟩

/-- The calls that the code of a process answers with are right. -/
theorem exec_calls (hspaces : ∀ t sp, x.memory.space t = some sp → sp.disk < x.arrays)
    (hok : i.Ok x.arrays (x.memory.space s.currentThread))
    (hexec : userProgram.exec s i x = some r) :
    (∀ j, .client j ∈ r.2 → j.Ok r.1.arrays (r.1.memory.space s.currentThread)) ∧
      ∀ u j, .fork u j ∈ r.2 → j.Ok r.1.arrays none := by
  cases i with
  | run script =>
    cases script with
    | nil =>
      cases hexec
      simpa [UserCode.Ok] using hok
    | cons op script =>
      cases op with
      | access a random =>
        obtain ⟨x', hx', rfl⟩ := Option.map_eq_some_iff.mp hexec
        obtain ⟨harrays, hspace⟩ := access_spaces hx'
        simpa [UserCode.Ok, hspace] using hok
      | join threadId =>
        simp only [userProgram, execOp] at hexec
        split at hexec
        · cases hexec
        · split at hexec
          · cases hexec
            simpa [UserCode.Ok] using hok
          · cases hexec
            simpa [UserCode.Ok] using hok
      | exit =>
        cases hexec
        simp
      | fork child =>
        cases hexec
        refine ⟨by simpa [UserCode.Ok] using hok, ?_⟩
        intro u j hj
        obtain ⟨rfl, rfl⟩ : u = s.created ∧
            j = .forkFunc (x.memory.space s.currentThread) child := by simpa using hj
        exact hspaces s.currentThread
      | exec executable child =>
        cases hexec
        refine ⟨by simpa [UserCode.Ok] using hok, ?_⟩
        intro u j hj
        obtain ⟨rfl, rfl⟩ : u = s.created ∧ j = .execFunc executable child := by simpa using hj
        trivial
      | _ =>
        cases hexec
        simpa [UserCode.Ok] using hok
  | execFunc executable script =>
    cases executable with
    | none =>
      cases hexec
      simp
    | some image =>
      cases hexec
      simp [UserCode.Ok, UserState.load, UserState.setSpace]
  | forkFunc space script =>
    cases space with
    | none => cases hexec
    | some space =>
      cases hexec
      simp [UserCode.Ok, UserState.setSpace]

end Exec

/-- All code that the threads still have to execute is right. -/
structure CodeOk (m : Synch UserCode UserState) : Prop where
  client : ∀ t i, .call (.client i) ∈ m.todo t →
    i.Ok m.shared.arrays (m.shared.memory.space t)
  fork : ∀ t u i, .call (.fork u i) ∈ m.todo t → i.Ok m.shared.arrays none

end Nachos.Userprog

namespace Nachos.Threads.Kernel

open Function Lib Machine Userprog

/-! ## Runs -/

/-- The code of a process that the step executes. -/
def process (k : Kernel UserCode UserState) (a : Action UserCode Empty) : Option UserCode :=
  match a, k.code k.cur with
  | .exec, .call (.client i) :: _ => some i
  | _, _ => none

/-- The call of `StartProcess`. -/
def isStartProcess : Call UserCode → Bool
  | .client (.execFunc _ _) => true
  | _ => false

/-- The main thread starts programs only with `StartProcess`. -/
def StartsProcess : Action UserCode Empty → Prop
  | .start cs => ∀ c ∈ cs, isStartProcess c = true
  | _ => True

/-- The events of a step. -/
def stepEvents (k : Kernel UserCode UserState) (a : Action UserCode Empty) : List MemoryEvent :=
  ((k.process a).map (execEvents k.sched k.shared)).getD []

/-- The events of a run. -/
def memoryEvents (k : Kernel UserCode UserState) (as : List (Action UserCode Empty)) :
    List MemoryEvent :=
  trace (step userProgram) stepEvents k as

/-- The steps that keep shared pages coherent. -/
def Coherently (k : Kernel UserCode UserState) (a : Action UserCode Empty) : Prop :=
  k.ForkOnce a ∧ StartsProcess a ∧
    match k.process a with
    | some i => Exclusive k.sched k.shared i ∧ FreshSpace k.sched k.shared i
    | none => True

instance (a : Action UserCode Empty) : Decidable (StartsProcess a) :=
  decidable_of_iff
    ((match a with
      | .start cs => cs.all isStartProcess
      | _ => true) = true)
    (by unfold StartsProcess; split <;> simp)

instance (k : Kernel UserCode UserState) (a : Action UserCode Empty) :
    Decidable (k.Coherently a) := by
  unfold Coherently
  cases k.process a with
  | none => infer_instance
  | some i => infer_instance

section

variable {k k' : Kernel UserCode UserState} {a : Action UserCode Empty} {flat : FlatMemory}

theorem process_eq_some {i : UserCode} (h : k.process a = some i) :
    a = .exec ∧ ∃ rest, k.code k.cur = .call (.client i) :: rest := by
  unfold process at h
  split at h
  · rename_i rest hcode
    cases h
    exact ⟨rfl, rest, hcode⟩
  · cases h

/-- A step that executes no code of a process leaves user memory as it is. -/
theorem shared_of_process_none (hstep : k.step userProgram a = some k')
    (h : ∀ i, k.label a ≠ .exec (.call (.client i))) : k'.shared = k.shared := by
  rcases step_shared hstep with heq | ⟨rfl, _, i, rest, _, hcode, _⟩ | ⟨d, _⟩
  · exact heq
  · exact absurd (by simp only [label, hcode]) (h i)
  · exact d.elim

theorem label_ne_of_process_none (h : k.process a = none) (i : UserCode) :
    k.label a ≠ .exec (.call (.client i)) := by
  intro hl
  obtain ⟨rfl, rest, hcode⟩ := label_eq_exec hl
  simp [process, hcode] at h

/-- A step that executes no code of a process adds right code only. -/
theorem codeOk_step (hc : k.Control) (h : CodeOk k.synch) (hok : k.Coherently a)
    (hstep : k.step userProgram a = some k')
    (hne : ∀ i, k.label a ≠ .exec (.call (.client i))) : CodeOk k'.synch := by
  have hsynch := synch_step hc hok.1 hstep
  have hshared : k'.synch.shared = k.synch.shared :=
    shared_of_process_none hstep hne
  have hstart : ∀ cs, k.label a = .start cs →
      ∀ c ∈ cs, isStartProcess c = true := by
    intro cs hcs
    have hs := hok.2.1
    cases a with
    | start cs' =>
      cases hcs
      exact hs
    | exec =>
      simp only [label] at hcs
      split at hcs <;> cases hcs
    | interrupt d => cases hcs
    | timer => cases hcs
  generalize k.label a = o at hsynch hne hstart
  constructor
  · intro t i hi
    rw [hshared]
    rcases Synch.mem_todo_step hsynch hi with hold | hadd
    · exact h.client t i hold
    · cases hadd with
      | fork hj =>
        obtain ⟨rest, htodo⟩ := Synch.todo_of_exec hsynch rfl
        obtain rfl : i = _ := by simpa using hj
        exact (h.fork k.cur _ i (htodo ▸ List.mem_cons_self)).mono le_rfl (by simp)
      | client s hexec hc => exact absurd rfl (hne _)
      | test htest hj => rcases Synch.tests_cont htest hj with he | ⟨_, he⟩ <;> cases he
      | wait hj => simp at hj
      | start hc =>
        have hi' := hstart _ rfl _ hc
        cases i with
        | execFunc executable script => trivial
        | run script => cases hi'
        | forkFunc space script => cases hi'
  · intro t u i hi
    rw [hshared]
    rcases Synch.mem_todo_step hsynch hi with hold | hadd
    · exact h.fork t u i hold
    · cases hadd with
      | fork hj => simp at hj
      | client s hexec hc => exact absurd rfl (hne _)
      | test htest hj => rcases Synch.tests_cont htest hj with he | ⟨_, he⟩ <;> cases he
      | wait hj => simp at hj
      | start hc => cases hstart _ rfl _ hc

/-- The code of a process is followed by right code. -/
theorem codeOk_process {i : UserCode} {rest : List (Instr UserCode)}
    {r : UserState × List (Call UserCode)} (h : CodeOk k.synch)
    (hcode : k.code k.cur = .call (.client i) :: rest)
    (hspaces : ∀ t sp, k.shared.memory.space t = some sp → sp.disk < k.shared.arrays)
    (hexec : userProgram.exec k.sched i k.shared = some r) :
    CodeOk ({ k with shared := r.1 }.setCode (r.2.map Instr.call ++ rest)).synch := by
  have htodo : k.synch.todo k.cur = .call (.client i) :: synchCode rest := by
    show synchCode (k.code k.cur) = _
    rw [hcode]
    rfl
  have hi := h.client k.cur i (htodo ▸ List.mem_cons_self)
  obtain ⟨harrays, hspace⟩ := exec_spaces hexec
  obtain ⟨hclient, hfork⟩ := exec_calls hspaces hi hexec
  have hmem : ∀ t c, .call c ∈ ({ k with shared := r.1 }.setCode
      (r.2.map Instr.call ++ rest)).synch.todo t →
      .call c ∈ k.synch.todo t ∨ t = k.cur ∧ c ∈ r.2 := by
    intro t c hc
    rw [synch_setCode] at hc
    rcases Synch.mem_setTodo hc with hold | ⟨rfl, hnew⟩
    · exact Or.inl hold
    · rcases List.mem_append.mp (List.mem_of_mem_filter hnew) with hnew' | hnew'
      · exact Or.inr ⟨rfl, by simpa using hnew'⟩
      · refine Or.inl ?_
        rw [htodo]
        exact List.mem_cons_of_mem _ (List.mem_filter.mpr ⟨hnew', List.of_mem_filter hnew⟩)
  constructor
  · intro t j hj
    rcases hmem t _ hj with hold | ⟨rfl, hnew⟩
    · exact (h.client t j hold).mono harrays (hspace t)
    · exact hclient j hnew
  · intro t u j hj
    rcases hmem t _ hj with hold | ⟨rfl, hnew⟩
    · exact (h.fork t u j hold).mono harrays (by simp)
    · exact hfork u j hnew

/-- The invariant of the runs. -/
structure SharingInv (k : Kernel UserCode UserState) (flat : FlatMemory) : Prop where
  control : k.Control
  code : CodeOk k.synch
  sharing : Sharing k.sched k.shared flat

/-- Every step is a sequence of events of the flat memory. -/
theorem sharingInv_step (h : k.SharingInv flat) (hok : k.Coherently a)
    (hstep : k.step userProgram a = some k') :
    ∃ flat', run MemoryEvent.apply flat (k.stepEvents a) = some flat' ∧ k'.SharingInv flat' := by
  have hc := h.control
  have hcontrol := control_step hc hok.1 hstep
  unfold stepEvents
  cases hp : k.process a with
  | none =>
    have hne := label_ne_of_process_none hp
    have hshared := shared_of_process_none hstep hne
    refine ⟨flat, rfl, hcontrol, codeOk_step hc h.code hok hstep hne, ?_⟩
    rw [hshared]
    rcases step_sched hstep with ⟨rest, _, _, hs⟩ | ⟨rest, _, _, hr⟩ | hs
    · rw [hs]
      exact h.sharing.congr le_rfl (fun _ _ => rfl) fun t ht hl => ⟨ht, hl.2⟩
    · exact h.sharing.reap hr
    · rcases Sched.lifecycle_of_schedStep hs with heq | ⟨p, hn⟩
      · exact h.sharing.lifecycle heq
      · exact h.sharing.newThread hn
  | some i =>
    obtain ⟨rfl, rest, hcode⟩ := process_eq_some hp
    obtain ⟨hexcl, hfresh⟩ : Exclusive k.sched k.shared i ∧ FreshSpace k.sched k.shared i := by
      simpa [hp] using hok.2.2
    simp only [step, hcode, execInstr, execCall] at hstep
    obtain ⟨r, hr, rfl⟩ := Option.map_eq_some_iff.mp hstep
    have htodo : .call (.client i) ∈ k.synch.todo k.cur := by
      show _ ∈ synchCode (k.code k.cur)
      rw [hcode]
      exact List.mem_cons_self
    obtain ⟨flat', hrun, hsharing⟩ := h.sharing.exec hc.sched.ids_valid
      (live_of_client hc hcode) (h.code.client k.cur i htodo) hexcl hfresh hr
    exact ⟨flat', hrun, hcontrol,
      codeOk_process h.code hcode (fun t sp hsp => (h.sharing.spaces t sp hsp).2) hr, hsharing⟩

/-- So is every run. -/
theorem sharingInv_run {as : List (Action UserCode Empty)} (h : k.SharingInv flat)
    (hok : Along (step userProgram) Coherently k as)
    (hrun : run (step userProgram) k as = some k') :
    ∃ flat', run MemoryEvent.apply flat (k.memoryEvents as) = some flat' ∧
      k'.SharingInv flat' := by
  refine trace_invariant (h := [])
    (I := fun k events => ∃ flat', run MemoryEvent.apply flat events = some flat' ∧
      k.SharingInv flat') ?_ ⟨flat, rfl, h⟩ hok hrun
  intro k1 events a k2 ⟨flat1, hevents, h1⟩ ha hstep
  obtain ⟨flat2, hrun2, h2⟩ := sharingInv_step h1 ha hstep
  refine ⟨flat2, ?_, h2⟩
  rw [run_append, hevents]
  exact hrun2

theorem sharingInv_init (initialValue : Nat → Int) (holding : Nat → Option ThreadPtr)
    (dirty : Fin NumPhysPages → Bool) :
    (init initialValue holding (.boot dirty) : Kernel UserCode UserState).SharingInv
      fun _ _ => 0 := by
  refine ⟨control_init _ _ _, ⟨?_, ?_⟩, ⟨rfl, fun _ => rfl, ?_, ?_, ?_, ?_⟩⟩
  · intro t i hi
    cases hi
  · intro t u i hi
    cases hi
  · intro i hi
    cases hi
  · intro t sp hsp
    cases hsp
  · intro t i _ _ hi
    cases hi
  · exact Cache.coherent_empty fun i => rfl

/-- What a write-back of a frame puts into an array is what the flat memory
holds. -/
theorem SharingInv.frame_eq (h : k.SharingInv flat) {i : Fin NumPhysPages} {t : ThreadPtr}
    {sp : AddrSpace} (hvalid : (k.shared.memory.rtPageTable i).valid = true)
    (ht : k.sched.ids.threadPoiners (k.shared.memory.rtPageTable i).tid.toNat = some t)
    (hsp : k.shared.memory.space t = some sp) {j : Nat} (hj : j < PageSize) :
    k.shared.memory.mainMemory.get
        ((k.shared.memory.rtPageTable i).physicalPage * PageSize + j) =
      flat sp.disk ((k.shared.memory.rtPageTable i).virtualPage.toNat * PageSize + j) := by
  obtain ⟨hlive, htid⟩ := h.control.sched.ids_valid.live_of_poiner ht
  have howner : k.shared.installer i = t := by
    refine h.sharing.hit t i hlive (by simp [hsp]) hvalid ?_
    rw [htid, (h.sharing.owner i hvalid).2]
    simp
  rw [h.sharing.frame i]
  exact h.sharing.byte ⟨hvalid, rfl, by simp [howner, hsp]⟩ hj

/-- In every run whose steps keep shared pages coherent, the loads and the
successful accesses of all threads are those of one flat memory for each array,
and what a write-back puts into an array is what that flat memory holds. -/
theorem shared_memory (initialValue : Nat → Int) (holding : Nat → Option ThreadPtr)
    (dirty : Fin NumPhysPages → Bool) (as : List (Action UserCode Empty))
    (k : Kernel UserCode UserState)
    (hok : Along (step userProgram) Coherently
      (init initialValue holding (.boot dirty)) as)
    (hrun : run (step userProgram) (init initialValue holding (.boot dirty)) as = some k) :
    ∃ flat, run MemoryEvent.apply (fun _ _ => 0)
        (memoryEvents (init initialValue holding (.boot dirty)) as) = some flat ∧
      ∀ i t sp, (k.shared.memory.rtPageTable i).valid = true →
        k.sched.ids.threadPoiners (k.shared.memory.rtPageTable i).tid.toNat = some t →
        k.shared.memory.space t = some sp → ∀ j, j < PageSize →
          k.shared.memory.mainMemory.get
              ((k.shared.memory.rtPageTable i).physicalPage * PageSize + j) =
            flat sp.disk
              ((k.shared.memory.rtPageTable i).virtualPage.toNat * PageSize + j) := by
  obtain ⟨flat, hevents, h⟩ := sharingInv_run (sharingInv_init _ _ _) hok hrun
  exact ⟨flat, hevents, fun i t sp hvalid ht hsp j hj => h.frame_eq hvalid ht hsp hj⟩

end

/-- A program of five pages. -/
def fivePageImage : Image := ⟨5, fun _ => 0⟩

/-- The child reads the page that the parent has written, twice because of the
fault. -/
def childReads : List UserOp :=
  [.access (.read 4 4) 0, .access (.read 4 4) 0]

/-- The parent writes to its first page, fills the other frames that a fault
takes, and faults on a fifth page, which takes the frame of the first. -/
def writeEvictFork : List UserOp :=
  [.access (.write 4 4 7) 0, .access (.write 4 4 7) 0, .access (.read 128 4) 0,
    .access (.read 256 4) 0, .access (.read 384 4) 0, .access (.read 512 4) 0,
    .fork childReads, .yield]

/-- The main thread starts a program of five pages. -/
def startFivePages (script : List UserOp) (n : Nat) : List (Action UserCode Empty) :=
  .start [.client (.execFunc (some fivePageImage) script)] :: List.replicate n .exec

/-- The state before the first process. -/
def bootKernel : Kernel UserCode UserState :=
  init (fun _ => 0) (fun _ => none) (.boot fun _ => true)

/-- The load, the write of the parent and the read of the child are the events
of the run, and the child has read what the parent has written. -/
theorem shared_memory_evicted : ∃ (k : Kernel UserCode UserState) (flat : FlatMemory),
    run (step userProgram) bootKernel (startFivePages writeEvictFork 19) = some k ∧
      (bootKernel.memoryEvents (startFivePages writeEvictFork 19)).length = 3 ∧
      run MemoryEvent.apply (fun _ _ => 0)
        (bootKernel.memoryEvents (startFivePages writeEvictFork 19)) = some flat ∧
      Memory.readValue (flat 0) 4 4 = some 7 := by
  have hok : Along (step userProgram) Coherently bootKernel (startFivePages writeEvictFork 19) := by
    decide +kernel
  have hsome : (run (step userProgram) bootKernel (startFivePages writeEvictFork 19)).isSome =
      true := by
    decide +kernel
  have hlength : (bootKernel.memoryEvents (startFivePages writeEvictFork 19)).length = 3 := by
    decide +kernel
  have hvalue : (run MemoryEvent.apply (fun _ _ => 0)
      (bootKernel.memoryEvents (startFivePages writeEvictFork 19))).bind
        (fun flat => Memory.readValue (flat 0) 4 4) = some 7 := by
    decide +kernel
  obtain ⟨k, hrun⟩ := Option.isSome_iff_exists.mp hsome
  obtain ⟨flat, hflat, _⟩ := shared_memory (fun _ => 0) (fun _ => none) (fun _ => true)
    (startFivePages writeEvictFork 19) k hok hrun
  have hflat' : run MemoryEvent.apply (fun _ _ => 0)
      (bootKernel.memoryEvents (startFivePages writeEvictFork 19)) = some flat := hflat
  rw [hflat'] at hvalue
  exact ⟨k, flat, hrun, hlength, hflat', hvalue⟩

/-- The parent writes to its first page and forks. -/
def writeFork : List UserOp :=
  [.access (.write 4 4 7) 0, .access (.write 4 4 7) 0, .fork childReads, .yield]

/-- The frame of the parent has the new value, and the child gets a frame of
its own with the old one. -/
theorem forked_read_stale : ¬ ∀ (as : List (Action UserCode Empty))
    (k : Kernel UserCode UserState),
    Along (step userProgram) (fun k a => k.ForkOnce a ∧ StartsProcess a) bootKernel as →
    run (step userProgram) bootKernel as = some k →
    ∃ flat, run MemoryEvent.apply (fun _ _ => 0) (bootKernel.memoryEvents as) = some flat := by
  intro hclaim
  have hsome : (run (step userProgram) bootKernel (startFivePages writeFork 15)).isSome = true := by
    decide +kernel
  have hnone : (run MemoryEvent.apply (fun _ _ => 0)
      (bootKernel.memoryEvents (startFivePages writeFork 15))).isSome = false := by
    decide +kernel
  obtain ⟨k, hrun⟩ := Option.isSome_iff_exists.mp hsome
  obtain ⟨flat, hflat⟩ := hclaim (startFivePages writeFork 15) k (by decide +kernel) hrun
  rw [hflat] at hnone
  cases hnone

end Nachos.Threads.Kernel

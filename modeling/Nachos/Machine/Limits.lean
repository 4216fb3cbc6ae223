import Nachos.Machine.Mips
import Nachos.Machine.Paging

/-!
# Accesses outside the address space

`Translate` has lost the comparison of the page number with the size of the page
table.  An address outside the address space is a miss like any other, and the
handler then copies a page from behind the end of the thread's array.

`Confined` is what one would expect of an access: outside the address space it
is refused before anything happens, and a replacement stays inside the arrays.
`confined_iff` says for which accesses this holds.  `replaces_iff` ties the
indices of `ReplacesInSpace` to the model of the replacement, which ends where
an index leaves its array.
-/

namespace Nachos.Machine

open Function Lib Threads Code

namespace Memory

/-- The bytes of the page are bytes of the address space of the thread that has
the id. -/
def PageInSpace (m : Memory) (ids : ThreadIds) (tid vpn : Int) : Prop :=
  ∃ t sp, ids.threadPoiners tid.toNat = some t ∧ m.space t = some sp ∧
    ∀ j : Nat, j < PageSize →
      0 ≤ vpn * PageSize + j ∧ vpn * PageSize + j < (sp.numPages * PageSize : Nat)

/-- The page that the replacement writes back, if it does. -/
def VictimInSpace (m : Memory) (ids : ThreadIds) (random : Nat) : Prop :=
  (m.rtPageTable (m.position random)).valid = true →
    (m.rtPageTable (m.position random)).dirty = true →
      m.PageInSpace ids (m.rtPageTable (m.position random)).tid
        (m.rtPageTable (m.position random)).virtualPage

/-- `ReverseTableReplace` reads and writes the arrays only inside the address
spaces. -/
structure ReplacesInSpace (m : Memory) (ids : ThreadIds) (tid : Nat) (address : BitVec 32)
    (random : Nat) : Prop where
  writes : m.VictimInSpace ids random
  reads : m.PageInSpace ids tid (address.toNat / PageSize : Nat)

end Memory

/-- `ReadMem` and `WriteMem` end with an `AddressErrorException`, in the state in
which they are called. -/
def State.Rejects (s : State) (tid : Nat) (addr : Word) (size : Nat) : Prop :=
  readMem tid addr size s = some (.error ⟨.addressErrorException, addr⟩, s) ∧
    ∀ value, writeMem tid addr size value s = some (.error ⟨.addressErrorException, addr⟩, s)

/-- An access of the thread `t` to its address space `sp` is refused outside of
it, and the replacement that it may lead to stays inside the arrays. -/
structure State.Confined (s : State) (ids : ThreadIds) (t : ThreadPtr) (sp : AddrSpace)
    (addr : Word) (size : Nat) : Prop where
  rejected : sp.numPages * PageSize ≤ addr.toNat → s.Rejects (ids.tid t) addr size
  replaced : ∀ writing,
    s.memory.translate (ids.tid t) addr size writing = some (.error .pageFaultException) →
      ∀ random, s.memory.ReplacesInSpace ids (ids.tid t) addr random

/-! ## Alignment is the only check -/

section Translate

variable {m : Memory} {tid size : Nat} {addr : BitVec 32} {writing : Bool}

theorem translate_of_misaligned (h : Memory.misaligned addr size = true) :
    m.translate tid addr size writing = some (.error .addressErrorException) := by
  unfold Memory.translate
  rw [if_pos h]

theorem translate_of_miss (h : Memory.misaligned addr size = false)
    (hl : m.lookup tid (addr.toNat / PageSize) = none) :
    m.translate tid addr size writing = some (.error .pageFaultException) := by
  unfold Memory.translate
  rw [if_neg (by rw [h]; decide)]
  simp only [hl]

/-- Only a misaligned address is refused. -/
theorem misaligned_of_translate
    (h : m.translate tid addr size writing = some (.error .addressErrorException)) :
    Memory.misaligned addr size = true := by
  simp only [Memory.translate] at h
  split at h
  · rename_i halign
    exact halign
  · split at h
    · cases h
    · split at h
      · cases h
      · split at h
        · cases h
        · split at h <;> cases h

theorem State.Rejects.misaligned {s : State} (h : s.Rejects tid addr size) :
    Memory.misaligned addr size = true := by
  have hread := h.1
  simp only [readMem] at hread
  split at hread
  · cases hread
  · rename_i htr
    cases hread
    exact misaligned_of_translate htr
  · obtain ⟨v, _, heq⟩ := Option.map_eq_some_iff.mp hread
    cases heq

theorem State.rejects_of_misaligned {s : State} (h : Memory.misaligned addr size = true) :
    s.Rejects tid addr size := by
  refine ⟨?_, fun value => ?_⟩
  · simp only [readMem, translate_of_misaligned h]
  · simp only [writeMem, translate_of_misaligned h]

end Translate

/-! ## Pages and addresses -/

section Pages

variable {m : Memory} {ids : ThreadIds} {t : ThreadPtr} {sp : AddrSpace} {vpn : Nat}

theorem pageInSpace_iff {tid : Int} (hp : ids.threadPoiners tid.toNat = some t)
    (ht : m.space t = some sp) : m.PageInSpace ids tid vpn ↔ vpn < sp.numPages := by
  constructor
  · rintro ⟨u, sp', hu, hsp, hbytes⟩
    cases hp.symm.trans hu
    cases ht.symm.trans hsp
    have hfirst := (hbytes 0 (by decide)).2
    simp only [PageSize, SectorSize] at hfirst
    omega
  · intro hlt
    refine ⟨t, sp, hp, ht, fun j hj => ?_⟩
    simp only [PageSize, SectorSize] at hj ⊢
    omega

theorem page_lt_iff (addr : BitVec 32) :
    addr.toNat / PageSize < sp.numPages ↔ addr.toNat < sp.numPages * PageSize :=
  Nat.div_lt_iff_lt_mul (by decide)

end Pages

/-- **An access is confined exactly where it is misaligned, or its address is in
the address space and no victim of a miss is a dirty page outside the address
space of its thread.** -/
theorem confined_iff {s : State} {ids : ThreadIds} {t : ThreadPtr} {sp : AddrSpace}
    (hp : ids.threadPoiners (ids.tid t) = some t) (ht : s.memory.space t = some sp)
    (addr : Word) (size : Nat) :
    s.Confined ids t sp addr size ↔
      Memory.misaligned addr size = true ∨
        addr.toNat < sp.numPages * PageSize ∧
          (s.memory.lookup (ids.tid t) (addr.toNat / PageSize) = none →
            ∀ random, s.memory.VictimInSpace ids random) := by
  have hpage : s.memory.PageInSpace ids (ids.tid t : Nat) (addr.toNat / PageSize : Nat) ↔
      addr.toNat < sp.numPages * PageSize :=
    (pageInSpace_iff hp ht).trans (page_lt_iff addr)
  constructor
  · intro h
    by_cases halign : Memory.misaligned addr size = true
    · exact Or.inl halign
    · have hin : addr.toNat < sp.numPages * PageSize := by
        by_contra hout
        exact halign (h.rejected (Nat.le_of_not_lt hout)).misaligned
      refine Or.inr ⟨hin, fun hl random => ?_⟩
      have hfault : s.memory.translate (ids.tid t) addr size false =
          some (.error .pageFaultException) :=
        translate_of_miss (Bool.eq_false_of_not_eq_true halign) hl
      exact (h.replaced false hfault random).writes
  · rintro (halign | ⟨hin, hvictim⟩)
    · refine ⟨fun _ => State.rejects_of_misaligned halign, fun writing hfault => ?_⟩
      rw [translate_of_misaligned halign] at hfault
      cases hfault
    · refine ⟨fun hout => absurd hin (Nat.not_lt.mpr hout), fun writing hfault random => ?_⟩
      rcases Memory.translate_cases hfault with ⟨_, hl⟩ | ⟨e, hne, hr⟩ | ⟨_, i, _, hr⟩
      · exact ⟨hvictim hl random, hpage.mpr hin⟩
      · cases hr
        exact absurd rfl hne
      · cases hr

/-! ## The model of the replacement -/

namespace Memory

/-- The arrays have the sizes of the address spaces, and the entries name their
frames and no negative page. -/
structure Sized (m : Memory) : Prop where
  array : ∀ t sp, m.space t = some sp → (m.disk sp.disk).size = sp.numPages * PageSize
  mainMemory : m.mainMemory.size = MemorySize
  frame : ∀ i, (m.rtPageTable i).physicalPage = i
  page : ∀ i, (m.rtPageTable i).valid = true → 0 ≤ (m.rtPageTable i).virtualPage

variable {m : Memory} {ids : ThreadIds}

/-- A page is in the address space exactly when it is in the array. -/
theorem Sized.pageInSpace_iff (h : m.Sized) (tid : Int) (vpn : Nat) :
    m.PageInSpace ids tid vpn ↔ ∃ d, m.diskOf ids tid = some d ∧
      vpn * PageSize + PageSize ≤ (m.disk d).size := by
  constructor
  · rintro ⟨t, sp, hp, ht, hbytes⟩
    have hlt : vpn < sp.numPages := (Machine.pageInSpace_iff hp ht).mp ⟨t, sp, hp, ht, hbytes⟩
    refine ⟨sp.disk, ?_, ?_⟩
    · simp only [diskOf, hp, ht, Option.map_some]
    · rw [h.array t sp ht, ← Nat.succ_mul]
      exact Nat.mul_le_mul_right PageSize hlt
  · rintro ⟨d, hd, hle⟩
    simp only [diskOf] at hd
    split at hd
    · rename_i t hp
      obtain ⟨sp, ht, rfl⟩ := Option.map_eq_some_iff.mp hd
      rw [h.array t sp ht, ← Nat.succ_mul] at hle
      exact (Machine.pageInSpace_iff hp ht).mpr (Nat.le_of_mul_le_mul_right hle (by decide))
    · cases hd

/-- The write-back ends exactly when the victim is in its space. -/
theorem Sized.writeBack_iff (h : m.Sized) (random : Nat) :
    m.VictimInSpace ids random ↔ ∃ m', m.writeBack ids (m.position random) = some m' := by
  unfold VictimInSpace
  generalize m.position random = i
  by_cases hdirty : (m.rtPageTable i).valid = true ∧ (m.rtPageTable i).dirty = true
  · obtain ⟨vpn, hvpn⟩ := Int.eq_ofNat_of_zero_le (h.page i hdirty.1)
    have hback : m.writeBack ids i = (m.diskOf ids (m.rtPageTable i).tid).bind fun d =>
        ((m.disk d).copy (vpn * PageSize) m.mainMemory (i * PageSize) PageSize).map
          fun bytes => { m with disk := update m.disk d bytes } := by
      simp only [writeBack, hdirty.1, hdirty.2, Bool.and_self, if_true, hvpn, h.frame i,
        Int.toNat_natCast]
      cases m.diskOf ids (m.rtPageTable i).tid <;> rfl
    rw [hback, hvpn]
    constructor
    · intro hspace
      obtain ⟨d, hd, hle⟩ := (h.pageInSpace_iff _ vpn).mp (hspace hdirty.1 hdirty.2)
      rw [hd, Option.bind_some, CharArray.copy_of_le hle (frame_bound h.mainMemory i)]
      exact ⟨_, rfl⟩
    · rintro ⟨m', hrun⟩ _ _
      obtain ⟨d, hd, hcopy⟩ := Option.bind_eq_some_iff.mp hrun
      refine (h.pageInSpace_iff _ vpn).mpr ⟨d, hd, ?_⟩
      by_contra hle
      rw [CharArray.copy, if_neg (fun hin => hle hin.1)] at hcopy
      cases hcopy
  · have hclean : m.writeBack ids i = some m := by
      unfold writeBack
      rw [if_neg]
      rwa [Bool.and_eq_true]
    exact iff_of_true (fun hv hd => absurd ⟨hv, hd⟩ hdirty) ⟨m, hclean⟩

/-- The page is read exactly when it is in its space. -/
theorem Sized.readPage_iff (h : m.Sized) (tid vpn : Nat) (i : Fin NumPhysPages) :
    m.PageInSpace ids tid vpn ↔ ∃ m', m.readPage ids tid vpn i = some m' := by
  rw [h.pageInSpace_iff]
  unfold readPage
  rw [h.frame i]
  constructor
  · rintro ⟨d, hd, hle⟩
    rw [hd]
    simp only [CharArray.copy_of_le (frame_bound h.mainMemory i) hle]
    exact ⟨_, rfl⟩
  · rintro ⟨m', hrun⟩
    split at hrun
    · cases hrun
    · rename_i d hd
      refine ⟨d, hd, ?_⟩
      by_contra hle
      rw [CharArray.copy, if_neg (fun hin => hle hin.2)] at hrun
      cases hrun

/-- The model of the replacement ends exactly when all indices are in space. -/
theorem Sized.replaces_iff (h : m.Sized) (tid : Nat) (address : BitVec 32) (random : Nat) :
    m.ReplacesInSpace ids tid address random ↔
      ∃ m', m.reverseTableReplace ids tid address random = some m' := by
  have hread : ∀ disk : Nat → CharArray, (∀ d, (disk d).size = (m.disk d).size) →
      (m.PageInSpace ids tid (address.toNat / PageSize : Nat) ↔
        ∃ m', readPage { m with disk := disk } ids tid (address.toNat / PageSize)
          (m.position random) = some m') := by
    intro disk hsize
    have hsized : Sized { m with disk := disk } :=
      ⟨fun t sp ht => (hsize sp.disk).trans (h.array t sp ht), h.mainMemory, h.frame, h.page⟩
    exact hsized.readPage_iff tid _ _
  constructor
  · intro hspace
    obtain ⟨m1, hback⟩ := (h.writeBack_iff random).mp hspace.writes
    obtain ⟨disk, hsize, rfl⟩ := writeBack_eq_some hback
    obtain ⟨m', hm'⟩ := (hread disk hsize).mp hspace.reads
    exact ⟨m', Option.bind_eq_some_iff.mpr ⟨_, hback, hm'⟩⟩
  · rintro ⟨m', hrun⟩
    obtain ⟨m1, hback, hm'⟩ := Option.bind_eq_some_iff.mp hrun
    obtain ⟨disk, hsize, rfl⟩ := writeBack_eq_some hback
    exact ⟨(h.writeBack_iff random).mpr ⟨_, hback⟩, (hread disk hsize).mpr ⟨m', hm'⟩⟩

end Memory

/-! ## The states of demand paging -/

namespace Memory.Mapped

variable {m : Memory} {ids : ThreadIds} {live : ThreadPtr → Prop} {t : ThreadPtr}
  {sp : AddrSpace} {addr : BitVec 32}

theorem sized (h : m.Mapped ids live) : m.Sized where
  array := h.spaces.size
  mainMemory := h.size
  frame := h.frame
  page i hi := by
    obtain ⟨t, sp, vpn, _, _, _, hvpn⟩ := h.page i hi
    rw [hvpn]
    exact Int.natCast_nonneg vpn

/-- While the table maps pages of the address spaces, every victim is in its
space. -/
theorem victimInSpace (h : m.Mapped ids live) (random : Nat) : m.VictimInSpace ids random := by
  intro hvalid _
  obtain ⟨t, sp, vpn, ht, hv, htid, hvpn⟩ := h.page (m.position random) hvalid
  have hp : ids.threadPoiners ((ids.tid t : Nat) : Int).toNat = some t :=
    h.spaces.ids.poiner_eq t (h.spaces.live t sp ht)
  rw [htid, hvpn]
  exact (pageInSpace_iff hp ht).mpr hv

/-- No entry maps an address outside. -/
theorem lookup_outside (h : m.Mapped ids live) (ht : m.space t = some sp)
    (hout : sp.numPages * PageSize ≤ addr.toNat) :
    m.lookup (ids.tid t) (addr.toNat / PageSize) = none := by
  cases hl : m.lookup (ids.tid t) (addr.toNat / PageSize) with
  | none => rfl
  | some i =>
      obtain ⟨hvalid, hpage, htid⟩ := lookup_spec hl
      obtain ⟨u, sp', vpn, hu, hv, htid', hpage'⟩ := h.page i hvalid
      have hut : u = t := h.spaces.ids.tid_inj (h.spaces.live u sp' hu) (h.spaces.live t sp ht)
        (Int.ofNat_inj.mp (htid'.symm.trans htid))
      subst hut
      cases ht.symm.trans hu
      have hvpn : vpn = addr.toNat / PageSize := Int.ofNat_inj.mp (hpage'.symm.trans hpage)
      rw [hvpn, page_lt_iff] at hv
      exact absurd hv (Nat.not_lt.mpr hout)

/-- An aligned access outside the address space faults, and the handler leaves
the array of the thread. -/
theorem outside (h : m.Mapped ids live) (ht : m.space t = some sp) {size : Nat} {writing : Bool}
    (halign : misaligned addr size = false) (hout : sp.numPages * PageSize ≤ addr.toNat)
    (random : Nat) :
    m.translate (ids.tid t) addr size writing = some (.error .pageFaultException) ∧
      m.reverseTableReplace ids (ids.tid t) addr random = none := by
  refine ⟨translate_of_miss halign (h.lookup_outside ht hout), ?_⟩
  cases hrun : m.reverseTableReplace ids (ids.tid t) addr random with
  | none => rfl
  | some m' =>
      have hp : ids.threadPoiners ((ids.tid t : Nat) : Int).toNat = some t :=
        h.spaces.ids.poiner_eq t (h.spaces.live t sp ht)
      have hread := ((h.sized.replaces_iff (ids.tid t) addr random).mpr ⟨m', hrun⟩).reads
      rw [pageInSpace_iff hp ht, page_lt_iff] at hread
      exact absurd hread (Nat.not_lt.mpr hout)

end Memory.Mapped

/-- Two threads with one page each, before their first instruction. -/
def State.onePageEach : State where
  registers _ := 0
  memory :=
    { Memory.boot (fun _ => false) (fun _ => ⟨PageSize, fun _ => 0⟩) with
      space := Memory.onePage }

theorem State.mapped_onePageEach :
    State.onePageEach.memory.Mapped Memory.twoThreads (· < 2) :=
  (Memory.paged_boot (fun _ => false) Memory.private_twoThreads).toMapped

/-- The address 128 is outside of the one page: the access is a page fault, and
the handler reads behind the array. -/
theorem fault_outside :
    State.onePageEach.memory.space 0 = some ⟨0, 1⟩ ∧ 1 * PageSize ≤ (128 : Word).toNat ∧
    readMem 0 128 4 State.onePageEach =
      some (.error ⟨.pageFaultException, 128⟩, State.onePageEach) ∧
    (∀ random, State.onePageEach.memory.reverseTableReplace Memory.twoThreads 0 128 random =
      none) ∧
    ¬State.onePageEach.Confined Memory.twoThreads 0 ⟨0, 1⟩ 128 4 := by
  have hspace : State.onePageEach.memory.space 0 = some ⟨0, 1⟩ := rfl
  have halign : Memory.misaligned (128 : Word) 4 = false := by decide
  have hout : 1 * PageSize ≤ (128 : Word).toNat := by decide
  have houtside : ∀ random,
      State.onePageEach.memory.translate 0 128 4 false = some (.error .pageFaultException) ∧
        State.onePageEach.memory.reverseTableReplace Memory.twoThreads 0 128 random = none :=
    fun random => State.mapped_onePageEach.outside hspace halign hout random
  refine ⟨hspace, hout, ?_, fun random => (houtside random).2, fun h => ?_⟩
  · simp only [readMem, (houtside 0).1]
  · have hrejected := (h.rejected hout).misaligned
    rw [halign] at hrejected
    cases hrejected

/-- The first word of the page. -/
theorem confined_iff_first : State.onePageEach.Confined Memory.twoThreads 0 ⟨0, 1⟩ 0 4 :=
  (confined_iff rfl rfl 0 4).mpr
    (Or.inr ⟨by decide, fun _ random => State.mapped_onePageEach.victimInSpace random⟩)

end Nachos.Machine

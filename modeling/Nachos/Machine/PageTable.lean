import Nachos.Machine.Paging

/-!
# The inverted page table

`rt_page_table` has one entry for each frame.  Nothing checks that two entries
name different pages; it holds because a page is installed only after the
search for it has failed, and because the search and the installation use the
same thread id and the same page number.

`Reachable` are the states that translations and replacements lead to, by any
threads, in any order, with any victims.  Only the table is followed: the bytes
of the frames, the address spaces and the arrays may change in any way between
two steps, and a replacement counts also where its copies leave the arrays.
-/

namespace Nachos.Machine.Memory

open Function Lib Threads

/-- The table after `ReverseTableReplace`. -/
def replacedTable (m : Memory) (tid : Nat) (address : BitVec 32) (random : Nat) :
    Fin NumPhysPages → ReverseTranslationEntry :=
  (m.install tid (address.toNat / PageSize) (m.position random) m.mainMemory).rtPageTable

variable {ids : ThreadIds} {m m' : Memory}

theorem reverseTableReplace_rtPageTable {tid random : Nat}
    {address : BitVec 32} (h : m.reverseTableReplace ids tid address random = some m') :
    m'.rtPageTable = m.replacedTable tid address random := by
  obtain ⟨bytes, disk, rfl⟩ := reverseTableReplace_eq_some h
  rfl

/-- The states that translations and replacements lead to. -/
inductive Reachable : Memory → Prop where
  | boot (dirty : Fin NumPhysPages → Bool) (disk : Nat → CharArray) :
      Reachable (boot dirty disk)
  | translate {m m' : Memory} {tid size physAddr : Nat} {addr : BitVec 32} {writing : Bool}
      (h : Reachable m) (hm : m.translate tid addr size writing = some (.ok (physAddr, m'))) :
      Reachable m'
  | replace {m m' : Memory} {tid size random : Nat} {addr : BitVec 32} {writing : Bool}
      (h : Reachable m)
      (hfault : m.translate tid addr size writing = some (.error .pageFaultException))
      (hm : m'.rtPageTable = m.replacedTable tid addr random) : Reachable m'
  | other {m m' : Memory} (h : Reachable m) (hm : m'.rtPageTable = m.rtPageTable) : Reachable m'

/-- The entry of a frame names the frame, and no two valid entries name the same
page of a thread. -/
structure WellFormed (m : Memory) : Prop where
  frame : ∀ i, (m.rtPageTable i).physicalPage = i
  unique : ∀ i j, (m.rtPageTable i).valid = true → (m.rtPageTable j).valid = true →
    (m.rtPageTable i).tid = (m.rtPageTable j).tid →
    (m.rtPageTable i).virtualPage = (m.rtPageTable j).virtualPage → i = j

section Steps

variable {m m' : Memory} {tid vpn : Nat} {i j : Fin NumPhysPages}

theorem wellFormed_boot (dirty : Fin NumPhysPages → Bool) (disk : Nat → CharArray) :
    (boot dirty disk).WellFormed := by
  refine ⟨fun _ => rfl, fun i j hi => ?_⟩
  cases hi

theorem WellFormed.congr (h : m.WellFormed) (hm : m'.rtPageTable = m.rtPageTable) :
    m'.WellFormed := by
  refine ⟨?_, ?_⟩
  · rw [hm]
    exact h.frame
  · rw [hm]
    exact h.unique

/-- The bits `use` and `dirty` play no part. -/
theorem WellFormed.touch (h : m.WellFormed) (i : Fin NumPhysPages) (writing : Bool) :
    (m.touch i writing).WellFormed := by
  refine ⟨fun g => ?_, fun g k hg hk htid hpage => ?_⟩
  · obtain ⟨use, dirty, he⟩ := m.touch_entry i g writing
    rw [he]
    exact h.frame g
  · obtain ⟨use, dirty, he⟩ := m.touch_entry i g writing
    obtain ⟨use', dirty', he'⟩ := m.touch_entry i k writing
    rw [he] at hg htid hpage
    rw [he'] at hk htid hpage
    exact h.unique g k hg hk htid hpage

/-- A failed search: no valid entry names the page. -/
theorem not_named_of_lookup (hl : m.lookup tid vpn = none)
    (hvalid : (m.rtPageTable j).valid = true) (htid : (m.rtPageTable j).tid = tid)
    (hpage : (m.rtPageTable j).virtualPage = vpn) : False := by
  have hnot := List.find?_eq_none.mp hl j (List.mem_finRange j)
  simp [hvalid, htid, hpage] at hnot

/-- The installation of a page that no entry names. -/
theorem WellFormed.install (h : m.WellFormed) (hl : m.lookup tid vpn = none)
    (bytes : CharArray) : (m.install tid vpn i bytes).WellFormed := by
  have hsame : (m.install tid vpn i bytes).rtPageTable i =
      { m.rtPageTable i with virtualPage := vpn, valid := true, dirty := false, tid := tid } :=
    update_self ..
  have hother : ∀ g, g ≠ i → (m.install tid vpn i bytes).rtPageTable g = m.rtPageTable g :=
    fun g hg => update_of_ne hg ..
  refine ⟨fun g => ?_, fun g k hg hk htid hpage => ?_⟩
  · by_cases hgi : g = i
    · subst hgi
      rw [hsame]
      exact h.frame g
    · rw [hother g hgi]
      exact h.frame g
  · by_cases hgi : g = i
    · by_cases hki : k = i
      · exact hgi.trans hki.symm
      · rw [hgi, hsame] at htid hpage
        rw [hother k hki] at hk htid hpage
        exact (not_named_of_lookup hl hk htid.symm hpage.symm).elim
    · by_cases hki : k = i
      · rw [hki, hsame] at htid hpage
        rw [hother g hgi] at hg htid hpage
        exact (not_named_of_lookup hl hg htid hpage).elim
      · rw [hother g hgi] at hg htid hpage
        rw [hother k hki] at hk htid hpage
        exact h.unique g k hg hk htid hpage

end Steps

/-- Every reachable table is well formed. -/
theorem Reachable.wellFormed {m : Memory} (h : m.Reachable) : m.WellFormed := by
  induction h with
  | boot dirty disk => exact wellFormed_boot dirty disk
  | translate h hm ih =>
      rcases translate_cases hm with ⟨hr, _⟩ | ⟨e, _, hr⟩ | ⟨_, i, _, hr⟩
      · cases hr
      · cases hr
      · cases hr
        exact ih.touch i _
  | replace h hfault hm ih =>
      rcases translate_cases hfault with ⟨_, hl⟩ | ⟨e, hne, hr⟩ | ⟨_, i, _, hr⟩
      · exact (ih.install hl _).congr hm
      · cases hr
        exact absurd rfl hne
      · cases hr
  | other h hm ih => exact ih.congr hm

/-! ## Accesses -/

/-- A call of `ReadMem` or `WriteMem` is made of these steps. -/
theorem Reachable.serve {r : Request} {reply : Reply}
    (h : m.Reachable) (hserve : m.serve ids r = some (m', reply)) : m'.Reachable := by
  obtain ⟨t, access, random⟩ := r
  cases serve_cases hserve with
  | fault hl hm htr => exact h.replace htr (reverseTableReplace_rtPageTable hm)
  | read halign hl hv htr => exact h.translate htr
  | write halign hl hf htr => exact (h.translate htr).other rfl

theorem Reachable.serveAll (rs : List Request) {replies : List Reply} (h : m.Reachable)
    (hrun : Memory.serveAll ids m rs = some (m', replies)) : m'.Reachable := by
  induction rs generalizing m replies with
  | nil =>
      cases hrun
      exact h
  | cons r rs ih =>
      obtain ⟨m1, reply, rest, hserve, hall, _⟩ := serveAll_cons hrun
      exact ih (h.serve hserve) hall

section Translations

variable {m m' : Memory} {tid size physAddr : Nat} {addr : BitVec 32} {writing : Bool}

/-- A successful translation: the frame, and that the access stays in it. -/
theorem WellFormed.translate_ok (h : m.WellFormed) (hsize : size = 1 ∨ size = 2 ∨ size = 4)
    (htr : m.translate tid addr size writing = some (.ok (physAddr, m'))) :
    ∃ i : Fin NumPhysPages, m.lookup tid (addr.toNat / PageSize) = some i ∧
      physAddr = i * PageSize + addr.toNat % PageSize ∧
      addr.toNat % PageSize + size ≤ PageSize := by
  rcases translate_cases htr with ⟨hr, _⟩ | ⟨e, _, hr⟩ | ⟨halign, i, hl, hr⟩
  · cases hr
  · cases hr
  · cases hr
    refine ⟨i, hl, ?_, offset_le_of_aligned hsize halign⟩
    rw [h.frame i]

/-- The `ASSERT` of `Translate` holds. -/
theorem WellFormed.translate_ne_none (h : m.WellFormed)
    (hsize : size = 1 ∨ size = 2 ∨ size = 4) : m.translate tid addr size writing ≠ none := by
  intro hnone
  simp only [translate] at hnone
  split at hnone
  · cases hnone
  · rename_i halign
    split at hnone
    · cases hnone
    · rename_i i hl
      rw [h.frame i] at hnone
      split at hnone
      · cases hnone
      · split at hnone
        · cases hnone
        · split at hnone
          · cases hnone
          · rename_i hassert
            have hoffset := offset_le_of_aligned hsize (Bool.eq_false_of_not_eq_true halign)
            have hframe : (i + 1) * PageSize ≤ NumPhysPages * PageSize :=
              Nat.mul_le_mul_right PageSize i.isLt
            rw [Nat.succ_mul] at hframe
            apply hassert
            show i * PageSize + addr.toNat % PageSize + size ≤ NumPhysPages * PageSize
            omega

/-- Two translations that meet in one byte are of the same byte of the same
thread. -/
theorem WellFormed.translate_inj (h : m.WellFormed) {m'' : Memory} {tid' size' physAddr' : Nat}
    {addr' : BitVec 32} {writing' : Bool} (hsize : size = 1 ∨ size = 2 ∨ size = 4)
    (hsize' : size' = 1 ∨ size' = 2 ∨ size' = 4)
    (htr : m.translate tid addr size writing = some (.ok (physAddr, m')))
    (htr' : m.translate tid' addr' size' writing' = some (.ok (physAddr', m'')))
    {j j' : Nat} (hj : j < size) (hj' : j' < size') (hmeet : physAddr + j = physAddr' + j') :
    tid = tid' ∧ addr.toNat + j = addr'.toNat + j' := by
  obtain ⟨i, hl, rfl, hoffset⟩ := h.translate_ok hsize htr
  obtain ⟨i', hl', rfl, hoffset'⟩ := h.translate_ok hsize' htr'
  -- Both bytes lie in their frames, so the frames and the offsets are the same.
  have hsame : (i : Nat) = i' ∧ addr.toNat % PageSize + j = addr'.toNat % PageSize + j' := by
    simp only [PageSize, SectorSize] at *
    omega
  obtain ⟨_, hpage, htid⟩ := lookup_spec hl
  obtain ⟨_, hpage', htid'⟩ := lookup_spec hl'
  rw [Fin.ext hsame.1] at hpage htid
  have hvpn : addr.toNat / PageSize = addr'.toNat / PageSize :=
    Int.ofNat_inj.mp (hpage.symm.trans hpage')
  have hsplit := Nat.div_add_mod' addr.toNat PageSize
  have hsplit' := Nat.div_add_mod' addr'.toNat PageSize
  rw [hvpn] at hsplit
  refine ⟨Int.ofNat_inj.mp (htid.symm.trans htid'), ?_⟩
  have hoffsets := hsame.2
  omega

end Translations

/-- **The inverted page table is well formed in every reachable state.**  The
entry of a frame names the frame; at most one valid entry names a page of a
thread; a successful translation yields bytes of one frame, and the `ASSERT` of
`Translate` never fails; and different bytes of the threads are never
translated to one byte of memory. -/
theorem inverted_table_wellFormed {m : Memory} (h : m.Reachable) :
    (∀ i, (m.rtPageTable i).physicalPage = i) ∧
    (∀ i j, (m.rtPageTable i).valid = true → (m.rtPageTable j).valid = true →
      (m.rtPageTable i).tid = (m.rtPageTable j).tid →
      (m.rtPageTable i).virtualPage = (m.rtPageTable j).virtualPage → i = j) ∧
    (∀ tid addr size writing, size = 1 ∨ size = 2 ∨ size = 4 →
      m.translate tid addr size writing ≠ none ∧
      ∀ physAddr m', m.translate tid addr size writing = some (.ok (physAddr, m')) →
        ∃ i : Fin NumPhysPages, i * PageSize ≤ physAddr ∧
          physAddr + size ≤ i * PageSize + PageSize) ∧
    ∀ tid addr size writing physAddr m₁ tid' addr' size' writing' physAddr' m₂ j j',
      (size = 1 ∨ size = 2 ∨ size = 4) → (size' = 1 ∨ size' = 2 ∨ size' = 4) →
      m.translate tid addr size writing = some (.ok (physAddr, m₁)) →
      m.translate tid' addr' size' writing' = some (.ok (physAddr', m₂)) →
      j < size → j' < size' → physAddr + j = physAddr' + j' →
      tid = tid' ∧ addr.toNat + j = addr'.toNat + j' := by
  have hwf := h.wellFormed
  refine ⟨hwf.frame, hwf.unique, fun tid addr size writing hsize => ?_, ?_⟩
  · refine ⟨hwf.translate_ne_none hsize, fun physAddr m' htr => ?_⟩
    obtain ⟨i, _, hphys, hoffset⟩ := hwf.translate_ok hsize htr
    exact ⟨i, by omega, by omega⟩
  · intro tid addr size writing physAddr m₁ tid' addr' size' writing' physAddr' m₂ j j'
      hsize hsize' htr htr' hj hj' hmeet
    exact hwf.translate_inj hsize hsize' htr htr' hj hj' hmeet

/-- The machine with two threads of one page. -/
def twoPrograms : Memory :=
  { boot (fun _ => true) (fun _ => ⟨PageSize, fun _ => 0⟩) with space := onePage }

theorem reachable_twoPrograms : twoPrograms.Reachable :=
  (Reachable.boot (fun _ => true) fun _ => ⟨PageSize, fun _ => 0⟩).other rfl

/-- Two threads have the page with number 0 in two frames. -/
theorem inverted_table_wellFormed_two : ∃ m : Memory, m.Reachable ∧
    (m.rtPageTable 0).valid = true ∧ (m.rtPageTable 1).valid = true ∧
    (m.rtPageTable 0).virtualPage = (m.rtPageTable 1).virtualPage ∧
    (m.rtPageTable 0).tid ≠ (m.rtPageTable 1).tid ∧
    m.translate 0 4 4 false ≠ none ∧ m.translate 1 4 4 false ≠ none := by
  have hrun : ((serveAll twoThreads twoPrograms [⟨0, .read 4 4, 0⟩, ⟨1, .read 4 4, 0⟩]).map
      fun x => (x.1.rtPageTable 0, x.1.rtPageTable 1)) =
      some (⟨0, 0, true, false, false, false, 0⟩, ⟨0, 1, true, false, false, false, 1⟩) := by
    decide +kernel
  obtain ⟨⟨m, replies⟩, hall, htable⟩ := Option.map_eq_some_iff.mp hrun
  have hentries : m.rtPageTable 0 = ⟨0, 0, true, false, false, false, 0⟩ ∧
      m.rtPageTable 1 = ⟨0, 1, true, false, false, false, 1⟩ := Prod.mk.inj htable
  have hreach : m.Reachable := reachable_twoPrograms.serveAll _ hall
  obtain ⟨_, _, htranslate, _⟩ := inverted_table_wellFormed hreach
  refine ⟨m, hreach, ?_, ?_, ?_, ?_, (htranslate 0 4 4 false (by decide)).1,
    (htranslate 1 4 4 false (by decide)).1⟩
  · rw [hentries.1]
  · rw [hentries.2]
  · rw [hentries.1, hentries.2]
  · rw [hentries.1, hentries.2]
    decide

end Nachos.Machine.Memory

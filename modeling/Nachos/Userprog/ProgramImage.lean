import Nachos.Userprog.AddrSpace

/-!
# The image of a program in its address space

Two questions about the constructor `AddrSpace(OpenFile *executable)`.

For a proper executable, does the array have the image of the program?  The two loops
put every byte of the code and of the initialized data in its place.  But the array
comes from `new char[size]` and is never cleared, so the uninitialized data and the
stack have what the heap had there (`loaded_iff`).

For any file with the magic number, are all stores inside the array?  The size of the
array comes from the sizes of the segments, and the indices come from their addresses.
Nothing compares the two (`storesInside_iff`).
-/

namespace Nachos.Userprog

open Function Lib Bin Machine

namespace Loading

variable (e : Executable) (g : Segment) (s : Loading)

/-- The bytes of the array after a loop.  An index that is too large for an `int` is a
negative number, and not in the array. -/
theorem disk_copied {n : Nat} (hva : 0 ≤ g.virtualAddr.toInt)
    (hend : g.virtualAddr.toInt + n ≤ 2 ^ 32) {a : Int} (ha : 0 ≤ a) :
    (s.copied e g n).disk a =
      if g.virtualAddr.toInt ≤ a ∧ a < g.virtualAddr.toInt + n ∧ a < 2 ^ 31 then
        e.get (g.inFileAddr.toInt.toNat + (a - g.virtualAddr.toInt).toNat)
      else s.disk a := by
  induction n with
  | zero =>
    rw [if_neg (by omega)]
    rfl
  | succ n ih =>
    rw [copied, store]
    show update _ _ _ a = _
    by_cases hlarge : g.virtualAddr.toInt + n < 2 ^ 31
    · rw [i32_eq (by omega) hlarge]
      by_cases hlast : a = g.virtualAddr.toInt + n
      · rw [hlast, update_self, if_pos (by omega)]
        congr 1
        omega
      · rw [update_of_ne hlast, ih (by omega)]
        exact if_congr (by omega) rfl rfl
    · have hne : a ≠ i32 (g.virtualAddr.toInt + n) := by
        rw [i32_wrap (by omega) (by omega)]
        omega
      rw [update_of_ne hne, ih (by omega)]
      exact if_congr (by omega) rfl rfl

end Loading

/-! ## Proper executables -/

/-- The segment lies in the address space. -/
structure SegmentInSpace (noffH : NoffHeader) (g : Segment) : Prop where
  size : 0 ≤ g.size.toInt
  start : 0 < g.size.toInt → 0 ≤ g.virtualAddr.toInt
  stop : 0 < g.size.toInt → g.virtualAddr.toInt + g.size.toInt ≤ spaceSize noffH

/-- The file has the contents of the segment. -/
def HasData (e : Executable) (g : Segment) : Prop :=
  0 < g.size.toInt → 0 ≤ g.inFileAddr.toInt ∧ g.inFileAddr.toInt + g.size.toInt ≤ e.length

/-- An executable with segments in the address space that do not overlap. -/
structure Proper (e : Executable) (noffH : NoffHeader) : Prop where
  code : SegmentInSpace noffH noffH.code
  initData : SegmentInSpace noffH noffH.initData
  uninitData : SegmentInSpace noffH noffH.uninitData
  codeData : HasData e noffH.code
  initDataData : HasData e noffH.initData
  code_initData : ∀ a, noffH.code.Covers a → ¬ noffH.initData.Covers a
  code_uninitData : ∀ a, noffH.code.Covers a → ¬ noffH.uninitData.Covers a
  initData_uninitData : ∀ a, noffH.initData.Covers a → ¬ noffH.uninitData.Covers a

/-- The constructor returns, and the array has the image of the program: the contents of
the two segments, and zeros. -/
def Loaded (e : Executable) (junk : Bytes) (heap : Int → Byte) (noffH : NoffHeader) : Prop :=
  ∃ s, construct e junk ⟨heap, []⟩ = some (.ok (numPages noffH), s) ∧
    (∀ i : Nat, i < noffH.code.size.toInt → s.disk (noffH.code.virtualAddr.toInt + i) =
      e.get (noffH.code.inFileAddr.toInt.toNat + i)) ∧
    (∀ i : Nat, i < noffH.initData.size.toInt → s.disk (noffH.initData.virtualAddr.toInt + i) =
      e.get (noffH.initData.inFileAddr.toInt.toNat + i)) ∧
    ∀ a : Int, 0 ≤ a → a < spaceSize noffH → ¬ noffH.code.Covers a → ¬ noffH.initData.Covers a →
      s.disk a = 0

instance (g : Segment) (a : Int) : Decidable (g.Covers a) := inferInstanceAs (Decidable (_ ∧ _))

/-- The byte of the program at an address. -/
def image (e : Executable) (noffH : NoffHeader) (a : Int) : Byte :=
  if noffH.code.Covers a then
    e.get (noffH.code.inFileAddr.toInt.toNat + (a - noffH.code.virtualAddr.toInt).toNat)
  else if noffH.initData.Covers a then
    e.get (noffH.initData.inFileAddr.toInt.toNat + (a - noffH.initData.virtualAddr.toInt).toNat)
  else 0

/-- An address that one of the loops writes.  A larger index is not an `int`. -/
def Written (noffH : NoffHeader) (a : Int) : Prop :=
  a < 2 ^ 31 ∧ (noffH.code.Covers a ∨ noffH.initData.Covers a)

instance (noffH : NoffHeader) (a : Int) : Decidable (Written noffH a) :=
  inferInstanceAs (Decidable (_ ∧ _))

section Proper

variable {e : Executable} {noffH : NoffHeader} {g : Segment} {s : Loading} {a : Int}

theorem HasData.completes (hdata : HasData e g) : Executable.Completes g := by
  have hlength := e.length_lt
  unfold Executable.Completes
  by_cases hsize : 0 < g.size.toInt
  · obtain ⟨hfile, hend⟩ := hdata hsize
    omega
  · omega

theorem HasData.stored (hdata : HasData e g) : e.stored g = g.size.toInt.toNat := by
  unfold Executable.stored
  by_cases hsize : 0 < g.size.toInt
  · obtain ⟨hfile, hend⟩ := hdata hsize
    rw [if_pos hfile]
    omega
  · split <;> omega

theorem spaceSize_lt (noffH : NoffHeader) : spaceSize noffH < 2 ^ 32 :=
  Nat.mod_lt _ (by decide)

/-- What the loop for a segment leaves in the array. -/
theorem SegmentInSpace.disk_copied (hplaced : SegmentInSpace noffH g) (hdata : HasData e g)
    (ha : 0 ≤ a) :
    (s.copied e g (e.stored g)).disk a =
      if a < 2 ^ 31 ∧ g.Covers a then
        e.get (g.inFileAddr.toInt.toNat + (a - g.virtualAddr.toInt).toNat)
      else s.disk a := by
  have hlt := spaceSize_lt noffH
  rw [hdata.stored]
  by_cases hsize : 0 < g.size.toInt
  · have hstop := hplaced.stop hsize
    rw [Loading.disk_copied e g s (hplaced.start hsize) (by omega) ha]
    by_cases hin : a < 2 ^ 31 ∧ g.Covers a
    · rw [if_pos hin, if_pos]
      unfold Segment.Covers at hin
      omega
    · rw [if_neg hin, if_neg]
      unfold Segment.Covers at hin
      omega
  · have hzero : g.size.toInt.toNat = 0 := by omega
    have hin : ¬ (a < 2 ^ 31 ∧ g.Covers a) := by
      unfold Segment.Covers
      omega
    rw [hzero, if_neg hin]
    rfl

/-- The array after both loops. -/
theorem Proper.disk_eq (hproper : Proper e noffH) (ha : 0 ≤ a) :
    ((s.copied e noffH.code (e.stored noffH.code)).copied e noffH.initData
      (e.stored noffH.initData)).disk a =
      if Written noffH a then image e noffH a else s.disk a := by
  rw [hproper.initData.disk_copied hproper.initDataData ha,
    hproper.code.disk_copied hproper.codeData ha]
  unfold Written image
  by_cases hdata : noffH.initData.Covers a
  · have hcode : ¬ noffH.code.Covers a := fun h => hproper.code_initData a h hdata
    simp only [hdata, hcode, and_true, and_false, or_true, if_true, if_false]
  · simp only [hdata, and_false, or_false, if_false]
    by_cases hcode : noffH.code.Covers a
    · simp only [hcode, and_true, if_true]
    · simp only [hcode, and_false, if_false]

/-- An address of a segment is in the address space. -/
theorem SegmentInSpace.inSpace (hplaced : SegmentInSpace noffH g) (ha : g.Covers a) :
    0 ≤ a ∧ a < spaceSize noffH := by
  unfold Segment.Covers at ha
  have hstart := hplaced.start (by omega)
  have hstop := hplaced.stop (by omega)
  omega

theorem covers_add {i : Nat} (hi : i < g.size.toInt) : g.Covers (g.virtualAddr.toInt + i) := by
  unfold Segment.Covers
  omega

theorem covers_sub (ha : g.Covers a) :
    (a - g.virtualAddr.toInt).toNat < g.size.toInt ∧
      g.virtualAddr.toInt + (a - g.virtualAddr.toInt).toNat = a := by
  unfold Segment.Covers at ha
  omega

theorem image_code {i : Nat} (hi : i < noffH.code.size.toInt) :
    image e noffH (noffH.code.virtualAddr.toInt + i) =
      e.get (noffH.code.inFileAddr.toInt.toNat + i) := by
  rw [image, if_pos (covers_add hi), add_sub_cancel_left, Int.toNat_natCast]

theorem Proper.image_initData (hproper : Proper e noffH) {i : Nat}
    (hi : i < noffH.initData.size.toInt) :
    image e noffH (noffH.initData.virtualAddr.toInt + i) =
      e.get (noffH.initData.inFileAddr.toInt.toNat + i) := by
  have hcode := fun h => hproper.code_initData _ h (covers_add hi)
  rw [image, if_neg hcode, if_pos (covers_add hi), add_sub_cancel_left, Int.toNat_natCast]

/-- The image is in the array. -/
theorem Proper.loaded_iff_image (hproper : Proper e noffH) {junk : Bytes} {heap : Int → Byte}
    (hrun : construct e junk ⟨heap, []⟩ = some (.ok (numPages noffH), s)) :
    Loaded e junk heap noffH ↔
      ∀ a : Int, 0 ≤ a → a < spaceSize noffH → s.disk a = image e noffH a := by
  constructor
  · rintro ⟨s', hrun', hcode, hdata, hzero⟩ a ha hlt
    obtain rfl : s = s' := (Prod.mk.inj (Option.some.inj (hrun.symm.trans hrun'))).2
    by_cases hc : noffH.code.Covers a
    · obtain ⟨hi, heq⟩ := covers_sub hc
      rw [← heq, image_code hi]
      exact hcode _ hi
    · by_cases hd : noffH.initData.Covers a
      · obtain ⟨hi, heq⟩ := covers_sub hd
        rw [← heq, hproper.image_initData hi]
        exact hdata _ hi
      · rw [image, if_neg hc, if_neg hd]
        exact hzero a ha hlt hc hd
  · intro himage
    refine ⟨s, hrun, fun i hi => ?_, fun i hi => ?_, fun a ha hlt hc hd => ?_⟩
    · obtain ⟨ha, hlt⟩ := hproper.code.inSpace (covers_add hi)
      rw [himage _ ha hlt, image_code hi]
    · obtain ⟨ha, hlt⟩ := hproper.initData.inSpace (covers_add hi)
      rw [himage _ ha hlt, hproper.image_initData hi]
    · rw [himage a ha hlt, image, if_neg hc, if_neg hd]

end Proper

/-- A proper executable is loaded if and only if the new array happens to have the image
already where the loops do not write: zeros outside of the code and the initialized
data. -/
theorem loaded_iff {e : Executable} {junk : Bytes} {noffH : NoffHeader}
    (hmagic : (e.header junk).word 0 = NOFFMAGIC)
    (hload : NoffHeader.load (e.header junk) = noffH) (hproper : Proper e noffH)
    (heap : Int → Byte) :
    Loaded e junk heap noffH ↔
      ∀ a : Int, 0 ≤ a → a < spaceSize noffH → ¬ Written noffH a →
        heap a = image e noffH a := by
  have hrun := construct_eq hmagic hload ⟨heap, []⟩
  rw [if_pos hproper.codeData.completes, if_pos hproper.initDataData.completes] at hrun
  rw [hproper.loaded_iff_image hrun]
  refine forall_congr' fun a => forall_congr' fun ha => forall_congr' fun _ => ?_
  rw [hproper.disk_eq ha]
  by_cases hwritten : Written noffH a
  · rw [if_pos hwritten]
    exact iff_of_true rfl fun h => absurd hwritten h
  · rw [if_neg hwritten]
    exact ⟨fun h _ => h, fun h => h hwritten⟩

/-- Eight bytes of code and data, and eight bytes of uninitialized data. -/
def smallProgram : Executable where
  length := 48
  get := .ofWords fun k => [0xbadfad, 0, 40, 4, 4, 44, 4, 8, 0, 8, 0x11111111, 0x22222222].getD k 0
  length_lt := by decide

def smallHeader : NoffHeader := ⟨⟨0, 40, 4⟩, ⟨4, 44, 4⟩, ⟨8, 0, 8⟩⟩

theorem magic_smallProgram : (smallProgram.header fun _ => 0).word 0 = NOFFMAGIC := by
  decide +kernel

theorem load_smallProgram : NoffHeader.load (smallProgram.header fun _ => 0) = smallHeader := by
  unfold NoffHeader.load smallHeader
  congr 2

theorem proper_smallProgram : Proper smallProgram smallHeader where
  code := ⟨by decide, by decide, by decide⟩
  initData := ⟨by decide, by decide, by decide⟩
  uninitData := ⟨by decide, by decide, by decide⟩
  codeData _ := by decide
  initDataData _ := by decide
  code_initData a h h' := by
    simp [Segment.Covers, smallHeader] at h h'
    omega
  code_uninitData a h h' := by
    simp [Segment.Covers, smallHeader] at h h'
    omega
  initData_uninitData a h h' := by
    simp [Segment.Covers, smallHeader] at h h'
    omega

/-- The program is loaded into an array of zeros. -/
theorem loaded_iff_zeros : Loaded smallProgram (fun _ => 0) (fun _ => 0) smallHeader := by
  refine (loaded_iff magic_smallProgram load_smallProgram proper_smallProgram fun _ => 0).mpr
    fun a _ hlt hwritten => ?_
  have hspace : spaceSize smallHeader = 1152 := by decide
  rw [hspace] at hlt
  have hnot : ¬ smallHeader.code.Covers a ∧ ¬ smallHeader.initData.Covers a :=
    not_or.mp fun h => hwritten ⟨by omega, h⟩
  rw [image, if_neg hnot.1, if_neg hnot.2]

/-- In an array with other bytes, the uninitialized data are not zero. -/
theorem uninitData_not_zero :
    Proper smallProgram smallHeader ∧ smallHeader.uninitData.Covers 8 ∧
      (∃ s, construct smallProgram (fun _ => 0) ⟨fun _ => 7, []⟩ =
        some (.ok (numPages smallHeader), s) ∧ s.disk 8 = 7) ∧
      ¬ Loaded smallProgram (fun _ => 0) (fun _ => 7) smallHeader := by
  have hrun := construct_eq magic_smallProgram load_smallProgram ⟨fun _ => 7, []⟩
  rw [if_pos (by decide), if_pos (by decide)] at hrun
  have hbyte := proper_smallProgram.disk_eq (s := ⟨fun _ => 7, []⟩) (show (0 : Int) ≤ 8 by decide)
  rw [if_neg (by decide)] at hbyte
  refine ⟨proper_smallProgram, by decide, ⟨_, hrun, hbyte⟩, fun hloaded => ?_⟩
  have hzero := (proper_smallProgram.loaded_iff_image hrun).mp hloaded 8 (by decide) (by decide)
  rw [hbyte] at hzero
  exact absurd hzero (by decide)

/-! ## Any file -/

/-- All stores of the constructor are in the array, also when it stops at an `ASSERT`. -/
def StoresInside (e : Executable) (junk : Bytes) (heap : Int → Byte) (noffH : NoffHeader) : Prop :=
  ∀ r s, construct e junk ⟨heap, []⟩ = some (r, s) →
    ∀ index ∈ s.stores, 0 ≤ index ∧ index < spaceSize noffH

/-- The bytes that the loop for the segment copies have indices in the array. -/
def Fits (e : Executable) (noffH : NoffHeader) (g : Segment) : Prop :=
  e.stored g = 0 ∨ 0 ≤ g.virtualAddr.toInt ∧
    g.virtualAddr.toInt + e.stored g ≤ spaceSize noffH ∧ g.virtualAddr.toInt + e.stored g ≤ 2 ^ 31

instance (e : Executable) (noffH : NoffHeader) (g : Segment) : Decidable (Fits e noffH g) :=
  inferInstanceAs (Decidable (_ ∨ _))

theorem stored_le (e : Executable) (g : Segment) : e.stored g < 2 ^ 31 := by
  have hlength := e.length_lt
  unfold Executable.stored
  split <;> omega

/-- The indices of one loop. -/
theorem indices_inside_iff (e : Executable) (noffH : NoffHeader) (g : Segment) :
    (∀ i : Nat, i < e.stored g → 0 ≤ i32 (g.virtualAddr.toInt + i) ∧
      i32 (g.virtualAddr.toInt + i) < spaceSize noffH) ↔ Fits e noffH g := by
  have hrange := inInt_toInt g.virtualAddr
  have hstored := stored_le e g
  unfold Fits
  generalize e.stored g = n at *
  constructor
  · intro hall
    rcases Nat.eq_zero_or_pos n with hzero | hpos
    · exact .inl hzero
    have hfirst := hall 0 hpos
    rw [i32_eq (by omega) (by omega)] at hfirst
    by_cases hlarge : g.virtualAddr.toInt + n ≤ 2 ^ 31
    · have hlast := hall (n - 1) (by omega)
      rw [i32_eq (by omega) (by omega)] at hlast
      omega
    · -- the first index that is too large for an `int`
      have hwrap := hall (2 ^ 31 - g.virtualAddr.toInt).toNat (by omega)
      rw [i32_wrap (by omega) (by omega)] at hwrap
      omega
  · rintro (hzero | ⟨hva, hspace, hint⟩) i hi
    · omega
    · rw [i32_eq (by omega) (by omega)]
      omega

theorem copied_inside_iff {e : Executable} {noffH : NoffHeader} {g : Segment} {s : Loading} :
    (∀ index ∈ (s.copied e g (e.stored g)).stores, 0 ≤ index ∧ index < spaceSize noffH) ↔
      (∀ index ∈ s.stores, 0 ≤ index ∧ index < spaceSize noffH) ∧ Fits e noffH g := by
  rw [Loading.stores_copied, List.forall_mem_append, ← indices_inside_iff]
  simp only [List.forall_mem_map, List.mem_range]

/-- The stores of the constructor are in the array if and only if those of the code are,
and, when the loop for the code comes to its end, those of the initialized data. -/
theorem storesInside_iff {e : Executable} {junk : Bytes} {noffH : NoffHeader}
    (hmagic : (e.header junk).word 0 = NOFFMAGIC)
    (hload : NoffHeader.load (e.header junk) = noffH) (heap : Int → Byte) :
    StoresInside e junk heap noffH ↔
      Fits e noffH noffH.code ∧
        (Executable.Completes noffH.code → Fits e noffH noffH.initData) := by
  have hrun := construct_eq hmagic hload ⟨heap, []⟩
  have hnone : ∀ index ∈ (⟨heap, []⟩ : Loading).stores, 0 ≤ index ∧ index < spaceSize noffH :=
    fun index h => absurd h List.not_mem_nil
  unfold StoresInside
  by_cases hcode : Executable.Completes noffH.code
  · rw [if_pos hcode] at hrun
    simp only [hrun, Option.some.injEq, Prod.mk.injEq, hcode, forall_true_left]
    constructor
    · intro hall
      obtain ⟨hfirst, hdata⟩ := copied_inside_iff.mp (hall _ _ ⟨rfl, rfl⟩)
      exact ⟨(copied_inside_iff.mp hfirst).2, hdata⟩
    · rintro ⟨hfirst, hdata⟩ r s ⟨-, rfl⟩
      exact copied_inside_iff.mpr ⟨copied_inside_iff.mpr ⟨hnone, hfirst⟩, hdata⟩
  · rw [if_neg hcode] at hrun
    simp only [hrun, Option.some.injEq, Prod.mk.injEq, hcode, false_imp_iff, and_true]
    constructor
    · intro hall
      exact (copied_inside_iff.mp (hall _ _ ⟨rfl, rfl⟩)).2
    · rintro hfirst r s ⟨-, rfl⟩
      exact copied_inside_iff.mpr ⟨hnone, hfirst⟩

/-- The stores for the small program. -/
theorem storesInside_iff_small : StoresInside smallProgram (fun _ => 0) (fun _ => 0) smallHeader :=
  (storesInside_iff magic_smallProgram load_smallProgram fun _ => 0).mpr
    ⟨by decide, fun _ => by decide⟩

/-- Four bytes of code at address 4096. -/
def strayProgram : Executable where
  length := 44
  get := .ofWords fun k => [0xbadfad, 4096, 40, 4, 0, 0, 0, 0, 0, 0, 0x11111111].getD k 0
  length_lt := by decide

/-- The array has 1152 bytes, and the code is stored behind it. -/
theorem stores_outside :
    (strayProgram.header fun _ => 0).word 0 = NOFFMAGIC ∧
      spaceSize (NoffHeader.load (strayProgram.header fun _ => 0)) = 1152 ∧
      (construct strayProgram (fun _ => 0) ⟨fun _ => 0, []⟩).map (fun x => x.2.stores) =
        some [4096, 4097, 4098, 4099] ∧
      ¬ StoresInside strayProgram (fun _ => 0) (fun _ => 0)
        (NoffHeader.load (strayProgram.header fun _ => 0)) := by
  have hspace : spaceSize (NoffHeader.load (strayProgram.header fun _ => 0)) = 1152 := by
    decide +kernel
  have hstores : (construct strayProgram (fun _ => 0) ⟨fun _ => 0, []⟩).map
      (fun x => x.2.stores) = some [4096, 4097, 4098, 4099] := by
    decide +kernel
  refine ⟨by decide +kernel, hspace, hstores, fun hinside => ?_⟩
  obtain ⟨x, hrun, hlist⟩ := Option.map_eq_some_iff.mp hstores
  have hbad := hinside x.1 x.2 hrun 4096 (by rw [hlist]; exact List.mem_cons_self)
  rw [hspace] at hbad
  omega

end Nachos.Userprog

import Nachos.Bin.Coff2Noff

/-!
# The program image across the conversion

`Faithful` is what `coff2noff` is for: the sections are in the NOFF file at their
addresses, the uninitialised data are the sections without contents and nothing
else, and a file that three segments cannot represent is refused, and no other.

* `coff2noff_loses_sections` has three files for which this is not kept.  A second
  `.text` replaces the first in the header.  The check of `.bss` and `.sbss` is the
  wrong way round: it refuses what is contiguous and accepts what is not.
* `coff2noff_faithful` says for which files it is kept.  These are the files that are
  refused for another reason, and those for which the check has nothing to do or
  gives the right answer by chance.

Contiguous sections cover an interval (`chain_covers`), and the header describes an
interval of the same length from the first section on (`foldl_grow`).  So it is the
right one if the first section is the lowest one.
-/

namespace Nachos.Bin

open Lib

/-- The addresses of a section. -/
def Scnhdr.Covers (s : Scnhdr) (a : Int) : Prop :=
  s.s_paddr.toInt ≤ a ∧ a < s.s_paddr.toInt + s.s_size.toInt

/-- The addresses of a segment. -/
def Segment.Covers (g : Segment) (a : Int) : Prop :=
  g.virtualAddr.toInt ≤ a ∧ a < g.virtualAddr.toInt + g.size.toInt

/-- The contents of the section are in the segment at their addresses. -/
def Contains (out : CharArray) (g : Segment) (file : CharArray) (s : Scnhdr) : Prop :=
  ∀ k : Nat, k < s.s_size.toInt →
    k < g.size.toInt ∧ g.virtualAddr.toInt + k = s.s_paddr.toInt + k ∧
      g.inFileAddr.toNat + k < out.size ∧
      out.get (g.inFileAddr.toNat + k) = file.get (s.s_scnptr.toNat + k)

/-- One section follows the other without a gap. -/
def Follows (s t : Scnhdr) : Prop := t.s_paddr.toInt = s.s_paddr.toInt + s.s_size.toInt

instance (s t : Scnhdr) : Decidable (Follows s t) := inferInstanceAs (Decidable (_ = _))

/-- Three segments are enough for the sections. -/
structure Representable (l : List Scnhdr) : Prop where
  code : (ofType .code l).length ≤ 1
  initData : (ofType .initData l).length ≤ 1
  uninitData : ∃ l' : List Scnhdr, l'.Perm (ofType .uninitData l) ∧ l'.IsChain Follows
  /-- The size of the segment is an `int`. -/
  size : totalSize .uninitData l < 2 ^ 31

/-- The conversion keeps the program image, and fails for the files that it cannot
convert. -/
structure Faithful (noffH : NoffHeader) (file : CharArray) : Prop where
  code : ∀ out, coff2noff noffH file = some out → ∀ s ∈ ofType .code (sections file),
    Contains out (NoffHeader.load out.get).code file s
  initData : ∀ out, coff2noff noffH file = some out → ∀ s ∈ ofType .initData (sections file),
    Contains out (NoffHeader.load out.get).initData file s
  uninitData : ∀ out, coff2noff noffH file = some out → ∀ a : Int,
    (NoffHeader.load out.get).uninitData.Covers a ↔
      ∃ s ∈ ofType .uninitData (sections file), s.Covers a
  reject : ¬Representable (sections file) → coff2noff noffH file = none
  accept : Representable (sections file) → WellFormed file →
    ∃ out, coff2noff noffH file = some out

/-- No section is below the first one. -/
def LowestFirst (l : List Scnhdr) : Prop :=
  ∀ s ∈ l.head?, ∀ t ∈ l, s.s_paddr.toInt ≤ t.s_paddr.toInt

/-- The check of `.bss` and `.sbss` gives the right answer, in a file that is not
refused for another reason. -/
def CheckRight (file : CharArray) : Prop :=
  WellFormed file → (ofType .initData (sections file)).length ≤ 1 →
    Representable (sections file) ∧ LowestFirst (ofType .uninitData (sections file)) ∧
        adjacent (0, 0) (ofType .uninitData (sections file)) = false ∨
      ¬Representable (sections file) ∧
        adjacent (0, 0) (ofType .uninitData (sections file)) = true

/-! ## The contents -/

theorem Loop.load_output (c : Loop) : NoffHeader.load c.output.get = c.noffH := by
  have hword : ∀ i, i < 10 → c.output.get.word (4 * i) = c.noffH.words.getD i 0 := by
    intro i hi
    rw [← Bytes.word_ofWords (fun i => c.noffH.words.getD i 0) i]
    apply Bytes.word_congr
    intro j hj
    exact if_pos (by unfold sizeofNoffHeader; omega)
  unfold NoffHeader.load
  rw [hword 1 (by decide), hword 2 (by decide), hword 3 (by decide), hword 4 (by decide),
    hword 5 (by decide), hword 6 (by decide), hword 7 (by decide), hword 8 (by decide),
    hword 9 (by decide)]
  rfl

variable {s : Scnhdr}

theorem Placed.contains {file : CharArray} {c : Loop} {g : Segment}
    (h : Placed file c.out g s) : Contains c.output g file s := by
  intro k hk
  obtain ⟨before, bytes, after, hout, hplace, hlength, hbytes⟩ := h.bytes
  have hpos : 0 ≤ s.s_size.toInt := by omega
  have hkn : k < s.s_size.toNat := by
    rw [← toInt_toNat hpos]
    omega
  refine ⟨by rw [h.size]; exact hk, by rw [h.virtualAddr], ?_, ?_⟩
  · show _ < sizeofNoffHeader + c.out.length
    rw [hout, List.length_append, List.length_append]
    omega
  · show (if g.inFileAddr.toNat + k < sizeofNoffHeader then _ else _) = _
    have hindex : g.inFileAddr.toNat + k - sizeofNoffHeader = before.length + k := by omega
    have hbyte : bytes[k]? = some (file.get (s.s_scnptr.toNat + k)) := by
      rw [hbytes, List.getElem?_map, List.getElem?_range hkn]
      rfl
    rw [if_neg (by omega), hindex, hout, List.append_assoc, List.getD_eq_getElem?_getD,
      List.getElem?_append_right (Nat.le_add_right _ _), Nat.add_sub_cancel_left,
      List.getElem?_append_left (by omega), hbyte]
    rfl

variable {l : List Scnhdr}

theorem getLast?_of_mem {t : SegmentType} (hs : s ∈ ofType t l)
    (hone : (ofType t l).length ≤ 1) : (ofType t l).getLast? = some s := by
  match h : ofType t l, hone with
  | [], _ =>
      rw [h] at hs
      cases hs
  | [s'], _ =>
      rw [h] at hs
      rw [List.mem_singleton.mp hs]
      rfl

/-! ## The uninitialised data -/

/-- Sections that follow each other cover an interval. -/
theorem chain_covers (hchain : (s :: l).IsChain Follows)
    (hpos : ∀ t ∈ s :: l, 0 ≤ t.s_size.toInt) (a : Int) :
    (∃ t ∈ s :: l, t.Covers a) ↔
      s.s_paddr.toInt ≤ a ∧ a < s.s_paddr.toInt + total (s :: l) := by
  induction l generalizing s with
  | nil =>
      have hsize : (total [s] : Int) = s.s_size.toInt := by
        have hs := toInt_toNat (hpos s List.mem_cons_self)
        show ((s.s_size.toNat + 0 : Nat) : Int) = _
        have hs0 := hpos s List.mem_cons_self
        omega
      rw [hsize]
      constructor
      · rintro ⟨t, ht, ha⟩
        rw [List.mem_singleton.mp ht] at ha
        exact ha
      · intro ha
        exact ⟨s, List.mem_cons_self, ha⟩
  | cons u l ih =>
      obtain ⟨hfollows, hrest⟩ := List.isChain_cons_cons.mp hchain
      have hrec := ih hrest fun t ht => hpos t (List.mem_cons_of_mem s ht)
      have hs0 := hpos s List.mem_cons_self
      have hsize := toInt_toNat hs0
      have htotal : total (s :: u :: l) = s.s_size.toNat + total (u :: l) := rfl
      rw [htotal]
      unfold Follows at hfollows
      constructor
      · rintro ⟨t, ht, ha⟩
        rcases List.mem_cons.mp ht with rfl | ht
        · unfold Scnhdr.Covers at ha
          omega
        · have hin := hrec.mp ⟨t, ht, ha⟩
          omega
      · intro ha
        by_cases hlow : a < s.s_paddr.toInt + s.s_size.toInt
        · exact ⟨s, List.mem_cons_self, ha.1, hlow⟩
        · obtain ⟨t, ht, hcovers⟩ := hrec.mpr ⟨by omega, by omega⟩
          exact ⟨t, List.mem_cons_of_mem s ht, hcovers⟩

/-- The first of the sections is the lowest one. -/
theorem chain_lowest (hchain : (s :: l).IsChain Follows) (hpos : ∀ t ∈ s :: l, 0 ≤ t.s_size.toInt) :
    ∀ t ∈ s :: l, s.s_paddr.toInt ≤ t.s_paddr.toInt := by
  induction l generalizing s with
  | nil =>
      intro t ht
      rw [List.mem_singleton.mp ht]
  | cons u l ih =>
      obtain ⟨hfollows, hrest⟩ := List.isChain_cons_cons.mp hchain
      have hs0 := hpos s List.mem_cons_self
      unfold Follows at hfollows
      intro t ht
      rcases List.mem_cons.mp ht with rfl | ht
      · exact le_rfl
      · have hu := ih hrest (fun t ht => hpos t (List.mem_cons_of_mem s ht)) t ht
        omega

/-- Uninitialised data that has a size grows by the sizes of the sections. -/
theorem foldl_grow {g : Long × Long} (hg : 0 < g.2.toNat) (htotal : g.2.toNat + total l < 2 ^ 31) :
    (l.foldl grow g).1 = g.1 ∧ (l.foldl grow g).2.toNat = g.2.toNat + total l := by
  induction l generalizing g with
  | nil => exact ⟨rfl, rfl⟩
  | cons s l ih =>
      have hsum : total (s :: l) = s.s_size.toNat + total l := rfl
      have hne : g.2 ≠ 0 := by
        intro h0
        rw [h0] at hg
        exact absurd hg (by decide)
      have hgrow : grow g s = (g.1, g.2 + s.s_size) := if_neg hne
      have hnat : (g.2 + s.s_size).toNat = g.2.toNat + s.s_size.toNat := by
        rw [BitVec.toNat_add]
        omega
      rw [List.foldl_cons, hgrow]
      have hnext := ih (g := (g.1, g.2 + s.s_size)) (by rw [hnat]; omega) (by rw [hnat]; omega)
      rw [hnat] at hnext
      exact ⟨hnext.1, by omega⟩

theorem pos_of_mem_ofType {file : CharArray} {t : SegmentType} (hcoff : Coff file)
    (hs : s ∈ ofType t (sections file)) : 0 ≤ s.s_size.toInt ∧ 0 < s.s_size.toNat := by
  obtain ⟨hmem, hne, _⟩ := mem_ofType.mp hs
  refine ⟨(hcoff s hmem).1, Nat.pos_of_ne_zero fun h0 => hne ?_⟩
  exact BitVec.eq_of_toNat_eq h0

theorem toInt_of_lt {x : Long} {n : Nat} (h : x.toNat = n) (hn : n < 2 ^ 31) : x.toInt = n := by
  rw [BitVec.toInt_eq_toNat_cond, if_pos (by omega), h]

variable {file : CharArray}

/-- The range in the header, when it fits an `int`: it starts at the first
section. -/
theorem Loaded.range {c : Loop} {b : Scnhdr} {l : List Scnhdr} (h : Loaded file c (sections file))
    (hcoff : Coff file) (hb : ofType .uninitData (sections file) = b :: l)
    (hsize : totalSize .uninitData (sections file) < 2 ^ 31) (a : Int) :
    c.noffH.uninitData.Covers a ↔
      b.s_paddr.toInt ≤ a ∧ a < b.s_paddr.toInt + total (b :: l) := by
  have hmem : b ∈ ofType .uninitData (sections file) := by
    rw [hb]
    exact List.mem_cons_self
  have hpos := (pos_of_mem_ofType hcoff hmem).2
  have htotal : b.s_size.toNat + total l < 2 ^ 31 := by
    unfold totalSize at hsize
    rw [hb] at hsize
    exact hsize
  have hstart : (b :: l).foldl grow (0, 0) = l.foldl grow (b.s_paddr, b.s_size) := rfl
  obtain ⟨haddr, hsum⟩ := foldl_grow (g := (b.s_paddr, b.s_size)) hpos htotal
  have hvirtual : c.noffH.uninitData.virtualAddr = b.s_paddr := by
    rw [h.virtualAddr (by rw [hb]; exact List.cons_ne_nil b l), hb, hstart, haddr]
  have hlength : c.noffH.uninitData.size.toInt = total (b :: l) := by
    rw [h.size, hb, hstart]
    exact toInt_of_lt hsum htotal
  unfold Segment.Covers
  rw [hvirtual, hlength]

/-- The range in the header is right if the first section is the lowest one. -/
theorem Loaded.covers_iff {c : Loop} (h : Loaded file c (sections file))
    (hcoff : Coff file) (hrep : Representable (sections file)) :
    (∀ a, c.noffH.uninitData.Covers a ↔
        ∃ s ∈ ofType .uninitData (sections file), s.Covers a) ↔
      LowestFirst (ofType .uninitData (sections file)) := by
  obtain ⟨l', hperm, hchain⟩ := hrep.uninitData
  cases hb : ofType .uninitData (sections file) with
  | nil =>
      constructor
      · intro _ s hs
        cases hs
      · intro _ a
        unfold Segment.Covers
        rw [h.size, hb]
        constructor
        · intro ha
          have hzero : ([].foldl grow (0, 0) : Long × Long).2.toInt = 0 := rfl
          omega
        · rintro ⟨s, hs, _⟩
          cases hs
  | cons b l =>
      have hrange := h.range hcoff hb hrep.size
      rw [hb] at hperm
      cases l' with
      | nil => exact absurd hperm.length_eq (by simp)
      | cons f l' =>
          have hpos : ∀ t ∈ f :: l', 0 ≤ t.s_size.toInt := by
            intro t ht
            refine (pos_of_mem_ofType (t := .uninitData) hcoff ?_).1
            rw [hb]
            exact hperm.mem_iff.mp ht
          have htotal : total (f :: l') = total (b :: l) := by
            unfold total
            exact (hperm.map _).sum_nat
          have hbpos : 0 < total (b :: l) := by
            have hmem : b ∈ ofType .uninitData (sections file) := by
              rw [hb]
              exact List.mem_cons_self
            have := (pos_of_mem_ofType hcoff hmem).2
            show 0 < b.s_size.toNat + total l
            omega
          have hunion : ∀ a, (∃ s ∈ b :: l, s.Covers a) ↔
              f.s_paddr.toInt ≤ a ∧ a < f.s_paddr.toInt + total (b :: l) := by
            intro a
            rw [← htotal, ← chain_covers hchain hpos a]
            constructor
            · rintro ⟨s, hs, ha⟩
              exact ⟨s, hperm.mem_iff.mpr hs, ha⟩
            · rintro ⟨s, hs, ha⟩
              exact ⟨s, hperm.mem_iff.mp hs, ha⟩
          have hlow := chain_lowest hchain hpos
          constructor
          · intro heq s hs t ht
            obtain rfl := Option.some.inj hs
            have hbound := (hrange f.s_paddr.toInt).mp
              ((heq f.s_paddr.toInt).mpr ((hunion _).mpr ⟨le_rfl, by omega⟩))
            have := hlow t (hperm.mem_iff.mpr ht)
            omega
          · intro hfirst a
            have hbf : b.s_paddr.toInt = f.s_paddr.toInt := by
              have h1 := hfirst b rfl f (hperm.mem_iff.mp List.mem_cons_self)
              have h2 := hlow b (hperm.mem_iff.mpr List.mem_cons_self)
              omega
            rw [hrange, hunion, hbf]

/-! ## When the image is kept -/

/-- The conversion keeps the image of a file if and only if the check of `.bss` and
`.sbss` gives the right answer, or the file is refused for another reason. -/
theorem coff2noff_faithful (noffH : NoffHeader) (file : CharArray) (hcoff : Coff file) :
    Faithful noffH file ↔ CheckRight file := by
  have haccept := accepts_iff noffH hcoff
  constructor
  · intro h hw hdata
    by_cases hrep : Representable (sections file)
    · left
      obtain ⟨out, hout⟩ := h.accept hrep hw
      obtain ⟨_, c, hc, rfl⟩ := loaded_of_accepted hcoff hout
      refine ⟨hrep, ?_, hc.apart⟩
      rw [← hc.covers_iff hcoff hrep]
      have hrange := h.uninitData _ hout
      rw [c.load_output] at hrange
      exact hrange
    · right
      refine ⟨hrep, ?_⟩
      by_contra hapart
      obtain ⟨out, hout⟩ := haccept.mpr ⟨hw, hdata, eq_false_of_ne_true hapart⟩
      rw [h.reject hrep] at hout
      cases hout
  · intro h
    have hgood : ∀ out, coff2noff noffH file = some out →
        Representable (sections file) ∧ LowestFirst (ofType .uninitData (sections file)) := by
      intro out hout
      obtain ⟨hw, hdata, hapart⟩ := haccept.mp ⟨out, hout⟩
      rcases h hw hdata with ⟨hrep, hfirst, _⟩ | ⟨_, htouch⟩
      · exact ⟨hrep, hfirst⟩
      · rw [hapart] at htouch
        cases htouch
    constructor
    · intro out hout s hs
      obtain ⟨hrep, _⟩ := hgood out hout
      obtain ⟨_, c, hc, rfl⟩ := loaded_of_accepted hcoff hout
      rw [c.load_output]
      exact (hc.copied .code (by decide) s (getLast?_of_mem hs hrep.code)).contains
    · intro out hout s hs
      obtain ⟨hrep, _⟩ := hgood out hout
      obtain ⟨_, c, hc, rfl⟩ := loaded_of_accepted hcoff hout
      rw [c.load_output]
      exact (hc.copied .initData (by decide) s (getLast?_of_mem hs hrep.initData)).contains
    · intro out hout
      obtain ⟨hrep, hfirst⟩ := hgood out hout
      obtain ⟨_, c, hc, rfl⟩ := loaded_of_accepted hcoff hout
      rw [c.load_output]
      exact (hc.covers_iff hcoff hrep).mpr hfirst
    · intro hrep
      cases hout : coff2noff noffH file with
      | none => rfl
      | some out => exact absurd (hgood out hout).1 hrep
    · intro hrep hw
      rcases h hw hrep.initData with ⟨_, _, hapart⟩ | ⟨hnot, _⟩
      · exact haccept.mpr ⟨hw, hrep.initData, hapart⟩
      · exact absurd hrep hnot

/-- The check has nothing to do in a file with at most one `.text` and at most one
`.bss` or `.sbss`. -/
theorem checkRight_of_one (hcoff : Coff file) (hcode : (ofType .code (sections file)).length ≤ 1)
    (hbss : (ofType .uninitData (sections file)).length ≤ 1) : CheckRight file := by
  intro _ hdata
  left
  cases hb : ofType .uninitData (sections file) with
  | nil =>
      refine ⟨⟨hcode, hdata, ⟨[], by rw [hb], .nil⟩, ?_⟩, fun s hs => ?_, rfl⟩
      · unfold totalSize
        rw [hb]
        decide
      · cases hs
  | cons b l =>
      obtain rfl : l = [] := by
        rw [hb, List.length_cons] at hbss
        exact List.eq_nil_of_length_eq_zero (by omega)
      refine ⟨⟨hcode, hdata, ⟨[b], by rw [hb], .singleton b⟩, ?_⟩, fun s hs t ht => ?_, rfl⟩
      · have hmem : b ∈ ofType .uninitData (sections file) := by
          rw [hb]
          exact List.mem_cons_self
        have hpos := pos_of_mem_ofType hcoff hmem
        have hlt : b.s_size.toInt < 2 ^ 31 := BitVec.toInt_lt
        have hnat := toInt_toNat hpos.1
        unfold totalSize
        rw [hb]
        show b.s_size.toNat + 0 < 2 ^ 31
        omega
      · obtain rfl := Option.some.inj hs
        rw [List.mem_singleton.mp ht]

/-! ## Some files -/

/-- The bytes of a field. -/
def field (width value : Nat) : List Byte :=
  (List.range width).map fun k => BitVec.ofNat 8 (value / 256 ^ k)

/-- A `struct scnhdr`. -/
def scnhdr (name : List Char) (paddr size scnptr : Nat) : List Byte :=
  name.map (fun c => BitVec.ofNat 8 c.toNat) ++ List.replicate (8 - name.length) 0 ++
    field 4 paddr ++ field 4 paddr ++ field 4 size ++ field 4 scnptr ++ List.replicate 16 0

/-- A file with these section headers, and `contents` behind them. -/
def coffFile (headers : List (List Byte)) (contents : List Byte) : CharArray :=
  .ofList (field 2 MIPSELMAGIC ++ field 2 headers.length ++ List.replicate 16 0 ++
    field 2 OMAGIC ++ List.replicate 54 0 ++ headers.flatten ++ contents)

/-- What the stack may hold. -/
def garbage : NoffHeader := ⟨⟨7, 7, 7⟩, ⟨7, 7, 7⟩, ⟨7, 7, 7⟩⟩

/-- A file with one section for each segment. -/
def threeSections : CharArray :=
  coffFile [scnhdr ['.', 't', 'e', 'x', 't'] 0 2 196, scnhdr ['.', 'd', 'a', 't', 'a'] 128 1 198,
    scnhdr ['.', 'b', 's', 's'] 256 64 0] [11, 12, 13]

/-- The file is converted, and its image is kept. -/
theorem coff2noff_faithful_three : (coff2noff garbage threeSections).isSome = true ∧
    Faithful garbage threeSections := by
  have hcoff : Coff threeSections := by decide +kernel
  have hright := checkRight_of_one hcoff (by decide +kernel) (by decide +kernel)
  exact ⟨by decide +kernel, (coff2noff_faithful garbage threeSections hcoff).mpr hright⟩

/-- Two `.text` sections of one byte, at `0` and at `4`. -/
def twoText : CharArray :=
  coffFile [scnhdr ['.', 't', 'e', 'x', 't'] 0 1 156, scnhdr ['.', 't', 'e', 'x', 't'] 4 1 157]
    [11, 12]

/-- A `.bss` at `0`, and a `.sbss` of the same size at `paddr`. -/
def bssAndSbss (paddr : Nat) : CharArray :=
  coffFile [scnhdr ['.', 'b', 's', 's'] 0 4 0, scnhdr ['.', 's', 'b', 's', 's'] paddr 4 0] []

/-- The first `.text` is not at its address.  A `.sbss` behind a gap is accepted and
left out, and a `.sbss` right behind the `.bss` is refused. -/
theorem coff2noff_loses_sections : ¬Faithful garbage twoText ∧
    ¬Faithful garbage (bssAndSbss 100) ∧ ¬Faithful garbage (bssAndSbss 4) := by
  refine ⟨fun h => ?_, fun h => ?_, fun h => ?_⟩
  · have haddr : (coff2noff garbage twoText).map
        (fun out => (NoffHeader.load out.get).code.virtualAddr) = some 4 := by decide +kernel
    obtain ⟨out, hout, hcode⟩ := Option.map_eq_some_iff.mp haddr
    have hmem : Scnhdr.load twoText.get 76 ∈ ofType .code (sections twoText) := by decide +kernel
    obtain ⟨_, hplace, _⟩ := h.code out hout _ hmem 0 (by decide +kernel)
    rw [hcode] at hplace
    exact absurd hplace (by decide +kernel)
  · have hrange : (coff2noff garbage (bssAndSbss 100)).map (fun out =>
        ((NoffHeader.load out.get).uninitData.virtualAddr,
          (NoffHeader.load out.get).uninitData.size)) = some (0, 8) := by decide +kernel
    obtain ⟨out, hout, hpair⟩ := Option.map_eq_some_iff.mp hrange
    obtain ⟨haddr, hsize⟩ := Prod.mk.inj hpair
    have hmem : Scnhdr.load (bssAndSbss 100).get 116 ∈
        ofType .uninitData (sections (bssAndSbss 100)) := by decide +kernel
    have hcovers := (h.uninitData out hout 100).mpr ⟨_, hmem, by decide +kernel, by decide +kernel⟩
    unfold Segment.Covers at hcovers
    rw [haddr, hsize] at hcovers
    exact absurd hcovers (by decide +kernel)
  · have hnone : (coff2noff garbage (bssAndSbss 4)).isNone = true := by decide +kernel
    have hrep : Representable (sections (bssAndSbss 4)) :=
      ⟨by decide +kernel, by decide +kernel, ⟨_, List.Perm.refl _, by decide +kernel⟩,
        by decide +kernel⟩
    have hw : WellFormed (bssAndSbss 4) := by
      refine ⟨by decide +kernel, by decide +kernel, fun t ht => ?_, by decide +kernel⟩
      cases t with
      | code => decide +kernel
      | initData => decide +kernel
      | uninitData => exact absurd rfl ht
    obtain ⟨out, hout⟩ := h.accept hrep hw
    rw [hout] at hnone
    cases hnone

end Nachos.Bin

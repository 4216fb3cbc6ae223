import Nachos.Lib.Bytes
import Nachos.Lib.Run

/-!
# `bin/coff2noff.c`

The converter reads a COFF file and writes a NOFF file with three segments.  It
goes once through the section headers, copies the sections that have contents
behind the place of the NOFF header, and fills in the header.

`long` and `int` have 32 bits, and the host is little-endian, so `WordToHost` and
`ShortToHost` change nothing.  A system call that fails returns `-1`.  `Read`
compares this with the number of bytes it was asked for, so a section of size `-1`
passes: no byte is copied, and `inNoffFile` goes one back.

`Loaded` is the invariant of the loop: what the header and the NOFF file have after
a part of the sections.  `accepts_iff` says which files are converted.
-/

namespace Nachos.Bin

open Lib

/-- `long`, and `int`. -/
abbrev Long := BitVec 32

/-! ## The two formats -/

/-- The fields of `struct scnhdr` that are used. -/
structure Scnhdr where
  s_name : List Byte
  s_paddr : Long
  s_size : Long
  s_scnptr : Long
  deriving DecidableEq

/-- The three segments of a NOFF file. -/
inductive SegmentType where
  | code
  | initData
  | uninitData
  deriving DecidableEq

structure Segment where
  virtualAddr : Long
  inFileAddr : Long
  size : Long

/-- `NoffHeader` without its `noffMagic`. -/
structure NoffHeader where
  code : Segment
  initData : Segment
  uninitData : Segment

def NOFFMAGIC : Long := 0xbadfad

def MIPSELMAGIC : Nat := 0x0162

/-- The octal number `0407`. -/
def OMAGIC : Nat := 263

/-- `sizeof(struct filehdr)`. -/
def sizeofFilehdr : Nat := 20

/-- `sizeof(struct aouthdr)`. -/
def sizeofAouthdr : Nat := 56

/-- `sizeof(struct scnhdr)`. -/
def sizeofScnhdr : Nat := 40

/-- `sizeof(NoffHeader)`. -/
def sizeofNoffHeader : Nat := 40

namespace Scnhdr

/-- The section header at `a`. -/
def load (file : Bytes) (a : Nat) : Scnhdr where
  s_name := (List.range 8).map fun k => file (a + k)
  s_paddr := file.word (a + 8)
  s_size := file.word (a + 16)
  s_scnptr := file.word (a + 20)

/-- `!strcmp(s_name, name)`.  Each `name` that occurs is shorter than `s_name`. -/
def isNamed (s : Scnhdr) (name : List Char) : Bool :=
  s.s_name.take (name.length + 1) == name.map (fun c => BitVec.ofNat 8 c.toNat) ++ [0]

/-- The chain of tests for the name.  `none` is an unknown segment type. -/
def segment (s : Scnhdr) : Option SegmentType :=
  if s.isNamed ['.', 't', 'e', 'x', 't'] then some .code
  else if s.isNamed ['.', 'd', 'a', 't', 'a'] || s.isNamed ['.', 'r', 'd', 'a', 't', 'a'] then
    some .initData
  else if s.isNamed ['.', 'b', 's', 's'] || s.isNamed ['.', 's', 'b', 's', 's'] then
    some .uninitData
  else none

end Scnhdr

namespace NoffHeader

/-- The words of the header. -/
def words (h : NoffHeader) : List Long :=
  [NOFFMAGIC, h.code.virtualAddr, h.code.inFileAddr, h.code.size,
    h.initData.virtualAddr, h.initData.inFileAddr, h.initData.size,
    h.uninitData.virtualAddr, h.uninitData.inFileAddr, h.uninitData.size]

def get (h : NoffHeader) : SegmentType → Segment
  | .code => h.code
  | .initData => h.initData
  | .uninitData => h.uninitData

/-- The header at the start of a NOFF file. -/
def load (file : Bytes) : NoffHeader where
  code := ⟨file.word 4, file.word 8, file.word 12⟩
  initData := ⟨file.word 16, file.word 20, file.word 24⟩
  uninitData := ⟨file.word 28, file.word 32, file.word 36⟩

end NoffHeader

/-! ## The conversion -/

/-- `Read(fdIn, buffer, nBytes)` at `pos`: the contents of the buffer, and the
position after it.  `none` is `exit(1)`. -/
def read (file : CharArray) (pos : Nat) (nBytes : Int) : Option (List Byte × Nat) :=
  if 0 ≤ nBytes then
    if pos + nBytes.toNat ≤ file.size then
      some ((List.range nBytes.toNat).map fun k => file.get (pos + k), pos + nBytes.toNat)
    else none
  else if nBytes = -1 then some ([], pos)
  else none

/-- `Write(fdOut, buffer, nBytes)` at the end of `out`, which are the bytes behind
the header.  A file has less than `2 ^ 31` bytes. -/
def write (out buffer : List Byte) : Option (List Byte) :=
  if sizeofNoffHeader + out.length + buffer.length < 2 ^ 31 then some (out ++ buffer) else none

/-- The variables of the loop over the sections. -/
structure Loop where
  /-- The position of `fdIn`. -/
  pos : Nat
  noffH : NoffHeader
  inNoffFile : Long
  /-- What has been written behind the header. -/
  out : List Byte

/-- The copy of one section.  `lseek` to a negative offset fails and leaves the
position as it is. -/
def copySection (file : CharArray) (c : Loop) (s : Scnhdr) : Option Loop :=
  let pos := if 0 ≤ s.s_scnptr.toInt then s.s_scnptr.toNat else c.pos
  (read file pos s.s_size.toInt).bind fun r =>
    (write c.out r.1).map fun out =>
      { c with pos := r.2, out := out, inNoffFile := c.inNoffFile + s.s_size }

/-- One round of the loop.  `none` is `exit(1)`. -/
def loadSection (file : CharArray) (c : Loop) (s : Scnhdr) : Option Loop :=
  if s.s_size = 0 then some c
  else
    match s.segment with
    | some .code =>
        copySection file { c with noffH.code := ⟨s.s_paddr, c.inNoffFile, s.s_size⟩ } s
    | some .initData =>
        if c.noffH.initData.size ≠ 0 then none
        else
          copySection file { c with noffH.initData := ⟨s.s_paddr, c.inNoffFile, s.s_size⟩ } s
    | some .uninitData =>
        if c.noffH.uninitData.size ≠ 0 then
          if s.s_paddr = c.noffH.uninitData.virtualAddr + c.noffH.uninitData.size then none
          else
            some { c with noffH.uninitData.size := c.noffH.uninitData.size + s.s_size }
        else
          some { c with
            noffH.uninitData :=
              { c.noffH.uninitData with virtualAddr := s.s_paddr, size := s.s_size } }
    | none => none

/-- `numsections`. -/
def numsections (file : CharArray) : Nat := file.get.load 2 2

/-- The section headers. -/
def sections (file : CharArray) : List Scnhdr :=
  (List.range (numsections file)).map fun i =>
    .load file.get (sizeofFilehdr + sizeofAouthdr + sizeofScnhdr * i)

/-- The file is long enough for its headers, and has the right magic numbers. -/
def HeadersOk (file : CharArray) : Prop :=
  sizeofFilehdr + sizeofAouthdr + sizeofScnhdr * numsections file ≤ file.size ∧
    file.get.load 0 2 = MIPSELMAGIC ∧ file.get.load sizeofFilehdr 2 = OMAGIC

instance (file : CharArray) : Decidable (HeadersOk file) :=
  inferInstanceAs (Decidable (_ ∧ _ ∧ _))

/-- The variables before the loop.  Only the sizes of `noffH` are set. -/
def Loop.init (file : CharArray) (noffH : NoffHeader) : Loop where
  pos := sizeofFilehdr + sizeofAouthdr + sizeofScnhdr * numsections file
  noffH :=
    { code := { noffH.code with size := 0 }
      initData := { noffH.initData with size := 0 }
      uninitData := { noffH.uninitData with size := 0 } }
  inNoffFile := BitVec.ofNat 32 sizeofNoffHeader
  out := []

/-- The NOFF file at the end. -/
def Loop.output (c : Loop) : CharArray where
  size := sizeofNoffHeader + c.out.length
  get a :=
    if a < sizeofNoffHeader then Bytes.ofWords (fun i => c.noffH.words.getD i 0) a
    else c.out.getD (a - sizeofNoffHeader) 0

/-- `main`.  `noffH` is the uninitialised variable, and `none` is `exit(1)`. -/
def coff2noff (noffH : NoffHeader) (file : CharArray) : Option CharArray :=
  if HeadersOk file then
    (run (loadSection file) (.init file noffH) (sections file)).map Loop.output
  else none

/-! ## What the conversion is for -/

/-- The sections of one type that are not empty. -/
def ofType (t : SegmentType) (l : List Scnhdr) : List Scnhdr :=
  l.filter fun s => decide (s.s_size ≠ 0 ∧ s.segment = some t)

/-- The number of bytes in the sections. -/
def total (l : List Scnhdr) : Nat := (l.map fun s => s.s_size.toNat).sum

/-- The number of bytes in the sections of one type. -/
def totalSize (t : SegmentType) (l : List Scnhdr) : Nat := total (ofType t l)

/-- The next section after uninitialised data at `g.1` of size `g.2`. -/
def grow (g : Long × Long) (s : Scnhdr) : Long × Long :=
  if g.2 = 0 then (s.s_paddr, s.s_size) else (g.1, g.2 + s.s_size)

/-- The section starts where the uninitialised data ends. -/
def touches (g : Long × Long) (s : Scnhdr) : Bool := g.2 != 0 && s.s_paddr == g.1 + g.2

/-- One of the sections starts where the uninitialised data before it ends. -/
def adjacent : Long × Long → List Scnhdr → Bool
  | _, [] => false
  | g, s :: l => touches g s || adjacent (grow g s) l

/-- The sizes and the file pointers of the section headers are not negative. -/
def Coff (file : CharArray) : Prop :=
  ∀ s ∈ sections file, 0 ≤ s.s_size.toInt ∧ 0 ≤ s.s_scnptr.toInt

instance (file : CharArray) : Decidable (Coff file) :=
  inferInstanceAs (Decidable (∀ _ ∈ _, _))

/-- The sections are what they should be in a COFF file, and the NOFF file does not
get too long. -/
structure WellFormed (file : CharArray) : Prop where
  headers : HeadersOk file
  known : ∀ s ∈ sections file, s.s_size ≠ 0 → s.segment ≠ none
  contents : ∀ t, t ≠ .uninitData → ∀ s ∈ ofType t (sections file),
    s.s_scnptr.toNat + s.s_size.toNat ≤ file.size
  size : sizeofNoffHeader + (totalSize .code (sections file) +
    totalSize .initData (sections file)) < 2 ^ 31

/-! ## One section -/

theorem adjacent_snoc (g : Long × Long) (l : List Scnhdr) (s : Scnhdr) :
    adjacent g (l ++ [s]) = (adjacent g l || touches (l.foldl grow g) s) := by
  induction l generalizing g with
  | nil => exact Bool.or_false _
  | cons t l ih =>
      show (touches g t || adjacent (grow g t) (l ++ [s])) = _
      rw [ih, ← Bool.or_assoc]
      rfl

theorem adjacent_append {g : Long × Long} {l : List Scnhdr} (l' : List Scnhdr)
    (h : adjacent g (l ++ l') = false) : adjacent g l = false := by
  induction l generalizing g with
  | nil => rfl
  | cons t l ih =>
      obtain ⟨hfirst, hrest⟩ := Bool.or_eq_false_iff.mp h
      exact Bool.or_eq_false_iff.mpr ⟨hfirst, ih hrest⟩

section OfType

variable {t : SegmentType} {l : List Scnhdr} {s : Scnhdr}

theorem mem_ofType : s ∈ ofType t l ↔ s ∈ l ∧ s.s_size ≠ 0 ∧ s.segment = some t := by
  rw [ofType, List.mem_filter, decide_eq_true_eq]

theorem ofType_snoc_self (hsize : s.s_size ≠ 0) (ht : s.segment = some t) :
    ofType t (l ++ [s]) = ofType t l ++ [s] := by
  rw [ofType, List.filter_append, List.filter_singleton, decide_eq_true ⟨hsize, ht⟩]
  rfl

theorem ofType_snoc_other (h : s.s_size ≠ 0 → s.segment ≠ some t) :
    ofType t (l ++ [s]) = ofType t l := by
  have hnot : ¬(s.s_size ≠ 0 ∧ s.segment = some t) := fun hs => h hs.1 hs.2
  rw [ofType, List.filter_append, List.filter_singleton, decide_eq_false hnot]
  exact List.append_nil _

theorem totalSize_snoc_self (hsize : s.s_size ≠ 0) (ht : s.segment = some t) :
    totalSize t (l ++ [s]) = totalSize t l + s.s_size.toNat := by
  unfold totalSize total
  rw [ofType_snoc_self hsize ht, List.map_append, List.sum_append]
  rfl

theorem totalSize_snoc_other (h : s.s_size ≠ 0 → s.segment ≠ some t) :
    totalSize t (l ++ [s]) = totalSize t l := by
  unfold totalSize
  rw [ofType_snoc_other h]

theorem totalSize_append_le (l' : List Scnhdr) : totalSize t l ≤ totalSize t (l ++ l') := by
  unfold totalSize total ofType
  rw [List.filter_append, List.map_append, List.sum_append]
  exact Nat.le_add_right _ _

end OfType

/-- The section has been copied to the place that the segment names. -/
structure Placed (file : CharArray) (out : List Byte) (g : Segment) (s : Scnhdr) : Prop where
  virtualAddr : g.virtualAddr = s.s_paddr
  size : g.size = s.s_size
  bytes : ∃ before bytes after, out = before ++ bytes ++ after ∧
    sizeofNoffHeader + before.length = g.inFileAddr.toNat ∧ bytes.length = s.s_size.toNat ∧
    bytes = (List.range s.s_size.toNat).map fun k => file.get (s.s_scnptr.toNat + k)

theorem Placed.append {file : CharArray} {out : List Byte} {g : Segment} {s : Scnhdr}
    (h : Placed file out g s) (more : List Byte) : Placed file (out ++ more) g s := by
  obtain ⟨before, bytes, after, hout, hplace⟩ := h.bytes
  refine ⟨h.virtualAddr, h.size, before, bytes, after ++ more, ?_, hplace⟩
  rw [hout, List.append_assoc]

section Step

variable {file : CharArray} {c c' : Loop} {s : Scnhdr}

theorem toInt_toNat {x : Long} (h : 0 ≤ x.toInt) : x.toInt.toNat = x.toNat := by
  have hlt := x.isLt
  rw [BitVec.toInt_eq_toNat_cond] at h ⊢
  split at h
  · rename_i hpos
    rw [if_pos hpos, Int.toNat_natCast]
  · omega

theorem read_eq_some {pos : Nat} {n : Int} {r : List Byte × Nat} (h : read file pos n = some r)
    (hn : 0 ≤ n) :
    pos + n.toNat ≤ file.size ∧ r.1 = (List.range n.toNat).map fun k => file.get (pos + k) := by
  unfold read at h
  rw [if_pos hn] at h
  split at h
  · rename_i hfile
    cases h
    exact ⟨hfile, rfl⟩
  · cases h

/-- What the copy of a section adds to the NOFF file. -/
theorem copySection_spec (h : copySection file c s = some c')
    (hcoff : 0 ≤ s.s_size.toInt ∧ 0 ≤ s.s_scnptr.toInt) :
    ∃ bytes, c'.out = c.out ++ bytes ∧ bytes.length = s.s_size.toNat ∧
      sizeofNoffHeader + c.out.length + bytes.length < 2 ^ 31 ∧
      s.s_scnptr.toNat + s.s_size.toNat ≤ file.size ∧
      c'.noffH = c.noffH ∧ c'.inNoffFile = c.inNoffFile + s.s_size ∧
      bytes = (List.range s.s_size.toNat).map fun k => file.get (s.s_scnptr.toNat + k) := by
  obtain ⟨r, hread, hr⟩ := Option.bind_eq_some_iff.mp h
  obtain ⟨out, hwrite, rfl⟩ := Option.map_eq_some_iff.mp hr
  rw [if_pos hcoff.2] at hread
  obtain ⟨hfile, hbytes⟩ := read_eq_some hread hcoff.1
  rw [toInt_toNat hcoff.1] at hfile hbytes
  unfold write at hwrite
  split at hwrite
  · rename_i hlt
    cases hwrite
    refine ⟨r.1, rfl, ?_, hlt, hfile, rfl, rfl, hbytes⟩
    rw [hbytes, List.length_map, List.length_range]
  · cases hwrite

/-- The copy succeeds if the section is in the file and the NOFF file has room. -/
theorem copySection_isSome (hsize : 0 ≤ s.s_size.toInt) (hptr : 0 ≤ s.s_scnptr.toInt)
    (hfile : s.s_scnptr.toNat + s.s_size.toNat ≤ file.size)
    (hroom : sizeofNoffHeader + c.out.length + s.s_size.toNat < 2 ^ 31) :
    ∃ c', copySection file c s = some c' := by
  have hread : read file s.s_scnptr.toNat s.s_size.toInt =
      some ((List.range s.s_size.toNat).map fun k => file.get (s.s_scnptr.toNat + k),
        s.s_scnptr.toNat + s.s_size.toNat) := by
    unfold read
    rw [if_pos hsize, toInt_toNat hsize, if_pos hfile]
  unfold copySection
  rw [if_pos hptr]
  show ∃ c', (read file s.s_scnptr.toNat s.s_size.toInt).bind _ = some c'
  rw [hread, Option.bind_some]
  unfold write
  rw [List.length_map, List.length_range, if_pos hroom]
  exact ⟨_, rfl⟩

end Step

/-! ## The loop -/

/-- The variables after the sections `seen`. -/
structure Loaded (file : CharArray) (c : Loop) (seen : List Scnhdr) : Prop where
  place : c.inNoffFile.toNat = sizeofNoffHeader + c.out.length
  room : sizeofNoffHeader + c.out.length < 2 ^ 31
  length : c.out.length = totalSize .code seen + totalSize .initData seen
  known : ∀ s ∈ seen, s.s_size ≠ 0 → s.segment ≠ none
  contents : ∀ t, t ≠ .uninitData → ∀ s ∈ ofType t seen,
    s.s_scnptr.toNat + s.s_size.toNat ≤ file.size
  /-- The header has the last section of each type that is copied. -/
  copied : ∀ t, t ≠ .uninitData → ∀ s, (ofType t seen).getLast? = some s →
    Placed file c.out (c.noffH.get t) s
  initData : ofType .initData seen = [] ∧ c.noffH.initData.size = 0 ∨
    ∃ s, ofType .initData seen = [s]
  size : c.noffH.uninitData.size = ((ofType .uninitData seen).foldl grow (0, 0)).2
  virtualAddr : ofType .uninitData seen ≠ [] →
    c.noffH.uninitData.virtualAddr = ((ofType .uninitData seen).foldl grow (0, 0)).1
  apart : adjacent (0, 0) (ofType .uninitData seen) = false

namespace Loaded

variable {file : CharArray} {c c' : Loop} {seen : List Scnhdr} {s : Scnhdr}

theorem init (noffH : NoffHeader) : Loaded file (.init file noffH) [] where
  place := rfl
  room := by
    show sizeofNoffHeader + 0 < 2 ^ 31
    decide
  length := rfl
  known s hs := by cases hs
  contents t _ s hs := by cases hs
  copied t _ s hs := by cases hs
  initData := Or.inl ⟨rfl, rfl⟩
  size := rfl
  virtualAddr h := absurd rfl h
  apart := rfl

theorem known_snoc (h : Loaded file c seen) (hs : s.s_size ≠ 0 → s.segment ≠ none) :
    ∀ s' ∈ seen ++ [s], s'.s_size ≠ 0 → s'.segment ≠ none := by
  intro s' hs'
  rcases List.mem_append.mp hs' with hold | hnew
  · exact h.known s' hold
  · rw [List.mem_singleton.mp hnew]
    exact hs

/-- An empty section is passed over. -/
theorem empty (h : Loaded file c seen) (hsize : s.s_size = 0) : Loaded file c (seen ++ [s]) := by
  have hother : ∀ t, ofType t (seen ++ [s]) = ofType t seen :=
    fun t => ofType_snoc_other fun hne => absurd hsize hne
  have htotal : ∀ t, totalSize t (seen ++ [s]) = totalSize t seen := by
    intro t
    unfold totalSize
    rw [hother]
  constructor
  · exact h.place
  · exact h.room
  · rw [htotal, htotal]
    exact h.length
  · exact h.known_snoc fun hne => absurd hsize hne
  · intro t
    rw [hother]
    exact h.contents t
  · intro t
    rw [hother]
    exact h.copied t
  · rw [hother]
    exact h.initData
  · rw [hother]
    exact h.size
  · rw [hother]
    exact h.virtualAddr
  · rw [hother]
    exact h.apart

theorem segment_ne {t u : SegmentType} (ht : s.segment = some t) (hu : u ≠ t) :
    s.s_size ≠ 0 → s.segment ≠ some u := by
  intro _ he
  rw [ht] at he
  exact hu (Option.some.inj he).symm

theorem segment_ne_none {t : SegmentType} (ht : s.segment = some t) :
    s.s_size ≠ 0 → s.segment ≠ none := by
  intro _ he
  rw [ht] at he
  cases he

/-- A section is copied.  For initialised data it is the first one. -/
theorem copy {t : SegmentType} {noffH : NoffHeader} (h : Loaded file c seen)
    (hne : s.s_size ≠ 0) (hcoff : 0 ≤ s.s_size.toInt ∧ 0 ≤ s.s_scnptr.toInt)
    (ht : s.segment = some t) (htype : t ≠ .uninitData)
    (hfirst : t = .initData → ofType .initData seen = [])
    (hself : noffH.get t = ⟨s.s_paddr, c.inNoffFile, s.s_size⟩)
    (hrest : ∀ u, u ≠ t → noffH.get u = c.noffH.get u)
    (hc : copySection file { c with noffH := noffH } s = some c') :
    Loaded file c' (seen ++ [s]) := by
  obtain ⟨bytes, hout, hlength, hroom, hfile, hnoffH, hin, hbytes⟩ := copySection_spec hc hcoff
  have hout' : c'.out = c.out ++ bytes := hout
  have hroom' : sizeofNoffHeader + c.out.length + bytes.length < 2 ^ 31 := hroom
  have hget : c'.noffH.get = noffH.get := by rw [hnoffH]
  have hbss : ofType .uninitData (seen ++ [s]) = ofType .uninitData seen :=
    ofType_snoc_other (segment_ne ht (Ne.symm htype))
  have huninit : c'.noffH.uninitData = c.noffH.uninitData := by
    show c'.noffH.get .uninitData = _
    rw [hget, hrest _ (Ne.symm htype)]
    rfl
  constructor
  · rw [hin, BitVec.toNat_add, h.place, ← hlength, hout', List.length_append]
    omega
  · rw [hout', List.length_append]
    omega
  · have hlen := h.length
    rw [hout', List.length_append, hlength]
    cases t with
    | code | initData =>
        rw [totalSize_snoc_self hne ht, totalSize_snoc_other (segment_ne ht (by decide))]
        omega
    | uninitData => exact absurd rfl htype
  · exact h.known_snoc (segment_ne_none ht)
  · intro u hu s' hs'
    obtain ⟨hmem, hs'⟩ := mem_ofType.mp hs'
    rcases List.mem_append.mp hmem with hold | hnew
    · exact h.contents u hu s' (mem_ofType.mpr ⟨hold, hs'⟩)
    · rw [List.mem_singleton.mp hnew]
      exact hfile
  · intro u hu s' hs'
    rw [hget, hout']
    by_cases hut : u = t
    · rw [hut, ofType_snoc_self hne ht, List.getLast?_concat] at hs'
      rw [← Option.some.inj hs', hut, hself]
      exact ⟨rfl, rfl, c.out, bytes, [], (List.append_nil _).symm, h.place.symm, hlength, hbytes⟩
    · rw [ofType_snoc_other (segment_ne ht hut)] at hs'
      rw [hrest u hut]
      exact (h.copied u hu s' hs').append bytes
  · by_cases hut : t = .initData
    · right
      rw [hut] at ht
      rw [ofType_snoc_self hne ht, hfirst hut]
      exact ⟨s, rfl⟩
    · rw [ofType_snoc_other (segment_ne ht (Ne.symm hut))]
      show _ ∧ (c'.noffH.get .initData).size = 0 ∨ _
      rw [hget, hrest _ (Ne.symm hut)]
      exact h.initData
  · rw [hbss, huninit]
    exact h.size
  · rw [hbss, huninit]
    exact h.virtualAddr
  · rw [hbss]
    exact h.apart

/-- A section of uninitialised data that does not touch what is there. -/
theorem bss {g : Segment} (h : Loaded file c seen) (hne : s.s_size ≠ 0)
    (ht : s.segment = some .uninitData)
    (hg : (g.virtualAddr, g.size) = grow ((ofType .uninitData seen).foldl grow (0, 0)) s)
    (hapart : touches ((ofType .uninitData seen).foldl grow (0, 0)) s = false) :
    Loaded file { c with noffH.uninitData := g } (seen ++ [s]) := by
  have hother : ∀ t, t ≠ .uninitData → ofType t (seen ++ [s]) = ofType t seen :=
    fun t hu => ofType_snoc_other (segment_ne ht hu)
  have hfold : (ofType .uninitData (seen ++ [s])).foldl grow (0, 0) = (g.virtualAddr, g.size) := by
    rw [ofType_snoc_self hne ht, List.foldl_append, hg]
    rfl
  constructor
  · exact h.place
  · exact h.room
  · rw [totalSize_snoc_other (segment_ne ht (by decide)),
      totalSize_snoc_other (segment_ne ht (by decide))]
    exact h.length
  · exact h.known_snoc (segment_ne_none ht)
  · intro t hu
    rw [hother t hu]
    exact h.contents t hu
  · intro t hu s' hs'
    rw [hother t hu] at hs'
    cases t with
    | code => exact h.copied .code hu s' hs'
    | initData => exact h.copied .initData hu s' hs'
    | uninitData => exact absurd rfl hu
  · rw [hother .initData (by decide)]
    exact h.initData
  · rw [hfold]
  · intro _
    rw [hfold]
  · rw [ofType_snoc_self hne ht, adjacent_snoc, h.apart, hapart]
    rfl

/-- A segment with a section has a size. -/
theorem initData_eq_nil (h : Loaded file c seen) (hsize : c.noffH.initData.size = 0) :
    ofType .initData seen = [] := by
  rcases h.initData with ⟨hnone, _⟩ | ⟨d, hd⟩
  · exact hnone
  · have hmem : d ∈ ofType .initData seen := by
      rw [hd]
      exact List.mem_singleton.mpr rfl
    have hplaced := h.copied .initData (by decide) d (by rw [hd]; rfl)
    have hd0 : d.s_size = 0 := hplaced.size.symm.trans hsize
    exact absurd hd0 (mem_ofType.mp hmem).2.1

/-- The uninitialised data in the header, once it has a size. -/
theorem uninitData_eq (h : Loaded file c seen) (hsize : c.noffH.uninitData.size ≠ 0) :
    (ofType .uninitData seen).foldl grow (0, 0) =
      (c.noffH.uninitData.virtualAddr, c.noffH.uninitData.size) := by
  have hseen : ofType .uninitData seen ≠ [] := by
    intro hnone
    rw [h.size, hnone] at hsize
    exact hsize rfl
  rw [h.size, h.virtualAddr hseen]

/-- The check of the source is `touches`. -/
theorem touches_iff (h : Loaded file c seen) :
    touches ((ofType .uninitData seen).foldl grow (0, 0)) s = true ↔
      c.noffH.uninitData.size ≠ 0 ∧
        s.s_paddr = c.noffH.uninitData.virtualAddr + c.noffH.uninitData.size := by
  unfold touches
  rw [Bool.and_eq_true, bne_iff_ne, beq_iff_eq, ← h.size]
  constructor
  · rintro ⟨hsize, haddr⟩
    rw [h.uninitData_eq hsize] at haddr
    exact ⟨hsize, haddr⟩
  · rintro ⟨hsize, haddr⟩
    rw [h.uninitData_eq hsize]
    exact ⟨hsize, haddr⟩

theorem step (h : Loaded file c seen) (hcoff : 0 ≤ s.s_size.toInt ∧ 0 ≤ s.s_scnptr.toInt)
    (hc : loadSection file c s = some c') : Loaded file c' (seen ++ [s]) := by
  unfold loadSection at hc
  split at hc
  · rename_i hempty
    cases hc
    exact h.empty hempty
  · rename_i hne
    split at hc
    · rename_i ht
      refine h.copy hne hcoff ht (by decide) (fun he => by cases he) rfl (fun u hu => ?_) hc
      cases u with
      | code => exact absurd rfl hu
      | initData => rfl
      | uninitData => rfl
    · rename_i ht
      split at hc
      · cases hc
      · rename_i hfirst
        have hnone := h.initData_eq_nil (not_not.mp hfirst)
        refine h.copy hne hcoff ht (by decide) (fun _ => hnone) rfl (fun u hu => ?_) hc
        cases u with
        | code => rfl
        | initData => exact absurd rfl hu
        | uninitData => rfl
    · rename_i ht
      split at hc
      · rename_i hsize
        split at hc
        · cases hc
        · rename_i hapart
          cases hc
          refine h.bss hne ht ?_ ?_
          · rw [h.uninitData_eq hsize, grow, if_neg hsize]
          · exact eq_false_of_ne_true fun hbad => hapart (h.touches_iff.mp hbad).2
      · rename_i hsize
        cases hc
        refine h.bss hne ht ?_ ?_
        · rw [grow, ← h.size, if_pos (not_not.mp hsize)]
        · exact eq_false_of_ne_true fun hbad => hsize (h.touches_iff.mp hbad).1
    · cases hc

end Loaded

section Loop

variable {file : CharArray} {noffH : NoffHeader} {seen rest : List Scnhdr} {s : Scnhdr}

theorem loaded_of_run {c : Loop} (hcoff : Coff file)
    (hrun : run (loadSection file) (.init file noffH) (sections file) = some c) :
    Loaded file c (sections file) := by
  refine run_history (I := Loaded file) ?_ (List.nil_append _).symm (.init noffH) hrun
  intro c1 seen s rest c2 hall h hstep
  refine h.step (hcoff s ?_) hstep
  rw [hall]
  exact List.mem_append_right _ List.mem_cons_self

/-- A list without two elements of a type, split at one of that type. -/
theorem ofType_eq_nil {t : SegmentType} (hone : (ofType t (seen ++ s :: rest)).length ≤ 1)
    (hne : s.s_size ≠ 0) (ht : s.segment = some t) : ofType t seen = [] := by
  have hsplit : ofType t (seen ++ s :: rest) = ofType t seen ++ ofType t (s :: rest) :=
    List.filter_append _ _
  have hpos : 0 < (ofType t (s :: rest)).length :=
    List.length_pos_of_mem (mem_ofType.mpr ⟨List.mem_cons_self, hne, ht⟩)
  rw [hsplit, List.length_append] at hone
  apply List.eq_nil_of_length_eq_zero
  omega

/-- The room that the sections up to `s` need. -/
theorem room_of_wellFormed (hw : WellFormed file) {t : SegmentType} {c : Loop}
    (hall : sections file = seen ++ [s] ++ rest) (h : Loaded file c seen) (hne : s.s_size ≠ 0)
    (ht : s.segment = some t) (htype : t ≠ .uninitData) :
    sizeofNoffHeader + c.out.length + s.s_size.toNat < 2 ^ 31 := by
  have hsize := hw.size
  have hcode := totalSize_append_le (t := .code) (l := seen ++ [s]) rest
  have hdata := totalSize_append_le (t := .initData) (l := seen ++ [s]) rest
  rw [← hall] at hcode hdata
  have hlen := h.length
  cases t with
  | code =>
      rw [totalSize_snoc_self hne ht] at hcode
      rw [totalSize_snoc_other (Loaded.segment_ne ht (by decide))] at hdata
      omega
  | initData =>
      rw [totalSize_snoc_other (Loaded.segment_ne ht (by decide))] at hcode
      rw [totalSize_snoc_self hne ht] at hdata
      omega
  | uninitData => exact absurd rfl htype

/-- The check of uninitialised data does not stop the loop. -/
theorem touches_eq_false (hall : sections file = seen ++ [s] ++ rest) (hne : s.s_size ≠ 0)
    (ht : s.segment = some .uninitData)
    (hapart : adjacent (0, 0) (ofType .uninitData (sections file)) = false) :
    touches ((ofType .uninitData seen).foldl grow (0, 0)) s = false := by
  have hsplit : ofType .uninitData (sections file) =
      ofType .uninitData (seen ++ [s]) ++ ofType .uninitData rest := by
    rw [hall]
    exact List.filter_append _ _
  rw [hsplit] at hapart
  have hsnoc := adjacent_append _ hapart
  rw [ofType_snoc_self hne ht, adjacent_snoc] at hsnoc
  exact (Bool.or_eq_false_iff.mp hsnoc).2

/-- One round succeeds in a well-formed file without a second section of
initialised data. -/
theorem loadSection_isSome (hcoff : Coff file) (hw : WellFormed file)
    {c : Loop} (hall : sections file = seen ++ s :: rest) (h : Loaded file c seen)
    (hdata : (ofType .initData (sections file)).length ≤ 1)
    (hapart : adjacent (0, 0) (ofType .uninitData (sections file)) = false) :
    ∃ c', loadSection file c s = some c' := by
  have hmem : s ∈ sections file := by
    rw [hall]
    exact List.mem_append_right _ List.mem_cons_self
  have hall' : sections file = seen ++ [s] ++ rest := by
    rw [hall, List.append_assoc, List.singleton_append]
  have hcopy : ∀ t noffH, s.s_size ≠ 0 → s.segment = some t → t ≠ .uninitData →
      ∃ c', copySection file { c with noffH := noffH } s = some c' := by
    intro t noffH hne ht htype
    obtain ⟨hpos, hptr⟩ := hcoff s hmem
    have hfile := hw.contents t htype s (mem_ofType.mpr ⟨hmem, hne, ht⟩)
    have hroom := room_of_wellFormed hw hall' h hne ht htype
    exact copySection_isSome hpos hptr hfile hroom
  unfold loadSection
  by_cases hne : s.s_size = 0
  · rw [if_pos hne]
    exact ⟨c, rfl⟩
  · rw [if_neg hne]
    cases ht : s.segment with
    | none => exact absurd ht (hw.known s hmem hne)
    | some t =>
        cases t with
        | code => exact hcopy .code _ hne ht (by decide)
        | initData =>
            rw [hall] at hdata
            have hnone := ofType_eq_nil hdata hne ht
            have hzero : c.noffH.initData.size = 0 := by
              rcases h.initData with ⟨_, hzero⟩ | ⟨d, hd⟩
              · exact hzero
              · rw [hnone] at hd
                cases hd
            show ∃ c', (if c.noffH.initData.size ≠ 0 then none else _) = some c'
            rw [if_neg (not_not.mpr hzero)]
            exact hcopy .initData _ hne ht (by decide)
        | uninitData =>
            have hfree := touches_eq_false hall' hne ht hapart
            show ∃ c', (if c.noffH.uninitData.size ≠ 0 then
              if s.s_paddr = c.noffH.uninitData.virtualAddr + c.noffH.uninitData.size then none
              else _ else _) = some c'
            by_cases hsize : c.noffH.uninitData.size ≠ 0
            · have hnot : ¬s.s_paddr =
                  c.noffH.uninitData.virtualAddr + c.noffH.uninitData.size := by
                intro haddr
                rw [h.touches_iff.mpr ⟨hsize, haddr⟩] at hfree
                cases hfree
              rw [if_pos hsize, if_neg hnot]
              exact ⟨_, rfl⟩
            · rw [if_neg hsize]
              exact ⟨_, rfl⟩

theorem exists_loop (noffH : NoffHeader) (hcoff : Coff file) (hw : WellFormed file)
    (hdata : (ofType .initData (sections file)).length ≤ 1)
    (hapart : adjacent (0, 0) (ofType .uninitData (sections file)) = false) :
    ∃ c, run (loadSection file) (.init file noffH) (sections file) = some c := by
  refine run_progress (I := Loaded file) ?_ (List.nil_append _).symm (.init noffH)
  intro c1 seen s rest hall h
  obtain ⟨c2, hc2⟩ := loadSection_isSome hcoff hw hall h hdata hapart
  refine ⟨c2, hc2, h.step (hcoff s ?_) hc2⟩
  rw [hall]
  exact List.mem_append_right _ List.mem_cons_self

theorem loaded_of_accepted {out : CharArray} (hcoff : Coff file)
    (hout : coff2noff noffH file = some out) :
    HeadersOk file ∧ ∃ c, Loaded file c (sections file) ∧ out = c.output := by
  unfold coff2noff at hout
  split at hout
  · rename_i hheaders
    obtain ⟨c, hrun, rfl⟩ := Option.map_eq_some_iff.mp hout
    exact ⟨hheaders, c, loaded_of_run hcoff hrun, rfl⟩
  · cases hout

/-- The files that are converted. -/
theorem accepts_iff (noffH : NoffHeader) (hcoff : Coff file) :
    (∃ out, coff2noff noffH file = some out) ↔
      WellFormed file ∧ (ofType .initData (sections file)).length ≤ 1 ∧
        adjacent (0, 0) (ofType .uninitData (sections file)) = false := by
  constructor
  · rintro ⟨out, hout⟩
    obtain ⟨hheaders, c, h, _⟩ := loaded_of_accepted hcoff hout
    have hlen := h.length
    have hroom := h.room
    refine ⟨⟨hheaders, h.known, h.contents, by omega⟩, ?_, h.apart⟩
    rcases h.initData with ⟨hnone, _⟩ | ⟨d, hd⟩
    · rw [hnone]
      exact Nat.zero_le 1
    · rw [hd]
      exact Nat.le_refl 1
  · rintro ⟨hw, hdata, hapart⟩
    obtain ⟨c, hc⟩ := exists_loop noffH hcoff hw hdata hapart
    unfold coff2noff
    rw [if_pos hw.headers, hc]
    exact ⟨_, rfl⟩

end Loop

end Nachos.Bin

import Mathlib.Data.List.Pairwise
import Nachos.Filesys.Requests
import Nachos.Lib.Run

/-!
# Open files are byte arrays with cursors

Several handles can be open on one file.  Each of them has its own copy of the
file header, and every `Read` and `Write` writes the copy back to the disk.
The files are nevertheless what a reader expects.  `Flat` is that
specification: a file is one list of bytes of a fixed length, a handle is a file
and a position, and a call moves as many bytes as are asked for and exist.

`Refines` relates the disk and the handles to the flat files.  Each call keeps
it and has the same reply (`step_refines`), so every sequence of calls does
(`openFiles_are_flat`).
-/

namespace Nachos.Filesys

open Function Lib Machine

/-! ## Calls -/

/-- A call on an open file.  The buffer is that of the caller, the time is the
one that the header gets, and `junk` is the contents of the new buffers. -/
inductive Call where
  | openFile (file : Nat)
  | seek (handle : Nat) (position : Int)
  | read (handle : Nat) (buffer : List Byte) (numBytes : Int) (time : BitVec 32) (junk : Bytes)
  | write (handle : Nat) (buffer : List Byte) (numBytes : Int) (time : BitVec 32) (junk : Bytes)

/-- What the caller gets: the count, and for `Read` the buffer. -/
inductive Reply where
  | done
  | read (count : Int) (buffer : List Byte)
  | wrote (count : Int)
deriving DecidableEq

/-- The disk and the open files. -/
structure Session where
  disk : Disk
  handles : List OpenFile

/-- One call.  `sectors` are the sectors of the file headers. -/
def Session.step (sectors : List Nat) (s : Session) : Call → Option (Reply × Session)
  | .openFile file => do
      let sector ← sectors[file]?
      let f ← OpenFile.openAt s.disk sector
      some (.done, { s with handles := s.handles ++ [f] })
  | .seek k position => do
      let f ← s.handles[k]?
      some (.done, { s with handles := s.handles.set k (f.seek position) })
  | .read k buffer numBytes time junk => do
      let f ← s.handles[k]?
      let (result, into, f, d) ← f.read s.disk time junk (.ofList buffer) numBytes
      some (.read result into.toList, ⟨d, s.handles.set k f⟩)
  | .write k buffer numBytes time junk => do
      let f ← s.handles[k]?
      let (result, f, d) ← f.write s.disk time junk (.ofList buffer) numBytes
      some (.wrote result, ⟨d, s.handles.set k f⟩)

/-! ## The specification -/

/-- A handle: a file and a position in it. -/
structure Cursor where
  file : Nat
  position : Nat

/-- Files as byte arrays. -/
structure Flat where
  files : List (List Byte)
  cursors : List Cursor

/-- The number of bytes that a call moves. -/
def moved (bytes : List Byte) (position : Nat) (numBytes : Int) : Nat :=
  if numBytes ≤ 0 ∨ bytes.length ≤ position then 0
  else min numBytes.toNat (bytes.length - position)

/-- One call on byte arrays.  `none` is a call that the specification says
nothing about: there is no such handle, the position is negative or leaves the
range of `int`, or the buffer is too small. -/
def Flat.step (s : Flat) : Call → Option (Reply × Flat)
  | .openFile file =>
      if file < s.files.length then
        some (.done, { s with cursors := s.cursors ++ [⟨file, 0⟩] })
      else none
  | .seek k position => do
      let c ← s.cursors[k]?
      if 0 ≤ position ∧ InInt position then
        some (.done, { s with cursors := s.cursors.set k ⟨c.file, position.toNat⟩ })
      else none
  | .read k buffer numBytes _ _ => do
      let c ← s.cursors[k]?
      let bytes ← s.files[c.file]?
      let n := moved bytes c.position numBytes
      if InInt (c.position + numBytes) ∧ n ≤ buffer.length then
        some (.read n ((bytes.drop c.position).take n ++ buffer.drop n),
          { s with cursors := s.cursors.set k ⟨c.file, c.position + n⟩ })
      else none
  | .write k buffer numBytes _ _ => do
      let c ← s.cursors[k]?
      let bytes ← s.files[c.file]?
      let n := moved bytes c.position numBytes
      if InInt (c.position + numBytes) ∧ n ≤ buffer.length then
        some (.wrote n,
          { files := s.files.set c.file
              (bytes.take c.position ++ buffer.take n ++ bytes.drop (c.position + n))
            cursors := s.cursors.set k ⟨c.file, c.position + n⟩ })
      else none

/-! ## The contents of a file -/

namespace Layout

variable {L : Layout} {d d' : Disk} {pos : Nat}

/-- The bytes of the file on the disk. -/
def contents (L : Layout) (d : Disk) : List Byte := (List.range L.length).map (L.byte d)

@[simp] theorem length_contents : (L.contents d).length = L.length := by
  simp [contents]

theorem contents_congr (heq : ∀ s ∈ L.data, d' s = d s) : L.contents d' = L.contents d := by
  apply List.map_congr_left
  intro x hx
  exact byte_congr heq (sector_of_lt (List.mem_range.mp hx))

theorem moved_contents (n : Int) : moved (L.contents d) pos n = L.count pos n.toNat := by
  unfold moved count
  rw [length_contents]
  split <;> omega

theorem count_in_file (L : Layout) (pos n : Nat) :
    L.count pos n = 0 ∨ pos + L.count pos n ≤ L.length := by
  unfold count
  omega

/-! ## Reading and writing through a handle -/

/-- The handle is open on the file, at the position.  Its copy of the header
can have other times than the disk. -/
structure Follows (L : Layout) (f : OpenFile) (pos : Nat) : Prop where
  heads : L.Heads f.hdr
  sector : f.hdrSector = L.header
  position : f.seekPosition = pos
  range : pos < 2 ^ 31

/-- The header is written back with new times. -/
theorem writeBack_header {h : FileHeader} (L : Layout) (d : Disk) :
    h.writeBack d L.header = some (update d L.header h.encode) :=
  writeSector_of_lt d (header_lt L.header_mem) h.encode

theorem Heads.touch {h : FileHeader} (hh : L.Heads h) (t u : BitVec 32) :
    L.Heads { h with lastAccessTime := t, lastWriteTime := u } :=
  ⟨⟨hh.next, hh.sectors⟩, hh.numBytes, hh.numSectors⟩

/-- The handle after a call that moved some bytes. -/
theorem Follows.advance {f : OpenFile} {h : FileHeader} (hf : L.Follows f pos) (hh : L.Heads h)
    (n : Nat) : L.Follows ⟨h, f.hdrSector, i32 (pos + L.count pos n)⟩ (pos + L.count pos n) := by
  have hle := L.length_le
  have hcount := L.count_in_file pos n
  have hrange := hf.range
  simp only [NumSectors, SectorsPerTrack, NumTracks, SectorSize] at hle
  refine ⟨hh, hf.sector, ?_, by omega⟩
  show i32 (pos + L.count pos n) = (pos + L.count pos n : Nat)
  rw [i32_eq (by omega) (by omega), Nat.cast_add]

/-- `Read` returns the bytes at the position, and only the first header is
written. -/
theorem read_spec {f : OpenFile} {n : Int} {buffer : List Byte} (hd : L.OnDisk d)
    (hf : L.Follows f pos) (hin : InInt (pos + n)) (time : BitVec 32) (junk : Bytes)
    (hfit : L.count pos n.toNat ≤ buffer.length) :
    ∃ into f' h, f.read d time junk (.ofList buffer) n =
        some ((L.count pos n.toNat : Int), into, f', update d L.header h.encode) ∧
      L.Heads h ∧ L.Follows f' (pos + L.count pos n.toNat) ∧
      into.toList = ((L.contents d).drop pos).take (L.count pos n.toNat) ++
        buffer.drop (L.count pos n.toNat) := by
  obtain ⟨into, hread, hsize, hget⟩ := readAt_total pos hd hf.heads hin.2 junk (.ofList buffer)
    (o := 0) (by simpa using hfit)
  rw [Nat.cast_zero] at hread
  have hheads : L.Heads { f.hdr with lastAccessTime := time } := hf.heads.touch time _
  refine ⟨into, _, _, ?_, hheads, hf.advance hheads n.toNat, ?_⟩
  · simp only [OpenFile.read, hf.position, hread, hf.sector, Option.bind_eq_bind,
      Option.bind_some, writeBack_header]
  · have hsplice := map_range_splice (CharArray.ofList buffer).get (fun k => L.byte d (pos + k))
      (n := buffer.length) (p := 0) (m := L.count pos n.toNat) (.inr (by simpa using hfit))
    rw [CharArray.toList, hsize, CharArray.size_ofList, funext hget, hsplice, Nat.zero_add,
      contents, map_range_drop_take _ (L.count_in_file pos n.toNat)]
    have hbuffer : (List.range buffer.length).map (CharArray.ofList buffer).get = buffer :=
      CharArray.toList_ofList buffer
    rw [hbuffer]
    rfl

/-- `Write` replaces the bytes at the position. -/
theorem write_spec {f : OpenFile} {n : Int} {buffer : List Byte} (hd : L.OnDisk d)
    (hf : L.Follows f pos) (hin : InInt (pos + n)) (time : BitVec 32) (junk : Bytes)
    (hfit : L.count pos n.toNat ≤ buffer.length) :
    ∃ d' f' h, f.write d time junk (.ofList buffer) n =
        some ((L.count pos n.toNat : Int), f', update d' L.header h.encode) ∧
      (∀ s, s ∉ L.data → d' s = d s) ∧ L.Heads h ∧
      L.Follows f' (pos + L.count pos n.toNat) ∧
      L.contents d' = (L.contents d).take pos ++ buffer.take (L.count pos n.toNat) ++
        (L.contents d).drop (pos + L.count pos n.toNat) := by
  obtain ⟨d', hwrite, hsame, hbyte⟩ :=
    writeAt_total pos hd hf.heads hin.2 junk (.ofList buffer) hfit
  have hheads : L.Heads { f.hdr with lastAccessTime := time, lastWriteTime := time } :=
    hf.heads.touch time time
  refine ⟨d', _, _, ?_, hsame, hheads, hf.advance hheads n.toNat, ?_⟩
  · simp only [OpenFile.write, hf.position, hwrite, hf.sector, Option.bind_eq_bind,
      Option.bind_some, writeBack_header]
  · have hsplice := map_range_splice (L.byte d) (CharArray.ofList buffer).get
      (n := L.length) (p := pos) (m := L.count pos n.toNat) (L.count_in_file pos n.toNat)
    rw [map_range_ofList hfit] at hsplice
    rw [contents, contents, ← hsplice]
    apply List.map_congr_left
    intro x hx
    exact hbyte x (List.mem_range.mp hx)

end Layout

/-! ## The refinement -/

/-- The disk has the files, and the handles are open on them. -/
structure Refines (files : List Layout) (s : Session) (a : Flat) : Prop where
  onDisk : ∀ L ∈ files, L.OnDisk s.disk
  contents : a.files = files.map fun L => L.contents s.disk
  handles : List.Forall₂ (fun f c => ∃ L, files[c.file]? = some L ∧ L.Follows f c.position)
    s.handles a.cursors

/-- No sector is in two of the files. -/
def Apart (files : List Layout) : Prop :=
  files.Pairwise fun L M => L.sectors.Disjoint M.sectors

section Refinement

variable {files : List Layout} {s : Session} {a : Flat} {L M : Layout} {d : Disk} {k : Nat}

theorem Apart.disjoint (ha : Apart files) (hL : L ∈ files) (hM : M ∈ files) (hne : M ≠ L) :
    L.sectors.Disjoint M.sectors := by
  have hsymm : Std.Symm fun L M : Layout => L.sectors.Disjoint M.sectors := ⟨fun _ _ h => h.symm⟩
  exact List.Pairwise.forall ha hL hM hne.symm

/-- A change of one file leaves the others on the disk. -/
theorem Apart.onDisk (ha : Apart files) (hL : L ∈ files) (hd : ∀ M ∈ files, M.OnDisk s.disk)
    (hLd : L.OnDisk d) (hsame : ∀ s', s' ∉ L.sectors → d s' = s.disk s') :
    ∀ M ∈ files, M.OnDisk d := by
  intro M hM
  by_cases hML : M = L
  · rw [hML]
    exact hLd
  · refine (hd M hM).congr fun s' hs' => hsame s' fun hs => ?_
    exact ha.disjoint hL hM hML hs (List.mem_append_left _ hs')

theorem Apart.contents_ne (ha : Apart files) (hL : L ∈ files) (hM : M ∈ files) (hne : M ≠ L)
    (hsame : ∀ s', s' ∉ L.sectors → d s' = s.disk s') : M.contents d = M.contents s.disk :=
  Layout.contents_congr fun s' hs' => hsame s' fun hs =>
    ha.disjoint hL hM hne hs (List.mem_append_right _ hs')

theorem Apart.nodup (ha : Apart files) : files.Nodup := by
  refine List.Pairwise.imp (fun {L M} hd => ?_) ha
  rintro rfl
  exact hd (List.mem_append_left _ L.header_mem) (List.mem_append_left _ L.header_mem)

/-- The contents after a change of one file. -/
theorem Apart.contents (ha : Apart files) {i : Nat} (hL : files[i]? = some L)
    (hsame : ∀ s', s' ∉ L.sectors → d s' = s.disk s') :
    files.map (fun M => M.contents d) =
      (files.map fun M => M.contents s.disk).set i (L.contents d) := by
  have hmem := List.mem_of_getElem? hL
  apply List.ext_getElem?
  intro j
  rw [List.getElem?_set, List.getElem?_map, List.getElem?_map]
  by_cases hij : i = j
  · subst hij
    obtain ⟨hlt, rfl⟩ := List.getElem?_eq_some_iff.mp hL
    simp [hlt]
  · rw [if_neg hij]
    cases hM : files[j]? with
    | none => rfl
    | some M =>
      have hne : M ≠ L := by
        rintro rfl
        exact hij ((List.getElem?_inj (List.getElem?_eq_some_iff.mp hL).1 ha.nodup).mp
          (hL.trans hM.symm))
      rw [Option.map_some, Option.map_some,
        ha.contents_ne hmem (List.mem_of_getElem? hM) hne hsame]

theorem forall₂_set {α β : Type*} {R : α → β → Prop} {xs : List α} {ys : List β}
    (h : List.Forall₂ R xs ys) (k : Nat) {x : α} {y : β} (hxy : R x y) :
    List.Forall₂ R (xs.set k x) (ys.set k y) := by
  induction h generalizing k with
  | nil => exact .nil
  | cons hab hrest ih =>
    cases k with
    | zero => exact .cons hxy hrest
    | succ k => exact .cons hab (ih k)

theorem forall₂_getElem? {α β : Type*} {R : α → β → Prop} {xs : List α} {ys : List β}
    (h : List.Forall₂ R xs ys) {k : Nat} {y : β} (hy : ys[k]? = some y) :
    ∃ x, xs[k]? = some x ∧ R x y := by
  induction h generalizing k with
  | nil => cases hy
  | @cons x y' xs ys hab hrest ih =>
    cases k with
    | zero => exact ⟨x, rfl, Option.some.inj hy ▸ hab⟩
    | succ k => exact ih hy

/-- The bytes of a file are the contents of its sectors. -/
theorem Refines.bytes_eq (h : Refines files s a) {i : Nat} {bytes : List Byte}
    (hL : files[i]? = some L) (hbytes : a.files[i]? = some bytes) :
    bytes = L.contents s.disk := by
  rw [h.contents, List.getElem?_map, hL] at hbytes
  exact (Option.some.inj hbytes).symm

/-- The end of a call on one file: its first header is written back. -/
theorem Refines.writeHeader (ha : Apart files) (h : Refines files s a) {i pos : Nat}
    {f : OpenFile} {hdr : FileHeader} (hL : files[i]? = some L) (hLd : L.OnDisk d)
    (hheads : L.Heads hdr) (hf : L.Follows f pos)
    (hsame : ∀ s', s' ∉ L.sectors → d s' = s.disk s') :
    Refines files ⟨update d L.header hdr.encode, s.handles.set k f⟩
      ⟨a.files.set i (L.contents d), a.cursors.set k ⟨i, pos⟩⟩ := by
  have hframe : ∀ s', s' ∉ L.sectors → update d L.header hdr.encode s' = s.disk s' := by
    intro s' hs'
    have hne : s' ≠ L.header := by
      rintro rfl
      exact hs' (List.mem_append_left _ L.header_mem)
    rw [update_of_ne hne, hsame s' hs']
  have hcontents : L.contents (update d L.header hdr.encode) = L.contents d := by
    refine Layout.contents_congr fun s' hs' => update_of_ne ?_ _ _
    rintro rfl
    exact Layout.header_not_data L.header_mem hs'
  refine ⟨ha.onDisk (List.mem_of_getElem? hL) h.onDisk (hLd.writeHeader hheads) hframe, ?_,
    forall₂_set h.handles k ⟨L, hL, hf⟩⟩
  rw [h.contents, ← hcontents]
  exact (ha.contents hL hframe).symm

/-- Each call keeps the relation and has the reply of the specification. -/
theorem step_refines (ha : Apart files) (h : Refines files s a) {call : Call} {reply : Reply}
    {a' : Flat} (hstep : a.step call = some (reply, a')) :
    ∃ s', s.step (files.map Layout.header) call = some (reply, s') ∧ Refines files s' a' := by
  cases call with
  | openFile file =>
    simp only [Flat.step, Option.ite_none_right_eq_some, Option.some.injEq, Prod.mk.injEq] at hstep
    obtain ⟨hlt, rfl, rfl⟩ := hstep
    rw [h.contents, List.length_map] at hlt
    have hL := List.getElem?_eq_getElem hlt
    generalize files[file] = L at hL
    have hopen : OpenFile.openAt s.disk L.header =
        some ⟨.decode (s.disk L.header), L.header, 0⟩ := by
      rw [OpenFile.openAt, FileHeader.fetchFrom, readSector_of_lt _ (L.header_lt L.header_mem)]
      rfl
    refine ⟨{ s with handles := s.handles ++ [⟨.decode (s.disk L.header), L.header, 0⟩] }, ?_,
      h.onDisk, h.contents, List.rel_append h.handles (.cons ⟨L, hL, ?_⟩ .nil)⟩
    · simp [Session.step, hL, hopen]
    · exact ⟨(h.onDisk L (List.mem_of_getElem? hL)).head, rfl, rfl, Nat.two_pow_pos 31⟩
  | seek k position =>
    simp only [Flat.step, Option.bind_eq_bind, Option.bind_eq_some_iff,
      Option.ite_none_right_eq_some, Option.some.injEq, Prod.mk.injEq] at hstep
    obtain ⟨c, hc, hin, rfl, rfl⟩ := hstep
    obtain ⟨f, hf, L, hL, hfollows⟩ := forall₂_getElem? h.handles hc
    refine ⟨{ s with handles := s.handles.set k (f.seek position) }, ?_, h.onDisk, h.contents,
      forall₂_set h.handles k ⟨L, hL, ?_⟩⟩
    · simp [Session.step, hf]
    · have hpos : position = (position.toNat : Int) := by omega
      have hrange : position.toNat < 2 ^ 31 := by omega
      exact ⟨hfollows.heads, hfollows.sector, hpos, hrange⟩
  | read k buffer n time junk =>
    simp only [Flat.step, Option.bind_eq_bind, Option.bind_eq_some_iff,
      Option.ite_none_right_eq_some, Option.some.injEq, Prod.mk.injEq] at hstep
    obtain ⟨c, hc, bytes, hbytes, ⟨hin, hfit⟩, rfl, rfl⟩ := hstep
    obtain ⟨f, hf, L, hL, hfollows⟩ := forall₂_getElem? h.handles hc
    obtain rfl := h.bytes_eq hL hbytes
    simp only [Layout.moved_contents] at hfit ⊢
    have hd := h.onDisk L (List.mem_of_getElem? hL)
    obtain ⟨into, f', hdr, hread, hheads, hnext, hinto⟩ :=
      Layout.read_spec hd hfollows hin time junk hfit
    refine ⟨⟨update s.disk L.header hdr.encode, s.handles.set k f'⟩,
      by simp [Session.step, hf, hread, hinto], ?_⟩
    have hwritten := h.writeHeader ha hL (k := k) hd hheads hnext
      fun s' _ => rfl
    obtain ⟨hlt, hget⟩ := List.getElem?_eq_some_iff.mp hbytes
    rw [← hget, List.set_getElem_self] at hwritten
    exact hwritten
  | write k buffer n time junk =>
    simp only [Flat.step, Option.bind_eq_bind, Option.bind_eq_some_iff,
      Option.ite_none_right_eq_some, Option.some.injEq, Prod.mk.injEq] at hstep
    obtain ⟨c, hc, bytes, hbytes, ⟨hin, hfit⟩, rfl, rfl⟩ := hstep
    obtain ⟨f, hf, L, hL, hfollows⟩ := forall₂_getElem? h.handles hc
    obtain rfl := h.bytes_eq hL hbytes
    simp only [Layout.moved_contents] at hfit ⊢
    have hd := h.onDisk L (List.mem_of_getElem? hL)
    obtain ⟨d1, f', hdr, hwrite, hsame, hheads, hnext, hcontents⟩ :=
      Layout.write_spec hd hfollows hin time junk hfit
    refine ⟨⟨update d1 L.header hdr.encode, s.handles.set k f'⟩,
      by simp [Session.step, hf, hwrite], ?_⟩
    have hd1 : L.OnDisk d1 := hd.congr fun s' hs' => hsame s' (Layout.header_not_data hs')
    have hwritten := h.writeHeader ha hL (k := k) hd1 hheads hnext
      fun s' hs' => hsame s' fun hdata => hs' (List.mem_append_right _ hdata)
    rw [hcontents] at hwritten
    exact hwritten

end Refinement

/-- Whatever the handles and the order of the calls, the replies are those of
byte arrays with cursors, and every file keeps its length and its sectors. -/
theorem openFiles_are_flat (files : List Layout) (d : Disk) (hapart : Apart files)
    (hd : ∀ L ∈ files, L.OnDisk d) (calls : List Call) (replies : List Reply) (a : Flat)
    (hspec : respond Flat.step ⟨files.map fun L => L.contents d, []⟩ calls = some (replies, a)) :
    ∃ s, respond (Session.step (files.map Layout.header)) ⟨d, []⟩ calls = some (replies, s) ∧
      (∀ L ∈ files, L.OnDisk s.disk) ∧ a.files = files.map fun L => L.contents s.disk := by
  have hstart : Refines files ⟨d, []⟩ ⟨files.map fun L => L.contents d, []⟩ := ⟨hd, rfl, .nil⟩
  have hstep : ∀ s a call reply a', Refines files s a → Flat.step a call = some (reply, a') →
      ∃ s', s.step (files.map Layout.header) call = some (reply, s') ∧ Refines files s' a' :=
    fun _ _ _ _ _ h hs => step_refines hapart h hs
  obtain ⟨s, hrun, hend⟩ := respond_simulates hstep hstart hspec
  exact ⟨s, hrun, hend.onDisk, hend.contents⟩

/-- A file of 130 bytes. -/
def longFile : Layout where
  length := 130
  headers := [0]
  data := [2, 3]
  headers_ne := by decide
  data_length := by decide
  fits := by decide
  sector_lt := by decide
  nodup := by decide

/-- A file of three bytes. -/
def shortFile : Layout where
  length := 3
  headers := [1]
  data := [4]
  headers_ne := by decide
  data_length := by decide
  fits := by decide
  sector_lt := by decide
  nodup := by decide

/-- The header of a file with one header. -/
def plainHeader (L : Layout) : FileHeader where
  createTime := 0
  lastAccessTime := 0
  lastWriteTime := 0
  nextFdrSector := -1
  numBytes := BitVec.ofNat 32 L.length
  numSectors := BitVec.ofNat 32 L.data.length
  dataSectors j := BitVec.ofNat 32 (L.data.getD j.val 0)

/-- A disk with the two files, all of whose bytes are zero. -/
def twoFiles : Disk
  | 0 => (plainHeader longFile).encode
  | 1 => (plainHeader shortFile).encode
  | _ => fun _ => 0

theorem onDisk_longFile : longFile.OnDisk twoFiles := by
  refine Layout.onDisk_of_head rfl ⟨⟨?_, ?_⟩, ?_, ?_⟩ <;> decide +kernel

theorem onDisk_shortFile : shortFile.OnDisk twoFiles := by
  refine Layout.onDisk_of_head rfl ⟨⟨?_, ?_⟩, ?_, ?_⟩ <;> decide +kernel

/-- Two handles on the long file and one on the short file. -/
def mixedCalls : List Call :=
  [.openFile 0, .openFile 0, .openFile 1, .seek 0 126,
    .write 0 [1, 2, 3, 4, 5, 6] 6 10 fun _ => 255, .seek 1 127,
    .read 1 [0, 0] 2 11 fun _ => 255, .read 1 [0, 9] 2 12 fun _ => 255,
    .read 2 [8, 8, 8, 8] 4 13 fun _ => 255]

/-- The write is cut off at the end of the file, and the other handle reads
across the boundary of the two sectors. -/
theorem openFiles_are_flat_mixed : ∃ s,
    respond (Session.step [0, 1]) ⟨twoFiles, []⟩ mixedCalls =
      some ([.done, .done, .done, .done, .wrote 4, .done, .read 2 [2, 3], .read 1 [4, 9],
        .read 3 [0, 0, 0, 8]], s) ∧
    longFile.OnDisk s.disk ∧ shortFile.OnDisk s.disk := by
  have hd : ∀ L ∈ [longFile, shortFile], L.OnDisk twoFiles := by
    simp [onDisk_longFile, onDisk_shortFile]
  have hapart : Apart [longFile, shortFile] := by
    simp [Apart, Layout.sectors, longFile, shortFile]
  have hreplies : (respond Flat.step
      ⟨[longFile, shortFile].map fun L => L.contents twoFiles, []⟩ mixedCalls).map Prod.fst =
        some [.done, .done, .done, .done, .wrote 4, .done, .read 2 [2, 3], .read 1 [4, 9],
          .read 3 [0, 0, 0, 8]] := by
    decide +kernel
  obtain ⟨⟨replies, a⟩, hspec, rfl⟩ := Option.map_eq_some_iff.mp hreplies
  obtain ⟨s, hrun, hs, -⟩ := openFiles_are_flat [longFile, shortFile] twoFiles hapart hd
    mixedCalls _ a hspec
  exact ⟨s, hrun, hs _ (by simp), hs _ (by simp)⟩

end Nachos.Filesys

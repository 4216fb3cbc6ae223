import Nachos.Filesys.Ownership

/-!
# The pipe

`ReadPipe` and `WritePipe` open the file of the pipe, move bytes, and close it, so
both always start at its first byte.  The file does not say how many bytes of it
have been written or read.

`Pipe` is the file system with the history of the bytes that went through the
pipe, and `step` is one call.  `pipe_fifo` says when the pipe is a queue: every
write finds it empty, and every read follows a write and asks for at most the
bytes that were written.  `pipe_delivers_twice` is a run of three calls in which
one byte is read twice.
-/

namespace Nachos.Filesys

open Function Lib Machine

/-- A call.  The list is the buffer of the caller. -/
inductive PipeCall where
  | write (data : List Byte) (numBytes : BitVec 32)
  | read (data : List Byte) (numBytes : BitVec 32)

/-- The file system, and what went through the pipe. -/
structure Pipe where
  fs : FileSystem
  /-- The bytes that `WritePipe` has accepted. -/
  accepted : List Byte
  /-- The bytes that `ReadPipe` has returned. -/
  returned : List Byte
  /-- The last bytes that were moved were written. -/
  filled : Bool

namespace Pipe

/-- The state after a call that returns. -/
def step (s : Pipe) (c : PipeCall × Fresh) : Option Pipe :=
  match c.1 with
  | .write data numBytes => do
      let (size, fs) ← s.fs.writePipe c.2 (.ofList data) numBytes
      some { s with
        fs := fs
        accepted := s.accepted ++ data.take size.toNat
        filled := if 0 < size then true else s.filled }
  | .read data numBytes => do
      let (size, data, fs) ← s.fs.readPipe c.2 (.ofList data) numBytes
      some { s with
        fs := fs
        returned := s.returned ++ data.toList.take size.toNat
        filled := if 0 < size then false else s.filled }

/-- The condition on a call: the buffer has the bytes, a write finds the pipe empty,
and a read follows a write of at least as many bytes. -/
def Alternates (s : Pipe) (c : PipeCall × Fresh) : Prop :=
  match c.1 with
  | .write data numBytes => numBytes.toInt ≤ data.length ∧
      (numBytes.toInt ≤ 0 ∨ s.returned.length = s.accepted.length)
  | .read data numBytes => numBytes.toInt ≤ data.length ∧
      (numBytes.toInt ≤ 0 ∨
        s.filled = true ∧ s.returned.length + numBytes.toInt ≤ s.accepted.length)

instance (s : Pipe) (c : PipeCall × Fresh) : Decidable (s.Alternates c) := by
  unfold Alternates
  split <;> infer_instance

/-! ## One call -/

section Calls

variable {L : Layout} {fs : FileSystem} {data : List Byte} {numBytes : BitVec 32}

/-- The number of bytes that a call moves. -/
def moves (numBytes : BitVec 32) : Nat := min numBytes.toInt.toNat PipeFileSize

theorem count_eq_moves (hlen : L.length = PipeFileSize) (numBytes : BitVec 32) :
    L.count 0 numBytes.toInt.toNat = moves numBytes := by
  rw [Layout.count, moves, hlen, Nat.sub_zero]

theorem moves_le (hfit : numBytes.toInt ≤ data.length) : moves numBytes ≤ data.length := by
  unfold moves
  omega

/-- The file of the pipe is opened at its first byte. -/
theorem open_pipe (hL : L.headers = [PipeSector]) (hd : L.OnDisk fs.disk) :
    ∃ file, OpenFile.openAt fs.disk PipeSector = some file ∧ L.Follows file 0 := by
  have hs : L.header = PipeSector := by simp [Layout.header, hL]
  refine ⟨⟨.decode (fs.disk PipeSector), PipeSector, 0⟩, ?_, ?_⟩
  · rw [OpenFile.openAt, FileHeader.fetchFrom, readSector_of_lt fs.disk (by decide)]
    rfl
  · have hheads := hd.head
    rw [hs] at hheads
    exact ⟨hheads, by rw [hs], rfl, by decide⟩

theorem contents_writeHeader {d : Disk} (h : FileHeader) :
    L.contents (update d L.header h.encode) = L.contents d := by
  apply Layout.contents_congr
  intro s hs
  have hne : s ≠ L.header := by
    rintro rfl
    exact Layout.header_not_data L.header_mem hs
  exact update_of_ne hne _ _

theorem inInt_toInt (w : BitVec 32) : InInt ((0 : Nat) + w.toInt) := by
  rw [Nat.cast_zero, Int.zero_add]
  exact ⟨BitVec.le_toInt w, BitVec.toInt_lt⟩

/-- `WritePipe` replaces the first bytes of the file. -/
theorem writePipe_spec (hL : L.headers = [PipeSector]) (hlen : L.length = PipeFileSize)
    (hd : L.OnDisk fs.disk) (hfit : numBytes.toInt ≤ data.length) (f : Fresh) :
    ∃ d', fs.writePipe f (.ofList data) numBytes =
        some ((moves numBytes : Int), { fs with disk := d' }) ∧
      L.OnDisk d' ∧ L.contents d' =
        data.take (moves numBytes) ++ (L.contents fs.disk).drop (moves numBytes) := by
  obtain ⟨file, hopen, hfile⟩ := open_pipe hL hd
  have hcount := count_eq_moves hlen numBytes
  obtain ⟨d', file', h, hwrite, hsame, hheads, -, hcontents⟩ := Layout.write_spec hd hfile
    (inInt_toInt numBytes) f.time f.buffer (by rw [hcount]; exact moves_le hfit)
  have hd' : L.OnDisk d' := hd.congr fun s hs => hsame s (Layout.header_not_data hs)
  rw [hcount] at hwrite hcontents
  refine ⟨_, ?_, hd'.writeHeader hheads, ?_⟩
  · simp only [FileSystem.writePipe, hopen, hwrite, Option.bind_eq_bind, Option.bind_some]
  · rw [contents_writeHeader, hcontents, List.take_zero, List.nil_append, Nat.zero_add]

/-- `ReadPipe` returns the first bytes of the file. -/
theorem readPipe_spec (hL : L.headers = [PipeSector]) (hlen : L.length = PipeFileSize)
    (hd : L.OnDisk fs.disk) (hfit : numBytes.toInt ≤ data.length) (f : Fresh) :
    ∃ d' into, fs.readPipe f (.ofList data) numBytes =
        some ((moves numBytes : Int), into, { fs with disk := d' }) ∧
      L.OnDisk d' ∧ L.contents d' = L.contents fs.disk ∧
      into.toList.take (moves numBytes) = (L.contents fs.disk).take (moves numBytes) := by
  obtain ⟨file, hopen, hfile⟩ := open_pipe hL hd
  have hcount := count_eq_moves hlen numBytes
  obtain ⟨into, file', h, hread, hheads, -, hinto⟩ := Layout.read_spec hd hfile
    (inInt_toInt numBytes) f.time f.buffer (by rw [hcount]; exact moves_le hfit)
  rw [hcount] at hread hinto
  refine ⟨_, into, ?_, hd.writeHeader hheads, contents_writeHeader h, ?_⟩
  · simp only [FileSystem.readPipe, hopen, hread, Option.bind_eq_bind, Option.bind_some]
  · have hle : moves numBytes ≤ L.length := by
      rw [hlen]
      exact Nat.min_le_right _ _
    rw [hinto, List.drop_zero, List.take_append_of_le_length (by simp [hle]), List.take_take,
      Nat.min_self]

end Calls

/-! ## Runs -/

/-- What was returned was accepted, in this order.  After a write, the file starts
with the bytes that were not read. -/
structure Queue (L : Layout) (s : Pipe) : Prop where
  onDisk : L.OnDisk s.fs.disk
  order : s.returned <+: s.accepted
  stored : s.filled = true → ∃ w, s.accepted = s.returned ++ w ∧ w <+: L.contents s.fs.disk

section Steps

variable {L : Layout} {s s' : Pipe} {data : List Byte} {numBytes : BitVec 32} {f : Fresh}

theorem moves_eq_zero (h : numBytes.toInt ≤ 0) : moves numBytes = 0 := by
  unfold moves
  omega

theorem moves_pos (h : ¬ numBytes.toInt ≤ 0) : 0 < (moves numBytes : Int) := by
  unfold moves PipeFileSize
  omega

theorem step_write (s : Pipe) (data : List Byte) (numBytes : BitVec 32)
    (hL : L.headers = [PipeSector]) (hlen : L.length = PipeFileSize) (hd : L.OnDisk s.fs.disk)
    (hfit : numBytes.toInt ≤ data.length) (f : Fresh) :
    ∃ d', s.step (.write data numBytes, f) = some
        ⟨{ s.fs with disk := d' }, s.accepted ++ data.take (moves numBytes), s.returned,
          if 0 < (moves numBytes : Int) then true else s.filled⟩ ∧
      L.OnDisk d' ∧ L.contents d' =
        data.take (moves numBytes) ++ (L.contents s.fs.disk).drop (moves numBytes) := by
  obtain ⟨d', hwrite, hd', hcontents⟩ := writePipe_spec hL hlen hd hfit f
  refine ⟨d', ?_, hd', hcontents⟩
  simp only [step, hwrite, Option.bind_eq_bind, Option.bind_some, Int.toNat_natCast]

theorem step_read (s : Pipe) (data : List Byte) (numBytes : BitVec 32)
    (hL : L.headers = [PipeSector]) (hlen : L.length = PipeFileSize) (hd : L.OnDisk s.fs.disk)
    (hfit : numBytes.toInt ≤ data.length) (f : Fresh) :
    ∃ d', s.step (.read data numBytes, f) = some
        ⟨{ s.fs with disk := d' }, s.accepted,
          s.returned ++ (L.contents s.fs.disk).take (moves numBytes),
          if 0 < (moves numBytes : Int) then false else s.filled⟩ ∧
      L.OnDisk d' ∧ L.contents d' = L.contents s.fs.disk := by
  obtain ⟨d', into, hread, hd', hcontents, hinto⟩ := readPipe_spec hL hlen hd hfit f
  refine ⟨d', ?_, hd', hcontents⟩
  simp only [step, hread, Option.bind_eq_bind, Option.bind_some, Int.toNat_natCast, hinto]

theorem Queue.write (hL : L.headers = [PipeSector]) (hlen : L.length = PipeFileSize)
    (h : Queue L s) (hok : s.Alternates (.write data numBytes, f))
    (hstep : s.step (.write data numBytes, f) = some s') : Queue L s' := by
  obtain ⟨hfit, hempty⟩ := hok
  obtain ⟨d', hwrite, hd', hcontents⟩ := step_write s data numBytes hL hlen h.onDisk hfit f
  rw [← Option.some.inj (hwrite.symm.trans hstep)]
  by_cases hneg : numBytes.toInt ≤ 0
  · rw [moves_eq_zero hneg, List.take_zero, List.nil_append, List.drop_zero] at hcontents
    rw [moves_eq_zero hneg, List.take_zero, List.append_nil, if_neg (by decide)]
    refine ⟨hd', h.order, ?_⟩
    rw [hcontents]
    exact h.stored
  · have hsame : s.returned = s.accepted :=
      h.order.eq_of_length (hempty.resolve_left hneg)
    refine ⟨hd', h.order.trans (List.prefix_append _ _), fun _ => ?_⟩
    refine ⟨data.take (moves numBytes), by rw [hsame], ?_⟩
    rw [hcontents]
    exact List.prefix_append _ _

theorem Queue.read (hL : L.headers = [PipeSector]) (hlen : L.length = PipeFileSize)
    (h : Queue L s) (hok : s.Alternates (.read data numBytes, f))
    (hstep : s.step (.read data numBytes, f) = some s') : Queue L s' := by
  obtain ⟨hfit, hfilled⟩ := hok
  obtain ⟨d', hread, hd', hcontents⟩ := step_read s data numBytes hL hlen h.onDisk hfit f
  rw [← Option.some.inj (hread.symm.trans hstep)]
  by_cases hneg : numBytes.toInt ≤ 0
  · rw [moves_eq_zero hneg, List.take_zero, List.append_nil, if_neg (by decide)]
    refine ⟨hd', h.order, ?_⟩
    rw [hcontents]
    exact h.stored
  · obtain ⟨hset, hbound⟩ := hfilled.resolve_left hneg
    obtain ⟨w, haccepted, hprefix⟩ := h.stored hset
    -- The bytes at the start of the file are the oldest ones that were not read.
    have hfirst : (L.contents s.fs.disk).take (moves numBytes) = w.take (moves numBytes) := by
      have hle : moves numBytes ≤ w.length := by
        rw [haccepted, List.length_append] at hbound
        unfold moves
        omega
      obtain ⟨rest, hrest⟩ := hprefix
      rw [← hrest, List.take_append_of_le_length hle]
    refine ⟨hd', ?_, ?_⟩
    · rw [hfirst, haccepted]
      exact (List.prefix_append_right_inj s.returned).mpr (List.take_prefix _ _)
    · rw [if_pos (moves_pos hneg)]
      intro hfalse
      cases hfalse

theorem Queue.step {c : PipeCall × Fresh} (hL : L.headers = [PipeSector])
    (hlen : L.length = PipeFileSize) (h : Queue L s) (hok : s.Alternates c)
    (hstep : s.step c = some s') : Queue L s' := by
  obtain ⟨call, f⟩ := c
  cases call with
  | write data numBytes => exact h.write hL hlen hok hstep
  | read data numBytes => exact h.read hL hlen hok hstep

end Steps

/-- In a run whose calls alternate, the bytes that were returned are the first of
those that were accepted. -/
theorem pipe_fifo {L : Layout} {fs : FileSystem} (hL : L.headers = [PipeSector])
    (hlen : L.length = PipeFileSize) (hd : L.OnDisk fs.disk) {calls : List (PipeCall × Fresh)} {s : Pipe}
    (hok : Along step Alternates ⟨fs, [], [], false⟩ calls)
    (hrun : run step ⟨fs, [], [], false⟩ calls = some s) : s.returned <+: s.accepted := by
  have hstart : Queue L ⟨fs, [], [], false⟩ := ⟨hd, List.prefix_rfl, by simp⟩
  have hend : Queue L s :=
    run_invariant (fun _ _ _ h hok hstep => h.step hL hlen hok hstep) hstart hok hrun
  exact hend.order

/-- A formatted disk has the pipe. -/
theorem pipe_on_formatted (d : Disk) (f g h : Fresh) :
    ∃ (fs : FileSystem) (L : Layout), FileSystem.format d f g h = some fs ∧ L.headers = [PipeSector] ∧
      L.length = PipeFileSize ∧ L.OnDisk fs.disk := by
  obtain ⟨fs, v, hformat, hv, -, -, hlen⟩ := format_spec d f g h
  exact ⟨fs, v.pipe, hformat, v.pipe_headers, hlen, hv.onDisk.files .pipe _ rfl⟩

/-- Three bytes are written and two of them are read. -/
def writeRead : List (PipeCall × Fresh) :=
  [(.write [1, 2, 3] 3, zeroFresh), (.read [0, 0] 2, zeroFresh)]

theorem pipe_fifo_message :
    ∃ fs s, FileSystem.format (fun _ _ => 0) zeroFresh zeroFresh zeroFresh = some fs ∧
      run step ⟨fs, [], [], false⟩ writeRead = some s ∧ s.returned = [1, 2] ∧
      s.returned <+: s.accepted := by
  obtain ⟨fs, L, hformat, hL, hlen, hd⟩ :=
    pipe_on_formatted (fun _ _ => 0) zeroFresh zeroFresh zeroFresh
  obtain ⟨d1, hwrite, hd1, hcontents⟩ := step_write ⟨fs, [], [], false⟩ [1, 2, 3] 3 hL hlen hd
    (by decide) zeroFresh
  obtain ⟨d2, hread, -⟩ := step_read ⟨{ fs with disk := d1 }, [1, 2, 3], [], true⟩ [0, 0] 2 hL hlen hd1
    (by decide) zeroFresh
  have htwo : [] ++ (L.contents d1).take (moves 2) = [1, 2] := by
    rw [hcontents]
    rfl
  rw [htwo] at hread
  have hbound : (([] : List Byte).length : Int) + (2#32).toInt ≤ [1, 2, 3].length := by decide
  have hok : Along step Alternates ⟨fs, [], [], false⟩ writeRead :=
    (along_cons hwrite).mpr ⟨⟨by decide, .inr rfl⟩,
      (along_cons hread).mpr ⟨⟨by decide, .inr ⟨rfl, hbound⟩⟩, trivial⟩⟩
  have hrun : run step ⟨fs, [], [], false⟩ writeRead =
      some ⟨{ fs with disk := d2 }, [1, 2, 3], [1, 2], false⟩ :=
    run_cons_eq_some.mpr ⟨_, hwrite, run_cons_eq_some.mpr ⟨_, hread, rfl⟩⟩
  exact ⟨fs, _, hformat, hrun, rfl, pipe_fifo hL hlen hd hok hrun⟩

/-- One byte is written, and it is read twice. -/
theorem pipe_delivers_twice :
    ∃ fs s, FileSystem.format (fun _ _ => 0) zeroFresh zeroFresh zeroFresh = some fs ∧
      run step ⟨fs, [], [], false⟩ [(.write [65] 1, zeroFresh), (.read [0] 1, zeroFresh),
        (.read [0] 1, zeroFresh)] = some s ∧
      s.accepted = [65] ∧ s.returned = [65, 65] ∧ ¬ s.returned <+: s.accepted := by
  obtain ⟨fs, L, hformat, hL, hlen, hd⟩ :=
    pipe_on_formatted (fun _ _ => 0) zeroFresh zeroFresh zeroFresh
  obtain ⟨d1, hwrite, hd1, hcontents⟩ := step_write ⟨fs, [], [], false⟩ [65] 1 hL hlen hd
    (by decide) zeroFresh
  obtain ⟨d2, hread2, hd2, hsame⟩ := step_read ⟨{ fs with disk := d1 }, [65], [], true⟩ [0] 1 hL hlen
    hd1 (by decide) zeroFresh
  obtain ⟨d3, hread3, -⟩ := step_read ⟨{ fs with disk := d2 }, [65], [65], false⟩ [0] 1 hL hlen
    hd2 (by decide) zeroFresh
  have hone : [] ++ (L.contents d1).take (moves 1) = [65] := by
    rw [hcontents]
    rfl
  have hagain : [65] ++ (L.contents d2).take (moves 1) = [65, 65] := by
    rw [show L.contents d2 = L.contents d1 from hsame, hcontents]
    rfl
  rw [hone] at hread2
  rw [hagain] at hread3
  refine ⟨fs, ⟨{ fs with disk := d3 }, [65], [65, 65], false⟩, hformat, ?_, rfl, rfl,
    (by decide : ¬ [65, 65] <+: ([65] : List Byte))⟩
  exact run_cons_eq_some.mpr ⟨_, hwrite, run_cons_eq_some.mpr ⟨_, hread2,
    run_cons_eq_some.mpr ⟨_, hread3, rfl⟩⟩⟩

end Pipe

end Nachos.Filesys

import Nachos.Machine.Disk
import Nachos.Threads.ThreadIds

/-!
# User memory: `machine/translate.cc` and `machine/machine.cc`

The machine has `NumPhysPages` frames of main memory.  `rt_page_table` is one
table for all threads: the entry of a frame says which page of which thread,
by its thread id, the frame holds.  The pages of a thread live in the array
`disk` of its `AddrSpace`.

`translate` looks the page up in the table.  A miss is a
`PageFaultException`, and its handler `reverseTableReplace` takes a frame,
writes its page back if it is dirty, and reads the missing page.  The choice of
`Random()` is a parameter.  `readMem` and `writeMem` return `FALSE` after the
handler; the user program then executes the instruction again.

The model is the machine without a TLB (`tlb == NULL`).  `none` stands for a
failed `ASSERT` and for an access through a `NULL` pointer or outside an
array.
-/

namespace Nachos.Machine

open Function Lib Threads

def PageSize : Nat := SectorSize

def NumPhysPages : Nat := 32

instance : NeZero NumPhysPages := ⟨by decide⟩

def MemorySize : Nat := NumPhysPages * PageSize

def TLBSize : Nat := 4

/-- `enum ExceptionType`, apart from `NoException`. -/
inductive ExceptionType where
  | syscallException
  | pageFaultException
  | readOnlyException
  | busErrorException
  | addressErrorException
  | overflowException
  | illegalInstrException
  deriving DecidableEq, Repr

/-- `class ReverseTranslationEntry`.  Nothing reads its field `LRU`. -/
structure ReverseTranslationEntry where
  virtualPage : Int
  physicalPage : Nat
  valid : Bool
  readOnly : Bool
  use : Bool
  dirty : Bool
  tid : Int
  deriving DecidableEq, Repr

/-- `class AddrSpace`.  `disk` is a pointer to an array. -/
structure AddrSpace where
  disk : Nat
  numPages : Nat
  deriving DecidableEq, Repr

/-- Main memory with its table, the address spaces of the threads, and the
arrays that the `disk` pointers point to. -/
structure Memory where
  mainMemory : CharArray
  rtPageTable : Fin NumPhysPages → ReverseTranslationEntry
  /-- `Thread::space`. -/
  space : ThreadPtr → Option AddrSpace
  disk : Nat → CharArray

namespace Memory

/-- `Machine::Machine`, without threads.  The constructor leaves `dirty` as it
is. -/
def boot (dirty : Fin NumPhysPages → Bool) (disk : Nat → CharArray) : Memory where
  mainMemory := ⟨MemorySize, fun _ => 0⟩
  rtPageTable i :=
    { virtualPage := -1
      physicalPage := i
      valid := false
      readOnly := false
      use := false
      dirty := dirty i
      tid := -1 }
  space _ := none
  disk := disk

/-! ## Translation -/

/-- The search loop of `Translate`. -/
def lookup (m : Memory) (tid vpn : Nat) : Option (Fin NumPhysPages) :=
  (List.finRange NumPhysPages).find? fun i =>
    (m.rtPageTable i).valid && (m.rtPageTable i).virtualPage == vpn &&
      (m.rtPageTable i).tid == tid

theorem lookup_spec {m : Memory} {tid vpn : Nat} {i : Fin NumPhysPages}
    (h : m.lookup tid vpn = some i) : (m.rtPageTable i).valid = true ∧
      (m.rtPageTable i).virtualPage = vpn ∧ (m.rtPageTable i).tid = tid := by
  have hfound := List.find?_some h
  simp only [Bool.and_eq_true, beq_iff_eq] at hfound
  exact ⟨hfound.1.1, hfound.1.2, hfound.2⟩

/-- The address is not a multiple of the size. -/
def misaligned (virtAddr : BitVec 32) (size : Nat) : Bool :=
  size == 4 && virtAddr &&& 0x3 != 0 || size == 2 && virtAddr &&& 0x1 != 0

/-- The end of `Translate`: set the bits of the entry. -/
def touch (m : Memory) (i : Fin NumPhysPages) (writing : Bool) : Memory :=
  { m with
    rtPageTable := update m.rtPageTable i
      { m.rtPageTable i with
        use := true
        dirty := (m.rtPageTable i).dirty || writing } }

/-- `Machine::Translate` for the thread with id `tid`: the exception, or the
physical address. -/
def translate (m : Memory) (tid : Nat) (virtAddr : BitVec 32) (size : Nat) (writing : Bool) :
    Option (Except ExceptionType (Nat × Memory)) :=
  if misaligned virtAddr size then some (.error .addressErrorException)
  else
    let vpn := virtAddr.toNat / PageSize
    let offset := virtAddr.toNat % PageSize
    match m.lookup tid vpn with
    | none => some (.error .pageFaultException)
    | some i =>
        let entry := m.rtPageTable i
        if entry.readOnly && writing then some (.error .readOnlyException)
        else if NumPhysPages ≤ entry.physicalPage then some (.error .busErrorException)
        else
          let physAddr := entry.physicalPage * PageSize + offset
          if physAddr + size ≤ MemorySize then some (.ok (physAddr, m.touch i writing))
          else none

/-! ## Replacement -/

/-- The frame that a page fault takes: a free one of the first `TLBSize`, or a
random one of all. -/
def position (m : Memory) (random : Nat) : Fin NumPhysPages :=
  match (List.finRange NumPhysPages).find? fun i =>
      i.val < TLBSize && !(m.rtPageTable i).valid with
  | some i => i
  | none => ⟨random % NumPhysPages, Nat.mod_lt _ (by decide)⟩

/-- The array of the thread at `thread_poiners[tid]`. -/
def diskOf (m : Memory) (ids : ThreadIds) (tid : Int) : Option Nat :=
  match ids.threadPoiners tid.toNat with
  | some t => (m.space t).map AddrSpace.disk
  | none => none

/-- Write the page in the frame back, if it is dirty. -/
def writeBack (m : Memory) (ids : ThreadIds) (i : Fin NumPhysPages) : Option Memory :=
  let entry := m.rtPageTable i
  if entry.valid && entry.dirty then
    match m.diskOf ids entry.tid with
    | none => none
    | some d =>
        ((m.disk d).copy (entry.virtualPage.toNat * PageSize) m.mainMemory
          (entry.physicalPage * PageSize) PageSize).map fun bytes =>
            { m with disk := update m.disk d bytes }
  else some m

/-- The frame holds the page of the thread, and main memory is `bytes`. -/
def install (m : Memory) (tid vpn : Nat) (i : Fin NumPhysPages) (bytes : CharArray) : Memory :=
  { m with
    mainMemory := bytes
    rtPageTable := update m.rtPageTable i
      { m.rtPageTable i with
        virtualPage := vpn
        valid := true
        dirty := false
        tid := tid } }

/-- Read a page of the thread into the frame. -/
def readPage (m : Memory) (ids : ThreadIds) (tid vpn : Nat) (i : Fin NumPhysPages) :
    Option Memory :=
  match m.diskOf ids tid with
  | none => none
  | some d =>
      (m.mainMemory.copy ((m.rtPageTable i).physicalPage * PageSize) (m.disk d)
        (vpn * PageSize) PageSize).map (m.install tid vpn i)

/-- `Machine::ReverseTableReplace` for the thread with id `tid`. -/
def reverseTableReplace (m : Memory) (ids : ThreadIds) (tid : Nat) (address : BitVec 32)
    (random : Nat) : Option Memory :=
  let vpn := address.toNat / PageSize
  let i := m.position random
  (m.writeBack ids i).bind fun m => m.readPage ids tid vpn i

/-- `ExceptionHandler` for the exceptions of a translation. -/
def exceptionHandler (m : Memory) (ids : ThreadIds) (tid : Nat) (which : ExceptionType)
    (badVAddr : BitVec 32) (random : Nat) : Option Memory :=
  match which with
  | .pageFaultException => m.reverseTableReplace ids tid badVAddr random
  | _ => none

/-! ## Accesses -/

/-- The value that `ReadMem` stores: a `char` is signed, and a `short` is read
as an unsigned one. -/
def readValue (f : Bytes) (physicalAddress size : Nat) : Option (BitVec 32) :=
  match size with
  | 1 => some ((f physicalAddress).signExtend 32)
  | 2 => some (BitVec.ofNat 32 (f.load physicalAddress 2))
  | 4 => some (BitVec.ofNat 32 (f.load physicalAddress 4))
  | _ => none

/-- The memory after the store of `WriteMem`. -/
def writeValue (f : Bytes) (physicalAddress size : Nat) (value : BitVec 32) : Option Bytes :=
  match size with
  | 1 => some (f.store physicalAddress value 1)
  | 2 => some (f.store physicalAddress value 2)
  | 4 => some (f.store physicalAddress value 4)
  | _ => none

/-- Main memory holds `f`. -/
def poke (m : Memory) (f : Bytes) : Memory :=
  { m with mainMemory := { m.mainMemory with get := f } }

/-- `Machine::ReadMem` by the thread with id `tid`: the value, or `none` when
it returns `FALSE`. -/
def readMem (m : Memory) (ids : ThreadIds) (tid : Nat) (addr : BitVec 32) (size random : Nat) :
    Option (Memory × Option (BitVec 32)) :=
  match m.translate tid addr size false with
  | none => none
  | some (.error e) => (m.exceptionHandler ids tid e addr random).map fun m => (m, none)
  | some (.ok (physicalAddress, m)) =>
      (readValue m.mainMemory.get physicalAddress size).map fun v => (m, some v)

/-- `Machine::WriteMem` by the thread with id `tid`, with its result. -/
def writeMem (m : Memory) (ids : ThreadIds) (tid : Nat) (addr : BitVec 32) (size : Nat)
    (value : BitVec 32) (random : Nat) : Option (Memory × Bool) :=
  match m.translate tid addr size true with
  | none => none
  | some (.error e) => (m.exceptionHandler ids tid e addr random).map fun m => (m, false)
  | some (.ok (physicalAddress, m)) =>
      (writeValue m.mainMemory.get physicalAddress size value).map fun f => (m.poke f, true)

end Memory

/-- A call of `ReadMem` or `WriteMem`. -/
inductive Access where
  | read (addr : BitVec 32) (size : Nat)
  | write (addr : BitVec 32) (size : Nat) (value : BitVec 32)

def Access.addr : Access → BitVec 32
  | .read addr _ => addr
  | .write addr _ _ => addr

def Access.writing : Access → Bool
  | .read .. => false
  | .write .. => true

/-- What the call returns. -/
inductive Reply where
  | value (v : BitVec 32)
  | done
  /-- `FALSE`. -/
  | failed
  deriving DecidableEq

/-- An access of a thread.  `random` is what `Random()` returns if the access
faults. -/
structure Request where
  thread : ThreadPtr
  access : Access
  random : Nat

/-- One access. -/
def Memory.serve (m : Memory) (ids : ThreadIds) (r : Request) : Option (Memory × Reply) :=
  match r.access with
  | .read addr size =>
      (m.readMem ids (ids.tid r.thread) addr size r.random).map fun x =>
        (x.1, x.2.elim .failed .value)
  | .write addr size value =>
      (m.writeMem ids (ids.tid r.thread) addr size value r.random).map fun x =>
        (x.1, if x.2 then .done else .failed)

/-! ## What an access does -/

namespace Memory

/-- An access by the thread with id `tid` that returns: it faults, or it finds
the frame `i` of its page. -/
inductive Served (m : Memory) (ids : ThreadIds) (tid random : Nat) :
    Access → Memory → Reply → Prop where
  | fault {a m' size writing} (hl : m.lookup tid (a.addr.toNat / PageSize) = none)
      (hm : m.reverseTableReplace ids tid a.addr random = some m')
      (htr : m.translate tid a.addr size writing = some (.error .pageFaultException)) :
      Served m ids tid random a m' .failed
  | read {addr size i v pa} (halign : misaligned addr size = false)
      (hl : m.lookup tid (addr.toNat / PageSize) = some i)
      (hv : readValue m.mainMemory.get
        ((m.rtPageTable i).physicalPage * PageSize + addr.toNat % PageSize) size = some v)
      (htr : m.translate tid addr size false = some (.ok (pa, m.touch i false))) :
      Served m ids tid random (.read addr size) (m.touch i false) (.value v)
  | write {addr size value i f pa} (halign : misaligned addr size = false)
      (hl : m.lookup tid (addr.toNat / PageSize) = some i)
      (hf : writeValue m.mainMemory.get
        ((m.rtPageTable i).physicalPage * PageSize + addr.toNat % PageSize) size value =
          some f)
      (htr : m.translate tid addr size true = some (.ok (pa, m.touch i true))) :
      Served m ids tid random (.write addr size value) ((m.touch i true).poke f) .done

/-- The results of `Translate`. -/
theorem translate_cases {m : Memory} {tid size : Nat} {addr : BitVec 32} {writing : Bool}
    {r : Except ExceptionType (Nat × Memory)}
    (h : m.translate tid addr size writing = some r) :
    r = .error .pageFaultException ∧ m.lookup tid (addr.toNat / PageSize) = none ∨
      (∃ e, e ≠ .pageFaultException ∧ r = .error e) ∨
      misaligned addr size = false ∧ ∃ i, m.lookup tid (addr.toNat / PageSize) = some i ∧
        r = .ok ((m.rtPageTable i).physicalPage * PageSize + addr.toNat % PageSize,
          m.touch i writing) := by
  simp only [translate] at h
  split at h
  · cases h
    exact Or.inr (Or.inl ⟨_, by simp, rfl⟩)
  · rename_i halign
    split at h
    · rename_i hl
      cases h
      exact Or.inl ⟨rfl, hl⟩
    · rename_i i hl
      split at h
      · cases h
        exact Or.inr (Or.inl ⟨_, by simp, rfl⟩)
      · split at h
        · cases h
          exact Or.inr (Or.inl ⟨_, by simp, rfl⟩)
        · split at h
          · cases h
            exact Or.inr (Or.inr ⟨Bool.not_eq_true _ ▸ halign, i, hl, rfl⟩)
          · cases h

variable {ids : ThreadIds} {m m' : Memory}

theorem exceptionHandler_eq_some {tid random : Nat} {addr : BitVec 32} {e : ExceptionType}
    (h : m.exceptionHandler ids tid e addr random = some m') :
    e = .pageFaultException ∧ m.reverseTableReplace ids tid addr random = some m' := by
  cases e with
  | pageFaultException => exact ⟨rfl, h⟩
  | _ => cases h

theorem serve_cases {t : ThreadPtr} {a : Access}
    {random : Nat} {reply : Reply} (h : m.serve ids ⟨t, a, random⟩ = some (m', reply)) :
    m.Served ids (ids.tid t) random a m' reply := by
  cases a with
  | read addr size =>
    obtain ⟨⟨m1, v⟩, hread, heq⟩ := Option.map_eq_some_iff.mp h
    cases heq
    simp only [readMem] at hread
    split at hread
    · cases hread
    · rename_i e htr
      obtain ⟨m2, hm2, heq⟩ := Option.map_eq_some_iff.mp hread
      cases heq
      obtain ⟨rfl, hreplace⟩ := exceptionHandler_eq_some hm2
      rcases translate_cases htr with ⟨_, hl⟩ | ⟨e, hne, he⟩ | ⟨_, i, _, he⟩
      · exact .fault hl hreplace htr
      · cases he
        exact absurd rfl hne
      · cases he
    · rename_i pa m2 htr
      obtain ⟨v', hv, heq⟩ := Option.map_eq_some_iff.mp hread
      cases heq
      rcases translate_cases htr with ⟨he, _⟩ | ⟨e, _, he⟩ | ⟨halign, i, hl, he⟩
      · cases he
      · cases he
      · cases he
        exact .read halign hl hv htr
  | write addr size value =>
    obtain ⟨⟨m1, v⟩, hwrite, heq⟩ := Option.map_eq_some_iff.mp h
    cases heq
    simp only [writeMem] at hwrite
    split at hwrite
    · cases hwrite
    · rename_i e htr
      obtain ⟨m2, hm2, heq⟩ := Option.map_eq_some_iff.mp hwrite
      cases heq
      obtain ⟨rfl, hreplace⟩ := exceptionHandler_eq_some hm2
      rcases translate_cases htr with ⟨_, hl⟩ | ⟨e, hne, he⟩ | ⟨_, i, _, he⟩
      · exact .fault hl hreplace htr
      · cases he
        exact absurd rfl hne
      · cases he
    · rename_i pa m2 htr
      obtain ⟨f, hf, heq⟩ := Option.map_eq_some_iff.mp hwrite
      cases heq
      rcases translate_cases htr with ⟨he, _⟩ | ⟨e, _, he⟩ | ⟨halign, i, hl, he⟩
      · cases he
      · cases he
      · cases he
        exact .write halign hl hf htr

/-! ## What the operations leave as it is -/

/-- A hit changes the two bits of an entry only. -/
theorem touch_entry (m : Memory) (i g : Fin NumPhysPages) (writing : Bool) :
    ∃ use dirty, (m.touch i writing).rtPageTable g =
      { m.rtPageTable g with use := use, dirty := dirty } := by
  by_cases hgi : g = i
  · subst hgi
    exact ⟨_, _, update_self ..⟩
  · exact ⟨_, _, update_of_ne hgi ..⟩

/-- The write-back changes bytes of an array only. -/
theorem writeBack_eq_some {i : Fin NumPhysPages} (h : m.writeBack ids i = some m') :
    ∃ disk, (∀ d, (disk d).size = (m.disk d).size) ∧ m' = { m with disk := disk } := by
  simp only [writeBack] at h
  split at h
  · split at h
    · cases h
    · rename_i d _
      obtain ⟨bytes, hcopy, rfl⟩ := Option.map_eq_some_iff.mp h
      refine ⟨_, fun e => ?_, rfl⟩
      by_cases hed : e = d
      · rw [hed, update_self, CharArray.copy_eq_some hcopy]
      · rw [update_of_ne hed]
  · cases h
    exact ⟨m.disk, fun _ => rfl, rfl⟩

/-- A replacement installs an entry of the thread. -/
theorem reverseTableReplace_eq_some {tid random : Nat}
    {address : BitVec 32} (h : m.reverseTableReplace ids tid address random = some m') :
    ∃ bytes disk, m' = { m with disk := disk }.install tid (address.toNat / PageSize)
      (m.position random) bytes := by
  obtain ⟨m1, hback, hread⟩ := Option.bind_eq_some_iff.mp h
  obtain ⟨disk, _, rfl⟩ := writeBack_eq_some hback
  simp only [readPage] at hread
  split at hread
  · cases hread
  · obtain ⟨bytes, _, rfl⟩ := Option.map_eq_some_iff.mp hread
    exact ⟨bytes, disk, rfl⟩

end Memory

end Nachos.Machine

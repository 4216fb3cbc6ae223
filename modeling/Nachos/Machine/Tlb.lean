import Nachos.Lib.Run
import Nachos.Machine.Paging

/-!
# Page faults with and without a TLB

`userprog/Makefile` and `filesys/Makefile` build a machine without a TLB;
`vm/Makefile` defines `USE_TLB`.  The handler of `PageFaultException` asks
which machine it runs on: `tlbReplace` fills an entry of the TLB, and
`ReverseTableReplace` fills a frame.  `Translate` does not ask.  It searches
`rt_page_table` on both machines.

* `fault_resolved`: without a TLB, a translation does not fault again after the
  handler has returned, in any state.  In the states of demand paging the
  handler returns.
* `tlb_always_faults`: with a TLB, every translation of every run faults,
  because nothing on this machine fills `rt_page_table`.  `tlb_faults_again` is
  the first fetch of a program.

`space->pageTable` is set by no constructor that runs a program: `AddrSpace()`
sets it to `NULL`, and `AddrSpace(executable)` leaves it as it is.  What
`pageTable[vpn].physicalPage` reads is therefore a parameter.
-/

namespace Nachos.Machine

open Function Lib Threads

/-- `class TranslationEntry`. -/
structure TranslationEntry where
  virtualPage : Int
  physicalPage : Int
  valid : Bool
  readOnly : Bool
  use : Bool
  dirty : Bool
  LRU : Int
  deriving DecidableEq, Repr

/-- The memory management unit. -/
structure Mmu where
  memory : Memory
  /-- `none` is `NULL`. -/
  tlb : Option (Fin TLBSize → TranslationEntry)
  /-- What `pageTable[vpn].physicalPage` reads while the thread runs.  `none`
  is a pointer that cannot be read. -/
  pageTable : ThreadPtr → Option (Nat → Int)

namespace Mmu

/-- `Machine::Machine`, with the address spaces of the threads.  The fields of
the TLB that the constructor leaves as they are come from `entry`. -/
def boot (useTlb : Bool) (entry : Fin TLBSize → TranslationEntry)
    (dirty : Fin NumPhysPages → Bool) (disk : Nat → CharArray)
    (space : ThreadPtr → Option AddrSpace) (pageTable : ThreadPtr → Option (Nat → Int)) :
    Mmu where
  memory := { Memory.boot dirty disk with space := space }
  tlb := if useTlb then some fun i => { entry i with valid := false, LRU := -1 } else none
  pageTable := pageTable

/-- `Machine::Translate` does not look at the TLB. -/
def translate (x : Mmu) (tid : Nat) (virtAddr : BitVec 32) (size : Nat) (writing : Bool) :
    Option (Except ExceptionType (Nat × Memory)) :=
  x.memory.translate tid virtAddr size writing

/-- The loop that looks for the smallest `LRU` below `minTag`. -/
def leastRecent (tlb : Fin TLBSize → TranslationEntry) : Int × Option (Fin TLBSize) :=
  (List.finRange TLBSize).foldl
    (fun (minTag, position) i =>
      if (tlb i).LRU < minTag then ((tlb i).LRU, some i) else (minTag, position))
    ((TLBSize : Int), none)

/-- The entry that `tlbReplace` takes, and the entries with their new `LRU`.
`none` is the access to `tlb[-1]`. -/
def tlbPosition (tlb : Fin TLBSize → TranslationEntry) :
    Option (Fin TLBSize × (Fin TLBSize → TranslationEntry)) :=
  match (List.finRange TLBSize).find? fun i => !(tlb i).valid with
  | some i => some (i, tlb)
  | none =>
      (leastRecent tlb).2.map fun position =>
        (position, fun j =>
          if j = position then { tlb j with LRU := (TLBSize : Int) - 1 }
          else { tlb j with LRU := (tlb j).LRU - 1 })

/-- `Machine::tlbReplace` while the thread runs. -/
def tlbReplace (x : Mmu) (t : ThreadPtr) (address : BitVec 32) : Option Mmu :=
  let vpn := address.toNat / PageSize
  match x.tlb, x.pageTable t with
  | some tlb, some pageTable =>
      (tlbPosition tlb).map fun (position, tlb) =>
        { x with
          tlb := some (update tlb position
            { tlb position with
              virtualPage := vpn
              physicalPage := pageTable vpn
              valid := true
              use := false
              dirty := false }) }
  | _, _ => none

/-- `ExceptionHandler` for the exceptions of a translation. -/
def exceptionHandler (x : Mmu) (ids : ThreadIds) (t : ThreadPtr) (which : ExceptionType)
    (badVAddr : BitVec 32) (random : Nat) : Option Mmu :=
  match which, x.tlb with
  | .pageFaultException, some _ => x.tlbReplace t badVAddr
  | .pageFaultException, none =>
      (x.memory.reverseTableReplace ids (ids.tid t) badVAddr random).map fun m =>
        { x with memory := m }
  | _, _ => none

/-- `ReadMem` and `WriteMem`, without their value. -/
def access (ids : ThreadIds) (x : Mmu) (r : Request) : Option Mmu :=
  match r.access with
  | .read addr size =>
      match x.translate (ids.tid r.thread) addr size false with
      | none => none
      | some (.error e) => x.exceptionHandler ids r.thread e addr r.random
      | some (.ok (_, m)) => some { x with memory := m }
  | .write addr size value =>
      match x.translate (ids.tid r.thread) addr size true with
      | none => none
      | some (.error e) => x.exceptionHandler ids r.thread e addr r.random
      | some (.ok (physicalAddress, m)) =>
          (Memory.writeValue m.mainMemory.get physicalAddress size value).map fun f =>
            { x with memory := m.poke f }

/-! ## Without a TLB -/

variable {addr : BitVec 32}

/-- The frame that a fault takes holds the page afterwards. -/
theorem lookup_of_replace {m m' : Memory} {ids : ThreadIds} {tid random : Nat}
    (h : m.reverseTableReplace ids tid addr random = some m') :
    m'.lookup tid (addr.toNat / PageSize) ≠ none := by
  obtain ⟨m1, _, hread⟩ := Option.bind_eq_some_iff.mp h
  intro hnone
  have hmiss := List.find?_eq_none.mp hnone (m.position random) (List.mem_finRange _)
  simp only [Memory.readPage] at hread
  split at hread
  · cases hread
  · obtain ⟨bytes, _, rfl⟩ := Option.map_eq_some_iff.mp hread
    simp [Memory.install] at hmiss

/-- A page in the table is not a fault. -/
theorem translate_ne_fault {m : Memory} {tid size : Nat} {writing : Bool}
    (h : m.lookup tid (addr.toNat / PageSize) ≠ none) :
    m.translate tid addr size writing ≠ some (.error .pageFaultException) := by
  intro hfault
  rcases Memory.translate_cases hfault with ⟨_, hl⟩ | ⟨e, hne, he⟩ | ⟨_, i, _, he⟩
  · exact h hl
  · cases he
    exact hne rfl
  · cases he

/-- Without a TLB, after the handler of a page fault has returned the same
translation does not fault.  In every state of demand paging the handler
returns. -/
theorem fault_resolved (ids : ThreadIds) (x : Mmu) (t : ThreadPtr) (addr : BitVec 32)
    (size random : Nat) (writing : Bool) (hmachine : x.tlb = none)
    (hfault : x.translate (ids.tid t) addr size writing =
      some (.error .pageFaultException)) :
    (∀ x', x.exceptionHandler ids t .pageFaultException addr random = some x' →
      ∀ size writing, x'.translate (ids.tid t) addr size writing ≠
        some (.error .pageFaultException)) ∧
    ∀ live flat sp, x.memory.Paged ids live flat → x.memory.space t = some sp →
      Memory.InSpace sp addr size →
        ∃ x', x.exceptionHandler ids t .pageFaultException addr random = some x' := by
  constructor
  · intro x' hx' size' writing'
    simp only [exceptionHandler, hmachine] at hx'
    obtain ⟨m, hm, rfl⟩ := Option.map_eq_some_iff.mp hx'
    exact translate_ne_fault (lookup_of_replace hm)
  · intro live flat sp hpaged hsp hin
    rcases Memory.translate_spec hpaged hsp hin writing with ⟨habsent, _⟩ | ⟨i, _, hok⟩
    · obtain ⟨m, hm, _⟩ :=
        Memory.reverseTableReplace_spec hpaged random hsp hin.page_lt habsent
      exact ⟨{ x with memory := m }, by simp [exceptionHandler, hmachine, hm]⟩
    · rw [translate, hok] at hfault
      cases hfault

/-- A machine for two threads with one page each. -/
def twoThreadMachine (useTlb : Bool) : Mmu :=
  boot useTlb (fun _ => ⟨0, 0, false, false, false, false, 0⟩) (fun _ => true)
    (fun _ => ⟨PageSize, fun _ => 0⟩) Memory.onePage fun _ => some fun _ => 0

/-- The first fetch of a program without a TLB. -/
theorem fault_resolved_first_fetch : ∃ x',
    (twoThreadMachine false).exceptionHandler Memory.twoThreads 1 .pageFaultException 0 0 =
      some x' ∧
    x'.translate 1 0 4 false ≠ some (.error .pageFaultException) := by
  obtain ⟨hresolved, hreturns⟩ := fault_resolved Memory.twoThreads (twoThreadMachine false) 1 0 4 0
    false rfl rfl
  obtain ⟨x', hx'⟩ := hreturns (· < 2) _ ⟨1, 1⟩
    (Memory.paged_boot (fun _ => true) Memory.private_twoThreads) rfl
    (by simp [Memory.InSpace, PageSize, SectorSize])
  exact ⟨x', hx', hresolved x' hx' 4 false⟩

/-! ## With a TLB -/

variable {ids : ThreadIds} {x x' : Mmu}

/-- The handler fills an entry of the TLB. -/
theorem memory_of_tlbReplace {t : ThreadPtr}
    (h : x.tlbReplace t addr = some x') : x'.memory = x.memory ∧ x'.tlb ≠ none := by
  simp only [tlbReplace] at h
  split at h
  · obtain ⟨⟨position, tlb⟩, _, rfl⟩ := Option.map_eq_some_iff.mp h
    exact ⟨rfl, by simp⟩
  · cases h

theorem memory_of_handler {t : ThreadPtr} {e : ExceptionType} {random : Nat}
    (htlb : x.tlb ≠ none) (h : x.exceptionHandler ids t e addr random = some x') :
    x'.memory = x.memory ∧ x'.tlb ≠ none := by
  simp only [exceptionHandler] at h
  split at h
  · exact memory_of_tlbReplace h
  · rename_i hnone
    exact absurd hnone htlb
  · cases h

/-- An empty table has no page. -/
theorem lookup_of_empty {m : Memory} (hempty : ∀ i, (m.rtPageTable i).valid = false)
    (tid vpn : Nat) : m.lookup tid vpn = none := by
  refine List.find?_eq_none.mpr fun i _ => ?_
  simp [hempty i]

/-- With a TLB and an empty table, an access changes the TLB only. -/
theorem memory_of_access {r : Request} (htlb : x.tlb ≠ none)
    (hempty : ∀ i, (x.memory.rtPageTable i).valid = false) (h : x.access ids r = some x') :
    x'.memory = x.memory ∧ x'.tlb ≠ none := by
  have hmiss : ∀ {addr : BitVec 32} {size : Nat} {writing : Bool} {y : Nat × Memory},
      x.translate (ids.tid r.thread) addr size writing ≠ some (.ok y) := by
    intro addr size writing y htr
    rcases Memory.translate_cases htr with ⟨he, _⟩ | ⟨e, _, he⟩ | ⟨_, i, hl, _⟩
    · cases he
    · cases he
    · rw [lookup_of_empty hempty] at hl
      cases hl
  simp only [access] at h
  split at h
  · split at h
    · cases h
    · exact memory_of_handler htlb h
    · rename_i htr
      exact absurd htr hmiss
  · split at h
    · cases h
    · exact memory_of_handler htlb h
    · rename_i htr
      exact absurd htr hmiss

/-- With a TLB, after any accesses every aligned translation is a page
fault. -/
theorem tlb_always_faults {entry : Fin TLBSize → TranslationEntry}
    {dirty : Fin NumPhysPages → Bool} {disk : Nat → CharArray}
    {space : ThreadPtr → Option AddrSpace} {pageTable : ThreadPtr → Option (Nat → Int)}
    {rs : List Request} {tid size : Nat} {addr : BitVec 32} {writing : Bool}
    (hrun : run (access ids) (boot true entry dirty disk space pageTable) rs = some x)
    (halign : Memory.misaligned addr size = false) :
    x.translate tid addr size writing = some (.error .pageFaultException) := by
  have hinv : x.tlb ≠ none ∧ ∀ i, (x.memory.rtPageTable i).valid = false := by
    refine run_preserves
      (I := fun x => x.tlb ≠ none ∧ ∀ i, (x.memory.rtPageTable i).valid = false) ?_ ?_ hrun
    · intro y r y' ⟨htlb, hempty⟩ hy
      obtain ⟨hmemory, htlb'⟩ := memory_of_access htlb hempty hy
      exact ⟨htlb', by rw [hmemory]; exact hempty⟩
    · exact ⟨by simp [boot], fun i => rfl⟩
  simp [translate, Memory.translate, halign, lookup_of_empty hinv.2]

/-- The second fetch of a program. -/
theorem tlb_always_faults_second_fetch : ∃ x,
    run (access Memory.twoThreads) (twoThreadMachine true) [⟨1, .read 0 4, 0⟩] = some x ∧
      x.translate 1 0 4 false = some (.error .pageFaultException) := by
  obtain ⟨x, hx⟩ : ∃ x, run (access Memory.twoThreads) (twoThreadMachine true)
      [⟨1, .read 0 4, 0⟩] = some x := ⟨_, rfl⟩
  exact ⟨x, hx, tlb_always_faults hx rfl⟩

/-- On the machine with a TLB the first fetch of a program faults again after
the handler. -/
theorem tlb_faults_again : ¬ ∀ (useTlb : Bool) (rs : List Request) (x x' : Mmu) (t : ThreadPtr)
    (sp : AddrSpace) (addr : BitVec 32) (size random : Nat) (writing : Bool),
    run (access Memory.twoThreads) (twoThreadMachine useTlb) rs = some x →
    x.memory.space t = some sp → Memory.InSpace sp addr size →
    x.translate (Memory.twoThreads.tid t) addr size writing =
      some (.error .pageFaultException) →
    x.exceptionHandler Memory.twoThreads t .pageFaultException addr random = some x' →
    x'.translate (Memory.twoThreads.tid t) addr size writing ≠
      some (.error .pageFaultException) := by
  intro hclaim
  obtain ⟨x', hx', hfault⟩ : ∃ x',
      (twoThreadMachine true).exceptionHandler Memory.twoThreads 0 .pageFaultException 0 0 =
        some x' ∧
      x'.translate (Memory.twoThreads.tid 0) 0 4 false =
        some (.error .pageFaultException) := ⟨_, rfl, rfl⟩
  exact hclaim true [] (twoThreadMachine true) x' 0 ⟨0, 1⟩ 0 4 0 false rfl rfl
    (by simp [Memory.InSpace, PageSize, SectorSize]) rfl hx' hfault

end Mmu

end Nachos.Machine

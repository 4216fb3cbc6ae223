import Mathlib.Data.List.Nodup
import Mathlib.Data.List.Perm.Subperm
import Nachos.Lib.Run
import Nachos.Threads.ThreadIds

/-!
# Threads come and go

The kernel calls `Thread::Thread` and `Thread::~Thread` in any order.  Both keep
two global tables, and the id of a thread that is deleted is given to a later one.
`ThreadTable` has the tables together with the objects that exist, and with
`currentThread`, which the destructor compares with its object.

The constructor has two `ASSERT`s.  The second one is about the priority, and the
tables are filled when it is reached; `ConstructError` tells the two apart.

An address is free again when its object is deleted.  So `construct` takes any
address at which no object exists.

`agrees_of_run` says that the tables describe the objects after every sequence of
calls, and that the constructor runs out of ids exactly when `MaxThreadCount`
objects exist.
-/

namespace Nachos.Threads

open Lib

/-- The `ASSERT`s of `Thread::Thread`. -/
inductive ConstructError where
  /-- `ASSERT(allocated)`. -/
  | allocated
  /-- `ASSERT(priority >= 0 && priority < 256)`. -/
  | priority
  deriving DecidableEq, Repr

/-- The tables of `threads/system.cc` and the `Thread` objects. -/
structure ThreadTable where
  ids : ThreadIds
  /-- The objects that exist. -/
  live : List ThreadPtr
  currentThread : Option ThreadPtr

inductive TableCall where
  /-- `new Thread(name, priority)`.  The object is at the address `t`. -/
  | construct (t : ThreadPtr) (priority : Int)
  /-- `delete t`. -/
  | destruct (t : ThreadPtr)
  /-- `currentThread = t`, in `Initialize` and in `Scheduler::Run`. -/
  | setCurrent (t : ThreadPtr)

namespace ThreadTable

/-- `Thread::Thread`. -/
def construct (s : ThreadTable) (t : ThreadPtr) (priority : Int) :
    Except ConstructError ThreadTable :=
  match s.ids.construct t with
  | none => .error .allocated
  | some ids =>
      if 0 ≤ priority ∧ priority < 256 then .ok { s with ids := ids, live := t :: s.live }
      else .error .priority

/-- `Thread::~Thread`.  `none` is its failed `ASSERT`. -/
def destruct (s : ThreadTable) (t : ThreadPtr) : Option ThreadTable :=
  if s.currentThread = some t then none
  else some { s with ids := s.ids.destruct t, live := s.live.erase t }

/-- One call.  An object is built at a free address, and only objects that exist are
deleted or run. -/
def step (s : ThreadTable) : TableCall → Option ThreadTable
  | .construct t priority => if t ∈ s.live then none else (s.construct t priority).toOption
  | .destruct t => if t ∈ s.live then s.destruct t else none
  | .setCurrent t => if t ∈ s.live then some { s with currentThread := some t } else none

/-- `Initialize` after its loop over the tables. -/
def init : ThreadTable where
  ids := .init
  live := []
  currentThread := none

/-- The tables describe the objects. -/
structure Agrees (s : ThreadTable) : Prop where
  distinct : ∀ t ∈ s.live, ∀ u ∈ s.live, s.ids.tid t = s.ids.tid u → t = u
  inRange : ∀ t ∈ s.live, s.ids.tid t < MaxThreadCount
  occupied : ∀ i, s.ids.threadIDOccupied i = true ↔ ∃ t ∈ s.live, s.ids.tid t = i
  poiner : ∀ t ∈ s.live, s.ids.threadPoiners (s.ids.tid t) = some t
  null : ∀ i, (∀ t ∈ s.live, s.ids.tid t ≠ i) → s.ids.threadPoiners i = none
  /-- The ids run out exactly when `MaxThreadCount` objects exist. -/
  fails : ∀ t ∉ s.live, ∀ priority,
    s.construct t priority = .error .allocated ↔ s.live.length = MaxThreadCount
  /-- Otherwise an object with a valid priority is built. -/
  succeeds : ∀ t ∉ s.live, ∀ priority, (∃ s', s.construct t priority = .ok s') ↔
    s.live.length < MaxThreadCount ∧ 0 ≤ priority ∧ priority < 256

/-! ## The invariant -/

/-- The objects are listed once. -/
structure Inv (s : ThreadTable) : Prop where
  valid : s.ids.Valid (· ∈ s.live)
  nodup : s.live.Nodup

variable {s s' : ThreadTable} {t : ThreadPtr} {priority : Int}

theorem construct_eq_ok : s.construct t priority = .ok s' ↔
    ∃ ids, s.ids.construct t = some ids ∧ (0 ≤ priority ∧ priority < 256) ∧
      s' = { s with ids := ids, live := t :: s.live } := by
  unfold construct
  cases s.ids.construct t with
  | none => simp
  | some ids =>
      by_cases hpriority : 0 ≤ priority ∧ priority < 256
      · simp only [if_pos hpriority, Except.ok.injEq]
        constructor
        · rintro rfl
          exact ⟨ids, rfl, hpriority, rfl⟩
        · rintro ⟨ids', hids, _, rfl⟩
          rw [Option.some.inj hids]
      · simp only [if_neg hpriority]
        constructor
        · rintro ⟨⟩
        · rintro ⟨_, _, hvalid, _⟩
          exact absurd hvalid hpriority

theorem construct_eq_allocated :
    s.construct t priority = .error .allocated ↔ s.ids.firstFree = none := by
  have hids : s.ids.construct t = none ↔ s.ids.firstFree = none := Option.map_eq_none_iff
  rw [← hids]
  unfold construct
  cases s.ids.construct t with
  | none => simp
  | some ids =>
      by_cases hpriority : 0 ≤ priority ∧ priority < 256
      · simp [if_pos hpriority]
      · simp [if_neg hpriority]

theorem Inv.construct (h : s.Inv) (hnew : t ∉ s.live) (hs : s.construct t priority = .ok s') :
    s'.Inv := by
  obtain ⟨ids, hids, _, rfl⟩ := construct_eq_ok.mp hs
  refine ⟨?_, List.nodup_cons.mpr ⟨hnew, h.nodup⟩⟩
  have hvalid := ThreadIds.valid_construct h.valid hnew hids
  refine hvalid.congr fun u => ?_
  rw [List.mem_cons]
  exact or_comm

theorem Inv.destruct (h : s.Inv) (hlive : t ∈ s.live) (hs : s.destruct t = some s') : s'.Inv := by
  unfold ThreadTable.destruct at hs
  split at hs
  · cases hs
  · cases hs
    refine ⟨?_, h.nodup.erase t⟩
    refine (ThreadIds.valid_destruct h.valid hlive).congr fun u => ?_
    rw [h.nodup.mem_erase_iff]
    exact and_comm

theorem Inv.step {c : TableCall} (h : s.Inv) (hs : s.step c = some s') : s'.Inv := by
  cases c with
  | construct t priority =>
      simp only [ThreadTable.step] at hs
      split at hs
      · cases hs
      · rename_i hnew
        cases hc : s.construct t priority with
        | error e =>
            rw [hc] at hs
            cases hs
        | ok m =>
            rw [hc] at hs
            cases hs
            exact h.construct hnew hc
  | destruct t =>
      simp only [ThreadTable.step] at hs
      split at hs
      · rename_i hlive
        exact h.destruct hlive hs
      · cases hs
  | setCurrent t =>
      simp only [ThreadTable.step] at hs
      split at hs
      · cases hs
        exact ⟨h.valid, h.nodup⟩
      · cases hs

theorem inv_init : init.Inv where
  valid :=
    { tid_lt := fun _ ht => absurd ht List.not_mem_nil
      poiner_eq := fun _ ht => absurd ht List.not_mem_nil
      occupied_iff := fun i => by simp [init, ThreadIds.init]
      null_of_free := fun _ _ => rfl }
  nodup := List.nodup_nil

/-! ## How many threads exist -/

/-- The ids in use are different numbers below `MaxThreadCount`. -/
theorem Inv.ids_subperm (h : s.Inv) :
    (s.live.map s.ids.tid).Subperm (List.range MaxThreadCount) := by
  have hnodup : (s.live.map s.ids.tid).Nodup :=
    List.Nodup.map_on (fun t ht u hu heq => h.valid.tid_inj ht hu heq) h.nodup
  refine hnodup.subperm fun i hi => ?_
  obtain ⟨t, ht, rfl⟩ := List.mem_map.mp hi
  exact List.mem_range.mpr (h.valid.tid_lt t ht)

theorem Inv.length_le (h : s.Inv) : s.live.length ≤ MaxThreadCount := by
  have hle := h.ids_subperm.length_le
  rwa [List.length_map, List.length_range] at hle

/-- The search finds nothing exactly when every id is in use. -/
theorem Inv.firstFree_eq_none (h : s.Inv) :
    s.ids.firstFree = none ↔ List.range MaxThreadCount ⊆ s.live.map s.ids.tid := by
  unfold ThreadIds.firstFree
  rw [List.find?_eq_none]
  refine forall₂_congr fun i _ => ?_
  rw [Bool.not_eq_true, Bool.not_eq_false', h.valid.occupied_iff, List.mem_map]

/-- The ids run out when there are as many threads as ids. -/
theorem Inv.firstFree_eq_none_iff (h : s.Inv) :
    s.ids.firstFree = none ↔ s.live.length = MaxThreadCount := by
  rw [h.firstFree_eq_none]
  constructor
  · intro hsub
    have hle := (List.nodup_range.subperm hsub).length_le
    rw [List.length_map, List.length_range] at hle
    exact Nat.le_antisymm h.length_le hle
  · intro hlength
    have hperm : (s.live.map s.ids.tid).Perm (List.range MaxThreadCount) := by
      refine h.ids_subperm.perm_of_length_le ?_
      rw [List.length_map, List.length_range]
      exact Nat.le_of_eq hlength.symm
    exact hperm.symm.subset

theorem Inv.agrees (h : s.Inv) : s.Agrees where
  distinct t ht u hu heq := h.valid.tid_inj ht hu heq
  inRange := h.valid.tid_lt
  occupied := h.valid.occupied_iff
  poiner := h.valid.poiner_eq
  null i hi := by
    refine h.valid.null_of_free i (eq_false_of_ne_true fun hocc => ?_)
    obtain ⟨t, ht, heq⟩ := (h.valid.occupied_iff i).mp hocc
    exact hi t ht heq
  fails t _ priority := by
    rw [construct_eq_allocated, h.firstFree_eq_none_iff]
  succeeds t _ priority := by
    have hfree : (∃ ids, s.ids.construct t = some ids) ↔ s.live.length < MaxThreadCount := by
      rw [← Option.isSome_iff_exists, ThreadIds.construct, Option.isSome_map,
        Option.isSome_iff_ne_none, ne_eq, h.firstFree_eq_none_iff]
      have hle := h.length_le
      omega
    rw [← hfree]
    constructor
    · rintro ⟨s', hs'⟩
      obtain ⟨ids, hids, hpriority, _⟩ := construct_eq_ok.mp hs'
      exact ⟨⟨ids, hids⟩, hpriority⟩
    · rintro ⟨⟨ids, hids⟩, hpriority⟩
      exact ⟨_, construct_eq_ok.mpr ⟨ids, hids, hpriority, rfl⟩⟩

/-- After every sequence of constructions and destructions the tables describe the
threads that exist. -/
theorem agrees_of_run (calls : List TableCall) (s : ThreadTable)
    (hrun : run step init calls = some s) : s.Agrees :=
  (run_preserves (I := Inv) (fun _ _ _ h hs => h.step hs) inv_init hrun).agrees

/-- The main thread, two more, and a third one at the address of the first that is
deleted. -/
def comeAndGo : List TableCall :=
  [.construct 0 255, .setCurrent 0, .construct 7 255, .construct 8 12, .destruct 7,
    .construct 7 0]

/-- The id of the thread that is deleted is used again. -/
theorem agrees_of_run_reused : ∃ s, run step init comeAndGo = some s ∧ s.live = [7, 8, 0] ∧
    s.live.map s.ids.tid = [1, 2, 0] ∧ s.Agrees :=
  ⟨_, rfl, rfl, rfl, agrees_of_run comeAndGo _ rfl⟩

end ThreadTable

end Nachos.Threads

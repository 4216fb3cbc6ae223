import Mathlib.Logic.Function.Basic
import Mathlib.Data.List.Basic

/-!
# The thread-id tables of `threads/system.cc`

`ThreadIDOccupied` and `thread_poiners` are two global arrays of length
`MaxThreadCount`.  The constructor `Thread::Thread` takes the first free id
and fills both arrays; the destructor `Thread::~Thread` clears both at the id
of the thread.

A `ThreadPtr` is the identity of one `Thread` object.  Two objects never share
one, also when the second is built after the first is deleted.

`Valid` ties the two arrays to the objects that exist: an id is occupied
exactly when an existing thread has it, and then the pointer at that id is
this thread.  `valid_construct` and `valid_destruct` keep it.
-/

namespace Nachos.Threads

/-- The identity of a `Thread` object. -/
abbrev ThreadPtr := Nat

/-- `MaxThreadCount` of `system.h`. -/
def MaxThreadCount : Nat := 128

/-- The two tables, and the field `tid` of every thread. -/
structure ThreadIds where
  threadIDOccupied : Nat → Bool
  threadPoiners : Nat → Option ThreadPtr
  tid : ThreadPtr → Nat

namespace ThreadIds

/-- The tables after the loop of `Initialize`: every id is free. -/
def init : ThreadIds where
  threadIDOccupied _ := false
  threadPoiners _ := none
  tid _ := 0

/-- The search loop of `Thread::Thread`: the first id that is not occupied. -/
def firstFree (ids : ThreadIds) : Option Nat :=
  (List.range MaxThreadCount).find? fun i => !ids.threadIDOccupied i

/-- The id part of `Thread::Thread` for the object `t`.  `none` is the failed
`ASSERT(allocated)`. -/
def construct (ids : ThreadIds) (t : ThreadPtr) : Option ThreadIds :=
  ids.firstFree.map fun i =>
    { threadIDOccupied := Function.update ids.threadIDOccupied i true
      threadPoiners := Function.update ids.threadPoiners i (some t)
      tid := Function.update ids.tid t i }

/-- The id part of `Thread::~Thread` for the object `t`. -/
def destruct (ids : ThreadIds) (t : ThreadPtr) : ThreadIds :=
  { ids with
    threadIDOccupied := Function.update ids.threadIDOccupied (ids.tid t) false
    threadPoiners := Function.update ids.threadPoiners (ids.tid t) none }

/-- The tables describe the existing threads `live`. -/
structure Valid (ids : ThreadIds) (live : ThreadPtr → Prop) : Prop where
  tid_lt : ∀ t, live t → ids.tid t < MaxThreadCount
  poiner_eq : ∀ t, live t → ids.threadPoiners (ids.tid t) = some t
  occupied_iff : ∀ i, ids.threadIDOccupied i = true ↔ ∃ t, live t ∧ ids.tid t = i
  null_of_free : ∀ i, ids.threadIDOccupied i = false → ids.threadPoiners i = none

variable {ids ids' : ThreadIds} {live : ThreadPtr → Prop} {t t' : ThreadPtr}

/-- The same threads exist. -/
theorem Valid.congr {live' : ThreadPtr → Prop} (h : ids.Valid live) (hsame : ∀ t, live t ↔ live' t) :
    ids.Valid live' := by
  have heq : live = live' := funext fun t => propext (hsame t)
  rwa [← heq]

/-- Two existing threads with one id are the same thread. -/
theorem Valid.tid_inj (h : ids.Valid live) (ht : live t) (ht' : live t')
    (heq : ids.tid t = ids.tid t') : t = t' := by
  have h1 := h.poiner_eq t ht
  rw [heq, h.poiner_eq t' ht'] at h1
  exact (Option.some.inj h1).symm

/-- A pointer in the table is an existing thread with that id. -/
theorem Valid.live_of_poiner {i : Nat} (h : ids.Valid live)
    (hp : ids.threadPoiners i = some t) : live t ∧ ids.tid t = i := by
  have hocc : ids.threadIDOccupied i = true := by
    by_contra hfree
    rw [Bool.not_eq_true] at hfree
    rw [h.null_of_free i hfree] at hp
    exact absurd hp (by simp)
  obtain ⟨u, hu, hui⟩ := (h.occupied_iff i).mp hocc
  have hpu := h.poiner_eq u hu
  rw [hui, hp] at hpu
  rw [Option.some.inj hpu]
  exact ⟨hu, hui⟩

/-- The id that the constructor takes is in range and was free. -/
theorem firstFree_spec {i : Nat} (h : ids.firstFree = some i) :
    i < MaxThreadCount ∧ ids.threadIDOccupied i = false := by
  rw [firstFree] at h
  have hmem := List.mem_of_find?_eq_some h
  have hfree := List.find?_some h
  exact ⟨List.mem_range.mp hmem, by simpa using hfree⟩

/-- What the constructor does to the tables. -/
theorem construct_spec (h : ids.construct t = some ids') :
    ∃ i, i < MaxThreadCount ∧ ids.threadIDOccupied i = false ∧
      ids' = { threadIDOccupied := Function.update ids.threadIDOccupied i true
               threadPoiners := Function.update ids.threadPoiners i (some t)
               tid := Function.update ids.tid t i } := by
  rw [construct, Option.map_eq_some_iff] at h
  obtain ⟨i, hi, rfl⟩ := h
  obtain ⟨hlt, hfree⟩ := firstFree_spec hi
  exact ⟨i, hlt, hfree, rfl⟩

/-- The construction of a new object keeps the tables right. -/
theorem valid_construct (hv : ids.Valid live) (hnew : ¬ live t)
    (h : ids.construct t = some ids') :
    ids'.Valid fun u => live u ∨ u = t := by
  obtain ⟨i, hlt, hfree, rfl⟩ := construct_spec h
  have hne : ∀ u, live u → u ≠ t := fun u hu he => hnew (he ▸ hu)
  have hid : ∀ u, live u → ids.tid u ≠ i := fun u hu he => by
    rw [(hv.occupied_iff i).mpr ⟨u, hu, he⟩] at hfree
    exact absurd hfree (by simp)
  refine ⟨?_, ?_, ?_, ?_⟩
  · rintro u (hu | rfl)
    · simpa [Function.update_of_ne (hne u hu)] using hv.tid_lt u hu
    · simpa using hlt
  · rintro u (hu | rfl)
    · simpa [Function.update_of_ne (hne u hu), Function.update_of_ne (hid u hu)]
        using hv.poiner_eq u hu
    · simp
  · intro j
    by_cases hj : j = i
    · subst hj
      simp only [Function.update_self, true_iff]
      exact ⟨t, Or.inr rfl, by simp⟩
    · simp only [Function.update_of_ne hj]
      rw [hv.occupied_iff j]
      constructor
      · rintro ⟨u, hu, huj⟩
        exact ⟨u, Or.inl hu, by simpa [Function.update_of_ne (hne u hu)] using huj⟩
      · rintro ⟨u, hu | rfl, huj⟩
        · exact ⟨u, hu, by simpa [Function.update_of_ne (hne u hu)] using huj⟩
        · exact absurd (by simpa using huj.symm) hj
  · intro j hj
    by_cases hji : j = i
    · subst hji
      simp at hj
    · simp only [Function.update_of_ne hji] at hj ⊢
      exact hv.null_of_free j hj

/-- The destruction of an existing object keeps the tables right, and frees
its id. -/
theorem valid_destruct (hv : ids.Valid live) (ht : live t) :
    (ids.destruct t).Valid fun u => live u ∧ u ≠ t := by
  have hid : ∀ u, live u → u ≠ t → ids.tid u ≠ ids.tid t :=
    fun u hu hne he => hne (hv.tid_inj hu ht he)
  refine ⟨fun u hu => hv.tid_lt u hu.1, ?_, ?_, ?_⟩
  · rintro u ⟨hu, hne⟩
    simpa [destruct, Function.update_of_ne (hid u hu hne)] using hv.poiner_eq u hu
  · intro j
    by_cases hj : j = ids.tid t
    · subst hj
      simp only [destruct, Function.update_self, Bool.false_eq_true, false_iff]
      rintro ⟨u, ⟨hu, hne⟩, huj⟩
      exact hid u hu hne huj
    · simp only [destruct, Function.update_of_ne hj]
      rw [hv.occupied_iff j]
      constructor
      · rintro ⟨u, hu, huj⟩
        exact ⟨u, ⟨hu, fun he => hj (by rw [← huj, he])⟩, huj⟩
      · rintro ⟨u, ⟨hu, _⟩, huj⟩
        exact ⟨u, hu, huj⟩
  · intro j hj
    by_cases hji : j = ids.tid t
    · simp [destruct, hji]
    · simp only [destruct, Function.update_of_ne hji] at hj ⊢
      exact hv.null_of_free j hj

end ThreadIds

end Nachos.Threads
